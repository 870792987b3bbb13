import MartianPendulum.Kernel.System

/-
  What an event can do to the control state.

  Key definitions include:
    * `Kernel.stroke`
    * `KeyEffect`
    * `Control.turn`
    * `Transition`

  Key theorems include:
    * `keyboardIntHandler_effect`
    * `syscallHalt_cases`
    * `pitIntHandler_cases`
    * `step_transition`
-/

------------------------------------------------------------
-- Remapping
------------------------------------------------------------

namespace MartianPendulum

namespace PageTables

/- Only the last video frame set counts. -/
theorem setVideoFrame_setVideoFrame
    (frame frame' : Nat)
    (flag flag' : Bool)
    (pt : PageTables) :
    (pt.setVideoFrame frame flag).setVideoFrame
        frame' flag' =
      pt.setVideoFrame frame' flag' := by
  simp [setVideoFrame]

end PageTables

namespace Control

/-
  A remapping for one terminal leaves no trace after a
  remapping for another one.
-/
theorem mapRunning_changeVidmemMapping
    (tid view : Tid)
    (g : Control) :
    ((g.changeVidmemMapping tid).setViewing view).mapRunning =
      (g.setViewing view).mapRunning := by
  simp only [mapRunning, changeVidmemMapping,
    switchFishPaging, setTables, setViewing,
    PageTables.setVideoFrame_setVideoFrame]
  rfl

end Control

end MartianPendulum

------------------------------------------------------------
-- The Keyboard Interrupt
------------------------------------------------------------

namespace MartianPendulum

namespace Kernel

@[simp] theorem echo_toControl
    (c : UInt8)
    (k : Kernel) :
    (k.echo c).toControl = k.mapRunning :=
  Control.mapRunning_changeVidmemMapping
    k.viewingTermPtr k.viewingTermPtr k.toControl

@[simp] theorem clear_toControl
    (k : Kernel) :
    k.clear.toControl = k.mapRunning :=
  Control.mapRunning_changeVidmemMapping
    k.viewingTermPtr k.viewingTermPtr k.toControl

theorem switchTerminal_toControl
    (target : Tid)
    (k : Kernel) :
    (k.switchTerminal target).toControl =
      if target = k.viewingTermPtr then k.toControl
      else (k.setViewing target).mapRunning := by
  unfold switchTerminal
  split
  · rfl
  · exact Control.mapRunning_changeVidmemMapping
      k.viewingTermPtr target
      (k.setScreenPtr target)

end Kernel

/- What a key is for. -/
inductive Stroke where
-- a modifier, or a key without an effect
| flags
| erase
| view (t : Tid)
| clear
| type (c : UInt8)

namespace Kernel

/- The function keys work with `alt_flag` set only. -/
def viewStroke
    (t : Tid)
    (k : Kernel) : Stroke :=
  if k.altFlag then .view t else .flags

def stroke
    (inputCode : UInt8)
    (k : Kernel) : Stroke :=
  match inputCode.toNat with
  | 0x0E => .erase
  | 0x3B => k.viewStroke tid0
  | 0x3C => k.viewStroke tid1
  | 0x3D => k.viewStroke tid2
  | _ =>
      if (k.checkAndHandleSpecialButton inputCode).isSome
      then .flags
      else if isNormalKey inputCode then
        if k.ctrlFlag ∧ (scanCodeRow inputCode).1 = ch 'l'
        then .clear
        else .type (k.whatToPut inputCode)
      else .flags

end Kernel

/-
  What a key can do.  The flags of the modifier keys are the
  part of the keyboard state that `SameLines` leaves open.
-/
structure SameLines
    (b b' : Keyboard) : Prop where
  kbdBuf : b'.kbdBuf = b.kbdBuf
  bufPos : b'.bufPos = b.bufPos
  line : b'.line = b.line

inductive KeyEffect
    (k : Kernel) :
    Stroke → Kernel → Prop
| flags (b : Keyboard) (hLines : SameLines k.toKeyboard b) :
    KeyEffect k .flags { k with toKeyboard := b }
| eraseNone (hPos : k.bufPos = 0) :
    KeyEffect k .erase k
| erase (hPos : 0 < k.bufPos) :
    KeyEffect k .erase
      { k.echo Display.backspace with
        bufPos := k.bufPos - 1 }
| stay :
    KeyEffect k (.view k.viewingTermPtr) k
| view (t : Tid) (hNe : t ≠ k.viewingTermPtr) :
    KeyEffect k (.view t) (k.switchTerminal t)
| clear :
    KeyEffect k .clear { k.clear with ctrlFlag := false }
| type (c : UInt8) (hChar : c ≠ 0) :
    KeyEffect k (.type c) (k.typeChar c)

namespace Kernel

/- Every key of the main branch has a character. -/
theorem whatToPut_ne_zero
    {inputCode : UInt8}
    (hKey : isNormalKey inputCode = true)
    (b : Keyboard) :
    b.whatToPut inputCode ≠ 0 := by
  have hRow : ∀ n < 59, 2 ≤ n →
      (scanCodeSet1.getD n (0, 0)).1 ≠ 0 ∧
        (scanCodeSet1.getD n (0, 0)).2 ≠ 0 := by
    decide
  have hRange := of_decide_eq_true hKey
  simp only [scanCodeSetSize] at hRange
  have hHere := hRow inputCode.toNat (by omega) hRange.1
  simp only [Keyboard.whatToPut, scanCodeRow]
  generalize (if isLetter inputCode = true then _ else _ :
    Bool) = shouldModify
  cases shouldModify with
  | true => exact hHere.2
  | false => exact hHere.1

theorem switchIfAlt_effect
    (t : Tid)
    (k : Kernel) :
    KeyEffect k (k.viewStroke t) (k.switchIfAlt t) := by
  unfold switchIfAlt viewStroke
  split
  · by_cases hSame : t = k.viewingTermPtr
    · rw [switchTerminal, if_pos hSame, hSame]
      exact .stay
    · exact .view t hSame
  · exact .flags k.toKeyboard ⟨rfl, rfl, rfl⟩

theorem eraseChar_effect
    (k : Kernel) :
    KeyEffect k .erase k.eraseChar := by
  unfold eraseChar
  split
  next hPos => exact .erase hPos
  next hPos => exact .eraseNone (by omega)

/- The special keys, but for the four that have strokes. -/
theorem checkAndHandleSpecialButton_effect
    {inputCode : UInt8}
    {k k' : Kernel}
    (hErase : inputCode.toNat ≠ 0x0E)
    (hView : inputCode.toNat ≠ 0x3B ∧
      inputCode.toNat ≠ 0x3C ∧ inputCode.toNat ≠ 0x3D)
    (hSpecial :
      k.checkAndHandleSpecialButton inputCode = some k') :
    KeyEffect k .flags k' := by
  unfold checkAndHandleSpecialButton at hSpecial
  split at hSpecial
  all_goals first
    | omega
    | (cases hSpecial; exact .flags _ ⟨rfl, rfl, rfl⟩)
    | cases hSpecial

theorem keyboardIntHandler_effect
    (inputCode : UInt8)
    (k : Kernel) :
    KeyEffect k (k.stroke inputCode)
      (k.keyboardIntHandler inputCode) := by
  unfold stroke
  split
  next hCode =>
    rw [keyboardIntHandler, checkAndHandleSpecialButton,
      hCode]
    exact eraseChar_effect k
  next hCode =>
    rw [keyboardIntHandler, checkAndHandleSpecialButton,
      hCode]
    exact switchIfAlt_effect tid0 k
  next hCode =>
    rw [keyboardIntHandler, checkAndHandleSpecialButton,
      hCode]
    exact switchIfAlt_effect tid1 k
  next hCode =>
    rw [keyboardIntHandler, checkAndHandleSpecialButton,
      hCode]
    exact switchIfAlt_effect tid2 k
  next hErase hOne hTwo hThree =>
    unfold keyboardIntHandler
    cases hSpecial :
        k.checkAndHandleSpecialButton inputCode with
    | some k' =>
        exact checkAndHandleSpecialButton_effect hErase
          ⟨hOne, hTwo, hThree⟩ hSpecial
    | none =>
        simp only [Option.isSome_none, Bool.false_eq_true,
          if_false]
        split
        next hKey =>
          split
          · exact .clear
          · exact .type _ (whatToPut_ne_zero hKey _)
        · exact .flags k.toKeyboard ⟨rfl, rfl, rfl⟩

end Kernel

/-
  A key leaves the control state alone, remaps for the
  running terminal, or changes the viewed terminal.
-/
theorem KeyEffect.toControl
    {k k' : Kernel}
    {a : Stroke}
    (hEffect : KeyEffect k a k') :
    k'.toControl = k.toControl ∨
    ∃ t, k'.toControl = (k.setViewing t).mapRunning := by
  cases hEffect with
  | flags b => exact Or.inl rfl
  | eraseNone => exact Or.inl rfl
  | stay => exact Or.inl rfl
  | erase =>
      exact Or.inr ⟨k.viewingTermPtr, Kernel.echo_toControl _ k⟩
  | view t hNe =>
      right
      rw [Kernel.switchTerminal_toControl, if_neg hNe]
      exact ⟨t, rfl⟩
  | clear =>
      exact Or.inr ⟨k.viewingTermPtr, Kernel.clear_toControl k⟩
  | type c =>
      exact Or.inr ⟨k.viewingTermPtr, Kernel.echo_toControl c k⟩

end MartianPendulum

------------------------------------------------------------
-- Halt
------------------------------------------------------------

namespace MartianPendulum

namespace Control

/- Giving up a pid changes the bitmap at most. -/
theorem released_eq
    (g : Control) :
    g.released =
      { g with
        pcbBitmap :=
          Function.update g.pcbBitmap g.curPid 0 } := by
  unfold released decordProcess
  split
  next hFree => simp [← hFree]
  · rfl

end Control

namespace Kernel

/- A halt with a parent returns to it. -/
theorem syscallHalt_of_parent
    (fs : FileSystem)
    (frame : CallFrame)
    (status : UInt8)
    (k : Kernel)
    (hParent : k.released.cur.parentPid ≠ -1) :
    k.syscallHalt fs frame status =
      ((k.released.haltToParent status).1,
        { k with
          toControl := (k.released.haltToParent status).2 }) :=
  if_neg hParent

/-
  A halt without a parent starts a new base shell, or goes
  on as if it had one.
-/
theorem syscallHalt_cases
    (fs : FileSystem)
    (frame : CallFrame)
    (status : UInt8)
    (k : Kernel)
    (hParent : k.released.cur.parentPid = -1) :
    (∃ n args eip d,
      k.orphaned.freePid = some n ∧
      k.syscallHalt fs frame status =
        (.started n eip,
          { k with
            toControl := k.orphaned.spawn n args frame.toRegs
            toDisplay := d })) ∨
    ((Loadable fs shellName → k.orphaned.freePid = none) ∧
      ∃ d,
        k.syscallHalt fs frame status =
          ((k.orphaned.haltToParent status).1,
            { k with
              toControl :=
                (k.orphaned.haltToParent status).2
              toDisplay := d })) := by
  rcases syscallExecute_shell_cases fs frame
      (k.setControl Control.orphaned) with
    ⟨n, args, eip, d, hFree, hExec⟩ | ⟨hFail, v, d, hExec⟩
  · left
    refine ⟨n, args, eip, d, hFree, ?_⟩
    rw [syscallHalt, if_pos hParent, hExec]
    rfl
  · right
    refine ⟨hFail,
      (printf "This should not be printed!\n"
        { k.setControl Control.orphaned with
          toDisplay := d }).toDisplay, ?_⟩
    rw [syscallHalt, if_pos hParent, hExec]
    rfl

end Kernel

end MartianPendulum

------------------------------------------------------------
-- The Timer Interrupt
------------------------------------------------------------

namespace MartianPendulum

namespace Control

/-
  `pit_int_handler` and `schedule` up to the test of the
  next pid.
-/
def turn
    (regs : Regs)
    (g : Control) : Control :=
  ((g.changeVidmemMapping
    (nextTermToRun g.runningTermPtr)).saveCurrent
      regs).selectNext

end Control

namespace Kernel

/- A tick resumes a process that exists. -/
theorem pitIntHandler_of_pid
    (fs : FileSystem)
    (regs : Regs)
    (frame : CallFrame)
    (k : Kernel)
    (hPid : (k.turn regs).curPid ≠ -1) :
    k.pitIntHandler fs regs frame =
      (((k.turn regs).resume (k.turn regs).curPid).1,
        { k with
          toControl :=
            ((k.turn regs).resume
              (k.turn regs).curPid).2 }) :=
  if_neg hPid

/-
  A tick of a terminal without a process starts its base
  shell, or goes on with pid -1.
-/
theorem pitIntHandler_cases
    (fs : FileSystem)
    (regs : Regs)
    (frame : CallFrame)
    (k : Kernel)
    (hPid : (k.turn regs).curPid = -1) :
    (∃ n args eip d,
      (k.turn regs).freePid = some n ∧
      k.pitIntHandler fs regs frame =
        (.started n eip,
          { k with
            toControl :=
              (k.turn regs).spawn n args frame.toRegs
            toDisplay := d })) ∨
    ((Loadable fs shellName →
        (k.turn regs).freePid = none) ∧
      ∃ d,
        k.pitIntHandler fs regs frame =
          (((k.turn regs).resume (-1)).1,
            { k with
              toControl := ((k.turn regs).resume (-1)).2
              toDisplay := d })) := by
  let k₁ := k.setControl (Control.turn regs)
  have hTick : k.pitIntHandler fs regs frame =
      k₁.enterNext fs frame := rfl
  have hNext : k₁.curPid = -1 := hPid
  rcases syscallExecute_shell_cases fs frame
      (k₁.printf (terminalBar k₁.runningTermPtr)) with
    ⟨n, args, eip, d, hFree, hExec⟩ | ⟨hFail, v, d, hExec⟩
  · left
    refine ⟨n, args, eip, d, hFree, ?_⟩
    rw [hTick, enterNext, if_pos hNext, launchBaseShell,
      hExec]
    rfl
  · right
    refine ⟨hFail,
      (printf "This should not be printed!\n"
        { k₁ with toDisplay := d }).toDisplay, ?_⟩
    rw [hTick, enterNext, if_pos hNext, launchBaseShell,
      hExec, hNext]
    rfl

end Kernel

end MartianPendulum

------------------------------------------------------------
-- Transitions
------------------------------------------------------------

namespace MartianPendulum

/- The effect of a successful `syscall_vidmap`. -/
def Control.vidmapped
    (g : Control) : Control :=
  (g.setTables
    (PageTables.switchUsrmap g.runningFrame 1)).setVidmap
      true

/- The events that can leave the control state alone. -/
def Event.mayIdle : Event → Bool
| .tick _ _ => false
| .halt _ _ => false
| _ => true

/-
  What an event can do to the control state, and where the
  processor goes.  `stuck` and `fallThrough` are the paths
  on which `"This should not be printed!"` is printed; both
  end in a page fault of the kernel.
-/
inductive Transition
    (fs : FileSystem)
    (g : Control) :
    Event → Outcome → Control → Prop
| idle (e : Event) (v : Int) (hIdle : e.mayIdle = true) :
    Transition fs g e (.returned v) g
| view (inputCode : UInt8) (t : Tid) :
    Transition fs g (.key inputCode) (.returned 0)
      (g.setViewing t).mapRunning
| vidmap (screenStart : UInt32) (v : Int) :
    Transition fs g (.vidmap screenStart) (.returned v)
      g.vidmapped
| spawn (frame : CallFrame) (userInput : Option Ptr)
    (n : Int) (args : Ptr) (eip : Nat)
    (hFree : g.freePid = some n) :
    Transition fs g (.execute frame userInput)
      (.started n eip) (g.spawn n args frame.toRegs)
| ret (frame : CallFrame) (status : UInt8)
    (hParent : g.released.cur.parentPid ≠ -1) :
    Transition fs g (.halt frame status)
      (g.released.haltToParent status).1
      (g.released.haltToParent status).2
| restart (frame : CallFrame) (status : UInt8)
    (n : Int) (args : Ptr) (eip : Nat)
    (hParent : g.released.cur.parentPid = -1)
    (hFree : g.orphaned.freePid = some n) :
    Transition fs g (.halt frame status)
      (.started n eip)
      (g.orphaned.spawn n args frame.toRegs)
| stuck (frame : CallFrame) (status : UInt8)
    (hParent : g.released.cur.parentPid = -1)
    (hFail :
      Loadable fs shellName → g.orphaned.freePid = none) :
    Transition fs g (.halt frame status)
      (g.orphaned.haltToParent status).1
      (g.orphaned.haltToParent status).2
| resume (regs : Regs) (frame : CallFrame)
    (hPid : (g.turn regs).curPid ≠ -1) :
    Transition fs g (.tick regs frame)
      ((g.turn regs).resume (g.turn regs).curPid).1
      ((g.turn regs).resume (g.turn regs).curPid).2
| launch (regs : Regs) (frame : CallFrame)
    (n : Int) (args : Ptr) (eip : Nat)
    (hPid : (g.turn regs).curPid = -1)
    (hFree : (g.turn regs).freePid = some n) :
    Transition fs g (.tick regs frame)
      (.started n eip)
      ((g.turn regs).spawn n args frame.toRegs)
| fallThrough (regs : Regs) (frame : CallFrame)
    (hPid : (g.turn regs).curPid = -1)
    (hFail :
      Loadable fs shellName → (g.turn regs).freePid = none) :
    Transition fs g (.tick regs frame)
      ((g.turn regs).resume (-1)).1
      ((g.turn regs).resume (-1)).2

namespace Kernel

theorem syscallVidmap_toControl
    (screenStart : UInt32)
    (k : Kernel) :
    (k.syscallVidmap screenStart).2.toControl =
      k.toControl ∨
    (k.syscallVidmap screenStart).2.toControl =
      k.vidmapped := by
  unfold syscallVidmap
  dsimp only
  split
  · exact Or.inl rfl
  · split
    · exact Or.inl rfl
    · exact Or.inr rfl

/- Every step is one of the transitions. -/
theorem step_transition
    (fs : FileSystem)
    (k : Kernel)
    (e : Event) :
    Transition fs k.toControl e (k.handle fs e).1
      (k.step fs e).toControl := by
  unfold step
  cases e with
  | tick regs frame =>
      simp only [handle]
      by_cases hPid : (k.turn regs).curPid = -1
      · rcases k.pitIntHandler_cases fs regs frame hPid with
          ⟨n, args, eip, d, hFree, hTick⟩ |
          ⟨hFail, d, hTick⟩
        · rw [hTick]
          exact .launch regs frame n args eip hPid hFree
        · rw [hTick]
          exact .fallThrough regs frame hPid hFail
      · rw [k.pitIntHandler_of_pid fs regs frame hPid]
        exact .resume regs frame hPid
  | execute frame userInput =>
      simp only [handle]
      rcases k.syscallExecute_cases fs frame userInput with
        ⟨v, d, hExec⟩ | ⟨n, args, eip, d, hFree, hExec⟩
      · rw [hExec]
        exact .idle _ v rfl
      · rw [hExec]
        exact .spawn frame userInput n args eip hFree
  | halt frame status =>
      simp only [handle]
      by_cases hParent : k.released.cur.parentPid = -1
      · rcases k.syscallHalt_cases fs frame status
            hParent with
          ⟨n, args, eip, d, hFree, hHalt⟩ |
          ⟨hFail, d, hHalt⟩
        · rw [hHalt]
          exact .restart frame status n args eip hParent
            hFree
        · rw [hHalt]
          exact .stuck frame status hParent hFail
      · rw [k.syscallHalt_of_parent fs frame status hParent]
        exact .ret frame status hParent
  | vidmap screenStart =>
      simp only [handle]
      rcases k.syscallVidmap_toControl screenStart with
        hSame | hMapped
      · rw [hSame]
        exact .idle _ _ rfl
      · rw [hMapped]
        exact .vidmap screenStart _
  | write bytes => exact .idle _ _ rfl
  | store off b => exact .idle _ _ rfl
  | key inputCode =>
      have hEffect := k.keyboardIntHandler_effect inputCode
      simp only [handle]
      rcases hEffect.toControl with hSame | ⟨t, hView⟩
      · rw [hSame]
        exact .idle _ 0 rfl
      · rw [hView]
        exact .view inputCode t

end Kernel

end MartianPendulum

------------------------------------------------------------
-- Fields After a Creation
------------------------------------------------------------

namespace MartianPendulum

namespace Control

variable (n : Int)
variable (args : Ptr)
variable (regs : Regs)
variable (g : Control)

/-
  The PCBs after a creation: the new one is filled in, and
  the registers of the creator are saved.
-/
def spawnPcb : Int → PCB :=
  let filled := Function.update g.pcb (getPcbPtr n)
    (initPcb n g.curPid args (g.pcb (getPcbPtr n)))
  if g.curPid ≠ -1 then
    Function.update filled g.curPcbPtr
      { filled g.curPcbPtr with
        esp := regs.esp
        ebp := regs.ebp }
  else filled

theorem spawn_eq :
    g.spawn n args regs =
      { g with
        pcbBitmap := Function.update g.pcbBitmap n 1
        curPid := n
        curPcbPtr := getPcbPtr n
        pcb := g.spawnPcb n args regs
        tss :=
          { ss0 := kernelDs
            esp0 :=
              (g.spawnPcb n args regs
                (getPcbPtr n)).tssEsp0 }
        toPageTables := g.toPageTables.setupPaging n } := by
  by_cases hCur : g.curPid = -1
  · simp [spawn, startProcess, spawnPcb, setTables, setPcb,
      hCur]
  · simp [spawn, startProcess, spawnPcb, setTables, setPcb,
      saveRegs, hCur]

end Control

end MartianPendulum

------------------------------------------------------------
-- Fields After a Halt
------------------------------------------------------------

namespace MartianPendulum

namespace Control

/- The halted PCB keeps all but its files and its page. -/
def haltedPcb
    (p : PCB) : PCB :=
  { p with
    vidmapFlag := false
    pcbFds := ([0, 1, 2, 3, 4, 5, 6, 7] : List Int).foldl
      (fun table i => (syscallClose i table).2)
      p.pcbFds }

theorem haltToParent_eq
    {g : Control}
    (hParent : g.cur.parentPid ≠ -1)
    (status : UInt8) :
    (g.haltToParent status).2 =
      { g with
        curPid := g.cur.parentPid
        curPcbPtr := getPcbPtr g.cur.parentPid
        pcb := Function.update g.pcb g.curPcbPtr
          (haltedPcb g.cur)
        tss :=
          { ss0 := kernelDs
            esp0 :=
              (g.pcb (getPcbPtr g.cur.parentPid)).tssEsp0 }
        termArr :=
          if g.cur.vidmapFlag then
            Function.update g.termArr g.runningTermPtr
              { g.termArr g.runningTermPtr with
                vidmapFlag := false }
          else g.termArr
        toPageTables :=
          if g.cur.vidmapFlag then
            (g.toPageTables.setupPaging
              g.cur.parentPid).switchUsrmap g.runningFrame 0
          else
            g.toPageTables.setupPaging g.cur.parentPid } := by
  cases hFlag : g.cur.vidmapFlag with
  | true =>
      have hHere := hFlag
      unfold cur at hHere hParent
      simp [haltToParent, closeAll, switchUserMapping,
        setVidmap, setTables, setPcb, setTerm, cur,
        haltedPcb, runningFrame, hHere, hParent]
  | false =>
      have hHere := hFlag
      unfold cur at hHere hParent
      simp [haltToParent, closeAll, switchUserMapping,
        setTables, setPcb, cur, haltedPcb, hHere, hParent]

/- A base shell has no parent whose stack could be read. -/
theorem haltToParent_orphaned
    {g : Control}
    (hParent : g.released.cur.parentPid = -1)
    (status : UInt8) :
    g.orphaned.haltToParent status =
      (.faulted,
        { g.orphaned with
          tss := { g.tss with ss0 := kernelDs } }) := by
  have hSame : g.orphaned.cur.parentPid = -1 := hParent
  have hTss : g.orphaned.tss = g.tss := by
    unfold orphaned
    rw [g.released_eq]
  simp only [haltToParent, hSame, if_true, hTss]

/- A field that a halt leaves alone keeps its value. -/
theorem apply_haltedPcb
    {β : Type}
    (field : PCB → β)
    (hField : ∀ p, field (haltedPcb p) = field p)
    (g : Control)
    (a : Int) :
    field (Function.update g.pcb g.curPcbPtr
        (haltedPcb g.cur) a) =
      field (g.pcb a) := by
  by_cases hCur : a = g.curPcbPtr
  · subst hCur
    rw [Function.update_self, hField]
    rfl
  · rw [Function.update_of_ne hCur]

/- The registers that `syscall_halt` loads. -/
theorem haltToParent_outcome
    {g : Control}
    (hParent : g.cur.parentPid ≠ -1)
    (status : UInt8) :
    (g.haltToParent status).1 =
      .restored
        { esp := (g.pcb (getPcbPtr g.cur.parentPid)).esp
          ebp := (g.pcb (getPcbPtr g.cur.parentPid)).ebp }
        (if status = 255 then 256 else status.toNat) := by
  have hOutcome : (g.haltToParent status).1 =
      .restored
        { esp := ((g.haltToParent status).2.pcb
            (getPcbPtr g.cur.parentPid)).esp
          ebp := ((g.haltToParent status).2.pcb
            (getPcbPtr g.cur.parentPid)).ebp }
        (if status = 255 then 256 else status.toNat) := by
    simp only [haltToParent, hParent, if_false]
  rw [hOutcome, haltToParent_eq hParent]
  simp only [g.apply_haltedPcb PCB.esp (fun _ => rfl),
    g.apply_haltedPcb PCB.ebp (fun _ => rfl)]

end Control

end MartianPendulum

------------------------------------------------------------
-- Fields After a Tick
------------------------------------------------------------

namespace MartianPendulum

theorem nextTermToRun_ne
    (t : Tid) :
    nextTermToRun t ≠ t := by
  revert t
  decide

namespace Control

variable (regs : Regs)
variable (g : Control)

/- The PCBs after the running process is suspended. -/
def turnPcb : Int → PCB :=
  if g.curPid ≠ -1 then
    Function.update g.pcb g.curPcbPtr
      { g.cur with
        tssEsp0 := g.tss.esp0
        esp := regs.esp
        ebp := regs.ebp }
  else g.pcb

theorem turn_eq :
    g.turn regs =
      { g with
        runningTermPtr := nextTermToRun g.runningTermPtr
        screenXPtr := nextTermToRun g.runningTermPtr
        screenYPtr := nextTermToRun g.runningTermPtr
        curPid :=
          (g.termArr (nextTermToRun g.runningTermPtr)).pid
        curPcbPtr := getPcbPtr
          (g.termArr (nextTermToRun g.runningTermPtr)).pid
        pcb := g.turnPcb regs
        termArr := Function.update g.termArr
          g.runningTermPtr
          { g.termArr g.runningTermPtr with
            pid := g.curPid }
        toPageTables :=
          (g.changeVidmemMapping
            (nextTermToRun g.runningTermPtr)).toPageTables
      } := by
  have hNe := nextTermToRun_ne g.runningTermPtr
  by_cases hCur : g.curPid = -1
  · simp [turn, selectNext, saveCurrent, turnPcb, setTerm,
      changeVidmemMapping, switchFishPaging, setTables,
      Function.update_of_ne hNe, hCur]
  · simp [turn, selectNext, saveCurrent, turnPcb, setTerm,
      changeVidmemMapping, switchFishPaging, setTables,
      setPcb, saveRegs, cur, Function.update_of_ne hNe,
      hCur]

theorem viewing_turn :
    (g.turn regs).viewingTermPtr = g.viewingTermPtr := by
  rw [turn_eq]

/-
  The kernel after the last blocks of `schedule`.  With pid
  -1 the stack is not replaced any more.
-/
theorem resume_eq
    (nextPid : Int) :
    (g.resume nextPid).2 =
      { g with
        tss :=
          { ss0 := kernelDs
            esp0 :=
              if nextPid = -1 then g.tss.esp0
              else (g.pcb (getPcbPtr nextPid)).tssEsp0 }
        toPageTables := g.toPageTables.setupPaging nextPid
      } := by
  by_cases hPid : nextPid = -1
  · simp [resume, setTables, hPid]
  · simp [resume, setTables, hPid]

/- The registers that `schedule` loads. -/
theorem resume_outcome
    {nextPid : Int}
    (hPid : nextPid ≠ -1) :
    (g.resume nextPid).1 =
      .switched
        { esp := (g.pcb (getPcbPtr nextPid)).esp
          ebp := (g.pcb (getPcbPtr nextPid)).ebp } := by
  simp only [resume, hPid, if_false]

end Control

end MartianPendulum

------------------------------------------------------------
-- The Viewed Terminal and the Keyboard
------------------------------------------------------------

namespace MartianPendulum

/- Only keys change which terminal is viewed. -/
theorem Transition.viewing
    {fs : FileSystem}
    {g g' : Control}
    {e : Event}
    {o : Outcome}
    (hStep : Transition fs g e o g')
    (hKey : ∀ inputCode, e ≠ .key inputCode) :
    g'.viewingTermPtr = g.viewingTermPtr := by
  cases hStep with
  | idle => rfl
  | view inputCode t => exact absurd rfl (hKey inputCode)
  | vidmap => rfl
  | spawn => rw [Control.spawn_eq]
  | ret _ _ hParent =>
      rw [Control.haltToParent_eq hParent, g.released_eq]
  | restart =>
      rw [Control.spawn_eq]
      unfold Control.orphaned
      rw [g.released_eq]
  | stuck _ _ hParent =>
      rw [Control.haltToParent_orphaned hParent]
      unfold Control.orphaned
      rw [g.released_eq]
  | resume regs =>
      rw [Control.resume_eq]
      exact g.viewing_turn regs
  | launch regs => rw [Control.spawn_eq, Control.turn_eq]
  | fallThrough regs =>
      rw [Control.resume_eq]
      exact g.viewing_turn regs

/- A tick moves to the next terminal. -/
theorem Transition.running_tick
    {fs : FileSystem}
    {g g' : Control}
    {regs : Regs}
    {frame : CallFrame}
    {o : Outcome}
    (hStep : Transition fs g (.tick regs frame) o g') :
    g'.runningTermPtr = nextTermToRun g.runningTermPtr := by
  have hNext : (g.turn regs).runningTermPtr =
      nextTermToRun g.runningTermPtr := by
    rw [Control.turn_eq]
  cases hStep with
  | idle _ _ hIdle => cases hIdle
  | resume =>
      rw [Control.resume_eq]
      exact hNext
  | launch =>
      rw [Control.spawn_eq]
      exact hNext
  | fallThrough =>
      rw [Control.resume_eq]
      exact hNext

/- Only keys change the keyboard. -/
theorem Kernel.step_toKeyboard
    (fs : FileSystem)
    (k : Kernel)
    {e : Event}
    (hKey : ∀ inputCode, e ≠ .key inputCode) :
    (k.step fs e).toKeyboard = k.toKeyboard := by
  unfold step
  cases e with
  | tick regs frame =>
      simp only [handle]
      by_cases hPid : (k.turn regs).curPid = -1
      · rcases k.pitIntHandler_cases fs regs frame hPid with
          ⟨n, args, eip, d, hFree, hTick⟩ |
          ⟨hFail, d, hTick⟩
        · rw [hTick]
        · rw [hTick]
      · rw [k.pitIntHandler_of_pid fs regs frame hPid]
  | execute frame userInput =>
      simp only [handle]
      rcases k.syscallExecute_cases fs frame userInput with
        ⟨v, d, hExec⟩ | ⟨n, args, eip, d, hFree, hExec⟩
      · rw [hExec]
      · rw [hExec]
  | halt frame status =>
      simp only [handle]
      by_cases hParent : k.released.cur.parentPid = -1
      · rcases k.syscallHalt_cases fs frame status
            hParent with
          ⟨n, args, eip, d, hFree, hHalt⟩ |
          ⟨hFail, d, hHalt⟩
        · rw [hHalt]
        · rw [hHalt]
      · rw [k.syscallHalt_of_parent fs frame status hParent]
  | vidmap screenStart =>
      simp only [handle, syscallVidmap]
      split
      · rfl
      · split
        · rfl
        · rfl
  | write bytes => rfl
  | store off b => rfl
  | key inputCode => exact absurd rfl (hKey inputCode)

end MartianPendulum
