import MartianPendulum.Process.Invariant

/-
  Execute and halt as call and return.

  A run is traced with the call that created each process.
  The frame that this call left in the PCB of its caller is
  still there when the process halts: a suspended parent is
  on no top of a stack, and ticks and creations write the
  PCBs of tops and of free pids only.

  Key definitions include:
    * `Traced`
    * `traceStep`
    * `Saved`

  Key theorems include:
    * `Saved.transition`
    * `halt_returns_to_execute`
-/

------------------------------------------------------------
-- Traced Runs
------------------------------------------------------------

namespace MartianPendulum

/- The caller of `syscall_execute`, and what it saved. -/
structure Call where
  caller : Int
  regs : Regs

/-
  A kernel with the last call that created each pid.  A base
  shell has no call.
-/
structure Traced where
  kernel : Kernel
  creator : Int → Option Call

/- The calls after an event of process `caller`. -/
def recordCall
    (creator : Int → Option Call)
    (caller : Int)
    (e : Event) :
    Outcome → Int → Option Call
| .started c _ =>
    match e with
    | .execute frame _ =>
        Function.update creator c
          (some { caller := caller, regs := frame.toRegs })
    | _ => Function.update creator c none
| _ => creator

def traceStep
    (fs : FileSystem)
    (s : Traced)
    (e : Event) : Traced :=
  { kernel := s.kernel.step fs e
    creator := recordCall s.creator s.kernel.curPid e
      (s.kernel.handle fs e).1 }

/-
  The PCB of every parent holds the frame of the call that
  created the child.
-/
def Saved
    (g : Control)
    (creator : Int → Option Call) : Prop :=
  ∀ c, g.live c → g.parentOf c ≠ -1 →
    ∃ call,
      creator c = some call ∧
      call.caller = g.parentOf c ∧
      (g.pcbOf (g.parentOf c)).esp = call.regs.esp ∧
      (g.pcbOf (g.parentOf c)).ebp = call.regs.ebp

end MartianPendulum

------------------------------------------------------------
-- Creations
------------------------------------------------------------

namespace MartianPendulum

namespace Processes

variable {g : Control}
variable {stack : Tid → List Int}

/- The parent of a live process is not running. -/
theorem parent_ne_curPid
    (hProc : Processes g stack)
    {c : Int}
    (hLive : g.live c)
    (hParent : g.parentOf c ≠ -1) :
    g.parentOf c ≠ g.curPid := by
  have hTop := hProc.forest.parent_ne_top hLive hParent
    g.runningTermPtr
  rwa [active_running] at hTop

/- A creation saves the registers of its caller. -/
theorem spawn_saves
    (hProc : Processes g stack)
    (hCur : g.curPid ≠ -1)
    (n : Int)
    (args : Ptr)
    (regs : Regs) :
    ((g.spawn n args regs).pcbOf g.curPid).esp = regs.esp ∧
      ((g.spawn n args regs).pcbOf g.curPid).ebp =
        regs.ebp := by
  rw [Control.spawn_eq]
  simp only [Control.pcbOf, Control.spawnPcb, hCur, ne_eq,
    not_false_iff, if_true, ← hProc.curPcb hCur,
    Function.update_self, and_self]

end Processes

namespace Saved

variable {g : Control}
variable {stack : Tid → List Int}
variable {creator : Int → Option Call}

/- A creation adds the frame of its own call. -/
theorem spawn
    (hSaved : Saved g creator)
    (hProc : Processes g stack)
    {n : Int}
    (hFree : g.freePid = some n)
    (args : Ptr)
    (regs : Regs)
    {call : Option Call}
    (hCall : g.curPid ≠ -1 →
      call = some { caller := g.curPid, regs := regs }) :
    Saved (g.spawn n args regs)
      (Function.update creator n call) := by
  have hDead := Control.not_live_of_freePid hFree
  intro c hLive hParent
  rw [Control.spawn_parentOf] at hParent ⊢
  by_cases hNew : c = n
  · subst hNew
    rw [if_pos rfl] at hParent ⊢
    refine ⟨{ caller := g.curPid, regs := regs }, ?_, rfl,
      hProc.spawn_saves hParent c args regs⟩
    rw [Function.update_self, hCall hParent]
  · rw [if_neg hNew] at hParent ⊢
    have hOld : g.live c := by
      rw [Control.spawn_eq] at hLive
      exact ⟨hLive.1, by simpa [hNew] using hLive.2⟩
    rcases hSaved c hOld hParent with
      ⟨old, hCreator, hFrame⟩
    have hUp := hProc.forest.parent_live hOld hParent
    have hNe : g.parentOf c ≠ n := by
      intro hEq
      exact hDead (hEq ▸ hUp)
    refine ⟨old, ?_, ?_⟩
    · rwa [Function.update_of_ne hNew]
    · rwa [Control.spawn_pcbOf hProc.curPcb n args regs hNe
        (hProc.parent_ne_curPid hOld hParent)]

/- Fewer live processes with the same PCBs. -/
theorem mono
    {g' : Control}
    (hSaved : Saved g creator)
    (hLive : ∀ p, g'.live p → g.live p)
    (hParent : ∀ p, (g'.pcbOf p).parentPid =
      (g.pcbOf p).parentPid)
    (hFrame : ∀ c, g.live c → g.parentOf c ≠ -1 →
      (g'.pcbOf (g.parentOf c)).esp =
          (g.pcbOf (g.parentOf c)).esp ∧
        (g'.pcbOf (g.parentOf c)).ebp =
          (g.pcbOf (g.parentOf c)).ebp) :
    Saved g' creator := by
  intro c hc hNone
  have hSame : g'.parentOf c = g.parentOf c := hParent c
  rw [hSame] at hNone ⊢
  rcases hSaved c (hLive c hc) hNone with
    ⟨call, hCreator, hCaller, hEsp, hEbp⟩
  rcases hFrame c (hLive c hc) hNone with ⟨hEsp', hEbp'⟩
  exact ⟨call, hCreator, hCaller, hEsp'.trans hEsp,
    hEbp'.trans hEbp⟩

end Saved

end MartianPendulum

------------------------------------------------------------
-- Steps
------------------------------------------------------------

namespace MartianPendulum

/- A field that a vidmap call leaves alone. -/
theorem apply_vidmapped
    {β : Type}
    (field : PCB → β)
    (hField : ∀ (p : PCB) (flag : Bool),
      field { p with vidmapFlag := flag } = field p)
    (g : Control)
    (a : Int) :
    field (g.vidmapped.pcb a) = field (g.pcb a) := by
  simp only [Control.vidmapped, Control.setVidmap,
    Control.setTerm, Control.setPcb, Control.setTables]
  by_cases hCur : a = g.curPcbPtr
  · subst hCur
    rw [Function.update_self, hField]
  · rw [Function.update_of_ne hCur]

/- A turn writes the PCB of the current process only. -/
theorem Processes.turn_pcbOf
    {g : Control}
    {stack : Tid → List Int}
    (hProc : Processes g stack)
    (hCur : g.curPid ≠ -1)
    (regs : Regs)
    {p : Int}
    (hOther : p ≠ g.curPid) :
    (g.turn regs).pcbOf p = g.pcbOf p := by
  rw [Control.turn_eq]
  simp only [Control.pcbOf, Control.turnPcb, hCur, ne_eq,
    not_false_iff, if_true, hProc.curPcb hCur]
  exact Function.update_of_ne
    (getPcbPtr_injective.ne hOther) _ _

/- A release frees one pid and leaves the PCBs alone. -/
theorem live_of_released
    {g : Control}
    {p : Int}
    (hLive : g.released.live p) :
    g.live p := by
  rw [g.released_eq] at hLive
  refine ⟨hLive.1, ?_⟩
  by_cases hGone : p = g.curPid
  · have hZero := hLive.2
    simp [hGone] at hZero
  · simpa [hGone] using hLive.2

theorem released_pcbOf
    (g : Control)
    (p : Int) :
    g.released.pcbOf p = g.pcbOf p := by
  rw [g.released_eq]
  rfl

namespace Saved

variable {g : Control}
variable {stack : Tid → List Int}
variable {creator : Int → Option Call}

theorem vidmapped
    (hSaved : Saved g creator) :
    Saved g.vidmapped creator := by
  refine hSaved.mono (fun _ h => h) ?_ ?_
  · intro p
    exact apply_vidmapped PCB.parentPid (fun _ _ => rfl) g _
  · intro c _ _
    exact ⟨apply_vidmapped PCB.esp (fun _ _ => rfl) g _,
      apply_vidmapped PCB.ebp (fun _ _ => rfl) g _⟩

theorem haltToParent
    (hSaved : Saved g creator)
    (hParent : g.released.cur.parentPid ≠ -1)
    (status : UInt8) :
    Saved (g.released.haltToParent status).2 creator := by
  rw [Control.haltToParent_eq hParent]
  have hKeep : ∀ {β : Type} (field : PCB → β),
      (∀ p, field (Control.haltedPcb p) = field p) →
      ∀ a, field (Function.update g.released.pcb
        g.released.curPcbPtr
        (Control.haltedPcb g.released.cur) a) =
          field (g.pcb a) := by
    intro β field hField a
    rw [g.released.apply_haltedPcb field hField a]
    rw [g.released_eq]
  refine hSaved.mono (fun _ h => live_of_released h) ?_ ?_
  · intro p
    exact hKeep PCB.parentPid (fun _ => rfl) _
  · intro c _ _
    exact ⟨hKeep PCB.esp (fun _ => rfl) _,
      hKeep PCB.ebp (fun _ => rfl) _⟩

theorem orphaned
    (hSaved : Saved g creator) :
    Saved g.orphaned creator := by
  refine hSaved.mono (fun _ h => live_of_released h) ?_ ?_
  · intro p
    exact congrArg PCB.parentPid (released_pcbOf g p)
  · intro c _ _
    have hKeep := released_pcbOf g (g.parentOf c)
    exact ⟨congrArg PCB.esp hKeep, congrArg PCB.ebp hKeep⟩

theorem resume
    (hSaved : Saved g creator)
    (hProc : Processes g stack)
    (hStack : OnStack g)
    (hCur : g.curPid ≠ -1)
    (regs : Regs)
    (nextPid : Int) :
    Saved ((g.turn regs).resume nextPid).2 creator := by
  rw [Control.resume_eq]
  refine hSaved.mono ?_ ?_ ?_
  · intro p hp
    refine ⟨hp.1, ?_⟩
    have hOne := hp.2
    simp only [Control.turn_eq] at hOne
    exact hOne
  · intro p
    exact (hProc.samePlace_turn hStack regs _).parentPid
  · intro c hc hParent
    have hKeep := hProc.turn_pcbOf hCur regs
      (hProc.parent_ne_curPid hc hParent)
    exact ⟨congrArg PCB.esp hKeep, congrArg PCB.ebp hKeep⟩

/- Every step keeps the frames of the suspended parents. -/
theorem transition
    {fs : FileSystem}
    (hShell : Loadable fs shellName)
    {g' : Control}
    {e : Event}
    {o : Outcome}
    (hSaved : Saved g creator)
    (hSettled : Settled g)
    (hStep : Transition fs g e o g') :
    Saved g' (recordCall creator g.curPid e o) := by
  have hCur := hSettled.curPid_ne
  have hActive := hSettled.active
  rcases hSettled.scheduled with ⟨stack, hProc, hStack⟩
  cases hStep with
  | idle => exact hSaved
  | view inputCode t => exact hSaved
  | vidmap screenStart v => exact hSaved.vidmapped
  | spawn frame userInput n args eip hFree =>
      exact hSaved.spawn hProc hFree args frame.toRegs
        (fun _ => rfl)
  | ret frame status hParent =>
      rw [Control.haltToParent_outcome hParent]
      exact hSaved.haltToParent hParent status
  | restart frame status n args eip hParent hFree =>
      exact hSaved.orphaned.spawn
        (hProc.orphaned hCur hParent) hFree args
        frame.toRegs (fun hNone => absurd rfl hNone)
  | stuck frame status hParent hFail =>
      exact absurd (hFail hShell)
        (hProc.orphaned_freePid hCur)
  | resume regs frame hPid =>
      rw [Control.resume_outcome _ hPid]
      exact hSaved.resume hProc hStack hCur regs _
  | launch regs frame n args eip hPid hFree =>
      rw [Processes.turn_curPid] at hPid
      exact absurd hPid (hActive _)
  | fallThrough regs frame hPid hFail =>
      rw [Processes.turn_curPid] at hPid
      exact absurd hPid (hActive _)

end Saved

end MartianPendulum

------------------------------------------------------------
-- Call and Return
------------------------------------------------------------

namespace MartianPendulum

/- The base shells have no parents. -/
theorem saved_of_launched
    {fs : FileSystem}
    (hShell : Loadable fs shellName)
    {k : Kernel}
    (hStart : Launched fs k) :
    Saved k.toControl (fun _ => none) := by
  rcases (hStart.starting hShell).table with
    ⟨stack, hProc, _, hShort⟩
  intro c hLive hParent
  rcases (hProc.forest.live_iff c).mp hLive with ⟨t, hMem⟩
  have hUp :=
    (hProc.forest.follows t).parent_mem hMem hParent
  have hTail : (stack t).tail = [] := by
    rw [← List.length_eq_zero_iff, List.length_tail]
    have hLen := hShort t
    omega
  rw [hTail] at hUp
  cases hUp

theorem saved_run
    {fs : FileSystem}
    (hShell : Loadable fs shellName)
    {k : Kernel}
    (hStart : Launched fs k)
    (es : List Event)
    (s : Traced)
    (hRun : s = Logic.run (traceStep fs)
      { kernel := k, creator := fun _ => none } es) :
    Settled s.kernel.toControl ∧
      Saved s.kernel.toControl s.creator := by
  rw [hRun]
  refine Logic.invariant_run
    (I := fun s : Traced =>
      Settled s.kernel.toControl ∧
        Saved s.kernel.toControl s.creator)
    ?_ ⟨hStart.settled hShell,
      saved_of_launched hShell hStart⟩ es
  rintro s e ⟨hSettled, hSaved⟩
  have hStep := s.kernel.step_transition fs e
  exact ⟨hSettled.transition hShell hStep,
    hSaved.transition hShell hSettled hStep⟩

/-
  A process that halts returns to the call that created it:
  with the registers that this call saved, on the kernel
  stack and in the address space of the caller.
-/
theorem halt_returns_to_execute
    (fs : FileSystem)
    (hShell : Loadable fs shellName)
    (k : Kernel)
    (hStart : Launched fs k)
    (es : List Event)
    (s : Traced)
    (hRun : s = Logic.run (traceStep fs)
      { kernel := k, creator := fun _ => none } es)
    (p : Int)
    (hParent : s.kernel.parentOf s.kernel.curPid = p)
    (hp : 0 ≤ p)
    (frame : CallFrame)
    (status : UInt8) :
    ∃ call,
      s.creator s.kernel.curPid = some call ∧
      call.caller = p ∧
      (s.kernel.handle fs (.halt frame status)).1 =
        .restored call.regs
          (if status = 255 then 256 else status.toNat) ∧
      (s.kernel.step fs (.halt frame status)).curPid = p ∧
      (s.kernel.step fs (.halt frame status)).tss.esp0 =
        kernelStack p ∧
      UserPage
        (s.kernel.step fs (.halt frame status)).toPageTables
        p := by
  rcases saved_run hShell hStart es s hRun with
    ⟨hSettled, hSaved⟩
  have hCur := hSettled.curPid_ne
  rcases hSettled.scheduled with ⟨stack, hProc, _⟩
  have hNe : s.kernel.parentOf s.kernel.curPid ≠ -1 := by
    omega
  have hLive := hProc.cur_live hCur
  have hUp := hProc.forest.parent_live hLive hNe
  rcases hSaved s.kernel.curPid hLive hNe with
    ⟨call, hCreator, hCaller, hEsp, hEbp⟩
  have hPid := hProc.released_parentPid hCur
  have hReturns :
      s.kernel.released.cur.parentPid ≠ -1 := by
    rwa [hPid]
  have hHalt := s.kernel.syscallHalt_of_parent fs frame
    status hReturns
  rw [hParent] at hCaller hEsp hEbp hUp hPid
  have hRegs : call.regs =
      { esp := (s.kernel.pcbOf p).esp
        ebp := (s.kernel.pcbOf p).ebp } := by
    rw [hEsp, hEbp]
  have hControl :
      (s.kernel.step fs (.halt frame status)).toControl =
        (s.kernel.released.haltToParent status).2 := by
    simp only [Kernel.step, Kernel.handle, hHalt]
  have hAfter := hSettled.transition hShell
    (s.kernel.step_transition fs (.halt frame status))
  have hUser := hAfter.located.user hAfter.curPid_ne
  refine ⟨call, hCreator, hCaller, ?_, ?_⟩
  · simp only [Kernel.handle, hHalt]
    rw [Control.haltToParent_outcome hReturns, hPid,
      s.kernel.released_eq, hRegs]
    rfl
  · rw [hControl, Control.haltToParent_eq hReturns, hPid,
      s.kernel.released_eq] at hUser ⊢
    exact ⟨rfl, hProc.esp0 p hUp, hUser⟩

/- A base shell that executes a shell is its parent. -/
theorem parentOf_execute
    {fs : FileSystem}
    (hShell : Loadable fs shellName)
    {k : Kernel}
    (hStart : Launched fs k)
    (frame : CallFrame) :
    (k.step fs (.execute frame
        (some shellLiteral.ptr))).parentOf
      (k.step fs (.execute frame
        (some shellLiteral.ptr))).curPid = k.curPid := by
  rcases (hStart.starting hShell).table with
    ⟨stack, hProc, _, hShort⟩
  have hSpare := exists_free_of_short hProc hShort
  simp only [Kernel.step, Kernel.handle]
  rcases syscallExecute_shell_cases fs frame k with
    ⟨n, args, eip, d, hFree, hExec⟩ | ⟨hFail, v, d, hExec⟩
  · rw [hExec]
    have hCur : (k.spawn n args frame.toRegs).curPid = n := by
      rw [Control.spawn_eq]
    rw [hCur, Control.spawn_parentOf, if_pos rfl]
  · exact absurd (hFail hShell) hSpare

theorem halt_returns_to_execute_sample :
    ∃ (s : Traced) (call : Call),
      s.creator s.kernel.curPid = some call ∧
      (s.kernel.handle sampleFs (.halt blankFrame 7)).1 =
        .restored call.regs 7 := by
  have hStart := launched_three_ticks sampleFs_loadable
    blankKernel blankRegs blankFrame
  have hMem := ((hStart.settled sampleFs_loadable
    ).tableInvariant).active
  generalize Logic.run (Kernel.step sampleFs)
    blankKernel.boot _ = k at hStart hMem
  have hCur := hMem k.runningTermPtr
  rw [Processes.active_running, mem_pids] at hCur
  rcases
      halt_returns_to_execute sampleFs sampleFs_loadable k
        hStart
        [.execute blankFrame (some shellLiteral.ptr)] _ rfl
        k.curPid
        (parentOf_execute sampleFs_loadable hStart blankFrame)
        hCur.1 blankFrame 7 with
    ⟨call, hCreator, _, hHalt, _⟩
  exact ⟨_, call, hCreator, hHalt⟩

end MartianPendulum
