import MartianPendulum.Logic.ParentChain
import MartianPendulum.Kernel.AddressSpace

/-
  The process table.

  The abstract view of the process table is a stack of pids
  for each terminal: the active process on top, its parents
  below.  `Processes` says that the PCBs, the bitmap and the
  terminals encode such stacks; creating a process pushes on
  the stack of the running terminal, a halt pops it, and a
  turn of the scheduler changes no stack.

  Key definitions include:
    * `Control.active`
    * `Control.live`
    * `Processes`
    * `OnStack`

  Key theorems include:
    * `Processes.spawn`
    * `Processes.haltToParent`
    * `Processes.turn`
-/

------------------------------------------------------------
-- The Encoding
------------------------------------------------------------

namespace MartianPendulum

namespace Control

/- The PCB of a process. -/
def pcbOf
    (g : Control)
    (pid : Int) : PCB :=
  g.pcb (getPcbPtr pid)

/- The active process of a terminal. -/
def active
    (g : Control)
    (t : Tid) : Int :=
  if t = g.runningTermPtr then g.curPid
  else (g.termArr t).pid

def parentOf
    (g : Control)
    (pid : Int) : Int :=
  (g.pcbOf pid).parentPid

/- The pids in use. -/
def live
    (g : Control)
    (pid : Int) : Prop :=
  pid ∈ pids ∧ g.pcbBitmap pid = 1

end Control

/-
  The process table encodes a stack for each terminal, and
  the PCBs of the live processes are filled in.
-/
structure Processes
    (g : Control)
    (stack : Tid → List Int) : Prop where
  forest : Logic.IsForest g.parentOf (-1) g.active g.live
    stack
  bit : ∀ p ∈ pids, g.pcbBitmap p = 0 ∨ g.pcbBitmap p = 1
  curPcb : g.curPid ≠ -1 → g.curPcbPtr = getPcbPtr g.curPid
  pid : ∀ p, g.live p → (g.pcbOf p).pid = p
  esp0 : ∀ p, g.live p →
    (g.pcbOf p).tssEsp0 = kernelStack p

/- The processor enters the kernel on the current stack. -/
def OnStack
    (g : Control) : Prop :=
  g.curPid ≠ -1 → g.tss.esp0 = kernelStack g.curPid

namespace Processes

variable {g : Control}
variable {stack : Tid → List Int}

theorem active_running
    (g : Control) :
    g.active g.runningTermPtr = g.curPid :=
  if_pos rfl

theorem cur_live
    (hProc : Processes g stack)
    (hCur : g.curPid ≠ -1) :
    g.live g.curPid := by
  have hTop := active_running g
  rw [← hTop] at hCur ⊢
  exact hProc.forest.top_live hCur

/- The current PCB is that of the current process. -/
theorem cur_eq
    (hProc : Processes g stack)
    (hCur : g.curPid ≠ -1) :
    g.cur = g.pcbOf g.curPid := by
  unfold Control.cur Control.pcbOf
  rw [hProc.curPcb hCur]

/- A pid that is not live is free. -/
theorem exists_free_iff
    (hProc : Processes g stack) :
    g.freePid ≠ none ↔ ∃ p ∈ pids, ¬ g.live p := by
  rw [Ne, Control.freePid_eq_none_iff]
  constructor
  · intro hNot
    by_contra hAll
    push Not at hAll
    exact hNot (fun p hp => by simp [(hAll p hp).2])
  · rintro ⟨p, hp, hDead⟩ hAll
    rcases hProc.bit p hp with hZero | hOne
    · exact hAll p hp hZero
    · exact hDead ⟨hp, hOne⟩

end Processes

end MartianPendulum

------------------------------------------------------------
-- Pushing
------------------------------------------------------------

namespace MartianPendulum

namespace Control

/-
  A field other than the saved registers, after a creation.
-/
theorem apply_spawnPcb
    {β : Type}
    (field : PCB → β)
    (hField : ∀ (p : PCB) (esp ebp : UInt32),
      field { p with esp := esp, ebp := ebp } = field p)
    (n : Int)
    (args : Ptr)
    (regs : Regs)
    (g : Control)
    (p : Int) :
    field (g.spawnPcb n args regs (getPcbPtr p)) =
      if p = n then field (initPcb n g.curPid args (g.pcbOf n))
      else field (g.pcbOf p) := by
  have hFilled :
      Function.update g.pcb (getPcbPtr n)
          (initPcb n g.curPid args (g.pcb (getPcbPtr n)))
          (getPcbPtr p) =
        if p = n then initPcb n g.curPid args (g.pcbOf n)
        else g.pcbOf p := by
    by_cases hNew : p = n
    · subst hNew
      simp [pcbOf]
    · have hNe : getPcbPtr p ≠ getPcbPtr n :=
        getPcbPtr_injective.ne hNew
      simp [hNew, hNe, pcbOf]
  rw [← apply_ite field, ← hFilled]
  unfold spawnPcb
  dsimp only
  split
  · by_cases hCur : getPcbPtr p = g.curPcbPtr
    · rw [← hCur, Function.update_self, hField]
    · rw [Function.update_of_ne hCur]
  · rfl

/- The PCBs of the processes after a creation. -/
theorem spawn_field
    {β : Type}
    (field : PCB → β)
    (hField : ∀ (p : PCB) (esp ebp : UInt32),
      field { p with esp := esp, ebp := ebp } = field p)
    (n : Int)
    (args : Ptr)
    (regs : Regs)
    (g : Control)
    (p : Int) :
    field ((g.spawn n args regs).pcbOf p) =
      if p = n then field (initPcb n g.curPid args (g.pcbOf n))
      else field (g.pcbOf p) := by
  rw [spawn_eq]
  exact apply_spawnPcb field hField n args regs g p

theorem spawn_parentOf
    (n : Int)
    (args : Ptr)
    (regs : Regs)
    (g : Control)
    (p : Int) :
    (g.spawn n args regs).parentOf p =
      if p = n then g.curPid else g.parentOf p :=
  spawn_field PCB.parentPid (fun _ _ _ => rfl)
    n args regs g p

/- A creation writes two PCBs. -/
theorem spawn_pcbOf
    {g : Control}
    (hCurPcb :
      g.curPid ≠ -1 → g.curPcbPtr = getPcbPtr g.curPid)
    (n : Int)
    (args : Ptr)
    (regs : Regs)
    {p : Int}
    (hNew : p ≠ n)
    (hCur : p ≠ g.curPid) :
    (g.spawn n args regs).pcbOf p = g.pcbOf p := by
  rw [spawn_eq]
  simp only [pcbOf, spawnPcb]
  have hNe := getPcbPtr_injective.ne hNew
  by_cases hNone : g.curPid = -1
  · simp only [hNone, ne_eq, not_true, if_false]
    exact Function.update_of_ne hNe _ _
  · have hCurPtr : getPcbPtr p ≠ g.curPcbPtr := by
      rw [hCurPcb hNone]
      exact getPcbPtr_injective.ne hCur
    simp only [hNone, ne_eq, not_false_iff, if_true]
    rw [Function.update_of_ne hCurPtr,
      Function.update_of_ne hNe]

theorem spawn_active
    (n : Int)
    (args : Ptr)
    (regs : Regs)
    (g : Control) :
    (g.spawn n args regs).active =
      Function.update g.active g.runningTermPtr n := by
  funext t
  rw [spawn_eq]
  by_cases hRun : t = g.runningTermPtr
  · subst hRun
    simp [active]
  · simp [active, hRun]

theorem spawn_live
    {n : Int}
    (hMem : n ∈ pids)
    (args : Ptr)
    (regs : Regs)
    (g : Control)
    (p : Int) :
    (g.spawn n args regs).live p ↔ p = n ∨ g.live p := by
  rw [spawn_eq]
  unfold live
  by_cases hNew : p = n
  · subst hNew
    simp [hMem]
  · simp [hNew]

theorem not_live_of_freePid
    {g : Control}
    {n : Int}
    (hFree : g.freePid = some n) :
    ¬ g.live n := by
  intro hLive
  have hZero := freePid_bitmap hFree
  rw [hLive.2] at hZero
  cases hZero

end Control

namespace Processes

variable {g : Control}
variable {stack : Tid → List Int}

/- A creation pushes on the stack of the running terminal. -/
theorem spawn
    (hProc : Processes g stack)
    {n : Int}
    (hFree : g.freePid = some n)
    (args : Ptr)
    (regs : Regs) :
    Processes (g.spawn n args regs)
        (Function.update stack g.runningTermPtr
          (n :: stack g.runningTermPtr)) ∧
      OnStack (g.spawn n args regs) := by
  have hMem := Control.freePid_mem hFree
  have hPush := hProc.forest.push g.runningTermPtr
    (Control.not_live_of_freePid hFree)
    (ne_neg_one_of_mem_pids hMem)
  have hLive := Control.spawn_live hMem args regs g
  have hParent : (g.spawn n args regs).parentOf =
      Function.update g.parentOf n
        (g.active g.runningTermPtr) := by
    funext p
    rw [active_running, Control.spawn_parentOf,
      Function.update_apply]
  have hEsp0 : ∀ p,
      ((g.spawn n args regs).pcbOf p).tssEsp0 =
        if p = n then kernelStack n
        else (g.pcbOf p).tssEsp0 :=
    Control.spawn_field PCB.tssEsp0 (fun _ _ _ => rfl)
      n args regs g
  refine ⟨⟨?_, ?_, ?_, ?_, ?_⟩, ?_⟩
  · rw [hParent, Control.spawn_active]
    refine ⟨hPush.follows, hPush.disjoint, ?_⟩
    intro p
    rw [hLive]
    exact hPush.live_iff p
  · intro p hp
    rw [Control.spawn_eq]
    by_cases hNew : p = n
    · subst hNew
      simp
    · simpa [hNew] using hProc.bit p hp
  · intro _
    rw [Control.spawn_eq]
  · intro p hp
    rw [hLive] at hp
    rw [Control.spawn_field PCB.pid (fun _ _ _ => rfl)]
    by_cases hNew : p = n
    · rw [if_pos hNew, hNew]
      rfl
    · rw [if_neg hNew]
      exact hProc.pid p (hp.resolve_left hNew)
  · intro p hp
    rw [hLive] at hp
    rw [hEsp0]
    by_cases hNew : p = n
    · rw [if_pos hNew, hNew]
    · rw [if_neg hNew]
      exact hProc.esp0 p (hp.resolve_left hNew)
  · intro _
    have hTop := hEsp0 n
    rw [if_pos rfl] at hTop
    rw [Control.spawn_eq] at hTop ⊢
    exact hTop

end Processes

end MartianPendulum

------------------------------------------------------------
-- Popping
------------------------------------------------------------

namespace MartianPendulum

/- The fields of a PCB that place it on a stack. -/
structure PCB.SamePlace
    (p q : PCB) : Prop where
  parentPid : q.parentPid = p.parentPid
  pid : q.pid = p.pid
  tssEsp0 : q.tssEsp0 = p.tssEsp0

theorem PCB.SamePlace.refl
    (p : PCB) :
    PCB.SamePlace p p :=
  ⟨rfl, rfl, rfl⟩

namespace Processes

variable {g g' : Control}
variable {stack : Tid → List Int}

/- Nothing changes while the PCBs keep their places. -/
theorem congr
    (hProc : Processes g stack)
    (hBit : g'.pcbBitmap = g.pcbBitmap)
    (hActive : g'.active = g.active)
    (hPcb : ∀ a, PCB.SamePlace (g.pcb a) (g'.pcb a))
    (hCurPcb : g'.curPid ≠ -1 →
      g'.curPcbPtr = getPcbPtr g'.curPid) :
    Processes g' stack := by
  have hParent : g'.parentOf = g.parentOf := by
    funext p
    exact (hPcb (getPcbPtr p)).parentPid
  have hLive : g'.live = g.live := by
    unfold Control.live
    rw [hBit]
  refine ⟨?_, ?_, hCurPcb, ?_, ?_⟩
  · rw [hParent, hActive, hLive]
    exact hProc.forest
  · rw [hBit]
    exact hProc.bit
  · intro p hp
    rw [hLive] at hp
    exact (hPcb (getPcbPtr p)).pid.trans (hProc.pid p hp)
  · intro p hp
    rw [hLive] at hp
    exact (hPcb (getPcbPtr p)).tssEsp0.trans
      (hProc.esp0 p hp)

/- A freed pid leaves the stack of the running terminal. -/
theorem pop
    (hProc : Processes g stack)
    (hCur : g.curPid ≠ -1)
    (hBit : g'.pcbBitmap =
      Function.update g.pcbBitmap g.curPid 0)
    (hActive : g'.active =
      Function.update g.active g.runningTermPtr
        (g.parentOf g.curPid))
    (hPcb : ∀ a, PCB.SamePlace (g.pcb a) (g'.pcb a))
    (hCurPcb : g'.curPid ≠ -1 →
      g'.curPcbPtr = getPcbPtr g'.curPid) :
    Processes g'
      (Function.update stack g.runningTermPtr
        (stack g.runningTermPtr).tail) := by
  have hTop := active_running g
  have hPop := hProc.forest.pop g.runningTermPtr
    (by rwa [hTop])
  rw [hTop] at hPop
  have hParent : g'.parentOf = g.parentOf := by
    funext p
    exact (hPcb (getPcbPtr p)).parentPid
  have hLive : ∀ p,
      g'.live p ↔ p ≠ g.curPid ∧ g.live p := by
    intro p
    unfold Control.live
    rw [hBit]
    by_cases hGone : p = g.curPid
    · simp [hGone]
    · simp [hGone]
  refine ⟨?_, ?_, hCurPcb, ?_, ?_⟩
  · rw [hParent, hActive]
    refine ⟨hPop.follows, hPop.disjoint, ?_⟩
    intro p
    rw [hLive]
    exact hPop.live_iff p
  · intro p hp
    rw [hBit]
    by_cases hGone : p = g.curPid
    · simp [hGone]
    · simpa [hGone] using hProc.bit p hp
  · intro p hp
    rw [hLive] at hp
    exact (hPcb (getPcbPtr p)).pid.trans (hProc.pid p hp.2)
  · intro p hp
    rw [hLive] at hp
    exact (hPcb (getPcbPtr p)).tssEsp0.trans
      (hProc.esp0 p hp.2)

theorem released_parentPid
    (hProc : Processes g stack)
    (hCur : g.curPid ≠ -1) :
    g.released.cur.parentPid = g.parentOf g.curPid := by
  rw [g.released_eq]
  exact congrArg PCB.parentPid (hProc.cur_eq hCur)

theorem active_orphaned
    (g : Control) :
    g.orphaned.active =
      Function.update g.active g.runningTermPtr (-1) := by
  unfold Control.orphaned
  rw [g.released_eq]
  funext t
  by_cases hRun : t = g.runningTermPtr
  · subst hRun
    simp [Control.active]
  · simp [Control.active, hRun]

/- The state in which the base shell is restarted. -/
theorem orphaned
    (hProc : Processes g stack)
    (hCur : g.curPid ≠ -1)
    (hParent : g.released.cur.parentPid = -1) :
    Processes g.orphaned
      (Function.update stack g.runningTermPtr
        (stack g.runningTermPtr).tail) := by
  rw [hProc.released_parentPid hCur] at hParent
  have hActive := active_orphaned g
  rw [← hParent] at hActive
  unfold Control.orphaned at hActive ⊢
  rw [g.released_eq] at hActive ⊢
  refine hProc.pop hCur rfl hActive (fun a => .refl _) ?_
  · intro hNone
    exact absurd rfl hNone

/- A restart always finds a free pid. -/
theorem orphaned_freePid
    (hProc : Processes g stack)
    (hCur : g.curPid ≠ -1) :
    g.orphaned.freePid ≠ none := by
  rw [Ne, Control.freePid_eq_none_iff]
  intro hAll
  apply hAll g.curPid (hProc.cur_live hCur).1
  unfold Control.orphaned
  rw [g.released_eq]
  simp

/- A halt makes the parent the active process. -/
theorem active_haltToParent
    (hProc : Processes g stack)
    (hCur : g.curPid ≠ -1)
    (hParent : g.released.cur.parentPid ≠ -1)
    (status : UInt8) :
    (g.released.haltToParent status).2.active =
      Function.update g.active g.runningTermPtr
        (g.parentOf g.curPid) := by
  have hPid := hProc.released_parentPid hCur
  rw [Control.haltToParent_eq hParent, hPid, g.released_eq]
  funext t
  by_cases hRun : t = g.runningTermPtr
  · subst hRun
    simp [Control.active]
  · have hTerm : ∀ flag : Bool,
        ((if flag then
            Function.update g.termArr g.runningTermPtr
              { g.termArr g.runningTermPtr with
                vidmapFlag := false }
          else g.termArr) t).pid =
          (g.termArr t).pid := by
      intro flag
      cases flag with
      | true => simp [hRun]
      | false => rfl
    simp only [Control.active, hRun, if_false,
      Function.update_of_ne hRun]
    exact hTerm _

/- A halt pops the stack and resumes the parent. -/
theorem haltToParent
    (hProc : Processes g stack)
    (hCur : g.curPid ≠ -1)
    (hParent : g.released.cur.parentPid ≠ -1)
    (status : UInt8) :
    Processes (g.released.haltToParent status).2
        (Function.update stack g.runningTermPtr
          (stack g.runningTermPtr).tail) ∧
      OnStack (g.released.haltToParent status).2 := by
  have hPid := hProc.released_parentPid hCur
  have hActive :=
    hProc.active_haltToParent hCur hParent status
  have hUp : g.live (g.parentOf g.curPid) := by
    apply hProc.forest.parent_live (hProc.cur_live hCur)
    rwa [← hPid]
  rw [Control.haltToParent_eq hParent, hPid,
    g.released_eq] at hActive ⊢
  refine ⟨hProc.pop hCur rfl hActive ?_ (fun _ => rfl), ?_⟩
  · intro a
    exact
      ⟨g.apply_haltedPcb PCB.parentPid (fun _ => rfl) a,
        g.apply_haltedPcb PCB.pid (fun _ => rfl) a,
        g.apply_haltedPcb PCB.tssEsp0 (fun _ => rfl) a⟩
  · intro _
    exact hProc.esp0 _ hUp

end Processes

end MartianPendulum

------------------------------------------------------------
-- Scheduling
------------------------------------------------------------

namespace MartianPendulum

namespace Processes

variable {g : Control}
variable {stack : Tid → List Int}

/- A turn changes no active process. -/
theorem active_turn
    (g : Control)
    (regs : Regs) :
    (g.turn regs).active = g.active := by
  funext t
  rw [Control.turn_eq]
  have hNe := nextTermToRun_ne g.runningTermPtr
  by_cases hNext : t = nextTermToRun g.runningTermPtr
  · subst hNext
    simp [Control.active, hNe]
  · by_cases hRun : t = g.runningTermPtr
    · subst hRun
      simp [Control.active, hNext]
    · simp [Control.active, hNext, hRun]

/- A turn saves the current process in its own PCB. -/
theorem samePlace_turn
    (hProc : Processes g stack)
    (hStack : OnStack g)
    (regs : Regs)
    (a : Int) :
    PCB.SamePlace (g.pcb a) ((g.turn regs).pcb a) := by
  rw [Control.turn_eq]
  simp only [Control.turnPcb]
  by_cases hCur : g.curPid = -1
  · simp only [hCur, ne_eq, not_true, if_false]
    exact .refl _
  · simp only [hCur, ne_eq, not_false_iff, if_true]
    by_cases hHere : a = g.curPcbPtr
    · subst hHere
      rw [Function.update_self]
      refine ⟨rfl, rfl, ?_⟩
      have hOwn := hProc.esp0 _ (hProc.cur_live hCur)
      rw [← hProc.cur_eq hCur] at hOwn
      exact (hStack hCur).trans hOwn.symm
    · rw [Function.update_of_ne hHere]
      exact .refl _

theorem turn
    (hProc : Processes g stack)
    (hStack : OnStack g)
    (regs : Regs) :
    Processes (g.turn regs) stack := by
  refine hProc.congr ?_ (active_turn g regs)
    (hProc.samePlace_turn hStack regs) ?_
  · rw [Control.turn_eq]
  · intro _
    rw [Control.turn_eq]

theorem turn_curPid
    (g : Control)
    (regs : Regs) :
    (g.turn regs).curPid =
      g.active (nextTermToRun g.runningTermPtr) := by
  rw [Control.turn_eq]
  simp [Control.active, nextTermToRun_ne]

/- A process that exists is resumed on its own stack. -/
theorem resume
    (hProc : Processes g stack)
    (hCur : g.curPid ≠ -1) :
    Processes (g.resume g.curPid).2 stack ∧
      OnStack (g.resume g.curPid).2 := by
  rw [Control.resume_eq, if_neg hCur]
  constructor
  · exact hProc.congr rfl rfl (fun _ => .refl _)
      hProc.curPcb
  · intro _
    exact hProc.esp0 _ (hProc.cur_live hCur)

end Processes

end MartianPendulum
