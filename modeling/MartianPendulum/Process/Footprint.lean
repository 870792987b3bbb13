import MartianPendulum.Process.Descriptors

/-
  What `syscall_execute` leaves alone.

  All its checks come before `record_process`, so a call
  that returns has changed nothing but the screen.  A call
  that starts a process writes the PCB of the new pid, and
  saves its registers through the pointer to the current
  PCB.  That pointer is the one of the current process in
  every state that a run reaches, also in the two states
  inside `schedule` and `syscall_halt` from which the base
  shell is executed.

  Key definitions include:
    * `Entered`
    * `Created`

  Key theorems include:
    * `CurPcb.transition`
    * `Entered.curPcb`
    * `syscallExecute_footprint`
-/

------------------------------------------------------------
-- The Pointer to the Current PCB
------------------------------------------------------------

namespace MartianPendulum

/- The current PCB is the one of the current process. -/
def CurPcb
    (g : Control) : Prop :=
  g.curPid ≠ -1 → g.curPcbPtr = getPcbPtr g.curPid

namespace CurPcb

variable {g : Control}

theorem spawn
    (n : Int)
    (args : Ptr)
    (regs : Regs)
    (g : Control) :
    CurPcb (g.spawn n args regs) := by
  intro _
  rw [Control.spawn_eq]

theorem haltToParent
    (hParent : g.cur.parentPid ≠ -1)
    (status : UInt8) :
    CurPcb (g.haltToParent status).2 := by
  intro _
  rw [Control.haltToParent_eq hParent]

theorem turn
    (regs : Regs)
    (g : Control) :
    CurPcb (g.turn regs) := by
  intro _
  rw [Control.turn_eq]

theorem orphaned
    (g : Control) :
    CurPcb g.orphaned := by
  intro hCur
  exact absurd rfl hCur

/- Every transition keeps the two together. -/
theorem transition
    {fs : FileSystem}
    {g' : Control}
    {e : Event}
    {o : Outcome}
    (hCur : CurPcb g)
    (hStep : Transition fs g e o g') :
    CurPcb g' := by
  cases hStep with
  | idle => exact hCur
  | view inputCode t => exact hCur
  | vidmap screenStart => exact hCur
  | spawn frame userInput n args eip hFree =>
      exact spawn n args frame.toRegs g
  | ret frame status hParent =>
      exact haltToParent hParent status
  | restart frame status n args eip hParent hFree =>
      exact spawn n args frame.toRegs g.orphaned
  | stuck frame status hParent hFail =>
      rw [Control.haltToParent_orphaned hParent]
      exact orphaned g
  | resume regs frame hPid =>
      rw [Control.resume_eq]
      exact turn regs g
  | launch regs frame n args eip hPid hFree =>
      exact spawn n args frame.toRegs (g.turn regs)
  | fallThrough regs frame hPid hFail =>
      rw [Control.resume_eq]
      exact turn regs g

/- The pointer is right in every state of a run. -/
theorem run
    (fs : FileSystem)
    (k : Kernel)
    (es : List Event) :
    CurPcb
      (Logic.run (Kernel.step fs) k.boot es).toControl := by
  apply Logic.invariant_run
    (I := fun k : Kernel => CurPcb k.toControl)
  · intro k e hCur
    exact hCur.transition (k.step_transition fs e)
  · intro hCur
    exact absurd rfl hCur

end CurPcb

/-
  The states in which `syscall_execute` is called: by a
  process, by `schedule`, or by `syscall_halt`.
-/
inductive Entered
    (fs : FileSystem)
    (k : Kernel) :
    Control → Prop
| process (es : List Event) :
    Entered fs k
      (Logic.run (Kernel.step fs) k.boot es).toControl
| schedule (es : List Event) (regs : Regs) :
    Entered fs k
      ((Logic.run (Kernel.step fs) k.boot es).turn regs)
| halt (es : List Event) :
    Entered fs k
      (Logic.run (Kernel.step fs) k.boot es).orphaned

theorem Entered.curPcb
    {fs : FileSystem}
    {k : Kernel}
    {g : Control}
    (hEntered : Entered fs k g) :
    CurPcb g := by
  cases hEntered with
  | process es => exact CurPcb.run fs k es
  | schedule es regs => exact CurPcb.turn regs _
  | halt es => exact CurPcb.orphaned _

end MartianPendulum

------------------------------------------------------------
-- Creations
------------------------------------------------------------

namespace MartianPendulum

/-
  One free pid was allocated, and its PCB filled in.  Of
  all other PCBs only that of the caller is written.
-/
structure Created
    (g g' : Control)
    (n : Int)
    (regs : Regs) : Prop where
  mem : n ∈ pids
  free : g.pcbBitmap n = 0
  bitmap : g'.pcbBitmap = Function.update g.pcbBitmap n 1
  parent : (g'.pcbOf n).parentPid = g.curPid
  stdin : ((g'.pcbOf n).pcbFds 0).flags = flagInUse
  stdout : ((g'.pcbOf n).pcbFds 1).flags = flagInUse
  files : ∀ fd, 2 ≤ fd → fd ≤ 7 →
    ((g'.pcbOf n).pcbFds fd).flags = flagFree
  other : ∀ q, q ≠ n → q ≠ g.curPid →
    g'.pcbOf q = g.pcbOf q
  caller : g.live g.curPid →
    g'.pcbOf g.curPid =
      { g.pcbOf g.curPid with
        esp := regs.esp
        ebp := regs.ebp }

/- A creation saves the registers of its caller. -/
theorem Control.spawn_pcbOf_caller
    {g : Control}
    (hCur : CurPcb g)
    (hPid : g.curPid ≠ -1)
    {n : Int}
    (hNew : g.curPid ≠ n)
    (args : Ptr)
    (regs : Regs) :
    (g.spawn n args regs).pcbOf g.curPid =
      { g.pcbOf g.curPid with
        esp := regs.esp
        ebp := regs.ebp } := by
  have hNe := getPcbPtr_injective.ne hNew
  rw [spawn_eq]
  simp only [pcbOf, spawnPcb, hPid, ne_eq, not_false_iff,
    if_true]
  rw [hCur hPid, Function.update_self,
    Function.update_of_ne hNe]

theorem created_spawn
    {g : Control}
    (hCur : CurPcb g)
    {n : Int}
    (hFree : g.freePid = some n)
    (args : Ptr)
    (regs : Regs) :
    Created g (g.spawn n args regs) n regs := by
  have hFds := Control.spawn_field PCB.pcbFds
    (fun _ _ _ => rfl) n args regs g n
  rw [if_pos rfl] at hFds
  have hParent := Control.spawn_parentOf n args regs g n
  rw [if_pos rfl] at hParent
  refine ⟨Control.freePid_mem hFree,
    Control.freePid_bitmap hFree, ?_, hParent, ?_, ?_, ?_,
    ?_, ?_⟩
  · rw [Control.spawn_eq]
  · rw [hFds]
    rfl
  · rw [hFds]
    rfl
  · intro fd hLow hHigh
    rw [hFds]
    exact freeUserFds_flags _ hLow hHigh
  · intro q hNew hOther
    exact Control.spawn_pcbOf hCur n args regs hNew hOther
  · intro hLive
    -- a live process is not the one that is created
    have hNew : g.curPid ≠ n := by
      rintro rfl
      exact Control.not_live_of_freePid hFree hLive
    exact Control.spawn_pcbOf_caller hCur
      (ne_neg_one_of_mem_pids hLive.1) hNew args regs

/-
  `syscall_execute` returns and leaves processes, pages and
  terminals as they were, or it creates one process.
-/
theorem syscallExecute_footprint
    (fs : FileSystem)
    (k₀ k : Kernel)
    (hEntered : Entered fs k₀ k.toControl)
    (frame : CallFrame)
    (userInput : Option Ptr) :
    (∃ v k',
      k.syscallExecute fs frame userInput =
          (.returned v, k') ∧
        k'.toControl = k.toControl) ∨
    (∃ n eip k',
      k.syscallExecute fs frame userInput =
          (.started n eip, k') ∧
        Created k.toControl k'.toControl n
          frame.toRegs) := by
  rcases k.syscallExecute_cases fs frame userInput with
    ⟨v, d, hExec⟩ | ⟨n, args, eip, d, hFree, hExec⟩
  · exact Or.inl ⟨v, _, hExec, rfl⟩
  · exact Or.inr ⟨n, eip, _, hExec,
      created_spawn hEntered.curPcb hFree args frame.toRegs⟩

/- The first command of a terminal creates a process. -/
theorem syscallExecute_footprint_boot :
    ∃ n eip k',
      blankKernel.boot.syscallExecute sampleFs blankFrame
          (some shellLiteral.ptr) =
          (.started n eip, k') ∧
        Created blankKernel.boot.toControl k'.toControl n
          blankRegs := by
  have hFile :
      sampleFs.lookup (firstWord shellLiteral.chars) =
        some (sampleFs.bootBlock.files 0) := rfl
  rcases syscallExecute_footprint sampleFs blankKernel
      blankKernel.boot (.process []) blankFrame
      (some shellLiteral.ptr) with
    ⟨v, k', hExec, -⟩ | hCreated
  · rcases started_shellLiteral blankFrame
        blankKernel.boot (by decide) hFile rfl with
      ⟨pid, eip, hStart⟩
    rw [hExec] at hStart
    cases hStart
  · exact hCreated

end MartianPendulum
