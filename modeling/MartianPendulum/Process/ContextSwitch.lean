import MartianPendulum.Process.CallReturn

/-
  The context switch.

  A tick suspends the running process and selects the next
  terminal.  A process that a tick suspends stays as it is
  until the tick that selects its terminal again: nothing
  that the other terminals do reaches its PCB.  That tick
  loads the registers that the first one saved.

  Key definitions include:
    * `Suspended`
    * `Selects`

  Key theorems include:
    * `suspended_of_tick`
    * `Suspended.transition`
    * `preempted_process_resumed`
-/

------------------------------------------------------------
-- Suspended Processes
------------------------------------------------------------

namespace MartianPendulum

def Event.isTick : Event → Bool
| .tick _ _ => true
| _ => false

/-
  Process `p` waits on terminal `t` for its turn, and `q` is
  all that the kernel has stored about it.
-/
structure Suspended
    (g : Control)
    (t : Tid)
    (p : Int)
    (q : PCB) : Prop where
  waiting : t ≠ g.runningTermPtr
  active : g.active t = p
  pcb : g.pcbOf p = q

/- The event is a tick that gives terminal `t` its turn. -/
def Selects
    (g : Control)
    (t : Tid)
    (e : Event) : Prop :=
  e.isTick = true ∧ nextTermToRun g.runningTermPtr = t

/- The PCB of a process that was interrupted at `regs`. -/
def PCB.suspendedAt
    (q : PCB)
    (regs : Regs) : PCB :=
  { q with esp := regs.esp, ebp := regs.ebp }

end MartianPendulum

------------------------------------------------------------
-- Suspending
------------------------------------------------------------

namespace MartianPendulum

variable {fs : FileSystem}
variable {g g' : Control}
variable {o : Outcome}

/- Once there are processes, a tick resumes one of them. -/
theorem Settled.tick_eq
    (hSettled : Settled g)
    {regs : Regs}
    {frame : CallFrame}
    (hStep : Transition fs g (.tick regs frame) o g') :
    o = ((g.turn regs).resume (g.turn regs).curPid).1 ∧
      g' = ((g.turn regs).resume
        (g.turn regs).curPid).2 := by
  have hNext := hSettled.active
    (nextTermToRun g.runningTermPtr)
  rw [← Processes.turn_curPid g regs] at hNext
  cases hStep with
  | idle _ _ hIdle => cases hIdle
  | resume => exact ⟨rfl, rfl⟩
  | launch _ _ n args eip hPid => exact absurd hPid hNext
  | fallThrough _ _ hPid => exact absurd hPid hNext

/- What a tick stores about the process it interrupts. -/
theorem Processes.turn_pcbOf_cur
    {stack : Tid → List Int}
    (hProc : Processes g stack)
    (hStack : OnStack g)
    (hCur : g.curPid ≠ -1)
    (regs : Regs) :
    (g.turn regs).pcbOf g.curPid =
      (g.pcbOf g.curPid).suspendedAt regs := by
  have hOwn := hProc.esp0 _ (hProc.cur_live hCur)
  have hSame : g.tss.esp0 = (g.pcbOf g.curPid).tssEsp0 :=
    (hStack hCur).trans hOwn.symm
  rw [Control.turn_eq]
  simp only [Control.pcbOf, Control.turnPcb, hCur, ne_eq,
    not_false_iff, if_true, ← hProc.curPcb hCur,
    Function.update_self]
  rw [hSame, ← hProc.cur_eq hCur]
  rfl

/- A tick suspends the running process. -/
theorem suspended_of_tick
    (hSettled : Settled g)
    {regs : Regs}
    {frame : CallFrame}
    (hStep : Transition fs g (.tick regs frame) o g') :
    Suspended g' g.runningTermPtr g.curPid
      ((g.pcbOf g.curPid).suspendedAt regs) := by
  have hCur := hSettled.curPid_ne
  have hMoved := hStep.running_tick
  rcases hSettled.tick_eq hStep with ⟨_, rfl⟩
  rcases hSettled.scheduled with ⟨stack, hProc, hStack⟩
  rw [Control.resume_eq] at hMoved ⊢
  refine ⟨?_, ?_, hProc.turn_pcbOf_cur hStack hCur regs⟩
  · rw [hMoved]
    exact (nextTermToRun_ne _).symm
  · have hActive := Processes.active_turn g regs
    exact (congrFun hActive g.runningTermPtr).trans
      (Processes.active_running g)

end MartianPendulum

------------------------------------------------------------
-- Waiting
------------------------------------------------------------

namespace MartianPendulum

namespace Suspended

variable {fs : FileSystem}
variable {g g' : Control}
variable {e : Event}
variable {o : Outcome}
variable {t : Tid}
variable {p : Int}
variable {q : PCB}
variable {stack : Tid → List Int}

/- A suspended process is not the running one. -/
theorem ne_curPid
    (hWait : Suspended g t p q)
    (hProc : Processes g stack)
    (hPid : p ≠ -1) :
    p ≠ g.curPid := by
  intro hSame
  have hTop : g.active t = g.active g.runningTermPtr := by
    rw [hWait.active, Processes.active_running, hSame]
  have hActive : g.active t ≠ -1 := by
    rwa [hWait.active]
  exact hWait.waiting (hProc.forest.top_inj hActive hTop)

theorem live
    (hWait : Suspended g t p q)
    (hProc : Processes g stack)
    (hPid : p ≠ -1) :
    g.live p := by
  have hActive : g.active t ≠ -1 := by
    rwa [hWait.active]
  rw [← hWait.active]
  exact hProc.forest.top_live hActive

/- A process created elsewhere gets another PCB. -/
theorem spawn
    (hWait : Suspended g t p q)
    (hProc : Processes g stack)
    (hPid : p ≠ -1)
    {n : Int}
    (hFree : g.freePid = some n)
    (args : Ptr)
    (regs : Regs) :
    Suspended (g.spawn n args regs) t p q := by
  have hNew : p ≠ n := by
    rintro rfl
    exact Control.not_live_of_freePid hFree
      (hWait.live hProc hPid)
  refine ⟨?_, ?_, ?_⟩
  · rw [Control.spawn_eq]
    exact hWait.waiting
  · rw [Control.spawn_active,
      Function.update_of_ne hWait.waiting]
    exact hWait.active
  · rw [Control.spawn_pcbOf hProc.curPcb n args regs hNew
      (hWait.ne_curPid hProc hPid)]
    exact hWait.pcb

/- A process that halts elsewhere writes its own PCB. -/
theorem haltToParent
    (hWait : Suspended g t p q)
    (hProc : Processes g stack)
    (hPid : p ≠ -1)
    (hCur : g.curPid ≠ -1)
    (hParent : g.released.cur.parentPid ≠ -1)
    (status : UInt8) :
    Suspended (g.released.haltToParent status).2 t p q := by
  have hOther : getPcbPtr p ≠ g.curPcbPtr := by
    rw [hProc.curPcb hCur]
    exact getPcbPtr_injective.ne (hWait.ne_curPid hProc hPid)
  refine ⟨?_, ?_, ?_⟩
  · rw [Control.haltToParent_eq hParent, g.released_eq]
    exact hWait.waiting
  · rw [hProc.active_haltToParent hCur hParent,
      Function.update_of_ne hWait.waiting]
    exact hWait.active
  · rw [Control.haltToParent_eq hParent, g.released_eq]
    simp only [Control.pcbOf]
    rw [Function.update_of_ne hOther]
    exact hWait.pcb

theorem orphaned
    (hWait : Suspended g t p q) :
    Suspended g.orphaned t p q := by
  refine ⟨?_, ?_, (released_pcbOf g p).trans hWait.pcb⟩
  · unfold Control.orphaned
    rw [g.released_eq]
    exact hWait.waiting
  · rw [Processes.active_orphaned,
      Function.update_of_ne hWait.waiting]
    exact hWait.active

theorem vidmapped
    (hWait : Suspended g t p q)
    (hProc : Processes g stack)
    (hPid : p ≠ -1)
    (hCur : g.curPid ≠ -1) :
    Suspended g.vidmapped t p q := by
  have hOther : getPcbPtr p ≠ g.curPcbPtr := by
    rw [hProc.curPcb hCur]
    exact getPcbPtr_injective.ne (hWait.ne_curPid hProc hPid)
  refine ⟨hWait.waiting, ?_, ?_⟩
  · rw [hProc.vidmapped.2]
    exact hWait.active
  · simp only [Control.pcbOf, Control.vidmapped,
      Control.setVidmap, Control.setTerm, Control.setPcb,
      Control.setTables]
    rw [Function.update_of_ne hOther]
    exact hWait.pcb

/- A tick for a third terminal saves another process. -/
theorem tick
    (hWait : Suspended g t p q)
    (hProc : Processes g stack)
    (hPid : p ≠ -1)
    (hCur : g.curPid ≠ -1)
    (hNot : nextTermToRun g.runningTermPtr ≠ t)
    (regs : Regs)
    (nextPid : Int) :
    Suspended ((g.turn regs).resume nextPid).2 t p q := by
  rw [Control.resume_eq]
  refine ⟨?_, ?_, ?_⟩
  · rw [Control.turn_eq]
    exact hNot.symm
  · exact (congrFun (Processes.active_turn g regs) t).trans
      hWait.active
  · exact (hProc.turn_pcbOf hCur regs
      (hWait.ne_curPid hProc hPid)).trans hWait.pcb

/-
  A suspended process stays as it is until a tick selects
  its terminal.
-/
theorem transition
    (hShell : Loadable fs shellName)
    (hWait : Suspended g t p q)
    (hSettled : Settled g)
    (hStep : Transition fs g e o g')
    (hNot : ¬ Selects g t e) :
    Suspended g' t p q := by
  have hCur := hSettled.curPid_ne
  have hPid : p ≠ -1 := by
    rw [← hWait.active]
    exact hSettled.active t
  rcases hSettled.scheduled with ⟨stack, hProc, hStack⟩
  cases hStep with
  | idle => exact hWait
  | view inputCode u =>
      exact ⟨hWait.waiting, hWait.active, hWait.pcb⟩
  | vidmap screenStart v =>
      exact hWait.vidmapped hProc hPid hCur
  | spawn frame userInput n args eip hFree =>
      exact hWait.spawn hProc hPid hFree args frame.toRegs
  | ret frame status hParent =>
      exact hWait.haltToParent hProc hPid hCur hParent
        status
  | restart frame status n args eip hParent hFree =>
      exact hWait.orphaned.spawn (hProc.orphaned hCur hParent)
        hPid hFree args frame.toRegs
  | stuck frame status hParent hFail =>
      exact absurd (hFail hShell)
        (hProc.orphaned_freePid hCur)
  | resume regs frame hNext =>
      refine hWait.tick hProc hPid hCur ?_ regs _
      exact fun hSel => hNot ⟨rfl, hSel⟩
  | launch regs frame n args eip hNext hFree =>
      rw [Processes.turn_curPid] at hNext
      exact absurd hNext (hSettled.active _)
  | fallThrough regs frame hNext hFail =>
      rw [Processes.turn_curPid] at hNext
      exact absurd hNext (hSettled.active _)

end Suspended

end MartianPendulum

------------------------------------------------------------
-- Round Robin
------------------------------------------------------------

namespace MartianPendulum

/- Only ticks give another terminal its turn. -/
theorem Transition.running_of_not_tick
    {fs : FileSystem}
    {g g' : Control}
    {e : Event}
    {o : Outcome}
    (hStep : Transition fs g e o g')
    (hTick : e.isTick = false) :
    g'.runningTermPtr = g.runningTermPtr := by
  cases hStep with
  | idle => rfl
  | view => rfl
  | vidmap => rfl
  | spawn => rw [Control.spawn_eq]
  | ret _ _ hParent =>
      rw [Control.haltToParent_eq hParent, g.released_eq]
  | restart =>
      rw [Control.spawn_eq]
      unfold Control.orphaned
      rw [g.released_eq]
  | stuck _ _ hParent =>
      rw [Control.haltToParent_orphaned hParent]
      unfold Control.orphaned
      rw [g.released_eq]
  | resume => cases hTick
  | launch => cases hTick
  | fallThrough => cases hTick

/- The ticks of a run determine which terminal has a turn. -/
theorem runningTermPtr_run
    (fs : FileSystem)
    (k : Kernel)
    (es : List Event) :
    (Logic.run (Kernel.step fs) k es).runningTermPtr =
      nextTermToRun^[es.countP Event.isTick]
        k.runningTermPtr := by
  induction es generalizing k with
  | nil => rfl
  | cons e es ih =>
      have hStep := k.step_transition fs e
      rw [Logic.run_cons, ih]
      cases hTick : e.isTick with
      | true =>
          cases e with
          | tick regs frame =>
              rw [hStep.running_tick,
                List.countP_cons_of_pos hTick,
                Function.iterate_succ_apply]
          | _ => cases hTick
      | false =>
          have hNot : ¬ e.isTick = true := by simp [hTick]
          rw [hStep.running_of_not_tick hTick,
            List.countP_cons_of_neg hNot]

/- The third tick comes back to a terminal. -/
theorem nextTermToRun_third
    (t : Tid) :
    nextTermToRun
      (nextTermToRun (nextTermToRun t)) = t := by
  revert t
  decide

/- The second tick does not. -/
theorem nextTermToRun_second
    (t : Tid) :
    nextTermToRun (nextTermToRun t) ≠ t := by
  revert t
  decide

/-
  With one tick among the events after a suspension, no
  event selects the terminal again.
-/
theorem not_selects_of_countP
    (fs : FileSystem)
    (k : Kernel)
    (t : Tid)
    (hNext : k.runningTermPtr = nextTermToRun t)
    {es : List Event}
    (hTicks : es.countP Event.isTick ≤ 1) :
    Logic.Along (Kernel.step fs)
      (fun k e => ¬ Selects k.toControl t e) k es := by
  rw [Logic.along_iff_forall_split]
  rintro es₁ e es₂ rfl ⟨hTick, hSel⟩
  rw [List.countP_append,
    List.countP_cons_of_pos hTick] at hTicks
  have hNone : es₁.countP Event.isTick = 0 := by omega
  rw [runningTermPtr_run, hNone, Function.iterate_zero_apply,
    hNext] at hSel
  exact nextTermToRun_second t hSel

end MartianPendulum

------------------------------------------------------------
-- Resuming
------------------------------------------------------------

namespace MartianPendulum

/- A process keeps waiting along a run. -/
theorem Suspended.run
    {fs : FileSystem}
    (hShell : Loadable fs shellName)
    {k : Kernel}
    {t : Tid}
    {p : Int}
    {q : PCB}
    (hWait : Suspended k.toControl t p q)
    (hSettled : Settled k.toControl)
    {es : List Event}
    (hNot : Logic.Along (Kernel.step fs)
      (fun k e => ¬ Selects k.toControl t e) k es) :
    Suspended (Logic.run (Kernel.step fs) k es).toControl
      t p q := by
  have hBoth := Logic.invariant_run_of_along
    (I := fun k : Kernel =>
      Settled k.toControl ∧ Suspended k.toControl t p q)
    (fun k e hInv hSel =>
      have hStep := k.step_transition fs e
      ⟨hInv.1.transition hShell hStep,
        hInv.2.transition hShell hInv.1 hStep hSel⟩)
    ⟨hSettled, hWait⟩ hNot
  exact hBoth.2

/- The tick that selects a terminal resumes its process. -/
theorem Suspended.resumed
    {fs : FileSystem}
    {g g' : Control}
    {o : Outcome}
    {t : Tid}
    {p : Int}
    {q : PCB}
    (hWait : Suspended g t p q)
    (hSettled : Settled g)
    {regs : Regs}
    {frame : CallFrame}
    (hStep : Transition fs g (.tick regs frame) o g')
    (hSel : nextTermToRun g.runningTermPtr = t) :
    o = .switched { esp := q.esp, ebp := q.ebp } ∧
      g'.curPid = p ∧
      g'.pcbOf p = q := by
  have hCur := hSettled.curPid_ne
  have hPid : p ≠ -1 := by
    rw [← hWait.active]
    exact hSettled.active t
  rcases hSettled.tick_eq hStep with ⟨rfl, rfl⟩
  rcases hSettled.scheduled with ⟨stack, hProc, hStack⟩
  have hNext : (g.turn regs).curPid = p := by
    rw [Processes.turn_curPid, hSel, hWait.active]
  have hKeep : (g.turn regs).pcbOf p = q :=
    (hProc.turn_pcbOf hCur regs
      (hWait.ne_curPid hProc hPid)).trans hWait.pcb
  rw [hNext, Control.resume_eq,
    Control.resume_outcome _ hPid]
  refine ⟨?_, hNext, hKeep⟩
  rw [← hKeep]
  rfl

/-
  A process that a tick interrupts runs again at the third
  tick, and not before: on the same terminal, with the
  registers that the first tick saved, on its own kernel
  stack and in its own address space, and with its PCB
  otherwise as it was, whatever the other processes and the
  keyboard did in between.
-/
theorem preempted_process_resumed
    (fs : FileSystem)
    (hShell : Loadable fs shellName)
    (k₀ : Kernel)
    (hStart : Launched fs k₀)
    (es : List Event)
    (k : Kernel)
    (hRun : k = Logic.run (Kernel.step fs) k₀ es)
    (regs regs' : Regs)
    (frame frame' : CallFrame)
    (between : List Event)
    (hTicks : between.countP Event.isTick = 1)
    (k' : Kernel)
    (hBetween : k' = Logic.run (Kernel.step fs)
      (k.step fs (.tick regs frame)) between) :
    (k'.handle fs (.tick regs' frame')).1 =
        .switched regs ∧
      (k'.step fs (.tick regs' frame')).runningTermPtr =
        k.runningTermPtr ∧
      (k'.step fs (.tick regs' frame')).curPid = k.curPid ∧
      (k'.step fs (.tick regs' frame')).pcbOf k.curPid =
        { k.pcbOf k.curPid with
          esp := regs.esp
          ebp := regs.ebp } ∧
      (k'.step fs (.tick regs' frame')).tss.esp0 =
        kernelStack k.curPid ∧
      UserPage
        (k'.step fs (.tick regs' frame')).toPageTables
        k.curPid ∧
      ∀ es₁ es₂, between = es₁ ++ es₂ →
        (Logic.run (Kernel.step fs)
          (k.step fs (.tick regs frame)) es₁).curPid ≠
          k.curPid := by
  have hSettled : Settled k.toControl := by
    rw [hRun]
    exact (hStart.settled hShell).run hShell es
  have hPid := hSettled.curPid_ne
  have hFirst := k.step_transition fs (.tick regs frame)
  have hWait := suspended_of_tick hSettled hFirst
  have hMoved := hFirst.running_tick
  have hSettled₁ := hSettled.transition hShell hFirst
  have hNot := not_selects_of_countP fs
    (k.step fs (.tick regs frame)) k.runningTermPtr hMoved
    (le_of_eq hTicks)
  have hWait' := hWait.run hShell hSettled₁ hNot
  have hSettled' := hSettled₁.run hShell between
  have hTurn := runningTermPtr_run fs
    (k.step fs (.tick regs frame)) between
  rw [hTicks, Function.iterate_one, hMoved] at hTurn
  rw [← hBetween] at hWait' hSettled' hTurn
  have hLast := k'.step_transition fs (.tick regs' frame')
  have hSel : nextTermToRun k'.runningTermPtr =
      k.runningTermPtr := by
    rw [hTurn, nextTermToRun_third]
  rcases hWait'.resumed hSettled' hLast hSel with
    ⟨hOut, hCur, hPcb⟩
  have hEnd := hSettled'.transition hShell hLast
  have hUser := hEnd.located.user hEnd.curPid_ne
  rcases hEnd.scheduled with ⟨stack, hProc, hStack⟩
  have hEsp := hStack hEnd.curPid_ne
  rw [hCur] at hUser hEsp
  refine ⟨hOut, hLast.running_tick.trans hSel, hCur, hPcb,
    hEsp, hUser, ?_⟩
  -- before the third tick the process is suspended
  rintro es₁ es₂ rfl
  rw [Logic.along_append] at hNot
  have hMid := hWait.run hShell hSettled₁ hNot.1
  have hSettledMid := hSettled₁.run hShell es₁
  rcases hSettledMid.scheduled with ⟨stack', hProc', _⟩
  exact (hMid.ne_curPid hProc' hPid).symm

theorem preempted_process_resumed_sample :
    ∃ k : Kernel,
      (k.handle sampleFs (.tick blankRegs blankFrame)).1 =
        .switched { esp := 391, ebp := 392 } :=
  ⟨_, (preempted_process_resumed sampleFs sampleFs_loadable _
    (launched_three_ticks sampleFs_loadable blankKernel
      blankRegs blankFrame)
    [] _ rfl { esp := 391, ebp := 392 } blankRegs blankFrame
    blankFrame
    [.execute blankFrame (some shellLiteral.ptr), .key 30,
      .tick blankRegs blankFrame, .halt blankFrame 7]
    rfl _ rfl).1⟩

end MartianPendulum
