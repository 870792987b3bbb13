import Mathlib.Data.Fintype.Pigeonhole
import MartianPendulum.Process.Table

/-
  The process table along runs.

  `Scheduled` is the invariant of every run in which each
  launch of a base shell finds a free pid.  Once the base
  shells are launched nothing more is launched, and the
  invariant holds without conditions.

  Key definitions include:
    * `Scheduled`
    * `CanLaunch`
    * `Launched`
    * `TableInvariant`

  Key theorems include:
    * `Scheduled.transition`
    * `Launched.settled`
    * `tableInvariant_run`
-/

------------------------------------------------------------
-- Steps
------------------------------------------------------------

namespace MartianPendulum

/-
  System calls and stores are steps of a process, so there
  is one.
-/
def Allowed
    (g : Control) :
    Event → Prop
| .tick _ _ => True
| .key _ => True
| _ => g.curPid ≠ -1

/-
  A tick that selects a terminal without a process finds a
  free pid for its base shell.
-/
def CanLaunch
    (g : Control) :
    Event → Prop
| .tick _ _ =>
    g.active (nextTermToRun g.runningTermPtr) = -1 →
      ∃ p ∈ pids, g.pcbBitmap p = 0
| _ => True

/- The process table is well formed. -/
def Scheduled
    (g : Control) : Prop :=
  ∃ stack, Processes g stack ∧ OnStack g

theorem freePid_of_canLaunch
    {g : Control}
    {regs : Regs}
    {frame : CallFrame}
    (hLaunch : CanLaunch g (.tick regs frame))
    (hPid : (g.turn regs).curPid = -1) :
    (g.turn regs).freePid ≠ none := by
  rw [Processes.turn_curPid] at hPid
  rcases hLaunch hPid with ⟨p, hp, hZero⟩
  rw [Ne, Control.freePid_eq_none_iff]
  intro hAll
  apply hAll p hp
  rw [Control.turn_eq]
  exact hZero

/- A creation leaves every terminal its process. -/
theorem active_spawn_ne
    {g : Control}
    {n : Int}
    (hFree : g.freePid = some n)
    (args : Ptr)
    (regs : Regs)
    {t : Tid}
    (hActive : t ≠ g.runningTermPtr → g.active t ≠ -1) :
    (g.spawn n args regs).active t ≠ -1 := by
  rw [Control.spawn_active]
  by_cases hRun : t = g.runningTermPtr
  · subst hRun
    rw [Function.update_self]
    exact ne_neg_one_of_mem_pids (Control.freePid_mem hFree)
  · rw [Function.update_of_ne hRun]
    exact hActive hRun

/- A vidmap call moves no process. -/
theorem Processes.vidmapped
    {g : Control}
    {stack : Tid → List Int}
    (hProc : Processes g stack) :
    Processes g.vidmapped stack ∧
      g.vidmapped.active = g.active := by
  have hActive : g.vidmapped.active = g.active := by
    funext t
    by_cases hRun : t = g.runningTermPtr
    · subst hRun
      simp [Control.active, Control.vidmapped,
        Control.setVidmap, Control.setTerm, Control.setPcb,
        Control.setTables]
    · simp [Control.active, Control.vidmapped,
        Control.setVidmap, Control.setTerm, Control.setPcb,
        Control.setTables, hRun]
  refine ⟨hProc.congr rfl hActive ?_ hProc.curPcb, hActive⟩
  intro a
  by_cases hHere : a = g.curPcbPtr
  · subst hHere
    simp only [Control.vidmapped, Control.setVidmap,
      Control.setTerm, Control.setPcb, Control.setTables,
      Function.update_self]
    exact ⟨rfl, rfl, rfl⟩
  · simp only [Control.vidmapped, Control.setVidmap,
      Control.setTerm, Control.setPcb, Control.setTables,
      Function.update_of_ne hHere]
    exact .refl _

/-
  Every step keeps the table well formed and leaves every
  terminal its process.
-/
theorem Scheduled.transition
    {fs : FileSystem}
    (hShell : Loadable fs shellName)
    {g g' : Control}
    {e : Event}
    {o : Outcome}
    (hSched : Scheduled g)
    (hStep : Transition fs g e o g')
    (hAllowed : Allowed g e)
    (hLaunch : CanLaunch g e) :
    Scheduled g' ∧
      ∀ t, g.active t ≠ -1 → g'.active t ≠ -1 := by
  rcases hSched with ⟨stack, hProc, hStack⟩
  cases hStep with
  | idle => exact ⟨⟨stack, hProc, hStack⟩, fun _ h => h⟩
  | view inputCode t =>
      exact ⟨⟨stack,
        hProc.congr rfl rfl (fun _ => .refl _) hProc.curPcb,
        hStack⟩, fun _ h => h⟩
  | vidmap screenStart =>
      rcases hProc.vidmapped with ⟨hMapped, hActive⟩
      refine ⟨⟨stack, hMapped, hStack⟩, ?_⟩
      rw [hActive]
      exact fun _ h => h
  | spawn frame userInput n args eip hFree =>
      exact ⟨⟨_, hProc.spawn hFree args frame.toRegs⟩,
        fun t h => active_spawn_ne hFree args frame.toRegs
          (fun _ => h)⟩
  | ret frame status hParent =>
      have hPop := hProc.haltToParent hAllowed hParent status
      refine ⟨⟨_, hPop⟩, ?_⟩
      rw [hProc.active_haltToParent hAllowed hParent status]
      rw [hProc.released_parentPid hAllowed] at hParent
      intro t hActive
      by_cases hRun : t = g.runningTermPtr
      · subst hRun
        rwa [Function.update_self]
      · rwa [Function.update_of_ne hRun]
  | restart frame status n args eip hParent hFree =>
      have hPop := hProc.orphaned hAllowed hParent
      refine ⟨⟨_, hPop.spawn hFree args frame.toRegs⟩, ?_⟩
      intro t hActive
      apply active_spawn_ne hFree args frame.toRegs
      intro hRun
      have hSame : g.orphaned.runningTermPtr =
          g.runningTermPtr := by
        unfold Control.orphaned
        rw [g.released_eq]
      rw [hSame] at hRun
      rwa [Processes.active_orphaned,
        Function.update_of_ne hRun]
  | stuck frame status hParent hFail =>
      exact absurd (hFail hShell)
        (hProc.orphaned_freePid hAllowed)
  | resume regs frame hPid =>
      have hTurn := hProc.turn hStack regs
      refine ⟨⟨stack, hTurn.resume hPid⟩, ?_⟩
      intro t hActive
      rw [← Processes.active_turn g regs] at hActive
      rw [Control.resume_eq]
      exact hActive
  | launch regs frame n args eip hPid hFree =>
      have hTurn := hProc.turn hStack regs
      refine ⟨⟨_, hTurn.spawn hFree args frame.toRegs⟩, ?_⟩
      intro t hActive
      rw [← Processes.active_turn g regs] at hActive
      exact active_spawn_ne hFree args frame.toRegs
        (fun _ => hActive)
  | fallThrough regs frame hPid hFail =>
      exact absurd (hFail hShell)
        (freePid_of_canLaunch hLaunch hPid)

end MartianPendulum

------------------------------------------------------------
-- Launching the Base Shells
------------------------------------------------------------

namespace MartianPendulum

/-
  The base shells are launched: ticks, and keys between
  them, have given every terminal its process.
-/
def Launched
    (fs : FileSystem)
    (k : Kernel) : Prop :=
  ∃ (k₀ : Kernel) (es : List Event),
    (∀ e ∈ es, e.isInterrupt = true) ∧
      k = Logic.run (Kernel.step fs) k₀.boot es ∧
      ∀ t, k.active t ≠ -1

/-
  While the base shells are launched no terminal has more
  than its base shell.
-/
structure Starting
    (g : Control) : Prop where
  table : ∃ stack, Processes g stack ∧ OnStack g ∧
    ∀ t, (stack t).length ≤ 1
  layout : ∃ frame mapped,
    Layout g.toPageTables frame mapped
  located : g.curPid ≠ -1 → Located g

theorem processes_boot
    (k : Kernel) :
    Processes k.boot.toControl (fun _ => []) := by
  have hActive : ∀ t, k.boot.active t = -1 := by
    intro t
    unfold Control.active
    split
    · rfl
    · rfl
  have hDead : ∀ p, ¬ k.boot.live p := by
    rintro p ⟨_, hOne⟩
    cases hOne
  refine ⟨⟨hActive, ?_, ?_⟩, ?_, ?_, ?_, ?_⟩
  · intro t u p hp
    cases hp
  · intro p
    constructor
    · intro hLive
      exact absurd hLive (hDead p)
    · rintro ⟨t, hp⟩
      cases hp
  · intro p _
    exact Or.inl rfl
  · intro hCur
    exact absurd rfl hCur
  · intro p hLive
    exact absurd hLive (hDead p)
  · intro p hLive
    exact absurd hLive (hDead p)

theorem onStack_boot
    (k : Kernel) :
    OnStack k.boot.toControl := by
  intro hCur
  exact absurd rfl hCur

theorem starting_boot
    (k : Kernel) :
    Starting k.boot.toControl :=
  ⟨⟨_, processes_boot k, onStack_boot k, by simp⟩,
    ⟨_, _, layout_pagingInit k.toPageTables⟩,
    fun hCur => absurd rfl hCur⟩

/- Three stacks of one element do not use up six pids. -/
theorem exists_free_of_short
    {g : Control}
    {stack : Tid → List Int}
    (hProc : Processes g stack)
    (hShort : ∀ t, (stack t).length ≤ 1) :
    g.freePid ≠ none := by
  rw [hProc.exists_free_iff]
  by_contra hFull
  push Not at hFull
  have hSome : ∀ i : Fin 6,
      ∃ t, ((i.val : Nat) : Int) ∈ stack t := by
    intro i
    apply (hProc.forest.live_iff _).mp
    apply hFull
    rw [mem_pids]
    omega
  choose terminal hOn using hSome
  rcases
      Fintype.exists_ne_map_eq_of_card_lt terminal (by decide) with
    ⟨i, j, hNe, hSame⟩
  have hi := hOn i
  have hj := hOn j
  rw [hSame] at hi
  have hEq : ((i.val : Nat) : Int) = (j.val : Nat) := by
    match hList : stack (terminal j), hShort (terminal j) with
    | [], _ =>
        rw [hList] at hi
        cases hi
    | [x], _ =>
        rw [hList, List.mem_singleton] at hi hj
        rw [hi, hj]
    | x :: y :: l, hLen =>
        simp at hLen
  apply hNe
  apply Fin.ext
  omega

/- A terminal without a process has an empty stack. -/
theorem stack_eq_nil
    {g : Control}
    {stack : Tid → List Int}
    (hProc : Processes g stack)
    {t : Tid}
    (hNone : g.active t = -1) :
    stack t = [] := by
  have hFollows := hProc.forest.follows t
  cases hList : stack t with
  | nil => rfl
  | cons x l =>
      rw [hList] at hFollows
      exact absurd hNone hFollows.2.1

/- A tick launches a base shell where none runs. -/
theorem Starting.step_tick
    {fs : FileSystem}
    (hShell : Loadable fs shellName)
    {k : Kernel}
    (hStart : Starting k.toControl)
    (regs : Regs)
    (callFrame : CallFrame) :
    Starting
      (k.step fs (.tick regs callFrame)).toControl := by
  rcases hStart with
    ⟨⟨stack, hProc, hStack, hShort⟩, ⟨frame, mapped,
     hLayout⟩, -⟩
  have hStep := k.step_transition fs (.tick regs callFrame)
  have hLoc := located_tick fs k hLayout regs callFrame
  have hTurn := hProc.turn hStack regs
  refine ⟨?_, ⟨_, _, hLoc.layout⟩, fun _ => hLoc⟩
  generalize (k.step fs (.tick regs callFrame)).toControl
    = g' at hStep
  generalize (k.handle fs (.tick regs callFrame)).1
    = o at hStep
  cases hStep with
  | idle _ _ hIdle => cases hIdle
  | resume _ _ hPid =>
      exact ⟨stack, (hTurn.resume hPid).1,
        (hTurn.resume hPid).2, hShort⟩
  | launch _ _ n args eip hPid hFree =>
      rcases hTurn.spawn hFree args callFrame.toRegs with
        ⟨hPush, hOn⟩
      refine ⟨_, hPush, hOn, ?_⟩
      have hEmpty : stack
          (k.turn regs).runningTermPtr = [] := by
        apply stack_eq_nil hTurn
        rwa [Processes.active_running]
      intro t
      by_cases hRun : t = (k.turn regs).runningTermPtr
      · subst hRun
        simp [hEmpty]
      · simpa [hRun] using hShort t
  | fallThrough _ _ hPid hFail =>
      exact absurd (hFail hShell)
        (exists_free_of_short hTurn hShort)

/- A key launches nothing. -/
theorem Starting.step_key
    (fs : FileSystem)
    {k : Kernel}
    (hStart : Starting k.toControl)
    (inputCode : UInt8) :
    Starting (k.step fs (.key inputCode)).toControl := by
  rcases hStart with
    ⟨⟨stack, hProc, hStack, hShort⟩, ⟨frame, mapped,
     hLayout⟩, hLocated⟩
  have hStep := k.step_transition fs (.key inputCode)
  generalize (k.step fs (.key inputCode)).toControl
    = g' at hStep
  generalize (k.handle fs (.key inputCode)).1
    = o at hStep
  cases hStep with
  | idle =>
      exact ⟨⟨stack, hProc, hStack, hShort⟩,
        ⟨frame, mapped, hLayout⟩, hLocated⟩
  | view _ t =>
      refine ⟨⟨stack, hProc.congr rfl rfl
        (fun _ => .refl _) hProc.curPcb, hStack,
        hShort⟩, ⟨_, _,
          layout_mapRunning (g := k.setViewing t)
            hLayout⟩, ?_⟩
      intro hCur
      exact (hLocated hCur).transition
        (Transition.view inputCode t :
          Transition fs k.toControl _ _ _)

/- Ticks and keys launch nothing but base shells. -/
theorem Starting.step
    {fs : FileSystem}
    (hShell : Loadable fs shellName)
    {k : Kernel}
    (hStart : Starting k.toControl)
    {e : Event}
    (hInterrupt : e.isInterrupt = true) :
    Starting (k.step fs e).toControl := by
  cases e with
  | tick regs callFrame =>
      exact hStart.step_tick hShell regs callFrame
  | key inputCode => exact hStart.step_key fs inputCode
  | execute => cases hInterrupt
  | halt => cases hInterrupt
  | vidmap => cases hInterrupt
  | write => cases hInterrupt
  | store => cases hInterrupt

/- There is a free pid for each base shell. -/
theorem Starting.canLaunch
    {g : Control}
    (hStart : Starting g)
    (e : Event) :
    CanLaunch g e := by
  rcases hStart.table with ⟨stack, hProc, hStack, hShort⟩
  unfold CanLaunch
  split
  · intro _
    rcases hProc.exists_free_iff.mp
        (exists_free_of_short hProc hShort) with
      ⟨p, hp, hDead⟩
    refine ⟨p, hp, (hProc.bit p hp).resolve_right ?_⟩
    exact fun hOne => hDead ⟨hp, hOne⟩
  · trivial

theorem Launched.starting
    {fs : FileSystem}
    (hShell : Loadable fs shellName)
    {k : Kernel}
    (hStart : Launched fs k) :
    Starting k.toControl := by
  rcases hStart with ⟨k₀, es, hEs, rfl, _⟩
  have hAlong : Logic.Along (Kernel.step fs)
      (fun _ e => e.isInterrupt = true) k₀.boot es := by
    rw [Logic.along_iff_forall_split]
    rintro es₁ e es₂ rfl
    exact hEs e (by simp)
  exact Logic.invariant_run_of_along
    (I := fun k : Kernel => Starting k.toControl)
    (fun k e hInv hInt => hInv.step hShell hInt)
    (starting_boot k₀) hAlong

end MartianPendulum

------------------------------------------------------------
-- Whole Runs
------------------------------------------------------------

namespace MartianPendulum

/- Every terminal has its process. -/
structure Settled
    (g : Control) : Prop where
  scheduled : Scheduled g
  active : ∀ t, g.active t ≠ -1
  located : Located g

theorem Settled.curPid_ne
    {g : Control}
    (hSettled : Settled g) :
    g.curPid ≠ -1 := by
  have hRun := hSettled.active g.runningTermPtr
  rwa [Processes.active_running] at hRun

theorem Launched.settled
    {fs : FileSystem}
    (hShell : Loadable fs shellName)
    {k : Kernel}
    (hStart : Launched fs k) :
    Settled k.toControl := by
  rcases hStart.starting hShell with
    ⟨⟨stack, hProc, hStack, _⟩, _, hLocated⟩
  rcases hStart with ⟨_, _, _, _, hActive⟩
  refine ⟨⟨stack, hProc, hStack⟩, hActive, hLocated ?_⟩
  have hRun := hActive k.runningTermPtr
  rwa [Processes.active_running] at hRun

theorem Settled.allowed
    {g : Control}
    (hSettled : Settled g)
    (e : Event) :
    Allowed g e := by
  unfold Allowed
  split
  · trivial
  · trivial
  · exact hSettled.curPid_ne

theorem Settled.canLaunch
    {g : Control}
    (hSettled : Settled g)
    (e : Event) :
    CanLaunch g e := by
  unfold CanLaunch
  split
  · intro hNone
    exact absurd hNone (hSettled.active _)
  · trivial

/- Once every terminal has a process, this stays so. -/
theorem Settled.transition
    {fs : FileSystem}
    (hShell : Loadable fs shellName)
    {g g' : Control}
    {e : Event}
    {o : Outcome}
    (hSettled : Settled g)
    (hStep : Transition fs g e o g') :
    Settled g' := by
  rcases
      hSettled.scheduled.transition hShell hStep
        (hSettled.allowed e) (hSettled.canLaunch e) with
    ⟨hSched, hActive⟩
  exact ⟨hSched, fun t => hActive t (hSettled.active t),
    hSettled.located.transition hStep⟩

theorem Settled.run
    {fs : FileSystem}
    (hShell : Loadable fs shellName)
    {k : Kernel}
    (hSettled : Settled k.toControl)
    (es : List Event) :
    Settled
      (Logic.run (Kernel.step fs) k es).toControl :=
  Logic.invariant_run
    (I := fun k : Kernel => Settled k.toControl)
    (fun k e hInv =>
      hInv.transition hShell (k.step_transition fs e))
    hSettled es

/-
  The process table as the scheduler relies on it: stacks of
  live processes, one for each terminal, that share no pid
  and use up the bitmap, and a current process that every
  copy of its pid agrees on.
-/
structure TableInvariant
    (g : Control) : Prop where
  active : ∀ t, g.active t ∈ pids
  chains : ∃ stack : Tid → List Int,
    (∀ t,
      Logic.Follows g.parentOf (-1) (g.active t) (stack t)) ∧
    (∀ t u p, p ∈ stack t → p ∈ stack u → t = u) ∧
    (∀ p, (∃ t, p ∈ stack t) ↔
      p ∈ pids ∧ g.pcbBitmap p = 1)
  curPcbPtr : g.curPcbPtr = getPcbPtr g.curPid
  pid : ∀ p ∈ pids, g.pcbBitmap p = 1 →
    (g.pcbOf p).pid = p
  pageDir : g.pageDirBase 32 =
    pageDirEntry4MB 1 0 (BitVec.ofInt 10 (g.curPid + 2))
  esp0 : g.tss.esp0 = g.curPcbPtr + (size8K : Int) - 4

theorem Settled.tableInvariant
    {g : Control}
    (hSettled : Settled g) :
    TableInvariant g := by
  rcases hSettled with
    ⟨⟨stack, hProc, hStack⟩, hActive, hLocated⟩
  have hCur : g.curPid ≠ -1 := by
    have hRun := hActive g.runningTermPtr
    rwa [Processes.active_running] at hRun
  refine ⟨?_, ?_, hProc.curPcb hCur, ?_,
    hLocated.user hCur, ?_⟩
  · intro t
    exact (hProc.forest.top_live (hActive t)).1
  · exact ⟨stack, hProc.forest.follows,
      hProc.forest.disjoint,
      fun p => (hProc.forest.live_iff p).symm⟩
  · intro p hp hOne
    exact hProc.pid p ⟨hp, hOne⟩
  · rw [hStack hCur, kernelStack, hProc.curPcb hCur]

/-
  From the launch of the base shells on, the process table
  is well formed in every state that any order of ticks,
  system calls and keys reaches.
-/
theorem tableInvariant_run
    (fs : FileSystem)
    (hShell : Loadable fs shellName)
    (k : Kernel)
    (hStart : Launched fs k)
    (es : List Event) :
    TableInvariant
      (Logic.run (Kernel.step fs) k es).toControl :=
  ((hStart.settled hShell).run hShell es).tableInvariant

/- A tick moves to the next terminal and finds a process. -/
theorem tick_running
    {fs : FileSystem}
    (hShell : Loadable fs shellName)
    {g g' : Control}
    {regs : Regs}
    {frame : CallFrame}
    {o : Outcome}
    (hStep : Transition fs g (.tick regs frame) o g')
    (hLaunch : CanLaunch g (.tick regs frame)) :
    g'.runningTermPtr = nextTermToRun g.runningTermPtr ∧
      g'.curPid ≠ -1 := by
  refine ⟨hStep.running_tick, ?_⟩
  cases hStep with
  | idle _ _ hIdle => cases hIdle
  | resume _ _ hPid =>
      rw [Control.resume_eq]
      exact hPid
  | launch _ _ n args eip hPid hFree =>
      rw [Control.spawn_eq]
      exact ne_neg_one_of_mem_pids
        (Control.freePid_mem hFree)
  | fallThrough _ _ hPid hFail =>
      exact absurd (hFail hShell)
        (freePid_of_canLaunch hLaunch hPid)

/- A tick leaves a process on the terminal it moves to. -/
theorem Starting.tick
    {fs : FileSystem}
    (hShell : Loadable fs shellName)
    {k : Kernel}
    (hStart : Starting k.toControl)
    (regs : Regs)
    (frame : CallFrame) :
    let k' := k.step fs (.tick regs frame)
    k'.runningTermPtr = nextTermToRun k.runningTermPtr ∧
      k'.active (nextTermToRun k.runningTermPtr) ≠ -1 ∧
      ∀ t, k.active t ≠ -1 → k'.active t ≠ -1 := by
  intro k'
  rcases hStart.table with ⟨stack, hProc, hStack, _⟩
  have hLaunch := hStart.canLaunch (.tick regs frame)
  have hStep := k.step_transition fs (.tick regs frame)
  rcases tick_running hShell hStep hLaunch with
    ⟨hNext, hCur⟩
  refine ⟨hNext, ?_, ?_⟩
  · have hTop := Processes.active_running k'.toControl
    rw [hNext] at hTop
    exact fun hNone => hCur (hTop.symm.trans hNone)
  · exact (Scheduled.transition hShell
      ⟨stack, hProc, hStack⟩ hStep trivial hLaunch).2

/- Three ticks launch the three base shells. -/
theorem launched_three_ticks
    {fs : FileSystem}
    (hShell : Loadable fs shellName)
    (k : Kernel)
    (regs : Regs)
    (frame : CallFrame) :
    Launched fs
      (Logic.run (Kernel.step fs) k.boot
        [.tick regs frame, .tick regs frame,
          .tick regs frame]) := by
  refine ⟨k, _, by simp [Event.isInterrupt], rfl, ?_⟩
  have hNext : nextTermToRun k.boot.runningTermPtr = 1 :=
    rfl
  have hStart₀ := starting_boot k
  rcases hStart₀.tick hShell regs frame with
    ⟨hRun₁, hOne, _⟩
  have hStart₁ : Starting
      (k.boot.step fs (.tick regs frame)).toControl :=
    hStart₀.step hShell rfl
  rw [Logic.run_cons, Logic.run_cons, Logic.run_cons,
    Logic.run_nil]
  generalize k.boot.step fs (.tick regs frame) = k₁
    at hRun₁ hOne hStart₁ ⊢
  rcases hStart₁.tick hShell regs frame with
    ⟨hRun₂, hTwo, hKeep₂⟩
  have hStart₂ : Starting
      (k₁.step fs (.tick regs frame)).toControl :=
    hStart₁.step hShell rfl
  generalize k₁.step fs (.tick regs frame) = k₂
    at hRun₂ hTwo hKeep₂ hStart₂ ⊢
  rcases hStart₂.tick hShell regs frame with
    ⟨_, hZero, hKeep₃⟩
  rw [hNext] at hRun₁ hOne
  rw [hRun₁] at hRun₂ hTwo
  rw [hRun₂] at hZero
  intro t
  match t with
  | 0 => exact hZero
  | 1 => exact hKeep₃ _ (hKeep₂ _ hOne)
  | 2 => exact hKeep₃ _ hTwo

/- The system after three ticks. -/
def threeShells : Kernel :=
  Logic.run (Kernel.step sampleFs) blankKernel.boot
    [.tick blankRegs blankFrame,
      .tick blankRegs blankFrame,
      .tick blankRegs blankFrame]

theorem threeShells_launched :
    Launched sampleFs threeShells :=
  launched_three_ticks sampleFs_loadable blankKernel
    blankRegs blankFrame

/- A shell executed after a tick halts when it has a turn. -/
theorem tableInvariant_run_sample :
    TableInvariant
      (Logic.run (Kernel.step sampleFs) threeShells
        [.tick blankRegs blankFrame,
          .execute blankFrame (some shellLiteral.ptr),
          .tick blankRegs blankFrame,
          .tick blankRegs blankFrame,
          .tick blankRegs blankFrame,
          .halt blankFrame 7]).toControl :=
  tableInvariant_run sampleFs sampleFs_loadable threeShells
    threeShells_launched _

end MartianPendulum
