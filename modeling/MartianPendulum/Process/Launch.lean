import MartianPendulum.Process.Invariant

/-
  The scheduler from boot on.

  A tick that selects a terminal without a process launches
  its base shell.  The launch fails when the processes
  started so far have taken every pid; `schedule` then goes
  on with pid -1 and faults.  `resumesProcess_iff_canLaunch`
  shows that
  nothing else can go wrong.

  Key definitions include:
    * `ResumesProcess`

  Key theorems include:
    * `Scheduled.resumesProcess`
    * `resumesProcess_iff_canLaunch`
    * `schedule_falls_through`
-/

------------------------------------------------------------
-- What a Tick Resumes
------------------------------------------------------------

namespace MartianPendulum

/-
  A tick starts a process in a terminal that has none, and
  otherwise switches to the registers saved for the live
  process of the terminal.
-/
def ResumesProcess
    (fs : FileSystem)
    (k : Kernel) :
    Event → Prop
| .tick regs frame =>
    let next := k.active (nextTermToRun k.runningTermPtr)
    if next = -1 then
      ∃ n ∈ pids, ∃ eip,
        (k.pitIntHandler fs regs frame).1 = .started n eip
    else
      k.live next ∧
        (k.pitIntHandler fs regs frame).1 =
          .switched
            { esp := (k.pcbOf next).esp
              ebp := (k.pcbOf next).ebp }
| _ => True

/- A launch that succeeds had a free pid. -/
theorem canLaunch_of_resumesProcess
    {fs : FileSystem}
    {k : Kernel}
    {e : Event}
    (hResume : ResumesProcess fs k e) :
    CanLaunch k.toControl e := by
  cases e with
  | tick regs frame =>
      intro hNone
      simp only [ResumesProcess, hNone, if_true] at hResume
      rcases hResume with ⟨n, hn, eip, hStart⟩
      have hPid := Processes.turn_curPid k.toControl regs
      rw [hNone] at hPid
      rcases k.pitIntHandler_cases fs regs frame hPid with
        ⟨m, args, eip', d, hFree, hTick⟩ |
        ⟨hFail, d, hTick⟩
      · refine ⟨m, Control.freePid_mem hFree, ?_⟩
        have hZero := Control.freePid_bitmap hFree
        rwa [Control.turn_eq] at hZero
      · rw [hTick] at hStart
        cases hStart
  | execute => trivial
  | halt => trivial
  | vidmap => trivial
  | write => trivial
  | store => trivial
  | key => trivial

/- With a free pid a tick resumes a process. -/
theorem Scheduled.resumesProcess
    {fs : FileSystem}
    (hShell : Loadable fs shellName)
    {k : Kernel}
    (hSched : Scheduled k.toControl)
    {e : Event}
    (hLaunch : CanLaunch k.toControl e) :
    ResumesProcess fs k e := by
  cases e with
  | tick regs frame =>
      rcases hSched with ⟨stack, hProc, hStack⟩
      have hPid := Processes.turn_curPid k.toControl regs
      by_cases hNone :
          k.active (nextTermToRun k.runningTermPtr) = -1
      · simp only [ResumesProcess, hNone, if_true]
        rw [hNone] at hPid
        rcases k.pitIntHandler_cases fs regs frame hPid with
          ⟨n, args, eip, d, hFree, hTick⟩ |
          ⟨hFail, d, hTick⟩
        · exact ⟨n, Control.freePid_mem hFree, eip, by
            rw [hTick]⟩
        · exact absurd (hFail hShell)
            (freePid_of_canLaunch hLaunch hPid)
      · simp only [ResumesProcess, hNone, if_false]
        refine ⟨hProc.forest.top_live hNone, ?_⟩
        rw [k.pitIntHandler_of_pid fs regs frame
          (by rwa [hPid]), hPid]
        simp only [Control.resume_outcome _ hNone]
        -- the selected process is not the one just saved
        have hSaved :
            (k.turn regs).pcb (getPcbPtr
              (k.active (nextTermToRun k.runningTermPtr))) =
            k.pcbOf
              (k.active (nextTermToRun k.runningTermPtr)) := by
          rw [Control.turn_eq]
          simp only [Control.turnPcb, Control.pcbOf]
          by_cases hCur : k.curPid = -1
          · simp only [hCur, ne_eq, not_true, if_false]
          · have hOther :
                k.active
                    (nextTermToRun k.runningTermPtr) ≠
                  k.curPid := by
              intro hSame
              rw [← Processes.active_running] at hSame
              exact nextTermToRun_ne _
                (hProc.forest.top_inj hNone hSame)
            simp only [hCur, ne_eq, not_false_iff, if_true,
              hProc.curPcb hCur]
            rw [Function.update_of_ne
              (getPcbPtr_injective.ne hOther)]
        rw [hSaved]
  | execute => trivial
  | halt => trivial
  | vidmap => trivial
  | write => trivial
  | store => trivial
  | key => trivial

end MartianPendulum

------------------------------------------------------------
-- Runs From Boot
------------------------------------------------------------

namespace MartianPendulum

theorem Scheduled.run
    {fs : FileSystem}
    (hShell : Loadable fs shellName)
    {k : Kernel}
    (hSched : Scheduled k.toControl)
    {es : List Event}
    (hAllowed : Logic.Along (Kernel.step fs)
      (fun k e => Allowed k.toControl e) k es)
    (hLaunch : Logic.Along (Kernel.step fs)
      (fun k e => CanLaunch k.toControl e) k es) :
    Scheduled
      (Logic.run (Kernel.step fs) k es).toControl := by
  induction es generalizing k with
  | nil => exact hSched
  | cons e es ih =>
      exact ih
        (hSched.transition hShell (k.step_transition fs e)
          hAllowed.1 hLaunch.1).1
        hAllowed.2 hLaunch.2

/-
  From boot on, every tick resumes or starts a process
  exactly if every tick that selects a terminal without a
  process finds a free pid.
-/
theorem resumesProcess_iff_canLaunch
    (fs : FileSystem)
    (hShell : Loadable fs shellName)
    (k : Kernel)
    (es : List Event)
    (hAllowed : Logic.Along (Kernel.step fs)
      (fun k e => Allowed k.toControl e) k.boot es) :
    Logic.Along (Kernel.step fs) (ResumesProcess fs)
        k.boot es ↔
      Logic.Along (Kernel.step fs)
        (fun k e => CanLaunch k.toControl e) k.boot es := by
  constructor
  · intro hResume
    rw [Logic.along_iff_forall_split] at hResume ⊢
    intro es₁ e es₂ hSplit
    exact canLaunch_of_resumesProcess
      (hResume es₁ e es₂ hSplit)
  · intro hLaunch
    have hBoot : Scheduled k.boot.toControl :=
      ⟨_, processes_boot k, onStack_boot k⟩
    rw [Logic.along_iff_forall_split]
    rintro es₁ e es₂ rfl
    have hBefore := (Logic.along_append _ _ _).mp hAllowed
    have hReady := (Logic.along_append _ _ _).mp hLaunch
    exact (hBoot.run hShell hBefore.1 hReady.1).resumesProcess
      hShell hReady.2.1

/-
  The first two base shells execute a shell each, and the
  third tick still finds a pid.
-/
theorem resumesProcess_iff_canLaunch_sample :
    Logic.Along (Kernel.step sampleFs)
      (ResumesProcess sampleFs) blankKernel.boot
      [.tick blankRegs blankFrame,
        .execute blankFrame (some shellLiteral.ptr),
        .tick blankRegs blankFrame,
        .execute blankFrame (some shellLiteral.ptr),
        .tick blankRegs blankFrame,
        .tick blankRegs blankFrame] := by
  refine (resumesProcess_iff_canLaunch sampleFs
    sampleFs_loadable blankKernel _ ?_).mpr ?_
  · refine ⟨trivial, ?_, trivial, ?_, trivial, trivial,
      trivial⟩
    · show _ ≠ (-1 : Int)
      decide +kernel
    · show _ ≠ (-1 : Int)
      decide +kernel
  · refine ⟨?_, trivial, ?_, trivial, ?_, ?_, trivial⟩
    · exact fun _ => ⟨0, by decide, by decide +kernel⟩
    · exact fun _ => ⟨2, by decide, by decide +kernel⟩
    · exact fun _ => ⟨4, by decide, by decide +kernel⟩
    · exact fun _ => ⟨5, by decide, by decide +kernel⟩

end MartianPendulum

------------------------------------------------------------
-- A Launch That Fails
------------------------------------------------------------

namespace MartianPendulum

/- The pids below a bound are taken. -/
def Filled
    (g : Control)
    (m : Int) : Prop :=
  ∀ p ∈ pids, g.pcbBitmap p = if p < m then 1 else 0

theorem freePid_of_filled
    {g : Control}
    {m : Int}
    (hm : m ∈ pids)
    (hFilled : Filled g m) :
    g.freePid = some m := by
  have hFits : g.pcbBitmap m = 0 := by
    rw [hFilled m hm, if_neg (lt_irrefl m)]
  cases hFree : g.freePid with
  | none =>
      rw [Control.freePid_eq_none_iff] at hFree
      exact absurd hFits (hFree m hm)
  | some n =>
      rcases Logic.find?_least (by decide) hFree with
        ⟨hMem, hTest, hLeast⟩
      have hZero := of_decide_eq_true hTest
      rw [hFilled n hMem] at hZero
      have hLow : ¬ n < m := by
        intro hLt
        rw [if_pos hLt] at hZero
        cases hZero
      have hHigh : ¬ m < n := by
        intro hLt
        exact of_decide_eq_false (hLeast m hm hLt) hFits
      rw [le_antisymm (not_lt.mp hHigh) (not_lt.mp hLow)]

/-
  Terminal 1 runs and has taken the pids below `m`, and
  terminal 2 has no process.
-/
structure Crowded
    (g : Control)
    (m : Int) : Prop where
  filled : Filled g m
  running : g.runningTermPtr = 1
  curPid : g.curPid ≠ -1
  waiting : (g.termArr 2).pid = -1

theorem crowded_spawn
    {g : Control}
    {m : Int}
    (hm : m ∈ pids)
    (hFilled : Filled g m)
    (hRun : g.runningTermPtr = 1)
    (hWait : (g.termArr 2).pid = -1)
    (args : Ptr)
    (regs : Regs) :
    Crowded (g.spawn m args regs) (m + 1) := by
  rw [Control.spawn_eq]
  refine ⟨?_, hRun, ne_neg_one_of_mem_pids hm, hWait⟩
  intro p hp
  by_cases hNew : p = m
  · subst hNew
    simp
  · have hOld := hFilled p hp
    have hIff : p < m + 1 ↔ p < m := by omega
    simp only [Function.update_of_ne hNew, hOld, hIff]

/- The first tick gives terminal 1 the first pid. -/
theorem crowded_first_tick
    {fs : FileSystem}
    (hShell : Loadable fs shellName)
    (k : Kernel)
    (regs : Regs)
    (frame : CallFrame) :
    Crowded
      (k.boot.step fs (.tick regs frame)).toControl 1 := by
  have hFilled : Filled (k.boot.turn regs) 0 := by
    intro p hp
    rw [mem_pids] at hp
    rw [Control.turn_eq, if_neg (by omega)]
    rfl
  have hPid : (k.boot.turn regs).curPid = -1 := by
    rw [Control.turn_eq]
    rfl
  have hFirst : (k.boot.turn regs).freePid = some 0 :=
    freePid_of_filled (by decide) hFilled
  simp only [Kernel.step, Kernel.handle]
  rcases k.boot.pitIntHandler_cases fs regs frame hPid with
    ⟨n, args, eip, d, hFree, hTick⟩ | ⟨hFail, d, hTick⟩
  · rw [hFirst] at hFree
    cases hFree
    rw [hTick]
    refine crowded_spawn (by decide) hFilled ?_ ?_ args _
    · rw [Control.turn_eq]
      rfl
    · rw [Control.turn_eq]
      rfl
  · rw [hFail hShell] at hFirst
    cases hFirst

/- Each shell that a shell executes takes one more. -/
theorem crowded_execute
    {fs : FileSystem}
    (hShell : Loadable fs shellName)
    {k : Kernel}
    {m : Int}
    (hm : m ∈ pids)
    (hCrowd : Crowded k.toControl m)
    (frame : CallFrame) :
    Crowded
      (k.step fs (.execute frame
        (some shellLiteral.ptr))).toControl (m + 1) := by
  have hFirst : k.freePid = some m :=
    freePid_of_filled hm hCrowd.filled
  simp only [Kernel.step, Kernel.handle]
  rcases syscallExecute_shell_cases fs frame k with
    ⟨n, args, eip, d, hFree, hExec⟩ | ⟨hFail, v, d, hExec⟩
  · rw [hFirst] at hFree
    cases hFree
    rw [hExec]
    exact crowded_spawn hm hCrowd.filled hCrowd.running
      hCrowd.waiting args _
  · rw [hFail hShell] at hFirst
    cases hFirst

/- A shell that executes shells takes every pid. -/
theorem crowded_run
    {fs : FileSystem}
    (hShell : Loadable fs shellName)
    (frame : CallFrame)
    (n : Nat)
    {k : Kernel}
    {m : Int}
    (hLow : 0 ≤ m)
    (hHigh : m + n ≤ 6)
    (hCrowd : Crowded k.toControl m) :
    Crowded
        (Logic.run (Kernel.step fs) k
          (List.replicate n (.execute frame
            (some shellLiteral.ptr)))).toControl (m + n) ∧
      Logic.Along (Kernel.step fs)
        (fun k e => Allowed k.toControl e) k
        (List.replicate n (.execute frame
          (some shellLiteral.ptr))) := by
  induction n generalizing k m with
  | zero =>
      refine ⟨?_, trivial⟩
      simpa using hCrowd
  | succ n ih =>
      have hm : m ∈ pids := by
        rw [mem_pids]
        omega
      rcases ih (by omega) (by omega)
          (crowded_execute hShell hm hCrowd frame) with
        ⟨hEnd, hRest⟩
      have hSum : m + 1 + (n : Int) =
          m + ((n + 1 : Nat) : Int) := by
        omega
      rw [List.replicate_succ, Logic.run_cons, ← hSum]
      exact ⟨hEnd, hCrowd.curPid, hRest⟩

/-
  The base shell of terminal 1 executes five shells before
  the second tick.
-/
def crowdedBoot : List Event :=
  .tick blankRegs blankFrame ::
    List.replicate 5
      (.execute blankFrame (some shellLiteral.ptr))

theorem crowded_crowdedBoot :
    Crowded
        (Logic.run (Kernel.step sampleFs) blankKernel.boot
          crowdedBoot).toControl 6 ∧
      Logic.Along (Kernel.step sampleFs)
        (fun k e => Allowed k.toControl e)
        blankKernel.boot crowdedBoot := by
  have hFirst := crowded_first_tick sampleFs_loadable
    blankKernel blankRegs blankFrame
  rcases crowded_run sampleFs_loadable
      blankFrame 5 (by decide) (by decide) hFirst with
    ⟨hEnd, hRest⟩
  have hSix : (1 : Int) + ((5 : Nat) : Int) = 6 := rfl
  rw [hSix] at hEnd
  rw [crowdedBoot, Logic.run_cons]
  exact ⟨hEnd, trivial, hRest⟩

/-
  The second tick finds no pid for terminal 2: the launch
  returns, and `schedule` goes on with pid -1 to the page
  fault, for no page holds the PCB that it reads.
-/
theorem schedule_falls_through :
    Logic.Along (Kernel.step sampleFs)
        (fun k e => Allowed k.toControl e)
        blankKernel.boot
        (crowdedBoot ++ [.tick blankRegs blankFrame]) ∧
      (Logic.run (Kernel.step sampleFs) blankKernel.boot
        (crowdedBoot ++
          [.tick blankRegs blankFrame])).curPid = -1 ∧
      ((Logic.run (Kernel.step sampleFs) blankKernel.boot
        crowdedBoot).handle sampleFs
          (.tick blankRegs blankFrame)).1 = .faulted ∧
      (∀ off < size8K,
        (Logic.run (Kernel.step sampleFs) blankKernel.boot
          (crowdedBoot ++
            [.tick blankRegs blankFrame])).walk
              ((getPcbPtr (-1)).toNat + off) = none) ∧
      ¬ Logic.Along (Kernel.step sampleFs)
        (ResumesProcess sampleFs) blankKernel.boot
        (crowdedBoot ++ [.tick blankRegs blankFrame]) := by
  rcases crowded_crowdedBoot with ⟨hCrowd, hAllowed⟩
  have hLocated : Located
      (Logic.run (Kernel.step sampleFs) blankKernel.boot
        (crowdedBoot ++
          [.tick blankRegs blankFrame])).toControl :=
    located_run sampleFs blankKernel [] blankRegs blankFrame _
  rw [Logic.along_append, Logic.along_append]
  rw [Logic.run_append] at hLocated ⊢
  generalize Logic.run (Kernel.step sampleFs)
    blankKernel.boot crowdedBoot = k at hCrowd hLocated ⊢
  have hFull : (k.turn blankRegs).freePid = none := by
    rw [Control.turn_eq, Control.freePid_eq_none_iff]
    intro p hp
    have hTaken := hCrowd.filled p hp
    rw [mem_pids] at hp
    rw [if_pos hp.2] at hTaken
    rw [hTaken]
    decide
  have hNext :
      k.active (nextTermToRun k.runningTermPtr) = -1 := by
    rw [hCrowd.running]
    unfold Control.active
    rw [hCrowd.running, if_neg (by decide)]
    exact hCrowd.waiting
  have hPid := Processes.turn_curPid k.toControl blankRegs
  rw [hNext] at hPid
  rcases k.pitIntHandler_cases sampleFs blankRegs blankFrame
      hPid with
    ⟨n, args, eip, d, hFree, hTick⟩ | ⟨hFail, d, hTick⟩
  · rw [hFull] at hFree
    cases hFree
  · refine ⟨⟨hAllowed, trivial, trivial⟩, ?_, ?_,
      fun off hOff => hLocated.layout.walk_pcbNone hOff, ?_⟩
    · simp only [Logic.run_cons, Logic.run_nil, Kernel.step,
        Kernel.handle]
      rw [hTick, Control.resume_eq]
      exact hPid
    · simp only [Kernel.handle]
      rw [hTick]
      rfl
    · rintro ⟨_, hResume, _⟩
      simp only [ResumesProcess, hNext, if_true] at hResume
      rcases hResume with ⟨n, hn, eip, hStart⟩
      rw [hTick] at hStart
      cases hStart

end MartianPendulum
