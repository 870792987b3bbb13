import MartianPendulum.Process.CallReturn

/-
  The page of `syscall_vidmap`.

  A terminal has one flag for the page, shared by all the
  processes on its stack.  The page stays open for a process
  that asked for it as long as no process above it on the
  stack asks for it too and halts.

  Key definitions include:
    * `VidmapValid`
    * `Flagged`
    * `UnmapsAlone`

  Key theorems include:
    * `Flagged.transition`
    * `vidmapValid_run`
    * `vidmap_lost`
-/

------------------------------------------------------------
-- The Property
------------------------------------------------------------

namespace MartianPendulum

/-
  If the current process has the page, the entry behind the
  address it was given is present and leads to the screen of
  its terminal.
-/
def VidmapValid
    (g : Control) : Prop :=
  g.cur.vidmapFlag = true →
    (g.usrmapPageTableBase
        (fishMap / size4K % numPageDesc)).present = 1 ∧
      (g.usrmapPageTableBase
        (fishMap / size4K % numPageDesc)).pgAddr.toNat =
        if g.runningTermPtr = g.viewingTermPtr then
          videoStart / size4K
        else vidMemBuffer g.runningTermPtr / size4K

/-
  A process that halts with the page open is the only one of
  its terminal that has it.
-/
def UnmapsAlone
    (g : Control) :
    Event → Prop
| .halt _ _ =>
    g.cur.vidmapFlag = true →
      ∀ l, Logic.Follows g.parentOf (-1) g.curPid l →
        ∀ q ∈ l.tail, (g.pcbOf q).vidmapFlag = false
| _ => True

/- A process that has the page is in a terminal with it. -/
def Flagged
    (g : Control) : Prop :=
  ∀ stack, Processes g stack → ∀ t, ∀ p ∈ stack t,
    (g.pcbOf p).vidmapFlag = true →
      (g.termArr t).vidmapFlag = true

/- The table determines the stacks. -/
theorem Processes.stack_unique
    {g : Control}
    {stack stack' : Tid → List Int}
    (hProc : Processes g stack)
    (hProc' : Processes g stack') :
    stack' = stack := by
  funext t
  exact (hProc'.forest.follows t).unique
    (hProc.forest.follows t)

theorem flagged_iff
    {g : Control}
    {stack : Tid → List Int}
    (hProc : Processes g stack) :
    Flagged g ↔
      ∀ t, ∀ p ∈ stack t, (g.pcbOf p).vidmapFlag = true →
        (g.termArr t).vidmapFlag = true := by
  constructor
  · intro hFlag
    exact hFlag stack hProc
  · intro hFlag stack' hProc'
    rw [hProc.stack_unique hProc']
    exact hFlag

end MartianPendulum

------------------------------------------------------------
-- Steps
------------------------------------------------------------

namespace MartianPendulum

namespace Flagged

variable {g : Control}
variable {stack : Tid → List Int}

/- A new process does not have the page. -/
theorem spawn
    (hFlag : Flagged g)
    (hProc : Processes g stack)
    {n : Int}
    (hFree : g.freePid = some n)
    (args : Ptr)
    (regs : Regs) :
    Flagged (g.spawn n args regs) := by
  rw [flagged_iff (hProc.spawn hFree args regs).1]
  rw [flagged_iff hProc] at hFlag
  intro t p hMem hOn
  rw [Control.spawn_field PCB.vidmapFlag
    (fun _ _ _ => rfl)] at hOn
  rw [Control.spawn_eq]
  by_cases hNew : p = n
  · rw [if_pos hNew] at hOn
    cases hOn
  · rw [if_neg hNew] at hOn
    refine hFlag t p ?_ hOn
    by_cases hRun : t = g.runningTermPtr
    · subst hRun
      simpa [hNew] using hMem
    · simpa [hRun] using hMem

/- The restart of a base shell. -/
theorem orphaned
    (hFlag : Flagged g)
    (hProc : Processes g stack)
    (hCur : g.curPid ≠ -1)
    (hParent : g.released.cur.parentPid = -1) :
    Flagged g.orphaned := by
  rw [flagged_iff (hProc.orphaned hCur hParent)]
  rw [flagged_iff hProc] at hFlag
  intro t p hMem hOn
  unfold Control.orphaned at hOn ⊢
  rw [g.released_eq] at hOn ⊢
  refine hFlag t p ?_ hOn
  by_cases hRun : t = g.runningTermPtr
  · subst hRun
    rw [Function.update_self] at hMem
    exact List.mem_of_mem_tail hMem
  · simpa [hRun] using hMem

/- The terminals that a halt leaves alone. -/
theorem haltToParent_termArr
    {g : Control}
    (hParent : g.released.cur.parentPid ≠ -1)
    (status : UInt8)
    {t : Tid}
    (hKeep : t = g.runningTermPtr →
      g.cur.vidmapFlag = false) :
    (g.released.haltToParent status).2.termArr t =
      g.termArr t := by
  rw [Control.haltToParent_eq hParent, g.released_eq]
  by_cases hRun : t = g.runningTermPtr
  · have hFlag := hKeep hRun
    unfold Control.cur at hFlag
    simp [Control.cur, hFlag]
  · by_cases hFlag : (g.pcb g.curPcbPtr).vidmapFlag = true
    · simp [Control.cur, hFlag, hRun]
    · simp [Control.cur, hFlag]

/- A halt closes the page for its terminal. -/
theorem haltToParent
    (hFlag : Flagged g)
    (hProc : Processes g stack)
    (hCur : g.curPid ≠ -1)
    (hParent : g.released.cur.parentPid ≠ -1)
    {frame : CallFrame}
    {status : UInt8}
    (hAlone : UnmapsAlone g (.halt frame status)) :
    Flagged (g.released.haltToParent status).2 := by
  rw [flagged_iff
    (hProc.haltToParent hCur hParent status).1]
  rw [flagged_iff hProc] at hFlag
  have hFollows := hProc.forest.follows g.runningTermPtr
  rw [Processes.active_running] at hFollows
  intro t p hMem hOn
  have hOld : (g.pcbOf p).vidmapFlag = true := by
    rw [Control.haltToParent_eq hParent, g.released_eq]
      at hOn
    simp only [Control.pcbOf] at hOn ⊢
    by_cases hHere : getPcbPtr p = g.curPcbPtr
    · rw [hHere, Function.update_self] at hOn
      cases hOn
    · rwa [Function.update_of_ne hHere] at hOn
  by_cases hRun : t = g.runningTermPtr
  · subst hRun
    rw [Function.update_self] at hMem
    cases hPage : g.cur.vidmapFlag with
    | true =>
        have hNot := hAlone hPage _ hFollows p hMem
        rw [hNot] at hOld
        cases hOld
    | false =>
        rw [haltToParent_termArr hParent status
          (fun _ => hPage)]
        exact hFlag _ p (List.mem_of_mem_tail hMem) hOld
  · rw [haltToParent_termArr hParent status
      (fun h => absurd h hRun)]
    exact hFlag t p (by simpa [hRun] using hMem) hOld

/- A vidmap call opens the page for its terminal. -/
theorem vidmapped
    (hFlag : Flagged g)
    (hProc : Processes g stack)
    (hCur : g.curPid ≠ -1) :
    Flagged g.vidmapped := by
  rw [flagged_iff hProc.vidmapped.1]
  rw [flagged_iff hProc] at hFlag
  intro t p hMem hOn
  by_cases hRun : t = g.runningTermPtr
  · subst hRun
    simp [Control.vidmapped, Control.setVidmap,
      Control.setTerm, Control.setPcb, Control.setTables]
  · have hOther : p ≠ g.curPid := by
      intro hEq
      apply hRun
      apply hProc.forest.disjoint t g.runningTermPtr p hMem
      have hTop := (hProc.forest.follows
        g.runningTermPtr).start_mem
      rw [Processes.active_running] at hTop
      rw [hEq]
      exact hTop hCur
    have hPtr : getPcbPtr p ≠ g.curPcbPtr := by
      rw [hProc.curPcb hCur]
      exact getPcbPtr_injective.ne hOther
    have hTerm : g.vidmapped.termArr t = g.termArr t := by
      simp [Control.vidmapped, Control.setVidmap,
        Control.setTerm, Control.setPcb, Control.setTables,
        hRun]
    have hPcb : g.vidmapped.pcbOf p = g.pcbOf p := by
      simp [Control.pcbOf, Control.vidmapped,
        Control.setVidmap, Control.setTerm, Control.setPcb,
        Control.setTables, hPtr]
    rw [hTerm]
    rw [hPcb] at hOn
    exact hFlag t p hMem hOn

/- A turn changes neither the flags nor the stacks. -/
theorem turn
    (hFlag : Flagged g)
    (hProc : Processes g stack)
    (hStack : OnStack g)
    (regs : Regs) :
    Flagged (g.turn regs) := by
  rw [flagged_iff (hProc.turn hStack regs)]
  rw [flagged_iff hProc] at hFlag
  intro t p hMem hOn
  rw [Control.turn_eq] at hOn ⊢
  simp only [Control.pcbOf, Control.turnPcb] at hOn
  have hOld : (g.pcbOf p).vidmapFlag = true := by
    by_cases hNone : g.curPid = -1
    · simp only [hNone, ne_eq, not_true, if_false] at hOn
      exact hOn
    · simp only [hNone, ne_eq, not_false_iff,
        if_true] at hOn
      by_cases hHere : getPcbPtr p = g.curPcbPtr
      · rw [hHere, Function.update_self] at hOn
        rw [Control.pcbOf, hHere]
        exact hOn
      · rwa [Function.update_of_ne hHere] at hOn
  have hTerm := hFlag t p hMem hOld
  by_cases hRun : t = g.runningTermPtr
  · subst hRun
    simpa using hTerm
  · simpa [hRun] using hTerm

/- Every step but a nested unmapping keeps the flags. -/
theorem transition
    {fs : FileSystem}
    (hShell : Loadable fs shellName)
    {g' : Control}
    {e : Event}
    {o : Outcome}
    (hFlag : Flagged g)
    (hSched : Scheduled g)
    (hStep : Transition fs g e o g')
    (hAllowed : Allowed g e)
    (hLaunch : CanLaunch g e)
    (hAlone : UnmapsAlone g e) :
    Flagged g' := by
  rcases hSched with ⟨stack, hProc, hStack⟩
  cases hStep with
  | idle => exact hFlag
  | view inputCode t =>
      have hView :
          Processes (g.setViewing t).mapRunning stack :=
        hProc.congr rfl rfl (fun _ => .refl _) hProc.curPcb
      rw [flagged_iff hView]
      exact hFlag stack hProc
  | vidmap screenStart v =>
      exact hFlag.vidmapped hProc hAllowed
  | spawn frame userInput n args eip hFree =>
      exact hFlag.spawn hProc hFree args frame.toRegs
  | ret frame status hParent =>
      exact hFlag.haltToParent hProc hAllowed hParent hAlone
  | restart frame status n args eip hParent hFree =>
      exact (hFlag.orphaned hProc hAllowed hParent).spawn
        (hProc.orphaned hAllowed hParent) hFree args
        frame.toRegs
  | stuck frame status hParent hFail =>
      exact absurd (hFail hShell)
        (hProc.orphaned_freePid hAllowed)
  | resume regs frame hPid =>
      have hTurn := hProc.turn hStack regs
      rw [flagged_iff (hTurn.resume hPid).1,
        Control.resume_eq]
      exact (hFlag.turn hProc hStack regs) stack hTurn
  | launch regs frame n args eip hPid hFree =>
      exact (hFlag.turn hProc hStack regs).spawn
        (hProc.turn hStack regs) hFree args frame.toRegs
  | fallThrough regs frame hPid hFail =>
      exact absurd (hFail hShell)
        (freePid_of_canLaunch hLaunch hPid)

end Flagged

end MartianPendulum

------------------------------------------------------------
-- Runs
------------------------------------------------------------

namespace MartianPendulum

/- The base shells start without the page. -/
theorem flagged_of_launched
    {fs : FileSystem}
    (hShell : Loadable fs shellName)
    {k : Kernel}
    (hStart : Launched fs k) :
    Flagged k.toControl := by
  rcases hStart with ⟨k₀, es, hEs, rfl, _⟩
  have hAlong : Logic.Along (Kernel.step fs)
      (fun _ e => e.isInterrupt = true) k₀.boot es := by
    rw [Logic.along_iff_forall_split]
    rintro es₁ e es₂ rfl
    exact hEs e (by simp)
  have hBoot : Flagged k₀.boot.toControl := by
    rw [flagged_iff (processes_boot k₀)]
    intro t p hMem
    cases hMem
  have hEnd := Logic.invariant_run_of_along
    (I := fun k : Kernel =>
      Starting k.toControl ∧ Flagged k.toControl)
    ?_ ⟨starting_boot k₀, hBoot⟩ hAlong
  · exact hEnd.2
  · rintro k e ⟨hStarting, hFlag⟩ hInt
    rcases hStarting.table with ⟨stack, hProc, hStack, _⟩
    refine ⟨hStarting.step hShell hInt, ?_⟩
    refine hFlag.transition hShell ⟨stack, hProc, hStack⟩
      (k.step_transition fs e) ?_ (hStarting.canLaunch e) ?_
    · cases e with
      | tick => trivial
      | key => trivial
      | execute => cases hInt
      | halt => cases hInt
      | vidmap => cases hInt
      | write => cases hInt
      | store => cases hInt
    · cases e with
      | halt => cases hInt
      | tick => trivial
      | key => trivial
      | execute => trivial
      | vidmap => trivial
      | write => trivial
      | store => trivial

/- The terminal's flag opens the page of the current one. -/
theorem Flagged.vidmapValid
    {g : Control}
    (hFlag : Flagged g)
    (hSettled : Settled g) :
    VidmapValid g := by
  intro hOn
  have hCur := hSettled.curPid_ne
  rcases hSettled.scheduled with ⟨stack, hProc, _⟩
  rw [hProc.cur_eq hCur] at hOn
  have hMem : g.curPid ∈ stack g.runningTermPtr := by
    have hTop :=
      (hProc.forest.follows g.runningTermPtr).start_mem
    rw [Processes.active_running] at hTop
    exact hTop hCur
  have hTerm := hFlag stack hProc _ _ hMem hOn
  have hLayout := hSettled.located.layout
  have hIdx : fishMap / size4K % numPageDesc = videoPage :=
    by decide
  have hSmall : g.logicalFrame g.runningTermPtr < 2 ^ 20 :=
    Nat.lt_trans (logicalFrame_lt _ g) (by decide)
  rw [hIdx, hLayout.usrmapPresent videoPage (by decide),
    hLayout.usrmapAddr, hTerm, if_pos rfl,
    BitVec.toNat_ofNat, Nat.mod_eq_of_lt hSmall]
  exact ⟨rfl, rfl⟩

/-
  After the base shells are launched, a process that has the
  page finds it open on its screen in every state of every
  run in which no process that has the page halts above
  another one that has it.
-/
theorem vidmapValid_run
    (fs : FileSystem)
    (hShell : Loadable fs shellName)
    (k : Kernel)
    (hStart : Launched fs k)
    (es : List Event)
    (hAlone : Logic.Along (Kernel.step fs)
      (fun k e => UnmapsAlone k.toControl e) k es) :
    VidmapValid
      (Logic.run (Kernel.step fs) k es).toControl := by
  have hEnd := Logic.invariant_run_of_along
    (I := fun k : Kernel =>
      Settled k.toControl ∧ Flagged k.toControl)
    ?_ ⟨hStart.settled hShell,
      flagged_of_launched hShell hStart⟩ hAlone
  · exact hEnd.2.vidmapValid hEnd.1
  · rintro k e ⟨hSettled, hFlag⟩ hHere
    have hStep := k.step_transition fs e
    exact ⟨hSettled.transition hShell hStep,
      hFlag.transition hShell hSettled.scheduled hStep
        (hSettled.allowed e) (hSettled.canLaunch e) hHere⟩

end MartianPendulum

------------------------------------------------------------
-- A Page That Is Lost
------------------------------------------------------------

namespace MartianPendulum

/-
  A child that has the page and halts takes it away from a
  parent that has it.
-/
theorem halt_loses_page
    {k : Kernel}
    (hSettled : Settled k.toControl)
    (hChild : k.cur.vidmapFlag = true)
    (hParent : k.parentOf k.curPid ≠ -1)
    (hOwner :
      (k.pcbOf (k.parentOf k.curPid)).vidmapFlag = true)
    (fs : FileSystem)
    (frame : CallFrame)
    (status : UInt8) :
    ¬ VidmapValid
      (k.step fs (.halt frame status)).toControl := by
  have hCur := hSettled.curPid_ne
  rcases hSettled.scheduled with ⟨stack, hProc, _⟩
  have hPid := hProc.released_parentPid hCur
  have hReturns : k.released.cur.parentPid ≠ -1 := by
    rwa [hPid]
  have hOther := hProc.parent_ne_curPid
    (hProc.cur_live hCur) hParent
  have hPtr : getPcbPtr (k.parentOf k.curPid) ≠
      k.curPcbPtr := by
    rw [hProc.curPcb hCur]
    exact getPcbPtr_injective.ne hOther
  have hControl :
      (k.step fs (.halt frame status)).toControl =
        (k.released.haltToParent status).2 := by
    have hHalt := k.syscallHalt_of_parent fs frame status
      hReturns
    simp only [Kernel.step, Kernel.handle, hHalt]
  have hPage : k.released.cur.vidmapFlag = true := by
    rw [k.released_eq]
    exact hChild
  have hIdx : fishMap / size4K % numPageDesc = videoPage :=
    by decide
  rw [hControl, Control.haltToParent_eq hReturns, hPid]
  intro hValid
  have hOpen := (hValid (by
    rw [k.released_eq]
    simp only [Control.cur]
    rw [Function.update_of_ne hPtr]
    exact hOwner)).1
  rw [hIdx] at hOpen
  simp only [hPage, if_true, PageTables.switchUsrmap,
    Function.update_self, pageTableEntry] at hOpen
  exact absurd hOpen (by decide)

/- A vidmap call with an address in the user page. -/
theorem vidmap_toControl
    (fs : FileSystem)
    (k : Kernel) :
    (k.step fs (.vidmap 0x8000000)).toControl =
      k.vidmapped := by
  have hLow : ¬ (s32 ((0x8000000 : UInt32).toNat : Int) <
      userStart ∨
    s32 ((0x8000000 : UInt32).toNat : Int) >
      userEnd - 4) := by
    decide
  have hNull : ¬ (0x8000000 : UInt32) = 0 := by decide
  simp only [Kernel.step, Kernel.handle,
    Kernel.syscallVidmap, hLow, hNull, if_false]
  rfl

theorem vidmapped_cur
    (g : Control) :
    g.vidmapped.cur.vidmapFlag = true := by
  simp [Control.cur, Control.vidmapped, Control.setVidmap,
    Control.setTerm, Control.setPcb, Control.setTables]

/- A vidmap call takes the page from no process. -/
theorem vidmapped_pcbOf
    {g : Control}
    {p : Int}
    (hOn : (g.pcbOf p).vidmapFlag = true) :
    (g.vidmapped.pcbOf p).vidmapFlag = true := by
  by_cases hHere : getPcbPtr p = g.curPcbPtr
  · have hSelf := vidmapped_cur g
    unfold Control.cur at hSelf
    rw [Control.pcbOf, hHere]
    exact hSelf
  · simpa [Control.pcbOf, Control.vidmapped,
      Control.setVidmap, Control.setTerm, Control.setPcb,
      Control.setTables, hHere] using hOn

/-
  A process with the page starts a child, which gets it too
  and halts.
-/
theorem spawned_halt_loses_page
    {g : Control}
    {k : Kernel}
    {n : Int}
    {args : Ptr}
    {regs : Regs}
    (hSettled : Settled k.toControl)
    (hControl :
      k.toControl = (g.spawn n args regs).vidmapped)
    (hCur : g.curPid ≠ -1)
    (hNe : g.curPid ≠ n)
    (hOwner : (g.pcbOf g.curPid).vidmapFlag = true)
    (fs : FileSystem)
    (frame : CallFrame)
    (status : UInt8) :
    ¬ VidmapValid
      (k.step fs (.halt frame status)).toControl := by
  have hNew : k.curPid = n := by
    have hPid : (g.spawn n args regs).curPid = n := by
      rw [Control.spawn_eq]
    rw [hControl]
    exact hPid
  have hParent : k.parentOf k.curPid = g.curPid := by
    rw [hNew, hControl, Control.parentOf, Control.pcbOf,
      apply_vidmapped PCB.parentPid (fun _ _ => rfl)]
    have hUp : (g.spawn n args regs).parentOf n =
        g.curPid := by
      rw [Control.spawn_parentOf, if_pos rfl]
    exact hUp
  apply halt_loses_page hSettled
  · rw [hControl]
    exact vidmapped_cur _
  · rwa [hParent]
  · rw [hParent, hControl]
    apply vidmapped_pcbOf
    rw [Control.spawn_field PCB.vidmapFlag
      (fun _ _ _ => rfl), if_neg hNe]
    exact hOwner

/-
  The base shell asks for the page and executes a shell that
  asks for it too and halts.
-/
def nestedVidmap : List Event :=
  [.vidmap 0x8000000,
    .execute blankFrame (some shellLiteral.ptr),
    .vidmap 0x8000000,
    .halt blankFrame 0]

theorem vidmap_lost :
    ∃ k, Launched sampleFs k ∧
      ¬ VidmapValid
        (Logic.run (Kernel.step sampleFs) k
          nestedVidmap).toControl := by
  have hStart := launched_three_ticks sampleFs_loadable
    blankKernel blankRegs blankFrame
  generalize Logic.run (Kernel.step sampleFs)
    blankKernel.boot _ = k at hStart
  refine ⟨k, hStart, ?_⟩
  have hSettled := hStart.settled sampleFs_loadable
  have hStep : ∀ (k : Kernel) (e : Event),
      Settled k.toControl →
        Settled (k.step sampleFs e).toControl :=
    fun k e h => h.transition sampleFs_loadable
      (k.step_transition sampleFs e)
  have hCur := hSettled.curPid_ne
  rcases (hStart.starting sampleFs_loadable).table with
    ⟨stack, hProc, _, hShort⟩
  have hMapped := hProc.vidmapped.1
  have hSpare := exists_free_of_short hMapped hShort
  have hOwner :
      (k.vidmapped.pcbOf k.curPid).vidmapFlag = true := by
    have hSelf := vidmapped_cur k.toControl
    rwa [hMapped.cur_eq hCur] at hSelf
  simp only [nestedVidmap, Logic.run_cons, Logic.run_nil]
  have hSettled₁ := hStep k (.vidmap 0x8000000) hSettled
  have hControl₁ := vidmap_toControl sampleFs k
  generalize k.step sampleFs (.vidmap 0x8000000) = k₁
    at hSettled₁ hControl₁ ⊢
  have hSettled₂ := hStep k₁
    (.execute blankFrame (some shellLiteral.ptr)) hSettled₁
  rcases syscallExecute_shell_cases sampleFs blankFrame k₁
    with
    ⟨n, args, eip, d, hFree, hExec⟩ | ⟨hFail, v, d, hExec⟩
  · have hControl₂ : (k₁.step sampleFs
        (.execute blankFrame
          (some shellLiteral.ptr))).toControl =
        k.vidmapped.spawn n args blankFrame.toRegs := by
      simp only [Kernel.step, Kernel.handle, hExec,
        hControl₁]
    generalize k₁.step sampleFs
      (.execute blankFrame (some shellLiteral.ptr)) = k₂
      at hSettled₂ hControl₂ ⊢
    have hSettled₃ :=
      hStep k₂ (.vidmap 0x8000000) hSettled₂
    have hControl₃ := vidmap_toControl sampleFs k₂
    generalize k₂.step sampleFs (.vidmap 0x8000000) = k₃
      at hSettled₃ hControl₃ ⊢
    rw [hControl₁] at hFree
    have hNe : k.curPid ≠ n := by
      intro hEq
      have hLive := hMapped.cur_live hCur
      apply Control.not_live_of_freePid hFree
      rw [← hEq]
      exact hLive
    rw [hControl₂] at hControl₃
    exact spawned_halt_loses_page hSettled₃ hControl₃ hCur
      hNe hOwner sampleFs blankFrame 0
  · rw [hControl₁] at hFail
    exact absurd (hFail sampleFs_loadable) hSpare

/-
  A base shell has the page, and after a tick a child of the
  next one gets it too.
-/
def vidmapTwice : List Event :=
  [.vidmap 0x8000000, .tick blankRegs blankFrame,
    .execute blankFrame (some shellLiteral.ptr),
    .vidmap 0x8000000]

/- The parent of the child does not have the page. -/
theorem vidmapTwice_alone :
    UnmapsAlone
      (Logic.run (Kernel.step sampleFs) threeShells
        vidmapTwice).toControl
      (.halt blankFrame 7) := by
  obtain ⟨g, hg⟩ : ∃ g, g =
      (Logic.run (Kernel.step sampleFs) threeShells
        vidmapTwice).toControl := ⟨_, rfl⟩
  have hCur : g.curPid = 3 := by
    rw [hg]
    decide +kernel
  have hUp : g.parentOf 3 = 0 ∧ g.parentOf 0 = -1 := by
    rw [hg]
    decide +kernel
  have hPage : (g.pcbOf 0).vidmapFlag = false := by
    rw [hg]
    decide +kernel
  rw [← hg]
  intro _ l hFollows q hq
  rw [hCur] at hFollows
  have hChain : Logic.Follows g.parentOf (-1) 3 [3, 0] := by
    refine ⟨rfl, by decide, ?_⟩
    rw [hUp.1]
    exact ⟨rfl, by decide, hUp.2⟩
  rw [hFollows.unique hChain] at hq
  cases List.mem_singleton.mp hq
  exact hPage

/-
  The child halts, and when the first base shell has its
  turn again the page is still open for it.
-/
theorem vidmapValid_run_sample :
    let k := Logic.run (Kernel.step sampleFs) threeShells
      (vidmapTwice ++ [.halt blankFrame 7,
        .tick blankRegs blankFrame,
        .tick blankRegs blankFrame])
    k.cur.vidmapFlag = true ∧ VidmapValid k.toControl := by
  refine ⟨by decide +kernel,
    vidmapValid_run sampleFs sampleFs_loadable threeShells
      threeShells_launched _ ?_⟩
  rw [Logic.along_append]
  exact ⟨⟨trivial, trivial, trivial, trivial, trivial⟩,
    vidmapTwice_alone, trivial, trivial, trivial⟩

end MartianPendulum
