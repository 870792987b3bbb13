import MartianPendulum.Logic.Loop
import MartianPendulum.Kernel.Transition

/-
  The address space of the running process.

  `Layout` lists what the page walk reads of the tables; the
  initialisation loops establish it and every update of the
  tables preserves it with new parameters.  Along a run the
  parameters are functions of the control state, and the
  walk is `addressSpace`.

  Key definitions include:
    * `Layout`
    * `Located`
    * `addressSpace`

  Key theorems include:
    * `layout_pagingInit`
    * `Located.transition`
    * `walk_eq_addressSpace`
    * `walk_run_eq_addressSpace`
-/

------------------------------------------------------------
-- Table Contents
------------------------------------------------------------

namespace MartianPendulum

/- The directory entries that never change. -/
def fixedPageDir
    (i : Nat) : PageDirEntry :=
  if i = 0 then pageDirEntry4KB .usrPageTable
  else if i = 1 then pageDirEntry4MB 1 1 1
  else if i = 132 / 4 then pageDirEntry4KB .usrmapPageTable
  else pageDirEntry4MB 0 0 (BitVec.ofNat 10 i)

/-
  What the walk reads, with the frame that video memory is
  mapped to and whether the user page is present.  Entry 32
  of the directory is left open.
-/
structure Layout
    (pt : PageTables)
    (frame : Nat)
    (mapped : Bool) : Prop where
  dir : ∀ i < numPageTableDesc, i ≠ 128 / 4 →
    pt.pageDirBase i = fixedPageDir i
  usrPresent : ∀ i < numPageDesc,
    (pt.usrPageTableBase i).present =
      if videoPage ≤ i ∧ i ≤ videoPage + 3 then 1 else 0
  usrAddr : ∀ i < numPageDesc,
    (pt.usrPageTableBase i).pgAddr =
      BitVec.ofNat 20 (if i = videoPage then frame else i)
  usrmapPresent : ∀ i < numPageDesc,
    (pt.usrmapPageTableBase i).present =
      if i = videoPage then BitVec.ofBool mapped else 0
  usrmapAddr :
    (pt.usrmapPageTableBase videoPage).pgAddr =
      BitVec.ofNat 20 frame

/- Entry 32 of the directory maps the frame of a process. -/
def UserPage
    (pt : PageTables)
    (pid : Int) : Prop :=
  pt.pageDirBase (128 / 4) =
    pageDirEntry4MB 1 0 (BitVec.ofInt 10 (pid + 2))

end MartianPendulum

------------------------------------------------------------
-- Initialisation
------------------------------------------------------------

namespace MartianPendulum

theorem initPageDir_apply
    (dir : Nat → PageDirEntry)
    {i : Nat}
    (hi : i < numPageTableDesc) :
    initPageDir dir i = fixedPageDir i := by
  unfold numPageTableDesc at hi
  unfold initPageDir initOtherPageDir fixedPageDir
  rw [Logic.foldl_skip_update_apply
    (fun i => i = 132 / 4)]
  by_cases h0 : i = 0
  · subst h0
    simp [List.mem_range'_1]
  · by_cases h1 : i = 1
    · subst h1
      simp [List.mem_range'_1]
    · by_cases h33 : i = 132 / 4
      · subst h33
        simp
      · have hMem :
            i ∈ List.range' 2 (numPageTableDesc - 2) := by
          unfold numPageTableDesc
          rw [List.mem_range'_1]
          omega
        rw [if_pos ⟨hMem, h33⟩, if_neg h0, if_neg h1,
          if_neg h33]

/- `paging_init` leaves video memory mapped to itself. -/
theorem layout_pagingInit
    (pt : PageTables) :
    Layout (pagingInit pt) videoPage true := by
  refine ⟨?_, ?_, ?_, ?_, ?_⟩
  · intro i hi _
    simp only [pagingInit]
    exact initPageDir_apply pt.pageDirBase hi
  · intro i hi
    simp only [pagingInit, initUsrPageTable,
      Logic.foldl_update_apply, List.mem_range, hi,
      if_true, pageTableEntry]
    congr 1
    simp only [eq_iff_iff]
    omega
  · intro i hi
    simp only [pagingInit, initUsrPageTable,
      Logic.foldl_update_apply, List.mem_range, hi,
      if_true, pageTableEntry]
    split
    next hEq => rw [hEq]
    · rfl
  · intro i hi
    simp only [pagingInit, initUsrmapPageTable,
      Logic.foldl_update_apply, List.mem_range, hi,
      if_true, pageTableEntry]
    rfl
  · have hVideo : videoPage < numPageDesc := by decide
    simp only [pagingInit, initUsrmapPageTable,
      Logic.foldl_update_apply, List.mem_range, hVideo,
      if_true, pageTableEntry]

end MartianPendulum

------------------------------------------------------------
-- Updates
------------------------------------------------------------

namespace MartianPendulum

namespace Layout

variable {pt : PageTables}
variable {frame : Nat}
variable {mapped : Bool}

/- `switch_fish_paging` sets both parameters. -/
theorem setVideoFrame
    (hLayout : Layout pt frame mapped)
    (frame' : Nat)
    (mapped' : Bool) :
    Layout (pt.setVideoFrame frame' mapped')
      frame' mapped' := by
  refine ⟨hLayout.dir, ?_, ?_, ?_, ?_⟩
  · intro i hi
    by_cases hVideo : i = videoPage
    · subst hVideo
      simp only [PageTables.setVideoFrame,
        Function.update_self]
      exact hLayout.usrPresent videoPage hi
    · simp only [PageTables.setVideoFrame,
        Function.update_of_ne hVideo]
      exact hLayout.usrPresent i hi
  · intro i hi
    by_cases hVideo : i = videoPage
    · subst hVideo
      simp [PageTables.setVideoFrame]
    · have hAddr := hLayout.usrAddr i hi
      rw [if_neg hVideo] at hAddr ⊢
      simpa only [PageTables.setVideoFrame,
        Function.update_of_ne hVideo] using hAddr
  · intro i hi
    by_cases hVideo : i = videoPage
    · subst hVideo
      simp [PageTables.setVideoFrame]
    · have hPresent := hLayout.usrmapPresent i hi
      rw [if_neg hVideo] at hPresent ⊢
      simpa only [PageTables.setVideoFrame,
        Function.update_of_ne hVideo] using hPresent
  · simp [PageTables.setVideoFrame]

/- `setup_paging_and_flush_tlb` changes entry 32 only. -/
theorem setupPaging
    (hLayout : Layout pt frame mapped)
    (pid : Int) :
    Layout (pt.setupPaging pid) frame mapped := by
  refine ⟨?_, hLayout.usrPresent, hLayout.usrAddr,
    hLayout.usrmapPresent, hLayout.usrmapAddr⟩
  intro i hi hNe
  simp only [PageTables.setupPaging,
    Function.update_of_ne hNe]
  exact hLayout.dir i hi hNe

/-
  `switch_usrmap` opens or closes the user page.
-/
theorem switchUsrmap
    (hLayout : Layout pt frame mapped)
    (mapped' : Bool) :
    Layout
      (pt.switchUsrmap frame (BitVec.ofBool mapped'))
      frame mapped' := by
  refine ⟨hLayout.dir, hLayout.usrPresent,
    hLayout.usrAddr, ?_, ?_⟩
  · intro i hi
    by_cases hVideo : i = videoPage
    · subst hVideo
      simp [PageTables.switchUsrmap, pageTableEntry]
    · have hPresent := hLayout.usrmapPresent i hi
      rw [if_neg hVideo] at hPresent ⊢
      simpa only [PageTables.switchUsrmap,
        Function.update_of_ne hVideo] using hPresent
  · simp [PageTables.switchUsrmap, pageTableEntry]

end Layout

end MartianPendulum

------------------------------------------------------------
-- The Invariant
------------------------------------------------------------

namespace MartianPendulum

namespace Control

/-
  The frame of a terminal's screen: video memory for the
  viewed one, its buffer otherwise.
-/
def logicalFrame
    (t : Tid)
    (g : Control) : Nat :=
  if t = g.viewingTermPtr then videoPage
  else vidMemBuffer t / size4K

theorem runningFrame_eq
    (g : Control) :
    g.runningFrame = g.logicalFrame g.runningTermPtr := by
  unfold runningFrame logicalFrame
  by_cases hView : g.runningTermPtr = g.viewingTermPtr
  · simp [hView]
  · simp [hView]

theorem changeVidmemMapping_tables
    (t : Tid)
    (g : Control) :
    (g.changeVidmemMapping t).toPageTables =
      g.toPageTables.setVideoFrame (g.logicalFrame t)
        (g.termArr t).vidmapFlag := by
  unfold changeVidmemMapping switchFishPaging logicalFrame
  by_cases hView : t = g.viewingTermPtr
  · simp [setTables, hView]
  · simp [setTables, hView]

end Control

/-
  The tables are those of the running terminal and, where
  there is one, of the current process.
-/
structure Located
    (g : Control) : Prop where
  layout : Layout g.toPageTables
    (g.logicalFrame g.runningTermPtr)
    (g.termArr g.runningTermPtr).vidmapFlag
  user : g.curPid ≠ -1 → UserPage g.toPageTables g.curPid

theorem userPage_setupPaging
    (pt : PageTables)
    (pid : Int) :
    UserPage (pt.setupPaging pid) pid := by
  simp [UserPage, PageTables.setupPaging]

/- A remapping for the running terminal makes the layout. -/
theorem layout_mapRunning
    {g : Control}
    {frame : Nat}
    {mapped : Bool}
    (hLayout : Layout g.toPageTables frame mapped) :
    Layout g.mapRunning.toPageTables
      (g.logicalFrame g.runningTermPtr)
      (g.termArr g.runningTermPtr).vidmapFlag := by
  unfold Control.mapRunning
  rw [Control.changeVidmemMapping_tables]
  exact hLayout.setVideoFrame _ _

/- A creation keeps the terminal and enters the process. -/
theorem located_spawn
    {g : Control}
    (hLayout : Layout g.toPageTables
      (g.logicalFrame g.runningTermPtr)
      (g.termArr g.runningTermPtr).vidmapFlag)
    (n : Int)
    (args : Ptr)
    (regs : Regs) :
    Located (g.spawn n args regs) := by
  rw [Control.spawn_eq]
  exact ⟨hLayout.setupPaging n,
    fun _ => userPage_setupPaging _ n⟩

/- A halt closes the page if the process had opened it. -/
theorem located_haltToParent
    {g : Control}
    (hLayout : Layout g.toPageTables
      (g.logicalFrame g.runningTermPtr)
      (g.termArr g.runningTermPtr).vidmapFlag)
    (hParent : g.cur.parentPid ≠ -1)
    (status : UInt8) :
    Located (g.haltToParent status).2 := by
  rw [Control.haltToParent_eq hParent]
  cases hFlag : g.cur.vidmapFlag with
  | true =>
      have hClosed :=
        (hLayout.setupPaging g.cur.parentPid).switchUsrmap
          false
      rw [← g.runningFrame_eq] at hClosed
      constructor
      · simpa [Control.logicalFrame, Control.runningFrame_eq]
          using hClosed
      · simp [UserPage, PageTables.setupPaging,
          PageTables.switchUsrmap]
  | false =>
      exact ⟨hLayout.setupPaging g.cur.parentPid,
        fun _ => userPage_setupPaging _ _⟩

/- A turn maps the terminal it selects. -/
theorem layout_turn
    {g : Control}
    {frame : Nat}
    {mapped : Bool}
    (hLayout : Layout g.toPageTables frame mapped)
    (regs : Regs) :
    Layout (g.turn regs).toPageTables
      ((g.turn regs).logicalFrame
        (g.turn regs).runningTermPtr)
      ((g.turn regs).termArr
        (g.turn regs).runningTermPtr).vidmapFlag := by
  have hNe := nextTermToRun_ne g.runningTermPtr
  rw [Control.turn_eq]
  simp only [Control.changeVidmemMapping_tables,
    Function.update_of_ne hNe]
  exact hLayout.setVideoFrame _ _

theorem located_resume
    {g : Control}
    (hLayout : Layout g.toPageTables
      (g.logicalFrame g.runningTermPtr)
      (g.termArr g.runningTermPtr).vidmapFlag) :
    Located (g.resume g.curPid).2 := by
  rw [Control.resume_eq]
  exact ⟨hLayout.setupPaging g.curPid,
    fun _ => userPage_setupPaging _ g.curPid⟩

/- Every transition preserves the invariant. -/
theorem Located.transition
    {fs : FileSystem}
    {g g' : Control}
    {e : Event}
    {o : Outcome}
    (hLoc : Located g)
    (hStep : Transition fs g e o g') :
    Located g' := by
  have hReleased :
      Layout g.released.toPageTables
        (g.released.logicalFrame g.released.runningTermPtr)
        (g.released.termArr
          g.released.runningTermPtr).vidmapFlag := by
    rw [g.released_eq]
    exact hLoc.layout
  cases hStep with
  | idle => exact hLoc
  | view inputCode t =>
      refine ⟨layout_mapRunning (g := g.setViewing t)
        hLoc.layout, ?_⟩
      unfold Control.mapRunning UserPage
      rw [Control.changeVidmemMapping_tables]
      exact hLoc.user
  | vidmap screenStart =>
      have hOpen := hLoc.layout.switchUsrmap true
      rw [← g.runningFrame_eq] at hOpen
      constructor
      · simpa [Control.vidmapped, Control.setVidmap,
          Control.setTables, Control.setPcb,
          Control.setTerm, Control.runningFrame_eq,
          Control.logicalFrame] using hOpen
      · exact hLoc.user
  | spawn frame userInput n args eip hFree =>
      exact located_spawn hLoc.layout n args frame.toRegs
  | ret frame status hParent =>
      exact located_haltToParent hReleased hParent status
  | restart frame status n args eip hParent hFree =>
      exact located_spawn (g := g.orphaned) hReleased
        n args frame.toRegs
  | stuck frame status hParent hFail =>
      rw [Control.haltToParent_orphaned hParent]
      exact ⟨hReleased, fun hCur => absurd rfl hCur⟩
  | resume regs frame hPid =>
      exact located_resume (layout_turn hLoc.layout regs)
  | launch regs frame n args eip hPid hFree =>
      exact located_spawn (layout_turn hLoc.layout regs)
        n args frame.toRegs
  | fallThrough regs frame hPid hFail =>
      have hHere :=
        located_resume (layout_turn hLoc.layout regs)
      rwa [hPid] at hHere

end MartianPendulum

------------------------------------------------------------
-- The First Tick
------------------------------------------------------------

namespace MartianPendulum

/- A tick establishes the invariant on any layout. -/
theorem located_tick
    (fs : FileSystem)
    (k : Kernel)
    {frame : Nat}
    {mapped : Bool}
    (hLayout : Layout k.toPageTables frame mapped)
    (regs : Regs)
    (callFrame : CallFrame) :
    Located
      (k.step fs (.tick regs callFrame)).toControl := by
  have hTurn := layout_turn hLayout regs
  have hStep := k.step_transition fs (.tick regs callFrame)
  generalize (k.step fs (.tick regs callFrame)).toControl =
    g' at hStep ⊢
  generalize (k.handle fs (.tick regs callFrame)).1 =
    o at hStep
  cases hStep with
  | idle _ _ hIdle => cases hIdle
  | resume _ _ hPid => exact located_resume hTurn
  | launch _ _ n args eip hPid hFree =>
      exact located_spawn hTurn n args callFrame.toRegs
  | fallThrough _ _ hPid hFail =>
      have hHere := located_resume hTurn
      rwa [hPid] at hHere

theorem layout_boot
    (k : Kernel) :
    Layout k.boot.toPageTables videoPage true :=
  layout_pagingInit k.toPageTables

/- Keys before the first tick keep some layout. -/
theorem layout_run_keys
    (fs : FileSystem)
    (k : Kernel)
    (keys : List UInt8) :
    ∃ frame mapped,
      Layout
        (Logic.run (Kernel.step fs) k.boot
          (keys.map .key)).toPageTables
        frame mapped := by
  have hBoot := layout_boot k
  generalize k.boot = k₀ at hBoot
  generalize videoPage = frame at hBoot
  generalize true = mapped at hBoot
  induction keys generalizing k₀ frame mapped with
  | nil => exact ⟨frame, mapped, hBoot⟩
  | cons code keys ih =>
      have hEffect := k₀.keyboardIntHandler_effect code
      rcases hEffect.toControl with hSame | ⟨t, hView⟩
      · refine ih (k₀.keyboardIntHandler code) frame mapped ?_
        rw [hSame]
        exact hBoot
      · have hMap :=
          layout_mapRunning (g := k₀.setViewing t) hBoot
        rw [← hView] at hMap
        exact ih (k₀.keyboardIntHandler code) _ _ hMap

/-
  From the first tick on, the tables are those of the
  running terminal and the current process.
-/
theorem located_run
    (fs : FileSystem)
    (k : Kernel)
    (keys : List UInt8)
    (regs : Regs)
    (callFrame : CallFrame)
    (es : List Event) :
    Located
      (Logic.run (Kernel.step fs) k.boot
        (keys.map .key ++
          .tick regs callFrame :: es)).toControl := by
  rcases layout_run_keys fs k keys with
    ⟨frame, mapped, hLayout⟩
  rw [Logic.run_append, Logic.run_cons]
  exact Logic.invariant_run
    (I := fun k : Kernel => Located k.toControl)
    (fun k e hLoc => hLoc.transition (k.step_transition fs e))
    (located_tick fs _ hLayout regs callFrame) es

end MartianPendulum

------------------------------------------------------------
-- The Walk
------------------------------------------------------------

namespace MartianPendulum

/-
  What the tables are for: the video pages and the kernel
  page, the page of the current process, and the user page
  of the running terminal while it is open.
-/
def addressSpace
    (g : Control)
    (v : Nat) : Option Nat :=
  let frame := g.logicalFrame g.runningTermPtr
  if videoStart ≤ v ∧ v < videoStart + size4K then
    some (frame * size4K + (v - videoStart))
  else if videoStart + size4K ≤ v ∧
      v < videoStart + 4 * size4K then some v
  else if size4M ≤ v ∧ v < size8M then some v
  else if size128M ≤ v ∧ v < size128M + size4M then
    some (size8M + g.curPid.toNat * size4M +
      (v - size128M))
  else if (g.termArr g.runningTermPtr).vidmapFlag ∧
      fishMap ≤ v ∧ v < fishMap + size4K then
    some (frame * size4K + (v - fishMap))
  else none

/- The walk through a 4MB entry. -/
theorem walk_page
    {pt : PageTables}
    {v : Nat}
    {present dirty : BitVec 1}
    {pgAddr : BitVec 10}
    (hDir : pt.pageDirBase (v / size4M) =
      pageDirEntry4MB present dirty pgAddr) :
    pt.walk v =
      if present = 1 then
        some (pgAddr.toNat * size4M + v % size4M)
      else none := by
  simp only [PageTables.walk, hDir, pageDirEntry4MB]

/- The frame behind an address of the user page. -/
theorem walk_userPage
    {pt : PageTables}
    {pid : Int}
    (hUser : UserPage pt pid)
    {v : Nat}
    (hv : v / size4M = 128 / 4) :
    pt.walk v =
      some ((BitVec.ofInt 10 (pid + 2)).toNat * size4M +
        v % size4M) := by
  unfold UserPage at hUser
  rw [← hv] at hUser
  rw [walk_page hUser, if_pos rfl]

namespace Layout

variable {pt : PageTables}
variable {frame : Nat}
variable {mapped : Bool}

/- The walk below 4MB. -/
theorem walk_low
    (hLayout : Layout pt frame mapped)
    (hFrame : frame < 2 ^ 20)
    {v : Nat}
    (hv : v < size4M) :
    pt.walk v =
      if videoStart ≤ v ∧ v < videoStart + size4K then
        some (frame * size4K + (v - videoStart))
      else if videoStart + size4K ≤ v ∧
          v < videoStart + 4 * size4K then some v
      else none := by
  have hDir : pt.pageDirBase (v / size4M) =
      pageDirEntry4KB .usrPageTable := by
    rw [Nat.div_eq_of_lt hv]
    exact hLayout.dir 0 (by decide) (by decide)
  rw [size4M_eq] at hv
  have hIdx : v / size4K % numPageDesc = v / size4K := by
    rw [size4K_eq, numPageDesc_eq]
    omega
  have hBound : v / size4K < numPageDesc := by
    rw [size4K_eq, numPageDesc_eq]
    omega
  simp only [PageTables.walk, hDir, pageDirEntry4KB, hIdx,
    PageTables.table, hLayout.usrPresent _ hBound,
    hLayout.usrAddr _ hBound, if_true, BitVec.toNat_ofNat]
  simp only [videoPage_eq, videoStart_eq, size4K_eq]
  by_cases hVideo : v / 4096 = 184
  · have hOff : v % 4096 = v - 753664 := by omega
    simp only [hVideo, if_true, hOff]
    rw [if_pos (by decide), if_pos (by omega),
      Nat.mod_eq_of_lt hFrame]
  · simp only [hVideo, if_false]
    by_cases hBuffers : 184 ≤ v / 4096 ∧ v / 4096 ≤ 184 + 3
    · have hAddr :
          v / 4096 % 2 ^ 20 * 4096 + v % 4096 = v := by
        omega
      rw [if_pos hBuffers, if_pos rfl, if_neg (by omega),
        if_pos (by omega), hAddr]
    · rw [if_neg hBuffers, if_neg (by decide),
        if_neg (by omega), if_neg (by omega)]

/- The kernel page is mapped to itself. -/
theorem walk_kernel
    (hLayout : Layout pt frame mapped)
    {v : Nat}
    (hv : v / size4M = 1) :
    pt.walk v = some v := by
  have hDir : pt.pageDirBase (v / size4M) =
      pageDirEntry4MB 1 1 1 := by
    rw [hv]
    exact hLayout.dir 1 (by decide) (by decide)
  have hOne : (1 : BitVec 10).toNat = 1 := rfl
  rw [walk_page hDir, if_pos rfl, hOne]
  rw [size4M_eq] at hv ⊢
  congr 1
  omega

/- Nothing else is mapped, but for the user page. -/
theorem walk_absent
    (hLayout : Layout pt frame mapped)
    {v : Nat}
    (hv : v / size4M < numPageTableDesc)
    (hLow : v / size4M ≠ 0)
    (hKernel : v / size4M ≠ 1)
    (hUser : v / size4M ≠ 128 / 4)
    (hFish : v / size4M ≠ 132 / 4) :
    pt.walk v = none := by
  have hDir := hLayout.dir _ hv hUser
  unfold fixedPageDir at hDir
  rw [if_neg hLow, if_neg hKernel, if_neg hFish] at hDir
  rw [walk_page hDir, if_neg (by decide)]

/- The PCB of pid -1 would lie behind the kernel's page. -/
theorem walk_pcbNone
    (hLayout : Layout pt frame mapped)
    {off : Nat}
    (hOff : off < size8K) :
    pt.walk ((getPcbPtr (-1)).toNat + off) = none := by
  have hPtr : (getPcbPtr (-1)).toNat = 8388608 := by decide
  have hIndex : (8388608 + off) / size4M = 2 := by
    unfold size8K at hOff
    rw [size4K_eq] at hOff
    rw [size4M_eq]
    omega
  rw [hPtr]
  apply hLayout.walk_absent
  all_goals
    rw [hIndex]
    decide

/- The walk between 132MB and 136MB. -/
theorem walk_fish
    (hLayout : Layout pt frame mapped)
    (hFrame : frame < 2 ^ 20)
    {v : Nat}
    (hv : v / size4M = 132 / 4) :
    pt.walk v =
      if mapped ∧ fishMap ≤ v ∧ v < fishMap + size4K then
        some (frame * size4K + (v - fishMap))
      else none := by
  have hDir : pt.pageDirBase (v / size4M) =
      pageDirEntry4KB .usrmapPageTable := by
    rw [hv]
    exact hLayout.dir (132 / 4) (by decide) (by decide)
  have hBound : v / size4K % numPageDesc < numPageDesc :=
    Nat.mod_lt _ (by decide)
  simp only [PageTables.walk, hDir, pageDirEntry4KB,
    PageTables.table, hLayout.usrmapPresent _ hBound,
    if_true]
  rw [size4M_eq] at hv
  by_cases hVideo : v / size4K % numPageDesc = videoPage
  · simp only [hVideo, if_true, hLayout.usrmapAddr,
      BitVec.toNat_ofNat, Nat.mod_eq_of_lt hFrame]
    simp only [videoPage_eq, fishMap_eq, size4K_eq,
      numPageDesc_eq] at hVideo ⊢
    cases mapped with
    | true =>
        have hOff : v % 4096 = v - 139165696 := by omega
        rw [if_pos (by decide), if_pos ⟨rfl, by omega⟩,
          hOff]
    | false => simp
  · simp only [hVideo, if_false]
    simp only [videoPage_eq, fishMap_eq, size4K_eq,
      numPageDesc_eq] at hVideo ⊢
    rw [if_neg (by decide), if_neg]
    omega

end Layout

end MartianPendulum

------------------------------------------------------------
-- Isolation
------------------------------------------------------------

namespace MartianPendulum

theorem logicalFrame_lt
    (t : Tid)
    (g : Control) :
    g.logicalFrame t < 2 ^ 8 := by
  have hBuffer : ∀ t : Tid,
      vidMemBuffer t / size4K < 2 ^ 8 := by
    decide
  unfold Control.logicalFrame
  split
  · decide
  · exact hBuffer t

/- The frame number of a process in the directory. -/
theorem toNat_userFrame
    {pid : Int}
    (hPid : pid ∈ pids) :
    (BitVec.ofInt 10 (pid + 2)).toNat = pid.toNat + 2 := by
  revert pid
  decide

/- The walk reads the address space off the tables. -/
theorem walk_eq_addressSpace
    {g : Control}
    (hLoc : Located g)
    (hPid : g.curPid ∈ pids)
    {v : Nat}
    (hv : v < 2 ^ 32) :
    g.walk v = addressSpace g v := by
  have hSmall : g.logicalFrame g.runningTermPtr < 2 ^ 20 :=
    Nat.lt_trans (logicalFrame_lt _ g) (by decide)
  unfold addressSpace
  by_cases hLow : v < size4M
  · rw [hLoc.layout.walk_low hSmall hLow]
    simp only [size4M_eq, size8M_eq, size128M_eq,
      fishMap_eq] at hLow ⊢
    rw [if_neg (by omega : ¬ (4194304 ≤ v ∧ _)),
      if_neg (by omega : ¬ (134217728 ≤ v ∧ _)),
      if_neg (by omega : ¬ (_ ∧ 139165696 ≤ v ∧ _))]
  · simp only [size4M_eq, size8M_eq, size128M_eq,
      videoStart_eq, size4K_eq] at hLow ⊢
    rw [if_neg (by omega : ¬ (753664 ≤ v ∧ _)),
      if_neg (by omega : ¬ (753664 + 4096 ≤ v ∧ _))]
    by_cases hKernel : v / size4M = 1
    · rw [hLoc.layout.walk_kernel hKernel]
      rw [size4M_eq] at hKernel
      rw [if_pos (by omega)]
    · by_cases hUser : v / size4M = 128 / 4
      · have hCur := ne_neg_one_of_mem_pids hPid
        rw [walk_userPage (hLoc.user hCur) hUser,
          toNat_userFrame hPid]
        rw [size4M_eq] at hKernel hUser ⊢
        have hAddr :
            (g.curPid.toNat + 2) * 4194304 + v % 4194304 =
              8388608 + g.curPid.toNat * 4194304 +
                (v - 134217728) := by
          omega
        rw [if_neg (by omega), if_pos (by omega), hAddr]
      · by_cases hFish : v / size4M = 132 / 4
        · rw [hLoc.layout.walk_fish hSmall hFish]
          rw [size4M_eq] at hKernel hUser hFish
          rw [if_neg (by omega : ¬ (4194304 ≤ v ∧ _)),
            if_neg (by omega : ¬ (134217728 ≤ v ∧ _)),
            size4K_eq]
        · rw [hLoc.layout.walk_absent
            (by
              rw [size4M_eq]
              unfold numPageTableDesc
              omega)
            (by
              rw [size4M_eq]
              omega)
            hKernel hUser hFish]
          rw [size4M_eq] at hKernel hUser hFish
          rw [fishMap_eq, if_neg (by omega),
            if_neg (by omega), if_neg (by omega)]

/- Only the user page reaches frames of processes. -/
theorem addressSpace_isolated
    (g : Control)
    (hPid : g.curPid ∈ pids)
    {v p : Nat}
    (hMap : addressSpace g v = some p)
    {q : Int}
    (hq : q ∈ pids)
    (hOther : q ≠ g.curPid) :
    p < size8M + q.toNat * size4M ∨
      size8M + (q.toNat + 1) * size4M ≤ p := by
  have hSmall := logicalFrame_lt g.runningTermPtr g
  rw [mem_pids] at hPid hq
  have hNe : q.toNat ≠ g.curPid.toNat := by omega
  unfold addressSpace at hMap
  simp only [size4M_eq, size8M_eq, size128M_eq,
    videoStart_eq, size4K_eq, fishMap_eq] at hMap ⊢
  split at hMap
  · have hEq := Option.some.inj hMap
    omega
  · split at hMap
    · have hEq := Option.some.inj hMap
      omega
    · split at hMap
      · have hEq := Option.some.inj hMap
        omega
      · split at hMap
        · have hEq := Option.some.inj hMap
          omega
        · split at hMap
          · have hEq := Option.some.inj hMap
            omega
          · exact absurd hMap (by simp)

/-
  From the first tick on, the running process sees its own
  address space, and no address of it leads to the frame of
  another process.
-/
theorem walk_run_eq_addressSpace
    (fs : FileSystem)
    (k : Kernel)
    (keys : List UInt8)
    (regs : Regs)
    (callFrame : CallFrame)
    (es : List Event)
    (g : Control)
    (hRun : g =
      (Logic.run (Kernel.step fs) k.boot
        (keys.map .key ++
          .tick regs callFrame :: es)).toControl)
    (hPid : g.curPid ∈ pids)
    (v : Nat)
    (hv : v < 2 ^ 32) :
    g.walk v = addressSpace g v ∧
      ∀ q ∈ pids, q ≠ g.curPid → ∀ p,
        g.walk v = some p →
          p < size8M + q.toNat * size4M ∨
            size8M + (q.toNat + 1) * size4M ≤ p := by
  have hLoc : Located g := by
    rw [hRun]
    exact located_run fs k keys regs callFrame es
  have hWalk := walk_eq_addressSpace hLoc hPid hv
  refine ⟨hWalk, ?_⟩
  intro q hq hOther p hMap
  rw [hWalk] at hMap
  exact addressSpace_isolated g hPid hMap hq hOther

/-
  The second base shell executes a shell that halts.
-/
def relaunched : Control :=
  (Logic.run (Kernel.step sampleFs) blankKernel.boot
    [.tick blankRegs blankFrame,
      .tick blankRegs blankFrame,
      .execute blankFrame (some shellLiteral.ptr),
      .halt blankFrame 7]).toControl

/- It is in its own frame again, apart from the first. -/
theorem walk_run_eq_addressSpace_sample :
    relaunched.curPid = 1 ∧
      relaunched.walk size128M = some (size8M + size4M) ∧
      ∀ p, relaunched.walk size128M = some p →
        p < size8M ∨ size8M + size4M ≤ p := by
  have hCur : relaunched.curPid = 1 := by decide +kernel
  have hPid : relaunched.curPid ∈ pids := by
    rw [hCur]
    decide
  rcases walk_run_eq_addressSpace sampleFs blankKernel []
      blankRegs blankFrame
      [.tick blankRegs blankFrame,
        .execute blankFrame (some shellLiteral.ptr),
        .halt blankFrame 7]
      relaunched rfl hPid size128M (by decide) with
    ⟨hWalk, hApart⟩
  have hSpace : addressSpace relaunched size128M =
      some (size8M + size4M) := by
    decide +kernel
  refine ⟨hCur, hWalk.trans hSpace, ?_⟩
  intro p hMap
  simpa using hApart 0 (by decide) (by rw [hCur]; decide)
    p hMap

end MartianPendulum
