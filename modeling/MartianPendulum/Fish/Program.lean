import MartianPendulum.Fish.Frames

/-
  The fish program from start to end.

  `main` lays the two frames over each other, lets them
  blink, adds a character of its own, synchronises it with
  the frames, removes it again, and lets the clock tick a
  hundred times after each of these.

  Key definitions include:
    * `waitLoop`
    * `fish`
    * `FrameFile`
    * `ShowsFrames`

  Key theorems include:
    * `waitLoop_plays`
    * `addFrames_plays`
    * `add_frames_animates`
    * `fish_leaves_first_frame`
-/

------------------------------------------------------------
-- The Program
------------------------------------------------------------

namespace MartianPendulum

/-
  The loops of `main`: a read from the clock, whose result
  is not used, and a tasklet.
-/
def waitLoop
    (h : Host)
    (rtcFd : Int)
    (garbage : Ptr) :
    Nat → World → Blink → Option (World × Blink)
| 0, w, s => some (w, s)
| n + 1, w, s => do
    let (_, _, w) ← ece391Read h rtcFd garbage 4 w
    let s ← s.rtcTasklet
    waitLoop h rtcFd garbage n w s

/- The location `6*80+60` of the character of `main`. -/
def markLocation : UInt16 := 6 * 80 + 60

/- The `blink_struct` of `main`, an `I` and an `M`. -/
def markArg : BlinkArg :=
  { location := markLocation
    onChar := 73
    offChar := 77
    onLength := 7
    offLength := 6 }

/- The argument of `RTC_SYNC`: the cell 40, and the mark. -/
def syncWord : UInt32 := (40 : UInt32) <<< 16 ||| (6 * 80 + 60)

/- The `int` 32 in memory. -/
def rateBuf : Ptr :=
  fun i => if i = 0 then 32 else 0

/- `main` after `add_frames`, with `WAIT` 100. -/
def fishLoops
    (h : Host)
    (rtcFd : Int)
    (garbage : Ptr)
    (w : World)
    (s : Blink) : Option (Int × World × Blink) := do
  let (_, w) ← ece391Write rtcFd rateBuf 4 w
  let (w, s) ← waitLoop h rtcFd garbage 100 w s
  let s := (s.ioctlAdd markArg).2
  let (w, s) ← waitLoop h rtcFd garbage 100 w s
  let (_, s) ← s.ioctlSync syncWord
  let (w, s) ← waitLoop h rtcFd garbage 100 w s
  let (_, s) ← s.ioctlRemove (6 * 80 + 60)
  let (w, s) ← waitLoop h rtcFd garbage 100 w s
  some (0, (ece391Close rtcFd w).2, s)

/-
  `main` of `fish.c`.  `mapped` is what `ece391_vidmap` has
  returned, and `vmem` is the memory it has mapped.
-/
def fish
    (h : Host)
    (fuel : Nat)
    (garbage : Ptr)
    (mapped : Int)
    (vmem : Nat → UInt8)
    (w : World) : Option (Int × World × Blink) :=
  if mapped = -1 then some (-1, w, Blink.init vmem)
  else
    let opened := ece391Open h (literal "rtc") w
    match addFrames h fuel (literal "frame0.txt")
        (literal "frame1.txt") opened.2 (Blink.init vmem) with
    | none => none
    | some (.error w) => some (-1, w, Blink.init vmem)
    | some (.ok (w, s)) =>
        fishLoops h opened.1 garbage w s

end MartianPendulum

------------------------------------------------------------
-- The Clock
------------------------------------------------------------

namespace MartianPendulum

/- What `open` has returned for the clock. -/
def World.Clock
    (fd : Int)
    (w : World) : Prop :=
  fd = -1 ∨ 2 ≤ fd ∧ fd ≤ 7 ∧
    (w.table fd).flags = flagInUse ∧
    (w.table fd).opPtr = .rtcOps

section Clock

variable {h : Host}
variable {fd : Int}
variable {w : World}

theorem World.Clock.read
    (hClock : w.Clock fd)
    (buf : Ptr) :
    ∃ r, ece391Read h fd buf 4 w =
      some (r, buf, { w with calls := w.calls + 1 }) := by
  rcases hClock with rfl | ⟨hLow, hHigh, hUse, hOps⟩
  · exact ⟨-1, rfl⟩
  · exact ⟨0, ece391Read_rtc h hLow hHigh hUse hOps buf 4⟩

theorem World.Clock.write
    (hClock : w.Clock fd)
    (buf : Ptr) :
    ∃ r, ece391Write fd buf 4 w =
      some (r, { w with calls := w.calls + 1 }) := by
  rcases hClock with rfl | ⟨hLow, hHigh, hUse, hOps⟩
  · refine ⟨-1, ?_⟩
    simp [ece391Write, syscallWrite]
  · have hRange : ¬ (fd ≥ 8 ∨ fd ≤ 0) := by omega
    have hScreen : w.onTerminal fd = false := by
      simp [World.onTerminal, hOps]
    refine ⟨rtcWriteResult { isNull := false, mem := buf } 4,
      ?_⟩
    simp [ece391Write, syscallWrite, hRange, hUse, hOps,
      flagInUse_ne_flagFree, hScreen]

/- Every read of the clock is followed by a tick. -/
theorem waitLoop_plays
    (garbage : Ptr)
    {vmem : Nat → UInt8}
    {cast : List Blink.Actor}
    {l : List Slot}
    {s : Blink}
    (n : Nat)
    (hClock : w.Clock fd)
    (hPlays : s.Plays vmem cast l) :
    ∃ w' s', waitLoop h fd garbage n w s = some (w', s') ∧
      w'.Clock fd ∧
      s'.Plays vmem (cast.map (Blink.Actor.older n)) l := by
  induction n generalizing w s cast with
  | zero =>
      refine ⟨w, s, rfl, hClock, ?_⟩
      have hSame : cast.map (Blink.Actor.older 0) = cast :=
        List.map_id cast
      rw [hSame]
      exact hPlays
  | succ n ih =>
      rcases hClock.read (h := h) garbage with ⟨r, hRead⟩
      rcases hPlays.tasklet with ⟨s₁, hTasklet, hPlays₁⟩
      rcases ih (w := { w with calls := w.calls + 1 }) hClock
          hPlays₁ with ⟨w', s', hLoop, hClock', hPlays'⟩
      refine ⟨w', s', ?_, hClock', ?_⟩
      · rw [waitLoop, hRead]
        simp only [Option.bind_eq_bind, Option.bind_some,
          hTasklet]
        exact hLoop
      · rw [List.map_map] at hPlays'
        have hAges : Blink.Actor.older n ∘
            Blink.Actor.older 1 =
              Blink.Actor.older (n + 1) := by
          funext p
          simp only [Function.comp_apply, Blink.Actor.older]
          rw [Nat.add_assoc, Nat.add_comm 1 n]
        rw [hAges] at hPlays'
        exact hPlays'

end Clock

end MartianPendulum

------------------------------------------------------------
-- The Frames
------------------------------------------------------------

namespace MartianPendulum

/- A cell of the frames in the video memory. -/
def frameAddr
    (row col : Nat) : Nat :=
  (row * 80 + col + 40) <<< 1

/- The lines of a regular file. -/
def FileSystem.fileLines
    (fs : FileSystem)
    (file : Dentry) : List (List UInt8) :=
  (fs.bytesFrom file.nrInode 0).splitOn newline

/-
  The video memory after `k` ticks: each cell in which one
  of the frames has something shows the first frame for 15
  ticks, the second one for 15, and so on.
-/
def ShowsFrames
    (ls0 ls1 : List (List UInt8))
    (vmem : Nat → UInt8)
    (k : Nat)
    (vmem' : Nat → UInt8) : Prop :=
  (∀ row col, (frameChar ls0 row col ≠ blank ∨
      frameChar ls1 row col ≠ blank) →
    vmem' (frameAddr row col) =
      if k / 15 % 2 = 0 then frameChar ls0 row col
      else frameChar ls1 row col) ∧
  ∀ a, (∀ row col, (frameChar ls0 row col ≠ blank ∨
      frameChar ls1 row col ≠ blank) →
        a ≠ frameAddr row col) →
    vmem' a = vmem a

section Frames

variable {ls0 ls1 : List (List UInt8)}
variable {row col : Nat}

theorem frameChar_ne_newline
    (u : List UInt8)
    (row col : Nat) :
    frameChar (u.splitOn newline) row col ≠ newline := by
  have hBlank : blank ≠ newline := by decide
  unfold frameChar
  by_cases hRow : row < (u.splitOn newline).length
  · rw [List.getD_eq_getElem (u.splitOn newline) [] hRow]
    have hLine := Logic.not_mem_of_mem_splitOn
      (List.getElem_mem hRow)
    by_cases hCol : col < (u.splitOn newline)[row].length
    · rw [List.getD_eq_getElem _ _ hCol]
      exact ne_of_mem_of_not_mem (List.getElem_mem hCol) hLine
    · rw [List.getD_eq_default _ _ (by omega)]
      exact hBlank
  · rw [List.getD_eq_default (u.splitOn newline) []
      (by omega)]
    exact hBlank

/- The two frames take turns of 15 ticks. -/
theorem frameArg_shownAt
    {c0 c1 : UInt8}
    (h0 : c0 ≠ newline)
    (h1 : c1 ≠ newline)
    (k : Nat) :
    (frameArg row col c0 c1).shownAt k =
      if k / 15 % 2 = 0 then c0 else c1 := by
  have hPhase : (frameArg row col c0 c1).isOn k = true ↔
      k / 15 % 2 = 0 := by
    rw [BlinkArg.isOn_iff]
    change k % 30 < 15 ↔ k / 15 % 2 = 0
    omega
  unfold BlinkArg.shownAt
  by_cases hOn : k / 15 % 2 = 0
  · rw [if_pos (hPhase.mpr hOn), if_pos hOn]
    exact if_neg h0
  · rw [if_neg (fun hIs => hOn (hPhase.mp hIs)), if_neg hOn]
    exact if_neg h1

end Frames

/- A file that `add_frames` can show. -/
structure FrameFile
    (fs : FileSystem)
    (f : Ptr)
    (file : Dentry) : Prop where
  found : fs.lookup (stringAt f).chars = some file
  regular : file.type = typeRegular
  good : fs.GoodFile file.nrInode
  fits : FrameFits (fs.fileLines file)

/- The nodes of the frames, `k` ticks after `add_frames`. -/
def frameCast
    (k : Nat)
    (ls0 ls1 : List (List UInt8)) : List Blink.Actor :=
  ((frameArgs 0 ls0 ls1).map (fun arg => ⟨arg, k⟩)).reverse

section Add

variable {h : Host}
variable {file0 file1 : Dentry}
variable {f0 f1 : Ptr}
variable {fd0 fd1 fd : Int}
variable {w : World}

theorem map_older_frameCast
    (n k : Nat)
    (ls0 ls1 : List (List UInt8)) :
    (frameCast k ls0 ls1).map (Blink.Actor.older n) =
      frameCast (k + n) ls0 ls1 := by
  rw [frameCast, List.map_reverse, List.map_map]
  rfl

theorem World.freeFd_flags
    {w : World}
    {fd : Int}
    (hFree : w.freeFd = some fd) :
    (w.table fd).flags = flagFree := by
  simpa using List.find?_some hFree

/- A file that was just opened is unread. -/
theorem FrameFile.unread
    (hFile : FrameFile h.fs f0 file0)
    {w : World}
    (hLow : 2 ≤ fd0)
    (hHigh : fd0 ≤ 7)
    (hOut : w.StdoutOpen)
    (hEntry : w.table fd0 = freshEntry file0) :
    w.Unread h.fs fd0 (h.fs.bytesFrom file0.nrInode 0) := by
  refine ⟨file0.nrInode, 0, hFile.good,
    ⟨hLow, hHigh, ?_, hOut, Nat.zero_le _⟩, rfl⟩
  rw [hEntry, freshEntry, hFile.regular]
  rfl

/- `add_frames` returns with a node for each cell. -/
theorem addFrames_plays
    (hFile0 : FrameFile h.fs f0 file0)
    (hFile1 : FrameFile h.fs f1 file1)
    (hOut : w.StdoutOpen)
    (hFree0 : w.freeFd = some fd0)
    (hFree1 : (w.setEntry fd0 (freshEntry file0)).freeFd =
      some fd1)
    (hClock : w.Clock fd)
    {fuel : Nat}
    (hFuel : 40 < fuel)
    (vmem : Nat → UInt8) :
    ∃ w' s l, addFrames h fuel f0 f1 w (Blink.init vmem) =
        some (.ok (w', s)) ∧
      w'.Clock fd ∧
      s.Plays vmem (frameCast 0 (h.fs.fileLines file0)
        (h.fs.fileLines file1)) l := by
  have hRange0 := World.freeFd_range hFree0
  have hRange1 := World.freeFd_range hFree1
  have hInUse : ((w.setEntry fd0 (freshEntry file0)).table
      fd0).flags = flagInUse := by
    simp only [World.setEntry, Function.update_self]
    rfl
  have hNe : fd0 ≠ fd1 := by
    rintro rfl
    rw [World.freeFd_flags hFree1] at hInUse
    exact flagInUse_ne_flagFree hInUse.symm
  obtain ⟨w₂, hw₂⟩ : ∃ w₂, w₂ =
      (w.setEntry fd0 (freshEntry file0)).setEntry fd1
        (freshEntry file1) := ⟨_, rfl⟩
  have hOut₂ : w₂.StdoutOpen := by
    rw [hw₂]
    exact (hOut.setEntry hRange0.1 _).setEntry hRange1.1 _
  have hEntry0 : w₂.table fd0 = freshEntry file0 := by
    rw [hw₂]
    simp only [World.setEntry, Function.update_of_ne hNe,
      Function.update_self]
  have hEntry1 : w₂.table fd1 = freshEntry file1 := by
    rw [hw₂]
    simp only [World.setEntry, Function.update_self]
  obtain ⟨s₀, hs₀⟩ : ∃ s₀ : Frames, s₀ =
      { ch0 := Channel.fresh fd0
        ch1 := Channel.fresh fd1
        world := w₂
        blink := Blink.init vmem } := ⟨_, rfl⟩
  have hDigit : (48 : UInt8) ≠ newline := by decide
  have hOn : s₀.On h.fs
      (.line (h.fs.bytesFrom file0.nrInode 0))
      (.line (h.fs.bytesFrom file1.nrInode 0)) := by
    rw [hs₀]
    exact ⟨⟨hDigit, rfl, hFile0.unread hRange0.1 hRange0.2
        hOut₂ hEntry0⟩,
      ⟨hDigit, rfl, hFile1.unread hRange1.1 hRange1.2
        hOut₂ hEntry1⟩, hRange0.1, hRange1.1, hNe⟩
  have hFits0 := hFile0.fits
  have hFits1 := hFile1.fits
  have hRows0 := hFits0.rows
  have hRows1 := hFits1.rows
  rcases @frameRows_spec h _ _ s₀ fuel fuel 0 (by omega) hOn
      rfl rfl
      (fun l hl => Nat.lt_of_le_of_lt (hFits0.cols l hl) hFuel)
      (fun l hl => Nat.lt_of_le_of_lt (hFits1.cols l hl) hFuel)
      (show (h.fs.fileLines file0).length < fuel by omega)
      (show (h.fs.fileLines file1).length < fuel by omega)
    with ⟨s', hLoop, hBlink, hKeeps⟩
  have hDrawn : ∀ arg ∈ frameArgs 0 (h.fs.fileLines file0)
      (h.fs.fileLines file1), arg.Valid := by
    intro arg hArg
    rcases mem_frameArgs.mp hArg with ⟨row, col, hSome, rfl⟩
    have hBounds := drawn_bounds hFits0 hFits1 hSome
    exact frameArg_valid hBounds.1 hBounds.2 _ _
  rcases (Blink.plays_init vmem).addAll hDrawn
      (frameArgs_apart hFits0 hFits1)
      (fun _ _ => List.not_mem_nil) with ⟨l, hPlays⟩
  refine ⟨s'.world, s'.blink, l, ?_, ?_, ?_⟩
  · have hNonneg0 : ¬ fd0 < 0 := by omega
    have hNonneg1 : ¬ fd1 < 0 := by omega
    unfold addFrames
    rw [ece391Open_eq h hFile0.found
      (by rw [hFile0.regular]; decide) hFree0]
    simp only [hNonneg0, if_false]
    rw [ece391Open_eq h hFile1.found
      (by rw [hFile1.regular]; decide) hFree1]
    simp only [hNonneg1, if_false, ← hw₂, ← hs₀, hLoop]
    rfl
  · rcases hClock with hNone | ⟨hLow, hHigh, hUse, hOps⟩
    · exact .inl hNone
    · -- the clock has a descriptor of its own
      have hNe0 : fd ≠ fd0 := by
        rintro rfl
        rw [World.freeFd_flags hFree0] at hUse
        exact flagInUse_ne_flagFree hUse.symm
      have hNe1 : fd ≠ fd1 := by
        rintro rfl
        have hFlags := World.freeFd_flags hFree1
        simp only [World.setEntry,
          Function.update_of_ne hNe0] at hFlags
        rw [hFlags] at hUse
        exact flagInUse_ne_flagFree hUse.symm
      have hTable : s'.world.table fd = w.table fd := by
        rw [hKeeps.table fd (by rw [hs₀]; exact hNe0)
          (by rw [hs₀]; exact hNe1), hs₀, hw₂]
        simp only [World.setEntry, Function.update_of_ne hNe0,
          Function.update_of_ne hNe1]
      exact .inr ⟨hLow, hHigh, by rw [hTable]; exact hUse,
        by rw [hTable]; exact hOps⟩
  · rw [List.append_nil] at hPlays
    rw [hBlink, hs₀]
    exact hPlays

/- The cells of the nodes show the frames. -/
theorem showsFrames_of_plays
    (hFits0 : FrameFits (h.fs.fileLines file0))
    (hFits1 : FrameFits (h.fs.fileLines file1))
    {vmem : Nat → UInt8}
    {k : Nat}
    {l : List Slot}
    {s : Blink}
    (hPlays : s.Plays vmem (frameCast k
      (h.fs.fileLines file0) (h.fs.fileLines file1)) l) :
    ShowsFrames (h.fs.fileLines file0)
      (h.fs.fileLines file1) vmem k s.vmem := by
  have hCell : ∀ {row col}, row < 25 → col < 40 →
      ∀ c0 c1, Blink.cell (frameArg row col c0 c1) =
        frameAddr row col := by
    intro row col hRow hCol c0 c1
    rw [Blink.cell, frameArg_location hRow hCol, frameAddr]
  refine ⟨?_, ?_⟩
  · intro row col hSome
    have hBounds := drawn_bounds hFits0 hFits1 hSome
    have hArg := mem_frameArgs.mpr ⟨row, col, hSome, rfl⟩
    have hActor := List.mem_reverse.mpr
      (List.mem_map_of_mem (f := fun arg =>
        (⟨arg, k⟩ : Blink.Actor)) hArg)
    have hShown := hPlays.vmem_cell hActor
    rw [hCell hBounds.1 hBounds.2] at hShown
    rw [hShown]
    exact frameArg_shownAt (frameChar_ne_newline _ row col)
      (frameChar_ne_newline _ row col) k
  · intro a ha
    apply hPlays.others
    intro p hp
    rcases List.mem_map.mp (List.mem_reverse.mp hp) with
      ⟨arg, hArg, rfl⟩
    rcases mem_frameArgs.mp hArg with ⟨row, col, hSome, rfl⟩
    have hBounds := drawn_bounds hFits0 hFits1 hSome
    change a ≠ Blink.cell _
    rw [hCell hBounds.1 hBounds.2]
    exact ha row col hSome

/- Two frames of one character each, and the clock. -/
def frameFs : FileSystem :=
  { bootBlock :=
      { numDirEntries := 3
        numInodes := 3
        numDataBlocks := 2
        files := fun i =>
          if i = 0 then
            { filename := literal "rtc"
              type := typeUserRtc
              nrInode := 0 }
          else if i = 1 then
            { filename := literal "frame0.txt"
              type := typeRegular
              nrInode := 1 }
          else
            { filename := literal "frame1.txt"
              type := typeRegular
              nrInode := 2 } }
    fsBlocks := fun off =>
      if off = 8192 ∨ off = 12288 ∨ off = 12292 then 1
      else if off = 16384 then 47
      else if off = 20480 then 111
      else 0 }

/- A file of one character. -/
theorem frameFile_of_single
    {fs : FileSystem}
    {name : String}
    (hName : 0 ∉ text name)
    (hShort : (text name).length < 2 ^ 32)
    {file : Dentry}
    (hFound : fs.lookup (text name) = some file)
    (hType : file.type = typeRegular)
    (hInode : file.nrInode < maxFiles)
    (hLength : fs.inodeLength file.nrInode = 1)
    (hBlock : fs.inodeBlock file.nrInode 0 <
      fs.bootBlock.numDataBlocks)
    {c : UInt8}
    (hLines : fs.fileLines file = [[c]]) :
    FrameFile fs (literal name) file := by
  refine ⟨?_, hType, ⟨hInode, ?_, ?_⟩, ?_⟩
  · rw [(spells_literal hName).stringAt hShort]
    exact hFound
  · rw [hLength]
    decide
  · intro j hj
    have hZero : j = 0 := by
      rw [hLength] at hj
      simpa [blockSize] using hj
    rw [hZero]
    exact hBlock
  · rw [hLines]
    refine ⟨by simp, ?_⟩
    intro l hl
    rw [List.mem_singleton.mp hl]
    simp

theorem frameFile_first :
    FrameFile frameFs (literal "frame0.txt")
      (frameFs.bootBlock.files 1) :=
  frameFile_of_single (by decide) (by decide) rfl rfl
    (by decide) (by decide) (by decide)
    (show frameFs.fileLines (frameFs.bootBlock.files 1) =
      [[47]] by decide)

theorem frameFile_second :
    FrameFile frameFs (literal "frame1.txt")
      (frameFs.bootBlock.files 2) :=
  frameFile_of_single (by decide) (by decide) rfl rfl
    (by decide) (by decide) (by decide)
    (show frameFs.fileLines (frameFs.bootBlock.files 2) =
      [[111]] by decide)

/-
  `add_frames` lays two files over each other, and after any
  number of ticks of the clock the screen shows the first or
  the second one of them, with all else as it was.
-/
theorem add_frames_animates
    (hFile0 : FrameFile h.fs f0 file0)
    (hFile1 : FrameFile h.fs f1 file1)
    (hOut : w.StdoutOpen)
    (hFree0 : w.freeFd = some fd0)
    (hFree1 : (w.setEntry fd0 (freshEntry file0)).freeFd =
      some fd1)
    (hClock : w.Clock fd)
    {fuel : Nat}
    (hFuel : 40 < fuel)
    (vmem : Nat → UInt8)
    (garbage : Ptr)
    (k : Nat) :
    ∃ w₁ s₁ w₂ s₂,
      addFrames h fuel f0 f1 w (Blink.init vmem) =
        some (.ok (w₁, s₁)) ∧
      waitLoop h fd garbage k w₁ s₁ = some (w₂, s₂) ∧
      ShowsFrames (h.fs.fileLines file0)
        (h.fs.fileLines file1) vmem k s₂.vmem := by
  rcases addFrames_plays hFile0 hFile1 hOut hFree0 hFree1
      hClock hFuel vmem with
    ⟨w₁, s₁, l, hAdd, hClock₁, hPlays₁⟩
  rcases waitLoop_plays (h := h) garbage k hClock₁ hPlays₁
    with ⟨w₂, s₂, hWait, _, hPlays₂⟩
  rw [map_older_frameCast, Nat.zero_add] at hPlays₂
  exact ⟨w₁, s₁, w₂, s₂, hAdd, hWait,
    showsFrames_of_plays hFile0.fits hFile1.fits hPlays₂⟩

/- After 20 ticks the second frame is shown. -/
theorem add_frames_animates_sample :
    ∃ w₁ s₁ w₂ s₂,
      addFrames (sampleHost frameFs "") 41
          (literal "frame0.txt") (literal "frame1.txt")
          startWorld (Blink.init (fun _ => 0)) =
        some (.ok (w₁, s₁)) ∧
      waitLoop (sampleHost frameFs "") (-1) (fun _ => 0) 20
        w₁ s₁ = some (w₂, s₂) ∧
      s₂.vmem 80 = 111 := by
  rcases add_frames_animates
      (h := sampleHost frameFs "") (w := startWorld)
      frameFile_first frameFile_second ⟨by decide, by decide⟩
      (show startWorld.freeFd = some 2 by decide)
      (show (startWorld.setEntry 2 _).freeFd = some 3 by
        decide)
      (show startWorld.Clock (-1) from .inl rfl)
      (show 40 < 41 by decide) (fun _ => 0) (fun _ => 0) 20
    with ⟨w₁, s₁, w₂, s₂, hAdd, hWait, hShows⟩
  refine ⟨w₁, s₁, w₂, s₂, hAdd, hWait, ?_⟩
  have hCorner := hShows.1 0 0 (by decide)
  rw [show frameAddr 0 0 = 80 from rfl] at hCorner
  rw [hCorner]
  decide

end Add

end MartianPendulum

------------------------------------------------------------
-- The Whole Run
------------------------------------------------------------

namespace MartianPendulum

section Run

variable {h : Host}
variable {file0 file1 : Dentry}
variable {fd : Int}
variable {w : World}

/- The mark of `main` among the frames. -/
theorem mark_valid :
    markArg.Valid :=
  ⟨by decide, by decide, by decide, by decide, by decide,
    by decide⟩

theorem mark_fresh
    {ls0 ls1 : List (List UInt8)}
    (hFits0 : FrameFits ls0)
    (hFits1 : FrameFits ls1)
    (hMark : frameChar ls0 6 20 = blank ∧
      frameChar ls1 6 20 = blank)
    (k : Nat) :
    markArg.location ∉ (frameCast k ls0 ls1).map
      (fun p => p.arg.location) := by
  intro hMem
  rcases List.mem_map.mp hMem with ⟨p, hp, hAt⟩
  rcases List.mem_map.mp (List.mem_reverse.mp hp) with
    ⟨arg, hArg, rfl⟩
  rcases mem_frameArgs.mp hArg with ⟨row, col, hSome, rfl⟩
  have hBounds := drawn_bounds hFits0 hFits1 hSome
  have hLocation := frameArg_location hBounds.1 hBounds.2
    (frameChar ls0 row col) (frameChar ls1 row col)
  have hPlace : markArg.location.toNat = 540 := by decide
  rw [hAt, hPlace] at hLocation
  have hRow : row = 6 := by omega
  have hCol : col = 20 := by omega
  subst hRow hCol
  rcases hSome with hChar | hChar
  · exact hChar hMark.1
  · exact hChar hMark.2

/- At 200 ticks the frames are off. -/
theorem frameArg_isOn
    (row col : Nat)
    (c0 c1 : UInt8) :
    (frameArg row col c0 c1).isOn 200 = false := by
  rw [BlinkArg.isOn_eq_false_iff]
  change 15 ≤ 200 % 30
  decide

/- The mark in step with the frames, at 300 ticks. -/
theorem synced_shownAt
    (row col : Nat)
    (c0 c1 : UInt8)
    (p : Blink.Actor)
    (hp : p.arg.onChar = 73) :
    ((⟨frameArg row col c0 c1, 200⟩ : Blink.Actor).synced
      p).arg.shownAt 300 = 73 := by
  have hOn : ((⟨frameArg row col c0 c1, 200⟩ :
      Blink.Actor).synced p).arg.isOn 300 = true := by
    rw [BlinkArg.isOn_iff]
    change 300 % 30 < 15
    decide
  rw [BlinkArg.shownAt, if_pos hOn]
  exact hp

theorem fishLoops_plays
    {ls0 ls1 : List (List UInt8)}
    (hFits0 : FrameFits ls0)
    (hFits1 : FrameFits ls1)
    (hCorner : frameChar ls0 0 0 ≠ blank ∨
      frameChar ls1 0 0 ≠ blank)
    (hMark : frameChar ls0 6 20 = blank ∧
      frameChar ls1 6 20 = blank)
    {vmem : Nat → UInt8}
    {l : List Slot}
    {s : Blink}
    (hClock : w.Clock fd)
    (hPlays : s.Plays vmem (frameCast 0 ls0 ls1) l)
    (garbage : Ptr) :
    ∃ w' s' l', fishLoops h fd garbage w s =
        some (0, w', s') ∧
      s'.Plays (Function.update vmem (frameAddr 6 20) 73)
        (frameCast 400 ls0 ls1) l' := by
  rcases hClock.write rateBuf with ⟨r, hWrite⟩
  rcases waitLoop_plays (h := h)
      (w := { w with calls := w.calls + 1 }) garbage 100
      hClock hPlays with
    ⟨w₁, s₁, hWait₁, hClock₁, hPlays₁⟩
  rw [map_older_frameCast] at hPlays₁
  rcases hPlays₁.add mark_valid
      (mark_fresh hFits0 hFits1 hMark (0 + 100)) with
    ⟨l₂, hPlays₂⟩
  rcases waitLoop_plays (h := h) garbage 100 hClock₁ hPlays₂
    with ⟨w₃, s₃, hWait₃, hClock₃, hPlays₃⟩
  rw [List.map_cons, map_older_frameCast] at hPlays₃
  -- after 200 ticks the frames are off
  have hActor : (⟨frameArg 0 0 (frameChar ls0 0 0)
      (frameChar ls1 0 0), 200⟩ : Blink.Actor) ∈
        frameCast (0 + 100 + 100) ls0 ls1 :=
    List.mem_reverse.mpr (List.mem_map_of_mem
      (mem_frameArgs.mpr ⟨0, 0, hCorner, rfl⟩))
  have hFrom : (syncWord >>> 16).toUInt16 =
      UInt16.ofNat (0 * 80 + 0 + 40) := by decide
  have hTo : (syncWord &&& 0xFFFF).toUInt16 =
      markArg.location := by decide
  rcases hPlays₃.sync hActor (frameArg_isOn 0 0 _ _) hFrom hTo
    with ⟨s₄, hSync, hPlays₄⟩
  rcases waitLoop_plays (h := h) garbage 100 hClock₃ hPlays₄
    with ⟨w₅, s₅, hWait₅, hClock₅, hPlays₅⟩
  rw [List.map_cons, map_older_frameCast] at hPlays₅
  have hThere : (6 * 80 + 60 : UInt32).toUInt16 =
      markArg.location := by decide
  rcases hPlays₅.remove hThere with
    ⟨s₆, l₆, hRemove, hPlays₆⟩
  rcases waitLoop_plays (h := h) garbage 100 hClock₅ hPlays₆
    with ⟨w₇, s₇, hWait₇, _, hPlays₇⟩
  rw [map_older_frameCast] at hPlays₇
  refine ⟨(ece391Close fd w₇).2, s₇, l₆, ?_, ?_⟩
  · unfold fishLoops
    rw [hWrite]
    simp only [Option.bind_eq_bind, Option.bind_some, hWait₁,
      hWait₃, hSync, hWait₅, hRemove, hWait₇]
  · have hAddr : markArg.location.toNat <<< 1 =
        frameAddr 6 20 := by decide
    have hShown := synced_shownAt 0 0 (frameChar ls0 0 0)
      (frameChar ls1 0 0) ⟨markArg, 100⟩ rfl
    rw [← hAddr, ← hShown]
    exact hPlays₇

/- The descriptors below a bound are open, and no others. -/
def World.OpenBelow
    (n : Int)
    (w : World) : Prop :=
  ∀ fd, 2 ≤ fd → fd ≤ 7 → (w.table fd).flags =
    if fd < n then flagInUse else flagFree

theorem World.OpenBelow.freeFd
    {n : Int}
    (hOpen : w.OpenBelow n)
    (hLow : 2 ≤ n)
    (hHigh : n ≤ 7) :
    w.freeFd = some n := by
  have h2 := hOpen 2 (by decide) (by decide)
  have h3 := hOpen 3 (by decide) (by decide)
  have h4 := hOpen 4 (by decide) (by decide)
  have h5 := hOpen 5 (by decide) (by decide)
  have h6 := hOpen 6 (by decide) (by decide)
  have h7 := hOpen 7 (by decide) (by decide)
  have hCases : n = 2 ∨ n = 3 ∨ n = 4 ∨ n = 5 ∨ n = 6 ∨
      n = 7 := by
    omega
  rcases hCases with rfl | rfl | rfl | rfl | rfl | rfl
  all_goals simp [World.freeFd, h2, h3, h4, h5, h6, h7,
    flagInUse_ne_flagFree]

theorem World.OpenBelow.setEntry
    {n : Int}
    (hOpen : w.OpenBelow n)
    {e : FileEntry}
    (hUse : e.flags = flagInUse) :
    (w.setEntry n e).OpenBelow (n + 1) := by
  intro fd hLow hHigh
  by_cases hfd : fd = n
  · subst hfd
    rw [if_pos (by omega)]
    simp only [World.setEntry, Function.update_self]
    exact hUse
  · simp only [World.setEntry, Function.update_of_ne hfd]
    rw [hOpen fd hLow hHigh]
    by_cases hLt : fd < n
    · rw [if_pos hLt, if_pos (by omega)]
    · rw [if_neg hLt, if_neg (by omega)]

/- `open` of the clock, found or not. -/
theorem open_rtc
    (hOut : w.StdoutOpen)
    (hOpen : w.OpenBelow 2)
    (hRtc : ∀ file, h.fs.lookup (text "rtc") = some file →
      file.type = typeUserRtc) :
    ∃ n fd w', ece391Open h (literal "rtc") w = (fd, w') ∧
      2 ≤ n ∧ n ≤ 3 ∧ w'.OpenBelow n ∧ w'.StdoutOpen ∧
      w'.Clock fd := by
  have hName : (stringAt (literal "rtc")).chars =
      text "rtc" :=
    (spells_literal (by decide)).stringAt (by decide)
  cases hFile : h.fs.lookup (text "rtc") with
  | none =>
      refine ⟨2, -1, { w with calls := w.calls + 1 }, ?_,
        by decide, by decide, hOpen, hOut, .inl rfl⟩
      exact ece391Open_missing h (by rw [hName]; exact hFile)
  | some file =>
      have hType := hRtc file hFile
      have hFree := hOpen.freeFd (by decide) (by decide)
      refine ⟨3, 2, w.setEntry 2 (freshEntry file), ?_,
        by decide, by decide, hOpen.setEntry rfl,
        hOut.setEntry (by decide) _,
        .inr ⟨by decide, by decide, ?_, ?_⟩⟩
      · exact ece391Open_eq h (by rw [hName]; exact hFile)
          (by rw [hType]; decide) hFree
      · simp only [World.setEntry, Function.update_self]
        rfl
      · simp only [World.setEntry, Function.update_self,
          freshEntry, hType]
        rfl

/-
  The fish program ends, and leaves the first of its two
  frames and the `I` of its mark on the screen, with all
  else as it was.  The frames show something in their
  corner, which the mark is synchronised with, and nothing
  where the mark is.
-/
theorem fish_leaves_first_frame
    (hOut : w.StdoutOpen)
    (hNone : w.OpenBelow 2)
    (hRtc : ∀ file, h.fs.lookup (text "rtc") = some file →
      file.type = typeUserRtc)
    (hFile0 : FrameFile h.fs (literal "frame0.txt") file0)
    (hFile1 : FrameFile h.fs (literal "frame1.txt") file1)
    (hCorner :
      frameChar (h.fs.fileLines file0) 0 0 ≠ blank ∨
        frameChar (h.fs.fileLines file1) 0 0 ≠ blank)
    (hMark : frameChar (h.fs.fileLines file0) 6 20 = blank ∧
      frameChar (h.fs.fileLines file1) 6 20 = blank)
    {fuel : Nat}
    (hFuel : 40 < fuel)
    (garbage : Ptr)
    {mapped : Int}
    (hMapped : mapped ≠ -1)
    (vmem : Nat → UInt8) :
    ∃ w' s', fish h fuel garbage mapped vmem w =
        some (0, w', s') ∧
      ShowsFrames (h.fs.fileLines file0)
        (h.fs.fileLines file1)
        (Function.update vmem (frameAddr 6 20) 73) 400
        s'.vmem := by
  rcases open_rtc hOut hNone hRtc with
    ⟨n, fd, w₀, hOpened, hLow, hHigh, hOpen₀, hOut₀, hClock₀⟩
  have hFree0 := hOpen₀.freeFd hLow (by omega)
  have hOpen₁ := hOpen₀.setEntry (e := freshEntry file0) rfl
  have hFree1 := hOpen₁.freeFd (by omega) (by omega)
  rcases addFrames_plays hFile0 hFile1 hOut₀ hFree0 hFree1
      hClock₀ hFuel vmem with
    ⟨w₁, s₁, l₁, hAdd, hClock₁, hPlays₁⟩
  rcases fishLoops_plays (h := h) hFile0.fits hFile1.fits
      hCorner hMark hClock₁ hPlays₁ garbage with
    ⟨w₂, s₂, l₂, hLoops, hPlays₂⟩
  refine ⟨w₂, s₂, ?_,
    showsFrames_of_plays hFile0.fits hFile1.fits hPlays₂⟩
  simp only [fish, hMapped, if_false, hOpened, hAdd]
  exact hLoops

theorem startWorld_openBelow :
    startWorld.OpenBelow 2 := by
  intro fd hLow hHigh
  rw [if_neg (by omega)]
  have hCases : fd = 2 ∨ fd = 3 ∨ fd = 4 ∨ fd = 5 ∨
      fd = 6 ∨ fd = 7 := by
    omega
  rcases hCases with rfl | rfl | rfl | rfl | rfl | rfl
  all_goals decide

/- The character of the first frame stays. -/
theorem fish_leaves_first_frame_sample :
    ∃ w' s', fish (sampleHost frameFs "") 41 (fun _ => 0) 0
        (fun _ => 0) startWorld = some (0, w', s') ∧
      s'.vmem 80 = 47 := by
  rcases fish_leaves_first_frame
      (h := sampleHost frameFs "") (w := startWorld)
      ⟨by decide, by decide⟩ startWorld_openBelow
      (by
        intro file hFile
        rw [show (sampleHost frameFs "").fs.lookup
          (text "rtc") =
            some (frameFs.bootBlock.files 0) by rfl] at hFile
        cases hFile
        rfl)
      frameFile_first frameFile_second (by decide) (by decide)
      (show 40 < 41 by decide) (fun _ => 0)
      (show (0 : Int) ≠ -1 by decide) (fun _ => 0) with
    ⟨w', s', hFish, hShows⟩
  refine ⟨w', s', hFish, ?_⟩
  have hCorner := hShows.1 0 0 (by decide)
  rw [show frameAddr 0 0 = 80 from rfl] at hCorner
  rw [hCorner]
  decide

end Run

end MartianPendulum
