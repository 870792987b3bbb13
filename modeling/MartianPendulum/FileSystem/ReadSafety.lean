import MartianPendulum.FileSystem.ReadData

/-
  The checks and the arithmetic of `read_data`.

  Every `memcpy` of a read is listed with its size, so that
  the sizes can be compared with the value returned.  They
  agree as long as `offset + length` does not wrap.  The
  checks refuse some files that have nothing wrong with
  them: the inode number and the block index are compared
  with `MAX_FILES`, and the block table is checked up to the
  entry of the byte after the last.

  Key definitions include:
    * `Memcpy`
    * `readCopies`
    * `ReadSafe`
    * `FileSystem.BlocksOk`

  Key theorems include:
    * `readData_snd_eq_foldl`
    * `rangeOk_readEnd_iff`
    * `readSafe_iff`
    * `readData_succeeds_iff`
-/

------------------------------------------------------------
-- The Copies of a Read
------------------------------------------------------------

namespace MartianPendulum

/- A `memcpy` to an offset in the buffer. -/
structure Memcpy where
  dest : Nat
  src : Nat
  count : Nat

def Memcpy.apply
    (fs : FileSystem)
    (buf : Ptr)
    (m : Memcpy) : Ptr :=
  Logic.blit buf m.dest m.count (fs.memAt m.src)

/- The copies of the loop over whole blocks. -/
def blockCopies
    (fs : FileSystem)
    (inode : Nat) :
    Nat → Nat → Nat → List Memcpy
| 0, _, _ => []
| n + 1, i, pos =>
    { dest := pos
      src := fs.dataBlkPtr (fs.inodeBlock inode i)
      count := blockSize } ::
        blockCopies fs inode n (i + 1) (pos + blockSize)

/- The copies of the last part of `read_data`. -/
def rangeCopies
    (fs : FileSystem)
    (inode startBlkIdx endBlkIdx startOff endOff : Nat) :
    List Memcpy :=
  let startPtr :=
    fs.dataBlkPtr (fs.inodeBlock inode startBlkIdx)
  let blocks := endBlkIdx - (startBlkIdx + 1)
  if endBlkIdx ≠ startBlkIdx then
    { dest := 0
      src := startPtr + startOff
      count := blockSize - startOff } ::
    (blockCopies fs inode blocks (startBlkIdx + 1)
        (blockSize - startOff) ++
      [{ dest := blockSize - startOff + blocks * blockSize
         src :=
           fs.dataBlkPtr (fs.inodeBlock inode endBlkIdx)
         count := endOff }])
  else
    [{ dest := 0
       src := startPtr + startOff
       count := u32 ((endOff : Int) - startOff) }]

/- The copies of a call of `read_data`. -/
def readCopies
    (fs : FileSystem)
    (inode offset length : Nat) :
    List Memcpy :=
  let endByte := readEnd fs inode offset length
  if inode ≥ maxFiles then []
  else if fs.inodeLength inode ≤ offset then []
  else if offset / blockSize ≥ maxFiles then []
  else if endByte / blockSize ≥ maxFiles then []
  else if badBlock fs inode (offset / blockSize)
      (endByte / blockSize) then
    []
  else
    rangeCopies fs inode (offset / blockSize)
      (endByte / blockSize)
      (offset - offset / blockSize * blockSize)
      (endByte - endByte / blockSize * blockSize)

theorem copyBlocks_eq_foldl
    (fs : FileSystem)
    (inode n i pos : Nat)
    (buf : Ptr) :
    copyBlocks fs inode n i pos buf =
      (pos + n * blockSize,
        (blockCopies fs inode n i pos).foldl
          (Memcpy.apply fs) buf) := by
  induction n generalizing i pos buf with
  | zero => simp [copyBlocks, blockCopies]
  | succ n ih =>
      rw [copyBlocks, ih, blockCopies, List.foldl_cons,
        Nat.add_mul, Nat.one_mul]
      have hPos :
          pos + blockSize + n * blockSize =
            pos + (n * blockSize + blockSize) := by
        omega
      rw [hPos]
      rfl

theorem copyRange_eq_foldl
    (fs : FileSystem)
    (inode startBlkIdx endBlkIdx startOff endOff : Nat)
    (buf : Ptr) :
    copyRange fs inode startBlkIdx endBlkIdx startOff endOff
        buf =
      (rangeCopies fs inode startBlkIdx endBlkIdx startOff
        endOff).foldl (Memcpy.apply fs) buf := by
  by_cases hSame : endBlkIdx = startBlkIdx
  · subst hSame
    simp only [copyRange, rangeCopies, ne_eq,
      not_true_eq_false, if_false,
      Nat.sub_eq_zero_of_le (Nat.le_succ _), copyBlocks]
    rfl
  · simp only [copyRange, rangeCopies, ne_eq, hSame,
      Ne.symm hSame, not_false_eq_true, if_true,
      copyBlocks_eq_foldl, List.foldl_cons,
      List.foldl_append, List.foldl_nil]
    rfl

/- The buffer is changed by the listed copies only. -/
theorem readData_snd_eq_foldl
    (fs : FileSystem)
    (inode offset : Nat)
    (buf : Ptr)
    (length : Nat) :
    (readData fs inode offset buf length).2 =
      (readCopies fs inode offset length).foldl
        (Memcpy.apply fs) buf := by
  unfold readCopies
  by_cases hInode : inode ≥ maxFiles
  · rw [readData_of_maxFiles_le fs offset buf length hInode,
      if_pos hInode]
    rfl
  · rw [if_neg hInode]
    by_cases hOffset : fs.inodeLength inode ≤ offset
    · rw [readData_of_length_le fs buf length
        (Nat.not_le.mp hInode) hOffset, if_pos hOffset]
      rfl
    · rw [readData_inside fs buf length
        (Nat.not_le.mp hInode) (Nat.not_le.mp hOffset),
        if_neg hOffset]
      split
      · rfl
      · split
        · rfl
        · split
          · rfl
          · exact copyRange_eq_foldl fs inode _ _ _ _ buf

end MartianPendulum

------------------------------------------------------------
-- The Checks
------------------------------------------------------------

namespace MartianPendulum

/- The block numbers of a file are good. -/
def FileSystem.BlocksOk
    (fs : FileSystem)
    (inode : Nat) : Prop :=
  ∀ j,
    j < (fs.inodeLength inode + blockSize - 1) / blockSize →
      fs.inodeBlock inode j < fs.bootBlock.numDataBlocks

/- A file of one block. -/
theorem FileSystem.blocksOk_of_length_le
    (fs : FileSystem)
    {inode : Nat}
    (hLength : fs.inodeLength inode ≤ blockSize)
    (hBlock :
      fs.inodeBlock inode 0 < fs.bootBlock.numDataBlocks) :
    fs.BlocksOk inode := by
  intro j hj
  have hZero : j = 0 := by
    simp only [blockSize] at hLength hj
    omega
  subst hZero
  exact hBlock

/-
  The entry that a read up to the end of the file looks at
  behind the blocks of the file, if it is also a number of a
  block.  There is one only if the file fills its blocks.
-/
def FileSystem.NextEntryOk
    (fs : FileSystem)
    (inode offset length : Nat) : Prop :=
  fs.inodeLength inode ≤ offset + length →
    fs.inodeLength inode % blockSize = 0 →
      fs.inodeBlock inode
          (fs.inodeLength inode / blockSize) <
        fs.bootBlock.numDataBlocks

/- What the checks ask of a file with good blocks. -/
theorem rangeOk_readEnd_iff
    (fs : FileSystem)
    {inode offset length : Nat}
    (hBlocks : fs.BlocksOk inode)
    (hOffset : offset < fs.inodeLength inode)
    (hSum : offset + length < 2 ^ 32) :
    RangeOk fs inode offset
        (readEnd fs inode offset length) ↔
      min (offset + length) (fs.inodeLength inode) <
          maxFiles * blockSize ∧
        fs.NextEntryOk inode offset length := by
  have hEnd : readEnd fs inode offset length =
      min (offset + length) (fs.inodeLength inode) := by
    have hMin := readEnd_eq fs hOffset hSum
    omega
  rw [hEnd]
  constructor
  · intro hOk
    refine ⟨?_, ?_⟩
    · have hLt := hOk.end_lt
      rwa [Nat.div_lt_iff_lt_mul (by decide)] at hLt
    · intro hReach _
      have hMin :
          min (offset + length) (fs.inodeLength inode) =
            fs.inodeLength inode := by
        omega
      apply hOk.block_lt
      · exact Nat.div_le_div_right (by omega)
      · rw [hMin]
  · rintro ⟨hLt, hNext⟩
    refine ⟨?_, ?_, ?_⟩
    · rw [Nat.div_lt_iff_lt_mul (by decide)]
      omega
    · rwa [Nat.div_lt_iff_lt_mul (by decide)]
    · intro j _ hj
      by_cases hInside :
          j < (fs.inodeLength inode + blockSize - 1) /
            blockSize
      · exact hBlocks j hInside
      · -- the entry behind the last block of the file
        have hFull :
            fs.inodeLength inode % blockSize = 0 ∧
              fs.inodeLength inode ≤ offset + length ∧
              j = fs.inodeLength inode / blockSize := by
          simp only [blockSize] at hj hInside ⊢
          omega
        rw [hFull.2.2]
        exact hNext hFull.2.1 hFull.1

/-
  Exactly which reads of a good file do not fail: the inode
  number is below 63, and a read that starts in the file
  ends in the first 63 blocks and finds no bad entry behind
  the file.
-/
theorem readData_succeeds_iff
    (fs : FileSystem)
    (inode : Nat)
    (hBlocks : fs.BlocksOk inode)
    (offset length : Nat)
    (hSum : offset + length < 2 ^ 32)
    (buf : Ptr) :
    (readData fs inode offset buf length).1 ≠ -1 ↔
      inode < maxFiles ∧
        (fs.inodeLength inode ≤ offset ∨
          min (offset + length) (fs.inodeLength inode) <
              maxFiles * blockSize ∧
            fs.NextEntryOk inode offset length) := by
  by_cases hLarge : maxFiles ≤ inode
  · rw [readData_of_maxFiles_le fs offset buf length hLarge]
    refine iff_of_false (fun h => h rfl) ?_
    rintro ⟨hSmall, -⟩
    omega
  · have hSmall : inode < maxFiles := Nat.not_le.mp hLarge
    by_cases hOffset : fs.inodeLength inode ≤ offset
    · rw [readData_of_length_le fs buf length hSmall hOffset]
      exact iff_of_true (by simp)
        ⟨hSmall, Or.inl hOffset⟩
    · have hStart := Nat.not_le.mp hOffset
      rw [← rangeOk_readEnd_iff fs hBlocks hStart hSum]
      by_cases hOk : RangeOk fs inode offset
          (readEnd fs inode offset length)
      · rw [readData_delivered fs buf hSmall hStart hSum hOk]
        exact iff_of_true (by omega)
          ⟨hSmall, Or.inr hOk⟩
      · rw [readData_of_not_rangeOk fs buf hSmall hStart hOk]
        refine iff_of_false (fun h => h rfl) ?_
        rintro ⟨-, hEnd | hGood⟩
        · exact hOffset hEnd
        · exact hOk hGood

/-
  A file that fills its only block.  The next entry of its
  block table is not the number of a block.
-/
def fullBlockFs : FileSystem :=
  { bootBlock :=
      { numDirEntries := 1
        numInodes := 1
        numDataBlocks := 1
        files := sampleFs.bootBlock.files }
    fsBlocks := fun off =>
      if off = 4097 then 16
      else if off = 4104 then 99
      else 0 }

theorem fullBlockFs_blocksOk :
    fullBlockFs.BlocksOk 0 :=
  fullBlockFs.blocksOk_of_length_le (by decide) (by decide)

/- All but the last byte of the file can be read. -/
theorem readData_succeeds_iff_fullBlockFs :
    (readData fullBlockFs 0 0 (fun _ => 0) 4095).1 ≠ -1 := by
  rw [readData_succeeds_iff fullBlockFs 0
    fullBlockFs_blocksOk 0 4095 (by decide)]
  refine ⟨by decide, Or.inr ⟨by decide, ?_⟩⟩
  intro hReach
  exact absurd hReach (by decide)

/- `MAX_FILE_SIZE` -/
def maxFileSize : Nat := 1023 * 4 * 1024

/- The whole of it cannot. -/
theorem readData_refuses_good_file :
    ¬ ∀ (fs : FileSystem) (inode : Nat),
      inode < fs.bootBlock.numInodes →
      fs.inodeLength inode ≤ maxFileSize →
      fs.BlocksOk inode →
      ∀ offset length buf, offset + length < 2 ^ 32 →
        (readData fs inode offset buf length).1 ≠ -1 := by
  intro hAll
  exact hAll fullBlockFs 0 (by decide) (by decide)
    fullBlockFs_blocksOk 0 4096 (fun _ => 0) (by decide)
    (by decide)

end MartianPendulum

------------------------------------------------------------
-- The Arithmetic
------------------------------------------------------------

namespace MartianPendulum

/- The number of bytes that copies copy. -/
def totalCount
    (copies : List Memcpy) : Nat :=
  (copies.map Memcpy.count).sum

/- The variable `end`, if `read_data` gets to it. -/
def computedEnd
    (fs : FileSystem)
    (inode offset length : Nat) : Option Nat :=
  if inode ≥ maxFiles then none
  else if fs.inodeLength inode ≤ offset then none
  else if offset / blockSize ≥ maxFiles then none
  else some (readEnd fs inode offset length)

/-
  The end of a read does not lie before its start, no copy
  is larger than a block, and the value returned is the
  number of bytes copied.  It is at most what was asked for
  and what the file has.
-/
structure ReadSafe
    (fs : FileSystem)
    (inode offset length : Nat)
    (buf : Ptr) : Prop where
  end_ge : ∀ e,
    computedEnd fs inode offset length = some e → offset ≤ e
  count_le : ∀ m ∈ readCopies fs inode offset length,
    m.count ≤ 4096
  total_eq :
    (totalCount (readCopies fs inode offset length) : Int) =
      (readData fs inode offset buf length).1
  le_length :
    (readData fs inode offset buf length).1 ≤ length
  le_rest : offset < fs.inodeLength inode →
    (readData fs inode offset buf length).1 ≤
      (fs.inodeLength inode : Int) - offset

theorem totalCount_blockCopies
    (fs : FileSystem)
    (inode n i pos : Nat) :
    totalCount (blockCopies fs inode n i pos) =
      n * blockSize := by
  induction n generalizing i pos with
  | zero => simp [totalCount, blockCopies]
  | succ n ih =>
      have hRest := ih (i + 1) (pos + blockSize)
      unfold totalCount at hRest ⊢
      rw [blockCopies, List.map_cons, List.sum_cons, hRest,
        Nat.add_mul, Nat.one_mul, Nat.add_comm]

theorem count_blockCopies
    (fs : FileSystem)
    (inode n i pos : Nat) :
    ∀ m ∈ blockCopies fs inode n i pos,
      m.count = blockSize := by
  induction n generalizing i pos with
  | zero => simp [blockCopies]
  | succ n ih =>
      rw [blockCopies]
      intro m hm
      rcases List.mem_cons.mp hm with rfl | hRest
      · rfl
      · exact ih (i + 1) (pos + blockSize) m hRest

/- The copies of a range, without a wrapped end. -/
theorem rangeCopies_spec
    (fs : FileSystem)
    (inode : Nat)
    {offset endByte : Nat}
    (hLe : offset ≤ endByte) :
    let copies := rangeCopies fs inode
      (offset / blockSize) (endByte / blockSize)
      (offset - offset / blockSize * blockSize)
      (endByte - endByte / blockSize * blockSize)
    totalCount copies = endByte - offset ∧
      ∀ m ∈ copies, m.count ≤ 4096 := by
  intro copies
  by_cases hSame :
      endByte / blockSize = offset / blockSize
  · have hCount :
        u32 (((endByte - offset / blockSize * blockSize :
            Nat) : Int) -
          (offset - offset / blockSize * blockSize : Nat)) =
          endByte - offset := by
      unfold u32
      simp only [blockSize] at hSame ⊢
      omega
    simp only [copies, rangeCopies, hSame, ne_eq,
      not_true_eq_false, if_false, hCount]
    refine ⟨by simp [totalCount], ?_⟩
    intro m hm
    rw [List.mem_singleton] at hm
    subst hm
    simp only [blockSize] at hSame ⊢
    omega
  · have hLt : offset / blockSize < endByte / blockSize :=
      lt_of_le_of_ne (Nat.div_le_div_right hLe)
        (Ne.symm hSame)
    have hBlocks := totalCount_blockCopies fs inode
      (endByte / blockSize - (offset / blockSize + 1))
      (offset / blockSize + 1)
      (blockSize - (offset - offset / blockSize * blockSize))
    unfold totalCount at hBlocks ⊢
    simp only [copies, rangeCopies, hSame, ne_eq,
      not_false_eq_true, if_true, List.map_cons,
      List.map_append, List.map_nil, List.sum_cons,
      List.sum_append, List.sum_nil, hBlocks]
    constructor
    · simp only [blockSize] at hLt ⊢
      omega
    · intro m hm
      rw [List.mem_cons, List.mem_append,
        List.mem_singleton] at hm
      rcases hm with rfl | hBlock | rfl
      · simp only [blockSize]
        omega
      · rw [count_blockCopies fs inode _ _ _ m hBlock]
        exact le_rfl
      · simp only [blockSize]
        omega

/- A read at or past the end of the file copies nothing. -/
theorem readSafe_of_length_le
    (fs : FileSystem)
    {inode offset : Nat}
    (length : Nat)
    (buf : Ptr)
    (hInode : inode < maxFiles)
    (hEnd : fs.inodeLength inode ≤ offset) :
    ReadSafe fs inode offset length buf := by
  have hRead := readData_of_length_le fs buf length hInode
    hEnd
  have hCopies : readCopies fs inode offset length = [] := by
    rw [readCopies, if_neg (Nat.not_le.mpr hInode),
      if_pos hEnd]
  refine ⟨?_, ?_, ?_, ?_, ?_⟩
  · rw [computedEnd, if_neg (Nat.not_le.mpr hInode),
      if_pos hEnd]
    intro e he
    cases he
  · rw [hCopies]
    intro m hm
    cases hm
  · rw [hCopies, hRead]
    rfl
  · rw [hRead]
    exact Int.natCast_nonneg length
  · intro hInside
    omega

/- A read that passes the checks, without wrapping. -/
theorem readSafe_of_rangeOk
    (fs : FileSystem)
    {inode offset length : Nat}
    (buf : Ptr)
    (hInode : inode < maxFiles)
    (hOffset : offset < fs.inodeLength inode)
    (hSum : offset + length < 2 ^ 32)
    (hOk : RangeOk fs inode offset
      (readEnd fs inode offset length)) :
    ReadSafe fs inode offset length buf := by
  have hRead := readData_delivered fs buf hInode hOffset
    hSum hOk
  have hEnd := readEnd_eq fs hOffset hSum
  have hLe : offset ≤ readEnd fs inode offset length := by
    omega
  have hGood := (badBlock_eq_false_iff fs inode _ _).mpr
    hOk.block_lt
  have hCopies : readCopies fs inode offset length =
      rangeCopies fs inode (offset / blockSize)
        (readEnd fs inode offset length / blockSize)
        (offset - offset / blockSize * blockSize)
        (readEnd fs inode offset length -
          readEnd fs inode offset length / blockSize *
            blockSize) := by
    simp only [readCopies]
    rw [if_neg (Nat.not_le.mpr hInode),
      if_neg (Nat.not_le.mpr hOffset),
      if_neg (Nat.not_le.mpr hOk.start_lt),
      if_neg (Nat.not_le.mpr hOk.end_lt), hGood,
      if_neg Bool.false_ne_true]
  rcases rangeCopies_spec fs inode hLe with
    ⟨hTotal, hCounts⟩
  refine ⟨?_, ?_, ?_, ?_, ?_⟩
  · intro e he
    rw [computedEnd, if_neg (Nat.not_le.mpr hInode),
      if_neg (Nat.not_le.mpr hOffset),
      if_neg (Nat.not_le.mpr hOk.start_lt)] at he
    cases he
    exact hLe
  · rw [hCopies]
    exact hCounts
  · rw [hCopies, hRead, hTotal]
    omega
  · rw [hRead]
    omega
  · intro _
    rw [hRead]
    omega

/- A read whose end wraps ends before it starts. -/
theorem not_readSafe_of_wrap
    (fs : FileSystem)
    {inode offset length : Nat}
    (buf : Ptr)
    (hInode : inode < maxFiles)
    (hSize : fs.inodeLength inode < maxFiles * blockSize)
    (hOffset : offset < fs.inodeLength inode)
    (hLength : length < 2 ^ 32)
    (hWrap : 2 ^ 32 ≤ offset + length) :
    ¬ ReadSafe fs inode offset length buf := by
  intro hSafe
  have hStart : ¬ offset / blockSize ≥ maxFiles := by
    rw [ge_iff_le, Nat.not_le,
      Nat.div_lt_iff_lt_mul (by decide)]
    omega
  have hLow : u32 ((offset : Int) + length) < offset := by
    simp only [maxFiles, blockSize] at hSize
    unfold u32
    omega
  have hEnd : readEnd fs inode offset length < offset := by
    rw [readEnd, if_neg (by omega)]
    exact hLow
  have hGe := hSafe.end_ge
    (readEnd fs inode offset length) (by
      rw [computedEnd, if_neg (Nat.not_le.mpr hInode),
        if_neg (Nat.not_le.mpr hOffset), if_neg hStart])
  omega

/-
  Exactly which requests are safe on a good file of less
  than 63 blocks: the inode number is below 63, and a
  request that starts in the file does not wrap and finds no
  bad entry behind the file.
-/
theorem readSafe_iff
    (fs : FileSystem)
    (inode : Nat)
    (hSize : fs.inodeLength inode < maxFiles * blockSize)
    (hBlocks : fs.BlocksOk inode)
    (offset length : Nat)
    (hLength : length < 2 ^ 32)
    (buf : Ptr) :
    ReadSafe fs inode offset length buf ↔
      inode < maxFiles ∧
        (fs.inodeLength inode ≤ offset ∨
          offset + length < 2 ^ 32 ∧
            fs.NextEntryOk inode offset length) := by
  constructor
  · intro hSafe
    -- a failed read returns -1 and has copied nothing
    have hRead :
        (readData fs inode offset buf length).1 ≠ -1 := by
      have hTotal := hSafe.total_eq
      omega
    have hInode : inode < maxFiles := by
      by_contra hLarge
      rw [readData_of_maxFiles_le fs offset buf length
        (Nat.not_lt.mp hLarge)] at hRead
      exact hRead rfl
    refine ⟨hInode, ?_⟩
    by_cases hOffset : fs.inodeLength inode ≤ offset
    · exact Or.inl hOffset
    · have hStart := Nat.not_le.mp hOffset
      by_cases hSum : offset + length < 2 ^ 32
      · refine Or.inr ⟨hSum, ?_⟩
        by_contra hNext
        rw [readData_of_not_rangeOk fs buf hInode hStart
          (by
            rw [rangeOk_readEnd_iff fs hBlocks hStart hSum]
            exact fun h => hNext h.2)] at hRead
        exact hRead rfl
      · exact absurd hSafe
          (not_readSafe_of_wrap fs buf hInode hSize hStart
            hLength (Nat.not_lt.mp hSum))
  · rintro ⟨hInode, hEnd | ⟨hSum, hNext⟩⟩
    · exact readSafe_of_length_le fs length buf hInode hEnd
    · by_cases hOffset : fs.inodeLength inode ≤ offset
      · exact readSafe_of_length_le fs length buf hInode
          hOffset
      · have hStart := Nat.not_le.mp hOffset
        apply readSafe_of_rangeOk fs buf hInode hStart hSum
        rw [rangeOk_readEnd_iff fs hBlocks hStart hSum]
        exact ⟨by omega, hNext⟩

theorem sampleFs_blocksOk :
    sampleFs.BlocksOk 0 :=
  sampleFs.blocksOk_of_length_le (by decide) (by decide)

/- At the start of the file even a length of -1 is safe. -/
theorem readSafe_iff_sampleFs :
    ReadSafe sampleFs 0 0 (2 ^ 32 - 1) (fun _ => 0) := by
  rw [readSafe_iff sampleFs 0 (by decide) sampleFs_blocksOk
    0 (2 ^ 32 - 1) (by decide)]
  refine ⟨by decide, Or.inr ⟨by decide, ?_⟩⟩
  intro _ hFull
  exact absurd hFull (by decide)

/- After ten bytes a length of -5 ends before the start. -/
theorem read_end_wraps :
    ¬ ∀ (fs : FileSystem) (inode : Nat),
      fs.inodeLength inode < maxFiles * blockSize →
      fs.BlocksOk inode →
      ∀ offset length buf, offset < 2 ^ 32 →
        length < 2 ^ 32 →
          ReadSafe fs inode offset length buf := by
  intro hAll
  have hSafe := hAll sampleFs 0 (by decide)
    sampleFs_blocksOk 10 (2 ^ 32 - 5) (fun _ => 0)
    (by decide) (by decide)
  have hGe := hSafe.end_ge 5 (by decide)
  omega

end MartianPendulum
