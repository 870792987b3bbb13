import MartianPendulum.FileSystem.Image

/-
  `read_data`: a byte range of a file, copied block by block
  through the block table of its inode.

  Key definitions include:
    * `copyRange`
    * `readData`
    * `readEnd`
    * `RangeOk`
    * `FileSystem.fileByte`

  Key theorems include:
    * `copyRange_eq_blit`
    * `readData_of_rangeOk`
    * `readData_of_not_rangeOk`
    * `readData_eq`
    * `readData_delivers_file`
-/

------------------------------------------------------------
-- The Routine
------------------------------------------------------------

namespace MartianPendulum

/-
  The loop over the whole blocks between the first and the
  last one.  `n` blocks are left, `i` is the next one and
  `pos` is how far `buf` has been advanced.
-/
def copyBlocks
    (fs : FileSystem)
    (inode : Nat) :
    Nat → Nat → Nat → Ptr → Nat × Ptr
| 0, _, pos, buf => (pos, buf)
| n + 1, i, pos, buf =>
    copyBlocks fs inode n (i + 1) (pos + blockSize)
      (Logic.blit buf pos blockSize
        (fs.memAt (fs.dataBlkPtr (fs.inodeBlock inode i))))

/-
  The copying part of `read_data`: the rest of the first
  block, the whole blocks, the start of the last block.
-/
def copyRange
    (fs : FileSystem)
    (inode startBlkIdx endBlkIdx startOff endOff : Nat)
    (buf : Ptr) : Ptr :=
  let startPtr :=
    fs.dataBlkPtr (fs.inodeBlock inode startBlkIdx)
  let head : Nat × Ptr :=
    if endBlkIdx ≠ startBlkIdx then
      (blockSize - startOff,
        Logic.blit buf 0 (blockSize - startOff)
          (fs.memAt (startPtr + startOff)))
    else
      (0,
        Logic.blit buf 0 (u32 ((endOff : Int) - startOff))
          (fs.memAt (startPtr + startOff)))
  let middle :=
    copyBlocks fs inode (endBlkIdx - (startBlkIdx + 1))
      (startBlkIdx + 1) head.1 head.2
  if startBlkIdx ≠ endBlkIdx then
    Logic.blit middle.2 middle.1 endOff
      (fs.memAt
        (fs.dataBlkPtr (fs.inodeBlock inode endBlkIdx)))
  else middle.2

/- The check for bad data block numbers. -/
def badBlock
    (fs : FileSystem)
    (inode startBlkIdx endBlkIdx : Nat) : Bool :=
  (List.range' startBlkIdx
    (endBlkIdx + 1 - startBlkIdx)).any
    (fun j =>
      decide (fs.inodeBlock inode j ≥
        fs.bootBlock.numDataBlocks))

/-
  `read_data`: the returned `int32_t` and the buffer.  The
  arguments are `uint32_t` values.
-/
def readData
    (fs : FileSystem)
    (inode offset : Nat)
    (buf : Ptr)
    (length : Nat) :
    Int × Ptr :=
  if inode ≥ maxFiles then (-1, buf)
  else if fs.inodeLength inode ≤ offset then (0, buf)
  else
    let startBlkIdx := offset / blockSize
    if startBlkIdx ≥ maxFiles then (-1, buf)
    else
      let startOff := offset - offset / blockSize * blockSize
      let endByte :=
        if u32 (offset + length) ≥ fs.inodeLength inode then
          fs.inodeLength inode
        else u32 (offset + length)
      let endBlkIdx := endByte / blockSize
      if endBlkIdx ≥ maxFiles then (-1, buf)
      else
        let endOff :=
          endByte - endByte / blockSize * blockSize
        if badBlock fs inode startBlkIdx endBlkIdx then
          (-1, buf)
        else
          (s32 (u32 ((endByte : Int) - offset)),
            copyRange fs inode startBlkIdx endBlkIdx
              startOff endOff buf)

end MartianPendulum

------------------------------------------------------------
-- Byte View of a File
------------------------------------------------------------

namespace MartianPendulum

/-
  Byte `k` of a file is byte `k % 4096` of the data block
  that entry `k / 4096` of the block table names.
-/
def FileSystem.fileByte
    (fs : FileSystem)
    (inode k : Nat) : UInt8 :=
  fs.memAt
    (fs.dataBlkPtr (fs.inodeBlock inode (k / blockSize)))
    (k % blockSize)

/- A file byte of a block. -/
theorem fileByte_block
    (fs : FileSystem)
    (inode i : Nat)
    {k : Nat}
    (hk : k < blockSize) :
    fs.fileByte inode (i * blockSize + k) =
      fs.memAt
        (fs.dataBlkPtr (fs.inodeBlock inode i)) k := by
  have hDiv : (i * blockSize + k) / blockSize = i := by
    simp only [blockSize] at hk ⊢
    omega
  have hMod : (i * blockSize + k) % blockSize = k := by
    simp only [blockSize] at hk ⊢
    omega
  simp only [FileSystem.fileByte, hDiv, hMod]

/- The start of a block copied behind the bytes before it. -/
theorem blit_block
    (fs : FileSystem)
    (inode offset : Nat)
    (buf : Ptr)
    {i n : Nat}
    (hStart : offset ≤ i * blockSize)
    (hn : n ≤ blockSize) :
    Logic.blit
        (Logic.blit buf 0 (i * blockSize - offset)
          (fun k => fs.fileByte inode (offset + k)))
        (i * blockSize - offset) n
        (fs.memAt
          (fs.dataBlkPtr (fs.inodeBlock inode i))) =
      Logic.blit buf 0 (i * blockSize - offset + n)
        (fun k => fs.fileByte inode (offset + k)) := by
  rw [← Logic.blit_append, Nat.zero_add]
  apply Logic.blit_congr
  intro k hk
  have hPos :
      offset + (i * blockSize - offset + k) =
        i * blockSize + k := by
    omega
  rw [hPos, fileByte_block fs inode i (by omega)]

/-
  The whole-block loop continues a copy of the file that
  has reached a block boundary.
-/
theorem copyBlocks_eq_blit
    (fs : FileSystem)
    (inode offset : Nat)
    (buf : Ptr)
    (n i : Nat)
    (hStart : offset ≤ i * blockSize) :
    copyBlocks fs inode n i (i * blockSize - offset)
        (Logic.blit buf 0 (i * blockSize - offset)
          (fun k => fs.fileByte inode (offset + k))) =
      ((i + n) * blockSize - offset,
        Logic.blit buf 0 ((i + n) * blockSize - offset)
          (fun k => fs.fileByte inode (offset + k))) := by
  induction n generalizing i with
  | zero => rfl
  | succ n ih =>
      have hNext :
          i * blockSize - offset + blockSize =
            (i + 1) * blockSize - offset := by
        rw [Nat.add_mul]
        omega
      have hBlock := blit_block fs inode offset buf hStart
        (Nat.le_refl blockSize)
      rw [hNext] at hBlock
      rw [copyBlocks, hBlock, hNext, ih (i + 1) (by
        rw [Nat.add_mul]
        omega)]
      have hIdx : i + 1 + n = i + (n + 1) := by omega
      rw [hIdx]

/- Memory at an offset into a block, read as file bytes. -/
theorem memAt_startOff
    (fs : FileSystem)
    (inode offset k : Nat)
    (hk : k < blockSize - offset % blockSize) :
    fs.memAt
        (fs.dataBlkPtr
          (fs.inodeBlock inode (offset / blockSize)) +
            (offset - offset / blockSize * blockSize)) k =
      fs.fileByte inode (offset + k) := by
  have hDiv :
      (offset + k) / blockSize = offset / blockSize := by
    simp only [blockSize] at hk ⊢
    omega
  have hMod :
      (offset + k) % blockSize =
        offset - offset / blockSize * blockSize + k := by
    simp only [blockSize] at hk ⊢
    omega
  simp only [FileSystem.fileByte, FileSystem.memAt, hDiv,
    hMod]
  congr 2
  omega

/- A range inside one block is one copy. -/
theorem copyRange_of_same_block
    (fs : FileSystem)
    (inode offset endByte : Nat)
    (buf : Ptr)
    (hLe : offset ≤ endByte)
    (hSame : endByte / blockSize = offset / blockSize) :
    copyRange fs inode
        (offset / blockSize) (endByte / blockSize)
        (offset - offset / blockSize * blockSize)
        (endByte - endByte / blockSize * blockSize) buf =
      Logic.blit buf 0 (endByte - offset)
        (fun k => fs.fileByte inode (offset + k)) := by
  have hCount :
      u32 (((endByte - offset / blockSize * blockSize :
          Nat) : Int) -
        (offset - offset / blockSize * blockSize : Nat)) =
        endByte - offset := by
    unfold u32
    simp only [blockSize] at hSame ⊢
    omega
  unfold copyRange
  simp only [hSame, ne_eq, not_true_eq_false, if_false,
    Nat.sub_eq_zero_of_le (Nat.le_succ _), copyBlocks]
  rw [hCount]
  apply Logic.blit_congr
  intro k hk
  apply memAt_startOff
  simp only [blockSize] at hSame hk ⊢
  omega

/-
  A range over several blocks: the head reaches the first
  boundary, the loop the last one, the tail the end.
-/
theorem copyRange_of_lt_block
    (fs : FileSystem)
    (inode offset endByte : Nat)
    (buf : Ptr)
    (hLt : offset / blockSize < endByte / blockSize) :
    copyRange fs inode
        (offset / blockSize) (endByte / blockSize)
        (offset - offset / blockSize * blockSize)
        (endByte - endByte / blockSize * blockSize) buf =
      Logic.blit buf 0 (endByte - offset)
        (fun k => fs.fileByte inode (offset + k)) := by
  have hAdvance :
      blockSize -
          (offset - offset / blockSize * blockSize) =
        (offset / blockSize + 1) * blockSize - offset := by
    simp only [blockSize]
    omega
  have hFirst :
      Logic.blit buf 0
          ((offset / blockSize + 1) * blockSize - offset)
          (fs.memAt
            (fs.dataBlkPtr
              (fs.inodeBlock inode (offset / blockSize)) +
                (offset -
                  offset / blockSize * blockSize))) =
        Logic.blit buf 0
          ((offset / blockSize + 1) * blockSize - offset)
          (fun k => fs.fileByte inode (offset + k)) := by
    apply Logic.blit_congr
    intro k hk
    apply memAt_startOff
    simp only [blockSize] at hk ⊢
    omega
  have hBlocks :
      offset / blockSize + 1 +
          (endByte / blockSize -
            (offset / blockSize + 1)) =
        endByte / blockSize := by
    omega
  have hTotal :
      endByte - offset =
        endByte / blockSize * blockSize - offset +
          (endByte - endByte / blockSize * blockSize) := by
    simp only [blockSize] at hLt ⊢
    omega
  unfold copyRange
  simp only [ne_eq, hLt.ne, hLt.ne', not_false_eq_true,
    if_true, hAdvance, hFirst]
  rw [copyBlocks_eq_blit fs inode offset buf _ _ (by
      simp only [blockSize]
      omega),
    hBlocks, hTotal]
  apply blit_block
  · simp only [blockSize] at hLt ⊢
    omega
  · simp only [blockSize]
    omega

/- The copying part copies the bytes up to `endByte`. -/
theorem copyRange_eq_blit
    (fs : FileSystem)
    (inode offset endByte : Nat)
    (buf : Ptr)
    (hLe : offset ≤ endByte) :
    copyRange fs inode
        (offset / blockSize) (endByte / blockSize)
        (offset - offset / blockSize * blockSize)
        (endByte - endByte / blockSize * blockSize) buf =
      Logic.blit buf 0 (endByte - offset)
        (fun k => fs.fileByte inode (offset + k)) := by
  rcases (Nat.div_le_div_right hLe).lt_or_eq with
    hLt | hEq
  · exact copyRange_of_lt_block fs inode offset endByte
      buf hLt
  · exact copyRange_of_same_block fs inode offset endByte
      buf hLe hEq.symm

end MartianPendulum

------------------------------------------------------------
-- Specification
------------------------------------------------------------

namespace MartianPendulum

/- Reading at or past the end of the file delivers nothing. -/
theorem readData_of_length_le
    (fs : FileSystem)
    {inode offset : Nat}
    (buf : Ptr)
    (length : Nat)
    (hInode : inode < maxFiles)
    (hEnd : fs.inodeLength inode ≤ offset) :
    readData fs inode offset buf length = (0, buf) := by
  rw [readData, if_neg (Nat.not_le.mpr hInode), if_pos hEnd]

/- The byte after the last one of a read. -/
def readEnd
    (fs : FileSystem)
    (inode offset length : Nat) : Nat :=
  if u32 (offset + length) ≥ fs.inodeLength inode then
    fs.inodeLength inode
  else u32 (offset + length)

/-
  The checks of `read_data` on a range: both ends are in the
  first 63 blocks and no block number between them is bad.
-/
structure RangeOk
    (fs : FileSystem)
    (inode offset endByte : Nat) : Prop where
  start_lt : offset / blockSize < maxFiles
  end_lt : endByte / blockSize < maxFiles
  block_lt : ∀ j, offset / blockSize ≤ j →
    j ≤ endByte / blockSize →
      fs.inodeBlock inode j < fs.bootBlock.numDataBlocks

theorem badBlock_eq_false_iff
    (fs : FileSystem)
    (inode startBlkIdx endBlkIdx : Nat) :
    badBlock fs inode startBlkIdx endBlkIdx = false ↔
      ∀ j, startBlkIdx ≤ j → j ≤ endBlkIdx →
        fs.inodeBlock inode j <
          fs.bootBlock.numDataBlocks := by
  rw [badBlock, List.any_eq_false]
  simp only [List.mem_range'_1, decide_eq_true_eq, ge_iff_le,
    Nat.not_le]
  constructor
  · intro hAll j hStart hEnd
    exact hAll j ⟨hStart, by omega⟩
  · intro hAll j hj
    exact hAll j hj.1 (by omega)

/- The checks of a read that starts inside the file. -/
theorem readData_inside
    (fs : FileSystem)
    {inode offset : Nat}
    (buf : Ptr)
    (length : Nat)
    (hInode : inode < maxFiles)
    (hOffset : offset < fs.inodeLength inode) :
    readData fs inode offset buf length =
      if offset / blockSize ≥ maxFiles then (-1, buf)
      else if readEnd fs inode offset length / blockSize ≥
          maxFiles then
        (-1, buf)
      else if badBlock fs inode (offset / blockSize)
          (readEnd fs inode offset length / blockSize) then
        (-1, buf)
      else
        (s32 (u32
            ((readEnd fs inode offset length : Int) -
              offset)),
          copyRange fs inode (offset / blockSize)
            (readEnd fs inode offset length / blockSize)
            (offset - offset / blockSize * blockSize)
            (readEnd fs inode offset length -
              readEnd fs inode offset length / blockSize *
                blockSize)
            buf) := by
  rw [readData, if_neg (Nat.not_le.mpr hInode),
    if_neg (Nat.not_le.mpr hOffset)]
  rfl

theorem readData_of_rangeOk
    (fs : FileSystem)
    {inode offset length : Nat}
    (buf : Ptr)
    (hInode : inode < maxFiles)
    (hOffset : offset < fs.inodeLength inode)
    (hOk : RangeOk fs inode offset
      (readEnd fs inode offset length)) :
    readData fs inode offset buf length =
      (s32 (u32
          ((readEnd fs inode offset length : Int) - offset)),
        copyRange fs inode (offset / blockSize)
          (readEnd fs inode offset length / blockSize)
          (offset - offset / blockSize * blockSize)
          (readEnd fs inode offset length -
            readEnd fs inode offset length / blockSize *
              blockSize)
          buf) := by
  have hGood := (badBlock_eq_false_iff fs inode _ _).mpr
    hOk.block_lt
  rw [readData_inside fs buf length hInode hOffset,
    if_neg (Nat.not_le.mpr hOk.start_lt),
    if_neg (Nat.not_le.mpr hOk.end_lt), hGood,
    if_neg Bool.false_ne_true]

theorem readData_of_not_rangeOk
    (fs : FileSystem)
    {inode offset length : Nat}
    (buf : Ptr)
    (hInode : inode < maxFiles)
    (hOffset : offset < fs.inodeLength inode)
    (hBad : ¬ RangeOk fs inode offset
      (readEnd fs inode offset length)) :
    readData fs inode offset buf length = (-1, buf) := by
  rw [readData_inside fs buf length hInode hOffset]
  split
  · rfl
  next hStart =>
    split
    · rfl
    next hEnd =>
      split
      · rfl
      next hGood =>
        rw [Bool.not_eq_true, badBlock_eq_false_iff]
          at hGood
        exact absurd ⟨Nat.not_le.mp hStart,
          Nat.not_le.mp hEnd, hGood⟩ hBad

theorem readData_of_maxFiles_le
    (fs : FileSystem)
    {inode : Nat}
    (offset : Nat)
    (buf : Ptr)
    (length : Nat)
    (hInode : maxFiles ≤ inode) :
    readData fs inode offset buf length = (-1, buf) := by
  rw [readData, if_pos hInode]

/- Without wrapping, the end is cut at the end of the file. -/
theorem readEnd_eq
    (fs : FileSystem)
    {inode offset length : Nat}
    (hOffset : offset < fs.inodeLength inode)
    (hSum : offset + length < 2 ^ 32) :
    readEnd fs inode offset length =
      offset +
        min length (fs.inodeLength inode - offset) := by
  have hWrap : u32 ((offset : Int) + length) =
      offset + length := by
    exact_mod_cast u32_of_lt hSum
  rw [readEnd, hWrap]
  split <;> omega

/-
  A read that passes the checks delivers the requested
  bytes, cut at the end of the file.
-/
theorem readData_delivered
    (fs : FileSystem)
    {inode offset length : Nat}
    (buf : Ptr)
    (hInode : inode < maxFiles)
    (hOffset : offset < fs.inodeLength inode)
    (hSum : offset + length < 2 ^ 32)
    (hOk : RangeOk fs inode offset
      (readEnd fs inode offset length)) :
    readData fs inode offset buf length =
      (((min length (fs.inodeLength inode - offset) : Nat) :
          Int),
        Logic.blit buf 0
          (min length (fs.inodeLength inode - offset))
          (fun k => fs.fileByte inode (offset + k))) := by
  have hEndIdx := hOk.end_lt
  have hEnd := readEnd_eq fs hOffset hSum
  rw [readData_of_rangeOk fs buf hInode hOffset hOk]
  rw [hEnd] at hEndIdx ⊢
  simp only [blockSize, maxFiles] at hEndIdx
  have hCount :
      u32 (((offset +
          min length (fs.inodeLength inode - offset) :
            Nat) : Int) - offset) =
        min length (fs.inodeLength inode - offset) := by
    unfold u32
    omega
  rw [hCount, s32_of_lt (by omega),
    copyRange_eq_blit fs inode offset _ buf
      (Nat.le_add_right _ _), Nat.add_sub_cancel_left]

/-
  A file whose blocks are good up to its end is delivered
  from any offset inside it.
-/
theorem readData_eq
    (fs : FileSystem)
    {inode offset length : Nat}
    (buf : Ptr)
    (hInode : inode < maxFiles)
    (hOffset : offset < fs.inodeLength inode)
    (hSum : offset + length < 2 ^ 32)
    (hLength :
      fs.inodeLength inode < maxFiles * blockSize)
    (hBlocks :
      ∀ j, j ≤ fs.inodeLength inode / blockSize →
        fs.inodeBlock inode j <
          fs.bootBlock.numDataBlocks) :
    readData fs inode offset buf length =
      (((min length (fs.inodeLength inode - offset) : Nat) :
          Int),
        Logic.blit buf 0
          (min length (fs.inodeLength inode - offset))
          (fun k => fs.fileByte inode (offset + k))) := by
  apply readData_delivered fs buf hInode hOffset hSum
  have hEnd := readEnd_eq fs hOffset hSum
  have hLe : readEnd fs inode offset length ≤
      fs.inodeLength inode := by
    omega
  have hDiv := Nat.div_le_div_right (c := blockSize) hLe
  refine ⟨?_, ?_, ?_⟩
  · simp only [blockSize, maxFiles] at *
    omega
  · simp only [blockSize, maxFiles] at *
    omega
  · intro j _ hj
    exact hBlocks j (hj.trans hDiv)

end MartianPendulum

------------------------------------------------------------
-- Files in the Image
------------------------------------------------------------

namespace MartianPendulum

/- `TOTAL_BLOCK` -/
def totalBlock : Nat := 1 + 64 + 59

namespace FileSystem

/- A byte of a data block: these follow the inodes. -/
def dataBlock
    (fs : FileSystem)
    (blk r : Nat) : UInt8 :=
  fs.fsBlocks
    ((1 + fs.bootBlock.numInodes + blk) * blockSize + r)

/-
  The address arithmetic of `read_data` does not wrap in an
  image that was copied as a whole.
-/
theorem fileByte_eq_dataBlock
    (fs : FileSystem)
    (hFit :
      fs.bootBlock.numInodes + fs.bootBlock.numDataBlocks +
        1 ≤ totalBlock)
    {inode k : Nat}
    (hBlock :
      fs.inodeBlock inode (k / blockSize) <
        fs.bootBlock.numDataBlocks) :
    fs.fileByte inode k =
      fs.dataBlock (fs.inodeBlock inode (k / blockSize))
        (k % blockSize) := by
  unfold fileByte memAt dataBlock
  generalize fs.inodeBlock inode (k / blockSize) = blk at *
  have hStart : fs.dataBlockStart =
      blockSize + blockSize * fs.bootBlock.numInodes := by
    simp only [dataBlockStart, inodeStart, u32, blockSize,
      totalBlock] at *
    omega
  have hPtr : fs.dataBlkPtr blk =
      (1 + fs.bootBlock.numInodes + blk) * blockSize := by
    rw [dataBlkPtr, hStart]
    simp only [u32, blockSize, totalBlock] at *
    omega
  have hAddr :
      u32 (((1 + fs.bootBlock.numInodes + blk) * blockSize :
          Nat) + (k % blockSize : Nat)) =
        (1 + fs.bootBlock.numInodes + blk) * blockSize +
          k % blockSize := by
    simp only [u32, blockSize, totalBlock] at *
    omega
  rw [hPtr, hAddr]

end FileSystem

/-
  Whatever is asked for, a read that does not fail delivers
  the bytes of the file from the offset on, as many as were
  requested and are there, and nothing else.
-/
theorem readData_delivers_file
    (fs : FileSystem)
    (hFit :
      fs.bootBlock.numInodes + fs.bootBlock.numDataBlocks +
        1 ≤ totalBlock)
    (inode offset length : Nat)
    (hSum : offset + length < 2 ^ 32)
    (buf : Ptr)
    (hRead : (readData fs inode offset buf length).1 ≠ -1) :
    let read := readData fs inode offset buf length
    let count := min length (fs.inodeLength inode - offset)
    read.1 = count ∧
      (∀ k, k < count →
        read.2 k =
          fs.dataBlock
            (fs.inodeBlock inode ((offset + k) / blockSize))
            ((offset + k) % blockSize)) ∧
      ∀ k, count ≤ k → read.2 k = buf k := by
  intro read count
  have hInode : inode < maxFiles := by
    by_contra hLarge
    rw [readData_of_maxFiles_le fs offset buf length
      (Nat.not_lt.mp hLarge)] at hRead
    exact hRead rfl
  by_cases hOffset : offset < fs.inodeLength inode
  · have hOk : RangeOk fs inode offset
        (readEnd fs inode offset length) := by
      by_contra hBad
      rw [readData_of_not_rangeOk fs buf hInode hOffset
        hBad] at hRead
      exact hRead rfl
    have hEq : read =
        ((count : Int),
          Logic.blit buf 0 count
            (fun k => fs.fileByte inode (offset + k))) :=
      readData_delivered fs buf hInode hOffset hSum hOk
    rw [hEq]
    refine ⟨rfl, ?_, ?_⟩
    · intro k hk
      have hEnd := readEnd_eq fs hOffset hSum
      dsimp only
      rw [Logic.blit_apply_of_lt _ _ hk]
      apply fs.fileByte_eq_dataBlock hFit
      apply hOk.block_lt
      · exact Nat.div_le_div_right (Nat.le_add_right _ _)
      · apply Nat.div_le_div_right
        omega
    · intro k hk
      dsimp only
      rw [Logic.blit_apply_of_outside _ _ (by omega)]
  · have hEnd : fs.inodeLength inode ≤ offset :=
      Nat.not_lt.mp hOffset
    have hEq : read = (0, buf) :=
      readData_of_length_le fs buf length hInode hEnd
    have hCount : count = 0 := by omega
    rw [hEq, hCount]
    refine ⟨rfl, ?_, fun k _ => rfl⟩
    intro k hk
    omega

/- The second byte of the sample program is an `E`. -/
theorem readData_delivers_file_sampleFs :
    let read := readData sampleFs 0 1 (fun _ => 9) 2
    read.1 = 2 ∧ read.2 0 = 0x45 ∧ read.2 2 = 9 := by
  have hFile := readData_delivers_file sampleFs (by decide)
    0 1 2 (by decide) (fun _ => 9) (by decide)
  have hCount :
      min 2 (sampleFs.inodeLength 0 - 1) = 2 := by
    decide
  simp only [hCount] at hFile
  rcases hFile with ⟨hRet, hBytes, hRest⟩
  exact ⟨hRet, (hBytes 0 (by decide)).trans (by decide),
    hRest 2 (by decide)⟩

end MartianPendulum
