import MartianPendulum.FileSystem.Drivers
import MartianPendulum.Logic.Run

/-
  Sequences of `file_read` calls on one descriptor.

  A descriptor starts at position zero and every call moves
  it by what the call delivered, so the delivered bytes form
  a growing initial segment of the file, however the
  requests are split.

  Key definitions include:
    * `FileSystem.GoodFile`
    * `Reading`
    * `readStep`

  Key theorems include:
    * `fileRead_eq`
    * `run_readStep_synced`
    * `fileRead_sequence`
-/

------------------------------------------------------------
-- One Call
------------------------------------------------------------

namespace MartianPendulum

/-
  A file that `read_data` can deliver in full: the inode
  number and the size are in range, and so is every block
  entry up to the one of the byte after the last.
-/
structure FileSystem.GoodFile
    (fs : FileSystem)
    (inode : Nat) : Prop where
  inode_lt : inode < maxFiles
  length_lt : fs.inodeLength inode < maxFiles * blockSize
  block_lt :
    ∀ j, j ≤ fs.inodeLength inode / blockSize →
      fs.inodeBlock inode j < fs.bootBlock.numDataBlocks

/-
  One call moves the position by the requested number of
  bytes, cut at the end of the file, and delivers the bytes
  in between.
-/
theorem fileRead_eq
    (fs : FileSystem)
    (fp : FileEntry)
    (buf : Ptr)
    {length : Nat}
    (hGood : fs.GoodFile fp.inode)
    (hPos : fp.filePos ≤ fs.inodeLength fp.inode)
    (hLength : length < 2 ^ 31) :
    fileRead fs fp buf length =
      (((min length
          (fs.inodeLength fp.inode - fp.filePos) : Nat) :
            Int),
        { fp with
          filePos := min (fp.filePos + length)
            (fs.inodeLength fp.inode) },
        Logic.blit buf 0
          (min length
            (fs.inodeLength fp.inode - fp.filePos))
          (fun k =>
            fs.fileByte fp.inode (fp.filePos + k))) := by
  have hSize := hGood.length_lt
  simp only [maxFiles, blockSize] at hSize
  have hRead :
      readData fs fp.inode fp.filePos buf length =
        (((min length
            (fs.inodeLength fp.inode - fp.filePos) : Nat) :
              Int),
          Logic.blit buf 0
            (min length
              (fs.inodeLength fp.inode - fp.filePos))
            (fun k =>
              fs.fileByte fp.inode (fp.filePos + k))) := by
    rcases hPos.lt_or_eq with hLt | hEq
    · exact readData_eq fs buf hGood.inode_lt hLt (by omega)
        hGood.length_lt hGood.block_lt
    · rw [readData_of_length_le fs buf length
        hGood.inode_lt hEq.ge]
      have hNone :
          min length
            (fs.inodeLength fp.inode - fp.filePos) = 0 := by
        omega
      rw [hNone]
      congr 1
  have hRes :
      u32 ((min length
          (fs.inodeLength fp.inode - fp.filePos) : Nat) :
            Int) =
        min length
          (fs.inodeLength fp.inode - fp.filePos) :=
    u32_of_lt (by omega)
  have hNotError :
      min length (fs.inodeLength fp.inode - fp.filePos) ≠
        u32 (-1) := by
    have hMinus : u32 (-1) = 4294967295 := by decide
    omega
  have hNewPos :
      u32 ((fp.filePos : Int) +
          (min length
            (fs.inodeLength fp.inode - fp.filePos) :
              Nat)) =
        min (fp.filePos + length)
          (fs.inodeLength fp.inode) := by
    unfold u32
    omega
  unfold fileRead
  simp only [hRead, hRes, if_pos hNotError, hNewPos]
  rw [s32_of_lt (by omega)]

end MartianPendulum

------------------------------------------------------------
-- Sequences of Calls
------------------------------------------------------------

namespace MartianPendulum

/- A descriptor and what its reads have delivered so far. -/
structure Reading where
  fp : FileEntry
  delivered : List UInt8

/- A descriptor from which nothing has been read. -/
def Reading.fresh
    (fp : FileEntry) : Reading :=
  { fp := fp
    delivered := [] }

/-
  One `file_read` with a buffer and a requested length; the
  call delivers as many bytes of the buffer as it returns.
-/
def readStep
    (fs : FileSystem)
    (r : Reading)
    (call : Ptr × Nat) : Reading :=
  let read := fileRead fs r.fp call.1 call.2
  { fp := read.2.1
    delivered := r.delivered ++
      (List.range read.1.toNat).map read.2.2 }

/- The first `n` bytes of a file. -/
def FileSystem.firstBytes
    (fs : FileSystem)
    (inode n : Nat) : List UInt8 :=
  (List.range n).map (fs.fileByte inode)

theorem FileSystem.firstBytes_append
    (fs : FileSystem)
    (inode n m : Nat) :
    fs.firstBytes inode n ++
        (List.range m).map
          (fun k => fs.fileByte inode (n + k)) =
      fs.firstBytes inode (n + m) := by
  simp [FileSystem.firstBytes, List.range_add,
    Function.comp_def]

/-
  The position counts the delivered bytes, and these are the
  bytes of the file before the position.
-/
structure Reading.Synced
    (fs : FileSystem)
    (inode total : Nat)
    (r : Reading) : Prop where
  inode_eq : r.fp.inode = inode
  pos_eq :
    r.fp.filePos = min total (fs.inodeLength inode)
  delivered_eq :
    r.delivered = fs.firstBytes inode r.fp.filePos

/- One call keeps the position and the bytes in step. -/
theorem readStep_synced
    (fs : FileSystem)
    {inode total : Nat}
    {r : Reading}
    (call : Ptr × Nat)
    (hGood : fs.GoodFile inode)
    (hLength : call.2 < 2 ^ 31)
    (hSynced : r.Synced fs inode total) :
    (readStep fs r call).Synced fs inode
      (total + call.2) := by
  rcases hSynced with ⟨hInode, hPos, hDelivered⟩
  subst hInode
  have hRead :=
    fileRead_eq fs r.fp call.1 hGood
      (by rw [hPos]; exact Nat.min_le_right _ _) hLength
  refine ⟨?_, ?_, ?_⟩
  · simp only [readStep, hRead]
  · simp only [readStep, hRead, hPos]
    omega
  · have hBytes :
        (List.range (min call.2
            (fs.inodeLength r.fp.inode -
              r.fp.filePos))).map
            (Logic.blit call.1 0
              (min call.2
                (fs.inodeLength r.fp.inode -
                  r.fp.filePos))
              (fun k => fs.fileByte r.fp.inode
                (r.fp.filePos + k))) =
          (List.range (min call.2
            (fs.inodeLength r.fp.inode -
              r.fp.filePos))).map
            (fun k => fs.fileByte r.fp.inode
              (r.fp.filePos + k)) := by
      apply List.map_congr_left
      intro k hk
      exact Logic.blit_apply_of_lt _ _
        (List.mem_range.mp hk)
    simp only [readStep, hRead, Int.toNat_natCast, hBytes,
      hDelivered]
    rw [fs.firstBytes_append]
    congr 1
    omega

/- A sequence of calls keeps them in step. -/
theorem run_readStep_synced
    (fs : FileSystem)
    {inode total : Nat}
    {r : Reading}
    (hGood : fs.GoodFile inode)
    (calls : List (Ptr × Nat))
    (hLengths : ∀ call ∈ calls, call.2 < 2 ^ 31)
    (hSynced : r.Synced fs inode total) :
    (Logic.run (readStep fs) r calls).Synced fs inode
      (total + (calls.map Prod.snd).sum) := by
  induction calls generalizing r total with
  | nil => simpa using hSynced
  | cons call calls ih =>
      have hStep :=
        readStep_synced fs call hGood
          (hLengths call (by simp)) hSynced
      have hRest :=
        ih (fun c hc => hLengths c (by simp [hc])) hStep
      simpa [Nat.add_assoc] using hRest

/- Opening by name starts in step at position zero. -/
theorem fresh_fileOpen_synced
    (fs : FileSystem)
    (fname : CString)
    {file : Dentry}
    (dentry : Dentry)
    (fde : FileEntry)
    (hFile : fs.lookup fname.chars = some file) :
    (Reading.fresh
      (fileOpen fs fname.ptr dentry fde)).Synced
        fs file.nrInode 0 := by
  have hOpen :
      fileOpen fs fname.ptr dentry fde =
        { opPtr := .regularFileOps
          inode := file.nrInode
          filePos := 0
          flags := flagInUse } := by
    simp [fileOpen, openEntry, readDentryByName_eq, hFile,
      fillDentry]
  rw [hOpen]
  exact ⟨rfl, by simp [Reading.fresh], rfl⟩

/- The program of the sample file system is a good file. -/
theorem sampleFs_goodFile :
    sampleFs.GoodFile (sampleFs.bootBlock.files 0).nrInode :=
  ⟨by decide, by decide, by
    intro j hj
    have hZero : j = 0 := by
      have hLength :
          sampleFs.inodeLength
            (sampleFs.bootBlock.files 0).nrInode = 40 := by
        decide
      rw [hLength] at hj
      simpa [blockSize] using hj
    subst hZero
    decide⟩

/-
  Reads through one descriptor deliver the file from its
  start, as much of it as was requested in total.
-/
theorem fileRead_sequence
    (fs : FileSystem)
    (fname : CString)
    (file dentry : Dentry)
    (fde : FileEntry)
    (hFile : fs.lookup fname.chars = some file)
    (hGood : fs.GoodFile file.nrInode)
    (calls : List (Ptr × Nat))
    (hLengths : ∀ call ∈ calls, call.2 < 2 ^ 31) :
    let start :=
      Reading.fresh (fileOpen fs fname.ptr dentry fde)
    let last := Logic.run (readStep fs) start calls
    let length := fs.inodeLength file.nrInode
    last.delivered =
        fs.firstBytes file.nrInode
          (min (calls.map Prod.snd).sum length) ∧
      last.fp.filePos = last.delivered.length ∧
      (last.fp.filePos = length →
        ∀ buf n, n < 2 ^ 31 →
          (fileRead fs last.fp buf n).1 = 0) ∧
      ∀ calls' : List (Ptr × Nat),
        (∀ call ∈ calls', call.2 < 2 ^ 31) →
        (calls'.map Prod.snd).sum =
          (calls.map Prod.snd).sum →
        (Logic.run (readStep fs) start calls').delivered =
          last.delivered := by
  intro start last length
  have hStart : start.Synced fs file.nrInode 0 :=
    fresh_fileOpen_synced fs fname dentry fde hFile
  have hLast :
      last.Synced fs file.nrInode
        (0 + (calls.map Prod.snd).sum) :=
    run_readStep_synced fs hGood calls hLengths hStart
  rw [Nat.zero_add] at hLast
  have hDelivered :
      last.delivered =
        fs.firstBytes file.nrInode
          (min (calls.map Prod.snd).sum length) := by
    rw [hLast.delivered_eq, hLast.pos_eq]
  refine ⟨hDelivered, ?_, ?_, ?_⟩
  · rw [hLast.delivered_eq]
    simp [FileSystem.firstBytes]
  · intro hEnd buf n hn
    have hInode := hLast.inode_eq
    have hRead :=
      fileRead_eq fs last.fp buf
        (hInode ▸ hGood)
        (by rw [hInode]; exact hEnd.le) hn
    have hRemaining :
        fs.inodeLength last.fp.inode -
          last.fp.filePos = 0 := by
      rw [hInode, hEnd]
      exact Nat.sub_self _
    rw [hRead, hRemaining, Nat.min_zero]
    rfl
  · intro calls' hLengths' hSum
    have hLast' :=
      run_readStep_synced fs hGood calls' hLengths' hStart
    rw [Nat.zero_add, hSum] at hLast'
    rw [hLast'.delivered_eq, hLast'.pos_eq, hDelivered]

/-
  Reads of two and then of a hundred bytes deliver the forty
  bytes of the sample program.
-/
theorem fileRead_sequence_sampleFs :
    (Logic.run (readStep sampleFs)
        (Reading.fresh
          (fileOpen sampleFs sampleName.ptr
            (sampleFs.bootBlock.files 0) staleEntry))
        [(fun _ => 0, 2), (fun _ => 0, 100)]).delivered =
      sampleFs.firstBytes 0 40 := by
  rcases
      fileRead_sequence sampleFs sampleName
        (sampleFs.bootBlock.files 0)
        (sampleFs.bootBlock.files 0) staleEntry
        lookup_sampleName sampleFs_goodFile
        [(fun _ => 0, 2), (fun _ => 0, 100)] (by simp) with
    ⟨hDelivered, _⟩
  have hCount :
      min (List.map Prod.snd
          [((fun _ => 0 : Ptr), 2), (fun _ => 0, 100)]).sum
        (sampleFs.inodeLength
          (sampleFs.bootBlock.files 0).nrInode) = 40 := by
    decide
  rw [hCount] at hDelivered
  exact hDelivered

end MartianPendulum
