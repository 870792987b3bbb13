import MartianPendulum.FileSystem.Directory
import MartianPendulum.FileSystem.FileTable

/-
  What `syscall_read` may write.

  Four drivers stand behind the operation tables.  The
  drivers of the terminal, of regular files and of the clock
  keep to the part of the buffer that the caller gave them.
  The driver of directories does not look at its length and
  always fills 33 bytes.

  Key definitions include:
    * `Within`
    * `ListsEntry`

  Key theorems include:
    * `terminalRead_within`
    * `fileRead_within`
    * `dirRead_within_iff`
    * `syscallRead_within_iff`
-/

------------------------------------------------------------
-- Drivers
------------------------------------------------------------

namespace MartianPendulum

/-
  A read of `nbytes` bytes returns -1 or a number up to
  `nbytes`, and leaves the buffer behind them alone.
-/
structure Within
    (nbytes : Int)
    (buf : Ptr)
    (ret : Int)
    (mem : Ptr) : Prop where
  returned : ret = -1 ∨ 0 ≤ ret ∧ ret ≤ nbytes
  outside : ∀ j : Nat, nbytes ≤ j → mem j = buf j

namespace Within

variable {nbytes : Int}
variable {buf : Ptr}

theorem failed :
    Within nbytes buf (-1) buf :=
  ⟨Or.inl rfl, fun _ _ => rfl⟩

theorem nothing
    (hNonneg : 0 ≤ nbytes) :
    Within nbytes buf 0 buf :=
  ⟨Or.inr ⟨le_rfl, hNonneg⟩, fun _ _ => rfl⟩

theorem copied
    {count n : Nat}
    (hCount : (count : Int) ≤ nbytes)
    (hn : (n : Int) ≤ nbytes)
    (src : Ptr) :
    Within nbytes buf count (Logic.blit buf 0 n src) := by
  refine ⟨Or.inr ⟨Int.natCast_nonneg count, hCount⟩, ?_⟩
  intro j hj
  exact Logic.blit_apply_of_outside _ _ (by omega)

end Within

/- The loop of the keyboard driver stays in its range. -/
theorem readKbdLoop_within
    (kbd : Ptr)
    (n i : Nat)
    (buf : Ptr) :
    (readKbdLoop kbd n i buf).1 ≤ i + n ∧
      ∀ j, i + n ≤ j →
        (readKbdLoop kbd n i buf).2 j = buf j := by
  induction n generalizing i buf with
  | zero => exact ⟨le_rfl, fun _ _ => rfl⟩
  | succ n ih =>
      rw [readKbdLoop]
      have hUpdate : ∀ j, i + (n + 1) ≤ j →
          Function.update buf i (kbd i) j = buf j :=
        fun j hj => Function.update_of_ne (by omega) _ _
      split
      · exact ⟨Nat.le_add_right _ _, fun _ _ => rfl⟩
      · dsimp only
        split
        · exact ⟨by dsimp only; omega, hUpdate⟩
        · have hRest := ih (i + 1)
            (Function.update buf i (kbd i))
          refine ⟨by omega, ?_⟩
          intro j hj
          rw [hRest.2 j (by omega), hUpdate j hj]

theorem terminalRead_within
    (kbd : Ptr)
    (buf : Buf)
    (nbytes : Int) :
    Within nbytes buf.mem (terminalRead kbd buf nbytes).1
      (terminalRead kbd buf nbytes).2 := by
  unfold terminalRead
  split
  · exact .failed
  next hGood =>
    have hPos : 0 < nbytes := by
      by_contra hNeg
      exact hGood (Or.inr (by omega))
    have hLoop :=
      readKbdLoop_within kbd nbytes.toNat 0 buf.mem
    refine ⟨Or.inr ⟨by dsimp only; omega,
      by dsimp only; omega⟩, ?_⟩
    intro j hj
    exact hLoop.2 j (by omega)

/-
  `read_data` with the length of an `int32_t`: it fails or
  delivers no more than that.
-/
theorem readData_within
    (fs : FileSystem)
    (inode offset : Nat)
    (buf : Ptr)
    {length : Nat}
    (hLength : length < 2 ^ 31) :
    Within length buf (readData fs inode offset buf length).1
      (readData fs inode offset buf length).2 := by
  by_cases hLarge : maxFiles ≤ inode
  · rw [readData_of_maxFiles_le fs offset buf length hLarge]
    exact .failed
  · have hInode := Nat.not_le.mp hLarge
    by_cases hOffset : offset < fs.inodeLength inode
    · by_cases hOk : RangeOk fs inode offset
          (readEnd fs inode offset length)
      · have hSum : offset + length < 2 ^ 32 := by
          have hStart := hOk.start_lt
          simp only [blockSize, maxFiles] at hStart
          omega
        rw [readData_delivered fs buf hInode hOffset hSum
          hOk]
        dsimp only
        apply Within.copied
        · omega
        · omega
      · rw [readData_of_not_rangeOk fs buf hInode hOffset
          hOk]
        exact .failed
    · rw [readData_of_length_le fs buf length hInode
        (Nat.not_lt.mp hOffset)]
      exact .nothing (Int.natCast_nonneg _)

theorem fileRead_within
    (fs : FileSystem)
    (fp : FileEntry)
    (buf : Ptr)
    {length : Nat}
    (hLength : length < 2 ^ 31) :
    Within length buf (fileRead fs fp buf length).1
      (fileRead fs fp buf length).2.2 := by
  have hRead := readData_within fs fp.inode fp.filePos buf
    hLength
  unfold fileRead
  dsimp only
  split
  next hNotError =>
    refine ⟨?_, hRead.outside⟩
    rcases hRead.returned with hFail | ⟨hLow, hHigh⟩
    · rw [hFail] at hNotError
      exact absurd rfl hNotError
    · right
      obtain ⟨n, hn⟩ : ∃ n : Nat,
          (readData fs fp.inode fp.filePos buf length).1 =
            n :=
        ⟨_, (Int.toNat_of_nonneg hLow).symm⟩
      rw [hn, u32_of_lt (by omega), s32_of_lt (by omega)]
      omega
  · exact ⟨Or.inl rfl, hRead.outside⟩

/- A directory is read safely with room for 33 bytes only. -/
theorem dirRead_within_iff
    (fs : FileSystem)
    (fp : FileEntry)
    (length : Nat)
    (dentry : Dentry)
    {nbytes : Int}
    (hNonneg : 0 ≤ nbytes) :
    (∀ buf,
      Within nbytes buf (dirRead fs fp buf length dentry).1
        (dirRead fs fp buf length dentry).2.2) ↔
      (fp.filePos < fs.bootBlock.numDirEntries →
        33 ≤ nbytes) := by
  constructor
  · intro hAll hPos
    by_contra hSmall
    -- a buffer that differs where the caller's part ends
    have hWithin := hAll (fun j =>
      (fs.bootBlock.files fp.filePos).padded j + 1)
    rw [dirRead_of_lt fs fp _ length dentry hPos] at hWithin
    have hSame := hWithin.outside nbytes.toNat (by omega)
    dsimp only at hSame
    rw [Logic.blit_apply_of_lt _ _ (by omega)] at hSame
    simp at hSame
  · intro hRoom buf
    by_cases hPos :
        fp.filePos < fs.bootBlock.numDirEntries
    · have hLength := hRoom hPos
      have hName := (fs.bootBlock.files
        fp.filePos).length_name_le
      rw [dirRead_of_lt fs fp buf length dentry hPos]
      apply Within.copied
      · omega
      · omega
    · rw [dirRead_of_le fs fp buf length dentry
        (Nat.not_lt.mp hPos)]
      exact .nothing hNonneg

end MartianPendulum

------------------------------------------------------------
-- The System Call
------------------------------------------------------------

namespace MartianPendulum

/- The descriptor is of a directory, at one of its entries. -/
structure ListsEntry
    (fs : FileSystem)
    (fd : Int)
    (table : FileTable) : Prop where
  range : 0 ≤ fd ∧ fd < 8 ∧ fd ≠ 1
  inUse : (table fd).flags ≠ flagFree
  ops : (table fd).opPtr = .dirOps
  entry : (table fd).filePos < fs.bootBlock.numDirEntries

/- A read stays in the buffer, whatever that holds. -/
def ReadsWithin
    (fs : FileSystem)
    (stack : StackBytes)
    (kbd : Ptr)
    (fd nbytes : Int)
    (table : FileTable) : Prop :=
  ∀ buf, ∃ ret table' mem,
    syscallRead fs stack kbd fd buf nbytes table =
        some (ret, table', mem) ∧
      Within nbytes buf.mem ret mem

section Call

variable (fs : FileSystem)
variable (stack : StackBytes)
variable (kbd : Ptr)
variable {fd nbytes : Int}
variable {table : FileTable}

/- A call that the checks of `syscall_read` refuse. -/
theorem readsWithin_of_refused
    (hRefused : (fd ≥ 8 ∨ fd < 0 ∨ fd = 1) ∨
      (table fd).flags = flagFree) :
    ReadsWithin fs stack kbd fd nbytes table := by
  intro buf
  refine ⟨-1, table, buf.mem, ?_, .failed⟩
  unfold syscallRead
  split
  · rfl
  next hRange =>
    rw [if_pos (hRefused.resolve_left hRange)]

/- Every driver but the one of directories. -/
theorem readsWithin_of_ops_ne
    (hNonneg : 0 ≤ nbytes)
    (hInt : nbytes < 2 ^ 31)
    (hKind : ∀ addr, (table fd).opPtr ≠ .other addr)
    (hNotDir : (table fd).opPtr ≠ .dirOps) :
    ReadsWithin fs stack kbd fd nbytes table := by
  by_cases hRange : fd ≥ 8 ∨ fd < 0 ∨ fd = 1
  · exact readsWithin_of_refused fs stack kbd
      (Or.inl hRange)
  · by_cases hFree : (table fd).flags = flagFree
    · exact readsWithin_of_refused fs stack kbd
        (Or.inr hFree)
    · intro buf
      simp only [syscallRead, hRange, hFree, if_false]
      cases hOps : (table fd).opPtr with
      | stdinOps =>
          exact ⟨_, _, _, rfl,
            terminalRead_within kbd buf nbytes⟩
      | stdoutOps =>
          exact ⟨_, _, _, rfl,
            terminalRead_within kbd buf nbytes⟩
      | rtcOps => exact ⟨_, _, _, rfl, .nothing hNonneg⟩
      | regularFileOps =>
          refine ⟨_, _, _, rfl, ?_⟩
          have hLength : u32 nbytes = nbytes.toNat := by
            unfold u32
            omega
          have hRead := fileRead_within fs (table fd)
            buf.mem (show nbytes.toNat < 2 ^ 31 by omega)
          rw [hLength]
          rwa [Int.toNat_of_nonneg hNonneg] at hRead
      | dirOps => exact absurd hOps hNotDir
      | other addr => exact absurd hOps (hKind addr)

/- A directory that is open. -/
theorem readsWithin_dir_iff
    (hNonneg : 0 ≤ nbytes)
    (hRange : ¬ (fd ≥ 8 ∨ fd < 0 ∨ fd = 1))
    (hUse : ¬ (table fd).flags = flagFree)
    (hDir : (table fd).opPtr = .dirOps) :
    ReadsWithin fs stack kbd fd nbytes table ↔
      ((table fd).filePos < fs.bootBlock.numDirEntries →
        33 ≤ nbytes) := by
  rw [← dirRead_within_iff fs (table fd) (u32 nbytes)
    stack.dentry hNonneg]
  unfold ReadsWithin
  simp only [syscallRead, hRange, hUse, if_false, hDir]
  constructor
  · intro hAll buf
    rcases hAll ⟨false, buf⟩ with
      ⟨ret, table', mem, hRead, hWithin⟩
    cases hRead
    exact hWithin
  · intro hAll buf
    exact ⟨_, _, _, rfl, hAll buf.mem⟩

end Call

/-
  Exactly when a read stays in the buffer: if the descriptor
  is of a directory at one of its entries, the buffer has
  room for 33 bytes.
-/
theorem syscallRead_within_iff
    (fs : FileSystem)
    (stack : StackBytes)
    (kbd : Ptr)
    (fd nbytes : Int)
    (table : FileTable)
    (hNonneg : 0 ≤ nbytes)
    (hInt : nbytes < 2 ^ 31)
    (hKind : ∀ addr, (table fd).opPtr ≠ .other addr) :
    ReadsWithin fs stack kbd fd nbytes table ↔
      (ListsEntry fs fd table → 33 ≤ nbytes) := by
  by_cases hDir : (table fd).opPtr = .dirOps
  · by_cases hRefused :
        (fd ≥ 8 ∨ fd < 0 ∨ fd = 1) ∨
          (table fd).flags = flagFree
    · refine iff_of_true
        (readsWithin_of_refused fs stack kbd hRefused) ?_
      intro hLists
      have hFd := hLists.range
      rcases hRefused with hRange | hFree
      · omega
      · exact absurd hFree hLists.inUse
    · rw [not_or] at hRefused
      rw [readsWithin_dir_iff fs stack kbd hNonneg
        hRefused.1 hRefused.2 hDir]
      constructor
      · exact fun hRoom hLists => hRoom hLists.entry
      · exact fun hRoom hPos =>
          hRoom ⟨by omega, hRefused.2, hDir, hPos⟩
  · exact iff_of_true
      (readsWithin_of_ops_ne fs stack kbd hNonneg hInt hKind
        hDir)
      (fun hLists => absurd hLists.ops hDir)

/- A table with a fresh directory at every descriptor. -/
def dirTable : FileTable :=
  fun _ =>
    { opPtr := .dirOps
      inode := 0
      filePos := 0
      flags := flagInUse }

def blankStack : StackBytes :=
  { dentry := sampleFs.bootBlock.files 0
    fde := staleEntry }

/- A buffer of 33 bytes is safe. -/
theorem syscallRead_within_iff_dirTable :
    ReadsWithin sampleFs blankStack (fun _ => 0) 2 33
      dirTable :=
  (syscallRead_within_iff sampleFs blankStack (fun _ => 0)
    2 33 dirTable (by decide) (by decide) nofun).mpr
      (fun _ => le_rfl)

/- The name of the program is read into two bytes. -/
theorem read_leaves_buffer :
    ¬ ∀ (fs : FileSystem) (stack : StackBytes) (kbd : Ptr)
        (fd nbytes : Int) (table : FileTable),
      0 ≤ nbytes → nbytes < 2 ^ 31 →
      (∀ addr, (table fd).opPtr ≠ .other addr) →
        ReadsWithin fs stack kbd fd nbytes table := by
  intro hAll
  rcases hAll sampleFs blankStack (fun _ => 0) 2 2 dirTable
      (by decide) (by decide) nofun ⟨false, fun _ => 0⟩ with
    ⟨ret, table', mem, hRead, hWithin⟩
  have hRet : ret = 5 := by
    have hFirst := congrArg (Option.map Prod.fst) hRead
    exact (Option.some.inj hFirst).symm
  have hReturned := hWithin.returned
  omega

end MartianPendulum
