import MartianPendulum.Lib.Strings
import MartianPendulum.Lib.Word

/-
  The in-memory file system of `fs.c`: the boot block, the
  directory entries and the name lookup.

  A `FileSystem` holds the globals that `fs_init` fills: the
  copied blocks and the boot block.  Everything below is for
  arbitrary contents of both.

  Key definitions include:
    * `Dentry`
    * `BootBlock`
    * `FileSystem`
    * `readDentryByIndex`
    * `readDentryByName`
    * `FileSystem.lookup`

  Key theorems include:
    * `lookup_eq_some_iff`
    * `readDentryByName_eq`
-/

------------------------------------------------------------
-- Constants and On-Disk Structures
------------------------------------------------------------

namespace MartianPendulum

/- `BLOCK_SIZE` -/
def blockSize : Nat := 4096

/- `MAX_FILES` -/
def maxFiles : Nat := 63

/- `FILENAME_MAX_CHAR` -/
def filenameMaxChar : Nat := 32

/- File types `USER_RTC`, `DIR` and `REGULAR`. -/
def typeUserRtc : Nat := 0
def typeDir : Nat := 1
def typeRegular : Nat := 2

/-
  `dentry_t`.  The reserved bytes are written and never
  read.
-/
structure Dentry where
  filename : Ptr
  type : Nat
  nrInode : Nat

/-
  `boot_block_t`.  The array `files` has 63 entries; what
  lies behind it is whatever memory follows the struct.
-/
structure BootBlock where
  numDirEntries : Nat
  numInodes : Nat
  numDataBlocks : Nat
  files : Nat → Dentry

/-
  The globals of `fs.c`.  `fsBlocks` is the memory seen from
  the start of the copied blocks, `bootBlock` the copy of
  the first of them.
-/
structure FileSystem where
  bootBlock : BootBlock
  fsBlocks : Ptr

namespace FileSystem

/-
  The `uint32_t` at an offset from the start of the blocks;
  addresses wrap at 32 bits.
-/
def word
    (fs : FileSystem)
    (off : Nat) : Nat :=
  (fs.fsBlocks (u32 off)).toNat +
    (fs.fsBlocks (u32 (off + 1))).toNat * 2 ^ 8 +
    (fs.fsBlocks (u32 (off + 2))).toNat * 2 ^ 16 +
    (fs.fsBlocks (u32 (off + 3))).toNat * 2 ^ 24

/- `inode_start`, relative to the start of the blocks. -/
def inodeStart : Nat := blockSize

/- `data_block_start`, relative to the start of the blocks. -/
def dataBlockStart
    (fs : FileSystem) : Nat :=
  u32 (inodeStart + blockSize * fs.bootBlock.numInodes)

/- The address of the inode struct with a given number. -/
def inodeAddr
    (inode : Nat) : Nat :=
  u32 (inode * blockSize + inodeStart)

/- The field `length` of an inode. -/
def inodeLength
    (fs : FileSystem)
    (inode : Nat) : Nat :=
  fs.word (inodeAddr inode)

/- The entry `inodes[j]` of an inode. -/
def inodeBlock
    (fs : FileSystem)
    (inode j : Nat) : Nat :=
  fs.word (inodeAddr inode + 4 + 4 * j)

/- The address of a data block, as `read_data` computes it. -/
def dataBlkPtr
    (fs : FileSystem)
    (blk : Nat) : Nat :=
  u32 (blk * blockSize + fs.dataBlockStart)

/- Memory seen from an address. -/
def memAt
    (fs : FileSystem)
    (addr : Nat) : Ptr :=
  fun i => fs.fsBlocks (u32 (addr + i))

end FileSystem

end MartianPendulum

------------------------------------------------------------
-- Directory Lookup
------------------------------------------------------------

namespace MartianPendulum

/- The fields `read_dentry_by_index` copies into `dentry`. -/
def fillDentry
    (dentry dentryStruct : Dentry) : Dentry :=
  { filename := strncpy dentry.filename
      dentryStruct.filename filenameMaxChar
    nrInode := dentryStruct.nrInode
    type := dentryStruct.type }

/-
  `read_dentry_by_index`: the status and the filled entry.
-/
def readDentryByIndex
    (fs : FileSystem)
    (index : Nat)
    (dentry : Dentry) :
    Int × Dentry :=
  if index ≥ fs.bootBlock.numDirEntries then (-1, dentry)
  else (0, fillDentry dentry (fs.bootBlock.files index))

/- The loop of `read_dentry_by_name` from index `i`. -/
def readDentryLoop
    (fs : FileSystem)
    (fname : Ptr)
    (dentry : Dentry) :
    Nat → Nat → Int × Dentry
| 0, _ => (-1, dentry)
| n + 1, i =>
    if strncmp (fs.bootBlock.files i).filename fname
        filenameMaxChar = 0 then
      (0, (readDentryByIndex fs i dentry).2)
    else readDentryLoop fs fname dentry n (i + 1)

/- `read_dentry_by_name` -/
def readDentryByName
    (fs : FileSystem)
    (fname : Ptr)
    (dentry : Dentry) :
    Int × Dentry :=
  if strlen fname > 32 then (-1, dentry)
  else
    readDentryLoop fs fname dentry
      fs.bootBlock.numDirEntries 0

end MartianPendulum

------------------------------------------------------------
-- The Directory as a Set of Names
------------------------------------------------------------

namespace MartianPendulum

/- The name of an entry: its 32 bytes, cut at a NUL. -/
def Dentry.name
    (d : Dentry) : List UInt8 :=
  cut d.filename filenameMaxChar

namespace FileSystem

/-
  What the lookup is for: the first entry with the name.
-/
def lookup
    (fs : FileSystem)
    (name : List UInt8) : Option Dentry :=
  ((List.range fs.bootBlock.numDirEntries).map
    fs.bootBlock.files).find? (fun d => d.name = name)

end FileSystem

/- The entry found is the least one with the name. -/
theorem lookup_eq_some_iff
    (fs : FileSystem)
    (name : List UInt8)
    (d : Dentry) :
    fs.lookup name = some d ↔
      ∃ i, i < fs.bootBlock.numDirEntries ∧
        fs.bootBlock.files i = d ∧
        (fs.bootBlock.files i).name = name ∧
        ∀ j, j < i →
          (fs.bootBlock.files j).name ≠ name := by
  unfold FileSystem.lookup
  rw [List.find?_eq_some_iff_getElem]
  simp only [List.length_map, List.length_range,
    List.getElem_map, List.getElem_range,
    decide_eq_true_eq, Bool.not_eq_true',
    decide_eq_false_iff_not]
  constructor
  · rintro ⟨hName, i, hi, rfl, hBefore⟩
    exact ⟨i, hi, rfl, hName, hBefore⟩
  · rintro ⟨i, hi, rfl, hName, hBefore⟩
    exact ⟨hName, i, hi, rfl, hBefore⟩

theorem lookup_eq_none_iff
    (fs : FileSystem)
    (name : List UInt8) :
    fs.lookup name = none ↔
      ∀ i, i < fs.bootBlock.numDirEntries →
        (fs.bootBlock.files i).name ≠ name := by
  simp [FileSystem.lookup]

/-
  The loop finds the first of the remaining entries whose
  name is the cut argument.
-/
theorem readDentryLoop_eq
    (fs : FileSystem)
    (fname : Ptr)
    (dentry : Dentry)
    (n i : Nat)
    (hEnd : i + n = fs.bootBlock.numDirEntries) :
    readDentryLoop fs fname dentry n i =
      match ((List.range' i n).map
          fs.bootBlock.files).find?
          (fun d => d.name = cut fname filenameMaxChar)
      with
      | some d => (0, fillDentry dentry d)
      | none => (-1, dentry) := by
  induction n generalizing i with
  | zero => simp [readDentryLoop]
  | succ n ih =>
      rw [readDentryLoop, List.range'_succ, List.map_cons,
        List.find?_cons]
      by_cases hCmp :
          strncmp (fs.bootBlock.files i).filename fname
            filenameMaxChar = 0
      · have hName :
            (fs.bootBlock.files i).name =
              cut fname filenameMaxChar :=
          (strncmp_eq_zero_iff _ _ _).mp hCmp
        have hIdx :
            ¬ i ≥ fs.bootBlock.numDirEntries := by
          omega
        simp [hCmp, hName, readDentryByIndex, hIdx]
      · have hName :
            (fs.bootBlock.files i).name ≠
              cut fname filenameMaxChar :=
          fun hEq => hCmp ((strncmp_eq_zero_iff _ _ _).mpr hEq)
        simp only [hCmp, if_false, hName, decide_false]
        exact ih (i + 1) (by omega)

/- A name longer than 32 characters is on no entry. -/
theorem lookup_eq_none_of_long
    (fs : FileSystem)
    {name : List UInt8}
    (hLong : 32 < name.length) :
    fs.lookup name = none := by
  unfold FileSystem.lookup
  rw [List.find?_eq_none]
  intro d _
  have hLen : d.name.length ≤ 32 :=
    length_cutFrom_le d.filename filenameMaxChar 0
  simp only [decide_eq_true_eq]
  intro hEq
  rw [hEq] at hLen
  omega

/-
  Name lookup returns the first entry with exactly the
  argument's name and leaves the result alone otherwise.
-/
theorem readDentryByName_eq
    (fs : FileSystem)
    (s : CString)
    (dentry : Dentry) :
    readDentryByName fs s.ptr dentry =
      match fs.lookup s.chars with
      | some d => (0, fillDentry dentry d)
      | none => (-1, dentry) := by
  unfold readDentryByName
  by_cases hLen : s.chars.length ≤ 32
  · have hStrlen : ¬ strlen s.ptr > 32 := by
      have := (strlen_ptr_le_iff s (n := 32)
        (by decide)).mpr hLen
      omega
    rw [if_neg hStrlen,
      readDentryLoop_eq fs s.ptr dentry _ 0 (by omega),
      cut_ptr s (n := filenameMaxChar) hLen, ← List.range_eq_range']
    rfl
  · have hStrlen : strlen s.ptr > 32 := by
      have := mt (strlen_ptr_le_iff s (n := 32)
        (by decide)).mp hLen
      omega
    rw [if_pos hStrlen,
      lookup_eq_none_of_long fs (by omega)]

/-
  The same for any argument: a name that does not end within
  33 bytes is too long for every entry.
-/
theorem readDentryByName_ptr
    (fs : FileSystem)
    (fname : Ptr)
    (dentry : Dentry) :
    readDentryByName fs fname dentry =
      match fs.lookup (cut fname 33) with
      | some d => (0, fillDentry dentry d)
      | none => (-1, dentry) := by
  by_cases hNul : (cut fname 33).length < 33
  · have hString := readDentryByName_eq fs
      (CString.ofPtr fname 33) dentry
    rwa [CString.ofPtr_ptr fname hNul] at hString
  · have hLen := length_cut_le fname 33
    have hFull : (cut fname 33).length = 33 := by omega
    have hStrlen : strlen fname > 32 := by
      apply lt_strlenLoop fname (by omega)
      intro i _ hi
      rw [← getD_cut fname (n := 33) (by omega)]
      apply cut_nonzero fname 33
      rw [List.getD_eq_getElem?_getD,
        List.getElem?_eq_getElem (by omega)]
      exact List.getElem_mem _
    rw [readDentryByName, if_pos hStrlen,
      lookup_eq_none_of_long fs (by omega)]

end MartianPendulum

------------------------------------------------------------
-- A Sample File System
------------------------------------------------------------

namespace MartianPendulum

/- The name `shell`. -/
def shellName : List UInt8 :=
  [115, 104, 101, 108, 108]

theorem shellName_nonzero :
    ∀ c ∈ shellName, c ≠ 0 := by
  simp [shellName]

def sampleName : CString :=
  { chars := shellName
    after := fun _ => 0
    nonzero := shellName_nonzero }

/-
  One regular file named `shell`, of forty bytes in data
  block 0, that begins with the ELF magic number.
-/
def sampleFs : FileSystem :=
  { bootBlock :=
      { numDirEntries := 1
        numInodes := 1
        numDataBlocks := 1
        files := fun _ =>
          { filename := sampleName.ptr
            type := typeRegular
            nrInode := 0 } }
    fsBlocks := fun off =>
      if off = 4096 then 40
      else if off = 8192 then 0x7F
      else if off = 8193 then 0x45
      else if off = 8194 then 0x4C
      else if off = 8195 then 0x46
      else 0 }

theorem lookup_sampleName :
    sampleFs.lookup sampleName.chars =
      some (sampleFs.bootBlock.files 0) := rfl

end MartianPendulum
