import Mathlib.Data.List.GetD
import MartianPendulum.FileSystem.Drivers
import MartianPendulum.Logic.Run

/-
  The directory as programs see it: names are looked up with
  `read_dentry_by_name` and listed with `dir_read`.

  A name has no NUL after it on the disk if it is as long as
  its field.  The routines copy and compare names in three
  ways, and all of them mean the bytes before the first NUL
  or the end of the field.

  Key definitions include:
    * `DirCall`
    * `dirStep`
    * `longNameFs`

  Key theorems include:
    * `readDentryByName_exact`
    * `dirRead_of_lt`
    * `dirRead_lists_directory`
-/

------------------------------------------------------------
-- Lookup
------------------------------------------------------------

namespace MartianPendulum

theorem fillDentry_name
    (dentry d : Dentry) :
    (fillDentry dentry d).name = d.name :=
  cut_strncpy dentry.filename d.filename filenameMaxChar

/-
  A name is found exactly if some entry has it.  The first
  such entry is copied, and nothing is if there is none.
-/
theorem readDentryByName_exact
    (fs : FileSystem)
    (fname : CString)
    (dentry : Dentry) :
    let found := readDentryByName fs fname.ptr dentry
    let files := fs.bootBlock.files
    let count := fs.bootBlock.numDirEntries
    (found.1 = 0 ↔
      ∃ i, i < count ∧ (files i).name = fname.chars) ∧
    (∀ i, i < count → (files i).name = fname.chars →
      (∀ j, j < i → (files j).name ≠ fname.chars) →
        found.2.name = (files i).name ∧
          found.2.type = (files i).type ∧
          found.2.nrInode = (files i).nrInode) ∧
    ((∀ i, i < count → (files i).name ≠ fname.chars) →
      found = (-1, dentry)) := by
  intro found files count
  have hFound := readDentryByName_eq fs fname dentry
  cases hLookup : fs.lookup fname.chars with
  | none =>
      rw [hLookup] at hFound
      have hAbsent :=
        (lookup_eq_none_iff fs fname.chars).mp hLookup
      refine ⟨?_, ?_, fun _ => hFound⟩
      · refine iff_of_false ?_ ?_
        · have hStatus : found.1 = -1 :=
            congrArg Prod.fst hFound
          omega
        · rintro ⟨i, hi, hName⟩
          exact hAbsent i hi hName
      · intro i hi hName
        exact absurd hName (hAbsent i hi)
  | some d =>
      rw [hLookup] at hFound
      have hEntry : found.2 = fillDentry dentry d :=
        congrArg Prod.snd hFound
      rcases
          (lookup_eq_some_iff fs fname.chars d).mp hLookup
        with ⟨i, hi, hd, hName, hBefore⟩
      refine ⟨iff_of_true (congrArg Prod.fst hFound)
        ⟨i, hi, hName⟩, ?_, ?_⟩
      · intro i' hi' hName' hBefore'
        have hSame : i' = i := by
          rcases Nat.lt_trichotomy i' i with
            hLt | hEq | hGt
          · exact absurd hName' (hBefore i' hLt)
          · exact hEq
          · exact absurd hName (hBefore' i hGt)
        subst hSame
        rw [hEntry, fillDentry_name, ← hd]
        exact ⟨rfl, rfl, rfl⟩
      · intro hAbsent
        exact absurd hName (hAbsent i hi)

end MartianPendulum

------------------------------------------------------------
-- Listing
------------------------------------------------------------

namespace MartianPendulum

/- The padded name that `dir_read` leaves in the buffer. -/
def Dentry.padded
    (d : Dentry) : Ptr :=
  fun j => d.name.getD j 0

theorem Dentry.length_name_le
    (d : Dentry) :
    d.name.length ≤ 32 :=
  length_cut_le d.filename filenameMaxChar

theorem Dentry.name_nonzero
    (d : Dentry) :
    ∀ c ∈ d.name, c ≠ 0 :=
  cut_nonzero d.filename filenameMaxChar

/- The copy of a name over the cleared buffer. -/
theorem copyUntilNul_padded
    (file dentry : Dentry)
    (buf : Ptr) :
    copyUntilNul (fillDentry dentry file).filename
        filenameMaxChar 0
        (Logic.blit buf 0 33 (fun _ => 0)) =
      (file.name.length,
        Logic.blit buf 0 33 file.padded) := by
  have hFilled :
      cutFrom (fillDentry dentry file).filename
        filenameMaxChar 0 = file.name :=
    fillDentry_name dentry file
  have hShort := file.length_name_le
  have hCopy := copyUntilNul_spec
    (fillDentry dentry file).filename
    filenameMaxChar 0 (Logic.blit buf 0 33 (fun _ => 0))
  rw [hFilled, Nat.zero_add] at hCopy
  refine Prod.ext hCopy.1 ?_
  funext j
  rw [hCopy.2 j]
  dsimp only
  by_cases hj : j < file.name.length
  · rw [if_pos ⟨Nat.zero_le j, hj⟩,
      Logic.blit_apply_of_lt _ _ (by omega),
      Dentry.padded, ← fillDentry_name dentry]
    rw [← fillDentry_name dentry] at hj
    exact (getD_cut _ hj).symm
  · rw [if_neg (fun h => hj h.2)]
    unfold Logic.blit
    split
    · rw [Dentry.padded, List.getD_eq_default _ _
        (by omega)]
    · rfl

/- A call at an entry of the directory. -/
theorem dirRead_of_lt
    (fs : FileSystem)
    (fp : FileEntry)
    (buf : Ptr)
    (length : Nat)
    (dentry : Dentry)
    (hPos : fp.filePos < fs.bootBlock.numDirEntries) :
    dirRead fs fp buf length dentry =
      (((fs.bootBlock.files fp.filePos).name.length : Int),
        { fp with filePos := u32 (fp.filePos + 1) },
        Logic.blit buf 0 33
          (fs.bootBlock.files fp.filePos).padded) := by
  have hIndex :
      ¬ fp.filePos ≥ fs.bootBlock.numDirEntries := by
    omega
  unfold dirRead
  simp only [hIndex, if_false, readDentryByIndex,
    copyUntilNul_padded]

/- A call past the last entry. -/
theorem dirRead_of_le
    (fs : FileSystem)
    (fp : FileEntry)
    (buf : Ptr)
    (length : Nat)
    (dentry : Dentry)
    (hPos : fs.bootBlock.numDirEntries ≤ fp.filePos) :
    dirRead fs fp buf length dentry = (0, fp, buf) := by
  unfold dirRead
  rw [if_pos hPos]

end MartianPendulum

------------------------------------------------------------
-- Sequences of Calls
------------------------------------------------------------

namespace MartianPendulum

/- The arguments of a `dir_read`, and its local `dentry`. -/
structure DirCall where
  buf : Ptr
  length : Nat
  dentry : Dentry

/- The descriptor after a call. -/
def dirStep
    (fs : FileSystem)
    (fp : FileEntry)
    (call : DirCall) : FileEntry :=
  (dirRead fs fp call.buf call.length call.dentry).2.1

/- A call moves to the next entry, up to the last one. -/
theorem dirStep_filePos
    (fs : FileSystem)
    (hCount : fs.bootBlock.numDirEntries ≤ maxFiles)
    (fp : FileEntry)
    (call : DirCall)
    (hPos : fp.filePos ≤ fs.bootBlock.numDirEntries) :
    (dirStep fs fp call).filePos =
      min (fp.filePos + 1) fs.bootBlock.numDirEntries := by
  unfold dirStep
  rcases hPos.lt_or_eq with hLt | hEq
  · rw [dirRead_of_lt fs fp _ _ _ hLt]
    simp only [u32, maxFiles] at hCount ⊢
    omega
  · rw [dirRead_of_le fs fp _ _ _ hEq.ge]
    dsimp only
    omega

/- Every call moves to the next entry. -/
theorem run_dirStep_filePos
    (fs : FileSystem)
    (hCount : fs.bootBlock.numDirEntries ≤ maxFiles)
    {fp : FileEntry}
    (hPos : fp.filePos ≤ fs.bootBlock.numDirEntries)
    (calls : List DirCall) :
    (Logic.run (dirStep fs) fp calls).filePos =
      min (fp.filePos + calls.length)
        fs.bootBlock.numDirEntries := by
  induction calls generalizing fp with
  | nil => simpa using hPos
  | cons call calls ih =>
      have hStep := dirStep_filePos fs hCount fp call hPos
      rw [Logic.run_cons, ih (by omega), hStep,
        List.length_cons]
      omega

/- The buffer holds the name as a string. -/
theorem cut_padded
    (d : Dentry)
    (buf : Ptr) :
    cut (Logic.blit buf 0 33 d.padded) 33 = d.name := by
  have hShort := d.length_name_le
  refine cut_eq_of (by omega) ?_ d.name_nonzero ?_
  · intro j hj
    rw [Logic.blit_apply_of_lt _ _ (by omega)]
    rfl
  · intro _
    rw [Logic.blit_apply_of_lt _ _ (by omega),
      Dentry.padded, List.getD_eq_default _ _ le_rfl]

/- A name that no other entry has finds its own entry. -/
theorem lookup_name
    (fs : FileSystem)
    (hDistinct : ∀ i j,
      i < fs.bootBlock.numDirEntries →
      j < fs.bootBlock.numDirEntries →
      (fs.bootBlock.files i).name =
        (fs.bootBlock.files j).name → i = j)
    {i : Nat}
    (hi : i < fs.bootBlock.numDirEntries) :
    fs.lookup (fs.bootBlock.files i).name =
      some (fs.bootBlock.files i) := by
  rw [lookup_eq_some_iff]
  refine ⟨i, hi, rfl, rfl, ?_⟩
  intro j hj hName
  have hSame := hDistinct j i (by omega) hi hName
  omega

/- The name left in the buffer finds its own entry. -/
theorem readDentryByName_padded
    (fs : FileSystem)
    (hDistinct : ∀ i j,
      i < fs.bootBlock.numDirEntries →
      j < fs.bootBlock.numDirEntries →
      (fs.bootBlock.files i).name =
        (fs.bootBlock.files j).name → i = j)
    {i : Nat}
    (hi : i < fs.bootBlock.numDirEntries)
    (buf : Ptr)
    (dentry : Dentry) :
    readDentryByName fs
        (Logic.blit buf 0 33 (fs.bootBlock.files i).padded)
        dentry =
      (0, fillDentry dentry (fs.bootBlock.files i)) := by
  have hFound := readDentryByName_ptr fs
    (Logic.blit buf 0 33 (fs.bootBlock.files i).padded)
    dentry
  rw [cut_padded, lookup_name fs hDistinct hi] at hFound
  exact hFound

/-
  Calls on a fresh descriptor list the names in order and
  then return 0, and each name finds the entry it was listed
  for.
-/
theorem dirRead_lists_directory
    (fs : FileSystem)
    (hCount : fs.bootBlock.numDirEntries ≤ maxFiles)
    (hNonempty : ∀ i, i < fs.bootBlock.numDirEntries →
      (fs.bootBlock.files i).name ≠ [])
    (hDistinct : ∀ i j,
      i < fs.bootBlock.numDirEntries →
      j < fs.bootBlock.numDirEntries →
      (fs.bootBlock.files i).name =
        (fs.bootBlock.files j).name → i = j)
    (fp : FileEntry)
    (hFresh : fp.filePos = 0)
    (calls : List DirCall)
    (call : DirCall) :
    let i := calls.length
    let file := fs.bootBlock.files i
    let last := Logic.run (dirStep fs) fp calls
    let read :=
      dirRead fs last call.buf call.length call.dentry
    (i < fs.bootBlock.numDirEntries →
      read.1 = file.name.length ∧ 0 < read.1 ∧
      (∀ j, j < 33 → read.2.2 j = file.name.getD j 0) ∧
      ∀ dentry,
        let found := readDentryByName fs read.2.2 dentry
        found.1 = 0 ∧ found.2.type = file.type ∧
          found.2.nrInode = file.nrInode) ∧
    (fs.bootBlock.numDirEntries ≤ i → read.1 = 0) := by
  intro i file last read
  have hLast : last.filePos =
      min i fs.bootBlock.numDirEntries := by
    have hStart :
        fp.filePos ≤ fs.bootBlock.numDirEntries := by
      omega
    have hRun := run_dirStep_filePos fs hCount hStart calls
    rwa [hFresh, Nat.zero_add] at hRun
  constructor
  · intro hi
    have hPos : last.filePos = i := by omega
    have hRead := dirRead_of_lt fs last call.buf call.length
      call.dentry (by omega)
    rw [hPos] at hRead
    have hRet : read.1 = file.name.length :=
      congrArg Prod.fst hRead
    have hBuf : read.2.2 =
        Logic.blit call.buf 0 33 file.padded :=
      congrArg (fun r => r.2.2) hRead
    refine ⟨hRet, ?_, ?_, ?_⟩
    · rw [hRet]
      exact_mod_cast
        List.length_pos_of_ne_nil (hNonempty i hi)
    · intro j hj
      rw [hBuf, Logic.blit_apply_of_lt _ _ hj]
      rfl
    · intro dentry found
      have hFound :
          found = (0, fillDentry dentry file) := by
        unfold found
        rw [hBuf]
        exact readDentryByName_padded fs hDistinct hi
          call.buf dentry
      rw [hFound]
      exact ⟨rfl, rfl, rfl⟩
  · intro hi
    have hPos :
        fs.bootBlock.numDirEntries ≤ last.filePos := by
      omega
    exact congrArg Prod.fst
      (dirRead_of_le fs last call.buf call.length
        call.dentry hPos)

/-
  The directory itself, and a file whose name fills its
  field.
-/
def longNameFs : FileSystem :=
  { bootBlock :=
      { numDirEntries := 2
        numInodes := 2
        numDataBlocks := 1
        files := fun i =>
          if i = 0 then
            { filename := fun j => if j = 0 then 46 else 0
              type := typeDir
              nrInode := 0 }
          else
            { filename := fun _ => 97
              type := typeRegular
              nrInode := 1 } }
    fsBlocks := fun _ => 0 }

/- The second call lists the file with the long name. -/
theorem dirRead_lists_directory_longNameFs :
    let fp : FileEntry :=
      { opPtr := .dirOps
        inode := 0
        filePos := 0
        flags := flagInUse }
    let call : DirCall :=
      { buf := fun _ => 1
        length := 33
        dentry := longNameFs.bootBlock.files 0 }
    let last := Logic.run (dirStep longNameFs) fp [call]
    let read :=
      dirRead longNameFs last call.buf call.length
        call.dentry
    read.1 = 32 ∧
      (readDentryByName longNameFs read.2.2
        call.dentry).2.nrInode = 1 := by
  intro fp call last read
  have hNames : (longNameFs.bootBlock.files 0).name ≠
      (longNameFs.bootBlock.files 1).name := by
    decide
  have hList := dirRead_lists_directory longNameFs
    (by decide)
    (by
      intro i hi
      have hCases : i = 0 ∨ i = 1 := by
        simp only [longNameFs] at hi
        omega
      rcases hCases with rfl | rfl <;> decide)
    (by
      intro i j hi hj hName
      have hCases : (i = 0 ∨ i = 1) ∧ (j = 0 ∨ j = 1) := by
        simp only [longNameFs] at hi hj
        omega
      rcases hCases with ⟨rfl | rfl, rfl | rfl⟩
      · rfl
      · exact absurd hName hNames
      · exact absurd hName.symm hNames
      · rfl)
    fp rfl [call] call
  have hLength : (((longNameFs.bootBlock.files 1
      ).name.length : Nat) : Int) = 32 := by
    decide
  rcases hList.1 (by decide) with ⟨hRet, -, -, hFound⟩
  refine ⟨hRet.trans hLength, ?_⟩
  rw [(hFound call.dentry).2.2]
  rfl

end MartianPendulum
