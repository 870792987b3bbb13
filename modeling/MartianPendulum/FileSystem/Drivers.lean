import MartianPendulum.FileSystem.ReadData

/-
  The operations behind the `read` and `write` pointers of
  the five operation tables: regular files, directories, the
  RTC and the terminal.

  A driver gets the address of the descriptor entry, so a
  read returns the entry as well.  The blocking reads are
  given as the value they return once they do: `rtcRead`
  after the interrupt, `terminalRead` with the contents
  `kbd` of the keyboard buffer once a line is ready.

  Key definitions include:
    * `FileEntry`
    * `fileRead`
    * `dirRead`
    * `terminalRead`
    * `rtcWriteResult`
-/

------------------------------------------------------------
-- Descriptor Entries
------------------------------------------------------------

namespace MartianPendulum

/-
  A value of the field `op_ptr`: the address of one of the
  operation tables, or anything else.
-/
inductive OpPtr where
| stdinOps
| stdoutOps
| dirOps
| rtcOps
| regularFileOps
| other (addr : UInt32)
deriving DecidableEq

/- Flags `OERROR`, `IN_USE` and `FREE`. -/
def flagOerror : Nat := 0
def flagInUse : Nat := 1
def flagFree : Nat := 2

/- `file_entry` -/
structure FileEntry where
  opPtr : OpPtr
  inode : Nat
  filePos : Nat
  flags : Nat

/- A descriptor entry with stale contents. -/
def staleEntry : FileEntry :=
  { opPtr := .other 0
    inode := 0
    filePos := 0
    flags := 0 }

/- A buffer argument: whether it is `NULL`, and its bytes. -/
structure Buf where
  isNull : Bool
  mem : Ptr

end MartianPendulum

------------------------------------------------------------
-- Regular Files and Directories
------------------------------------------------------------

namespace MartianPendulum

/-
  `file_open` and `dir_open` differ in the operation table;
  `dentry` and `fde` are the uninitialised locals.
-/
def openEntry
    (ops : OpPtr)
    (fs : FileSystem)
    (fname : Ptr)
    (dentry : Dentry)
    (fde : FileEntry) : FileEntry :=
  let found := readDentryByName fs fname dentry
  if found.1 = -1 then { fde with flags := flagOerror }
  else
    { opPtr := ops
      inode := found.2.nrInode
      filePos := 0
      flags := flagInUse }

def fileOpen := openEntry .regularFileOps

def dirOpen := openEntry .dirOps

/- `file_read`; `length` is a `uint32_t`. -/
def fileRead
    (fs : FileSystem)
    (fp : FileEntry)
    (buf : Ptr)
    (length : Nat) :
    Int × FileEntry × Ptr :=
  let read := readData fs fp.inode fp.filePos buf length
  let res := u32 read.1
  if res ≠ u32 (-1) then
    (s32 res,
      { fp with filePos := u32 (fp.filePos + res) }, read.2)
  else (-1, fp, read.2)

/- `dir_read`; the requested length is not used. -/
def dirRead
    (fs : FileSystem)
    (fp : FileEntry)
    (buf : Ptr)
    (_length : Nat)
    (dentry : Dentry) :
    Int × FileEntry × Ptr :=
  let index := fp.filePos
  if index ≥ fs.bootBlock.numDirEntries then (0, fp, buf)
  else
    let filled := (readDentryByIndex fs index dentry).2
    let cleared := Logic.blit buf 0 33 (fun _ => 0)
    let copied :=
      copyUntilNul filled.filename filenameMaxChar 0 cleared
    ((copied.1 : Int),
      { fp with filePos := u32 (fp.filePos + 1) }, copied.2)

/- `file_write` and `dir_write`: a read-only file system. -/
def fileWrite : Int := -1
def dirWrite : Int := -1

end MartianPendulum

------------------------------------------------------------
-- Terminal and RTC
------------------------------------------------------------

namespace MartianPendulum

/- `KBD_BUF_SIZE` -/
def kbdBufSize : Nat := 128

/- The character `'\n'`. -/
def newline : UInt8 := 10

/-
  The copying loop of `read_from_kbd_buf_to_buf`, `n`
  iterations before `nbytes` is reached.
-/
def readKbdLoop
    (kbd : Ptr) :
    Nat → Nat → Ptr → Nat × Ptr
| 0, i, buf => (i, buf)
| n + 1, i, buf =>
    if i > kbdBufSize - 1 then (i, buf)
    else
      let readChar := kbd i
      let buf' := Function.update buf i readChar
      if readChar = newline then (i + 1, buf')
      else readKbdLoop kbd n (i + 1) buf'

/- `terminal_read` once the keyboard buffer is ready. -/
def terminalRead
    (kbd : Ptr)
    (buf : Buf)
    (nbytes : Int) :
    Int × Ptr :=
  if buf.isNull ∨ nbytes ≤ 0 then (-1, buf.mem)
  else
    let copied := readKbdLoop kbd nbytes.toNat 0 buf.mem
    ((copied.1 : Int), copied.2)

/- The value `terminal_write` returns. -/
def terminalWriteResult
    (buf : Buf)
    (nbytes : Int) : Int :=
  if buf.isNull ∨ nbytes ≤ 0 then -1 else nbytes

/- `rtc_read` after the interrupt it waits for. -/
def rtcRead : Int := 0

/- The `int32_t` at the start of a buffer. -/
def Buf.int32
    (buf : Buf) : Int :=
  s32 ((buf.mem 0).toNat + (buf.mem 1).toNat * 2 ^ 8 +
    (buf.mem 2).toNat * 2 ^ 16 + (buf.mem 3).toNat * 2 ^ 24)

/-
  The check of `set_frequency`: the bounds and the power of
  two test on 32-bit words.
-/
def validFrequency
    (fre : Int) : Bool :=
  2 ≤ fre && fre ≤ 1024 &&
    (BitVec.ofInt 32 (fre - 1) &&& BitVec.ofInt 32 fre) = 0

/- The value `rtc_write` returns. -/
def rtcWriteResult
    (buf : Buf)
    (nbytes : Int) : Int :=
  if nbytes ≠ 4 ∨ buf.isNull then -1
  else if validFrequency buf.int32 then 0
  else -1

end MartianPendulum
