import MartianPendulum.FileSystem.FileTable
import MartianPendulum.FileSystem.SequentialRead
import MartianPendulum.FileSystem.Directory
import MartianPendulum.Kernel.Getargs

/-
  The system calls as the user programs see them.

  A world is what a program acts on: the descriptor table
  of its process, and the bytes that `terminal_write` has
  been given.  What the kernel finds in its uninitialised
  locals and in the keyboard buffer differs from call to
  call.

  Key definitions include:
    * `Host`
    * `World`
    * `ece391Open`, `ece391Close`
    * `ece391Read`, `ece391Write`
    * `ece391Fdputs`
    * `World.Reads`

  Key theorems include:
    * `ece391Write_stdout`
    * `ece391Fdputs_stdout`
    * `ece391Open_eq`
    * `World.Reads.read`
-/

------------------------------------------------------------
-- Worlds
------------------------------------------------------------

namespace MartianPendulum

/- The part of the machine that a program cannot change. -/
structure Host where
  fs : FileSystem
  -- what the locals of each call hold at first
  stack : Nat → StackBytes
  -- the keyboard buffer at each call
  kbd : Nat → Ptr
  -- memory from the arguments in the PCB on
  args : Ptr

structure World where
  table : FileTable
  out : List UInt8
  calls : Nat

namespace World

/- The descriptor is served by the terminal. -/
def onTerminal
    (w : World)
    (fd : Int) : Bool :=
  (w.table fd).opPtr = .stdinOps ||
    (w.table fd).opPtr = .stdoutOps

end World

/- The string that a pointer points to. -/
def stringAt
    (p : Ptr) : CString :=
  CString.ofPtr p (2 ^ 32)

def ece391Open
    (h : Host)
    (filename : Ptr)
    (w : World) :
    Int × World :=
  let opened := syscallOpen h.fs (h.stack w.calls)
    (some (stringAt filename)) w.table
  (opened.1,
    { w with table := opened.2, calls := w.calls + 1 })

def ece391Close
    (fd : Int)
    (w : World) :
    Int × World :=
  let closed := syscallClose fd w.table
  (closed.1,
    { w with table := closed.2, calls := w.calls + 1 })

def ece391Read
    (h : Host)
    (fd : Int)
    (buf : Ptr)
    (nbytes : Int)
    (w : World) :
    Option (Int × Ptr × World) := do
  let read ← syscallRead h.fs (h.stack w.calls)
    (h.kbd w.calls) fd { isNull := false, mem := buf } nbytes
    w.table
  some (read.1, read.2.2,
    { w with table := read.2.1, calls := w.calls + 1 })

/- A successful write to the terminal prints the bytes. -/
def ece391Write
    (fd : Int)
    (buf : Ptr)
    (nbytes : Int)
    (w : World) :
    Option (Int × World) := do
  let written ← syscallWrite fd
    { isNull := false, mem := buf } nbytes w.table
  let printed :=
    if w.onTerminal fd ∧ written.1 ≠ -1 then
      (List.range nbytes.toNat).map buf
    else []
  some (written.1,
    { table := written.2
      out := w.out ++ printed
      calls := w.calls + 1 })

/- `ece391_fdputs` -/
def ece391Fdputs
    (fd : Int)
    (s : Ptr)
    (w : World) : Option World := do
  let written ← ece391Write fd s (strlen s) w
  some written.2

/- `syscall_getargs`, with the memory that it reads. -/
def ece391Getargs
    (h : Host)
    (buf : Ptr)
    (nbytes : Int) :
    Int × Ptr :=
  if nbytes < 0 then (-1, buf)
  else if h.args 0 = 0 then (-1, buf)
  else (0, copyArgs h.args buf nbytes.toNat)

theorem ece391Getargs_eq
    (h : Host)
    (opAddr : OpPtr → Nat)
    (rest : PcbRest)
    (g : Control)
    (hArgs : h.args = argsMemory opAddr rest g.cur)
    (buf : Ptr)
    (nbytes : Int) :
    ece391Getargs h buf nbytes =
      g.syscallGetargs opAddr rest
        { isNull := false, mem := buf } nbytes := by
  simp only [ece391Getargs, Control.syscallGetargs, hArgs,
    Bool.false_eq_true, or_false]

/- A text of the program, as a string in memory. -/
def literal
    (s : String) : Ptr :=
  fun i => (text s).getD i 0

end MartianPendulum

------------------------------------------------------------
-- Writing
------------------------------------------------------------

namespace MartianPendulum

namespace World

/- Descriptor 1 is the terminal, as `execute` sets it up. -/
def StdoutOpen
    (w : World) : Prop :=
  (w.table 1).flags = flagInUse ∧
    (w.table 1).opPtr = .stdoutOps

/- Bytes printed. -/
def print
    (w : World)
    (bytes : List UInt8) : World :=
  { w with
    out := w.out ++ bytes
    calls := w.calls + 1 }

@[simp] theorem print_table
    (w : World)
    (bytes : List UInt8) :
    (w.print bytes).table = w.table := rfl

@[simp] theorem print_out
    (w : World)
    (bytes : List UInt8) :
    (w.print bytes).out = w.out ++ bytes := rfl

end World

theorem ece391Write_stdout
    {w : World}
    (hOut : w.StdoutOpen)
    (buf : Ptr)
    {n : Nat}
    (hn : 0 < n) :
    ece391Write 1 buf n w =
      some ((n : Int), w.print ((List.range n).map buf)) := by
  have hPos : ¬ (n : Int) ≤ 0 := by omega
  have hWrite : syscallWrite 1
      { isNull := false, mem := buf } n w.table =
        some ((n : Int), w.table) := by
    simp only [syscallWrite, hOut.1, hOut.2,
      terminalWriteResult, hPos, Bool.false_eq_true,
      or_self, if_false]
    rfl
  have hPrints : w.onTerminal 1 = true := by
    simp [World.onTerminal, hOut.2]
  have hDone : (n : Int) ≠ -1 := by omega
  simp only [ece391Write, hWrite, Option.bind_eq_bind,
    Option.bind_some, hPrints, ne_eq, hDone, not_false_iff,
    and_self, if_true, Int.toNat_natCast]
  rfl

/- Memory that starts with a string. -/
structure Spells
    (p : Ptr)
    (chars : List UInt8) : Prop where
  nonzero : ∀ c ∈ chars, c ≠ 0
  char : ∀ i < chars.length, p i = chars.getD i 0
  nul : p chars.length = 0

theorem Spells.first
    {p : Ptr}
    {chars : List UInt8}
    (hSpells : Spells p chars) :
    p 0 = chars.headD 0 := by
  cases chars with
  | nil => exact hSpells.nul
  | cons c chars => exact hSpells.char 0 (Nat.succ_pos _)

theorem Spells.ne_zero
    {p : Ptr}
    {chars : List UInt8}
    (hSpells : Spells p chars)
    {i : Nat}
    (hi : i < chars.length) :
    p i ≠ 0 := by
  rw [hSpells.char i hi, List.getD_eq_getElem _ _ hi]
  exact hSpells.nonzero _ (List.getElem_mem hi)

theorem Spells.stringAt
    {p : Ptr}
    {chars : List UInt8}
    (hSpells : Spells p chars)
    (hLength : chars.length < 2 ^ 32) :
    (stringAt p).chars = chars :=
  cut_eq_of (Nat.le_of_lt hLength) hSpells.char
    hSpells.nonzero (fun _ => hSpells.nul)

theorem spells_literal
    {s : String}
    (hChars : 0 ∉ text s) :
    Spells (literal s) (text s) :=
  ⟨fun _ hc => ne_of_mem_of_not_mem hc hChars,
    fun _ _ => rfl, List.getD_eq_default _ _ le_rfl⟩

theorem map_range_of_getD
    {buf : Ptr}
    {chars : List UInt8}
    (hChars : ∀ i < chars.length, buf i = chars.getD i 0) :
    (List.range chars.length).map buf = chars := by
  apply List.ext_getElem
  · simp
  · intro i hi hi'
    rw [List.getElem_map, List.getElem_range, hChars i hi',
      List.getD_eq_getElem _ _ hi']

/- A string that is printed appears without its NUL. -/
theorem ece391Fdputs_stdout
    {w : World}
    (hOut : w.StdoutOpen)
    {s : Ptr}
    {chars : List UInt8}
    (hSpells : Spells s chars)
    (hLength : chars.length < 2 ^ 32) :
    ece391Fdputs 1 s w = some (w.print chars) := by
  have hStrlen : strlen s = chars.length :=
    strlen_eq s hLength hSpells.nul
      (fun i hi => hSpells.ne_zero hi)
  unfold ece391Fdputs
  rw [hStrlen]
  by_cases hEmpty : chars = []
  · simp only [ece391Write, syscallWrite, hOut.1, hOut.2,
      hEmpty, terminalWriteResult]
    simp [World.print, flagInUse, flagFree]
  · rw [ece391Write_stdout hOut s
      (List.length_pos_of_ne_nil hEmpty),
      map_range_of_getD hSpells.char]
    rfl

/- A message of a program is printed as it is written. -/
theorem ece391Fdputs_literal
    {w : World}
    (hOut : w.StdoutOpen)
    {s : String}
    (hChars : 0 ∉ text s)
    (hLength : (text s).length < 2 ^ 32) :
    ece391Fdputs 1 (literal s) w =
      some (w.print (text s)) :=
  ece391Fdputs_stdout hOut (spells_literal hChars) hLength

/- A program gets its arguments if they fit its buffer. -/
theorem ece391Getargs_holds
    (h : Host)
    {chars : List UInt8}
    (hArgs : Spells h.args chars)
    (hNonempty : chars ≠ [])
    (buf : Ptr)
    {n : Nat}
    (hFits : chars.length < n) :
    ∃ buf', ece391Getargs h buf n = (0, buf') ∧
      Spells buf' chars := by
  have hPos := List.length_pos_of_ne_nil hNonempty
  have hFirst : h.args 0 ≠ 0 := hArgs.ne_zero hPos
  have hNotNeg : ¬ (n : Int) < 0 := by omega
  refine ⟨copyArgs h.args buf n, ?_, hArgs.nonzero, ?_, ?_⟩
  · simp only [ece391Getargs, hNotNeg, hFirst, if_false,
      Int.toNat_natCast]
  · intro i hi
    rw [copyArgs_eq_blit,
      Logic.blit_apply_of_lt _ _ (by omega)]
    exact hArgs.char i hi
  · rw [copyArgs_eq_blit, Logic.blit_apply_of_lt _ _ hFits]
    exact hArgs.nul

end MartianPendulum

------------------------------------------------------------
-- Opening and Closing
------------------------------------------------------------

namespace MartianPendulum

/- The scan of `syscall_open`. -/
def World.freeFd
    (w : World) : Option Int :=
  [2, 3, 4, 5, 6, 7].find?
    (fun idx => (w.table idx).flags = flagFree)

theorem World.freeFd_range
    {w : World}
    {fd : Int}
    (hFree : w.freeFd = some fd) :
    2 ≤ fd ∧ fd ≤ 7 := by
  have hMem := List.mem_of_find?_eq_some hFree
  simp only [List.mem_cons, List.not_mem_nil, or_false]
    at hMem
  omega

/- The entry of a file that was just opened. -/
def freshEntry
    (file : Dentry) : FileEntry :=
  { opPtr := (kindOfType file.type).ops
    inode := file.nrInode
    filePos := 0
    flags := flagInUse }

/- One entry of the table replaced by a call. -/
def World.setEntry
    (w : World)
    (fd : Int)
    (e : FileEntry) : World :=
  { w with
    table := Function.update w.table fd e
    calls := w.calls + 1 }

theorem ece391Open_eq
    (h : Host)
    {filename : Ptr}
    {file : Dentry}
    {fd : Int}
    {w : World}
    (hFile : h.fs.lookup (stringAt filename).chars =
      some file)
    (hType : file.type ≤ 2)
    (hFree : w.freeFd = some fd) :
    ece391Open h filename w =
      (fd, w.setEntry fd (freshEntry file)) := by
  unfold ece391Open
  rcases syscallOpen_cases h.fs (h.stack w.calls)
      (some (stringAt filename)) w.table with
    ⟨_, hNone | hFull⟩ |
    ⟨name, file', idx, hName, hFile', hFind, hOpen⟩
  · rw [hNone _ rfl] at hFile
    cases hFile
  · rw [World.freeFd, hFull] at hFree
    cases hFree
  · cases hName
    rw [hFile] at hFile'
    cases hFile'
    rw [World.freeFd, hFind] at hFree
    cases hFree
    rw [hOpen, opsOfType_of_le hType]
    rfl

theorem ece391Open_missing
    (h : Host)
    {filename : Ptr}
    {w : World}
    (hFile : h.fs.lookup (stringAt filename).chars = none) :
    ece391Open h filename w =
      (-1, { w with calls := w.calls + 1 }) := by
  unfold ece391Open
  rcases syscallOpen_cases h.fs (h.stack w.calls)
      (some (stringAt filename)) w.table with
    ⟨hOpen, _⟩ | ⟨name, file', idx, hName, hFile', _, _⟩
  · rw [hOpen]
  · cases hName
    rw [hFile] at hFile'
    cases hFile'

theorem ece391Close_eq
    {fd : Int}
    {w : World}
    (hLow : 2 ≤ fd)
    (hHigh : fd ≤ 7)
    (hUse : (w.table fd).flags = flagInUse) :
    ece391Close fd w =
      (0, w.setEntry fd
        { w.table fd with flags := flagFree }) := by
  have hRange : ¬ (fd < 2 ∨ fd > 7) := by omega
  have hNotFree : ¬ (w.table fd).flags = flagFree := by
    rw [hUse]
    exact flagInUse_ne_flagFree
  simp only [ece391Close, syscallClose, hRange, hNotFree,
    if_false]
  rfl

end MartianPendulum

------------------------------------------------------------
-- Reading
------------------------------------------------------------

namespace MartianPendulum

namespace World

/-
  Descriptor `fd` is a regular file at a position within it,
  and descriptor 1 the terminal.
-/
structure Reads
    (fs : FileSystem)
    (fd : Int)
    (inode pos : Nat)
    (w : World) : Prop where
  low : 2 ≤ fd
  high : fd ≤ 7
  entry : w.table fd =
    { opPtr := .regularFileOps
      inode := inode
      filePos := pos
      flags := flagInUse }
  stdout : w.StdoutOpen
  pos_le : pos ≤ fs.inodeLength inode

variable {fs : FileSystem}
variable {fd : Int}
variable {inode pos : Nat}
variable {w : World}

/- Printing does not touch the file. -/
theorem Reads.print
    (hReads : w.Reads fs fd inode pos)
    (bytes : List UInt8) :
    (w.print bytes).Reads fs fd inode pos :=
  ⟨hReads.low, hReads.high, hReads.entry, hReads.stdout,
    hReads.pos_le⟩

/- Descriptor 1 stays the terminal. -/
theorem StdoutOpen.setEntry
    (hOut : w.StdoutOpen)
    (hLow : 2 ≤ fd)
    (e : FileEntry) :
    (w.setEntry fd e).StdoutOpen := by
  have hNe : (1 : Int) ≠ fd := by omega
  simp only [StdoutOpen, World.setEntry,
    Function.update_of_ne hNe]
  exact hOut

/- The world after a read up to another position. -/
def moved
    (w : World)
    (fd : Int)
    (pos : Nat) : World :=
  w.setEntry fd { w.table fd with filePos := pos }

theorem Reads.moved
    (hReads : w.Reads fs fd inode pos)
    (pos' : Nat)
    (hPos : pos' ≤ fs.inodeLength inode) :
    (w.moved fd pos').Reads fs fd inode pos' := by
  refine ⟨hReads.low, hReads.high, ?_,
    hReads.stdout.setEntry hReads.low _, hPos⟩
  simp only [World.moved, World.setEntry,
    Function.update_self, hReads.entry]

/-
  A read delivers the next bytes of the file, as many as
  were asked for or as there are.
-/
theorem Reads.read
    {h : Host}
    (hReads : w.Reads h.fs fd inode pos)
    (hGood : h.fs.GoodFile inode)
    (buf : Ptr)
    {n m : Nat}
    (hn : n < 2 ^ 31)
    (hm : m = min n (h.fs.inodeLength inode - pos)) :
    ece391Read h fd buf n w =
      some ((m : Int),
        Logic.blit buf 0 m
          (fun k => h.fs.fileByte inode (pos + k)),
        w.moved fd (pos + m)) := by
  have hLow := hReads.low
  have hHigh := hReads.high
  have hPos := hReads.pos_le
  have hRange : ¬ (fd ≥ 8 ∨ fd < 0 ∨ fd = 1) := by omega
  have hWords : u32 (n : Int) = n := u32_of_lt (by omega)
  have hRead := fileRead_eq h.fs (w.table fd) buf
    (by rw [hReads.entry]; exact hGood)
    (by rw [hReads.entry]; exact hPos) hn
  have hNext : min (pos + n) (h.fs.inodeLength inode) =
      pos + m := by omega
  rw [hReads.entry] at hRead
  simp only [← hm, hNext] at hRead
  simp only [ece391Read, syscallRead, hRange, hReads.entry,
    flagInUse_ne_flagFree, if_false, hWords, hRead,
    Option.bind_eq_bind, Option.bind_some, World.moved,
    World.setEntry]

end World

/- The bytes of a file, from a position on. -/
def FileSystem.bytesFrom
    (fs : FileSystem)
    (inode pos : Nat) : List UInt8 :=
  (List.range' pos (fs.inodeLength inode - pos)).map
    (fs.fileByte inode)

/- What a read delivers comes off the front. -/
theorem FileSystem.bytesFrom_split
    (fs : FileSystem)
    (inode : Nat)
    {pos m : Nat}
    (hm : m ≤ fs.inodeLength inode - pos) :
    fs.bytesFrom inode pos =
      (List.range m).map
        (fun k => fs.fileByte inode (pos + k)) ++
      fs.bytesFrom inode (pos + m) := by
  have hRest : fs.inodeLength inode - pos =
      m + (fs.inodeLength inode - (pos + m)) := by omega
  have hHead : (List.range m).map
      (fun k => fs.fileByte inode (pos + k)) =
        (List.range' pos m).map (fs.fileByte inode) := by
    rw [List.range'_eq_map_range, List.map_map]
    rfl
  have hRange := @List.range'_append_1 pos m
    (fs.inodeLength inode - (pos + m))
  rw [hHead, bytesFrom, bytesFrom, ← List.map_append,
    hRange, ← hRest]

/- A read from the clock delivers nothing. -/
theorem ece391Read_rtc
    (h : Host)
    {fd : Int}
    {w : World}
    (hLow : 2 ≤ fd)
    (hHigh : fd ≤ 7)
    (hUse : (w.table fd).flags = flagInUse)
    (hOps : (w.table fd).opPtr = .rtcOps)
    (buf : Ptr)
    (nbytes : Int) :
    ece391Read h fd buf nbytes w =
      some (0, buf, { w with calls := w.calls + 1 }) := by
  have hRange : ¬ (fd ≥ 8 ∨ fd < 0 ∨ fd = 1) := by omega
  simp only [ece391Read, syscallRead, hRange, hUse, hOps,
    flagInUse_ne_flagFree, if_false]
  rfl

end MartianPendulum

------------------------------------------------------------
-- Reading the Directory
------------------------------------------------------------

namespace MartianPendulum

namespace World

/- Descriptor `fd` is the directory, at an entry of it. -/
structure Lists
    (fs : FileSystem)
    (fd : Int)
    (inode pos : Nat)
    (w : World) : Prop where
  low : 2 ≤ fd
  high : fd ≤ 7
  entry : w.table fd =
    { opPtr := .dirOps
      inode := inode
      filePos := pos
      flags := flagInUse }
  stdout : w.StdoutOpen
  count : fs.bootBlock.numDirEntries ≤ maxFiles

variable {fs : FileSystem}
variable {fd : Int}
variable {inode pos : Nat}
variable {w : World}

theorem Lists.print
    (hLists : w.Lists fs fd inode pos)
    (bytes : List UInt8) :
    (w.print bytes).Lists fs fd inode pos :=
  ⟨hLists.low, hLists.high, hLists.entry, hLists.stdout,
    hLists.count⟩

theorem Lists.moved
    (hLists : w.Lists fs fd inode pos)
    (pos' : Nat) :
    (w.moved fd pos').Lists fs fd inode pos' := by
  refine ⟨hLists.low, hLists.high, ?_,
    hLists.stdout.setEntry hLists.low _, hLists.count⟩
  simp only [World.moved, World.setEntry,
    Function.update_self, hLists.entry]

/- A read delivers the name of the next entry. -/
theorem Lists.read
    {h : Host}
    (hLists : w.Lists h.fs fd inode pos)
    (hPos : pos < h.fs.bootBlock.numDirEntries)
    (buf : Ptr)
    (nbytes : Int) :
    ece391Read h fd buf nbytes w =
      some (((h.fs.bootBlock.files pos).name.length : Int),
        Logic.blit buf 0 33 (h.fs.bootBlock.files pos).padded,
        w.moved fd (pos + 1)) := by
  have hLow := hLists.low
  have hHigh := hLists.high
  have hCount := hLists.count
  have hRange : ¬ (fd ≥ 8 ∨ fd < 0 ∨ fd = 1) := by omega
  have hNext : u32 ((pos : Int) + 1) = pos + 1 := by
    unfold maxFiles at hCount
    unfold u32
    omega
  have hRead := dirRead_of_lt h.fs (w.table fd) buf
    (u32 nbytes) (h.stack w.calls).dentry
    (by rw [hLists.entry]; exact hPos)
  rw [hLists.entry] at hRead
  simp only [hNext] at hRead
  simp only [ece391Read, syscallRead, hRange, hLists.entry,
    flagInUse_ne_flagFree, if_false, hRead,
    Option.bind_eq_bind, Option.bind_some, World.moved,
    World.setEntry]

/- After the last entry a read delivers nothing. -/
theorem Lists.read_end
    {h : Host}
    (hLists : w.Lists h.fs fd inode pos)
    (hPos : h.fs.bootBlock.numDirEntries ≤ pos)
    (buf : Ptr)
    (nbytes : Int) :
    ece391Read h fd buf nbytes w =
      some (0, buf, w.moved fd pos) := by
  have hLow := hLists.low
  have hHigh := hLists.high
  have hRange : ¬ (fd ≥ 8 ∨ fd < 0 ∨ fd = 1) := by omega
  have hRead := dirRead_of_le h.fs (w.table fd) buf
    (u32 nbytes) (h.stack w.calls).dentry
    (by rw [hLists.entry]; exact hPos)
  rw [hLists.entry] at hRead
  simp only [ece391Read, syscallRead, hRange, hLists.entry,
    flagInUse_ne_flagFree, if_false, hRead,
    Option.bind_eq_bind, Option.bind_some, World.moved,
    World.setEntry]

end World

/- The directory entries, from one of them on. -/
def FileSystem.entriesFrom
    (fs : FileSystem)
    (pos : Nat) : List Dentry :=
  (List.range' pos (fs.bootBlock.numDirEntries - pos)).map
    fs.bootBlock.files

theorem FileSystem.entriesFrom_of_lt
    (fs : FileSystem)
    {pos : Nat}
    (hPos : pos < fs.bootBlock.numDirEntries) :
    fs.entriesFrom pos =
      fs.bootBlock.files pos :: fs.entriesFrom (pos + 1) := by
  have hCount : fs.bootBlock.numDirEntries - pos =
      (fs.bootBlock.numDirEntries - (pos + 1)) + 1 := by
    omega
  rw [FileSystem.entriesFrom, hCount, List.range'_succ]
  rfl

theorem FileSystem.entriesFrom_of_le
    (fs : FileSystem)
    {pos : Nat}
    (hPos : fs.bootBlock.numDirEntries ≤ pos) :
    fs.entriesFrom pos = [] := by
  rw [FileSystem.entriesFrom,
    Nat.sub_eq_zero_of_le hPos]
  rfl

end MartianPendulum

------------------------------------------------------------
-- Listing the Directory
------------------------------------------------------------

namespace MartianPendulum

namespace FileSystem

/- The names up to the first entry without one. -/
def listed
    (fs : FileSystem)
    (pos : Nat) : List (List UInt8) :=
  ((fs.entriesFrom pos).map Dentry.name).takeWhile
    (fun name => name ≠ [])

variable (fs : FileSystem)

theorem listed_of_named
    {pos : Nat}
    (hPos : pos < fs.bootBlock.numDirEntries)
    (hName : (fs.bootBlock.files pos).name ≠ []) :
    fs.listed pos =
      (fs.bootBlock.files pos).name ::
        fs.listed (pos + 1) := by
  rw [listed, fs.entriesFrom_of_lt hPos, List.map_cons,
    List.takeWhile_cons_of_pos (by simpa using hName)]
  rfl

/- The list stops where a read returns 0. -/
theorem listed_of_unnamed
    {pos : Nat}
    (hName : pos < fs.bootBlock.numDirEntries →
      (fs.bootBlock.files pos).name = []) :
    fs.listed pos = [] := by
  by_cases hPos : pos < fs.bootBlock.numDirEntries
  · rw [listed, fs.entriesFrom_of_lt hPos, List.map_cons,
      List.takeWhile_cons_of_neg (by simp [hName hPos])]
  · rw [listed, fs.entriesFrom_of_le (by omega)]
    rfl

end FileSystem

/-
  One read of the directory: the loop goes on after an entry
  with a name, and stops otherwise.
-/
theorem World.Lists.read_cases
    {h : Host}
    {fd : Int}
    {inode pos : Nat}
    {w : World}
    (hLists : w.Lists h.fs fd inode pos)
    (buf : Ptr)
    (nbytes : Int) :
    (∃ name, name = (h.fs.bootBlock.files pos).name ∧
      name ≠ [] ∧ pos < h.fs.bootBlock.numDirEntries ∧
      h.fs.listed pos = name :: h.fs.listed (pos + 1) ∧
      ∃ buf', (∀ i < name.length,
          buf' i = name.getD i 0) ∧
        ece391Read h fd buf nbytes w =
          some ((name.length : Int), buf',
            w.moved fd (pos + 1))) ∨
    (h.fs.listed pos = [] ∧
      ∃ buf' pos', ece391Read h fd buf nbytes w =
        some (0, buf', w.moved fd pos')) := by
  by_cases hPos : pos < h.fs.bootBlock.numDirEntries
  · have hRead := hLists.read hPos buf nbytes
    by_cases hName : (h.fs.bootBlock.files pos).name = []
    · right
      refine ⟨h.fs.listed_of_unnamed (fun _ => hName),
        Logic.blit buf 0 33 (h.fs.bootBlock.files pos).padded,
        pos + 1, ?_⟩
      rw [hRead, hName]
      rfl
    · left
      have hShort :=
        (h.fs.bootBlock.files pos).length_name_le
      refine ⟨_, rfl, hName, hPos,
        h.fs.listed_of_named hPos hName, _, ?_, hRead⟩
      intro i hi
      rw [Logic.blit_apply_of_lt _ _ (by omega)]
      rfl
  · right
    exact ⟨h.fs.listed_of_unnamed (fun hLt => absurd hLt hPos),
      buf, pos, hLists.read_end (by omega) buf nbytes⟩

end MartianPendulum

------------------------------------------------------------
-- Programs
------------------------------------------------------------

namespace MartianPendulum

/- A program that prints and exits with a status. -/
def Exits
    (run : Option (Int × World))
    (w : World)
    (status : Int)
    (bytes : List UInt8) : Prop :=
  ∃ w', run = some (status, w') ∧ w'.out = w.out ++ bytes

/- A message, and the end of the program. -/
theorem exits_message
    {w : World}
    (hOut : w.StdoutOpen)
    {s : String}
    (hChars : 0 ∉ text s)
    (hLength : (text s).length < 2 ^ 32)
    (status : Int) :
    Exits
      (do
        let w ← ece391Fdputs 1 (literal s) w
        some (status, w)) w status (text s) := by
  refine ⟨w.print (text s), ?_, rfl⟩
  rw [ece391Fdputs_literal hOut hChars hLength]
  rfl

/-
  A file system that the programs can read: entries are of
  the three types, and the regular ones have good inodes.
-/
structure FileSystem.Readable
    (fs : FileSystem) : Prop where
  count : fs.bootBlock.numDirEntries ≤ maxFiles
  type_le : ∀ i < fs.bootBlock.numDirEntries,
    (fs.bootBlock.files i).type ≤ 2
  good : ∀ i < fs.bootBlock.numDirEntries,
    (fs.bootBlock.files i).type = typeRegular →
      fs.GoodFile (fs.bootBlock.files i).nrInode

/- A directory and a file that ends within its first block. -/
theorem FileSystem.readable_of_one_block
    {fs : FileSystem}
    (hCount : fs.bootBlock.numDirEntries = 2)
    (hDir : (fs.bootBlock.files 0).type = typeDir)
    (hFile : (fs.bootBlock.files 1).type = typeRegular)
    {inode : Nat}
    (hInode : (fs.bootBlock.files 1).nrInode = inode)
    (hRange : inode < maxFiles)
    (hLength : fs.inodeLength inode < blockSize)
    (hBlock : fs.inodeBlock inode 0 <
      fs.bootBlock.numDataBlocks) :
    fs.Readable := by
  have hCases : ∀ i, i < fs.bootBlock.numDirEntries →
      i = 0 ∨ i = 1 := by
    intro i hi
    omega
  refine ⟨?_, ?_, ?_⟩
  · rw [hCount]
    decide
  · intro i hi
    rcases hCases i hi with rfl | rfl
    · rw [hDir]
      decide
    · rw [hFile]
      decide
  · intro i hi hType
    rcases hCases i hi with rfl | rfl
    · rw [hDir] at hType
      cases hType
    · rw [hInode]
      refine ⟨hRange, ?_, ?_⟩
      · exact lt_of_lt_of_le hLength (by decide)
      · intro j hj
        rw [Nat.div_eq_of_lt hLength] at hj
        rw [Nat.le_zero.mp hj]
        exact hBlock

/- The table of a new process, and nothing printed. -/
def startWorld : World :=
  { table := initFileTable (fun _ => staleEntry)
    out := []
    calls := 0 }

/- A program with an argument. -/
def sampleHost
    (fs : FileSystem)
    (arg : String) : Host :=
  { fs := fs
    stack := fun _ =>
      { dentry := fs.bootBlock.files 0
        fde := staleEntry }
    kbd := fun _ _ => 0
    args := literal arg }

end MartianPendulum
