import MartianPendulum.FileSystem.Drivers
import MartianPendulum.Logic.Run
import MartianPendulum.Logic.Scan

/-
  The descriptor table of a process and the system calls
  `open`, `close`, `read` and `write` on it.

  The table is eight entries with stale fields after a
  close; its purpose is a partial map from the descriptors
  2 to 7 to open files.  `openFiles` is that map, and
  `CallSpec` says what each call does to it.

  Key definitions include:
    * `FileTable`
    * `initFileTable`
    * `syscallOpen`, `syscallClose`
    * `syscallRead`, `syscallWrite`
    * `openFiles`
    * `CallSpec`

  Key theorems include:
    * `TableOk.fileCall`
    * `fileTable_refines_openFiles`
-/

------------------------------------------------------------
-- The Table and Its System Calls
------------------------------------------------------------

namespace MartianPendulum

/- `pcb_fds`, indexed by the C integer. -/
abbrev FileTable := Int → FileEntry

/- What the uninitialised locals of a call hold. -/
structure StackBytes where
  dentry : Dentry
  fde : FileEntry

/- The body of the loop of `init_file_table`. -/
def initFileEntry
    (table : FileTable)
    (i : Int) : FileTable :=
  if i = 0 then
    Function.update table i
      { opPtr := .stdinOps
        inode := u32 (-1)
        filePos := 0
        flags := flagInUse }
  else if i = 1 then
    Function.update table i
      { opPtr := .stdoutOps
        inode := u32 (-1)
        filePos := 0
        flags := flagInUse }
  else
    Function.update table i
      { table i with flags := flagFree }

/- `init_file_table` -/
def initFileTable
    (table : FileTable) : FileTable :=
  [0, 1, 2, 3, 4, 5, 6, 7].foldl initFileEntry table

/- The entry that `syscall_open` fills in. -/
def fillEntry
    (table : FileTable)
    (idx : Int)
    (ops : OpPtr)
    (tmpDentry : Dentry) :
    Int × FileTable :=
  (idx,
    Function.update table idx
      { opPtr := ops
        inode := tmpDentry.nrInode
        filePos := 0
        flags := flagInUse })

/- The switch over the file type at a free entry. -/
def openFree
    (fs : FileSystem)
    (stack : StackBytes)
    (filename : Ptr)
    (tmpDentry : Dentry)
    (table : FileTable)
    (idx : Int) :
    Int × FileTable :=
  if tmpDentry.type = typeDir then
    if (dirOpen fs filename stack.dentry stack.fde).flags =
        flagOerror then
      (-1, table)
    else fillEntry table idx .dirOps tmpDentry
  else if tmpDentry.type = typeUserRtc then
    fillEntry table idx .rtcOps tmpDentry
  else if tmpDentry.type = typeRegular then
    if (fileOpen fs filename stack.dentry stack.fde).flags =
        flagOerror then
      (-1, table)
    else fillEntry table idx .regularFileOps tmpDentry
  else
    -- no case of the switch: the stale `op_ptr` stays
    fillEntry table idx (table idx).opPtr tmpDentry

/- `syscall_open` -/
def syscallOpen
    (fs : FileSystem)
    (stack : StackBytes)
    (filename : Option CString)
    (table : FileTable) :
    Int × FileTable :=
  match filename with
  | none => (-1, table)
  | some name =>
      let found := readDentryByName fs name.ptr stack.dentry
      if found.1 = -1 then (-1, table)
      else
        match [2, 3, 4, 5, 6, 7].find?
            (fun idx => (table idx).flags = flagFree) with
        | some idx =>
            openFree fs stack name.ptr found.2 table idx
        | none => (-1, table)

/- `syscall_close` -/
def syscallClose
    (fd : Int)
    (table : FileTable) :
    Int × FileTable :=
  if fd < 2 ∨ fd > 7 then (-1, table)
  else if (table fd).flags = flagFree then (-1, table)
  else
    (0,
      Function.update table fd
        { table fd with flags := flagFree })

/-
  `syscall_read`.  A call through an `op_ptr` that is no
  operation table has no defined result.
-/
def syscallRead
    (fs : FileSystem)
    (stack : StackBytes)
    (kbd : Ptr)
    (fd : Int)
    (buf : Buf)
    (nbytes : Int)
    (table : FileTable) :
    Option (Int × FileTable × Ptr) :=
  if fd ≥ 8 ∨ fd < 0 ∨ fd = 1 then
    some (-1, table, buf.mem)
  else if (table fd).flags = flagFree then
    some (-1, table, buf.mem)
  else
    match (table fd).opPtr with
    | .stdinOps | .stdoutOps =>
        let read := terminalRead kbd buf nbytes
        some (read.1, table, read.2)
    | .rtcOps => some (rtcRead, table, buf.mem)
    | .dirOps =>
        let read :=
          dirRead fs (table fd) buf.mem (u32 nbytes)
            stack.dentry
        some (read.1, Function.update table fd read.2.1,
          read.2.2)
    | .regularFileOps =>
        let read :=
          fileRead fs (table fd) buf.mem (u32 nbytes)
        some (read.1, Function.update table fd read.2.1,
          read.2.2)
    | .other _ => none

/- `syscall_write`, as far as its caller sees it. -/
def syscallWrite
    (fd : Int)
    (buf : Buf)
    (nbytes : Int)
    (table : FileTable) :
    Option (Int × FileTable) :=
  if fd ≥ 8 ∨ fd ≤ 0 then some (-1, table)
  else if (table fd).flags = flagFree then some (-1, table)
  else
    match (table fd).opPtr with
    | .stdinOps | .stdoutOps =>
        some (terminalWriteResult buf nbytes, table)
    | .rtcOps => some (rtcWriteResult buf nbytes, table)
    | .dirOps => some (dirWrite, table)
    | .regularFileOps => some (fileWrite, table)
    | .other _ => none

end MartianPendulum

------------------------------------------------------------
-- Sequences of Calls
------------------------------------------------------------

namespace MartianPendulum

/- The system calls on descriptors, with their arguments. -/
inductive FileCall where
| sysOpen (filename : Option CString) (stack : StackBytes)
| sysClose (fd : Int)
| sysRead (fd : Int) (buf : Buf) (nbytes : Int)
    (stack : StackBytes) (kbd : Ptr)
| sysWrite (fd : Int) (buf : Buf) (nbytes : Int)

/- The returned value and the new table. -/
def fileCall
    (fs : FileSystem)
    (table : FileTable) :
    FileCall → Option (Int × FileTable)
| .sysOpen filename stack =>
    some (syscallOpen fs stack filename table)
| .sysClose fd => some (syscallClose fd table)
| .sysRead fd buf nbytes stack kbd =>
    (syscallRead fs stack kbd fd buf nbytes table).map
      (fun r => (r.1, r.2.1))
| .sysWrite fd buf nbytes => syscallWrite fd buf nbytes table

/- The table after a call that has a defined result. -/
def fileStep
    (fs : FileSystem)
    (table : FileTable)
    (call : FileCall) : FileTable :=
  match fileCall fs table call with
  | some r => r.2
  | none => table

end MartianPendulum

------------------------------------------------------------
-- Open Files
------------------------------------------------------------

namespace MartianPendulum

inductive FileKind where
| rtc
| dir
| regular
deriving DecidableEq

/- An open file: what it is and the next position in it. -/
structure OpenFile where
  kind : FileKind
  inode : Nat
  pos : Nat

/- The abstract table: descriptors 2 to 7 may be open. -/
abbrev OpenFiles := Int → Option OpenFile

/- The operation table that serves a kind of file. -/
def FileKind.ops : FileKind → OpPtr
| .rtc => .rtcOps
| .dir => .dirOps
| .regular => .regularFileOps

/- The kind that a type word of a directory entry names. -/
def kindOfType
    (type : Nat) : FileKind :=
  if type = typeDir then .dir
  else if type = typeUserRtc then .rtc
  else .regular

/- The operations for a type word, where it names a kind. -/
def opsOfType
    (type : Nat) : Option OpPtr :=
  if type = typeDir then some .dirOps
  else if type = typeUserRtc then some .rtcOps
  else if type = typeRegular then some .regularFileOps
  else none

/- The open file that a table entry stands for. -/
def FileEntry.openFile
    (e : FileEntry) : Option OpenFile :=
  if e.flags = flagFree then none
  else
    match e.opPtr with
    | .rtcOps => some ⟨.rtc, e.inode, e.filePos⟩
    | .dirOps => some ⟨.dir, e.inode, e.filePos⟩
    | .regularFileOps =>
        some ⟨.regular, e.inode, e.filePos⟩
    | _ => none

def openFiles
    (table : FileTable) : OpenFiles :=
  fun fd =>
    if 2 ≤ fd ∧ fd ≤ 7 then (table fd).openFile else none

/- The least descriptor that is not open. -/
def LeastFree
    (m : OpenFiles)
    (fd : Int) : Prop :=
  2 ≤ fd ∧ fd ≤ 7 ∧ m fd = none ∧
    ∀ g, 2 ≤ g → g < fd → m g ≠ none

/-
  What a call may do, in terms of the open files before and
  after it.  A failing call leaves the whole table alone.
-/
def CallSpec
    (fs : FileSystem)
    (table table' : FileTable)
    (ret : Int) :
    FileCall → Prop
| .sysOpen filename _ =>
    (∀ name file fd,
      filename = some name →
      fs.lookup name.chars = some file →
      LeastFree (openFiles table) fd →
        ret = fd ∧
          openFiles table' =
            Function.update (openFiles table) fd
              (some
                ⟨kindOfType file.type, file.nrInode, 0⟩)) ∧
      ((∀ name, filename = some name →
          fs.lookup name.chars = none) ∨
        (∀ fd, 2 ≤ fd → fd ≤ 7 →
          openFiles table fd ≠ none) →
        ret = -1 ∧ table' = table)
| .sysClose fd =>
    (openFiles table fd ≠ none →
      ret = 0 ∧
        openFiles table' =
          Function.update (openFiles table) fd none) ∧
      (openFiles table fd = none →
        ret = -1 ∧ table' = table)
| .sysRead fd _ _ _ _ =>
    (∀ file, openFiles table fd = some file →
      ∃ pos,
        openFiles table' =
          Function.update (openFiles table) fd
            (some { file with pos := pos })) ∧
      (fd = 0 → table' = table) ∧
      (openFiles table fd = none → fd ≠ 0 →
        ret = -1 ∧ table' = table)
| .sysWrite fd _ _ =>
    table' = table ∧
      (openFiles table fd = none → fd ≠ 1 → ret = -1)

end MartianPendulum

------------------------------------------------------------
-- Well-Formed Tables
------------------------------------------------------------

namespace MartianPendulum

/-
  Entries 0 and 1 are the terminal's; every other entry is
  free or served by the operations of a kind of file.
-/
structure TableOk
    (table : FileTable) : Prop where
  stdin :
    (table 0).flags = flagInUse ∧
      (table 0).opPtr = .stdinOps
  stdout :
    (table 1).flags = flagInUse ∧
      (table 1).opPtr = .stdoutOps
  entry :
    ∀ fd, 2 ≤ fd → fd ≤ 7 →
      (table fd).flags = flagFree ∨
        (table fd).flags = flagInUse ∧
          ∃ kind : FileKind, (table fd).opPtr = kind.ops

/- The descriptors that `open` gives out. -/
theorem userFd_cases
    {fd : Int}
    (hLow : 2 ≤ fd)
    (hHigh : fd ≤ 7) :
    fd = 2 ∨ fd = 3 ∨ fd = 4 ∨ fd = 5 ∨ fd = 6 ∨
      fd = 7 := by
  omega

theorem initFileTable_ok
    (table : FileTable) :
    TableOk (initFileTable table) := by
  refine ⟨⟨rfl, rfl⟩, ⟨rfl, rfl⟩, ?_⟩
  intro fd hLow hHigh
  left
  rcases userFd_cases hLow hHigh with
    rfl | rfl | rfl | rfl | rfl | rfl <;>
    rfl

/- No file is open in a fresh table. -/
theorem openFiles_initFileTable
    (table : FileTable) :
    openFiles (initFileTable table) = fun _ => none := by
  funext fd
  unfold openFiles
  split
  · rename_i hRange
    rcases userFd_cases hRange.1 hRange.2 with
      rfl | rfl | rfl | rfl | rfl | rfl <;>
      rfl
  · rfl

theorem flagInUse_ne_flagFree :
    ¬ flagInUse = flagFree := by
  decide

namespace TableOk

variable {table : FileTable}

/- A file is open on an entry exactly when it is not free. -/
theorem openFiles_eq_none_iff
    (hOk : TableOk table)
    {fd : Int}
    (hLow : 2 ≤ fd)
    (hHigh : fd ≤ 7) :
    openFiles table fd = none ↔
      (table fd).flags = flagFree := by
  rw [openFiles, if_pos ⟨hLow, hHigh⟩, FileEntry.openFile]
  rcases hOk.entry fd hLow hHigh with
    hFree | ⟨hUse, kind, hOps⟩
  · simp [hFree]
  · have hNotFree : ¬ (table fd).flags = flagFree := by
      rw [hUse]
      exact flagInUse_ne_flagFree
    rw [if_neg hNotFree, hOps]
    cases kind <;> simp [FileKind.ops, hNotFree]

/- An entry whose file is open is served by its kind. -/
theorem entry_of_openFiles_eq_some
    (hOk : TableOk table)
    {fd : Int}
    {file : OpenFile}
    (hOpen : openFiles table fd = some file) :
    2 ≤ fd ∧ fd ≤ 7 ∧
      table fd =
        { opPtr := file.kind.ops
          inode := file.inode
          filePos := file.pos
          flags := flagInUse } := by
  by_cases hRange : 2 ≤ fd ∧ fd ≤ 7
  · rw [openFiles, if_pos hRange, FileEntry.openFile] at hOpen
    rcases hOk.entry fd hRange.1 hRange.2 with
      hFree | ⟨hUse, kind, hOps⟩
    · simp [hFree] at hOpen
    · refine ⟨hRange.1, hRange.2, ?_⟩
      have hNotFree : ¬ (table fd).flags = flagFree := by
        rw [hUse]
        exact flagInUse_ne_flagFree
      rw [if_neg hNotFree, hOps] at hOpen
      cases hEntry : table fd with
      | mk ops inode pos flags =>
          rw [hEntry] at hOpen hUse hOps
          cases kind <;>
            simp only [FileKind.ops, Option.some.injEq]
              at hOpen hOps hUse <;>
            subst hOpen hOps hUse <;> rfl
  · rw [openFiles, if_neg hRange] at hOpen
    cases hOpen

/- Replacing an entry by a well-formed one. -/
theorem update
    (hOk : TableOk table)
    {fd : Int}
    (hLow : 2 ≤ fd)
    (e : FileEntry)
    (hEntry :
      e.flags = flagFree ∨
        e.flags = flagInUse ∧
          ∃ kind : FileKind, e.opPtr = kind.ops) :
    TableOk (Function.update table fd e) := by
  refine ⟨?_, ?_, ?_⟩
  · rw [Function.update_of_ne (by omega)]
    exact hOk.stdin
  · rw [Function.update_of_ne (by omega)]
    exact hOk.stdout
  · intro g hgLow hgHigh
    by_cases hg : g = fd
    · subst hg
      rw [Function.update_self]
      exact hEntry
    · rw [Function.update_of_ne hg]
      exact hOk.entry g hgLow hgHigh

end TableOk

/- An updated entry changes one open file. -/
theorem openFiles_update
    (table : FileTable)
    {fd : Int}
    (hLow : 2 ≤ fd)
    (hHigh : fd ≤ 7)
    (e : FileEntry) :
    openFiles (Function.update table fd e) =
      Function.update (openFiles table) fd e.openFile := by
  funext g
  by_cases hg : g = fd
  · subst hg
    simp [openFiles, hLow, hHigh]
  · simp only [openFiles, Function.update_of_ne hg]

end MartianPendulum

------------------------------------------------------------
-- Open
------------------------------------------------------------

namespace MartianPendulum

theorem LeastFree.unique
    {m : OpenFiles}
    {fd fd' : Int}
    (hLeast : LeastFree m fd)
    (hLeast' : LeastFree m fd') :
    fd = fd' := by
  rcases hLeast with ⟨hLow, _, hFree, hMin⟩
  rcases hLeast' with ⟨hLow', _, hFree', hMin'⟩
  rcases lt_trichotomy fd fd' with hLt | hEq | hGt
  · exact absurd hFree (hMin' fd hLow hLt)
  · exact hEq
  · exact absurd hFree' (hMin fd' hLow' hGt)

/- A scan that finds a descriptor finds a free one. -/
theorem free_of_find
    {table : FileTable}
    {idx : Int}
    (hFind :
      [2, 3, 4, 5, 6, 7].find?
        (fun idx => (table idx).flags = flagFree) =
          some idx) :
    2 ≤ idx ∧ idx ≤ 7 ∧ (table idx).flags = flagFree := by
  have hMem := List.mem_of_find?_eq_some hFind
  have hFree := List.find?_some hFind
  simp only [List.mem_cons, List.not_mem_nil,
    or_false] at hMem
  exact ⟨by omega, by omega, by simpa using hFree⟩

/- A scan that finds none: no descriptor is free. -/
theorem flags_of_find_none
    {table : FileTable}
    (hFind :
      [2, 3, 4, 5, 6, 7].find?
        (fun idx => (table idx).flags = flagFree) = none)
    {fd : Int}
    (hLow : 2 ≤ fd)
    (hHigh : fd ≤ 7) :
    (table fd).flags ≠ flagFree := by
  rw [List.find?_eq_none] at hFind
  have hMem : fd ∈ [(2 : Int), 3, 4, 5, 6, 7] := by
    simp only [List.mem_cons, List.not_mem_nil, or_false]
    omega
  simpa using hFind fd hMem

/- The scan of `syscall_open` finds the least free entry. -/
theorem leastFree_of_find
    {table : FileTable}
    (hOk : TableOk table)
    {idx : Int}
    (hFind :
      [2, 3, 4, 5, 6, 7].find?
        (fun idx => (table idx).flags = flagFree) =
          some idx) :
    LeastFree (openFiles table) idx := by
  rcases free_of_find hFind with ⟨hLow, hHigh, hFree⟩
  rcases Logic.find?_least (by decide) hFind with
    ⟨_, _, hMin⟩
  refine ⟨hLow, hHigh, ?_, ?_⟩
  · rw [hOk.openFiles_eq_none_iff hLow hHigh]
    exact hFree
  · intro g hg hLt
    rw [ne_eq, hOk.openFiles_eq_none_iff hg (by omega)]
    have hNot := hMin g (by
      simp only [List.mem_cons, List.not_mem_nil, or_false]
      omega) hLt
    simpa using hNot

/- A scan that finds nothing: every descriptor is open. -/
theorem not_leastFree_of_find
    {table : FileTable}
    (hOk : TableOk table)
    (hFind :
      [2, 3, 4, 5, 6, 7].find?
        (fun idx => (table idx).flags = flagFree) = none)
    (fd : Int) :
    ¬ LeastFree (openFiles table) fd := by
  rintro ⟨hLow, hHigh, hNone, _⟩
  rw [hOk.openFiles_eq_none_iff hLow hHigh] at hNone
  exact flags_of_find_none hFind hLow hHigh hNone

/- Opening an entry that was found does not fail. -/
theorem openEntry_flags
    (ops : OpPtr)
    (fs : FileSystem)
    (name : CString)
    {file : Dentry}
    (dentry : Dentry)
    (fde : FileEntry)
    (hFile : fs.lookup name.chars = some file) :
    (openEntry ops fs name.ptr dentry fde).flags =
      flagInUse := by
  simp [openEntry, readDentryByName_eq, hFile]

/- The switch has a case for each of the three types only. -/
theorem opsOfType_of_lt
    {type : Nat}
    (hType : 2 < type) :
    opsOfType type = none := by
  have hDir : type ≠ typeDir := by
    unfold typeDir
    omega
  have hRtc : type ≠ typeUserRtc := by
    unfold typeUserRtc
    omega
  have hRegular : type ≠ typeRegular := by
    unfold typeRegular
    omega
  rw [opsOfType, if_neg hDir, if_neg hRtc, if_neg hRegular]

theorem opsOfType_of_le
    {type : Nat}
    (hType : type ≤ 2) :
    opsOfType type = some (kindOfType type).ops := by
  have hCases : type = 0 ∨ type = 1 ∨ type = 2 := by omega
  rcases hCases with rfl | rfl | rfl <;> rfl

/-
  The switch fills in the operations of the entry's type, or
  keeps those of the last file.
-/
theorem openFree_eq
    (fs : FileSystem)
    (stack : StackBytes)
    (name : CString)
    {file : Dentry}
    (table : FileTable)
    (idx : Int)
    (hFile : fs.lookup name.chars = some file) :
    openFree fs stack name.ptr
        (fillDentry stack.dentry file) table idx =
      fillEntry table idx
        ((opsOfType file.type).getD (table idx).opPtr)
        (fillDentry stack.dentry file) := by
  have hOpened : ∀ ops,
      ¬ (openEntry ops fs name.ptr stack.dentry
        stack.fde).flags = flagOerror := by
    intro ops
    rw [openEntry_flags ops fs name _ _ hFile]
    decide
  simp only [openFree, opsOfType, fillDentry, dirOpen,
    fileOpen, hOpened, if_false]
  split
  · rfl
  · split
    · rfl
    · split <;> rfl

/-
  What `open` does: it fails and leaves the table alone, or
  it fills in the first free entry for the file that it
  finds.
-/
theorem syscallOpen_cases
    (fs : FileSystem)
    (stack : StackBytes)
    (filename : Option CString)
    (table : FileTable) :
    syscallOpen fs stack filename table = (-1, table) ∧
        ((∀ name, filename = some name →
            fs.lookup name.chars = none) ∨
          [2, 3, 4, 5, 6, 7].find?
            (fun idx => (table idx).flags = flagFree) =
              none) ∨
      ∃ name file idx,
        filename = some name ∧
          fs.lookup name.chars = some file ∧
          [2, 3, 4, 5, 6, 7].find?
            (fun idx => (table idx).flags = flagFree) =
              some idx ∧
          syscallOpen fs stack filename table =
            fillEntry table idx
              ((opsOfType file.type).getD (table idx).opPtr)
              (fillDentry stack.dentry file) := by
  cases filename with
  | none => exact Or.inl ⟨rfl, Or.inl (fun _ h => nomatch h)⟩
  | some name =>
      simp only [syscallOpen, readDentryByName_eq]
      cases hFile : fs.lookup name.chars with
      | none =>
          refine Or.inl ⟨rfl, Or.inl ?_⟩
          intro name' hName
          cases hName
          exact hFile
      | some file =>
          have hNotError : ¬ ((0 : Int) = -1) := by decide
          simp only [hNotError, if_false]
          cases hFind : [2, 3, 4, 5, 6, 7].find?
              (fun idx => (table idx).flags = flagFree) with
          | none => exact Or.inl ⟨rfl, Or.inr rfl⟩
          | some idx =>
              exact Or.inr ⟨name, file, idx, rfl, hFile, rfl,
                openFree_eq fs stack name table idx hFile⟩

/- Every directory entry has one of the three types. -/
def FileSystem.TypesOk
    (fs : FileSystem) : Prop :=
  ∀ i, i < fs.bootBlock.numDirEntries →
    (fs.bootBlock.files i).type ≤ 2

theorem FileSystem.TypesOk.lookup
    {fs : FileSystem}
    (hTypes : fs.TypesOk)
    {name : List UInt8}
    {file : Dentry}
    (hFile : fs.lookup name = some file) :
    file.type ≤ 2 := by
  have hMem := List.mem_of_find?_eq_some hFile
  rcases List.mem_map.mp hMem with ⟨i, hi, rfl⟩
  exact hTypes i (List.mem_range.mp hi)

/- `open` keeps the table well formed and meets its spec. -/
theorem syscallOpen_spec
    {fs : FileSystem}
    (hTypes : fs.TypesOk)
    {table : FileTable}
    (hOk : TableOk table)
    (stack : StackBytes)
    (filename : Option CString) :
    TableOk (syscallOpen fs stack filename table).2 ∧
      CallSpec fs table
        (syscallOpen fs stack filename table).2
        (syscallOpen fs stack filename table).1
        (.sysOpen filename stack) := by
  rcases syscallOpen_cases fs stack filename table with
    ⟨hOpen, hWhy⟩ |
    ⟨name, file, idx, hName, hFile, hFind, hOpen⟩
  · rw [hOpen]
    refine ⟨hOk, ?_, fun _ => ⟨rfl, rfl⟩⟩
    intro name file fd hName hFile hLeast
    rcases hWhy with hNone | hFull
    · rw [hNone name hName] at hFile
      cases hFile
    · exact absurd hLeast
        (not_leastFree_of_find hOk hFull fd)
  · have hLeast := leastFree_of_find hOk hFind
    have hOps := opsOfType_of_le (hTypes.lookup hFile)
    rw [hOpen, hOps]
    refine ⟨hOk.update hLeast.1 _ (Or.inr ⟨rfl, _, rfl⟩),
      ?_, ?_⟩
    · intro name' file' fd hName' hFile' hLeast'
      rw [hName] at hName'
      cases hName'
      rw [hFile] at hFile'
      cases hFile'
      have hIdx := hLeast.unique hLeast'
      subst hIdx
      refine ⟨rfl, ?_⟩
      rw [fillEntry, openFiles_update table hLeast.1
        hLeast.2.1]
      congr 1
      cases hKind : kindOfType file.type <;> rfl
    · rintro (hNone | hFull)
      · rw [hNone name hName] at hFile
        cases hFile
      · exact absurd hLeast.2.2.1
          (hFull idx hLeast.1 hLeast.2.1)

end MartianPendulum

------------------------------------------------------------
-- Close, Read and Write
------------------------------------------------------------

namespace MartianPendulum

variable {table : FileTable}

theorem syscallClose_spec
    (fs : FileSystem)
    (hOk : TableOk table)
    (fd : Int) :
    TableOk (syscallClose fd table).2 ∧
      CallSpec fs table (syscallClose fd table).2
        (syscallClose fd table).1 (.sysClose fd) := by
  by_cases hRange : fd < 2 ∨ fd > 7
  · have hNone : openFiles table fd = none := by
      rw [openFiles, if_neg (by omega)]
    rw [syscallClose, if_pos hRange]
    exact ⟨hOk, fun h => absurd hNone h,
      fun _ => ⟨rfl, rfl⟩⟩
  · have hLow : 2 ≤ fd := by omega
    have hHigh : fd ≤ 7 := by omega
    have hIff := hOk.openFiles_eq_none_iff hLow hHigh
    by_cases hFree : (table fd).flags = flagFree
    · rw [syscallClose, if_neg hRange, if_pos hFree]
      exact ⟨hOk, fun h => absurd (hIff.mpr hFree) h,
        fun _ => ⟨rfl, rfl⟩⟩
    · rw [syscallClose, if_neg hRange, if_neg hFree]
      refine ⟨hOk.update hLow _ (Or.inl rfl),
        fun _ => ⟨rfl, ?_⟩, fun h => absurd (hIff.mp h) hFree⟩
      rw [openFiles_update table hLow hHigh]
      rfl

/- A driver's read moves nothing but the file position. -/
theorem fileRead_entry
    (fs : FileSystem)
    (fp : FileEntry)
    (buf : Ptr)
    (length : Nat) :
    ∃ pos, (fileRead fs fp buf length).2.1 =
      { fp with filePos := pos } := by
  unfold fileRead
  dsimp only
  split
  · exact ⟨_, rfl⟩
  · exact ⟨fp.filePos, rfl⟩

theorem dirRead_entry
    (fs : FileSystem)
    (fp : FileEntry)
    (buf : Ptr)
    (length : Nat)
    (dentry : Dentry) :
    ∃ pos, (dirRead fs fp buf length dentry).2.1 =
      { fp with filePos := pos } := by
  unfold dirRead
  dsimp only
  split
  · exact ⟨fp.filePos, rfl⟩
  · exact ⟨_, rfl⟩

/-
  A read of an open file, through whichever operations serve
  its kind: the entry differs in its position at most.
-/
theorem syscallRead_open
    (fs : FileSystem)
    (stack : StackBytes)
    (kbd : Ptr)
    {fd : Int}
    (buf : Buf)
    (nbytes : Int)
    {file : OpenFile}
    (hOk : TableOk table)
    (hOpen : openFiles table fd = some file) :
    ∃ ret pos mem,
      syscallRead fs stack kbd fd buf nbytes table =
        some (ret,
          Function.update table fd
            { table fd with filePos := pos }, mem) := by
  rcases hOk.entry_of_openFiles_eq_some hOpen with
    ⟨hLow, hHigh, hEntry⟩
  have hRange : ¬ (fd ≥ 8 ∨ fd < 0 ∨ fd = 1) := by omega
  have hNotFree : ¬ (table fd).flags = flagFree := by
    rw [hEntry]
    exact flagInUse_ne_flagFree
  have hOps : (table fd).opPtr = file.kind.ops := by
    rw [hEntry]
  unfold syscallRead
  rw [if_neg hRange, if_neg hNotFree, hOps]
  cases file.kind with
  | rtc =>
      refine ⟨rtcRead, (table fd).filePos, buf.mem, ?_⟩
      have hSame :
          Function.update table fd
            { table fd with
              filePos := (table fd).filePos } = table :=
        Function.update_eq_self fd table
      rw [hSame]
      rfl
  | dir =>
      rcases
          dirRead_entry fs (table fd) buf.mem (u32 nbytes)
            stack.dentry with
        ⟨pos, hPos⟩
      refine
        ⟨(dirRead fs (table fd) buf.mem (u32 nbytes)
            stack.dentry).1, pos,
          (dirRead fs (table fd) buf.mem (u32 nbytes)
            stack.dentry).2.2, ?_⟩
      rw [← hPos]
      rfl
  | regular =>
      rcases
          fileRead_entry fs (table fd) buf.mem (u32 nbytes) with
        ⟨pos, hPos⟩
      refine
        ⟨(fileRead fs (table fd) buf.mem (u32 nbytes)).1,
          pos,
          (fileRead fs (table fd) buf.mem
            (u32 nbytes)).2.2, ?_⟩
      rw [← hPos]
      rfl

/- A read of the terminal leaves the table alone. -/
theorem syscallRead_stdin
    (fs : FileSystem)
    (stack : StackBytes)
    (kbd : Ptr)
    (buf : Buf)
    (nbytes : Int)
    (hOk : TableOk table) :
    syscallRead fs stack kbd 0 buf nbytes table =
      some ((terminalRead kbd buf nbytes).1, table,
        (terminalRead kbd buf nbytes).2) := by
  have hRange : ¬ ((0 : Int) ≥ 8 ∨ (0 : Int) < 0 ∨
      (0 : Int) = 1) := by
    decide
  have hNotFree : ¬ (table 0).flags = flagFree := by
    rw [hOk.stdin.1]
    exact flagInUse_ne_flagFree
  rw [syscallRead, if_neg hRange, if_neg hNotFree,
    hOk.stdin.2]

theorem syscallRead_spec
    (fs : FileSystem)
    (hOk : TableOk table)
    (fd : Int)
    (buf : Buf)
    (nbytes : Int)
    (stack : StackBytes)
    (kbd : Ptr) :
    ∃ ret table' mem,
      syscallRead fs stack kbd fd buf nbytes table =
          some (ret, table', mem) ∧
        TableOk table' ∧
        CallSpec fs table table' ret
          (.sysRead fd buf nbytes stack kbd) := by
  cases hOpen : openFiles table fd with
  | some file =>
      rcases hOk.entry_of_openFiles_eq_some hOpen with
        ⟨hLow, hHigh, hEntry⟩
      rcases
          syscallRead_open fs stack kbd buf nbytes hOk hOpen with
        ⟨ret, pos, mem, hRead⟩
      refine ⟨ret, _, mem, hRead, ?_, ?_, ?_, ?_⟩
      · apply hOk.update hLow
        rw [hEntry]
        exact Or.inr ⟨rfl, _, rfl⟩
      · intro file' hFile'
        rw [hOpen] at hFile'
        cases hFile'
        refine ⟨pos, ?_⟩
        rw [openFiles_update table hLow hHigh, hEntry]
        congr 1
        cases hKind : file.kind <;>
          simp [FileEntry.openFile, FileKind.ops, flagInUse,
            flagFree]
      · intro hZero
        omega
      · intro hNone
        rw [hOpen] at hNone
        cases hNone
  | none =>
      by_cases hZero : fd = 0
      · subst hZero
        refine ⟨_, table, _,
          syscallRead_stdin fs stack kbd buf nbytes hOk,
          hOk, ?_, fun _ => rfl, ?_⟩
        · intro file hFile
          rw [hOpen] at hFile
          cases hFile
        · intro _ hNe
          exact absurd rfl hNe
      · refine ⟨-1, table, buf.mem, ?_, hOk, ?_,
          fun _ => rfl, fun _ _ => ⟨rfl, rfl⟩⟩
        · unfold syscallRead
          by_cases hRange : fd ≥ 8 ∨ fd < 0 ∨ fd = 1
          · rw [if_pos hRange]
          · have hFree : (table fd).flags = flagFree :=
              (hOk.openFiles_eq_none_iff (by omega)
                (by omega)).mp hOpen
            rw [if_neg hRange, if_pos hFree]
        · intro file hFile
          rw [hOpen] at hFile
          cases hFile

theorem syscallWrite_spec
    (fs : FileSystem)
    (hOk : TableOk table)
    (fd : Int)
    (buf : Buf)
    (nbytes : Int) :
    ∃ ret,
      syscallWrite fd buf nbytes table = some (ret, table) ∧
        CallSpec fs table table ret
          (.sysWrite fd buf nbytes) := by
  cases hOpen : openFiles table fd with
  | some file =>
      rcases hOk.entry_of_openFiles_eq_some hOpen with
        ⟨hLow, hHigh, hEntry⟩
      have hRange : ¬ (fd ≥ 8 ∨ fd ≤ 0) := by omega
      have hNotFree : ¬ (table fd).flags = flagFree := by
        rw [hEntry]
        exact flagInUse_ne_flagFree
      have hOps : (table fd).opPtr = file.kind.ops := by
        rw [hEntry]
      have hWrite : ∃ ret,
          syscallWrite fd buf nbytes table =
            some (ret, table) := by
        rw [syscallWrite, if_neg hRange, if_neg hNotFree,
          hOps]
        cases file.kind <;> exact ⟨_, rfl⟩
      rcases hWrite with ⟨ret, hRet⟩
      refine ⟨ret, hRet, rfl, ?_⟩
      intro hNone
      rw [hOpen] at hNone
      cases hNone
  | none =>
      by_cases hOne : fd = 1
      · subst hOne
        refine ⟨terminalWriteResult buf nbytes, ?_, rfl,
          fun _ h => absurd rfl h⟩
        simp only [syscallWrite, hOk.stdout.1, hOk.stdout.2]
        simp [flagInUse, flagFree]
      · refine ⟨-1, ?_, rfl, fun _ _ => rfl⟩
        by_cases hRange : fd ≥ 8 ∨ fd ≤ 0
        · rw [syscallWrite, if_pos hRange]
        · have hFree : (table fd).flags = flagFree :=
            (hOk.openFiles_eq_none_iff (by omega)
              (by omega)).mp hOpen
          rw [syscallWrite, if_neg hRange, if_pos hFree]

end MartianPendulum

------------------------------------------------------------
-- Refinement
------------------------------------------------------------

namespace MartianPendulum

/- Every call on a well-formed table meets its spec. -/
theorem TableOk.fileCall
    {fs : FileSystem}
    (hTypes : fs.TypesOk)
    {table : FileTable}
    (hOk : TableOk table)
    (call : FileCall) :
    ∃ ret table',
      fileCall fs table call = some (ret, table') ∧
        TableOk table' ∧
        CallSpec fs table table' ret call := by
  cases call with
  | sysOpen filename stack =>
      exact ⟨_, _, rfl,
        syscallOpen_spec hTypes hOk stack filename⟩
  | sysClose fd =>
      exact ⟨_, _, rfl, syscallClose_spec fs hOk fd⟩
  | sysRead fd buf nbytes stack kbd =>
      rcases
          syscallRead_spec fs hOk fd buf nbytes stack kbd with
        ⟨ret, table', mem, hRead, hOk', hSpec⟩
      refine ⟨ret, table', ?_, hOk', hSpec⟩
      simp only [MartianPendulum.fileCall, hRead,
        Option.map_some]
  | sysWrite fd buf nbytes =>
      rcases syscallWrite_spec fs hOk fd buf nbytes with
        ⟨ret, hWrite, hSpec⟩
      exact ⟨ret, table, hWrite, hOk, hSpec⟩

theorem TableOk.fileStep
    {fs : FileSystem}
    (hTypes : fs.TypesOk)
    {table : FileTable}
    (hOk : TableOk table)
    (call : FileCall) :
    TableOk (fileStep fs table call) := by
  rcases hOk.fileCall hTypes call with
    ⟨ret, table', hCall, hOk', _⟩
  rw [MartianPendulum.fileStep, hCall]
  exact hOk'

/-
  The table of a fresh process refines the map of open
  files, call by call, and never loses its terminal.
-/
theorem fileTable_refines_openFiles
    (fs : FileSystem)
    (hTypes : fs.TypesOk)
    (memory : FileTable)
    (calls : List FileCall) :
    openFiles (initFileTable memory) = (fun _ => none) ∧
      Logic.Along (fileStep fs)
        (fun table call =>
          ∃ ret table',
            fileCall fs table call = some (ret, table') ∧
              CallSpec fs table table' ret call)
        (initFileTable memory) calls ∧
      let last :=
        Logic.run (fileStep fs) (initFileTable memory) calls
      ((last 0).flags = flagInUse ∧
          (last 0).opPtr = .stdinOps) ∧
        (last 1).flags = flagInUse ∧
          (last 1).opPtr = .stdoutOps := by
  have hRun : ∀ calls,
      TableOk (Logic.run (fileStep fs)
        (initFileTable memory) calls) :=
    Logic.invariant_run
      (fun table call hOk => hOk.fileStep hTypes call)
      (initFileTable_ok memory)
  refine ⟨openFiles_initFileTable memory, ?_,
    (hRun calls).stdin, (hRun calls).stdout⟩
  rw [Logic.along_iff_forall_split]
  intro calls₁ call calls₂ _
  rcases (hRun calls₁).fileCall hTypes call with
    ⟨ret, table', hCall, _, hSpec⟩
  exact ⟨ret, table', hCall, hSpec⟩

/-
  Opening the sample program, reading from it and closing it
  twice on a table with stale contents.
-/
theorem fileTable_refines_openFiles_sampleFs :
    sampleFs.TypesOk ∧
      let stack : StackBytes :=
        ⟨sampleFs.bootBlock.files 0, staleEntry⟩
      let buf : Buf := ⟨false, fun _ => 0⟩
      ((Logic.run (fileStep sampleFs)
          (initFileTable (fun _ => staleEntry))
          [.sysOpen (some sampleName) stack,
            .sysRead 2 buf 10 stack (fun _ => 0),
            .sysClose 2, .sysClose 2]) 0).opPtr =
        .stdinOps := by
  have hTypes : sampleFs.TypesOk :=
    fun _ _ => Nat.le_refl 2
  refine ⟨hTypes, ?_⟩
  intro stack buf
  exact (fileTable_refines_openFiles sampleFs hTypes
    (fun _ => staleEntry)
    [.sysOpen (some sampleName) stack,
      .sysRead 2 buf 10 stack (fun _ => 0),
      .sysClose 2, .sysClose 2]).2.2.1.2

end MartianPendulum
