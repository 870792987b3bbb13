import MartianPendulum.FileSystem.FileTable
import MartianPendulum.Process.Executable
import MartianPendulum.Process.Table

/-
  The operation tables of open descriptors.

  The flags of a descriptor say that it is open, but its
  operations are assigned by a switch over the type of the
  file alone, and neither a new process nor a close clears
  them.  A table together with the types of the files opened
  on it shows when the two agree: as long as no entry of
  another type than the three known ones is opened.

  Key definitions include:
    * `TypedTable`
    * `typedStep`
    * `OpsValid`
    * `KnownType`

  Key theorems include:
    * `Descriptors.step`
    * `OpsValid.knownType`
    * `opsValid_run_iff`
-/

------------------------------------------------------------
-- Typed Tables
------------------------------------------------------------

namespace MartianPendulum

/-
  A descriptor table, and the type of the file that was last
  opened on each descriptor.
-/
structure TypedTable where
  table : FileTable
  opened : Int → Option Nat

/- A process that has not opened a file. -/
def PCB.typedTable
    (p : PCB) : TypedTable :=
  { table := p.pcbFds
    opened := fun _ => none }

/- The types after a call. -/
def openedTypes
    (fs : FileSystem)
    (s : TypedTable) :
    FileCall → Int → Option Nat
| .sysOpen (some name) stack =>
    match fs.lookup name.chars with
    | some file =>
        -- a call that fails returns -1, no descriptor
        Function.update s.opened
          (syscallOpen fs stack (some name) s.table).1
          (some file.type)
    | none => s.opened
| _ => s.opened

def typedStep
    (fs : FileSystem)
    (s : TypedTable)
    (call : FileCall) : TypedTable :=
  { table := fileStep fs s.table call
    opened := openedTypes fs s call }

/- The five operation tables. -/
def operationTables : List OpPtr :=
  [.stdinOps, .stdoutOps, .dirOps, .rtcOps, .regularFileOps]

/-
  The operations of an open file are the ones for the type
  of the file.
-/
def TypedTable.Typed
    (s : TypedTable) : Prop :=
  ∀ fd, 2 ≤ fd → fd ≤ 7 →
    (s.table fd).flags ≠ flagFree →
      ∃ type,
        s.opened fd = some type ∧
          opsOfType type = some (s.table fd).opPtr

/-
  Every open descriptor has operations, those of a file are
  the ones for its type, and every call is defined.
-/
structure OpsValid
    (fs : FileSystem)
    (s : TypedTable) : Prop where
  known : ∀ fd, 0 ≤ fd → fd ≤ 7 →
    (s.table fd).flags ≠ flagFree →
      (s.table fd).opPtr ∈ operationTables
  typed : s.Typed
  defined : ∀ call, fileCall fs s.table call ≠ none

/-
  The call does not open a file of an unknown type: no such
  name is given while a descriptor is free.
-/
def KnownType
    (fs : FileSystem)
    (s : TypedTable) :
    FileCall → Prop
| .sysOpen (some name) _ =>
    ∀ file fd,
      fs.lookup name.chars = some file →
      2 ≤ fd → fd ≤ 7 →
      (s.table fd).flags = flagFree →
        file.type ≤ 2
| _ => True

/- In an image without unknown types all calls qualify. -/
theorem FileSystem.TypesOk.knownType
    {fs : FileSystem}
    (hTypes : fs.TypesOk)
    (s : TypedTable)
    (call : FileCall) :
    KnownType fs s call := by
  cases call with
  | sysOpen filename stack =>
      cases filename with
      | none => trivial
      | some name =>
          intro file fd hFile _ _ _
          exact hTypes.lookup hFile
  | sysClose fd => trivial
  | sysRead fd buf nbytes stack kbd => trivial
  | sysWrite fd buf nbytes => trivial

end MartianPendulum

------------------------------------------------------------
-- A New Process
------------------------------------------------------------

namespace MartianPendulum

/- The descriptors of files are free. -/
theorem freeUserFds_flags
    (table : FileTable)
    {fd : Int}
    (hLow : 2 ≤ fd)
    (hHigh : fd ≤ 7) :
    (freeUserFds table fd).flags = flagFree := by
  rcases userFd_cases hLow hHigh with
    rfl | rfl | rfl | rfl | rfl | rfl <;>
    rfl

/- The table that `syscall_execute` sets up. -/
theorem freeUserFds_ok
    {table : FileTable}
    (hOk : TableOk table) :
    TableOk (freeUserFds table) := by
  refine ⟨hOk.stdin, hOk.stdout, ?_⟩
  intro fd hLow hHigh
  exact Or.inl (freeUserFds_flags table hLow hHigh)

/- The descriptors of a process that was just started. -/
theorem pcbFds_of_started
    (fs : FileSystem)
    (frame : CallFrame)
    (userInput : Option Ptr)
    (k : Kernel)
    {pid : Int}
    {eip : Nat}
    (hStarted :
      (k.syscallExecute fs frame userInput).1 =
        .started pid eip) :
    ((k.syscallExecute fs frame userInput).2.pcbOf
        pid).pcbFds =
      freeUserFds (initFileTable (k.pcbOf pid).pcbFds) := by
  rcases k.syscallExecute_cases fs frame userInput with
    ⟨v, d, hExec⟩ | ⟨n, args, eip', d, -, hExec⟩
  · rw [hExec] at hStarted
    cases hStarted
  · rw [hExec] at hStarted ⊢
    cases hStarted
    have hField := Control.spawn_field PCB.pcbFds
      (fun _ _ _ => rfl) pid args frame.toRegs k.toControl pid
    rw [if_pos rfl] at hField
    exact hField

end MartianPendulum

------------------------------------------------------------
-- One Call
------------------------------------------------------------

namespace MartianPendulum

/- A read changes the position of an entry at most. -/
theorem syscallRead_entry
    (fs : FileSystem)
    (stack : StackBytes)
    (kbd : Ptr)
    (fd : Int)
    (buf : Buf)
    (nbytes : Int)
    (table : FileTable)
    {ret : Int}
    {table' : FileTable}
    {mem : Ptr}
    (hRead :
      syscallRead fs stack kbd fd buf nbytes table =
        some (ret, table', mem))
    (g : Int) :
    ∃ pos, table' g = { table g with filePos := pos } := by
  have hMoved : ∀ e : FileEntry,
      (∃ pos, e = { table fd with filePos := pos }) →
        ∃ pos, Function.update table fd e g =
          { table g with filePos := pos } := by
    rintro e ⟨pos, rfl⟩
    by_cases hg : g = fd
    · subst hg
      exact ⟨pos, Function.update_self _ _ _⟩
    · exact ⟨(table g).filePos,
        Function.update_of_ne hg _ _⟩
  have hSame : ∃ pos,
      table g = { table g with filePos := pos } :=
    ⟨(table g).filePos, rfl⟩
  unfold syscallRead at hRead
  split at hRead
  · cases hRead
    exact hSame
  · split at hRead
    · cases hRead
      exact hSame
    · split at hRead
      · cases hRead
        exact hSame
      · cases hRead
        exact hSame
      · cases hRead
        exact hSame
      · cases hRead
        exact hMoved _ (dirRead_entry fs _ _ _ _)
      · cases hRead
        exact hMoved _ (fileRead_entry fs _ _ _)
      · cases hRead

/- An open that fails records no type. -/
theorem openedTypes_of_fail
    (fs : FileSystem)
    (s : TypedTable)
    (filename : Option CString)
    (stack : StackBytes)
    (hOpen :
      (syscallOpen fs stack filename s.table).1 = -1)
    {fd : Int}
    (hLow : 2 ≤ fd) :
    openedTypes fs s (.sysOpen filename stack) fd =
      s.opened fd := by
  cases filename with
  | none => rfl
  | some name =>
      cases hFile : fs.lookup name.chars with
      | none => simp only [openedTypes, hFile]
      | some file =>
          simp only [openedTypes, hFile, hOpen]
          rw [Function.update_of_ne (by omega)]

/- An open that succeeds, on the table and on the types. -/
theorem typedStep_of_open
    {fs : FileSystem}
    {s : TypedTable}
    {stack : StackBytes}
    {name : CString}
    {file : Dentry}
    {idx : Int}
    {ops : OpPtr}
    (hFile : fs.lookup name.chars = some file)
    (hOpen :
      syscallOpen fs stack (some name) s.table =
        fillEntry s.table idx ops
          (fillDentry stack.dentry file)) :
    typedStep fs s (.sysOpen (some name) stack) =
      { table := Function.update s.table idx
          { opPtr := ops
            inode := file.nrInode
            filePos := 0
            flags := flagInUse }
        opened := Function.update s.opened idx
          (some file.type) } := by
  simp only [typedStep, fileStep, fileCall, openedTypes,
    hFile, hOpen]
  rfl

/-
  The table is well formed, and the operations of an open
  file are the ones for its type.
-/
structure Descriptors
    (s : TypedTable) : Prop where
  ok : TableOk s.table
  typed : s.Typed

/- A new process has opened nothing. -/
theorem descriptors_of_started
    (fs : FileSystem)
    (frame : CallFrame)
    (userInput : Option Ptr)
    (k : Kernel)
    {pid : Int}
    {eip : Nat}
    (hStarted :
      (k.syscallExecute fs frame userInput).1 =
        .started pid eip) :
    Descriptors
      ((k.syscallExecute fs frame userInput).2.pcbOf
        pid).typedTable := by
  unfold PCB.typedTable
  rw [pcbFds_of_started fs frame userInput k hStarted]
  refine ⟨freeUserFds_ok (initFileTable_ok _), ?_⟩
  intro fd hLow hHigh hOpen
  exact absurd (freeUserFds_flags _ hLow hHigh) hOpen

namespace Descriptors

variable {fs : FileSystem}
variable {s : TypedTable}

/- Well-formed tables with matching types are valid. -/
theorem opsValid
    (hDesc : Descriptors s) :
    OpsValid fs s := by
  refine ⟨?_, hDesc.typed, ?_⟩
  · intro fd hLow hHigh hOpen
    by_cases hZero : fd = 0
    · subst hZero
      rw [hDesc.ok.stdin.2]
      decide
    · by_cases hOne : fd = 1
      · subst hOne
        rw [hDesc.ok.stdout.2]
        decide
      · rcases hDesc.ok.entry fd (by omega) hHigh with
          hFree | ⟨-, kind, hOps⟩
        · exact absurd hFree hOpen
        · rw [hOps]
          cases kind <;> decide
  · intro call
    cases call with
    | sysOpen filename stack => exact Option.some_ne_none _
    | sysClose fd => exact Option.some_ne_none _
    | sysRead fd buf nbytes stack kbd =>
        rcases
            syscallRead_spec fs hDesc.ok fd buf nbytes stack
              kbd with
          ⟨ret, table', mem, hRead, -, -⟩
        simp [fileCall, hRead]
    | sysWrite fd buf nbytes =>
        rcases syscallWrite_spec fs hDesc.ok fd buf nbytes with
          ⟨ret, hWrite, -⟩
        simp [fileCall, hWrite]

/- Opening a file of a known type. -/
theorem step_open
    (hDesc : Descriptors s)
    (filename : Option CString)
    (stack : StackBytes)
    (hKnown : KnownType fs s (.sysOpen filename stack)) :
    Descriptors
      (typedStep fs s (.sysOpen filename stack)) := by
  rcases syscallOpen_cases fs stack filename s.table with
    ⟨hOpen, -⟩ |
    ⟨name, file, idx, hName, hFile, hFind, hOpen⟩
  · have hTable : fileStep fs s.table
        (.sysOpen filename stack) = s.table := by
      simp only [fileStep, fileCall, hOpen]
    refine ⟨?_, ?_⟩
    · dsimp only [typedStep]
      rw [hTable]
      exact hDesc.ok
    · intro fd hLow hHigh hUse
      dsimp only [typedStep] at hUse ⊢
      rw [hTable] at hUse ⊢
      rw [openedTypes_of_fail fs s filename stack
        (by rw [hOpen]) hLow]
      exact hDesc.typed fd hLow hHigh hUse
  · subst hName
    rcases free_of_find hFind with ⟨hLow, hHigh, hFree⟩
    have hOps := opsOfType_of_le
      (hKnown file idx hFile hLow hHigh hFree)
    rw [hOps] at hOpen
    rw [typedStep_of_open hFile hOpen]
    refine ⟨hDesc.ok.update hLow _
      (Or.inr ⟨rfl, _, rfl⟩), ?_⟩
    intro fd hfdLow hfdHigh hUse
    dsimp only at hUse ⊢
    by_cases hfd : fd = idx
    · subst hfd
      rw [Function.update_self, Function.update_self]
      exact ⟨file.type, rfl, hOps⟩
    · rw [Function.update_of_ne hfd] at hUse
      rw [Function.update_of_ne hfd,
        Function.update_of_ne hfd]
      exact hDesc.typed fd hfdLow hfdHigh hUse

/-
  A call that keeps the types, and the operations of every
  descriptor that it leaves open.
-/
theorem of_kept
    (hDesc : Descriptors s)
    {table' : FileTable}
    (hOk : TableOk table')
    (hKept : ∀ fd, (table' fd).flags ≠ flagFree →
      (s.table fd).flags ≠ flagFree ∧
        (table' fd).opPtr = (s.table fd).opPtr) :
    Descriptors { s with table := table' } := by
  refine ⟨hOk, ?_⟩
  intro fd hLow hHigh hUse
  rcases hKept fd hUse with ⟨hUsed, hOps⟩
  dsimp only
  rw [hOps]
  exact hDesc.typed fd hLow hHigh hUsed

theorem step_close
    (hDesc : Descriptors s)
    (fd : Int) :
    Descriptors (typedStep fs s (.sysClose fd)) := by
  apply hDesc.of_kept (syscallClose_spec fs hDesc.ok fd).1
  intro g hUse
  unfold syscallClose at hUse ⊢
  split at hUse
  next hRange =>
    rw [if_pos hRange]
    exact ⟨hUse, rfl⟩
  next hRange =>
    rw [if_neg hRange]
    split at hUse
    next hFree =>
      rw [if_pos hFree]
      exact ⟨hUse, rfl⟩
    next hFree =>
      rw [if_neg hFree]
      dsimp only at hUse ⊢
      by_cases hg : g = fd
      · subst hg
        rw [Function.update_self] at hUse
        exact absurd rfl hUse
      · rw [Function.update_of_ne hg] at hUse ⊢
        exact ⟨hUse, rfl⟩

theorem step_read
    (hDesc : Descriptors s)
    (fd : Int)
    (buf : Buf)
    (nbytes : Int)
    (stack : StackBytes)
    (kbd : Ptr) :
    Descriptors
      (typedStep fs s
        (.sysRead fd buf nbytes stack kbd)) := by
  rcases
      syscallRead_spec fs hDesc.ok fd buf nbytes stack kbd with
    ⟨ret, table', mem, hRead, hOk, -⟩
  have hTable : fileStep fs s.table
      (.sysRead fd buf nbytes stack kbd) = table' := by
    simp only [fileStep, fileCall, hRead, Option.map_some]
  unfold typedStep
  rw [hTable]
  apply hDesc.of_kept hOk
  intro g hUse
  rcases
      syscallRead_entry fs stack kbd fd buf nbytes s.table
        hRead g with
    ⟨pos, hEntry⟩
  rw [hEntry] at hUse ⊢
  exact ⟨hUse, rfl⟩

/- A call that opens no file of an unknown type. -/
theorem step
    (hDesc : Descriptors s)
    {call : FileCall}
    (hKnown : KnownType fs s call) :
    Descriptors (typedStep fs s call) := by
  cases call with
  | sysOpen filename stack =>
      exact hDesc.step_open filename stack hKnown
  | sysClose fd => exact hDesc.step_close fd
  | sysRead fd buf nbytes stack kbd =>
      exact hDesc.step_read fd buf nbytes stack kbd
  | sysWrite fd buf nbytes =>
      rcases syscallWrite_spec fs hDesc.ok fd buf nbytes with
        ⟨ret, hWrite, -⟩
      have hTable : fileStep fs s.table
          (.sysWrite fd buf nbytes) = s.table := by
        simp only [fileStep, fileCall, hWrite]
      unfold typedStep
      rw [hTable]
      exact hDesc

end Descriptors

/-
  A file of an unknown type that is opened gets no
  operations, so a call with a valid table after it opens no
  such file.
-/
theorem OpsValid.knownType
    {fs : FileSystem}
    {s : TypedTable}
    {call : FileCall}
    (hValid : OpsValid fs (typedStep fs s call)) :
    KnownType fs s call := by
  cases call with
  | sysOpen filename stack =>
      cases filename with
      | none => trivial
      | some name =>
          intro file fd hFile hLow hHigh hFree
          rcases
              syscallOpen_cases fs stack (some name) s.table
            with
            ⟨-, hNone | hFull⟩ |
            ⟨name', file', idx, hName, hFile', hFind, hOpen⟩
          · rw [hNone name rfl] at hFile
            cases hFile
          · exact absurd hFree
              (flags_of_find_none hFull hLow hHigh)
          · cases hName
            rw [hFile] at hFile'
            cases hFile'
            rcases free_of_find hFind with
              ⟨hIdxLow, hIdxHigh, -⟩
            rw [typedStep_of_open hFile hOpen] at hValid
            have hTyped := hValid.typed idx hIdxLow hIdxHigh
            dsimp only at hTyped
            rw [Function.update_self, Function.update_self]
              at hTyped
            rcases hTyped flagInUse_ne_flagFree with
              ⟨type, hType, hOps⟩
            cases hType
            by_contra hUnknown
            rw [opsOfType_of_lt (by omega)] at hOps
            cases hOps
  | sysClose fd => trivial
  | sysRead fd buf nbytes stack kbd => trivial
  | sysWrite fd buf nbytes => trivial

end MartianPendulum

------------------------------------------------------------
-- Runs
------------------------------------------------------------

namespace MartianPendulum

/-
  Exactly when the open descriptors of a started process
  have the operations of their files in every state reached:
  no call opens a file of an unknown type.
-/
theorem opsValid_run_iff
    (fs : FileSystem)
    (frame : CallFrame)
    (userInput : Option Ptr)
    (k : Kernel)
    {pid : Int}
    {eip : Nat}
    (hStarted :
      (k.syscallExecute fs frame userInput).1 =
        .started pid eip)
    (calls : List FileCall) :
    (∀ calls₁ calls₂, calls = calls₁ ++ calls₂ →
      OpsValid fs (Logic.run (typedStep fs)
        ((k.syscallExecute fs frame userInput).2.pcbOf
          pid).typedTable calls₁)) ↔
      Logic.Along (typedStep fs) (KnownType fs)
        ((k.syscallExecute fs frame userInput).2.pcbOf
          pid).typedTable calls := by
  have hSide : Logic.Along (typedStep fs)
      (fun _ _ => True)
      ((k.syscallExecute fs frame userInput).2.pcbOf
        pid).typedTable calls := by
    rw [Logic.along_iff_forall_split]
    intro _ _ _ _
    trivial
  exact Logic.reached_iff_along
    (I := Descriptors)
    (P := OpsValid fs)
    (fun _ hDesc => hDesc.opsValid)
    (fun _ _ hDesc _ hKnown => hDesc.step hKnown)
    (fun _ _ _ _ hValid => hValid.knownType)
    (descriptors_of_started fs frame userInput k hStarted)
    hSide

/- A process that opens the sample program and reads it. -/
theorem opsValid_run_iff_sampleFs :
    ∃ pid eip,
      (blankKernel.syscallExecute sampleFs blankFrame
          (some shellLiteral.ptr)).1 = .started pid eip ∧
        ∀ stack buf kbd,
          OpsValid sampleFs
            (Logic.run (typedStep sampleFs)
              ((blankKernel.syscallExecute sampleFs
                blankFrame (some shellLiteral.ptr)).2.pcbOf
                  pid).typedTable
              [.sysOpen (some sampleName) stack,
                .sysRead 2 buf 10 stack kbd]) := by
  have hTypes : sampleFs.TypesOk :=
    fun _ _ => Nat.le_refl 2
  have hFile :
      sampleFs.lookup (firstWord shellLiteral.chars) =
        some (sampleFs.bootBlock.files 0) := rfl
  have hStart := started_shellLiteral blankFrame blankKernel
    (by decide) hFile rfl
  rcases hStart with ⟨pid, eip, hStarted⟩
  refine ⟨pid, eip, hStarted, ?_⟩
  intro stack buf kbd
  apply (opsValid_run_iff sampleFs blankFrame
    (some shellLiteral.ptr) blankKernel hStarted
    [.sysOpen (some sampleName) stack,
      .sysRead 2 buf 10 stack kbd]).mpr _ _ [] rfl
  rw [Logic.along_iff_forall_split]
  intro _ _ _ _
  exact hTypes.knownType _ _

/- The name `disk`. -/
def diskName : CString :=
  { chars := [100, 105, 115, 107]
    after := fun _ => 0
    nonzero := by simp }

/- The sample program, and an entry of type 7. -/
def diskFs : FileSystem :=
  { sampleFs with
    bootBlock :=
      { sampleFs.bootBlock with
        numDirEntries := 2
        files := fun i =>
          if i = 0 then sampleFs.bootBlock.files 0
          else
            { filename := diskName.ptr
              type := 7
              nrInode := 0 } } }

/- The entry of type 7 is opened without operations. -/
theorem opened_without_operations :
    ¬ ∀ (fs : FileSystem) (frame : CallFrame)
        (userInput : Option Ptr) (k : Kernel) (pid : Int)
        (eip : Nat) (calls : List FileCall),
      (k.syscallExecute fs frame userInput).1 =
          .started pid eip →
        OpsValid fs (Logic.run (typedStep fs)
          ((k.syscallExecute fs frame userInput).2.pcbOf
            pid).typedTable calls) := by
  intro hAll
  have hFile :
      diskFs.lookup (firstWord shellLiteral.chars) =
        some (diskFs.bootBlock.files 0) := rfl
  have hStart := started_shellLiteral blankFrame blankKernel
    (by decide) hFile rfl
  rcases hStart with ⟨pid, eip, hStarted⟩
  have hValid := hAll diskFs blankFrame
    (some shellLiteral.ptr) blankKernel pid eip
    [.sysOpen (some diskName)
      ⟨blankFrame.dentry, staleEntry⟩] hStarted
  have hKnown := hValid.known 2 (by decide) (by decide)
  simp only [Logic.run_cons, Logic.run_nil, typedStep,
    PCB.typedTable,
    pcbFds_of_started _ _ _ _ hStarted] at hKnown
  have hMemory :
      (blankKernel.pcbOf pid).pcbFds = fun _ => staleEntry :=
    rfl
  rw [hMemory] at hKnown
  exact absurd (hKnown (by decide)) (by decide)

end MartianPendulum
