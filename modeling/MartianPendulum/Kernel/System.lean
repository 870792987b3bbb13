import MartianPendulum.Logic.Run
import MartianPendulum.Kernel.Keyboard
import MartianPendulum.Kernel.Command
import MartianPendulum.Kernel.Process

/-
  The kernel as a transition system.

  An event is an interrupt or a system call of the running
  process.  Every handler below runs with interrupts
  disabled, so an event is one step.  The parameters of an
  event are what the code does not determine: registers,
  stack contents, arguments and scan codes.

  Key definitions include:
    * `Event`
    * `Kernel.step`
    * `Loadable`

  Key theorems include:
    * `syscallExecute_cases`
    * `syscallExecute_shell_cases`
-/

------------------------------------------------------------
-- Events
------------------------------------------------------------

namespace MartianPendulum

inductive Event where
-- the PIT interrupt
| tick (regs : Regs) (frame : CallFrame)
-- system calls of the running process
| execute (frame : CallFrame) (userInput : Option Ptr)
| halt (frame : CallFrame) (status : UInt8)
| vidmap (screenStart : UInt32)
| write (bytes : List UInt8)
-- a store through the page of `syscall_vidmap`
| store (off : Fin size4K) (b : UInt8)
-- the keyboard interrupt
| key (inputCode : UInt8)

/- The events that need no process. -/
def Event.isInterrupt : Event → Bool
| .tick _ _ => true
| .key _ => true
| _ => false

namespace Kernel

/- An event, and where the processor goes after it. -/
def handle
    (fs : FileSystem)
    (k : Kernel) :
    Event → Outcome × Kernel
| .tick regs frame => k.pitIntHandler fs regs frame
| .execute frame userInput =>
    k.syscallExecute fs frame userInput
| .halt frame status => k.syscallHalt fs frame status
| .vidmap screenStart =>
    let called := k.syscallVidmap screenStart
    (.returned called.1, called.2)
| .write bytes =>
    (.returned bytes.length, k.terminalWrite bytes)
| .store off b => (.returned 0, k.vidmapStore off b)
| .key inputCode =>
    (.returned 0, k.keyboardIntHandler inputCode)

def step
    (fs : FileSystem)
    (k : Kernel)
    (e : Event) : Kernel :=
  (k.handle fs e).2

end Kernel

end MartianPendulum

------------------------------------------------------------
-- Frame Facts
------------------------------------------------------------

namespace MartianPendulum

namespace Kernel

@[simp] theorem setControl_toControl
    (f : Control → Control)
    (k : Kernel) :
    (k.setControl f).toControl = f k.toControl := rfl

@[simp] theorem setControl_toDisplay
    (f : Control → Control)
    (k : Kernel) :
    (k.setControl f).toDisplay = k.toDisplay := rfl

@[simp] theorem setControl_toKeyboard
    (f : Control → Control)
    (k : Kernel) :
    (k.setControl f).toKeyboard = k.toKeyboard := rfl

@[simp] theorem setDisplay_toControl
    (f : Control → Display → Display)
    (k : Kernel) :
    (k.setDisplay f).toControl = k.toControl := rfl

@[simp] theorem setDisplay_toDisplay
    (f : Control → Display → Display)
    (k : Kernel) :
    (k.setDisplay f).toDisplay =
      f k.toControl k.toDisplay := rfl

@[simp] theorem setDisplay_toKeyboard
    (f : Control → Display → Display)
    (k : Kernel) :
    (k.setDisplay f).toKeyboard = k.toKeyboard := rfl

@[simp] theorem setKeyboard_toControl
    (f : Keyboard → Keyboard)
    (k : Kernel) :
    (k.setKeyboard f).toControl = k.toControl := rfl

@[simp] theorem setKeyboard_toDisplay
    (f : Keyboard → Keyboard)
    (k : Kernel) :
    (k.setKeyboard f).toDisplay = k.toDisplay := rfl

@[simp] theorem setKeyboard_toKeyboard
    (f : Keyboard → Keyboard)
    (k : Kernel) :
    (k.setKeyboard f).toKeyboard = f k.toKeyboard := rfl

@[simp] theorem printf_toControl
    (s : String)
    (k : Kernel) :
    (k.printf s).toControl = k.toControl := rfl

@[simp] theorem printf_toKeyboard
    (s : String)
    (k : Kernel) :
    (k.printf s).toKeyboard = k.toKeyboard := rfl

end Kernel

end MartianPendulum

------------------------------------------------------------
-- Execute
------------------------------------------------------------

namespace MartianPendulum

namespace Control

/- A process created by `syscall_execute`. -/
def spawn
    (newPid : Int)
    (args : Ptr)
    (regs : Regs)
    (g : Control) : Control :=
  { g with
    pcbBitmap := Function.update g.pcbBitmap newPid 1
    }.startProcess newPid args regs

theorem freePid_mem
    {g : Control}
    {n : Int}
    (hFree : g.freePid = some n) :
    n ∈ pids :=
  List.mem_of_find?_eq_some hFree

theorem freePid_bitmap
    {g : Control}
    {n : Int}
    (hFree : g.freePid = some n) :
    g.pcbBitmap n = 0 := by
  simpa using List.find?_some hFree

theorem freePid_eq_none_iff
    (g : Control) :
    g.freePid = none ↔ ∀ p ∈ pids, g.pcbBitmap p ≠ 0 := by
  simp [freePid]

end Control

theorem mem_pids
    {p : Int} :
    p ∈ pids ↔ 0 ≤ p ∧ p < 6 := by
  simp only [pids, List.mem_cons, List.not_mem_nil, or_false]
  omega

theorem ne_neg_one_of_mem_pids
    {p : Int}
    (hMem : p ∈ pids) :
    p ≠ -1 := by
  rw [mem_pids] at hMem
  omega

namespace Kernel

/- With a free pid a process is created. -/
theorem createProcess_of_free
    (fs : FileSystem)
    (inode : Nat)
    (args : Ptr)
    (regs : Regs)
    (k : Kernel)
    {n : Int}
    (hFree : k.freePid = some n) :
    ∃ eip d,
      k.createProcess fs inode args regs =
        (.started n eip,
          { k with
            toControl := k.spawn n args regs
            toDisplay := d }) := by
  have hRecord : k.recordProcess =
      (n, { k.toControl with
        pcbBitmap :=
          Function.update k.pcbBitmap n 1 }) := by
    simp only [Control.recordProcess, hFree]
  have hNe : n ≠ -1 :=
    ne_neg_one_of_mem_pids (Control.freePid_mem hFree)
  simp only [createProcess, hRecord, hNe, if_false]
  exact ⟨_, _, rfl⟩

/- Without a free pid only a message is printed. -/
theorem createProcess_of_full
    (fs : FileSystem)
    (inode : Nat)
    (args : Ptr)
    (regs : Regs)
    (k : Kernel)
    (hFull : k.freePid = none) :
    k.createProcess fs inode args regs =
      (.returned 0,
        k.printf "Reach maximal number of programs!\n") := by
  have hRecord : k.recordProcess = (-1, k.toControl) := by
    simp only [Control.recordProcess, hFull]
  simp only [createProcess, hRecord, if_true]

/- `syscall_execute` on a command. -/
theorem syscallExecute_command
    (fs : FileSystem)
    (frame : CallFrame)
    (s : CString)
    (hFit : s.chars.length < 2 ^ 32)
    (k : Kernel) :
    k.syscallExecute fs frame (some s.ptr) =
      match fs.lookup (firstWord s.chars) with
      | none =>
          (.returned (-1), k.printf "read_by_name fails\n")
      | some d =>
          if isElf (readData fs d.nrInode 0
              frame.firstFourBytes 4) then
            k.createProcess fs d.nrInode
              (parseArgs s.ptr frame.fileName frame.args).2
              frame.toRegs
          else
            (.returned (-1),
              k.printf "Checking ELF fails\n") := by
  simp only [syscallExecute,
    readDentryByName_command s hFit fs]
  cases fs.lookup (firstWord s.chars) with
  | none => rfl
  | some d =>
      dsimp only
      rw [if_neg (by decide)]
      rfl

/-
  `syscall_execute` returns and changes the display at most,
  or it starts a process under the first free pid.
-/
theorem syscallExecute_cases
    (fs : FileSystem)
    (frame : CallFrame)
    (userInput : Option Ptr)
    (k : Kernel) :
    (∃ v d,
      k.syscallExecute fs frame userInput =
        (.returned v, { k with toDisplay := d })) ∨
    (∃ n args eip d,
      k.freePid = some n ∧
      k.syscallExecute fs frame userInput =
        (.started n eip,
          { k with
            toControl := k.spawn n args frame.toRegs
            toDisplay := d })) := by
  cases userInput with
  | none => exact Or.inl ⟨-1, k.toDisplay, rfl⟩
  | some input =>
      simp only [syscallExecute]
      split
      · exact Or.inl ⟨-1, _, rfl⟩
      · split
        · cases hFree : k.freePid with
          | none =>
              rw [createProcess_of_full _ _ _ _ _ hFree]
              exact Or.inl ⟨0, _, rfl⟩
          | some n =>
              rcases
                  createProcess_of_free fs _ _ frame.toRegs k
                    hFree with
                ⟨eip, d, hCreate⟩
              rw [hCreate]
              exact Or.inr ⟨n, _, eip, d, rfl, rfl⟩
        · exact Or.inl ⟨-1, _, rfl⟩

end Kernel

end MartianPendulum

------------------------------------------------------------
-- Base Shells
------------------------------------------------------------

namespace MartianPendulum

/-
  The directory leads the name to a file that passes the ELF
  check of `syscall_execute`, whatever its buffer held.
-/
def Loadable
    (fs : FileSystem)
    (name : List UInt8) : Prop :=
  ∃ d, fs.lookup name = some d ∧
    ∀ buf, isElf (readData fs d.nrInode 0 buf 4) = true

theorem sampleFs_loadable :
    Loadable sampleFs shellName := by
  refine ⟨sampleFs.bootBlock.files 0, lookup_sampleName, ?_⟩
  intro buf
  rfl

/- A loadable shell is started whenever a pid is free. -/
theorem syscallExecute_shell
    {fs : FileSystem}
    (hShell : Loadable fs shellName)
    (frame : CallFrame)
    (k : Kernel) :
    ∃ inode args,
      k.syscallExecute fs frame (some shellLiteral.ptr) =
        k.createProcess fs inode args frame.toRegs := by
  rcases hShell with ⟨d, hLookup, hElf⟩
  have hWord : firstWord shellLiteral.chars = shellName := by
    decide
  have hExec := k.syscallExecute_command fs frame
    shellLiteral (by decide)
  simp only [hWord, hLookup, hElf, if_true] at hExec
  exact ⟨_, _, hExec⟩

/-
  An attempt to start a base shell fails only if the file is
  not loadable or no pid is free.
-/
theorem syscallExecute_shell_cases
    (fs : FileSystem)
    (frame : CallFrame)
    (k : Kernel) :
    (∃ n args eip d,
      k.freePid = some n ∧
      k.syscallExecute fs frame (some shellLiteral.ptr) =
        (.started n eip,
          { k with
            toControl := k.spawn n args frame.toRegs
            toDisplay := d })) ∨
    ((Loadable fs shellName → k.freePid = none) ∧
      ∃ v d,
        k.syscallExecute fs frame (some shellLiteral.ptr) =
          (.returned v, { k with toDisplay := d })) := by
  rcases k.syscallExecute_cases fs frame
      (some shellLiteral.ptr) with
    ⟨v, d, hExec⟩ | ⟨n, args, eip, d, hFree, hExec⟩
  · refine Or.inr ⟨?_, v, d, hExec⟩
    intro hShell
    rcases syscallExecute_shell hShell frame k with
      ⟨inode, args, hCreate⟩
    cases hFree : k.freePid with
    | none => rfl
    | some n =>
        rcases
            k.createProcess_of_free fs inode args
              frame.toRegs hFree with
          ⟨eip, d', hStart⟩
        rw [hCreate, hStart] at hExec
        simp at hExec
  · exact Or.inl ⟨n, args, eip, d, hFree, hExec⟩

end MartianPendulum

------------------------------------------------------------
-- A Sample Machine
------------------------------------------------------------

namespace MartianPendulum

def blankRegs : Regs :=
  { esp := 0, ebp := 0 }

def blankFrame : CallFrame :=
  { toRegs := blankRegs
    fileName := fun _ => 0
    args := fun _ => 0
    firstFourBytes := fun _ => 0
    dentry :=
      { filename := fun _ => 0, type := 0, nrInode := 0 } }

/- A machine whose memory holds zeros. -/
def blankKernel : Kernel :=
  { pcbBitmap := fun _ => 0
    curPid := 0
    curPcbPtr := 0
    pcb := fun _ =>
      { parentPid := 0
        pid := 0
        vidmapFlag := false
        esp := 0
        ebp := 0
        tssEsp0 := 0
        args := fun _ => 0
        pcbFds := fun _ => staleEntry }
    tss := { ss0 := 0, esp0 := 0 }
    pageDirBase := fun _ => pageDirEntry4MB 0 0 0
    usrPageTableBase := fun _ => pageTableEntry 0 0 0
    usrmapPageTableBase := fun _ => pageTableEntry 0 0 0
    termArr := fun _ => { pid := 0, vidmapFlag := false }
    runningTermPtr := tid0
    viewingTermPtr := tid0
    screenXPtr := tid0
    screenYPtr := tid0
    cursor := fun _ => { cursorX := 0, cursorY := 0 }
    cursorPos := 0
    mem := fun _ => 0
    leftShiftFlag := false
    rightShiftFlag := false
    ctrlFlag := false
    capslockFlag := false
    altFlag := false
    kbdBuf := tid0
    bufPos := 0
    line := fun _ =>
      { kbdBuf := fun _ => 0
        bufPos := 0
        kbdBufReady := false } }

end MartianPendulum
