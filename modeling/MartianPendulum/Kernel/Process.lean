import MartianPendulum.FileSystem.ReadData
import MartianPendulum.Kernel.Terminal

/-
  The system calls of `syscall_handler.c` that create and
  end processes or change their address space, and the
  scheduler.

  A call that leaves through `iret`, or that switches to a
  saved kernel stack, does not return to its caller; its
  `Outcome` says where the processor goes.  The PCB of pid
  -1 would lie at 8 MB, where no page is: the kernel faults
  when it reads from it.

  Key definitions include:
    * `parseArgs`
    * `Outcome`
    * `Kernel.syscallExecute`
    * `Kernel.syscallHalt`
    * `Kernel.syscallVidmap`
    * `Kernel.schedule`
    * `Kernel.pitIntHandler`
-/

------------------------------------------------------------
-- Command Parsing
------------------------------------------------------------

namespace MartianPendulum

/- `while (*user_input == ' ') user_input++` from `i` on. -/
def skipSpaces
    (userInput : Ptr) :
    Nat → Nat → Nat
| 0, i => i
| fuel + 1, i =>
    if userInput i = Display.space then
      skipSpaces userInput fuel (i + 1)
    else i

/-
  The locals of `parse_args`.  The pointers that it advances
  are offsets.
-/
structure ParseState where
  flag : Bool
  inputPos : Nat
  parsedFname : Ptr
  parsedArgs : Ptr
  argsPos : Nat

/- The body of the loop of `parse_args`. -/
def parseStep
    (userInput : Ptr)
    (s : ParseState)
    (i : Nat) : ParseState :=
  if s.flag = false then
    if userInput s.inputPos ≠ Display.space then
      { s with
        parsedFname := Function.update s.parsedFname i
          (userInput s.inputPos)
        inputPos := s.inputPos + 1 }
    else { s with flag := true }
  else
    let pos := skipSpaces userInput (2 ^ 32) s.inputPos
    { s with
      parsedArgs := Function.update s.parsedArgs s.argsPos
        (userInput pos)
      inputPos := pos + 1
      argsPos := s.argsPos + 1 }

/-
  `parse_args` on a string that is not NULL: the contents of
  `parsed_fname` and `parsed_args` after it.
-/
def parseArgs
    (userInput parsedFname parsedArgs : Ptr) :
    Ptr × Ptr :=
  let start := skipSpaces userInput (2 ^ 32) 0
  let length := strlen (fun i => userInput (start + i))
  let s := (List.range length).foldl (parseStep userInput)
    { flag := false
      inputPos := start
      parsedFname :=
        Logic.blit parsedFname 0 50 (fun _ => 0)
      parsedArgs := Logic.blit parsedArgs 0 50 (fun _ => 0)
      argsPos := 0 }
  (s.parsedFname, s.parsedArgs)

end MartianPendulum

------------------------------------------------------------
-- Process Table Updates
------------------------------------------------------------

namespace MartianPendulum

/- `KERNEL_DS` -/
def kernelDs : Nat := 0x18

/- `ARG_LEN` -/
def argLen : Nat := 128

/- `PROGRAM_VIR_ADDR` -/
def programVirAddr : Nat := 0x08048000

/- `USER_START` and `USER_END` -/
def userStart : Int := 0x8000000
def userEnd : Int := 0x8400000

/- The registers that a context switch saves. -/
structure Regs where
  esp : UInt32
  ebp : UInt32

/-
  What a call to `syscall_execute` finds: its stack
  registers, and its locals before they are assigned.
-/
structure CallFrame extends Regs where
  fileName : Ptr
  args : Ptr
  firstFourBytes : Ptr
  dentry : Dentry

/- Where the processor goes at the end of a call. -/
inductive Outcome where
-- a return to the caller
| returned (value : Int)
-- `iret` into a new program
| started (pid : Int) (userEip : Nat)
-- a jump to the return of an earlier `syscall_execute`
| restored (regs : Regs) (eax : Nat)
-- a return on the kernel stack of another process
| switched (regs : Regs)
-- a page fault in the kernel
| faulted

/- The pids that `record_process` tries. -/
def pids : List Int :=
  [0, 1, 2, 3, 4, 5]

namespace Control

/- The first free pid. -/
def freePid
    (g : Control) : Option Int :=
  pids.find? (fun i => g.pcbBitmap i = 0)

/- `record_process` -/
def recordProcess
    (g : Control) : Int × Control :=
  match g.freePid with
  | some i =>
      (i, { g with
        pcbBitmap := Function.update g.pcbBitmap i 1 })
  | none => (-1, g)

/- `decord_process` -/
def decordProcess
    (pid : Int)
    (g : Control) : Int × Control :=
  if g.pcbBitmap pid = 0 then (-1, g)
  else
    (0, { g with
      pcbBitmap := Function.update g.pcbBitmap pid 0 })

end Control

/- The end of the kernel stack that a PCB lies below. -/
def kernelStack
    (pid : Int) : Int :=
  getPcbPtr pid + (size8K : Int) - 4

/- The loop after `init_file_table` in `syscall_execute`. -/
def freeUserFds
    (table : FileTable) : FileTable :=
  ([2, 3, 4, 5, 6, 7] : List Int).foldl
    (fun table i => Function.update table i
      { table i with flags := flagFree })
    table

/- The new PCB of `syscall_execute`. -/
def initPcb
    (newPid parentPid : Int)
    (args : Ptr)
    (p : PCB) : PCB :=
  { p with
    pid := newPid
    parentPid := parentPid
    vidmapFlag := false
    pcbFds := freeUserFds (initFileTable p.pcbFds)
    tssEsp0 := kernelStack newPid
    args := strncpy p.args args argLen }

namespace Control

/- Save the stack registers in the current PCB. -/
def saveRegs
    (regs : Regs)
    (g : Control) : Control :=
  g.setPcb g.curPcbPtr
    (fun p => { p with esp := regs.esp, ebp := regs.ebp })

/-
  What `syscall_execute` does to the process table and the
  page directory once it has a pid.
-/
def startProcess
    (newPid : Int)
    (args : Ptr)
    (regs : Regs)
    (g : Control) : Control :=
  let newPcbPtr := getPcbPtr newPid
  let g := g.setTables (PageTables.setupPaging newPid)
  let g := g.setPcb newPcbPtr (initPcb newPid g.curPid args)
  let g := if g.curPid ≠ -1 then g.saveRegs regs else g
  { g with
    curPcbPtr := newPcbPtr
    curPid := newPid
    tss :=
      { ss0 := kernelDs
        esp0 := (g.pcb newPcbPtr).tssEsp0 } }

end Control

end MartianPendulum

------------------------------------------------------------
-- Execute
------------------------------------------------------------

namespace MartianPendulum

namespace Display

/-
  The image read to `PROGRAM_VIR_ADDR`.  `read_data` copies
  less than 63 blocks, which stay within the 4MB page.
-/
def loadProgram
    (fs : FileSystem)
    (inode : Nat)
    (g : Control)
    (d : Display) : Display :=
  match g.walk programVirAddr with
  | some base =>
      { d with
        mem := fun a =>
          if base ≤ a then
            (readData fs inode 0 (fun i => d.mem (base + i))
              (fs.inodeLength inode)).2 (a - base)
          else d.mem a }
  | none => d

/- The `uint32_t` at a virtual address. -/
def loadWord
    (g : Control)
    (v : Int)
    (d : Display) : Nat :=
  (d.load g v).toNat + (d.load g (v + 1)).toNat * 2 ^ 8 +
    (d.load g (v + 2)).toNat * 2 ^ 16 +
    (d.load g (v + 3)).toNat * 2 ^ 24

end Display

/- The ELF check of `syscall_execute`. -/
def isElf
    (read : Int × Ptr) : Bool :=
  read.1 ≠ -1 ∧ read.2 0 = 0x7F ∧ read.2 1 = 0x45 ∧
    read.2 2 = 0x4C ∧ read.2 3 = 0x46

namespace Kernel

/- `syscall_execute` from `record_process` on. -/
def createProcess
    (fs : FileSystem)
    (inode : Nat)
    (args : Ptr)
    (regs : Regs)
    (k : Kernel) :
    Outcome × Kernel :=
  let recorded := k.recordProcess
  if recorded.1 = -1 then
    (.returned 0,
      k.printf "Reach maximal number of programs!\n")
  else
    let k := k.setControl (fun _ => recorded.2)
    -- the image is loaded through the new process's page
    let pages := k.setTables
      (PageTables.setupPaging recorded.1)
    let k := k.setDisplay
      (fun _ d => d.loadProgram fs inode pages)
    let k := k.setControl
      (Control.startProcess recorded.1 args regs)
    (.started recorded.1
      (k.loadWord k.toControl (programVirAddr + 24)), k)

/- `syscall_execute`; `none` is a NULL argument. -/
def syscallExecute
    (fs : FileSystem)
    (frame : CallFrame)
    (userInput : Option Ptr)
    (k : Kernel) :
    Outcome × Kernel :=
  match userInput with
  | none => (.returned (-1), k)
  | some input =>
      let parsed := parseArgs input frame.fileName frame.args
      let found :=
        readDentryByName fs parsed.1 frame.dentry
      if found.1 = -1 then
        (.returned (-1), k.printf "read_by_name fails\n")
      else
        let inode := found.2.nrInode
        if isElf (readData fs inode 0
            frame.firstFourBytes 4) then
          k.createProcess fs inode parsed.2 frame.toRegs
        else
          (.returned (-1), k.printf "Checking ELF fails\n")

end Kernel

end MartianPendulum

------------------------------------------------------------
-- Halt and Vidmap
------------------------------------------------------------

namespace MartianPendulum

namespace Control

/- The current PCB. -/
def cur
    (g : Control) : PCB :=
  g.pcb g.curPcbPtr

/- The frame that holds the screen of the running terminal. -/
def runningFrame
    (g : Control) : Nat :=
  if g.runningTermPtr ≠ g.viewingTermPtr then
    vidMemBuffer g.runningTermPtr / size4K
  else videoPage

/- The flags of `syscall_vidmap` and `syscall_halt`. -/
def setVidmap
    (flag : Bool)
    (g : Control) : Control :=
  let g := g.setPcb g.curPcbPtr
    (fun p => { p with vidmapFlag := flag })
  g.setTerm g.runningTermPtr
    (fun t => { t with vidmapFlag := flag })

/- The loop that closes the descriptors. -/
def closeAll
    (g : Control) : Control :=
  g.setPcb g.curPcbPtr (fun p => { p with
    pcbFds := ([0, 1, 2, 3, 4, 5, 6, 7] : List Int).foldl
      (fun table i => (syscallClose i table).2)
      p.pcbFds })

/- The block of `syscall_halt` that unmaps the user page. -/
def switchUserMapping
    (g : Control) : Control :=
  if g.cur.vidmapFlag then
    (g.setVidmap false).setTables
      (PageTables.switchUsrmap g.runningFrame 0)
  else g

/- `syscall_halt` up to the test of the parent. -/
def released
    (g : Control) : Control :=
  (g.decordProcess g.curPid).2

/- `syscall_halt` where it restarts the base shell. -/
def orphaned
    (g : Control) : Control :=
  { g.released with curPid := -1 }

/- `syscall_halt` from `restore parent data` on. -/
def haltToParent
    (status : UInt8)
    (g : Control) :
    Outcome × Control :=
  let parentPid := g.cur.parentPid
  let parentPcbPtr := getPcbPtr parentPid
  let g := { g with tss := { g.tss with ss0 := kernelDs } }
  -- the read of `tss_esp0`
  if parentPid = -1 then (.faulted, g)
  else
    let g :=
      { g with
        tss :=
          { g.tss with
            esp0 := (g.pcb parentPcbPtr).tssEsp0 } }
    let g := g.setTables
      (PageTables.setupPaging g.cur.parentPid)
    let g := g.closeAll
    let g := g.switchUserMapping
    let g :=
      { g with
        curPid := g.cur.parentPid
        curPcbPtr := parentPcbPtr }
    let retval := if status = 255 then 256 else status.toNat
    (.restored
      { esp := (g.pcb parentPcbPtr).esp
        ebp := (g.pcb parentPcbPtr).ebp }
      retval, g)

end Control

/- The string literal `"shell"`. -/
def shellLiteral : CString :=
  { chars := shellName
    after := fun _ => 0
    nonzero := shellName_nonzero }

/-
  The code after a call that is expected not to return,
  which is reached if it does.
-/
def ifReturned
    (next : Kernel → Outcome × Kernel)
    (called : Outcome × Kernel) :
    Outcome × Kernel :=
  match called.1 with
  | .returned _ => next called.2
  | _ => called

namespace Kernel

/- The switch to the parent, on the whole kernel. -/
def returnToParent
    (status : UInt8)
    (k : Kernel) :
    Outcome × Kernel :=
  let halted := k.haltToParent status
  (halted.1, { k with toControl := halted.2 })

/- `syscall_halt` -/
def syscallHalt
    (fs : FileSystem)
    (frame : CallFrame)
    (status : UInt8)
    (k : Kernel) :
    Outcome × Kernel :=
  if k.released.cur.parentPid = -1 then
    ifReturned
      (fun k => (k.printf "This should not be printed!\n"
        ).returnToParent status)
      ((k.setControl Control.orphaned).syscallExecute fs
        frame (some shellLiteral.ptr))
  else
    (k.setControl Control.released).returnToParent status

/- `syscall_vidmap`, with its argument as an address. -/
def syscallVidmap
    (screenStart : UInt32)
    (k : Kernel) :
    Int × Kernel :=
  let addr := s32 screenStart.toNat
  if screenStart = 0 then (-1, k)
  else if addr < userStart ∨ addr > userEnd - 4 then
    (-1, k.printf "Invalid requirement of vidmap!\n")
  else
    let k := k.setControl (fun g => g.setTables
      (PageTables.switchUsrmap g.runningFrame 1))
    -- the little-endian bytes of `FISH_MAP`
    let k := k.setDisplay (fun g d =>
      (((d.store g addr 0x00).store g (addr + 1) 0x80).store
        g (addr + 2) 0x4B).store g (addr + 3) 0x08)
    (0, k.setControl (Control.setVidmap true))

end Kernel

end MartianPendulum

------------------------------------------------------------
-- The Scheduler
------------------------------------------------------------

namespace MartianPendulum

namespace Control

/- The first block of `schedule`. -/
def saveCurrent
    (regs : Regs)
    (g : Control) : Control :=
  let g := g.setTerm g.runningTermPtr
    (fun t => { t with pid := g.curPid })
  if g.curPid ≠ -1 then
    (g.setPcb g.curPcbPtr
      (fun p => { p with tssEsp0 := g.tss.esp0 })).saveRegs
        regs
  else g

/- The second block of `schedule`. -/
def selectNext
    (g : Control) : Control :=
  let nextTerminal := nextTermToRun g.runningTermPtr
  let nextPid := (g.termArr nextTerminal).pid
  { g with
    runningTermPtr := nextTerminal
    curPcbPtr := getPcbPtr nextPid
    curPid := nextPid }

/- The last blocks of `schedule`. -/
def resume
    (nextPid : Int)
    (g : Control) :
    Outcome × Control :=
  let nextPcb := g.pcb (getPcbPtr nextPid)
  let g := g.setTables (PageTables.setupPaging nextPid)
  let g := { g with tss := { g.tss with ss0 := kernelDs } }
  -- the read of `tss_esp0`
  if nextPid = -1 then (.faulted, g)
  else
    (.switched { esp := nextPcb.esp, ebp := nextPcb.ebp },
      { g with
        tss := { g.tss with esp0 := nextPcb.tssEsp0 } })

end Control

namespace Kernel

/- The line that names a terminal. -/
def terminalBar
    (tid : Tid) : String :=
  "========>>> TERMINAL ID: " ++ toString tid.val ++
    "                        \n"

/- `launch_base_shell` -/
def launchBaseShell
    (fs : FileSystem)
    (frame : CallFrame)
    (tid : Tid)
    (k : Kernel) :
    Outcome × Kernel :=
  (k.printf (terminalBar tid)).syscallExecute fs frame
    (some shellLiteral.ptr)

/- The switch to the next process, on the whole kernel. -/
def switchTo
    (nextPid : Int)
    (k : Kernel) :
    Outcome × Kernel :=
  let resumed := k.resume nextPid
  (resumed.1, { k with toControl := resumed.2 })

/- `schedule` from the test of the next pid on. -/
def enterNext
    (fs : FileSystem)
    (frame : CallFrame)
    (k : Kernel) :
    Outcome × Kernel :=
  let nextPid := k.curPid
  if nextPid = -1 then
    ifReturned
      (fun k => (k.printf "This should not be printed!\n"
        ).switchTo nextPid)
      (k.launchBaseShell fs frame k.runningTermPtr)
  else k.switchTo nextPid

/- `schedule` -/
def schedule
    (fs : FileSystem)
    (regs : Regs)
    (frame : CallFrame)
    (k : Kernel) :
    Outcome × Kernel :=
  (k.setControl (fun g =>
    (g.saveCurrent regs).selectNext)).enterNext fs frame

/- `pit_int_handler` -/
def pitIntHandler
    (fs : FileSystem)
    (regs : Regs)
    (frame : CallFrame)
    (k : Kernel) :
    Outcome × Kernel :=
  (k.setControl (fun g => g.changeVidmemMapping
    (nextTermToRun g.runningTermPtr))).schedule fs regs frame

end Kernel

end MartianPendulum
