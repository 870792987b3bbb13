import MartianPendulum.FileSystem.FileTable
import MartianPendulum.Kernel.Paging

/-
  The state of the kernel.

  The globals fall into three parts.  `Control` holds what
  the scheduler and the system calls work on: the process
  table, the page tables, and which terminal runs, is viewed
  and is drawn to.  `Display` holds the cursors and physical
  memory.  `Keyboard` holds the driver and the line buffers.
  The elements of `term_arr` are split among the three in
  the same way, so a `terminal_t` is a `Terminal`, a
  `Cursor` and a `LineBuffer` with one index.

  A pointer to an element of `term_arr`, or to its
  `kbd_buf`, `cursor_x` or `cursor_y` field, is the index of
  the element.  A `PCB_t *` is its address.

  Key definitions include:
    * `PCB`
    * `Control`
    * `Display`
    * `Keyboard`
    * `Kernel`
    * `getPcbPtr`
-/

------------------------------------------------------------
-- Processes
------------------------------------------------------------

namespace MartianPendulum

/-
  `PCB_t`.  The `uint32_t` fields that hold a pid are read
  as the `int` they were assigned from.
-/
structure PCB where
  parentPid : Int
  pid : Int
  vidmapFlag : Bool
  esp : UInt32
  ebp : UInt32
  tssEsp0 : Int
  args : Ptr
  pcbFds : FileTable

/- The fields of the task state segment that are used. -/
structure Tss where
  ss0 : Nat
  esp0 : Int

/- The globals of `syscall_handler.c`, and the PCBs. -/
structure ProcessTable where
  pcbBitmap : Int → Nat
  curPid : Int
  curPcbPtr : Int
  pcb : Int → PCB
  tss : Tss

/- `get_pcb_ptr` -/
def getPcbPtr
    (pid : Int) : Int :=
  (size8M : Int) - (pid + 1) * (size8K : Int)

theorem getPcbPtr_injective :
    Function.Injective getPcbPtr := by
  intro p q hEq
  have hSize : (size8K : Int) ≠ 0 := by decide
  unfold getPcbPtr at hEq
  have hMul := Int.sub_right_inj _ |>.mp hEq
  have hSucc := Int.eq_of_mul_eq_mul_right hSize hMul
  omega

end MartianPendulum

------------------------------------------------------------
-- Terminals
------------------------------------------------------------

namespace MartianPendulum

/- An element of `term_arr`. -/
abbrev Tid := Fin 3

/- The indices 0, 1 and 2. -/
abbrev tid0 : Tid := 0
abbrev tid1 : Tid := 1
abbrev tid2 : Tid := 2

/- The fields of `terminal_t` that the scheduler uses. -/
structure Terminal where
  pid : Int
  vidmapFlag : Bool

/- The fields of `terminal_t` that the console uses. -/
structure Cursor where
  cursorX : Int
  cursorY : Int

/- The fields of `terminal_t` that the keyboard uses. -/
structure LineBuffer where
  kbdBuf : Ptr
  bufPos : Nat
  kbdBufReady : Bool

/-
  The fields `vid_mem_buffer` and `next_term_to_run` are
  written by `terminal_init` only, and `tid` is the index.
-/
def vidMemBuffer
    (t : Tid) : Nat :=
  videoStart + (t.val + 1) * size4K

def nextTermToRun
    (t : Tid) : Tid :=
  t + tid1

end MartianPendulum

------------------------------------------------------------
-- The Kernel
------------------------------------------------------------

namespace MartianPendulum

/-
  The processes, the page tables, and the pointers to the
  terminals.
-/
structure Control extends ProcessTable, PageTables where
  termArr : Tid → Terminal
  runningTermPtr : Tid
  viewingTermPtr : Tid
  screenXPtr : Tid
  screenYPtr : Tid

/-
  The cursor of each terminal, the position register of the
  hardware cursor, and physical memory.
-/
structure Display where
  cursor : Tid → Cursor
  cursorPos : Nat
  mem : Ptr

/-
  The globals of `keyboard.c`, and the line buffer of each
  terminal.
-/
structure Keyboard where
  leftShiftFlag : Bool
  rightShiftFlag : Bool
  ctrlFlag : Bool
  capslockFlag : Bool
  altFlag : Bool
  kbdBuf : Tid
  bufPos : Nat
  line : Tid → LineBuffer

structure Kernel extends Control, Display, Keyboard

namespace Control

/- Change one terminal. -/
def setTerm
    (t : Tid)
    (f : Terminal → Terminal)
    (g : Control) : Control :=
  { g with
    termArr := Function.update g.termArr t (f (g.termArr t)) }

/- Change the page tables. -/
def setTables
    (f : PageTables → PageTables)
    (g : Control) : Control :=
  { g with toPageTables := f g.toPageTables }

/- Change the PCB at an address. -/
def setPcb
    (ptr : Int)
    (f : PCB → PCB)
    (g : Control) : Control :=
  { g with pcb := Function.update g.pcb ptr (f (g.pcb ptr)) }

end Control

end MartianPendulum
