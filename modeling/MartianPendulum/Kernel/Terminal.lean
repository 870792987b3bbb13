import MartianPendulum.Kernel.Console

/-
  The terminal driver of `terminal.c`: initialisation,
  output and the switch of the viewed terminal.

  Key definitions include:
    * `terminalInit`
    * `switchTerminal`
    * `terminalWrite`
    * `boot`
-/

------------------------------------------------------------
-- Initialisation
------------------------------------------------------------

namespace MartianPendulum

namespace Kernel

/- `terminal_init` -/
def terminalInit
    (k : Kernel) : Kernel :=
  { k with
    termArr := fun _ => { pid := -1, vidmapFlag := false }
    line := fun t =>
      { k.line t with bufPos := 0, kbdBufReady := false }
    cursor := fun _ => { cursorX := 0, cursorY := 0 }
    kbdBuf := tid0
    bufPos := 0
    screenXPtr := tid0
    screenYPtr := tid0 }

/- `keyboard_init` -/
def keyboardInit
    (k : Kernel) : Kernel :=
  { k with
    leftShiftFlag := false
    rightShiftFlag := false
    ctrlFlag := false
    capslockFlag := false
    altFlag := false }

/-
  The static initialisers of `syscall_handler.c` and
  `terminal.c`.  `term_arr` is static, so its buffers start
  as zeros; the PCBs, the task state segment and physical
  memory hold whatever they held.
-/
def loaded
    (k : Kernel) : Kernel :=
  { k with
    pcbBitmap := fun _ => 0
    curPid := -1
    curPcbPtr := 0
    runningTermPtr := tid0
    viewingTermPtr := tid0
    line := fun t => { k.line t with kbdBuf := fun _ => 0 } }

/-
  The state in which `entry` enables interrupts, from any
  contents of memory.
-/
def boot
    (k : Kernel) : Kernel :=
  (k.loaded.keyboardInit.setControl
    (fun g => g.setTables pagingInit)).terminalInit

end Kernel

end MartianPendulum

------------------------------------------------------------
-- Switching the Viewed Terminal
------------------------------------------------------------

namespace MartianPendulum

/- `memcpy` between two virtual ranges that do not overlap. -/
def Display.memcpy
    (g : Control)
    (dest src n : Nat)
    (d : Display) : Display :=
  (List.range n).foldl
    (fun d (i : Nat) =>
      d.store g ((dest + i : Nat) : Int)
        (d.load g ((src + i : Nat) : Int)))
    d

namespace Control

/- The assignments of `update_screen_xy_ptr`. -/
def setScreenPtr
    (t : Tid)
    (g : Control) : Control :=
  { g with screenXPtr := t, screenYPtr := t }

def setViewing
    (t : Tid)
    (g : Control) : Control :=
  { g with viewingTermPtr := t }

/- The mapping that the running terminal needs. -/
def mapRunning
    (g : Control) : Control :=
  g.changeVidmemMapping g.runningTermPtr

end Control

namespace Keyboard

/- Change one line buffer. -/
def setLine
    (t : Tid)
    (f : LineBuffer → LineBuffer)
    (b : Keyboard) : Keyboard :=
  { b with line := Function.update b.line t (f (b.line t)) }

/-
  The keyboard part of `switch_terminal`: the pending line
  of the old terminal is saved and the new one restored.
-/
def switchLine
    (old target : Tid)
    (b : Keyboard) : Keyboard :=
  let b := b.setLine old
    (fun l => { l with bufPos := b.bufPos })
  { b with
    kbdBuf := target
    bufPos := (b.line target).bufPos }

end Keyboard

namespace Kernel

/- Change the keyboard state. -/
def setKeyboard
    (f : Keyboard → Keyboard)
    (k : Kernel) : Kernel :=
  { k with toKeyboard := f k.toKeyboard }

/-
  `switch_terminal`.  Both copies go through the mapping of
  the terminal that was viewed so far.
-/
def switchTerminal
    (target : Tid)
    (k : Kernel) : Kernel :=
  if target = k.viewingTermPtr then k
  else
    let old := k.viewingTermPtr
    let k := k.setKeyboard (Keyboard.switchLine old target)
    let k := k.setControl (Control.setScreenPtr target)
    let k := k.setDisplay Display.calibCursor
    let k := k.setControl (Control.changeVidmemMapping old)
    let k := k.setDisplay (fun g d =>
      d.memcpy g (vidMemBuffer old) videoStart size4K)
    let k := k.setDisplay (fun g d =>
      d.memcpy g videoStart (vidMemBuffer target) size4K)
    let k := k.setControl (Control.setViewing target)
    k.setControl Control.mapRunning

end Kernel

end MartianPendulum

------------------------------------------------------------
-- Output
------------------------------------------------------------

namespace MartianPendulum

namespace Kernel

/- `terminal_write`, with the bytes it reads from `buf`. -/
def terminalWrite
    (bytes : List UInt8)
    (k : Kernel) : Kernel :=
  k.setDisplay (fun g d => d.putBytes g bytes)

/-
  A store of the running process through the page that
  `syscall_vidmap` gave it.
-/
def vidmapStore
    (off : Fin size4K)
    (b : UInt8)
    (k : Kernel) : Kernel :=
  k.setDisplay (fun g d => d.store g (fishMap + off) b)

end Kernel

end MartianPendulum
