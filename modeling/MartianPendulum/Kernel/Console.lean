import MartianPendulum.Kernel.State

/-
  The screen routines of `lib.c`, and the remapping of video
  memory of `terminal.c`.

  The screen routines read the control state, for the
  mapping of video memory and the cursor pointers, and
  change the display only.

  Key definitions include:
    * `Display.load`, `Display.store`
    * `Display.nbPutc`
    * `Display.upScrollForOneLine`
    * `Display.clear`
    * `Control.changeVidmemMapping`
-/

------------------------------------------------------------
-- Mapping of Video Memory
------------------------------------------------------------

namespace MartianPendulum

namespace PageTables

/-
  The assignments of `switch_fish_paging`, with the frame
  that video memory goes to.
-/
def setVideoFrame
    (frame : Nat)
    (vidmapFlag : Bool)
    (pt : PageTables) : PageTables :=
  { pt with
    usrPageTableBase :=
      Function.update pt.usrPageTableBase videoPage
        { pt.usrPageTableBase videoPage with
          pgAddr := BitVec.ofNat 20 frame }
    usrmapPageTableBase :=
      Function.update pt.usrmapPageTableBase videoPage
        { pt.usrmapPageTableBase videoPage with
          present := BitVec.ofBool vidmapFlag
          pgAddr := BitVec.ofNat 20 frame } }

end PageTables

namespace Control

/- `switch_fish_paging` -/
def switchFishPaging
    (tid : Tid)
    (tempFlag : Bool)
    (g : Control) : Control :=
  g.setTables
    (PageTables.setVideoFrame
      (if tempFlag then vidMemBuffer tid / size4K
        else videoPage)
      (g.termArr tid).vidmapFlag)

/- `change_vidmem_mapping` -/
def changeVidmemMapping
    (tid : Tid)
    (g : Control) : Control :=
  { g with
    screenXPtr := tid
    screenYPtr := tid }.switchFishPaging tid
      (tid ≠ g.viewingTermPtr)

end Control

end MartianPendulum

------------------------------------------------------------
-- Memory and Cursor Accesses
------------------------------------------------------------

namespace MartianPendulum

namespace Display

/- `NUM_COLS`, `NUM_ROWS`, `ATTRIB` and `START_HEIGHT` -/
def numCols : Int := 80
def numRows : Int := 25
def attrib : UInt8 := 7
def startHeight : Int := 1

/- The character codes the console treats specially. -/
def space : UInt8 := 32
def backspace : UInt8 := 8
def carriageReturn : UInt8 := 13

/- A byte read at a virtual address. -/
def load
    (g : Control)
    (v : Int)
    (d : Display) : UInt8 :=
  match g.walk (u32 v) with
  | some p => d.mem p
  | none => 0

/-
  A byte written at a virtual address.  A store to an
  unmapped address faults and writes nothing.
-/
def store
    (g : Control)
    (v : Int)
    (b : UInt8)
    (d : Display) : Display :=
  match g.walk (u32 v) with
  | some p => { d with mem := Function.update d.mem p b }
  | none => d

/- `*screen_x_ptr` and `*screen_y_ptr` -/
def screenX
    (g : Control)
    (d : Display) : Int :=
  (d.cursor g.screenXPtr).cursorX

def screenY
    (g : Control)
    (d : Display) : Int :=
  (d.cursor g.screenYPtr).cursorY

def setScreenX
    (g : Control)
    (x : Int)
    (d : Display) : Display :=
  { d with
    cursor := Function.update d.cursor g.screenXPtr
      { d.cursor g.screenXPtr with cursorX := x } }

def setScreenY
    (g : Control)
    (y : Int)
    (d : Display) : Display :=
  { d with
    cursor := Function.update d.cursor g.screenYPtr
      { d.cursor g.screenYPtr with cursorY := y } }

/-
  `calib_cursor`: the two bytes of the `uint16_t` position
  go to the cursor registers.
-/
def calibCursor
    (g : Control)
    (d : Display) : Display :=
  { d with
    cursorPos :=
      ((d.screenY g * numCols + d.screenX g) %
        2 ^ 16).toNat }

/- `nb_putc` moves the hardware cursor on this condition. -/
def calibIfViewed
    (g : Control)
    (d : Display) : Display :=
  if g.viewingTermPtr = g.runningTermPtr then
    d.calibCursor g
  else d

/- A character and its attribute written to a cell. -/
def putCell
    (g : Control)
    (index : Int)
    (c : UInt8)
    (d : Display) : Display :=
  (d.store g (videoStart + index * 2) c).store g
    (videoStart + index * 2 + 1) attrib

/- A cell copied to another one, as the scroll does it. -/
def copyCell
    (g : Control)
    (toIndex fromIndex : Int)
    (d : Display) : Display :=
  let d := d.store g (videoStart + toIndex * 2)
    (d.load g (videoStart + fromIndex * 2))
  d.store g (videoStart + toIndex * 2 + 1)
    (d.load g (videoStart + fromIndex * 2 + 1))

end Display

end MartianPendulum

------------------------------------------------------------
-- Output
------------------------------------------------------------

namespace MartianPendulum

namespace Display

/- The inner loop of `up_scroll_for_one_line`. -/
def scrollRow
    (g : Control)
    (d : Display)
    (row : Nat) : Display :=
  (List.range 80).foldl
    (fun d (col : Nat) =>
      d.copyCell g (row * numCols + col)
        ((row + 1) * numCols + col))
    d

/- `up_scroll_for_one_line`, rows 1 to 23 and then row 24. -/
def upScrollForOneLine
    (g : Control)
    (d : Display) : Display :=
  let d := (List.range' 1 23).foldl (scrollRow g) d
  let d := d.setScreenY g (d.screenY g - 1)
  (List.range 80).foldl
    (fun d (i : Nat) =>
      d.putCell g ((numRows - 1) * numCols + i) space)
    d

/- The scroll at the end of `nb_putc`. -/
def scrollIfFull
    (g : Control)
    (d : Display) : Display :=
  if d.screenY g = numRows then d.upScrollForOneLine g else d

/- The branch of `nb_putc` for `\n` and `\r`. -/
def putNewline
    (g : Control)
    (d : Display) : Display :=
  let d := d.setScreenY g (d.screenY g + 1)
  let d := d.setScreenX g 0
  (d.scrollIfFull g).calibIfViewed g

/- The branch of `nb_putc` for `\b`. -/
def putBackspace
    (g : Control)
    (d : Display) : Display :=
  if d.screenX g = 0 ∧ d.screenY g = 0 then
    d.calibIfViewed g
  else
    let d :=
      if d.screenX g = 0 then
        let d := d.setScreenX g numCols
        d.setScreenY g (d.screenY g - 1)
      else d
    let d := d.putCell g
      (numCols * d.screenY g + d.screenX g - 1) space
    let d := d.setScreenX g (d.screenX g - 1)
    d.calibIfViewed g

/- The branch of `nb_putc` for printable characters. -/
def putGlyph
    (g : Control)
    (c : UInt8)
    (d : Display) : Display :=
  let d := d.putCell g
    (numCols * d.screenY g + d.screenX g) c
  let d := d.setScreenX g (d.screenX g + 1)
  let d :=
    if d.screenX g = numCols then
      let d := d.setScreenY g (d.screenY g + 1)
      d.setScreenX g 0
    else d
  (d.scrollIfFull g).calibIfViewed g

/-
  `nb_putc`.  For NUL the source calls itself with a space,
  which takes the last branch.
-/
def nbPutc
    (g : Control)
    (c : UInt8)
    (d : Display) : Display :=
  if c = newline ∨ c = carriageReturn then d.putNewline g
  else if c = backspace then d.putBackspace g
  else if c = 0 then d.putGlyph g space
  else d.putGlyph g c

/- The loop of `terminal_write`, and `puts`. -/
def putBytes
    (g : Control)
    (bytes : List UInt8)
    (d : Display) : Display :=
  bytes.foldl (fun d c => d.nbPutc g c) d

/-
  `clear`, between its two remappings.  The first thirty
  cells hold the terminal bar.
-/
def clear
    (g : Control)
    (d : Display) : Display :=
  let d := (List.range' 30 1970).foldl
    (fun d (i : Nat) => d.putCell g i space) d
  let d := d.setScreenX g 0
  let d := d.setScreenY g startHeight
  d.calibCursor g

end Display

end MartianPendulum

------------------------------------------------------------
-- Messages
------------------------------------------------------------

namespace MartianPendulum

/- A message without directives, as `printf` sends it. -/
def text
    (s : String) : List UInt8 :=
  s.toList.map (fun c => c.toNat.toUInt8)

namespace Kernel

/- Change the control state. -/
def setControl
    (f : Control → Control)
    (k : Kernel) : Kernel :=
  { k with toControl := f k.toControl }

/- Change the display. -/
def setDisplay
    (f : Control → Display → Display)
    (k : Kernel) : Kernel :=
  { k with toDisplay := f k.toControl k.toDisplay }

/- `printf` of a text whose directives are expanded. -/
def printf
    (s : String)
    (k : Kernel) : Kernel :=
  k.setDisplay (fun g d => d.putBytes g (text s))

end Kernel

end MartianPendulum
