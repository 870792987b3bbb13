import MartianPendulum.Kernel.Terminal

/-
  The keyboard interrupt handler of `keyboard.c`.

  Key definitions include:
    * `scanCodeSet1`
    * `Keyboard.whatToPut`
    * `Keyboard.putInBuf`
    * `Kernel.checkAndHandleSpecialButton`
    * `Kernel.keyboardIntHandler`
    * `Kernel.terminalRead`
-/

------------------------------------------------------------
-- Scan Codes
------------------------------------------------------------

namespace MartianPendulum

/- The code of a character. -/
def ch
    (c : Char) : UInt8 :=
  UInt8.ofNat c.toNat

/- `SCAN_CODE_SET_SIZE` -/
def scanCodeSetSize : Nat := 59

/-
  `scan_code_set_1`: the character of each key, and the
  character it gives with shift.
-/
def scanCodeSet1 : List (UInt8 × UInt8) :=
  [(0, 0), (0, 0),
    (ch '1', ch '!'), (ch '2', ch '@'), (ch '3', ch '#'),
    (ch '4', ch '$'), (ch '5', ch '%'), (ch '6', ch '^'),
    (ch '7', ch '&'), (ch '8', ch '*'), (ch '9', ch '('),
    (ch '0', ch ')'),
    (ch '-', ch '_'), (ch '=', ch '+'),
    -- Backspace and Tab.
    (8, 8), (9, 9),
    (ch 'q', ch 'Q'), (ch 'w', ch 'W'), (ch 'e', ch 'E'),
    (ch 'r', ch 'R'), (ch 't', ch 'T'), (ch 'y', ch 'Y'),
    (ch 'u', ch 'U'), (ch 'i', ch 'I'), (ch 'o', ch 'O'),
    (ch 'p', ch 'P'),
    -- The brackets and the braces.
    (91, 123), (93, 125),
    -- Enter and left control.
    (10, 10), (ch '0', ch '0'),
    (ch 'a', ch 'A'), (ch 's', ch 'S'), (ch 'd', ch 'D'),
    (ch 'f', ch 'F'), (ch 'g', ch 'G'), (ch 'h', ch 'H'),
    (ch 'j', ch 'J'), (ch 'k', ch 'K'), (ch 'l', ch 'L'),
    -- The semicolon, the quotes, the backquote and the tilde.
    (ch ';', ch ':'), (39, 34), (96, ch '~'),
    -- Left shift, and the backslash.
    (ch '0', ch '0'), (92, ch '|'),
    (ch 'z', ch 'Z'), (ch 'x', ch 'X'), (ch 'c', ch 'C'),
    (ch 'v', ch 'V'), (ch 'b', ch 'B'), (ch 'n', ch 'N'),
    (ch 'm', ch 'M'),
    (ch ',', ch '<'), (ch '.', ch '>'), (ch '/', ch '?'),
    -- Right shift, the keypad, left alt, space, capslock.
    (ch '0', ch '0'), (ch '*', ch '*'), (ch '0', ch '0'),
    (ch ' ', ch ' '), (ch '0', ch '0')]

/- The row of the table for a scan code. -/
def scanCodeRow
    (inputCode : UInt8) : UInt8 × UInt8 :=
  scanCodeSet1.getD inputCode.toNat (0, 0)

/- The codes that the main branch of the handler accepts. -/
def isNormalKey
    (inputCode : UInt8) : Bool :=
  2 ≤ inputCode.toNat ∧
    inputCode.toNat ≤ scanCodeSetSize - 1

/- The codes of the 26 letters. -/
def isLetter
    (inputCode : UInt8) : Bool :=
  (0x10 ≤ inputCode.toNat ∧ inputCode.toNat ≤ 0x19) ∨
    (0x1E ≤ inputCode.toNat ∧ inputCode.toNat ≤ 0x26) ∨
    (0x2C ≤ inputCode.toNat ∧ inputCode.toNat ≤ 0x32)

end MartianPendulum

------------------------------------------------------------
-- The Line Buffer
------------------------------------------------------------

namespace MartianPendulum

namespace Keyboard

/- The character that the handler puts for a key. -/
def whatToPut
    (inputCode : UInt8)
    (b : Keyboard) : UInt8 :=
  let shift := b.leftShiftFlag || b.rightShiftFlag
  let shouldModify :=
    if isLetter inputCode then xor shift b.capslockFlag
    else shift
  if shouldModify then (scanCodeRow inputCode).2
  else (scanCodeRow inputCode).1

/- `kbd_buf[buf_pos] = c` -/
def putChar
    (c : UInt8)
    (b : Keyboard) : Keyboard :=
  b.setLine b.kbdBuf
    (fun l => { l with
      kbdBuf := Function.update l.kbdBuf b.bufPos c })

/- The end of a line: the buffer is ready to be read. -/
def endLine
    (viewing : Tid)
    (b : Keyboard) : Keyboard :=
  { b with bufPos := 0 }.setLine viewing
    (fun l => { l with kbdBufReady := true })

/-
  The last part of the handler.  The last cell of the buffer
  is kept for the newline.
-/
def putInBuf
    (viewing : Tid)
    (c : UInt8)
    (b : Keyboard) : Keyboard :=
  if b.bufPos ≤ kbdBufSize - 2 then
    let b := b.putChar c
    if c = newline then b.endLine viewing
    else { b with bufPos := (b.bufPos + 1) % 2 ^ 8 }
  else if b.bufPos = kbdBufSize - 1 ∧ c = newline then
    (b.putChar newline).endLine viewing
  else b

end Keyboard

end MartianPendulum

------------------------------------------------------------
-- The Handler
------------------------------------------------------------

namespace MartianPendulum

namespace Kernel

/- A character shown on the viewed terminal. -/
def echo
    (c : UInt8)
    (k : Kernel) : Kernel :=
  let k := k.setControl
    (fun g => g.changeVidmemMapping g.viewingTermPtr)
  let k := k.setDisplay (fun g d => d.nbPutc g c)
  let k := k.setDisplay Display.calibCursor
  k.setControl Control.mapRunning

/- `clear` -/
def clear
    (k : Kernel) : Kernel :=
  let k := k.setControl
    (fun g => g.changeVidmemMapping g.viewingTermPtr)
  let k := k.setDisplay Display.clear
  k.setControl Control.mapRunning

/- The case of the backspace key. -/
def eraseChar
    (k : Kernel) : Kernel :=
  if k.bufPos > 0 then
    let k := k.echo Display.backspace
    { k with bufPos := k.bufPos - 1 }
  else k

/- The cases of the function keys. -/
def switchIfAlt
    (target : Tid)
    (k : Kernel) : Kernel :=
  if k.altFlag then k.switchTerminal target else k

/-
  `check_and_handle_special_button`: the new state if the
  key is a special one.
-/
def checkAndHandleSpecialButton
    (inputCode : UInt8)
    (k : Kernel) : Option Kernel :=
  match inputCode.toNat with
  -- Left and right control pressed, control released.
  | 0x1D => some { k with ctrlFlag := true }
  | 0xED => some { k with ctrlFlag := true }
  | 0x9D => some { k with ctrlFlag := false }
  -- The shifts.
  | 0x2A => some { k with leftShiftFlag := true }
  | 0xAA => some { k with leftShiftFlag := false }
  | 0x36 => some { k with rightShiftFlag := true }
  | 0xB6 => some { k with rightShiftFlag := false }
  -- Capslock.
  | 0x3A => some { k with capslockFlag := !k.capslockFlag }
  | 0xBA => some k
  -- Backspace.
  | 0x0E => some k.eraseChar
  | 0x8E => some k
  -- Alt.
  | 0x38 => some { k with altFlag := true }
  | 0xB8 => some { k with altFlag := false }
  -- Tab.
  | 0x0F => some k
  | 0x8F => some k
  -- F1, F2 and F3.
  | 0x3B => some (k.switchIfAlt tid0)
  | 0xBB => some k
  | 0x3C => some (k.switchIfAlt tid1)
  | 0xBC => some k
  | 0x3D => some (k.switchIfAlt tid2)
  | 0xBD => some k
  | _ => none

/- A normal key with `ctrl_flag` clear, or not the `l` key. -/
def typeChar
    (c : UInt8)
    (k : Kernel) : Kernel :=
  let k := k.echo c
  k.setKeyboard (Keyboard.putInBuf k.viewingTermPtr c)

/- `keyboard_int_handler` -/
def keyboardIntHandler
    (inputCode : UInt8)
    (k : Kernel) : Kernel :=
  match k.checkAndHandleSpecialButton inputCode with
  | some k => k
  | none =>
      if isNormalKey inputCode then
        if k.ctrlFlag ∧ (scanCodeRow inputCode).1 = ch 'l'
        then { k.clear with ctrlFlag := false }
        else k.typeChar (k.whatToPut inputCode)
      else k

end Kernel

end MartianPendulum

------------------------------------------------------------
-- Reading a Line
------------------------------------------------------------

namespace MartianPendulum

namespace Kernel

/-
  `terminal_read` when nothing comes between its accesses to
  the terminals.  It returns no value while it waits for the
  line of the running terminal.
-/
def terminalRead
    (buf : Buf)
    (nbytes : Int)
    (k : Kernel) : Option ((Int × Ptr) × Kernel) :=
  if buf.isNull ∨ nbytes ≤ 0 then some ((-1, buf.mem), k)
  else if (k.line k.runningTermPtr).kbdBufReady then
    some
      (MartianPendulum.terminalRead
        (k.line k.kbdBuf).kbdBuf buf nbytes,
      k.setKeyboard (fun b => b.setLine k.runningTermPtr
        (fun l => { l with kbdBufReady := false })))
  else none

end Kernel

end MartianPendulum
