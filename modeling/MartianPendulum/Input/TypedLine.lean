import MartianPendulum.Input.LineEditing

/-
  A line from its keys to the reader.

  `Modifiers` says what the keys of a line mean apart from
  the driver: the state of the shifts, control, alt and
  capslock decodes each scan code.  The driver's flags are
  such a state, so the line that the keys edit is a function
  of the scan codes alone, and it is the one that the next
  read returns.

  Key definitions include:
    * `Modifiers.press`, `Modifiers.decode`
    * `decodeKeys`
    * `editedLine`
    * `Kernel.pressKeys`

  Key theorems include:
    * `Kernel.stroke_eq_decode`
    * `typing_pressKeys`
    * `readKbdLoop_line`
    * `terminalRead_typed_line`
-/

------------------------------------------------------------
-- Decoding
------------------------------------------------------------

namespace MartianPendulum

/- Which of the modifier keys are down or on. -/
structure Modifiers where
  leftShift : Bool
  rightShift : Bool
  ctrl : Bool
  capslock : Bool
  alt : Bool

/- The keys with a character. -/
def isCharKey
    (inputCode : UInt8) : Bool :=
  isNormalKey inputCode ∧
    inputCode.toNat ∉
      [0x0E, 0x0F, 0x1D, 0x2A, 0x36, 0x38, 0x3A]

/- The code of the `l` key. -/
def isClearKey
    (inputCode : UInt8) : Bool :=
  inputCode.toNat = 0x26

namespace Modifiers

/- The modifiers after a key. -/
def press
    (inputCode : UInt8)
    (m : Modifiers) : Modifiers :=
  match inputCode.toNat with
  | 0x1D => { m with ctrl := true }
  | 0xED => { m with ctrl := true }
  | 0x9D => { m with ctrl := false }
  | 0x2A => { m with leftShift := true }
  | 0xAA => { m with leftShift := false }
  | 0x36 => { m with rightShift := true }
  | 0xB6 => { m with rightShift := false }
  | 0x3A => { m with capslock := !m.capslock }
  | 0x38 => { m with alt := true }
  | 0xB8 => { m with alt := false }
  -- Control and `l` clear the screen once.
  | 0x26 => { m with ctrl := false }
  | _ => m

/- A letter is shifted by capslock as well. -/
def char
    (inputCode : UInt8)
    (m : Modifiers) : UInt8 :=
  let shift := m.leftShift || m.rightShift
  let modified :=
    if isLetter inputCode then xor shift m.capslock
    else shift
  if modified then (scanCodeRow inputCode).2
  else (scanCodeRow inputCode).1

/- The function keys switch while alt is down. -/
def switch
    (t : Tid)
    (m : Modifiers) : Stroke :=
  if m.alt then .view t else .flags

/- What a key is for. -/
def decode
    (inputCode : UInt8)
    (m : Modifiers) : Stroke :=
  if inputCode.toNat = 0x0E then .erase
  else if inputCode.toNat = 0x3B then m.switch tid0
  else if inputCode.toNat = 0x3C then m.switch tid1
  else if inputCode.toNat = 0x3D then m.switch tid2
  else if isCharKey inputCode then
    if m.ctrl ∧ isClearKey inputCode then .clear
    else .type (m.char inputCode)
  else .flags

end Modifiers

/- What the keys of a sequence are for. -/
def decodeKeys :
    Modifiers → List UInt8 → List Stroke
| _, [] => []
| m, inputCode :: codes =>
    m.decode inputCode ::
      decodeKeys (m.press inputCode) codes

/- The line that the keys of a sequence edit. -/
def editedLine
    (m : Modifiers)
    (codes : List UInt8) : List UInt8 :=
  (decodeKeys m codes).foldl Stroke.edit []

namespace Kernel

/- The flags of the driver. -/
def modifiers
    (k : Kernel) : Modifiers :=
  { leftShift := k.leftShiftFlag
    rightShift := k.rightShiftFlag
    ctrl := k.ctrlFlag
    capslock := k.capslockFlag
    alt := k.altFlag }

/- A sequence of keyboard interrupts. -/
def pressKeys
    (codes : List UInt8)
    (k : Kernel) : Kernel :=
  Logic.run (fun k inputCode => k.keyboardIntHandler inputCode)
    k codes

end Kernel

end MartianPendulum

------------------------------------------------------------
-- The Driver Decodes
------------------------------------------------------------

namespace MartianPendulum

/- The codes of the special keys. -/
def specialCodes : List Nat :=
  [0x1D, 0xED, 0x9D, 0x2A, 0xAA, 0x36, 0xB6, 0x3A, 0xBA,
    0x0E, 0x8E, 0x38, 0xB8, 0x0F, 0x8F, 0x3B, 0xBB, 0x3C,
    0xBC, 0x3D, 0xBD]

theorem isSome_special
    (k : Kernel)
    (inputCode : UInt8) :
    (k.checkAndHandleSpecialButton inputCode).isSome =
      decide (inputCode.toNat ∈ specialCodes) := by
  unfold Kernel.checkAndHandleSpecialButton specialCodes
  split
  all_goals simp_all

/- What holds of the rows of the keys with characters. -/
theorem isCharKey_rows
    {P : Nat → Prop}
    (hRows : ∀ n < scanCodeSetSize, n < 2 ∨
      n ∈ [0x0E, 0x0F, 0x1D, 0x2A, 0x36, 0x38, 0x3A] ∨ P n)
    {inputCode : UInt8}
    (hKey : isCharKey inputCode = true) :
    P inputCode.toNat := by
  rw [isCharKey, decide_eq_true_eq] at hKey
  rcases hKey with ⟨hNormal, hNot⟩
  have hRange := of_decide_eq_true hNormal
  simp only [scanCodeSetSize] at hRange
  have hLt : inputCode.toNat < scanCodeSetSize := by
    unfold scanCodeSetSize
    omega
  rcases hRows inputCode.toNat hLt with hLow | hMem | hRow
  · omega
  · exact absurd hMem hNot
  · exact hRow

/- The `l` key has a row of its own. -/
theorem scanCodeRow_clear
    {inputCode : UInt8}
    (hKey : isCharKey inputCode = true) :
    (scanCodeRow inputCode).1 = ch 'l' ↔
      isClearKey inputCode = true := by
  rw [isClearKey, decide_eq_true_eq]
  apply isCharKey_rows (P := fun n =>
    (scanCodeSet1.getD n (0, 0)).1 = ch 'l' ↔ n = 0x26)
    (by decide) hKey

/- No row has a backspace, and that of Enter the newline. -/
theorem scanCodeRow_spec
    {inputCode : UInt8}
    (hKey : isCharKey inputCode = true)
    {c : UInt8}
    (hChar : c = (scanCodeRow inputCode).1 ∨
      c = (scanCodeRow inputCode).2) :
    c ≠ Display.backspace ∧
      (c = newline ↔ inputCode.toNat = 0x1C) := by
  rcases hChar with rfl | rfl
  · apply isCharKey_rows (P := fun n =>
      (scanCodeSet1.getD n (0, 0)).1 ≠ Display.backspace ∧
        ((scanCodeSet1.getD n (0, 0)).1 = newline ↔
          n = 0x1C))
      (by decide) hKey
  · apply isCharKey_rows (P := fun n =>
      (scanCodeSet1.getD n (0, 0)).2 ≠ Display.backspace ∧
        ((scanCodeSet1.getD n (0, 0)).2 = newline ↔
          n = 0x1C))
      (by decide) hKey

/- A key that is not special has a character or nothing. -/
theorem isCharKey_eq
    {inputCode : UInt8}
    (hNot : inputCode.toNat ∉ specialCodes) :
    isCharKey inputCode = isNormalKey inputCode := by
  have hSub :
      [0x0E, 0x0F, 0x1D, 0x2A, 0x36, 0x38, 0x3A] ⊆
        specialCodes := by
    decide
  have hOther : inputCode.toNat ∉
      [0x0E, 0x0F, 0x1D, 0x2A, 0x36, 0x38, 0x3A] :=
    fun hMem => hNot (hSub hMem)
  unfold isCharKey
  simp only [hOther, not_false_iff, and_true,
    Bool.decide_eq_true]

theorem isCharKey_of_special
    {inputCode : UInt8}
    (hSpecial : inputCode.toNat ∈ specialCodes) :
    isCharKey inputCode = false := by
  have hCodes : ∀ n ∈ specialCodes, 58 < n ∨
      n ∈ [0x0E, 0x0F, 0x1D, 0x2A, 0x36, 0x38, 0x3A] := by
    decide
  rw [isCharKey, decide_eq_false_iff_not]
  rintro ⟨hNormal, hNot⟩
  have hRange := of_decide_eq_true hNormal
  simp only [scanCodeSetSize] at hRange
  rcases hCodes _ hSpecial with hHigh | hMem
  · omega
  · exact hNot hMem

/- The driver decodes by its flags. -/
theorem Kernel.stroke_eq_decode
    (inputCode : UInt8)
    (k : Kernel) :
    k.stroke inputCode = k.modifiers.decode inputCode := by
  unfold stroke Modifiers.decode
  split
  next hCode => rw [if_pos hCode]
  next hCode =>
    rw [if_neg (by omega), if_pos hCode]
    rfl
  next hCode =>
    rw [if_neg (by omega), if_neg (by omega),
      if_pos hCode]
    rfl
  next hCode =>
    rw [if_neg (by omega), if_neg (by omega),
      if_neg (by omega), if_pos hCode]
    rfl
  next hErase hOne hTwo hThree =>
    rw [if_neg hErase, if_neg hOne, if_neg hTwo,
      if_neg hThree, isSome_special]
    by_cases hSpecial : inputCode.toNat ∈ specialCodes
    · simp [hSpecial, isCharKey_of_special hSpecial]
    · simp only [hSpecial, decide_false, Bool.false_eq_true,
        if_false, ← isCharKey_eq hSpecial]
      split
      next hKey =>
        simp only [scanCodeRow_clear hKey]
        rfl
      · rfl

/- The character of a key that types. -/
theorem Modifiers.decode_type
    {inputCode : UInt8}
    {m : Modifiers}
    {c : UInt8}
    (hType : m.decode inputCode = .type c) :
    isCharKey inputCode = true ∧ c = m.char inputCode := by
  have hSwitch : ∀ t, m.switch t ≠ .type c := by
    intro t
    unfold switch
    split
    · simp
    · simp
  unfold decode at hType
  split at hType
  · cases hType
  · split at hType
    · exact absurd hType (hSwitch _)
    · split at hType
      · exact absurd hType (hSwitch _)
      · split at hType
        · exact absurd hType (hSwitch _)
        · split at hType
          next hKey =>
            split at hType
            · cases hType
            · cases hType
              exact ⟨hKey, rfl⟩
          · cases hType

theorem Modifiers.char_eq
    (inputCode : UInt8)
    (m : Modifiers) :
    m.char inputCode = (scanCodeRow inputCode).1 ∨
      m.char inputCode = (scanCodeRow inputCode).2 := by
  unfold char
  dsimp only
  generalize (if isLetter inputCode = true then _ else _ :
    Bool) = modified
  cases modified with
  | true => exact Or.inr rfl
  | false => exact Or.inl rfl

/- No key types a backspace, and Enter alone a newline. -/
theorem Modifiers.type_spec
    {inputCode : UInt8}
    {m : Modifiers}
    {c : UInt8}
    (hType : m.decode inputCode = .type c) :
    c ≠ Display.backspace ∧
      (c = newline ↔ inputCode.toNat = 0x1C) := by
  rcases decode_type hType with ⟨hKey, rfl⟩
  exact scanCodeRow_spec hKey (m.char_eq inputCode)

/- A key with a character types it, unless it clears. -/
theorem Modifiers.decode_char
    {inputCode : UInt8}
    (hKey : isCharKey inputCode = true)
    (hClear : isClearKey inputCode = false)
    (m : Modifiers) :
    m.decode inputCode = .type (m.char inputCode) := by
  have hOther : ∀ n ∈ [0x0E, 0x3B, 0x3C, 0x3D],
      inputCode.toNat ≠ n := by
    intro n hMem hCode
    rw [isCharKey, decide_eq_true_eq, hCode] at hKey
    have hRange := of_decide_eq_true hKey.1
    simp only [scanCodeSetSize] at hRange
    simp only [List.mem_cons, List.not_mem_nil, or_false]
      at hMem hKey
    omega
  unfold decode
  rw [if_neg (hOther _ (by decide)),
    if_neg (hOther _ (by decide)),
    if_neg (hOther _ (by decide)),
    if_neg (hOther _ (by decide)), if_pos hKey,
    if_neg (by simp [hClear])]

theorem Modifiers.decode_enter
    (m : Modifiers) :
    m.decode 0x1C = .type newline := by
  have hChar : m.char 0x1C = newline := by
    rcases m.char_eq 0x1C with h | h
    · exact h
    · exact h
  rw [decode_char rfl rfl, hChar]

theorem Kernel.enter_effect
    (k : Kernel) :
    KeyEffect k (.type newline)
      (k.keyboardIntHandler 0x1C) := by
  have hEffect := k.keyboardIntHandler_effect 0x1C
  rw [stroke_eq_decode, Modifiers.decode_enter] at hEffect
  exact hEffect

end MartianPendulum

------------------------------------------------------------
-- The Flags Follow
------------------------------------------------------------

namespace MartianPendulum

/- The other keys leave the modifiers alone. -/
theorem Modifiers.press_of_normal
    {inputCode : UInt8}
    {m : Modifiers}
    (hNot : inputCode.toNat ∉ specialCodes)
    (hClear : isClearKey inputCode = true → m.ctrl = false) :
    m.press inputCode = m := by
  unfold specialCodes at hNot
  unfold press
  split
  case h_11 hCode =>
    have hCtrl := hClear (decide_eq_true hCode)
    cases m with
    | mk leftShift rightShift ctrl capslock alt =>
        rw [← hCtrl]
  case h_12 => rfl
  all_goals
    next hCode => simp [hCode] at hNot

namespace Kernel

theorem modifiers_eraseChar
    (k : Kernel) :
    k.eraseChar.modifiers = k.modifiers := by
  unfold eraseChar
  split
  · rfl
  · rfl

theorem modifiers_typeChar
    (c : UInt8)
    (k : Kernel) :
    (k.typeChar c).modifiers = k.modifiers := by
  simp only [typeChar, setKeyboard, Keyboard.putInBuf]
  split
  · split
    · rfl
    · rfl
  · split
    · rfl
    · rfl

theorem modifiers_switchIfAlt
    (t : Tid)
    (k : Kernel) :
    (k.switchIfAlt t).modifiers = k.modifiers := by
  unfold switchIfAlt switchTerminal
  split
  · split
    · rfl
    · rfl
  · rfl

theorem modifiers_special
    {inputCode : UInt8}
    {k k' : Kernel}
    (hSpecial :
      k.checkAndHandleSpecialButton inputCode = some k') :
    k'.modifiers = k.modifiers.press inputCode := by
  unfold checkAndHandleSpecialButton at hSpecial
  unfold Modifiers.press
  split at hSpecial
  all_goals cases hSpecial
  all_goals
    next hCode =>
      rewrite [hCode]
      first
        | rfl
        | exact modifiers_eraseChar k
        | exact modifiers_switchIfAlt _ k

/- The flags are the modifiers of the keys. -/
theorem modifiers_keyboardIntHandler
    (inputCode : UInt8)
    (k : Kernel) :
    (k.keyboardIntHandler inputCode).modifiers =
      k.modifiers.press inputCode := by
  have hSome := isSome_special k inputCode
  unfold keyboardIntHandler
  cases hSpecial :
      k.checkAndHandleSpecialButton inputCode with
  | some k' => exact modifiers_special hSpecial
  | none =>
      rw [hSpecial] at hSome
      have hNot := of_decide_eq_false hSome.symm
      dsimp only
      split
      next hKey =>
        rw [← isCharKey_eq hNot] at hKey
        split
        next hClear =>
          rw [scanCodeRow_clear hKey] at hClear
          have hCode := of_decide_eq_true hClear.2
          simp only [Modifiers.press, hCode]
          rfl
        next hClear =>
          rw [scanCodeRow_clear hKey] at hClear
          rw [Modifiers.press_of_normal hNot]
          · exact modifiers_typeChar _ k
          · intro hCode
            rw [not_and] at hClear
            exact Bool.eq_false_of_not_eq_true
              (fun hCtrl => hClear hCtrl hCode)
      next hKey =>
        rw [Modifiers.press_of_normal hNot]
        intro hCode
        have hCode := of_decide_eq_true hCode
        rw [isNormalKey, hCode] at hKey
        exact absurd rfl hKey

end Kernel

end MartianPendulum

------------------------------------------------------------
-- Typing a Line
------------------------------------------------------------

namespace MartianPendulum

/- A key does not change the running terminal. -/
theorem KeyEffect.running
    {k k' : Kernel}
    {a : Stroke}
    (hEffect : KeyEffect k a k') :
    k'.runningTermPtr = k.runningTermPtr := by
  rcases hEffect.toControl with hSame | ⟨t, hSame⟩
  · rw [hSame]
  · rw [hSame]
    rfl

/- Enter alone makes a buffer ready. -/
theorem KeyEffect.ready
    {k k' : Kernel}
    {a : Stroke}
    (hEffect : KeyEffect k a k')
    (hBuf : k.kbdBuf = k.viewingTermPtr)
    (hEnter : a ≠ .type newline)
    (t : Tid) :
    (k'.line t).kbdBufReady = (k.line t).kbdBufReady := by
  rcases hEffect.keyboard with ⟨hLines, -⟩
  rw [hLines.line]
  cases a with
  | flags => rfl
  | clear => rfl
  | erase => rfl
  | view u =>
      simp only [Stroke.keyboard]
      split
      · rfl
      · by_cases ht : t = k.viewingTermPtr
        · subst ht
          simp [Keyboard.switchLine, Keyboard.setLine]
        · simp [Keyboard.switchLine, Keyboard.setLine, ht]
  | type c =>
      have hChar : c ≠ newline := by
        rintro rfl
        exact hEnter rfl
      simp only [Stroke.keyboard,
        Keyboard.putInBuf_eq hBuf]
      split
      · by_cases ht : t = k.viewingTermPtr
        · subst ht
          simp [hChar]
        · simp [ht]
      · rfl

/- No line has a newline in it. -/
theorem Stroke.newline_not_mem_edit
    {chars : List UInt8}
    (hLine : newline ∉ chars)
    (a : Stroke) :
    newline ∉ a.edit chars := by
  cases a with
  | flags => exact hLine
  | clear => exact hLine
  | view t => exact hLine
  | erase =>
      intro hMem
      exact hLine (List.mem_of_mem_dropLast hMem)
  | type c =>
      rw [edit]
      split
      · exact List.not_mem_nil
      next hChar =>
        split
        · intro hMem
          rcases List.mem_append.mp hMem with h | h
          · exact hLine h
          · exact hChar (List.mem_singleton.mp h).symm
        · exact hLine

theorem newline_not_mem_foldl
    (strokes : List Stroke)
    {chars : List UInt8}
    (hLine : newline ∉ chars) :
    newline ∉ strokes.foldl Stroke.edit chars := by
  induction strokes generalizing chars with
  | nil => exact hLine
  | cons a strokes ih =>
      exact ih (a.newline_not_mem_edit hLine)

/- What the keys of a line leave alone. -/
structure SameTerminals
    (k k' : Kernel) : Prop where
  viewing : k'.viewingTermPtr = k.viewingTermPtr
  running : k'.runningTermPtr = k.runningTermPtr
  ready : ∀ t,
    (k'.line t).kbdBufReady = (k.line t).kbdBufReady

/- A key of a line that is not its end. -/
theorem Typing.key
    {chars : List UInt8}
    {k : Kernel}
    (hTyping : Typing chars k)
    {inputCode : UInt8}
    (hStay : (k.modifiers.decode inputCode).StaysAt
      k.viewingTermPtr)
    (hEnter : inputCode ≠ 0x1C) :
    Typing ((k.modifiers.decode inputCode).edit chars)
        (k.keyboardIntHandler inputCode) ∧
      SameTerminals k (k.keyboardIntHandler inputCode) := by
  have hEffect := k.keyboardIntHandler_effect inputCode
  rw [Kernel.stroke_eq_decode] at hEffect
  rcases hEffect.others hTyping.kbdBuf hStay with
    ⟨-, hView, -⟩
  refine ⟨hTyping.press hEffect hStay, hView,
    hEffect.running, hEffect.ready hTyping.kbdBuf ?_⟩
  intro hType
  have hCode := (Modifiers.type_spec hType).2.mp rfl
  exact hEnter (UInt8.toNat_inj.mp hCode)

/- The keys of a line edit it. -/
theorem typing_pressKeys
    (codes : List UInt8)
    {chars : List UInt8}
    {k : Kernel}
    (hTyping : Typing chars k)
    (hStay : ∀ a ∈ decodeKeys k.modifiers codes,
      a.StaysAt k.viewingTermPtr)
    (hEnter : 0x1C ∉ codes) :
    Typing
        ((decodeKeys k.modifiers codes).foldl Stroke.edit
          chars)
        (k.pressKeys codes) ∧
      SameTerminals k (k.pressKeys codes) := by
  induction codes generalizing k chars with
  | nil => exact ⟨hTyping, rfl, rfl, fun _ => rfl⟩
  | cons inputCode codes ih =>
      rw [decodeKeys] at hStay
      rw [List.mem_cons, not_or] at hEnter
      rcases hTyping.key
          (hStay _ List.mem_cons_self)
          (Ne.symm hEnter.1) with
        ⟨hNext, hSame⟩
      have hRest := ih hNext
        (by
          rw [Kernel.modifiers_keyboardIntHandler,
            hSame.viewing]
          intro a ha
          exact hStay a (List.mem_cons_of_mem _ ha))
        hEnter.2
      rw [Kernel.modifiers_keyboardIntHandler] at hRest
      rcases hRest with ⟨hLast, hRest⟩
      exact ⟨hLast, hRest.viewing.trans hSame.viewing,
        hRest.running.trans hSame.running,
        fun t => (hRest.ready t).trans (hSame.ready t)⟩

end MartianPendulum

------------------------------------------------------------
-- Reading the Line
------------------------------------------------------------

namespace MartianPendulum

/-
  The loop stops at the newline of the line.  What the
  buffer holds behind it does not matter.
-/
theorem readKbdLoop_line
    {kbd : Ptr}
    {chars : List UInt8}
    (hStart : StartsWith kbd (chars ++ [newline]))
    (hLine : newline ∉ chars)
    (hShort : chars.length ≤ kbdBufSize - 1)
    (mem : Ptr)
    (n : Nat)
    {i : Nat}
    (hi : i ≤ chars.length) :
    readKbdLoop kbd n i (Logic.blit mem 0 i kbd) =
      (min (i + n) (chars.length + 1),
        Logic.blit mem 0
          (min (i + n) (chars.length + 1)) kbd) := by
  induction n generalizing i with
  | zero =>
      have hMin : min (i + 0) (chars.length + 1) = i := by
        omega
      rw [readKbdLoop, hMin]
  | succ n ih =>
      have hStored := Logic.blit_succ mem 0 i kbd
      rw [Nat.zero_add] at hStored
      rw [readKbdLoop, if_neg (by omega)]
      dsimp only
      rw [hStored]
      by_cases hLast : i = chars.length
      · have hChar : kbd i = newline := by
          apply hStart
          rw [hLast]
          exact List.getElem?_concat_length
        have hMin : min (i + (n + 1)) (chars.length + 1) =
            i + 1 := by
          omega
        rw [if_pos hChar, hMin]
      · have hInside : i < chars.length := by omega
        obtain ⟨c, hc⟩ : ∃ c, chars[i]? = some c :=
          ⟨_, List.getElem?_eq_getElem hInside⟩
        have hChar : kbd i = c := by
          apply hStart
          rw [List.getElem?_append_left hInside]
          exact hc
        have hNot : kbd i ≠ newline := by
          rw [hChar]
          rintro rfl
          exact hLine (List.mem_of_getElem? hc)
        have hNext : i + 1 + n = i + (n + 1) := by omega
        rw [if_neg hNot, ih (by omega), hNext]

/- A read returns the line and its newline, cut to size. -/
theorem terminalRead_line
    {kbd : Ptr}
    {line : List UInt8}
    (hStart : StartsWith kbd (line ++ [newline]))
    (hLine : newline ∉ line)
    (hShort : line.length ≤ kbdBufSize - 1)
    {buf : Buf}
    (hBuf : buf.isNull = false)
    {nbytes : Int}
    (hBytes : 0 < nbytes) :
    ∃ count : Nat,
      (count : Int) = min nbytes (line.length + 1) ∧
      terminalRead kbd buf nbytes =
        ((count : Int), Logic.blit buf.mem 0 count kbd) ∧
      (List.range count).map kbd =
        (line ++ [newline]).take count := by
  have hLoop := readKbdLoop_line hStart hLine hShort buf.mem
    nbytes.toNat (Nat.zero_le _)
  rw [Logic.blit_zero, Nat.zero_add] at hLoop
  refine ⟨min nbytes.toNat (line.length + 1), ?_, ?_, ?_⟩
  · omega
  · rw [terminalRead, if_neg (by simp [hBuf, hBytes]),
      hLoop]
  · rw [← hStart.map_range, ← List.map_take,
      List.take_range, List.length_append,
      List.length_singleton]
    congr 2
    omega

end MartianPendulum

------------------------------------------------------------
-- From Keys to Reader
------------------------------------------------------------

namespace MartianPendulum

theorem decodeKeys_append
    (m : Modifiers)
    (codes codes' : List UInt8) :
    decodeKeys m (codes ++ codes') =
      decodeKeys m codes ++
        decodeKeys
          (codes.foldl (fun m c => m.press c) m)
          codes' := by
  induction codes generalizing m with
  | nil => rfl
  | cons inputCode codes ih =>
      simp only [List.cons_append, decodeKeys, ih,
        List.foldl_cons]

theorem Fresh.typing
    {k : Kernel}
    (hFresh : Fresh k) :
    Typing [] k :=
  ⟨hFresh.kbdBuf, hFresh.bufPos, Nat.zero_le _,
    StartsWith.nil _⟩

/- A reader waits as long as no line is entered. -/
theorem terminalRead_waits
    {k : Kernel}
    (hReady :
      (k.line k.runningTermPtr).kbdBufReady = false)
    {buf : Buf}
    (hBuf : buf.isNull = false)
    {nbytes : Int}
    (hBytes : 0 < nbytes) :
    k.terminalRead buf nbytes = none := by
  rw [Kernel.terminalRead, if_neg (by simp [hBuf, hBytes]),
    hReady]
  rfl

/- An entered line goes to the reader. -/
theorem terminalRead_entered
    {k : Kernel}
    {line : List UInt8}
    (hKbd : k.kbdBuf = k.runningTermPtr)
    (hReady : (k.line k.runningTermPtr).kbdBufReady = true)
    (hStart : StartsWith (k.line k.runningTermPtr).kbdBuf
      (line ++ [newline]))
    (hLine : newline ∉ line)
    (hShort : line.length ≤ kbdBufSize - 1)
    {buf : Buf}
    (hBuf : buf.isNull = false)
    {nbytes : Int}
    (hBytes : 0 < nbytes) :
    ∃ (count : Nat) (mem : Ptr) (k' : Kernel),
      k.terminalRead buf nbytes =
        some (((count : Int), mem), k') ∧
      (count : Int) = min nbytes (line.length + 1) ∧
      (List.range count).map mem =
        (line ++ [newline]).take count ∧
      (∀ i, count ≤ i → mem i = buf.mem i) ∧
      (k'.line k.runningTermPtr).kbdBufReady = false := by
  rcases terminalRead_line hStart hLine hShort hBuf hBytes
    with ⟨count, hCount, hRead, hStored⟩
  have hResult := Kernel.terminalRead.eq_1 buf nbytes k
  rw [if_neg (by simp [hBuf, hBytes]), if_pos hReady, hKbd,
    hRead] at hResult
  refine ⟨count, _, _, hResult, hCount, ?_, ?_, ?_⟩
  · rw [← hStored]
    apply List.map_congr_left
    intro i hi
    exact Logic.blit_apply_of_lt _ _ (List.mem_range.mp hi)
  · intro i hi
    exact Logic.blit_apply_of_outside _ _ (by omega)
  · simp [Kernel.setKeyboard, Keyboard.setLine]

/- The state after the keys of a line and Enter. -/
theorem entered_pressKeys
    {k : Kernel}
    (hFresh : Fresh k)
    {codes : List UInt8}
    (hEnter : 0x1C ∉ codes)
    (hStay : ∀ a ∈ decodeKeys k.modifiers codes,
      a.StaysAt k.viewingTermPtr) :
    let line := editedLine k.modifiers codes
    let k' := k.pressKeys (codes ++ [0x1C])
    line.length ≤ kbdBufSize - 1 ∧
      k'.kbdBuf = k.viewingTermPtr ∧
      k'.runningTermPtr = k.runningTermPtr ∧
      StartsWith (k'.line k.viewingTermPtr).kbdBuf
        (line ++ [newline]) ∧
      (k'.line k.viewingTermPtr).kbdBufReady = true := by
  intro line k'
  rcases typing_pressKeys codes hFresh.typing hStay hEnter
    with ⟨hTyping, hSame⟩
  have hEffect := (k.pressKeys codes).enter_effect
  have hLast : k' =
      (k.pressKeys codes).keyboardIntHandler 0x1C := by
    simp only [k', Kernel.pressKeys, Logic.run_append]
    rfl
  rcases hTyping.enter hEffect with ⟨hStart, hReady⟩
  rcases hEffect.others hTyping.kbdBuf nofun with
    ⟨hKbd, -, -⟩
  have hRuns := hEffect.running
  rw [← hLast] at hStart hReady hKbd hRuns
  rw [hSame.viewing] at hStart hReady
  rw [hTyping.kbdBuf, hSame.viewing] at hKbd
  exact ⟨hTyping.short, hKbd, hRuns.trans hSame.running,
    hStart, hReady⟩

/-
  On a terminal that is viewed and runs, with nothing typed
  and any contents of its buffer: the keys of a line and
  Enter end a read with the line that the keys edit and a
  newline, cut to the size asked for.  Until Enter the read
  waits.
-/
theorem terminalRead_typed_line
    (k : Kernel)
    (hFresh : Fresh k)
    (hRuns : k.runningTermPtr = k.viewingTermPtr)
    (codes : List UInt8)
    (hEnter : 0x1C ∉ codes)
    (hStay : ∀ a ∈ decodeKeys k.modifiers codes,
      a.StaysAt k.viewingTermPtr)
    (buf : Buf)
    (hBuf : buf.isNull = false)
    (nbytes : Int)
    (hBytes : 0 < nbytes) :
    let line := editedLine k.modifiers codes
    line.length ≤ 127 ∧
    (∀ typed rest, codes = typed ++ rest →
      (k.pressKeys typed).terminalRead buf nbytes =
        none) ∧
    ∃ (count : Nat) (mem : Ptr) (k' : Kernel),
      (k.pressKeys (codes ++ [0x1C])).terminalRead buf
          nbytes =
        some (((count : Int), mem), k') ∧
      (count : Int) = min nbytes (line.length + 1) ∧
      (List.range count).map mem =
        (line ++ [newline]).take count ∧
      (∀ i, count ≤ i → mem i = buf.mem i) ∧
      (k'.line k.runningTermPtr).kbdBufReady = false := by
  intro line
  rcases entered_pressKeys hFresh hEnter hStay with
    ⟨hShort, hKbd, hHere, hStart, hReady⟩
  refine ⟨hShort, ?_, ?_⟩
  · rintro typed rest rfl
    rw [decodeKeys_append] at hStay
    rw [List.mem_append, not_or] at hEnter
    rcases typing_pressKeys typed hFresh.typing
        (fun a ha =>
          hStay a (List.mem_append.mpr (Or.inl ha)))
        hEnter.1 with
      ⟨-, hWaits⟩
    apply terminalRead_waits _ hBuf hBytes
    rw [hWaits.running, hWaits.ready, hRuns]
    exact hFresh.ready
  · rw [← hRuns] at hKbd hStart hReady
    rw [← hHere] at hKbd hStart hReady ⊢
    exact terminalRead_entered hKbd hReady hStart
      (newline_not_mem_foldl _ List.not_mem_nil)
      hShort hBuf hBytes

/- `A` with the left shift, and a `b` that is erased. -/
def shiftedKeys : List UInt8 :=
  [0x2A, 0x1E, 0xAA, 0x30, 0x0E]

theorem decodeKeys_shiftedKeys :
    decodeKeys blankKernel.boot.modifiers shiftedKeys =
      [.flags, .type (ch 'A'), .flags, .type (ch 'b'),
        .erase] := rfl

theorem terminalRead_typed_line_shiftedKeys :
    ∃ (count : Nat) (mem : Ptr) (k' : Kernel),
      (blankKernel.boot.pressKeys
          (shiftedKeys ++ [0x1C])).terminalRead
          { isNull := false, mem := fun _ => 0 } 10 =
        some (((count : Int), mem), k') ∧
      (count : Int) = min 10 (1 + 1) ∧
      (List.range count).map mem =
        [ch 'A', newline].take count ∧
      (∀ i, count ≤ i → mem i = 0) ∧
      (k'.line 0).kbdBufReady = false := by
  have hRead := terminalRead_typed_line blankKernel.boot
    (fresh_boot blankKernel) rfl shiftedKeys (by decide)
    (by
      rw [decodeKeys_shiftedKeys]
      intro a ha t hView
      subst hView
      simp at ha)
    { isNull := false, mem := fun _ => 0 } rfl 10
    (by decide)
  exact hRead.2.2

end MartianPendulum
