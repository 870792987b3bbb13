import MartianPendulum.Input.TypedLine

/-
  The modifier flags and the keys that are held down.

  A key sends its make code when it is pressed and its break
  code when it is released.  The flags of the driver should
  say which modifier keys are held.  They do as long as no
  `l` is pressed while control is held, for the driver then
  clears `ctrl_flag`, and no control key is released while
  the other one is held, for both share a break code.

  Key definitions include:
    * `Key`, `KeyMove`
    * `Hands`
    * `Hands.modifiers`
    * `Hands.Apart`
    * `KeyMeaning`

  Key theorems include:
    * `Hands.modifiers_move_iff`
    * `keyMeaning_of_modifiers`
    * `modifiers_follow_keys_iff`
-/

------------------------------------------------------------
-- Keys
------------------------------------------------------------

namespace MartianPendulum

/-
  A key that the driver handles, by its make code: those of
  the table and of the function keys, and the right control
  key with the code that `keyboard.h` gives it.
-/
structure Key where
  makeCode : UInt8
  handled :
    (0x02 ≤ makeCode.toNat ∧ makeCode.toNat ≤ 0x3D) ∨
      makeCode.toNat = 0xED
deriving DecidableEq

namespace Key

def leftCtrl : Key := ⟨0x1D, by decide⟩
def rightCtrl : Key := ⟨0xED, by decide⟩
def leftShift : Key := ⟨0x2A, by decide⟩
def rightShift : Key := ⟨0x36, by decide⟩
def alt : Key := ⟨0x38, by decide⟩
def capslock : Key := ⟨0x3A, by decide⟩
def l : Key := ⟨0x26, by decide⟩

/- `CTRL_RELEASED_IDX` is the code of both control keys. -/
def breakCode
    (key : Key) : UInt8 :=
  if key = rightCtrl then 0x9D else key.makeCode + 0x80

end Key

inductive KeyMove where
| press (key : Key)
| release (key : Key)

/- The scan code that the keyboard sends. -/
def KeyMove.code : KeyMove → UInt8
| press key => key.makeCode
| release key => key.breakCode

/-
  The keys that are held down, and how often capslock was
  pressed.
-/
structure Hands where
  held : Key → Bool
  capslockPresses : Nat

namespace Hands

/- No key was touched yet. -/
def none : Hands :=
  { held := fun _ => false
    capslockPresses := 0 }

def ctrl
    (h : Hands) : Bool :=
  h.held .leftCtrl || h.held .rightCtrl

def shift
    (h : Hands) : Bool :=
  h.held .leftShift || h.held .rightShift

def capslock
    (h : Hands) : Bool :=
  h.capslockPresses % 2 == 1

/- What the flags of the driver should be. -/
def modifiers
    (h : Hands) : Modifiers :=
  { leftShift := h.held .leftShift
    rightShift := h.held .rightShift
    ctrl := h.ctrl
    capslock := h.capslock
    alt := h.held .alt }

def move
    (h : Hands) :
    KeyMove → Hands
| .press key =>
    { held := Function.update h.held key true
      capslockPresses :=
        if key = .capslock then h.capslockPresses + 1
        else h.capslockPresses }
| .release key =>
    { h with held := Function.update h.held key false }

/- A key is pressed when it is up, released when down. -/
def Possible
    (h : Hands) :
    KeyMove → Prop
| .press key => h.held key = false
| .release key => h.held key = true

/-
  The moves after which the flags are right: an `l` without
  control, and a control key released without the other.
-/
def Apart
    (h : Hands) :
    KeyMove → Prop
| .press key => key = .l → h.ctrl = false
| .release key =>
    (key = .leftCtrl → h.held .rightCtrl = false) ∧
      (key = .rightCtrl → h.held .leftCtrl = false)

end Hands

end MartianPendulum

------------------------------------------------------------
-- Moves and Flags
------------------------------------------------------------

namespace MartianPendulum

namespace Key

theorem eq_iff
    {key key' : Key} :
    key = key' ↔
      key.makeCode.toNat = key'.makeCode.toNat := by
  rw [UInt8.toNat_inj]
  constructor
  · intro hEq
    rw [hEq]
  · intro hEq
    cases key with
    | mk code hCode =>
        cases key' with
        | mk code' hCode' =>
            dsimp only at hEq
            subst hEq
            rfl

/- The break code of the keys that send one byte. -/
theorem breakCode_toNat
    {key : Key}
    (hKey : key ≠ .rightCtrl) :
    key.breakCode.toNat = key.makeCode.toNat + 0x80 ∧
      0x02 ≤ key.makeCode.toNat ∧
      key.makeCode.toNat ≤ 0x3D := by
  have hRange : 0x02 ≤ key.makeCode.toNat ∧
      key.makeCode.toNat ≤ 0x3D := by
    rcases key.handled with hRange | hRight
    · exact hRange
    · exact absurd (eq_iff.mpr hRight) hKey
  refine ⟨?_, hRange⟩
  unfold breakCode
  rw [if_neg hKey, UInt8.toNat_add]
  change (key.makeCode.toNat + 0x80) % 2 ^ 8 = _
  omega

end Key

namespace Modifiers

/- The codes that change a flag. -/
def flagCodes : List Nat :=
  [0x1D, 0xED, 0x9D, 0x2A, 0xAA, 0x36, 0xB6, 0x3A, 0x38,
    0xB8, 0x26]

theorem press_of_not_mem
    {inputCode : UInt8}
    (hNot : inputCode.toNat ∉ flagCodes)
    (m : Modifiers) :
    m.press inputCode = m := by
  unfold flagCodes at hNot
  unfold press
  split
  case h_12 => rfl
  all_goals
    next hCode => simp [hCode] at hNot

end Modifiers

namespace Hands

/- The keys that the flags are about. -/
def modifierKeys : List Key :=
  [.leftCtrl, .rightCtrl, .leftShift, .rightShift, .alt,
    .capslock]

/- The other keys change no flag. -/
theorem modifiers_move_other
    {h : Hands}
    {m : KeyMove}
    {key : Key}
    (hMove : m = .press key ∨ m = .release key)
    (hKey : key ∉ modifierKeys) :
    (h.move m).modifiers = h.modifiers := by
  simp only [modifierKeys, List.mem_cons, List.not_mem_nil,
    or_false, not_or] at hKey
  rcases hKey with ⟨hLeft, hRight, hLShift, hRShift, hAlt,
    hCaps⟩
  rcases hMove with rfl | rfl
  · simp [modifiers, ctrl, capslock, move,
      Function.update_of_ne, Ne.symm hLeft, Ne.symm hRight,
      Ne.symm hLShift, Ne.symm hRShift, Ne.symm hAlt, hCaps]
  · simp [modifiers, ctrl, capslock, move,
      Function.update_of_ne, Ne.symm hLeft, Ne.symm hRight,
      Ne.symm hLShift, Ne.symm hRShift, Ne.symm hAlt]

theorem capslock_succ
    (n : Nat) :
    (!(n % 2 == 1)) = ((n + 1) % 2 == 1) := by
  rw [Bool.eq_iff_iff]
  simp only [Bool.not_eq_true', beq_eq_false_iff_ne,
    beq_iff_eq]
  omega

/- The modifier keys, pressed. -/
theorem modifiers_press
    (h : Hands)
    {key : Key}
    (hKey : key ∈ modifierKeys) :
    h.modifiers.press key.makeCode =
      (h.move (.press key)).modifiers := by
  simp only [modifierKeys, List.mem_cons, List.not_mem_nil,
    or_false] at hKey
  rcases hKey with rfl | rfl | rfl | rfl | rfl | rfl
  · rfl
  · have hCtrl : (h.move (.press .rightCtrl)).ctrl =
        true := Bool.or_true _
    unfold modifiers
    rw [hCtrl]
    rfl
  · rfl
  · rfl
  · rfl
  · have hCaps : (!h.capslock) =
        (h.move (.press .capslock)).capslock :=
      capslock_succ h.capslockPresses
    unfold modifiers
    rw [← hCaps]
    rfl

/- The modifier keys other than control, released. -/
theorem modifiers_release
    (h : Hands)
    {key : Key}
    (hKey : key ∈ modifierKeys)
    (hLeft : key ≠ .leftCtrl)
    (hRight : key ≠ .rightCtrl) :
    h.modifiers.press key.breakCode =
      (h.move (.release key)).modifiers := by
  simp only [modifierKeys, List.mem_cons, List.not_mem_nil,
    or_false] at hKey
  rcases hKey with rfl | rfl | rfl | rfl | rfl | rfl
  · exact absurd rfl hLeft
  · exact absurd rfl hRight
  · rfl
  · rfl
  · rfl
  · rfl

/- A control key releases both of them for the driver. -/
theorem modifiers_release_ctrl_iff
    (h : Hands)
    {key : Key}
    (hKey : key = .leftCtrl ∨ key = .rightCtrl) :
    h.modifiers.press key.breakCode =
        (h.move (.release key)).modifiers ↔
      (h.move (.release key)).ctrl = false := by
  constructor
  · intro hSame
    have hCtrl := congrArg Modifiers.ctrl hSame
    rcases hKey with rfl | rfl
    · exact hCtrl.symm
    · exact hCtrl.symm
  · intro hCtrl
    unfold modifiers
    rw [hCtrl]
    rcases hKey with rfl | rfl
    · rfl
    · rfl

/- A press of `l` clears the control flag. -/
theorem modifiers_press_l_iff
    (h : Hands) :
    h.modifiers.press Key.l.makeCode =
        (h.move (.press .l)).modifiers ↔
      h.ctrl = false := by
  have hSame : (h.move (.press .l)).modifiers =
      h.modifiers :=
    modifiers_move_other (Or.inl rfl) (by decide)
  rw [hSame]
  constructor
  · intro hPress
    exact (congrArg Modifiers.ctrl hPress).symm
  · intro hCtrl
    unfold modifiers
    rw [hCtrl]
    rfl

theorem not_mem_flagCodes_press
    {key : Key}
    (hKey : key ∉ modifierKeys)
    (hL : key ≠ .l) :
    key.makeCode.toNat ∉ Modifiers.flagCodes := by
  have hHandled := key.handled
  simp only [modifierKeys, Modifiers.flagCodes,
    List.mem_cons, List.not_mem_nil, or_false, not_or,
    Key.eq_iff, Ne, Key.leftCtrl, Key.rightCtrl,
    Key.leftShift, Key.rightShift, Key.alt, Key.capslock,
    Key.l, UInt8.reduceToNat] at hKey hL ⊢
  omega

theorem not_mem_flagCodes_release
    {key : Key}
    (hKey : key ∉ modifierKeys) :
    key.breakCode.toNat ∉ Modifiers.flagCodes := by
  have hRight : key ≠ .rightCtrl := by
    rintro rfl
    exact hKey (by decide)
  rcases Key.breakCode_toNat hRight with ⟨hBreak, hRange⟩
  rw [hBreak]
  simp only [modifierKeys, Modifiers.flagCodes,
    List.mem_cons, List.not_mem_nil, or_false, not_or,
    Key.eq_iff, Key.leftCtrl, Key.rightCtrl,
    Key.leftShift, Key.rightShift, Key.alt, Key.capslock,
    UInt8.reduceToNat] at hKey ⊢
  omega

theorem press_move_iff
    (h : Hands)
    (key : Key) :
    h.modifiers.press key.makeCode =
        (h.move (.press key)).modifiers ↔
      h.Apart (.press key) := by
  by_cases hL : key = .l
  · rw [hL, modifiers_press_l_iff]
    exact ⟨fun hCtrl _ => hCtrl, fun hApart => hApart rfl⟩
  · have hApart : h.Apart (.press key) :=
      fun hEq => absurd hEq hL
    refine iff_of_true ?_ hApart
    by_cases hKey : key ∈ modifierKeys
    · exact h.modifiers_press hKey
    · rw [modifiers_move_other (Or.inl rfl) hKey]
      exact Modifiers.press_of_not_mem
        (not_mem_flagCodes_press hKey hL) _

theorem release_move_iff
    (h : Hands)
    (key : Key) :
    h.modifiers.press key.breakCode =
        (h.move (.release key)).modifiers ↔
      h.Apart (.release key) := by
  by_cases hLeft : key = .leftCtrl
  · rw [modifiers_release_ctrl_iff h (Or.inl hLeft)]
    subst hLeft
    have hCtrl : (h.move (.release .leftCtrl)).ctrl =
        h.held .rightCtrl := Bool.false_or _
    rw [hCtrl]
    exact ⟨fun hUp => ⟨fun _ => hUp,
      fun hEq => absurd hEq (by decide)⟩,
      fun hApart => hApart.1 rfl⟩
  · by_cases hRight : key = .rightCtrl
    · rw [modifiers_release_ctrl_iff h (Or.inr hRight)]
      subst hRight
      have hCtrl : (h.move (.release .rightCtrl)).ctrl =
          h.held .leftCtrl := Bool.or_false _
      rw [hCtrl]
      exact ⟨fun hUp =>
        ⟨fun hEq => absurd hEq (by decide), fun _ => hUp⟩,
        fun hApart => hApart.2 rfl⟩
    · have hApart : h.Apart (.release key) :=
        ⟨fun hEq => absurd hEq hLeft,
          fun hEq => absurd hEq hRight⟩
      refine iff_of_true ?_ hApart
      by_cases hKey : key ∈ modifierKeys
      · exact h.modifiers_release hKey hLeft hRight
      · rw [modifiers_move_other (Or.inr rfl) hKey]
        exact Modifiers.press_of_not_mem
          (not_mem_flagCodes_release hKey) _

/-
  The driver's flags follow a move exactly if it keeps `l`
  and the other control key apart from control.
-/
theorem modifiers_move_iff
    (h : Hands)
    (m : KeyMove) :
    h.modifiers.press m.code = (h.move m).modifiers ↔
      h.Apart m := by
  cases m with
  | press key => exact h.press_move_iff key
  | release key => exact h.release_move_iff key

end Hands

end MartianPendulum

------------------------------------------------------------
-- What a Key Press Does
------------------------------------------------------------

namespace MartianPendulum

/-
  What a letter key should do.  With control the `l` key
  clears the screen and leaves the line buffer alone; else
  the letter is typed, in upper case if one of shift and
  capslock is on.
-/
def KeyMeaning
    (h : Hands)
    (k : Kernel) :
    KeyMove → Prop
| .release _ => True
| .press key =>
    isLetter key.makeCode = true →
      let k' := k.keyboardIntHandler key.makeCode
      if h.ctrl ∧ key = .l then
        k'.toDisplay = k.clear.toDisplay ∧
          SameLines k.toKeyboard k'.toKeyboard
      else
        let lower := (scanCodeRow key.makeCode).1
        ch 'a' ≤ lower ∧ lower ≤ ch 'z' ∧
          k' = k.typeChar
            (if xor h.shift h.capslock then lower - 32
              else lower)

/- The rows of the letters. -/
theorem scanCodeRow_letter
    {inputCode : UInt8}
    (hLetter : isLetter inputCode = true) :
    isCharKey inputCode = true ∧
      ch 'a' ≤ (scanCodeRow inputCode).1 ∧
      (scanCodeRow inputCode).1 ≤ ch 'z' ∧
      (scanCodeRow inputCode).2 =
        (scanCodeRow inputCode).1 - 32 := by
  have hRows : ∀ n < 0x33,
      ((0x10 ≤ n ∧ n ≤ 0x19) ∨ (0x1E ≤ n ∧ n ≤ 0x26) ∨
        (0x2C ≤ n ∧ n ≤ 0x32)) →
      (2 ≤ n ∧ n ≤ scanCodeSetSize - 1) ∧
        n ∉ [0x0E, 0x0F, 0x1D, 0x2A, 0x36, 0x38, 0x3A] ∧
        ch 'a' ≤ (scanCodeSet1.getD n (0, 0)).1 ∧
        (scanCodeSet1.getD n (0, 0)).1 ≤ ch 'z' ∧
        (scanCodeSet1.getD n (0, 0)).2 =
          (scanCodeSet1.getD n (0, 0)).1 - 32 := by
    decide
  have hRange := of_decide_eq_true hLetter
  rcases hRows inputCode.toNat (by omega) hRange with
    ⟨hNormal, hOther, hRest⟩
  exact ⟨decide_eq_true ⟨decide_eq_true hNormal, hOther⟩,
    hRest⟩

/- The handler on a key with a character. -/
theorem Kernel.keyboardIntHandler_charKey
    {inputCode : UInt8}
    (hKey : isCharKey inputCode = true)
    (k : Kernel) :
    k.keyboardIntHandler inputCode =
      if k.ctrlFlag ∧ isClearKey inputCode then
        { k.clear with ctrlFlag := false }
      else k.typeChar (k.modifiers.char inputCode) := by
  have hNot : inputCode.toNat ∉ specialCodes := by
    intro hSpecial
    rw [isCharKey_of_special hSpecial] at hKey
    cases hKey
  have hNormal := isCharKey_eq hNot
  rw [hKey] at hNormal
  have hSpecial :
      k.checkAndHandleSpecialButton inputCode = none := by
    have hSome := isSome_special k inputCode
    rw [decide_eq_false hNot] at hSome
    exact Option.not_isSome_iff_eq_none.mp (by simp [hSome])
  unfold keyboardIntHandler
  rw [hSpecial]
  dsimp only
  rw [if_pos hNormal.symm]
  simp only [scanCodeRow_clear hKey]
  rfl

theorem Key.isClearKey_iff
    (key : Key) :
    isClearKey key.makeCode = true ↔ key = .l := by
  rw [isClearKey, decide_eq_true_eq, eq_iff]
  rfl

/- With the right flags every letter means the right. -/
theorem keyMeaning_of_modifiers
    {h : Hands}
    {k : Kernel}
    (hSame : k.modifiers = h.modifiers)
    (m : KeyMove) :
    KeyMeaning h k m := by
  cases m with
  | release key => trivial
  | press key =>
      intro hLetter
      rcases scanCodeRow_letter hLetter with
        ⟨hKey, hLow, hHigh, hUpper⟩
      have hCtrl : k.ctrlFlag = h.ctrl :=
        congrArg Modifiers.ctrl hSame
      have hChar : k.modifiers.char key.makeCode =
          if xor h.shift h.capslock then
            (scanCodeRow key.makeCode).1 - 32
          else (scanCodeRow key.makeCode).1 := by
        rw [hSame]
        unfold Modifiers.char
        dsimp only
        rw [if_pos hLetter, hUpper]
        rfl
      have hDo := k.keyboardIntHandler_charKey hKey
      rw [hCtrl, hChar] at hDo
      dsimp only
      split
      next hClear =>
        rw [hDo, if_pos ⟨hClear.1,
          key.isClearKey_iff.mpr hClear.2⟩]
        exact ⟨rfl, rfl, rfl, rfl⟩
      next hType =>
        rw [if_neg (fun hClear => hType ⟨hClear.1,
          key.isClearKey_iff.mp hClear.2⟩)] at hDo
        exact ⟨hLow, hHigh, hDo⟩

end MartianPendulum

------------------------------------------------------------
-- Histories of Moves
------------------------------------------------------------

namespace MartianPendulum

/- The keys and the kernel after a move. -/
def typeMove
    (s : Hands × Kernel)
    (m : KeyMove) : Hands × Kernel :=
  (s.1.move m, s.2.keyboardIntHandler m.code)

/- The flags say which keys are held. -/
def FlagsFollow
    (s : Hands × Kernel) : Prop :=
  s.2.ctrlFlag = s.1.ctrl ∧
    s.2.altFlag = s.1.held .alt ∧
    s.2.leftShiftFlag = s.1.held .leftShift ∧
    s.2.rightShiftFlag = s.1.held .rightShift ∧
    s.2.capslockFlag = s.1.capslock

theorem flagsFollow_iff
    (s : Hands × Kernel) :
    FlagsFollow s ↔ s.2.modifiers = s.1.modifiers := by
  unfold FlagsFollow Kernel.modifiers Hands.modifiers
  rw [Modifiers.mk.injEq]
  constructor
  · rintro ⟨hCtrl, hAlt, hLeft, hRight, hCaps⟩
    exact ⟨hLeft, hRight, hCtrl, hCaps, hAlt⟩
  · rintro ⟨hLeft, hRight, hCtrl, hCaps, hAlt⟩
    exact ⟨hCtrl, hAlt, hLeft, hRight, hCaps⟩

theorem flagsFollow_typeMove_iff
    {s : Hands × Kernel}
    (hFollow : FlagsFollow s)
    (m : KeyMove) :
    FlagsFollow (typeMove s m) ↔ s.1.Apart m := by
  rw [flagsFollow_iff] at hFollow ⊢
  unfold typeMove
  dsimp only
  rw [Kernel.modifiers_keyboardIntHandler, hFollow]
  exact s.1.modifiers_move_iff m

/-
  From boot, for every possible history of presses and
  releases: after every move the flags say which keys are
  held, and every letter means what it should, if and only
  if control is kept apart from `l` and from the other
  control key.
-/
theorem modifiers_follow_keys_iff
    (k : Kernel)
    (ms : List KeyMove)
    (hPossible : Logic.Along typeMove
      (fun s m => s.1.Possible m) (Hands.none, k.boot) ms) :
    ((∀ ms₁ ms₂, ms = ms₁ ++ ms₂ →
        FlagsFollow
          (Logic.run typeMove (Hands.none, k.boot) ms₁)) ∧
      (∀ ms₁ m ms₂, ms = ms₁ ++ m :: ms₂ →
        let s :=
          Logic.run typeMove (Hands.none, k.boot) ms₁
        KeyMeaning s.1 s.2 m)) ↔
      Logic.Along typeMove (fun s m => s.1.Apart m)
        (Hands.none, k.boot) ms := by
  have hInit : FlagsFollow (Hands.none, k.boot) :=
    ⟨rfl, rfl, rfl, rfl, rfl⟩
  have hReached := Logic.reached_iff_along
    (P := FlagsFollow)
    (I := FlagsFollow)
    (R := fun s m => s.1.Apart m)
    (fun _ h => h)
    (fun s m hFollow _ hApart =>
      (flagsFollow_typeMove_iff hFollow m).mpr hApart)
    (fun s m hFollow _ hNext =>
      (flagsFollow_typeMove_iff hFollow m).mp hNext)
    hInit hPossible
  constructor
  · rintro ⟨hFlags, -⟩
    exact hReached.mp hFlags
  · intro hApart
    have hFlags := hReached.mpr hApart
    refine ⟨hFlags, ?_⟩
    intro ms₁ m ms₂ hMs
    exact keyMeaning_of_modifiers
      ((flagsFollow_iff _).mp (hFlags ms₁ (m :: ms₂) hMs)) m

theorem Hands.apart_press
    {key : Key}
    (hKey : key ≠ .l)
    (h : Hands) :
    h.Apart (.press key) :=
  fun hEq => absurd hEq hKey

theorem Hands.apart_release
    {key : Key}
    (hLeft : key ≠ .leftCtrl)
    (hRight : key ≠ .rightCtrl)
    (h : Hands) :
    h.Apart (.release key) :=
  ⟨fun hEq => absurd hEq hLeft,
    fun hEq => absurd hEq hRight⟩

def Key.a : Key := ⟨0x1E, by decide⟩

/- Both shift keys, and one of them let go. -/
def bothShifts : List KeyMove :=
  [.press .leftShift, .press .rightShift,
    .release .leftShift]

/- An `a`, an `l` with capslock, and control with an `a`. -/
def chords : List KeyMove :=
  bothShifts ++
    [.press .a, .release .a, .release .rightShift,
      .press .capslock, .release .capslock, .press .l,
      .release .l, .press .leftCtrl, .press .a]

theorem chords_apart :
    Logic.Along typeMove (fun s m => s.1.Apart m)
      (Hands.none, blankKernel.boot) chords := by
  refine ⟨?_, ?_, ?_, ?_, ?_, ?_, ?_, ?_, ?_, ?_, ?_, ?_,
    trivial⟩
  · exact Hands.apart_press (by decide) _
  · exact Hands.apart_press (by decide) _
  · exact Hands.apart_release (by decide) (by decide) _
  · exact Hands.apart_press (by decide) _
  · exact Hands.apart_release (by decide) (by decide) _
  · exact Hands.apart_release (by decide) (by decide) _
  · exact Hands.apart_press (by decide) _
  · exact Hands.apart_release (by decide) (by decide) _
  · exact fun _ => rfl
  · exact Hands.apart_release (by decide) (by decide) _
  · exact Hands.apart_press (by decide) _
  · exact Hands.apart_press (by decide) _

/- The `a` is an `A`, and at the end control is held. -/
theorem modifiers_follow_keys_chords :
    let s₀ := (Hands.none, blankKernel.boot)
    let s := Logic.run typeMove s₀ bothShifts
    s.2.keyboardIntHandler 0x1E = s.2.typeChar (ch 'A') ∧
      FlagsFollow (Logic.run typeMove s₀ chords) := by
  intro s₀ s
  have hPossible : Logic.Along typeMove
      (fun s m => s.1.Possible m) s₀ chords :=
    ⟨rfl, rfl, rfl, rfl, rfl, rfl, rfl, rfl, rfl, rfl, rfl,
      rfl, trivial⟩
  rcases (modifiers_follow_keys_iff blankKernel chords
      hPossible).mpr chords_apart with
    ⟨hFlags, hMeanings⟩
  have hMeaning : KeyMeaning s.1 s.2 (.press .a) :=
    hMeanings bothShifts (.press .a) _ rfl
  refine ⟨(hMeaning rfl).2.2, hFlags chords [] ?_⟩
  rw [List.append_nil]

/-
  Control held, and `l` pressed twice: the first one clears
  `ctrl_flag`, and the second one is typed.
-/
theorem modifiers_lost_after_clear :
    let s₀ := (Hands.none, blankKernel.boot)
    let ms : List KeyMove :=
      [.press .leftCtrl, .press .l, .release .l, .press .l]
    Logic.Along typeMove (fun s m => s.1.Possible m) s₀ ms ∧
      ¬ ((∀ ms₁ ms₂, ms = ms₁ ++ ms₂ →
          FlagsFollow (Logic.run typeMove s₀ ms₁)) ∧
        (∀ ms₁ m ms₂, ms = ms₁ ++ m :: ms₂ →
          let s := Logic.run typeMove s₀ ms₁
          KeyMeaning s.1 s.2 m)) := by
  intro s₀ ms
  refine ⟨⟨rfl, rfl, rfl, rfl, trivial⟩, ?_⟩
  rintro ⟨hFlags, -⟩
  have hOne := hFlags [.press .leftCtrl] _ rfl
  have hTwo := hFlags [.press .leftCtrl, .press .l] _ rfl
  have hApart :=
    (flagsFollow_typeMove_iff hOne (.press .l)).mp hTwo
  have hCtrl : (typeMove s₀ (.press .leftCtrl)).1.ctrl =
      false := hApart rfl
  have hHeld : (typeMove s₀ (.press .leftCtrl)).1.ctrl =
      true := rfl
  rw [hHeld] at hCtrl
  cases hCtrl

end MartianPendulum
