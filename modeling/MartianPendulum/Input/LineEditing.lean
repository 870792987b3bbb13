import MartianPendulum.Input.Reader

/-
  Line editing at the three terminals.

  The driver keeps the line being typed in a buffer of the
  viewed terminal, with the global `buf_pos`, and saves the
  position when another terminal is viewed.  Each terminal
  has a line of its own nevertheless: the one that the keys
  pressed while it was viewed edit.

  Key definitions include:
    * `Stroke.edit`
    * `keysAt`
    * `Kernel.pendingLine`
    * `Typing`
    * `Edited`

  Key theorems include:
    * `Typing.press`
    * `Edited.press`
    * `Edited.run`
    * `pendingLine_run`
-/

------------------------------------------------------------
-- Lines as Lists
------------------------------------------------------------

namespace MartianPendulum

/-
  What a key does to the line being typed.  A line has 127
  characters at most.
-/
def Stroke.edit
    (chars : List UInt8) :
    Stroke → List UInt8
| .flags => chars
| .clear => chars
| .view _ => chars
| .erase => chars.dropLast
| .type c =>
    if c = newline then []
    else if chars.length < kbdBufSize - 1 then chars ++ [c]
    else chars

/- The key that an event presses at a terminal. -/
def keyAt
    (t : Tid)
    (k : Kernel) :
    Event → List Stroke
| .key inputCode =>
    if k.viewingTermPtr = t then [k.stroke inputCode]
    else []
| _ => []

/- The keys pressed while a terminal is viewed. -/
def keysAt
    (fs : FileSystem)
    (t : Tid) :
    Kernel → List Event → List Stroke
| _, [] => []
| k, e :: es =>
    keyAt t k e ++ keysAt fs t (k.step fs e) es

namespace Kernel

/- The position in the line of a terminal. -/
def linePos
    (t : Tid)
    (k : Kernel) : Nat :=
  if t = k.viewingTermPtr then k.bufPos
  else (k.line t).bufPos

/- The line being typed at a terminal. -/
def pendingLine
    (t : Tid)
    (k : Kernel) : List UInt8 :=
  (List.range (k.linePos t)).map (k.line t).kbdBuf

end Kernel

end MartianPendulum

------------------------------------------------------------
-- The Viewed Line
------------------------------------------------------------

namespace MartianPendulum

/- The buffer of the viewed terminal holds a line. -/
structure Typing
    (chars : List UInt8)
    (k : Kernel) : Prop where
  kbdBuf : k.kbdBuf = k.viewingTermPtr
  bufPos : k.bufPos = chars.length
  short : chars.length ≤ kbdBufSize - 1
  starts : StartsWith (k.line k.viewingTermPtr).kbdBuf chars

/- The key is no switch to another terminal. -/
def Stroke.StaysAt
    (view : Tid)
    (a : Stroke) : Prop :=
  ∀ t, a = .view t → t = view

/- Without a switch the other lines stay. -/
theorem KeyEffect.others
    {k k' : Kernel}
    {a : Stroke}
    (hEffect : KeyEffect k a k')
    (hBuf : k.kbdBuf = k.viewingTermPtr)
    (hStay : a.StaysAt k.viewingTermPtr) :
    k'.kbdBuf = k.kbdBuf ∧
      k'.viewingTermPtr = k.viewingTermPtr ∧
      ∀ t, t ≠ k.viewingTermPtr → k'.line t = k.line t := by
  rcases hEffect.keyboard with ⟨hLines, hView⟩
  rw [hView, hLines.kbdBuf, hLines.line]
  cases a with
  | flags => exact ⟨rfl, rfl, fun _ _ => rfl⟩
  | clear => exact ⟨rfl, rfl, fun _ _ => rfl⟩
  | erase => exact ⟨rfl, rfl, fun _ _ => rfl⟩
  | view t =>
      have hSame := hStay t rfl
      simp only [Stroke.keyboard, Stroke.viewing, hSame,
        if_true]
      exact ⟨trivial, trivial, fun _ _ => trivial⟩
  | type c =>
      simp only [Stroke.keyboard, Stroke.viewing,
        Keyboard.putInBuf_eq hBuf]
      split
      · refine ⟨rfl, trivial, ?_⟩
        intro t ht
        exact Function.update_of_ne ht _ _
      · exact ⟨rfl, trivial, fun _ _ => rfl⟩

namespace Typing

variable {chars : List UInt8}
variable {k k' : Kernel}

/- A character with room for it goes to the end. -/
theorem room_iff
    (hTyping : Typing chars k)
    (c : UInt8) :
    k.hasRoom c = true ↔
      c = newline ∨ chars.length < kbdBufSize - 1 := by
  have hLe := hTyping.short
  rw [Keyboard.hasRoom, decide_eq_true_eq, hTyping.bufPos]
  unfold kbdBufSize at hLe ⊢
  by_cases hEnter : c = newline
  · simp only [hEnter, and_true, true_or, iff_true]
    omega
  · simp only [hEnter, and_false, or_false, false_or]
    omega

theorem of_sameLines
    (hTyping : Typing chars k)
    (hLines : SameLines k.toKeyboard k'.toKeyboard)
    (hView : k'.viewingTermPtr = k.viewingTermPtr) :
    Typing chars k' := by
  refine ⟨?_, ?_, hTyping.short, ?_⟩
  · rw [hLines.kbdBuf, hView]
    exact hTyping.kbdBuf
  · rw [hLines.bufPos]
    exact hTyping.bufPos
  · rw [hLines.line, hView]
    exact hTyping.starts

/- A typed character that has room, Enter among them. -/
theorem put
    (hTyping : Typing chars k)
    {c : UInt8}
    (hRoom : k.hasRoom c = true)
    (hLines :
      SameLines
        (k.toKeyboard.putInBuf k.viewingTermPtr c)
        k'.toKeyboard)
    (hView : k'.viewingTermPtr = k.viewingTermPtr) :
    Typing ((Stroke.type c).edit chars) k' ∧
      StartsWith (k'.line k.viewingTermPtr).kbdBuf
        (chars ++ [c]) := by
  rw [Keyboard.putInBuf_eq hTyping.kbdBuf, if_pos hRoom]
    at hLines
  have hLine := hLines.line
  have hBuf := hLines.kbdBuf.trans hTyping.kbdBuf
  rw [← hView] at hBuf
  dsimp only at hLine
  have hStored : StartsWith
      (k'.line k.viewingTermPtr).kbdBuf
      (chars ++ [c]) := by
    rw [hLine, Function.update_self, hTyping.bufPos]
    exact hTyping.starts.append_char c
  refine ⟨?_, hStored⟩
  by_cases hEnter : c = newline
  · have hPos : k'.bufPos = 0 := by
      rw [hLines.bufPos, if_pos hEnter]
    rw [Stroke.edit, if_pos hEnter]
    exact ⟨hBuf, hPos, Nat.zero_le _, StartsWith.nil _⟩
  · have hShort :=
      ((hTyping.room_iff c).mp hRoom).resolve_left hEnter
    have hPos : k'.bufPos = (chars ++ [c]).length := by
      rw [hLines.bufPos, if_neg hEnter, hTyping.bufPos,
        List.length_append, List.length_singleton]
    rw [Stroke.edit, if_neg hEnter, if_pos hShort]
    refine ⟨hBuf, hPos, ?_, ?_⟩
    · rw [List.length_append, List.length_singleton]
      omega
    · rw [hView]
      exact hStored

/- A key that is no switch edits the line. -/
theorem press
    (hTyping : Typing chars k)
    {a : Stroke}
    (hEffect : KeyEffect k a k')
    (hStay : a.StaysAt k.viewingTermPtr) :
    Typing (a.edit chars) k' := by
  rcases hEffect.keyboard with ⟨hLines, hView⟩
  cases a with
  | flags => exact hTyping.of_sameLines hLines hView
  | clear => exact hTyping.of_sameLines hLines hView
  | view t =>
      have hSame := hStay t rfl
      rw [hSame] at hView
      simp only [Stroke.keyboard, hSame, if_true] at hLines
      exact hTyping.of_sameLines hLines hView
  | erase =>
      have hLe := hTyping.short
      rw [Stroke.edit]
      refine ⟨?_, ?_, ?_, ?_⟩
      · rw [hLines.kbdBuf, hView]
        exact hTyping.kbdBuf
      · rw [hLines.bufPos, List.length_dropLast,
          ← hTyping.bufPos]
        rfl
      · rw [List.length_dropLast]
        omega
      · rw [hLines.line, hView]
        exact hTyping.starts.dropLast
  | type c =>
      simp only [Stroke.keyboard] at hLines
      by_cases hRoom : k.hasRoom c = true
      · exact (hTyping.put hRoom hLines hView).1
      · -- no room: the line is full and the key no Enter
        rw [Keyboard.putInBuf_eq hTyping.kbdBuf,
          if_neg hRoom] at hLines
        rw [hTyping.room_iff, not_or] at hRoom
        rw [Stroke.edit, if_neg hRoom.1, if_neg hRoom.2]
        exact hTyping.of_sameLines hLines hView

/- Enter leaves the line and the newline in the buffer. -/
theorem enter
    (hTyping : Typing chars k)
    (hEffect : KeyEffect k (.type newline) k') :
    StartsWith (k'.line k.viewingTermPtr).kbdBuf
        (chars ++ [newline]) ∧
      (k'.line k.viewingTermPtr).kbdBufReady = true := by
  rcases hEffect.keyboard with ⟨hLines, hView⟩
  simp only [Stroke.keyboard] at hLines
  have hRoom : k.hasRoom newline = true :=
    (hTyping.room_iff newline).mpr (Or.inl rfl)
  refine ⟨(hTyping.put hRoom hLines hView).2, ?_⟩
  rw [hLines.line, Keyboard.putInBuf_eq hTyping.kbdBuf,
    if_pos hRoom]
  simp

end Typing

end MartianPendulum

------------------------------------------------------------
-- One Key
------------------------------------------------------------

namespace MartianPendulum

/- The buffers hold the lines, up to the positions. -/
structure Edited
    (lines : Tid → List UInt8)
    (k : Kernel) : Prop where
  kbdBuf : k.kbdBuf = k.viewingTermPtr
  length : ∀ t, k.linePos t = (lines t).length
  short : ∀ t, (lines t).length ≤ kbdBufSize - 1
  starts : ∀ t, StartsWith (k.line t).kbdBuf (lines t)

namespace Edited

variable {lines : Tid → List UInt8}
variable {k k' : Kernel}

theorem typing
    (hEdited : Edited lines k) :
    Typing (lines k.viewingTermPtr) k := by
  have hLength := hEdited.length k.viewingTermPtr
  rw [Kernel.linePos, if_pos rfl] at hLength
  exact ⟨hEdited.kbdBuf, hLength, hEdited.short _,
    hEdited.starts _⟩

theorem bufPos_le
    (hEdited : Edited lines k) :
    k.bufPos ≤ kbdBufSize - 1 := by
  rw [hEdited.typing.bufPos]
  exact hEdited.short _

/- The line is what lies in the buffer. -/
theorem pendingLine_eq
    (hEdited : Edited lines k)
    (t : Tid) :
    k.pendingLine t = lines t := by
  rw [Kernel.pendingLine, hEdited.length]
  exact (hEdited.starts t).map_range

/- Only the line of the viewed terminal changes. -/
theorem of_typing
    (hEdited : Edited lines k)
    {chars : List UInt8}
    (hTyping : Typing chars k')
    (hView : k'.viewingTermPtr = k.viewingTermPtr)
    (hOthers :
      ∀ t, t ≠ k.viewingTermPtr → k'.line t = k.line t) :
    Edited (Function.update lines k.viewingTermPtr chars)
      k' := by
  have hStarts := hTyping.starts
  rw [hView] at hStarts
  refine ⟨hTyping.kbdBuf, ?_, ?_, ?_⟩
  · intro t
    by_cases ht : t = k.viewingTermPtr
    · subst ht
      rw [Function.update_self, Kernel.linePos, hView,
        if_pos rfl, hTyping.bufPos]
    · have hOld := hEdited.length t
      rw [Kernel.linePos, if_neg ht] at hOld
      rw [Function.update_of_ne ht, Kernel.linePos, hView,
        if_neg ht, hOthers t ht, hOld]
  · intro t
    by_cases ht : t = k.viewingTermPtr
    · subst ht
      rw [Function.update_self]
      exact hTyping.short
    · rw [Function.update_of_ne ht]
      exact hEdited.short t
  · intro t
    by_cases ht : t = k.viewingTermPtr
    · subst ht
      rwa [Function.update_self]
    · rw [Function.update_of_ne ht, hOthers t ht]
      exact hEdited.starts t

/- The viewed terminal and all the lines stay. -/
theorem of_sameLines
    (hEdited : Edited lines k)
    (hLines : SameLines k.toKeyboard k'.toKeyboard)
    (hView : k'.viewingTermPtr = k.viewingTermPtr) :
    Edited lines k' := by
  have hNew := hEdited.of_typing
    (hEdited.typing.of_sameLines hLines hView) hView
    (fun t _ => congrFun hLines.line t)
  rwa [Function.update_eq_self] at hNew

/-
  A switch saves the position of one line and restores that
  of another.
-/
theorem of_switch
    (hEdited : Edited lines k)
    {t : Tid}
    (hNe : t ≠ k.viewingTermPtr)
    (hLines :
      SameLines
        (k.toKeyboard.switchLine k.viewingTermPtr t)
        k'.toKeyboard)
    (hView : k'.viewingTermPtr = t) :
    Edited lines k' := by
  have hCells : ∀ u,
      (k'.line u).kbdBuf = (k.line u).kbdBuf := by
    intro u
    rw [hLines.line]
    by_cases hu : u = k.viewingTermPtr
    · subst hu
      simp [Keyboard.switchLine, Keyboard.setLine]
    · simp [Keyboard.switchLine, Keyboard.setLine, hu]
  refine ⟨?_, ?_, hEdited.short, ?_⟩
  · rw [hLines.kbdBuf, hView]
    rfl
  · intro u
    rw [← hEdited.length u, Kernel.linePos, Kernel.linePos,
      hView]
    by_cases hut : u = t
    · subst hut
      rw [if_pos rfl, if_neg hNe, hLines.bufPos]
      simp [Keyboard.switchLine, Keyboard.setLine, hNe]
    · rw [if_neg hut, hLines.line]
      by_cases hu : u = k.viewingTermPtr
      · subst hu
        simp [Keyboard.switchLine, Keyboard.setLine]
      · simp [Keyboard.switchLine, Keyboard.setLine, hu]
  · intro u
    rw [hCells]
    exact hEdited.starts u

/- A key edits the line of the viewed terminal. -/
theorem press
    (hEdited : Edited lines k)
    {a : Stroke}
    (hEffect : KeyEffect k a k') :
    Edited
      (Function.update lines k.viewingTermPtr
        (a.edit (lines k.viewingTermPtr)))
      k' := by
  by_cases hStay : a.StaysAt k.viewingTermPtr
  · rcases hEffect.others hEdited.kbdBuf hStay with
      ⟨-, hView, hOthers⟩
    exact hEdited.of_typing
      (hEdited.typing.press hEffect hStay) hView hOthers
  · -- a switch edits no line
    unfold Stroke.StaysAt at hStay
    push Not at hStay
    rcases hStay with ⟨t, rfl, hNe⟩
    rcases hEffect.keyboard with ⟨hLines, hView⟩
    simp only [Stroke.keyboard, if_neg hNe] at hLines
    rw [Stroke.edit, Function.update_eq_self]
    exact hEdited.of_switch hNe hLines hView

/-
  The one store of a key goes to `buf_pos` in the buffer of
  the viewed terminal.
-/
theorem cells_press
    (hEdited : Edited lines k)
    {a : Stroke}
    (hEffect : KeyEffect k a k')
    (t : Tid) :
    (k'.line t).kbdBuf =
      match a.stored k.toKeyboard with
      | some c =>
          if t = k.viewingTermPtr then
            Function.update (k.line t).kbdBuf k.bufPos c
          else (k.line t).kbdBuf
      | none => (k.line t).kbdBuf := by
  rcases hEffect.keyboard with ⟨hLines, -⟩
  cases a with
  | flags => rw [hLines.line]; rfl
  | clear => rw [hLines.line]; rfl
  | erase => rw [hLines.line]; rfl
  | view u =>
      rw [hLines.line]
      simp only [Stroke.keyboard, Stroke.stored]
      split
      · rfl
      · by_cases ht : t = k.viewingTermPtr
        · subst ht
          simp [Keyboard.switchLine, Keyboard.setLine]
        · simp [Keyboard.switchLine, Keyboard.setLine, ht]
  | type c =>
      rw [hLines.line]
      simp only [Stroke.keyboard, Stroke.stored,
        Keyboard.putInBuf_eq hEdited.kbdBuf]
      by_cases hRoom : k.hasRoom c = true
      · simp only [hRoom, if_true]
        by_cases ht : t = k.viewingTermPtr
        · subst ht
          simp
        · simp [ht]
      · simp only [hRoom, Bool.false_eq_true, if_false]

end Edited

end MartianPendulum

------------------------------------------------------------
-- Runs
------------------------------------------------------------

namespace MartianPendulum

/- Nothing is typed when the system starts. -/
theorem edited_boot
    (k : Kernel) :
    Edited (fun _ => []) k.boot := by
  refine ⟨rfl, ?_, fun _ => Nat.zero_le _,
    fun _ => StartsWith.nil _⟩
  intro t
  unfold Kernel.linePos
  split <;> rfl

namespace Edited

variable {lines : Tid → List UInt8}

/- An event edits the line of the viewed terminal at most. -/
theorem step
    (fs : FileSystem)
    {k : Kernel}
    (hEdited : Edited lines k)
    (e : Event) :
    Edited
      (fun t => (keyAt t k e).foldl Stroke.edit (lines t))
      (k.step fs e) := by
  by_cases hKey : ∀ inputCode, e ≠ .key inputCode
  · have hNone : ∀ t, keyAt t k e = [] := by
      intro t
      cases e with
      | key inputCode => exact absurd rfl (hKey inputCode)
      | tick => rfl
      | execute => rfl
      | halt => rfl
      | vidmap => rfl
      | write => rfl
      | store => rfl
    simp only [hNone, List.foldl_nil]
    have hKeyboard := k.step_toKeyboard fs hKey
    exact hEdited.of_sameLines
      (hKeyboard ▸ ⟨rfl, rfl, rfl⟩)
      ((k.step_transition fs e).viewing hKey)
  · rw [not_forall] at hKey
    rcases hKey with ⟨inputCode, hKey⟩
    rw [not_not] at hKey
    subst hKey
    have hHere :
        (fun t => (keyAt t k (.key inputCode)).foldl
          Stroke.edit (lines t)) =
        Function.update lines k.viewingTermPtr
          ((k.stroke inputCode).edit
            (lines k.viewingTermPtr)) := by
      funext t
      by_cases ht : t = k.viewingTermPtr
      · subst ht
        simp [keyAt]
      · simp [keyAt, ht, Ne.symm ht]
    rw [hHere]
    exact hEdited.press
      (k.keyboardIntHandler_effect inputCode)

/- A run edits every line by the keys pressed at it. -/
theorem run
    (fs : FileSystem)
    {k : Kernel}
    (hEdited : Edited lines k)
    (es : List Event) :
    Edited
      (fun t =>
        (keysAt fs t k es).foldl Stroke.edit (lines t))
      (Logic.run (Kernel.step fs) k es) := by
  induction es generalizing k lines with
  | nil => exact hEdited
  | cons e es ih =>
      rw [Logic.run_cons]
      have hRest := ih (hEdited.step fs e)
      simpa only [keysAt, List.foldl_append] using hRest

end Edited

/-
  From boot, the line being typed at each terminal is the
  one that the keys pressed while it was viewed make, and
  the buffers are not left.
-/
theorem pendingLine_run
    (fs : FileSystem)
    (k₀ : Kernel)
    (es : List Event) :
    let k := Logic.run (Kernel.step fs) k₀.boot es
    let typed := fun t =>
      (keysAt fs t k₀.boot es).foldl Stroke.edit []
    (∀ t, k.pendingLine t = typed t ∧ k.linePos t ≤ 127) ∧
      k.kbdBuf = k.viewingTermPtr ∧
      ∀ inputCode,
        let view := k.viewingTermPtr
        let k' := k.keyboardIntHandler inputCode
        (∀ t, (k'.line t).kbdBuf =
          match (k.stroke inputCode).stored k.toKeyboard with
          | some c =>
              if t = view then
                Function.update (k.line t).kbdBuf k.bufPos c
              else (k.line t).kbdBuf
          | none => (k.line t).kbdBuf) ∧
        k.bufPos < 128 ∧
        (k.stroke inputCode = .type newline →
          (List.range ((typed view).length + 1)).map
              (k'.line view).kbdBuf =
            typed view ++ [newline] ∧
          (k'.line view).kbdBufReady = true) := by
  intro k typed
  have hEdited : Edited typed k :=
    (edited_boot k₀).run fs es
  refine ⟨?_, hEdited.kbdBuf, ?_⟩
  · intro t
    refine ⟨hEdited.pendingLine_eq t, ?_⟩
    rw [hEdited.length t]
    exact hEdited.short t
  · intro inputCode view k'
    have hEffect := k.keyboardIntHandler_effect inputCode
    refine ⟨hEdited.cells_press hEffect,
      Nat.lt_succ_of_le hEdited.bufPos_le, ?_⟩
    intro hEnter
    rw [hEnter] at hEffect
    rcases hEdited.typing.enter hEffect with
      ⟨hStarts, hReady⟩
    refine ⟨?_, hReady⟩
    have hLine := hStarts.map_range
    rwa [List.length_append, List.length_singleton]
      at hLine

end MartianPendulum
