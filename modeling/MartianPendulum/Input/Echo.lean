import MartianPendulum.Input.TypedLine

/-
  The echo of a line and its buffer.

  Every character is echoed but only the first 127 are
  stored, and Backspace takes the last one from the screen
  and from the buffer.  The two part where the line on the
  screen is the longer one.

  The state carries the text that is left of what the keys
  wrote to the screen.  No step of the code depends on it.

  Key definitions include:
    * `Stroke.echoed`
    * `Echo`, `Echo.press`
    * `Kernel.delivered`
    * `Echo.Agrees`

  Key theorems include:
    * `KeyEffect.echoed`
    * `Typing.delivered_eq`
    * `Echo.Agrees.press`
    * `delivered_iff`
-/

------------------------------------------------------------
-- The Text on the Screen
------------------------------------------------------------

namespace MartianPendulum

/- The bytes that a key writes to the viewed terminal. -/
def Stroke.echoed
    (b : Keyboard) :
    Stroke → List UInt8
| .type c => [c]
| .erase => if b.bufPos > 0 then [Display.backspace] else []
| _ => []

/- The screen after a key is the one after its bytes. -/
theorem KeyEffect.echoed
    {k k' : Kernel}
    {a : Stroke}
    (hEffect : KeyEffect k a k')
    (hClear : a ≠ .clear)
    (hStay : a.StaysAt k.viewingTermPtr) :
    k'.toDisplay =
      ((a.echoed k.toKeyboard).foldl (fun k c => k.echo c)
        k).toDisplay := by
  cases hEffect with
  | flags b => rfl
  | eraseNone hPos =>
      rw [Stroke.echoed, if_neg (by omega)]
      rfl
  | erase hPos =>
      rw [Stroke.echoed, if_pos hPos]
      rfl
  | stay => rfl
  | view t hNe => exact absurd (hStay t rfl) hNe
  | clear => exact absurd rfl hClear
  | type c => rfl

/- What is left of a text after one more byte. -/
def showByte
    (shown : List UInt8)
    (c : UInt8) : List UInt8 :=
  if c = Display.backspace then shown.dropLast
  else shown ++ [c]

/- The kernel, and the text echoed and not erased. -/
structure Echo extends Kernel where
  shown : List UInt8

namespace Echo

def start
    (k : Kernel) : Echo :=
  { toKernel := k, shown := [] }

/- A keyboard interrupt. -/
def press
    (s : Echo)
    (inputCode : UInt8) : Echo :=
  { toKernel := s.toKernel.keyboardIntHandler inputCode
    shown :=
      ((s.stroke inputCode).echoed s.toKeyboard).foldl
        showByte s.shown }

/- No Enter, no cleared screen and no switch. -/
def Edits
    (s : Echo)
    (inputCode : UInt8) : Prop :=
  inputCode ≠ 0x1C ∧
    s.stroke inputCode ≠ .clear ∧
    (s.stroke inputCode).StaysAt s.viewingTermPtr

/- Backspace comes while the buffer has the whole text. -/
def ErasesStored
    (s : Echo)
    (inputCode : UInt8) : Prop :=
  s.stroke inputCode = .erase →
    s.shown.length ≤ kbdBufSize - 1

end Echo

/- The line that Enter leaves in the buffer. -/
def Kernel.delivered
    (k : Kernel) : List UInt8 :=
  let k' := k.keyboardIntHandler 0x1C
  ((List.range kbdBufSize).map
    (k'.line k.viewingTermPtr).kbdBuf).takeWhile
      (fun c => c ≠ newline)

end MartianPendulum

------------------------------------------------------------
-- Delivered Lines
------------------------------------------------------------

namespace MartianPendulum

theorem StartsWith.takeWhile_range
    {kbd : Ptr}
    {line : List UInt8}
    (hStart : StartsWith kbd (line ++ [newline]))
    (hLine : newline ∉ line)
    {n : Nat}
    (hShort : line.length < n) :
    ((List.range n).map kbd).takeWhile
      (fun c => c ≠ newline) = line := by
  have hSplit : n = (line.length + 1) +
      (n - (line.length + 1)) := by
    omega
  have hFirst := hStart.map_range
  rw [List.length_append, List.length_singleton] at hFirst
  rw [hSplit, List.range_add, List.map_append, hFirst,
    List.append_assoc, List.takeWhile_append_of_pos]
  · simp
  · intro c hc
    rw [decide_eq_true_eq]
    rintro rfl
    exact hLine hc

/- Enter delivers the line of the buffer. -/
theorem Typing.delivered_eq
    {chars : List UInt8}
    {k : Kernel}
    (hTyping : Typing chars k)
    (hLine : newline ∉ chars) :
    k.delivered = chars := by
  have hShort := hTyping.short
  unfold kbdBufSize at hShort
  apply (hTyping.enter k.enter_effect).1.takeWhile_range
    hLine
  unfold kbdBufSize
  omega

end MartianPendulum

------------------------------------------------------------
-- Agreement
------------------------------------------------------------

namespace MartianPendulum

namespace Echo

/- The buffer has the text, cut to 127 characters. -/
structure Agrees
    (s : Echo) : Prop where
  typing : Typing (s.shown.take (kbdBufSize - 1)) s.toKernel
  plain : newline ∉ s.shown

/- The property of the lines that Enter delivers. -/
def Delivers
    (s : Echo) : Prop :=
  s.delivered = s.shown.take 127

theorem Agrees.delivers
    {s : Echo}
    (hAgrees : Agrees s) :
    s.Delivers :=
  hAgrees.typing.delivered_eq
    (fun hMem => hAgrees.plain (List.mem_of_mem_take hMem))

/- A key does the same to the buffer and to the screen. -/
theorem edit_take
    {shown : List UInt8}
    {b : Keyboard}
    {a : Stroke}
    (hPos : b.bufPos =
      (shown.take (kbdBufSize - 1)).length)
    (hChar : ∀ c, a = .type c →
      c ≠ Display.backspace ∧ c ≠ newline)
    (hErase : a = .erase →
      shown.length ≤ kbdBufSize - 1) :
    a.edit (shown.take (kbdBufSize - 1)) =
      ((a.echoed b).foldl showByte shown).take
        (kbdBufSize - 1) := by
  cases a with
  | flags => rfl
  | clear => rfl
  | view t => rfl
  | erase =>
      have hWhole := List.take_of_length_le (hErase rfl)
      rw [hWhole] at hPos
      rw [hWhole, Stroke.edit, Stroke.echoed, hPos]
      split
      · rw [List.foldl_cons, List.foldl_nil, showByte,
          if_pos rfl, List.take_of_length_le]
        rw [List.length_dropLast]
        have hShort := hErase rfl
        omega
      next hEmpty =>
        have hNil : shown = [] :=
          List.length_eq_zero_iff.mp (by omega)
        rw [hNil]
        rfl
  | type c =>
      rcases hChar c rfl with ⟨hBack, hEnter⟩
      rw [Stroke.edit, if_neg hEnter, Stroke.echoed,
        List.foldl_cons, List.foldl_nil, showByte,
        if_neg hBack, List.length_take]
      split
      next hRoom =>
        rw [List.take_of_length_le (by omega),
          List.take_of_length_le]
        rw [List.length_append, List.length_singleton]
        omega
      next hFull =>
        rw [List.take_append_of_le_length (by omega)]

/- A typed character is no newline before Enter. -/
theorem Edits.char
    {s : Echo}
    {inputCode : UInt8}
    (hEdits : Edits s inputCode)
    (c : UInt8)
    (hType : s.stroke inputCode = .type c) :
    c ≠ Display.backspace ∧ c ≠ newline := by
  rw [Kernel.stroke_eq_decode] at hType
  rcases Modifiers.type_spec hType with ⟨hBack, hEnter⟩
  refine ⟨hBack, ?_⟩
  intro hNew
  exact hEdits.1 (UInt8.toNat_inj.mp (hEnter.mp hNew))

/- The text on the screen gets no newline before Enter. -/
theorem newline_not_mem_echoed
    {shown : List UInt8}
    {b : Keyboard}
    {a : Stroke}
    (hPlain : newline ∉ shown)
    (hChar : ∀ c, a = .type c → c ≠ newline) :
    newline ∉ (a.echoed b).foldl showByte shown := by
  cases a with
  | flags => exact hPlain
  | clear => exact hPlain
  | view t => exact hPlain
  | erase =>
      rw [Stroke.echoed]
      split
      · intro hMem
        exact hPlain (List.mem_of_mem_dropLast hMem)
      · exact hPlain
  | type c =>
      rw [Stroke.echoed, List.foldl_cons, List.foldl_nil,
        showByte]
      split
      · intro hMem
        exact hPlain (List.mem_of_mem_dropLast hMem)
      · intro hMem
        rcases List.mem_append.mp hMem with h | h
        · exact hPlain h
        · exact hChar c rfl (List.mem_singleton.mp h).symm

/- The buffer after a key, whatever is on the screen. -/
theorem Agrees.typing_press
    {s : Echo}
    (hAgrees : Agrees s)
    {inputCode : UInt8}
    (hEdits : Edits s inputCode) :
    Typing
      ((s.stroke inputCode).edit
        (s.shown.take (kbdBufSize - 1)))
      (s.press inputCode).toKernel :=
  hAgrees.typing.press
    (s.toKernel.keyboardIntHandler_effect inputCode)
    hEdits.2.2

theorem Agrees.press
    {s : Echo}
    (hAgrees : Agrees s)
    {inputCode : UInt8}
    (hEdits : Edits s inputCode)
    (hErases : ErasesStored s inputCode) :
    Agrees (s.press inputCode) := by
  have hTyping := hAgrees.typing_press hEdits
  rw [edit_take hAgrees.typing.bufPos hEdits.char hErases]
    at hTyping
  exact ⟨hTyping, newline_not_mem_echoed hAgrees.plain
    (fun c hType => (hEdits.char c hType).2)⟩

/-
  Backspace on a text that is too long takes a character
  from the buffer that stays on the screen.
-/
theorem Agrees.not_delivers
    {s : Echo}
    (hAgrees : Agrees s)
    {inputCode : UInt8}
    (hEdits : Edits s inputCode)
    (hErase : s.stroke inputCode = .erase)
    (hLong : kbdBufSize - 1 < s.shown.length) :
    ¬ (s.press inputCode).Delivers := by
  have hTyping := hAgrees.typing_press hEdits
  have hPos := hAgrees.typing.bufPos
  rw [hErase, Stroke.edit] at hTyping
  have hShown : (s.press inputCode).shown =
      s.shown.dropLast := by
    unfold kbdBufSize at hPos hLong
    rw [List.length_take] at hPos
    rw [Echo.press, hErase, Stroke.echoed,
      if_pos (by omega)]
    rfl
  have hLine : newline ∉
      (s.shown.take (kbdBufSize - 1)).dropLast := by
    intro hMem
    exact hAgrees.plain
      (List.mem_of_mem_take (List.mem_of_mem_dropLast hMem))
  unfold Delivers
  rw [hTyping.delivered_eq hLine, hShown]
  intro hSame
  have hLength := congrArg List.length hSame
  simp only [List.length_dropLast, List.length_take]
    at hLength
  unfold kbdBufSize at hLength hLong
  omega

theorem agrees_start
    {k : Kernel}
    (hKbd : k.kbdBuf = k.viewingTermPtr)
    (hPos : k.bufPos = 0) :
    Agrees (start k) :=
  ⟨⟨hKbd, hPos, Nat.zero_le _, StartsWith.nil _⟩,
    List.not_mem_nil⟩

end Echo

end MartianPendulum

------------------------------------------------------------
-- Runs
------------------------------------------------------------

namespace MartianPendulum

/-
  From an empty line, Enter delivers the text on the screen,
  cut to 127 characters, after every part of a sequence of
  keys exactly if no Backspace comes while the text on the
  screen is longer.
-/
theorem delivered_iff
    (k : Kernel)
    (hKbd : k.kbdBuf = k.viewingTermPtr)
    (hPos : k.bufPos = 0)
    (codes : List UInt8)
    (hEdits : Logic.Along Echo.press Echo.Edits
      (Echo.start k) codes) :
    (∀ typed rest, codes = typed ++ rest →
      (Logic.run Echo.press (Echo.start k) typed).Delivers) ↔
      Logic.Along Echo.press Echo.ErasesStored
        (Echo.start k) codes :=
  Logic.reached_iff_along
    (fun _ hAgrees => hAgrees.delivers)
    (fun _ _ hAgrees hEdits hErases =>
      hAgrees.press hEdits hErases)
    (fun _ _ hAgrees hEdits hDelivers hErase => by
      by_contra hLong
      exact hAgrees.not_delivers hEdits hErase
        (Nat.lt_of_not_le hLong) hDelivers)
    (Echo.agrees_start hKbd hPos) hEdits

/- The key of `a`, in any state. -/
theorem stroke_a
    (k : Kernel) :
    k.stroke 0x1E = .type (k.modifiers.char 0x1E) := by
  rw [Kernel.stroke_eq_decode]
  exact Modifiers.decode_char rfl rfl k.modifiers

theorem stroke_backspace
    (k : Kernel) :
    k.stroke 0x0E = .erase := rfl

namespace Echo

theorem edits_a
    (s : Echo) :
    Edits s 0x1E := by
  refine ⟨by decide, ?_, ?_⟩
  · rw [stroke_a]
    exact nofun
  · rw [stroke_a]
    exact nofun

theorem edits_erase
    (s : Echo) :
    Edits s 0x0E :=
  ⟨by decide, nofun, nofun⟩

theorem erasesStored_a
    (s : Echo) :
    ErasesStored s 0x1E := by
  intro hErase
  rw [stroke_a] at hErase
  cases hErase

/- `a` again and again makes the text longer. -/
theorem length_run_a
    (n : Nat)
    (s : Echo) :
    (Logic.run press s (List.replicate n 0x1E)).shown.length =
      s.shown.length + n := by
  induction n generalizing s with
  | zero => rfl
  | succ n ih =>
      have hChar := (edits_a s).char _ (stroke_a s.toKernel)
      rw [List.replicate_succ, Logic.run_cons, ih, press,
        stroke_a, Stroke.echoed, List.foldl_cons,
        List.foldl_nil, showByte, if_neg hChar.1,
        List.length_append, List.length_singleton]
      omega

/- Keys that are `a` or Backspace edit a line. -/
theorem edits_run
    (s : Echo)
    {codes : List UInt8}
    (hCodes : ∀ c ∈ codes, c = 0x1E ∨ c = 0x0E) :
    Logic.Along press Edits s codes := by
  rw [Logic.along_iff_forall_split]
  rintro codes₁ c codes₂ rfl
  rcases hCodes c (by simp) with rfl | rfl
  · exact edits_a _
  · exact edits_erase _

/- The typing of `a` loses nothing of the agreement. -/
theorem Agrees.run_a
    {s : Echo}
    (hAgrees : Agrees s)
    (n : Nat) :
    Agrees
      (Logic.run Echo.press s (List.replicate n 0x1E)) := by
  induction n generalizing s with
  | zero => exact hAgrees
  | succ n ih =>
      rw [List.replicate_succ, Logic.run_cons]
      exact ih (hAgrees.press (edits_a s) (erasesStored_a s))

end Echo

/- A full line, a Backspace, and one `a` too many. -/
def fullLineKeys : List UInt8 :=
  List.replicate 127 0x1E ++ [0x0E, 0x1E, 0x1E]

/- The Backspace comes when all of the line is stored. -/
theorem fullLineKeys_erasesStored :
    Logic.Along Echo.press Echo.ErasesStored
      (Echo.start blankKernel.boot) fullLineKeys := by
  rw [fullLineKeys, Logic.along_append]
  refine ⟨?_, ?_, Echo.erasesStored_a _,
    Echo.erasesStored_a _, trivial⟩
  · rw [Logic.along_iff_forall_split]
    intro codes₁ c codes₂ hCodes
    have hMem : c ∈ List.replicate 127 (0x1E : UInt8) := by
      rw [hCodes]
      simp
    rw [List.eq_of_mem_replicate hMem]
    exact Echo.erasesStored_a _
  · intro _
    rw [Echo.length_run_a]
    decide

/- Enter delivers the line after the Backspace and at the end. -/
theorem delivered_iff_fullLineKeys :
    (Logic.run Echo.press (Echo.start blankKernel.boot)
        (fullLineKeys.take 128)).Delivers ∧
      (Logic.run Echo.press (Echo.start blankKernel.boot)
        fullLineKeys).Delivers := by
  have hEdits : Logic.Along Echo.press Echo.Edits
      (Echo.start blankKernel.boot) fullLineKeys := by
    apply Echo.edits_run
    intro c hMem
    simp [fullLineKeys] at hMem
    rcases hMem with rfl | rfl | rfl
    · exact Or.inl rfl
    · exact Or.inr rfl
    · exact Or.inl rfl
  have hDelivered := (delivered_iff blankKernel.boot rfl rfl
    fullLineKeys hEdits).mpr fullLineKeys_erasesStored
  exact ⟨hDelivered _ _
      (List.take_append_drop 128 fullLineKeys).symm,
    hDelivered fullLineKeys []
      (List.append_nil fullLineKeys).symm⟩

/- 128 times `a`, and a Backspace. -/
def overlongKeys : List UInt8 :=
  List.replicate 128 0x1E ++ [0x0E]

theorem overlongKeys_edits :
    Logic.Along Echo.press Echo.Edits
      (Echo.start blankKernel.boot) overlongKeys := by
  apply Echo.edits_run
  intro c hMem
  rcases List.mem_append.mp hMem with h | h
  · exact Or.inl (List.eq_of_mem_replicate h)
  · exact Or.inr (List.mem_singleton.mp h)

/- Enter after these keys delivers 126 characters of 127. -/
theorem overlongKeys_not_delivers :
    Logic.Along Echo.press Echo.Edits
        (Echo.start blankKernel.boot) overlongKeys ∧
      ¬ (Logic.run Echo.press (Echo.start blankKernel.boot)
        overlongKeys).Delivers := by
  refine ⟨overlongKeys_edits, ?_⟩
  have hAgrees :=
    (Echo.agrees_start (k := blankKernel.boot) rfl
      rfl).run_a 128
  rw [overlongKeys, Logic.run_append, Logic.run_cons,
    Logic.run_nil]
  apply hAgrees.not_delivers (Echo.edits_erase _)
    (stroke_backspace _)
  rw [Echo.length_run_a]
  decide

end MartianPendulum
