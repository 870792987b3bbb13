import MartianPendulum.Display.Isolation
import MartianPendulum.Display.Screen
import MartianPendulum.Input.TypedLine

/-
  The terminal bar.

  `clear` and the scroll leave the first thirty cells of the
  screen alone, and so does a character put at the thirtieth
  cell or behind it.  A backspace knows no such bound: it
  goes from row 1 up into row 0 and on into the bar.

  Key definitions include:
    * `Kernel.FromKeysAndWrites`
    * `Kernel.SparesBar`

  Key theorems include:
    * `Aimed.bar_nbPutc`
    * `Steady.bar_step`
    * `terminal_bar_kept`
-/

------------------------------------------------------------
-- Cells of the Bar
------------------------------------------------------------

namespace MartianPendulum

namespace Display

/- A byte that takes no cell of the bar. -/
def SparesBar
    (t : Tid)
    (d : Display)
    (c : UInt8) : Prop :=
  c = backspace → 30 < (d.cursor t).pos

/-
  The cells of the bar are those of `d`, and the cursor is
  behind them.
-/
structure BarKept
    (frame : Nat)
    (t : Tid)
    (d d' : Display) : Prop where
  mem : ∀ off < 60, d'.mem (frame * size4K + off) =
    d.mem (frame * size4K + off)
  pos : 30 ≤ (d'.cursor t).pos

theorem BarKept.trans
    {frame : Nat}
    {t : Tid}
    {d₁ d₂ d₃ : Display}
    (h₁ : BarKept frame t d₁ d₂)
    (h₂ : BarKept frame t d₂ d₃) :
    BarKept frame t d₁ d₃ :=
  ⟨fun off hOff =>
    (h₂.mem off hOff).trans (h₁.mem off hOff), h₂.pos⟩

end Display

namespace Aimed

variable {g : Control}
variable {t : Tid}
variable {frame : Nat}

theorem pos_eq
    (hAim : Aimed g t frame)
    {d : Display}
    (hOn : (d.cursor t).OnScreen) :
    (d.cursor t).pos = ((d.sheet g).pos : Int) := by
  rcases hAim.screen_pos hOn with ⟨-, hX, hY⟩
  unfold Display.screenX at hX
  unfold Display.screenY at hY
  rw [hAim.screenX] at hX
  rw [hAim.screenY] at hY
  unfold Cursor.pos
  rw [hX, hY]
  omega

/- The bar as cells. -/
theorem barKept_of_sheet
    (hAim : Aimed g t frame)
    {d d' : Display}
    (hOn : (d'.cursor t).OnScreen)
    (hCells : ∀ i < 30,
      (d'.sheet g).cell i = (d.sheet g).cell i)
    (hPos : 30 ≤ (d'.sheet g).pos) :
    Display.BarKept frame t d d' := by
  constructor
  · intro off hOff
    have hSize : off / 2 < Display.screenSize := by
      unfold Display.screenSize
      omega
    have hCell : d'.cells g (off / 2) =
        d.cells g (off / 2) := hCells _ (by omega)
    rw [hAim.cells_apply d' hSize,
      hAim.cells_apply d hSize] at hCell
    rcases Nat.mod_two_eq_zero_or_one off with hEven | hOdd
    · have hOff : off / 2 * 2 = off := by omega
      rw [hOff] at hCell
      exact congrArg Prod.fst hCell
    · have hOff : off / 2 * 2 + 1 = off := by omega
      rw [hOff] at hCell
      exact congrArg Prod.snd hCell
  · rw [hAim.pos_eq hOn]
    exact_mod_cast hPos

/- A scroll leaves the first row alone. -/
theorem settle_bar
    {s s' : Logic.Sheet (UInt8 × UInt8)}
    (hCells : ∀ i < 30, s'.cell i = s.cell i)
    (hPos : 30 ≤ s'.pos) :
    let s'' := s'.settle 80 80 Display.screenSize
    (∀ i < 30, s''.cell i = s.cell i) ∧ 30 ≤ s''.pos := by
  unfold Logic.Sheet.settle Display.screenSize
  split
  next hFull =>
    refine ⟨?_, ?_⟩
    · intro i hi
      refine Eq.trans ?_ (hCells i hi)
      exact if_pos (by omega)
    · change 30 ≤ s'.pos - 80
      omega
  next hRoom => exact ⟨hCells, hPos⟩

theorem write_bar
    (c : UInt8)
    {s : Logic.Sheet (UInt8 × UInt8)}
    (hPos : 30 ≤ s.pos) :
    (∀ i < 30, (Display.write c s).cell i = s.cell i) ∧
      30 ≤ (Display.write c s).pos := by
  unfold Display.write
  split
  next hEnd =>
    refine ⟨fun _ _ => rfl, ?_⟩
    change 30 ≤ (s.pos / 80 + 1) * 80
    omega
  next hGlyph =>
    refine ⟨?_, ?_⟩
    · intro i hi
      exact Function.update_of_ne (by omega) _ _
    · change 30 ≤ s.pos + 1
      omega

/- A byte put behind the bar. -/
theorem bar_nbPutc
    (hAim : Aimed g t frame)
    {d : Display}
    (hOn : (d.cursor t).OnScreen)
    (hPos : 30 ≤ (d.cursor t).pos)
    {c : UInt8}
    (hSpare : d.SparesBar t c) :
    Display.BarKept frame t d (d.nbPutc g c) := by
  have hEnd := (hAim.nbPutc c d hOn).onScreen
  have hHere := hAim.pos_eq hOn
  rw [hHere] at hPos
  by_cases hBack : c = Display.backspace
  · have hBehind := hSpare hBack
    rw [hHere] at hBehind
    rw [hBack] at hEnd ⊢
    have hSheet := hAim.sheet_putBackspace d hOn (by omega)
    apply hAim.barKept_of_sheet hEnd
    · intro i hi
      rw [hSheet]
      exact Function.update_of_ne (by omega) _ _
    · rw [hSheet]
      change 30 ≤ (d.sheet g).pos - 1
      omega
  · have hSheet := hAim.sheet_nbPutc hBack d hOn
    rcases write_bar c (s := d.sheet g) (by omega) with
      ⟨hCells, hBehind⟩
    rcases settle_bar hCells hBehind with ⟨hCells, hBehind⟩
    rw [← hSheet] at hCells hBehind
    exact hAim.barKept_of_sheet hEnd hCells hBehind

/- The bytes of a `terminal_write`, each one put in turn. -/
theorem bar_putBytes
    (hAim : Aimed g t frame)
    {bytes : List UInt8}
    {d : Display}
    (hOn : (d.cursor t).OnScreen)
    (hPos : 30 ≤ (d.cursor t).pos)
    (hSpare : Logic.Along (fun d c => d.nbPutc g c)
      (Display.SparesBar t) d bytes) :
    Display.BarKept frame t d (d.putBytes g bytes) := by
  induction bytes generalizing d with
  | nil => exact ⟨fun _ _ => rfl, hPos⟩
  | cons c bytes ih =>
      have hFirst := hAim.bar_nbPutc hOn hPos hSpare.1
      have hEnd := (hAim.nbPutc c d hOn).onScreen
      exact hFirst.trans (ih hEnd hFirst.pos hSpare.2)

/- `clear` starts behind the bar. -/
theorem bar_clear
    (hAim : Aimed g t frame)
    (d : Display) :
    Display.BarKept frame t d (d.clear g) := by
  have hSheet := hAim.sheet_clear d
  apply hAim.barKept_of_sheet (hAim.clear d).onScreen
  · intro i hi
    rw [hSheet]
    have hBefore : ¬ (30 ≤ i ∧ i < 30 + 1970) := by omega
    exact Logic.blit_apply_of_outside (d.cells g)
      (fun _ => Display.blankCell) hBefore
  · rw [hSheet]
    change 30 ≤ 80
    decide

end Aimed

end MartianPendulum

------------------------------------------------------------
-- Steps
------------------------------------------------------------

namespace MartianPendulum

namespace Kernel

/-
  Keys, `terminal_write`, and the ticks that resume a
  process.  The other events have their own output.
-/
def FromKeysAndWrites
    (k : Kernel) :
    Event → Prop
| .key _ => True
| .write _ => True
| .tick regs _ => (k.turn regs).curPid ≠ -1
| _ => False

/-
  No backspace takes a cell of the bar of a terminal.  For
  the key it must have a character to erase.
-/
def SparesBar
    (t : Tid)
    (k : Kernel) :
    Event → Prop
| .key inputCode =>
    k.viewingTermPtr = t → k.stroke inputCode = .erase →
      0 < k.bufPos →
        k.toDisplay.SparesBar t Display.backspace
| .write bytes =>
    k.runningTermPtr = t →
      Logic.Along (fun d c => d.nbPutc k.toControl c)
        (Display.SparesBar t) k.toDisplay bytes
| _ => True

/- The bar is that of `k`, and the cursor is behind it. -/
structure BarKept
    (t : Tid)
    (k k' : Kernel) : Prop where
  screen : ∀ off < 60, k'.screen t off = k.screen t off
  pos : 30 ≤ (k'.cursor t).pos

theorem BarKept.trans
    {t : Tid}
    {k₁ k₂ k₃ : Kernel}
    (h₁ : BarKept t k₁ k₂)
    (h₂ : BarKept t k₂ k₃) :
    BarKept t k₁ k₃ :=
  ⟨fun off hOff =>
    (h₂.screen off hOff).trans (h₁.screen off hOff),
    h₂.pos⟩

theorem BarKept.of_display
    {t : Tid}
    {k k' : Kernel}
    (hKept : Display.BarKept (k.logicalFrame t) t
      k.toDisplay k'.toDisplay)
    (hView : k'.viewingTermPtr = k.viewingTermPtr) :
    BarKept t k k' := by
  refine ⟨?_, hKept.pos⟩
  intro off hOff
  unfold Kernel.screen
  have hFrame : k'.logicalFrame t = k.logicalFrame t := by
    unfold Control.logicalFrame
    rw [hView]
  rw [hFrame]
  exact hKept.mem off hOff

/- Where the screen and the cursor are the same. -/
theorem BarKept.of_same
    {t : Tid}
    {k k' : Kernel}
    (hPos : 30 ≤ (k.cursor t).pos)
    (hScreen : ∀ off < size4K,
      k'.screen t off = k.screen t off)
    (hCursor : k'.cursor t = k.cursor t) :
    BarKept t k k' := by
  refine ⟨?_, by rw [hCursor]; exact hPos⟩
  intro off hOff
  apply hScreen
  rw [size4K_eq]
  omega

end Kernel

namespace Steady

variable {k : Kernel}
variable {t : Tid}

/- A byte echoed to the terminal. -/
theorem bar_echo
    (hSteady : Steady k)
    (hView : k.viewingTermPtr = t)
    (hPos : 30 ≤ (k.cursor t).pos)
    {c : UInt8}
    (hSpare : k.toDisplay.SparesBar t c) :
    Display.BarKept (k.logicalFrame t) t
      k.toDisplay (k.echo c).toDisplay := by
  subst hView
  have hPut := (hSteady.located.layout.aimed_changeVidmemMapping
    k.viewingTermPtr).bar_nbPutc (hSteady.onScreen _)
      hPos hSpare
  exact ⟨hPut.mem, hPut.pos⟩

theorem bar_clear
    (hSteady : Steady k)
    (hView : k.viewingTermPtr = t) :
    Display.BarKept (k.logicalFrame t) t
      k.toDisplay k.clear.toDisplay := by
  subst hView
  exact (hSteady.located.layout.aimed_changeVidmemMapping
    k.viewingTermPtr).bar_clear k.toDisplay

/- A key while another terminal is viewed. -/
theorem bar_key_other
    (hSteady : Steady k)
    (hPos : 30 ≤ (k.cursor t).pos)
    (inputCode : UInt8)
    (hOther : t ≠ k.viewingTermPtr) :
    Kernel.BarKept t k (k.keyboardIntHandler inputCode) := by
  have hIsolated :=
    (hSteady.keyIsolated inputCode).isolated
  generalize k.stroke inputCode = a at hIsolated
  cases a with
  | view u =>
      exact .of_same hPos (hIsolated.screen t)
        (congrFun hIsolated.cursor t)
  | flags =>
      exact .of_same hPos (hIsolated.screen t hOther)
        (hIsolated.cursor t hOther)
  | erase =>
      exact .of_same hPos (hIsolated.screen t hOther)
        (hIsolated.cursor t hOther)
  | clear =>
      exact .of_same hPos (hIsolated.screen t hOther)
        (hIsolated.cursor t hOther)
  | type c =>
      exact .of_same hPos (hIsolated.screen t hOther)
        (hIsolated.cursor t hOther)

/- A key on the viewed terminal: the echo spares the bar. -/
theorem bar_key_viewed
    (hSteady : Steady k)
    (hPos : 30 ≤ (k.cursor t).pos)
    (inputCode : UInt8)
    (hSpare : k.SparesBar t (.key inputCode))
    (hView : k.viewingTermPtr = t) :
    Kernel.BarKept t k (k.keyboardIntHandler inputCode) := by
  have hEffect := k.keyboardIntHandler_effect inputCode
  have hIsolated :=
    (hSteady.keyIsolated inputCode).isolated
  have hHere := hSpare hView
  have hType : ∀ c, k.stroke inputCode = .type c →
      c ≠ Display.backspace := by
    intro c hStroke
    rw [Kernel.stroke_eq_decode] at hStroke
    exact (Modifiers.type_spec hStroke).1
  generalize k.stroke inputCode = a
    at hEffect hHere hType hIsolated
  generalize k.keyboardIntHandler inputCode = k'
    at hEffect hIsolated ⊢
  cases hEffect with
  | flags b hLines => exact .of_same hPos (fun _ _ => rfl) rfl
  | eraseNone hZero =>
      exact .of_same hPos (fun _ _ => rfl) rfl
  | erase hSome =>
      have hEcho := hSteady.bar_echo hView hPos
        (hHere rfl hSome)
      exact Kernel.BarKept.of_display hEcho rfl
  | stay => exact .of_same hPos (fun _ _ => rfl) rfl
  | view u hNe =>
      exact .of_same hPos (hIsolated.screen t)
        (congrFun hIsolated.cursor t)
  | clear =>
      exact Kernel.BarKept.of_display
        (hSteady.bar_clear hView) rfl
  | type c hChar =>
      have hEcho := hSteady.bar_echo hView hPos
        (fun hBack => absurd hBack (hType c rfl))
      exact Kernel.BarKept.of_display hEcho rfl

theorem bar_key
    (hSteady : Steady k)
    (hPos : 30 ≤ (k.cursor t).pos)
    (inputCode : UInt8)
    (hSpare : k.SparesBar t (.key inputCode)) :
    Kernel.BarKept t k (k.keyboardIntHandler inputCode) := by
  by_cases hView : k.viewingTermPtr = t
  · exact hSteady.bar_key_viewed hPos inputCode hSpare hView
  · exact hSteady.bar_key_other hPos inputCode
      (fun hEq => hView hEq.symm)

theorem bar_write
    (hSteady : Steady k)
    (fs : FileSystem)
    (hPos : 30 ≤ (k.cursor t).pos)
    (bytes : List UInt8)
    (hSpare : k.SparesBar t (.write bytes)) :
    Kernel.BarKept t k (k.step fs (.write bytes)) := by
  by_cases hRun : k.runningTermPtr = t
  · have hHere := hSpare hRun
    subst hRun
    exact Kernel.BarKept.of_display
      (hSteady.designates.bar_putBytes
        (hSteady.onScreen _) hPos hHere) rfl
  · have hOnly : ChangesOnly k.runningTermPtr k
        (k.step fs (.write bytes)) :=
      hSteady.stepIsolated fs (.write bytes)
    have hOther : t ≠ k.runningTermPtr :=
      fun hEq => hRun hEq.symm
    exact .of_same hPos (hOnly.screen t hOther)
      (hOnly.cursor t hOther)

/- A step that spares the bar keeps it. -/
theorem bar_step
    (hSteady : Steady k)
    (fs : FileSystem)
    (hPos : 30 ≤ (k.cursor t).pos)
    {e : Event}
    (hEvent : k.FromKeysAndWrites e)
    (hSpare : k.SparesBar t e) :
    Kernel.BarKept t k (k.step fs e) := by
  cases e with
  | key inputCode =>
      exact hSteady.bar_key hPos inputCode hSpare
  | write bytes => exact hSteady.bar_write fs hPos bytes hSpare
  | tick regs frame =>
      have hTick := k.pitIntHandler_of_pid fs regs frame hEvent
      have hStep := k.step_transition fs (.tick regs frame)
      have hView := hStep.viewing (by simp)
      have hDisplay : (k.step fs (.tick regs frame)).toDisplay =
          k.toDisplay := by
        change (k.pitIntHandler fs regs frame).2.toDisplay =
          k.toDisplay
        rw [hTick]
      apply Kernel.BarKept.of_display _ hView
      rw [hDisplay]
      exact ⟨fun _ _ => rfl, hPos⟩
  | execute => exact absurd hEvent id
  | halt => exact absurd hEvent id
  | vidmap => exact absurd hEvent id
  | store => exact absurd hEvent id

end Steady

end MartianPendulum

------------------------------------------------------------
-- Backspaces up to the Corner
------------------------------------------------------------

namespace MartianPendulum

namespace Aimed

variable {g : Control}
variable {t : Tid}
variable {frame : Nat}

/- Backspaces at the upper left corner do nothing. -/
theorem sheet_backspaces_corner
    (hAim : Aimed g t frame)
    (n : Nat)
    {d : Display}
    (hOn : (d.cursor t).OnScreen)
    (hPos : (d.sheet g).pos = 0) :
    (d.putBytes g
      (List.replicate n Display.backspace)).sheet g =
        d.sheet g := by
  induction n generalizing d with
  | zero => rfl
  | succ n ih =>
      have hEnd :=
        (hAim.nbPutc Display.backspace d hOn).onScreen
      have hStay : (d.nbPutc g Display.backspace).sheet g =
          d.sheet g := by
        rcases hAim.screen_pos hOn with ⟨-, hX, hY⟩
        rw [hPos] at hX hY
        have hBranch : d.nbPutc g Display.backspace =
            d.putBackspace g := rfl
        rw [hBranch, Display.putBackspace, if_pos ⟨hX, hY⟩,
          sheet_calibIfViewed]
      exact (ih hEnd (by rw [hStay, hPos])).trans hStay

/- Enough backspaces blank the first cell of the bar. -/
theorem sheet_backspaces_home
    (hAim : Aimed g t frame)
    {n : Nat}
    {d : Display}
    (hOn : (d.cursor t).OnScreen)
    (hPos : 0 < (d.sheet g).pos)
    (hEnough : (d.sheet g).pos ≤ n) :
    let s := (d.putBytes g
      (List.replicate n Display.backspace)).sheet g
    s.cell 0 = Display.blankCell ∧ s.pos = 0 := by
  induction n generalizing d with
  | zero => omega
  | succ n ih =>
      have hEnd :=
        (hAim.nbPutc Display.backspace d hOn).onScreen
      have hErase := hAim.sheet_putBackspace d hOn hPos
      have hNext :
          ((d.nbPutc g Display.backspace).sheet g).pos =
            (d.sheet g).pos - 1 := by
        rw [hErase]
        rfl
      by_cases hLast : (d.sheet g).pos = 1
      · have hHome := hAim.sheet_backspaces_corner n hEnd
          (by omega)
        change
          (((d.nbPutc g Display.backspace).putBytes g
            (List.replicate n Display.backspace)).sheet
              g).cell 0 = Display.blankCell ∧
          (((d.nbPutc g Display.backspace).putBytes g
            (List.replicate n Display.backspace)).sheet
              g).pos = 0
        rw [hHome, hErase]
        simp [Logic.Sheet.erase, hLast]
      · exact ih (d := d.nbPutc g Display.backspace)
          hEnd (by omega) (by omega)

end Aimed

theorem pos_of_below
    {c : Cursor}
    (hOn : c.OnScreen)
    (hBelow : 1 ≤ c.cursorY) :
    30 ≤ c.pos := by
  rcases hOn with ⟨hLeft, -⟩
  unfold Cursor.pos
  omega

namespace Steady

variable {k : Kernel}

/- The first byte of the screen of the running terminal. -/
theorem screen_zero
    (hSteady : Steady k) :
    k.screen k.runningTermPtr 0 =
      ((k.toDisplay.sheet k.toControl).cell 0).1 := by
  have hCell := hSteady.designates.cells_apply k.toDisplay
    (show 0 < Display.screenSize by decide)
  exact (congrArg Prod.fst hCell).symm

/- A newline takes the cursor below the first row. -/
theorem below_write_newline
    (hSteady : Steady k)
    (fs : FileSystem) :
    let k' := k.step fs (.write [newline])
    1 ≤ (k'.cursor k'.runningTermPtr).cursorY := by
  intro k'
  have hAim := hSteady.designates
  have hThere : Steady k' :=
    (hSteady.step fs (.write [newline])).1
  have hSheet := hAim.sheet_nbPutc
    (show newline ≠ Display.backspace by decide)
    k.toDisplay (hSteady.onScreen _)
  rcases hAim.screen_pos (hSteady.onScreen _) with
    ⟨hLt, -, -⟩
  rcases hThere.designates.screen_pos
      (hThere.onScreen _) with
    ⟨-, -, hRow⟩
  have hHere : k'.cursor k'.runningTermPtr =
      k'.cursor k'.screenYPtr := by
    rw [hThere.pointed.screenY]
  have hPos : 80 ≤ (k'.toDisplay.sheet k'.toControl).pos := by
    change 80 ≤ ((k.toDisplay.nbPutc k.toControl
      newline).sheet k.toControl).pos
    rw [hSheet]
    generalize k.toDisplay.sheet k.toControl = s at hLt
    unfold Display.write Logic.Sheet.settle
      Logic.Sheet.newline Logic.Sheet.scroll
      Display.screenSize
    rw [if_pos (Or.inl rfl)]
    split
    next hFull =>
      change 80 ≤ (s.pos / 80 + 1) * 80 - 80
      change 2000 ≤ (s.pos / 80 + 1) * 80 at hFull
      omega
    next hRoom =>
      change 80 ≤ (s.pos / 80 + 1) * 80
      omega
  rw [hHere]
  change 1 ≤ k'.toDisplay.screenY k'.toControl
  rw [hRow]
  omega

/- Backspaces up to the corner, and a character there. -/
theorem screen_lost
    (hSteady : Steady k)
    (fs : FileSystem)
    {n : Nat}
    (hEnough : 2000 ≤ n)
    (hBelow : 1 ≤ (k.cursor k.runningTermPtr).cursorY) :
    let k₁ := k.step fs
      (.write (List.replicate n Display.backspace))
    let k₂ := k₁.step fs (.write [ch 'A'])
    k₁.screen k.runningTermPtr 0 = Display.space ∧
      k₂.screen k.runningTermPtr 0 = ch 'A' := by
  intro k₁ k₂
  have hAim := hSteady.designates
  have hOn := hSteady.onScreen k.runningTermPtr
  have hOne : Steady k₁ := (hSteady.step fs _).1
  have hTwo : Steady k₂ := (hOne.step fs _).1
  rcases hAim.screen_pos hOn with ⟨hLt, -, -⟩
  have hPos := pos_of_below hOn hBelow
  rw [hAim.pos_eq hOn] at hPos
  unfold Display.screenSize at hLt
  rcases hAim.sheet_backspaces_home hOn (by omega)
      (show _ ≤ n by omega) with
    ⟨hBlank, hHome⟩
  constructor
  · have hZero := hOne.screen_zero
    have hCell : (k₁.toDisplay.sheet k₁.toControl).cell 0 =
        Display.blankCell := hBlank
    rw [hCell] at hZero
    exact hZero
  · have hZero := hTwo.screen_zero
    have hSheet := hOne.designates.sheet_nbPutc
      (show ch 'A' ≠ Display.backspace by decide)
      k₁.toDisplay (hOne.onScreen _)
    have hHome₁ : (k₁.toDisplay.sheet k₁.toControl).pos = 0 :=
      hHome
    have hCell : (k₂.toDisplay.sheet k₂.toControl).cell 0 =
        Display.glyph (ch 'A') := by
      change ((k₁.toDisplay.nbPutc k₁.toControl
        (ch 'A')).sheet k₁.toControl).cell 0 = _
      rw [hSheet]
      generalize k₁.toDisplay.sheet k₁.toControl = s
        at hHome₁
      have hWrite : Display.write (ch 'A') s =
          s.put (Display.glyph (ch 'A')) := if_neg (by decide)
      unfold Logic.Sheet.settle
      rw [hWrite]
      rw [if_neg (by
        simp [Logic.Sheet.put, hHome₁, Display.screenSize])]
      simp [Logic.Sheet.put, hHome₁]
    rw [hCell] at hZero
    exact hZero

end Steady

end MartianPendulum

------------------------------------------------------------
-- Runs
------------------------------------------------------------

namespace MartianPendulum

/- A run that spares the bar keeps it, in every state. -/
theorem Steady.bar_run
    {k : Kernel}
    {t : Tid}
    (hSteady : Steady k)
    (fs : FileSystem)
    (hPos : 30 ≤ (k.cursor t).pos)
    {es : List Event}
    (hEvents : Logic.Along (Kernel.step fs)
      Kernel.FromKeysAndWrites k es)
    (hSpare : Logic.Along (Kernel.step fs)
      (Kernel.SparesBar t) k es) :
    Kernel.BarKept t k
      (Logic.run (Kernel.step fs) k es) := by
  induction es generalizing k with
  | nil => exact ⟨fun _ _ => rfl, hPos⟩
  | cons e es ih =>
      have hFirst := hSteady.bar_step fs hPos
        hEvents.1 hSpare.1
      exact hFirst.trans (ih (hSteady.step fs e).1
        hFirst.pos hEvents.2 hSpare.2)

/-
  From the first tick on, once the cursor of a terminal is
  below row 0, keys and `terminal_write` keep the bar as
  long as no backspace meets the cursor in its cells.
-/
theorem terminal_bar_kept
    (fs : FileSystem)
    (k₀ : Kernel)
    (keys : List UInt8)
    (regs : Regs)
    (frame : CallFrame)
    (es₀ : List Event)
    (t : Tid)
    (es : List Event) :
    let k := Logic.run (Kernel.step fs) k₀.boot
      (keys.map .key ++ .tick regs frame :: es₀)
    1 ≤ (k.cursor t).cursorY →
      Logic.Along (Kernel.step fs)
        Kernel.FromKeysAndWrites k es →
      Logic.Along (Kernel.step fs)
        (Kernel.SparesBar t) k es →
      ∀ es₁ es₂, es = es₁ ++ es₂ → ∀ off < 60,
        (Logic.run (Kernel.step fs) k es₁).screen t off =
          k.screen t off := by
  intro k hBelow hEvents hSpare es₁ es₂ hEs
  have hSteady : Steady k :=
    steady_run fs k₀ keys regs frame es₀
  rw [hEs, Logic.along_append] at hEvents hSpare
  exact (hSteady.bar_run fs
    (pos_of_below (hSteady.onScreen t) hBelow)
    hEvents.1 hSpare.1).screen

/- A newline, and then a character. -/
theorem terminal_bar_kept_character :
    let k := Logic.run (Kernel.step sampleFs)
      blankKernel.boot
      ([].map .key ++ .tick blankRegs blankFrame ::
        [.write [newline]])
    1 ≤ (k.cursor k.runningTermPtr).cursorY ∧
      ∀ off < 60,
        (Logic.run (Kernel.step sampleFs) k
          [.write [ch 'A']]).screen k.runningTermPtr off =
            k.screen k.runningTermPtr off := by
  have hKept := terminal_bar_kept sampleFs blankKernel []
    blankRegs blankFrame [.write [newline]]
  have hTick := steady_run sampleFs blankKernel [] blankRegs
    blankFrame []
  have hBelow := hTick.below_write_newline sampleFs
  have hEvents :
      ([].map .key ++ .tick blankRegs blankFrame ::
        [.write [newline]] : List Event) =
      ([].map .key ++ .tick blankRegs blankFrame :: []) ++
        [.write [newline]] := rfl
  rw [hEvents, Logic.run_append, Logic.run_cons,
    Logic.run_nil] at hKept ⊢
  generalize Kernel.step sampleFs
    (Logic.run (Kernel.step sampleFs) blankKernel.boot
      ([].map .key ++ .tick blankRegs blankFrame :: []))
    (.write [newline]) = k at hKept hBelow ⊢
  have hSpare : k.toDisplay.SparesBar k.runningTermPtr
      (ch 'A') :=
    fun hBack => absurd hBack (by decide)
  exact ⟨hBelow, hKept k.runningTermPtr [.write [ch 'A']]
    hBelow ⟨trivial, trivial⟩
    ⟨fun _ => ⟨hSpare, trivial⟩, trivial⟩
    [.write [ch 'A']] [] rfl⟩

/- The bar of any machine can be lost. -/
theorem Steady.bar_lost
    {k : Kernel}
    (hSteady : Steady k)
    (fs : FileSystem)
    {n : Nat}
    (hEnough : 2000 ≤ n)
    (hBelow : 1 ≤ (k.cursor k.runningTermPtr).cursorY) :
    ¬ ∀ es₁ es₂,
      [.write (List.replicate n Display.backspace),
        .write [ch 'A']] = es₁ ++ es₂ →
      ∀ off < 60,
        (Logic.run (Kernel.step fs) k es₁).screen
          k.runningTermPtr off =
            k.screen k.runningTermPtr off := by
  intro hKept
  rcases hSteady.screen_lost fs hEnough hBelow with
    ⟨hSpace, hChar⟩
  have hOne := hKept [_] [_] rfl 0 (by decide)
  have hTwo := hKept [_, _] [] rfl 0 (by decide)
  have hEq : Display.space = ch 'A' :=
    hSpace.symm.trans (hOne.trans (hTwo.symm.trans hChar))
  exact absurd hEq (by decide)

/-
  After the first tick and a newline, 2000 backspaces and an
  `A` leave the `A` in the bar.
-/
theorem terminal_bar_lost :
    let k₀ := Logic.run (Kernel.step sampleFs)
      blankKernel.boot
      ([].map .key ++ .tick blankRegs blankFrame :: [])
    let k := k₀.step sampleFs (.write [newline])
    1 ≤ (k.cursor k.runningTermPtr).cursorY ∧
      ¬ ∀ es₁ es₂,
        [.write (List.replicate 2000 Display.backspace),
          .write [ch 'A']] = es₁ ++ es₂ →
        ∀ off < 60,
          (Logic.run (Kernel.step sampleFs) k es₁).screen
            k.runningTermPtr off =
              k.screen k.runningTermPtr off := by
  have hTick := steady_run sampleFs blankKernel [] blankRegs
    blankFrame []
  generalize Logic.run (Kernel.step sampleFs)
    blankKernel.boot
    ([].map .key ++ .tick blankRegs blankFrame :: []) = k₀
    at hTick ⊢
  have hSteady := (hTick.step sampleFs (.write [newline])).1
  have hBelow := hTick.below_write_newline sampleFs
  exact ⟨hBelow, hSteady.bar_lost sampleFs
    (Nat.le_refl 2000) hBelow⟩

end MartianPendulum
