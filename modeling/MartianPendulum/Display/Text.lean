import MartianPendulum.Display.Isolation
import MartianPendulum.Display.Screen

/-
  Texts on the screen.

  Written bytes go to a sheet that never scrolls, of which
  the screen shows a window.  From a cleared screen the
  sheet is the text laid out in rows of 80 columns; typing
  that is erased again leaves blanks on it.

  Key definitions include:
    * `layoutByte`, `layout`
    * `Display.Cleared`
    * `Display.scrolledUp`

  Key theorems include:
    * `Aimed.filling_putBytes`
    * `Aimed.filling_layout`
    * `Aimed.window_backspaces`
    * `putBytes_layout`
    * `putBytes_backspaces`
-/

------------------------------------------------------------
-- Written Bytes
------------------------------------------------------------

namespace MartianPendulum

namespace Aimed

variable {g : Control}
variable {t : Tid}
variable {frame n : Nat}
variable {paper : Logic.Sheet (UInt8 × UInt8)}

/- A byte moves the window if it scrolls. -/
theorem filling_nbPutc
    (hAim : Aimed g t frame)
    {d : Display}
    (hOn : (d.cursor t).OnScreen)
    (hFilling : Logic.Sheet.Filling 80 80
      Display.screenSize n paper (d.sheet g))
    {c : UInt8}
    (hChar : c ≠ Display.backspace) :
    Logic.Sheet.Filling 80 80 Display.screenSize
      (n + if d.scrolls g c then 1 else 0)
      (Display.write c paper)
      ((d.nbPutc g c).sheet g) := by
  simp only [hAim.scrolls_iff hChar d hOn]
  rw [hAim.sheet_nbPutc hChar d hOn]
  unfold Display.write
  split
  · exact hFilling.newline
      (show Display.screenSize = 80 * 25 from rfl)
      (by decide) (by decide)
  · exact hFilling.put (by decide) (by decide) _

/- The window after a text. -/
theorem filling_putBytes
    (hAim : Aimed g t frame)
    {bytes : List UInt8}
    (hBytes : ∀ c ∈ bytes, c ≠ Display.backspace)
    {d : Display}
    (hOn : (d.cursor t).OnScreen)
    (hFilling : Logic.Sheet.Filling 80 80
      Display.screenSize n paper (d.sheet g)) :
    Logic.Sheet.Filling 80 80 Display.screenSize
      (n + d.scrollCount g bytes)
      (bytes.foldl (fun s c => Display.write c s) paper)
      ((d.putBytes g bytes).sheet g) := by
  induction bytes generalizing d n paper with
  | nil => exact hFilling
  | cons c bytes ih =>
      have hNext := hAim.filling_nbPutc hOn hFilling
        (hBytes c List.mem_cons_self)
      have hRest := ih
        (fun c hc => hBytes c (List.mem_cons_of_mem _ hc))
        (hAim.nbPutc c d hOn).onScreen hNext
      rw [Nat.add_assoc] at hRest
      exact hRest

end Aimed

end MartianPendulum

------------------------------------------------------------
-- Layout
------------------------------------------------------------

namespace MartianPendulum

/- A text in rows of 80 columns. -/
def layoutByte
    (l : Logic.Layout UInt8 80)
    (c : UInt8) : Logic.Layout UInt8 80 :=
  if c = newline then l.newline else l.put c

def layout
    (bytes : List UInt8) : Logic.Layout UInt8 80 :=
  bytes.foldl layoutByte (.empty (by decide))

/- The sheet below the first row with a text on it. -/
def textSheet
    (header : Nat → UInt8 × UInt8)
    (l : Logic.Layout UInt8 80) :
    Logic.Sheet (UInt8 × UInt8) :=
  .ofList 80 header Display.blankCell
    ((l.cells Display.space).map
      (fun c => (c, Display.attrib)))

variable {header : Nat → UInt8 × UInt8}

theorem write_textSheet
    (l : Logic.Layout UInt8 80)
    {c : UInt8}
    (hNul : c ≠ 0)
    (hReturn : c ≠ Display.carriageReturn) :
    Display.write c (textSheet header l) =
      textSheet header (layoutByte l c) := by
  unfold Display.write layoutByte textSheet
  by_cases hEnter : c = newline
  · rw [if_pos (Or.inl hEnter), if_pos hEnter,
      Logic.Sheet.ofList_newline (by decide)
        (show 80 = 80 * 1 from rfl),
      List.length_map, Logic.Layout.cells_newline,
      List.map_append, List.map_replicate]
    rfl
  · rw [if_neg (not_or.mpr ⟨hEnter, hReturn⟩),
      if_neg hEnter, Logic.Sheet.ofList_put,
      Logic.Layout.cells_put, List.map_append, Display.glyph,
      if_neg hNul]
    rfl

theorem foldl_write_textSheet
    {bytes : List UInt8}
    (hBytes : ∀ c ∈ bytes,
      c ≠ 0 ∧ c ≠ Display.carriageReturn)
    (l : Logic.Layout UInt8 80) :
    bytes.foldl (fun s c => Display.write c s)
        (textSheet header l) =
      textSheet header (bytes.foldl layoutByte l) := by
  induction bytes generalizing l with
  | nil => rfl
  | cons c bytes ih =>
      have hChar := hBytes c List.mem_cons_self
      rw [List.foldl_cons, List.foldl_cons,
        write_textSheet l hChar.1 hChar.2]
      exact ih
        (fun c hc => hBytes c (List.mem_cons_of_mem _ hc)) _

/- A cell of the sheet is one of a row of the text. -/
theorem cell_textSheet
    (l : Logic.Layout UInt8 80)
    (row : Nat)
    {col : Nat}
    (hCol : col < 80) :
    (textSheet header l).cell (80 * (row + 1) + col) =
      ((l.rows.getD row []).getD col Display.space,
        Display.attrib) := by
  have hIndex : 80 * (row + 1) + col - 80 =
      80 * row + col := by
    omega
  have hCell :
      (l.cells Display.space).getD (80 * row + col)
          Display.space =
        (l.rows.getD row []).getD col Display.space :=
    l.getD_cells row hCol
  simp only [List.getD_eq_getElem?_getD] at hCell ⊢
  simp only [textSheet, Logic.Sheet.ofList]
  rw [if_neg (by omega), hIndex, ← hCell,
    List.getD_eq_getElem?_getD, List.getElem?_map]
  cases (l.cells Display.space)[80 * row + col]? with
  | none => rfl
  | some c => rfl

theorem pos_textSheet
    (l : Logic.Layout UInt8 80) :
    (textSheet header l).pos =
      80 * l.rows.length + l.last.length := by
  simp only [textSheet, Logic.Sheet.ofList,
    List.length_map, Logic.Layout.length_cells,
    Logic.Layout.rows, List.length_append,
    List.length_singleton]
  omega

end MartianPendulum

------------------------------------------------------------
-- From the Cleared Screen
------------------------------------------------------------

namespace MartianPendulum

namespace Display

/- The cursor is at the start of row 1, with blanks behind. -/
structure Cleared
    (g : Control)
    (d : Display) : Prop where
  screenX : d.screenX g = 0
  screenY : d.screenY g = 1
  blank : ∀ i, 80 ≤ i → i < screenSize →
    d.cells g i = blankCell

end Display

variable {g : Control}
variable {t : Tid}
variable {frame : Nat}
variable {header : Nat → UInt8 × UInt8}

theorem Aimed.cleared_clear
    (hAim : Aimed g t frame)
    (d : Display) :
    Display.Cleared g (d.clear g) := by
  have hSheet := hAim.sheet_clear d
  have hPos := congrArg Logic.Sheet.pos hSheet
  have hCells := congrArg Logic.Sheet.cell hSheet
  rcases hAim.screen_pos (hAim.clear d).onScreen with
    ⟨-, hX, hY⟩
  rw [hPos] at hX hY
  dsimp only at hX hY
  refine ⟨hX, hY, ?_⟩
  intro i hLow hHigh
  unfold Display.screenSize at hHigh
  rw [← Logic.blit_apply_of_inside (d.cells g)
    (fun _ => Display.blankCell)
    (show 30 ≤ i ∧ i < 30 + 1970 by omega)]
  exact congrFun hCells i

/- The cleared screen is an empty sheet. -/
theorem Display.Cleared.sheet_eq
    {d : Display}
    (hCleared : Display.Cleared g d) :
    d.sheet g = textSheet (d.cells g) (layout []) := by
  apply Logic.Sheet.ext
  · intro i
    have hBlank : 80 ≤ i → d.cells g i =
        Display.blankCell := by
      intro hLow
      by_cases hHigh : i < Display.screenSize
      · exact hCleared.blank i hLow hHigh
      · exact if_neg hHigh
    simp only [Display.sheet, textSheet, Logic.Sheet.ofList]
    split
    · rfl
    next hLow => exact hBlank (by omega)
  · rw [pos_textSheet]
    simp only [Display.sheet, hCleared.screenX,
      hCleared.screenY]
    rfl

theorem Aimed.cleared_onScreen
    (hAim : Aimed g t frame)
    {d : Display}
    (hCleared : Display.Cleared g d) :
    (d.cursor t).OnScreen := by
  rw [hAim.onScreen_iff, hCleared.screenX,
    hCleared.screenY]
  decide

/- A text written to a cleared screen. -/
theorem Aimed.filling_layout
    (hAim : Aimed g t frame)
    {d : Display}
    (hCleared : Display.Cleared g d)
    {bytes : List UInt8}
    (hBytes : ∀ c ∈ bytes, c ≠ Display.backspace ∧
      c ≠ 0 ∧ c ≠ Display.carriageReturn) :
    Logic.Sheet.Filling 80 80 Display.screenSize
      (d.scrollCount g bytes)
      (textSheet (d.cells g) (layout bytes))
      ((d.putBytes g bytes).sheet g) := by
  have hSheet := hCleared.sheet_eq
  have hStart : (d.sheet g).pos = 80 := by
    rw [hSheet, pos_textSheet]
    rfl
  have hFilling := hAim.filling_putBytes
    (fun c hc => (hBytes c hc).1)
    (hAim.cleared_onScreen hCleared)
    (Logic.Sheet.Filling.refl
      (show 80 ≤ (d.sheet g).pos by omega)
      (show (d.sheet g).pos < Display.screenSize by
        rw [hStart]
        decide))
  have hPaper :
      bytes.foldl (fun s c => Display.write c s)
        (d.sheet g) =
        textSheet (d.cells g) (layout bytes) := by
    rw [hSheet]
    exact foldl_write_textSheet
      (fun c hc => (hBytes c hc).2) _
  rw [hPaper, Nat.zero_add] at hFilling
  exact hFilling

/- The window shows the last 24 rows of the text. -/
theorem pos_of_filling
    {n : Nat}
    {l : Logic.Layout UInt8 80}
    {screen : Logic.Sheet (UInt8 × UInt8)}
    (hFilling : Logic.Sheet.Filling 80 80
      Display.screenSize n (textSheet header l) screen) :
    n = l.rows.length - 24 ∧
      screen.pos =
        80 * min 24 l.rows.length + l.last.length := by
  have hPos := hFilling.pos
  have hScrolled := Logic.Sheet.Filling.scrolled
    (show 0 < 80 by decide)
    (show Logic.Sheet.Filling 80 80 (80 * 25) n _ _ from
      hFilling)
  have hShort := l.short
  rw [pos_textSheet] at hPos hScrolled
  omega

theorem cell_of_filling
    {n : Nat}
    {l : Logic.Layout UInt8 80}
    {screen : Logic.Sheet (UInt8 × UInt8)}
    (hFilling : Logic.Sheet.Filling 80 80
      Display.screenSize n (textSheet header l) screen)
    {row col : Nat}
    (hRow : 1 ≤ row)
    (hCol : col < 80) :
    screen.cell (80 * row + col) =
      (((l.rows.drop (l.rows.length - 24)).getD
          (row - 1) []).getD col Display.space,
        Display.attrib) := by
  have hShown :
      (l.rows.drop n).getD (row - 1) [] =
        l.rows.getD (n + (row - 1)) [] := by
    simp only [List.getD_eq_getElem?_getD,
      List.getElem?_drop]
  have hIndex : 80 * row + col + 80 * n =
      80 * (n + (row - 1) + 1) + col := by
    omega
  rw [hFilling.cell (80 * row + col) (by omega), hIndex,
    cell_textSheet _ _ hCol, ← hShown,
    (pos_of_filling hFilling).1]

/-
  A text written to a cleared screen: below the first row
  the screen shows the last rows of the text, the rest of it
  is blank, the cursor is behind the last character, and the
  first row stays.
-/
theorem putBytes_layout
    (hAim : Aimed g t frame)
    (d : Display)
    (hCleared : Display.Cleared g d)
    (bytes : List UInt8)
    (hBytes : ∀ c ∈ bytes, c ≠ Display.backspace ∧
      c ≠ 0 ∧ c ≠ Display.carriageReturn) :
    let d' := d.putBytes g bytes
    let rows := (layout bytes).rows
    let shown := rows.drop (rows.length - 24)
    (∀ row col, 1 ≤ row → row ≤ 24 → col < 80 →
      d'.cells g (80 * row + col) =
        ((shown.getD (row - 1) []).getD col Display.space,
          Display.attrib)) ∧
    d'.screenX g = (layout bytes).last.length ∧
    d'.screenY g = min 24 rows.length ∧
    ∀ col < 80, d'.cells g col = d.cells g col := by
  intro d' rows shown
  have hFilling := hAim.filling_layout hCleared hBytes
  have hPos := (pos_of_filling hFilling).2
  have hShort := (layout bytes).short
  rcases hAim.screen_pos
      (hAim.putBytes bytes d
        (hAim.cleared_onScreen hCleared)).onScreen with
    ⟨-, hX, hY⟩
  rw [hPos] at hX hY
  refine ⟨?_, ?_, ?_, ?_⟩
  · intro row col hLow hHigh hCol
    exact cell_of_filling hFilling hLow hCol
  · rw [hX]
    omega
  · rw [hY]
    have hRows : rows.length =
      (layout bytes).rows.length := rfl
    omega
  · intro col hCol
    have hCell := hFilling.header col hCol
    simp only [textSheet, Logic.Sheet.ofList,
      if_pos hCol] at hCell
    exact hCell

/- When the system starts, video memory is on the screen. -/
theorem aimed_boot
    (k : Kernel) :
    Aimed k.boot.toControl tid0 videoPage := by
  apply (layout_boot k).aimed _ rfl rfl
  rw [videoPage_eq]
  decide

/- The screen cleared at the start. -/
def bootScreen : Display :=
  blankKernel.boot.toDisplay.clear
    blankKernel.boot.toControl

theorem bootScreen_cleared :
    Display.Cleared blankKernel.boot.toControl bootScreen :=
  (aimed_boot blankKernel).cleared_clear
    blankKernel.boot.toDisplay

/- A line of 81 characters, and more lines than fit. -/
def longText : List UInt8 :=
  List.replicate 81 111 ++ List.replicate 23 newline ++
    [107]

/-
  The first row of the wrapped line has scrolled away, and
  its last character is in the row below the first one.
-/
theorem putBytes_layout_longText :
    let g := blankKernel.boot.toControl
    let d' := bootScreen.putBytes g longText
    d'.cells g (80 * 1 + 0) = (111, Display.attrib) ∧
    d'.cells g (80 * 1 + 1) =
      (Display.space, Display.attrib) ∧
    d'.cells g (80 * 24 + 0) = (107, Display.attrib) ∧
    d'.screenX g = 1 ∧
    d'.screenY g = 24 ∧
    ∀ col < 80, d'.cells g col = bootScreen.cells g col := by
  intro g d'
  have hBytes : ∀ c ∈ longText, c ≠ Display.backspace ∧
      c ≠ 0 ∧ c ≠ Display.carriageReturn := by
    intro c hc
    simp [longText] at hc
    rcases hc with rfl | rfl | rfl
    · decide
    · decide
    · decide
  rcases putBytes_layout (aimed_boot blankKernel) bootScreen
      bootScreen_cleared longText hBytes with
    ⟨hCells, hX, hY, hTop⟩
  refine ⟨(hCells 1 0 (by decide) (by decide)
      (by decide)).trans ?_,
    (hCells 1 1 (by decide) (by decide)
      (by decide)).trans ?_,
    (hCells 24 0 (by decide) (by decide)
      (by decide)).trans ?_,
    hX.trans ?_, hY.trans ?_, hTop⟩
  · decide +kernel
  · decide +kernel
  · decide +kernel
  · decide +kernel
  · decide +kernel

end MartianPendulum

------------------------------------------------------------
-- Erased Typing
------------------------------------------------------------

namespace MartianPendulum

namespace Display

/- A screen scrolled up by some lines. -/
def scrolledUp
    (g : Control)
    (n : Nat)
    (d : Display) : Display :=
  (fun d => d.upScrollForOneLine g)^[n] d

theorem scrollCount_append
    (g : Control)
    (bytes bytes' : List UInt8)
    (d : Display) :
    d.scrollCount g (bytes ++ bytes') =
      d.scrollCount g bytes +
        (d.putBytes g bytes).scrollCount g bytes' := by
  induction bytes generalizing d with
  | nil => simp [scrollCount, putBytes]
  | cons c bytes ih =>
      rw [List.cons_append, scrollCount, scrollCount, ih,
        Nat.add_assoc]
      rfl

/- A backspace never scrolls. -/
theorem scrollCount_backspaces
    (g : Control)
    (n : Nat)
    (d : Display) :
    d.scrollCount g (List.replicate n backspace) = 0 := by
  induction n generalizing d with
  | zero => rfl
  | succ n ih =>
      rw [List.replicate_succ, scrollCount, ih]
      simp [scrolls]

end Display

variable {g : Control}
variable {t : Tid}
variable {frame : Nat}

theorem Aimed.cells_scrolledUp
    (hAim : Aimed g t frame)
    (n : Nat)
    (d : Display)
    (i : Nat) :
    (d.scrolledUp g n).cells g i =
      if i < 80 then d.cells g i
      else d.cells g (i + 80 * n) := by
  induction n generalizing i with
  | zero => simp [Display.scrolledUp]
  | succ n ih =>
      have hNext : d.scrolledUp g (n + 1) =
          (d.scrolledUp g n).upScrollForOneLine g :=
        Function.iterate_succ_apply' _ _ _
      have hLines : i + 80 + 80 * n = i + 80 * (n + 1) := by
        omega
      rw [hNext, hAim.cells_upScrollForOneLine, ih, ih,
        hLines]
      by_cases hHeader : i < 80
      · rw [if_pos hHeader, if_pos hHeader, if_pos hHeader]
      · rw [if_neg hHeader, if_neg (by omega),
          if_neg hHeader]

/- Backspaces below the first row erase on the paper. -/
theorem Aimed.window_backspaces
    (hAim : Aimed g t frame)
    {n scrolled : Nat}
    {paper : Logic.Sheet (UInt8 × UInt8)}
    {d : Display}
    (hOn : (d.cursor t).OnScreen)
    (hWindow : Logic.Sheet.Window 80 80 Display.screenSize
      scrolled paper (d.sheet g))
    (hRoom : 80 + n ≤ (d.sheet g).pos) :
    Logic.Sheet.Window 80 80 Display.screenSize scrolled
      ((Logic.Sheet.erase Display.blankCell)^[n] paper)
      ((d.putBytes g
        (List.replicate n Display.backspace)).sheet g) := by
  induction n generalizing d paper with
  | zero => exact hWindow
  | succ n ih =>
      have hSheet := hAim.sheet_putBackspace d hOn (by omega)
      have hNext := hWindow.erase (by omega)
        Display.blankCell
      rw [← hSheet] at hNext
      rw [Function.iterate_succ_apply]
      apply ih (hAim.nbPutc Display.backspace d hOn).onScreen
        hNext
      rw [hSheet]
      simp only [Logic.Sheet.erase]
      omega

/- Bytes that start no line are put one after the other. -/
theorem foldl_write_glyphs
    {bytes : List UInt8}
    (hBytes : ∀ c ∈ bytes,
      c ≠ newline ∧ c ≠ Display.carriageReturn)
    (s : Logic.Sheet (UInt8 × UInt8)) :
    bytes.foldl (fun s c => Display.write c s) s =
      (bytes.map Display.glyph).foldl
        (fun s a => s.put a) s := by
  induction bytes generalizing s with
  | nil => rfl
  | cons c bytes ih =>
      have hChar := hBytes c List.mem_cons_self
      rw [List.map_cons, List.foldl_cons, List.foldl_cons,
        Display.write,
        if_neg (not_or.mpr ⟨hChar.1, hChar.2⟩)]
      exact ih
        (fun c hc => hBytes c (List.mem_cons_of_mem _ hc)) _

/- Bytes, and as many backspaces. -/
def typedAndErased
    (bytes : List UInt8) : List UInt8 :=
  bytes ++ List.replicate bytes.length Display.backspace

theorem scrollCount_typedAndErased
    (bytes : List UInt8)
    (d : Display) :
    d.scrollCount g (typedAndErased bytes) =
      d.scrollCount g bytes := by
  rw [typedAndErased, Display.scrollCount_append,
    Display.scrollCount_backspaces, Nat.add_zero]

/-
  On the paper the bytes are replaced by blanks.  The screen
  has room to erase them, because one that has scrolled is
  at its last row.
-/
/- The window after characters that end no line. -/
theorem Aimed.filling_glyphs
    (hAim : Aimed g t frame)
    {d : Display}
    (hOn : (d.cursor t).OnScreen)
    (hBelow : 80 ≤ (d.sheet g).pos)
    {bytes : List UInt8}
    (hBytes : ∀ c ∈ bytes, c ≠ newline ∧
      c ≠ Display.carriageReturn ∧ c ≠ Display.backspace) :
    Logic.Sheet.Filling 80 80 Display.screenSize
      (d.scrollCount g bytes)
      ((bytes.map Display.glyph).foldl
        (fun s c => s.put c) (d.sheet g))
      ((d.putBytes g bytes).sheet g) := by
  have hFilling := hAim.filling_putBytes
    (fun c hc => (hBytes c hc).2.2) hOn
    (Logic.Sheet.Filling.refl hBelow
      (hAim.screen_pos hOn).1)
  rw [Nat.zero_add, foldl_write_glyphs
    (fun c hc => ⟨(hBytes c hc).1, (hBytes c hc).2.1⟩)]
    at hFilling
  exact hFilling

/- They scroll once for each row below the last one. -/
theorem Aimed.scrollCount_glyphs
    (hAim : Aimed g t frame)
    {d : Display}
    (hOn : (d.cursor t).OnScreen)
    (hBelow : 80 ≤ (d.sheet g).pos)
    {bytes : List UInt8}
    (hBytes : ∀ c ∈ bytes, c ≠ newline ∧
      c ≠ Display.carriageReturn ∧ c ≠ Display.backspace) :
    d.scrollCount g bytes =
      ((d.sheet g).pos + bytes.length - 1920) / 80 := by
  have hFilling := hAim.filling_glyphs hOn hBelow hBytes
  have hPos := hFilling.pos
  have hFull := hFilling.full
  have hEnd := (hAim.screen_pos
    (hAim.putBytes bytes d hOn).onScreen).1
  rw [Logic.Sheet.pos_foldl_put, List.length_map] at hPos
  unfold Display.screenSize at hFull hEnd
  omega

theorem Aimed.window_typedAndErased
    (hAim : Aimed g t frame)
    {d : Display}
    (hOn : (d.cursor t).OnScreen)
    (hBelow : 80 ≤ (d.sheet g).pos)
    {bytes : List UInt8}
    (hLength : bytes.length ≤ 127)
    (hBytes : ∀ c ∈ bytes, c ≠ newline ∧
      c ≠ Display.carriageReturn ∧ c ≠ Display.backspace) :
    Logic.Sheet.Window 80 80 Display.screenSize
      (d.scrollCount g bytes)
      { cell := Logic.blit (d.cells g) (d.sheet g).pos
          bytes.length (fun _ => Display.blankCell)
        pos := (d.sheet g).pos }
      ((d.putBytes g (typedAndErased bytes)).sheet g) := by
  have hFilling := hAim.filling_glyphs hOn hBelow hBytes
  have hRoom : 80 + bytes.length ≤
      ((d.putBytes g bytes).sheet g).pos := by
    have hPos := hFilling.pos
    have hFull := hFilling.full
    rw [Logic.Sheet.pos_foldl_put, List.length_map] at hPos
    unfold Display.screenSize at hFull
    omega
  have hWindow := hAim.window_backspaces
    (hAim.putBytes bytes d hOn).onScreen
    hFilling.toWindow hRoom
  have hPaper := Logic.Sheet.iterate_erase_foldl_put
    Display.blankCell (bytes.map Display.glyph) (d.sheet g)
  rw [List.length_map] at hPaper
  rw [hPaper] at hWindow
  have hWritten :
      (d.putBytes g bytes).putBytes g
        (List.replicate bytes.length Display.backspace) =
        d.putBytes g (typedAndErased bytes) :=
    List.foldl_append.symm
  rw [hWritten] at hWindow
  exact hWindow

/-
  As many backspaces as there were bytes: the cursor is back
  at the character it was at, and the screen has only
  scrolled, with blanks from the cursor on in place of the
  bytes.
-/
theorem putBytes_backspaces
    (hAim : Aimed g t frame)
    (d : Display)
    (hX : 0 ≤ d.screenX g ∧ d.screenX g < 80)
    (hY : 1 ≤ d.screenY g ∧ d.screenY g ≤ 24)
    (bytes : List UInt8)
    (hLength : bytes.length ≤ 127)
    (hBytes : ∀ c ∈ bytes, c ≠ newline ∧
      c ≠ Display.carriageReturn ∧ c ≠ Display.backspace) :
    let d' := d.putBytes g (typedAndErased bytes)
    let s := d.scrollCount g (typedAndErased bytes)
    let pos := 80 * d'.screenY g + d'.screenX g
    d'.screenX g = d.screenX g ∧
    d'.screenY g = d.screenY g - s ∧
    (∀ i < 2000, d'.cells g i =
      if pos ≤ i ∧ i < pos + bytes.length then
        (Display.space, Display.attrib)
      else (d.scrolledUp g s).cells g i) ∧
    ∀ i < 80, d'.cells g i = d.cells g i := by
  intro d' s pos
  have hOn : (d.cursor t).OnScreen := by
    rw [hAim.onScreen_iff]
    omega
  rcases hAim.screen_pos hOn with ⟨-, hStartX, hStartY⟩
  have hEnd : (d'.cursor t).OnScreen :=
    (hAim.putBytes (typedAndErased bytes) d hOn).onScreen
  rcases hAim.screen_pos hEnd with ⟨-, hEndX, hEndY⟩
  have hWindow := hAim.window_typedAndErased hOn (by omega)
    hLength hBytes
  rw [← scrollCount_typedAndErased] at hWindow
  have hPos : (d.sheet g).pos =
      (d'.sheet g).pos + 80 * s := hWindow.pos
  have hLow : 80 ≤ (d'.sheet g).pos := hWindow.low
  have hHere : pos = ((d'.sheet g).pos : Nat) := by
    simp only [pos, hEndX, hEndY]
    omega
  have hHeader : ∀ i < 80, d'.cells g i = d.cells g i := by
    intro i hi
    have hCell := hWindow.header i hi
    dsimp only at hCell
    rw [Logic.blit_apply_of_outside _ _ (by omega)] at hCell
    exact hCell
  refine ⟨?_, ?_, ?_, hHeader⟩
  · rw [hEndX, hStartX]
    omega
  · rw [hEndY, hStartY]
    omega
  · intro i hi
    rw [hAim.cells_scrolledUp, hHere]
    by_cases hTop : i < 80
    · rw [if_neg (by omega), if_pos hTop]
      exact hHeader i hTop
    · have hCell : d'.cells g i =
          Logic.blit (d.cells g) (d.sheet g).pos
            bytes.length (fun _ => Display.blankCell)
            (i + 80 * s) :=
        hWindow.cell i (by omega)
      rw [if_neg hTop, hCell]
      split
      · rw [Logic.blit_apply_of_inside _ _ (by omega)]
        rfl
      · rw [Logic.blit_apply_of_outside _ _ (by omega)]

/- The cursor is in the last cell of the screen. -/
def lastCell : Display :=
  { blankKernel.boot.toDisplay with
    cursor := fun _ => { cursorX := 79, cursorY := 24 } }

/- Three bytes wrap and scroll, and are erased again. -/
theorem putBytes_backspaces_lastCell :
    let g := blankKernel.boot.toControl
    let d' := lastCell.putBytes g
      (typedAndErased [97, 0, 98])
    d'.screenX g = 79 ∧
    d'.screenY g = 23 ∧
    (∀ i < 2000, d'.cells g i =
      if 1919 ≤ i ∧ i < 1922 then
        (Display.space, Display.attrib)
      else (lastCell.scrolledUp g 1).cells g i) ∧
    ∀ i < 80, d'.cells g i = lastCell.cells g i := by
  intro g d'
  have hAim := aimed_boot blankKernel
  have hBytes : ∀ c ∈ ([97, 0, 98] : List UInt8),
      c ≠ newline ∧ c ≠ Display.carriageReturn ∧
        c ≠ Display.backspace := by
    simp [newline, Display.backspace,
      Display.carriageReturn]
  have hScroll : lastCell.scrollCount g
      (typedAndErased [97, 0, 98]) = 1 := by
    rw [scrollCount_typedAndErased]
    exact hAim.scrollCount_glyphs
      ⟨by decide, by decide, by decide, by decide⟩
      (by decide) hBytes
  rcases putBytes_backspaces hAim lastCell
      ⟨by decide, by decide⟩ ⟨by decide, by decide⟩
      [97, 0, 98] (by decide) hBytes with
    ⟨hX, hY, hCells, hTop⟩
  rw [hScroll] at hY hCells
  have hScreenX : d'.screenX g = 79 := hX
  have hScreenY : d'.screenY g = 23 := hY
  refine ⟨hScreenX, hScreenY, ?_, hTop⟩
  intro i hi
  have hRange : 80 * (23 : Int) + 79 ≤ i ∧
      i < 80 * (23 : Int) + 79 + (3 : Nat) ↔
        1919 ≤ i ∧ i < 1922 := by
    omega
  rw [hCells i hi, hScreenX, hScreenY]
  exact if_congr hRange rfl rfl

end MartianPendulum
