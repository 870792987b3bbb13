import MartianPendulum.Logic.Sheet
import MartianPendulum.Display.Drawing

/-
  The screen as a sheet of cells.

  Video memory holds 25 rows of 80 cells, and the cursor is
  a position in them.  On this sheet each branch of
  `nb_putc` is one operation, and the scroll in place is the
  scroll of a sheet below a header of one row.

  Key definitions include:
    * `Display.cells`
    * `Display.sheet`
    * `Display.beforeScroll`
    * `Display.scrollCount`

  Key theorems include:
    * `Aimed.sheet_upScrollForOneLine`
    * `Aimed.sheet_beforeScroll`
    * `Aimed.sheet_nbPutc`
    * `Aimed.sheet_putBackspace`
    * `Aimed.sheet_clear`
-/

------------------------------------------------------------
-- Cells
------------------------------------------------------------

namespace MartianPendulum

namespace Display

/- The cells of the screen. -/
def screenSize : Nat := 2000

def blankCell : UInt8 × UInt8 :=
  (space, attrib)

/-
  The characters and attributes of the screen in reading
  order, with blanks behind the last row.
-/
def cells
    (g : Control)
    (d : Display) : Nat → UInt8 × UInt8 :=
  fun i =>
    if i < screenSize then
      (d.load g (videoStart + (i : Int) * 2),
        d.load g (videoStart + (i : Int) * 2 + 1))
    else blankCell

/- The screen and its cursor. -/
def sheet
    (g : Control)
    (d : Display) : Logic.Sheet (UInt8 × UInt8) :=
  { cell := d.cells g
    pos := (numCols * d.screenY g + d.screenX g).toNat }

end Display

namespace Aimed

variable {g : Control}
variable {t : Tid}
variable {frame : Nat}

/- The cells lie in the frame. -/
theorem cells_apply
    (hAim : Aimed g t frame)
    (d : Display)
    {i : Nat}
    (hi : i < Display.screenSize) :
    d.cells g i =
      (d.mem (frame * size4K + i * 2),
        d.mem (frame * size4K + (i * 2 + 1))) := by
  have hOff : (videoStart : Int) + (i : Int) * 2 + 1 =
      videoStart + ((i : Int) * 2 + 1) := by
    omega
  have hChar : ((i : Int) * 2).toNat = i * 2 := by omega
  have hAttrib : ((i : Int) * 2 + 1).toNat = i * 2 + 1 := by
    omega
  unfold Display.screenSize at hi
  unfold Display.cells Display.screenSize Display.load
  rw [if_pos hi, hOff, hAim.walk_eq (by omega) (by omega),
    hAim.walk_eq (by omega) (by omega), hChar, hAttrib]

/- Two bytes written make one cell. -/
theorem cells_of_mem
    (hAim : Aimed g t frame)
    {d d' : Display}
    {index : Nat}
    (hIndex : index < Display.screenSize)
    {c a : UInt8}
    (hMem : d'.mem =
      Function.update
        (Function.update d.mem
          (frame * size4K + index * 2) c)
        (frame * size4K + (index * 2 + 1)) a) :
    d'.cells g =
      Function.update (d.cells g) index (c, a) := by
  funext i
  by_cases hi : i < Display.screenSize
  · rw [hAim.cells_apply d' hi, hMem]
    by_cases hHere : i = index
    · subst hHere
      rw [Function.update_self, Function.update_self,
        Function.update_of_ne (by omega),
        Function.update_self]
    · rw [Function.update_of_ne hHere,
        hAim.cells_apply d hi,
        Function.update_of_ne (by omega),
        Function.update_of_ne (by omega),
        Function.update_of_ne (by omega),
        Function.update_of_ne (by omega)]
  · rw [Function.update_of_ne (by omega), Display.cells,
      if_neg hi, Display.cells, if_neg hi]

/- A store of the two bytes of a cell. -/
theorem store_store
    (hAim : Aimed g t frame)
    {index : Nat}
    (hIndex : index < Display.screenSize)
    (c a : UInt8)
    (d : Display) :
    ((d.store g (videoStart + (index : Int) * 2) c).store g
        (videoStart + (index : Int) * 2 + 1) a).mem =
      Function.update
        (Function.update d.mem
          (frame * size4K + index * 2) c)
        (frame * size4K + (index * 2 + 1)) a := by
  have hOff : (videoStart : Int) + (index : Int) * 2 + 1 =
      videoStart + ((index : Int) * 2 + 1) := by
    omega
  have hChar : ((index : Int) * 2).toNat = index * 2 := by
    omega
  have hAttrib : ((index : Int) * 2 + 1).toNat =
      index * 2 + 1 := by
    omega
  unfold Display.screenSize at hIndex
  unfold Display.store
  rw [hOff, hAim.walk_eq (by omega) (by omega),
    hAim.walk_eq (by omega) (by omega), hChar, hAttrib]

theorem cells_putCell
    (hAim : Aimed g t frame)
    {index : Nat}
    (hIndex : index < Display.screenSize)
    (c : UInt8)
    (d : Display) :
    (d.putCell g index c).cells g =
      Function.update (d.cells g) index
        (c, Display.attrib) :=
  hAim.cells_of_mem hIndex
    (hAim.store_store hIndex c Display.attrib d)

/- A cell at an index that the code computes. -/
theorem putCell_spec
    (hAim : Aimed g t frame)
    {index : Int}
    {i : Nat}
    (hIndex : index = i)
    (hi : i < Display.screenSize)
    (c : UInt8)
    (d : Display) :
    (d.putCell g index c).cells g =
        Function.update (d.cells g) i (c, Display.attrib) ∧
      (d.putCell g index c).screenX g = d.screenX g ∧
      (d.putCell g index c).screenY g = d.screenY g := by
  subst hIndex
  have hPaint := hAim.putCell
    (show 0 ≤ (i : Int) by omega)
    (by
      unfold Display.screenSize at hi
      omega)
    c d
  exact ⟨hAim.cells_putCell hi c d, hPaint.screenX g,
    hPaint.screenY g⟩

/-
  The attribute is read after the character was stored,
  which is another byte.
-/
theorem cells_copyCell
    (hAim : Aimed g t frame)
    {toIndex fromIndex : Nat}
    (hTo : toIndex < Display.screenSize)
    (hFrom : fromIndex < Display.screenSize)
    (d : Display) :
    (d.copyCell g toIndex fromIndex).cells g =
      Function.update (d.cells g) toIndex
        (d.cells g fromIndex) := by
  have hLater :
      (d.store g (videoStart + (toIndex : Int) * 2)
        (d.load g
          (videoStart + (fromIndex : Int) * 2))).load g
          (videoStart + (fromIndex : Int) * 2 + 1) =
        d.load g
          (videoStart + (fromIndex : Int) * 2 + 1) := by
    have hOff :
        (videoStart : Int) + (fromIndex : Int) * 2 + 1 =
          videoStart + ((fromIndex : Int) * 2 + 1) := by
      omega
    unfold Display.screenSize at hTo hFrom
    have hRead := hAim.walk_eq
      (show 0 ≤ (fromIndex : Int) * 2 + 1 by omega)
      (by omega)
    have hWrite := hAim.walk_eq
      (show 0 ≤ (toIndex : Int) * 2 by omega) (by omega)
    simp only [hOff, Display.load, Display.store, hRead,
      hWrite]
    exact Function.update_of_ne (by omega) _ _
  unfold Display.copyCell
  dsimp only
  rw [hLater, hAim.cells_of_mem hTo
    (hAim.store_store hTo _ _ d)]
  simp only [Display.cells, if_pos hFrom]

end Aimed

end MartianPendulum

------------------------------------------------------------
-- Loops Over Cells
------------------------------------------------------------

namespace MartianPendulum

namespace Aimed

variable {g : Control}
variable {t : Tid}
variable {frame : Nat}

/- A loop that writes blanks from a cell on. -/
theorem cells_blanks
    (hAim : Aimed g t frame)
    (first : Nat)
    {n : Nat}
    (hEnd : first + n ≤ Display.screenSize)
    (d : Display) :
    ((List.range n).foldl
        (fun d (i : Nat) =>
          d.putCell g ((first : Int) + i) Display.space)
        d).cells g =
      Logic.blit (d.cells g) first n
        (fun _ => Display.blankCell) := by
  induction n with
  | zero => simp
  | succ n ih =>
      have hIndex : (first : Int) + n =
          ((first + n : Nat) : Int) := by
        omega
      rw [List.range_succ, List.foldl_append,
        List.foldl_cons, List.foldl_nil, hIndex,
        hAim.cells_putCell (by omega), ih (by omega)]
      exact Logic.blit_succ _ first n
        (fun _ => Display.blankCell)

/- The same loop, over the indices of the cells. -/
theorem cells_blanks_from
    (hAim : Aimed g t frame)
    (first : Nat)
    {n : Nat}
    (hEnd : first + n ≤ Display.screenSize)
    (d : Display) :
    ((List.range' first n).foldl
        (fun d (i : Nat) => d.putCell g i Display.space)
        d).cells g =
      Logic.blit (d.cells g) first n
        (fun _ => Display.blankCell) := by
  rw [List.range'_eq_map_range, List.foldl_map]
  simp only [Nat.cast_add]
  exact hAim.cells_blanks first hEnd d

/- A part of the inner loop of the scroll. -/
theorem cells_scrollCols
    (hAim : Aimed g t frame)
    {row : Nat}
    (hRow : row ≤ 23)
    {n : Nat}
    (hn : n ≤ 80)
    (d : Display) :
    ((List.range n).foldl
        (fun d (col : Nat) =>
          d.copyCell g (row * Display.numCols + col)
            ((row + 1) * Display.numCols + col))
        d).cells g =
      Logic.shiftFrom 80 (80 * row) n (d.cells g) := by
  induction n with
  | zero => simp
  | succ n ih =>
      have hTo : (row : Int) * Display.numCols + n =
          ((80 * row + n : Nat) : Int) := by
        unfold Display.numCols
        omega
      have hFrom : ((row : Int) + 1) * Display.numCols + n =
          ((80 * row + n + 80 : Nat) : Int) := by
        unfold Display.numCols
        omega
      rw [List.range_succ, List.foldl_append,
        List.foldl_cons, List.foldl_nil, hTo, hFrom,
        hAim.cells_copyCell, ih (by omega),
        Logic.shiftFrom_succ]
      · unfold Display.screenSize
        omega
      · unfold Display.screenSize
        omega

/- The rows that the scroll has moved so far. -/
theorem cells_scrollRows
    (hAim : Aimed g t frame)
    {n : Nat}
    (hn : n ≤ 23)
    (d : Display) :
    ((List.range' 1 n).foldl (Display.scrollRow g)
        d).cells g =
      Logic.shiftFrom 80 80 (80 * n) (d.cells g) := by
  induction n with
  | zero => simp
  | succ n ih =>
      have hStart : 80 * (1 + n) = 80 + 80 * n := by omega
      rw [List.range'_1_concat, List.foldl_append,
        List.foldl_cons, List.foldl_nil, Display.scrollRow,
        hAim.cells_scrollCols (by omega) (Nat.le_refl 80),
        ih (by omega), hStart, Logic.shiftFrom_append]
      rfl

/-
  The scroll in place moves the rows below the first one up,
  and the last one gets the blanks behind it.
-/
theorem cells_upScrollForOneLine
    (hAim : Aimed g t frame)
    (d : Display)
    (i : Nat) :
    (d.upScrollForOneLine g).cells g i =
      if i < 80 then d.cells g i
      else d.cells g (i + 80) := by
  have hRows := hAim.cells_scrollRows (Nat.le_refl 23) d
  unfold Display.upScrollForOneLine
  dsimp only
  generalize (List.range' 1 23).foldl
    (Display.scrollRow g) d = d₁ at hRows ⊢
  have hMoved :
      (d₁.setScreenY g (d₁.screenY g - 1)).cells g =
        Logic.shiftFrom 80 80 (80 * 23) (d.cells g) := hRows
  have hBlank := hAim.cells_blanks 1920 (n := 80)
    (Nat.le_refl 2000)
    (d₁.setScreenY g (d₁.screenY g - 1))
  have hFirst :
      ((Display.numRows - 1) * Display.numCols : Int) =
        (1920 : Nat) := rfl
  rw [hFirst, hBlank, hMoved]
  by_cases hLast : 1920 ≤ i ∧ i < 1920 + 80
  · have hBehind : d.cells g (i + 80) =
        Display.blankCell := by
      unfold Display.cells Display.screenSize
      exact if_neg (by omega)
    rw [Logic.blit_apply_of_inside _ _ hLast,
      if_neg (by omega), hBehind]
  · rw [Logic.blit_apply_of_outside _ _ hLast]
    unfold Logic.shiftFrom
    by_cases hHeader : i < 80
    · rw [if_neg (by omega), if_pos hHeader]
    · rw [if_neg hHeader]
      split
      · rfl
      next hOut =>
        -- behind the screen both are blank
        unfold Display.cells Display.screenSize
        rw [if_neg (by omega), if_neg (by omega)]

end Aimed

end MartianPendulum

------------------------------------------------------------
-- Characters Before the Scroll
------------------------------------------------------------

namespace MartianPendulum

namespace Display

/- The branch for printable characters, up to the scroll. -/
def glyphPut
    (g : Control)
    (c : UInt8)
    (d : Display) : Display :=
  let d := d.putCell g
    (numCols * d.screenY g + d.screenX g) c
  let d := d.setScreenX g (d.screenX g + 1)
  if d.screenX g = numCols then
    let d := d.setScreenY g (d.screenY g + 1)
    d.setScreenX g 0
  else d

/- The branch for `\n` and `\r`, up to the scroll. -/
def lineEnded
    (g : Control)
    (d : Display) : Display :=
  let d := d.setScreenY g (d.screenY g + 1)
  d.setScreenX g 0

/- What `nb_putc` does before it may scroll. -/
def beforeScroll
    (g : Control)
    (c : UInt8)
    (d : Display) : Display :=
  if c = newline ∨ c = carriageReturn then d.lineEnded g
  else if c = 0 then d.glyphPut g space
  else d.glyphPut g c

theorem nbPutc_eq
    (g : Control)
    {c : UInt8}
    (hChar : c ≠ backspace)
    (d : Display) :
    d.nbPutc g c =
      ((d.beforeScroll g c).scrollIfFull g).calibIfViewed
        g := by
  unfold nbPutc beforeScroll
  split
  · rfl
  · split
    · rfl
    · rfl

/- The call of `nb_putc` scrolls. -/
def scrolls
    (g : Control)
    (c : UInt8)
    (d : Display) : Bool :=
  c ≠ backspace ∧
    (d.beforeScroll g c).screenY g = numRows

/- The number of scrolls while bytes are written. -/
def scrollCount
    (g : Control) :
    List UInt8 → Display → Nat
| [], _ => 0
| c :: bytes, d =>
    (if d.scrolls g c then 1 else 0) +
      scrollCount g bytes (d.nbPutc g c)

/- The cell of a printable byte, with a space for NUL. -/
def glyph
    (c : UInt8) : UInt8 × UInt8 :=
  (if c = 0 then space else c, attrib)

/- A byte written on a sheet. -/
def write
    (c : UInt8)
    (s : Logic.Sheet (UInt8 × UInt8)) :
    Logic.Sheet (UInt8 × UInt8) :=
  if c = newline ∨ c = carriageReturn then s.newline 80
  else s.put (glyph c)

/- The cursor may stand below the last row. -/
structure NearScreen
    (g : Control)
    (d : Display) : Prop where
  left : 0 ≤ d.screenX g
  right : d.screenX g < 80
  above : 0 ≤ d.screenY g
  below : d.screenY g ≤ 25

end Display

namespace Aimed

variable {g : Control}
variable {t : Tid}
variable {frame : Nat}

/- The cell at the cursor is written, and the cursor moves. -/
theorem glyphPut_spec
    (hAim : Aimed g t frame)
    (c : UInt8)
    (d : Display)
    (hOn : (d.cursor t).OnScreen) :
    let d' := d.glyphPut g c
    d'.cells g =
        Function.update (d.cells g) (d.sheet g).pos
          (c, Display.attrib) ∧
      80 * d'.screenY g + d'.screenX g =
        (d.sheet g).pos + 1 ∧
      Display.NearScreen g d' := by
  rw [hAim.onScreen_iff] at hOn
  have hIndex :
      Display.numCols * d.screenY g + d.screenX g =
        ((d.sheet g).pos : Int) := by
    simp only [Display.sheet, Display.numCols]
    omega
  have hLt : (d.sheet g).pos < Display.screenSize := by
    unfold Display.screenSize
    unfold Display.numCols at hIndex
    omega
  rcases hAim.putCell_spec hIndex hLt c d with
    ⟨hCells, hX, hY⟩
  unfold Display.glyphPut
  dsimp only
  generalize d.putCell g
    (Display.numCols * d.screenY g + d.screenX g) c = d₁
    at hCells hX hY ⊢
  rw [Display.screenX_setScreenX,
    Display.screenY_setScreenX]
  unfold Display.numCols at hIndex ⊢
  split
  next hWrap =>
    refine ⟨hCells, ?_, ?_, ?_, ?_, ?_⟩
    all_goals
      simp only [Display.screenX_setScreenX,
        Display.screenY_setScreenX,
        Display.screenY_setScreenY]
      omega
  next hWrap =>
    refine ⟨hCells, ?_, ?_, ?_, ?_, ?_⟩
    all_goals
      simp only [Display.screenX_setScreenX,
        Display.screenY_setScreenX]
      omega

theorem sheet_glyphPut
    (hAim : Aimed g t frame)
    (c : UInt8)
    (d : Display)
    (hOn : (d.cursor t).OnScreen) :
    (d.glyphPut g c).sheet g =
        (d.sheet g).put (c, Display.attrib) ∧
      Display.NearScreen g (d.glyphPut g c) := by
  rcases hAim.glyphPut_spec c d hOn with
    ⟨hCells, hPos, hNear⟩
  refine ⟨?_, hNear⟩
  ext1
  · exact congrFun hCells _
  · simp only [Logic.Sheet.put]
    rw [Display.sheet, Display.numCols, hPos]
    rfl

theorem sheet_lineEnded
    (hAim : Aimed g t frame)
    (d : Display)
    (hOn : (d.cursor t).OnScreen) :
    (d.lineEnded g).sheet g = (d.sheet g).newline 80 ∧
      Display.NearScreen g (d.lineEnded g) := by
  rw [hAim.onScreen_iff] at hOn
  unfold Display.lineEnded
  constructor
  · ext1
    · rfl
    · simp only [Display.sheet, Logic.Sheet.newline,
        Display.screenX_setScreenX,
        Display.screenY_setScreenX,
        Display.screenY_setScreenY, Display.numCols]
      omega
  · refine ⟨?_, ?_, ?_, ?_⟩
    all_goals
      simp only [Display.screenX_setScreenX,
        Display.screenY_setScreenX,
        Display.screenY_setScreenY]
      omega

theorem sheet_beforeScroll
    (hAim : Aimed g t frame)
    (c : UInt8)
    (d : Display)
    (hOn : (d.cursor t).OnScreen) :
    (d.beforeScroll g c).sheet g =
        Display.write c (d.sheet g) ∧
      Display.NearScreen g (d.beforeScroll g c) := by
  unfold Display.beforeScroll Display.write Display.glyph
  split
  · exact hAim.sheet_lineEnded d hOn
  · split
    · exact hAim.sheet_glyphPut _ d hOn
    · exact hAim.sheet_glyphPut c d hOn

end Aimed

end MartianPendulum

------------------------------------------------------------
-- Characters
------------------------------------------------------------

namespace MartianPendulum

namespace Aimed

variable {g : Control}
variable {t : Tid}
variable {frame : Nat}

/- The position of a cursor on the screen. -/
theorem screen_pos
    (hAim : Aimed g t frame)
    {d : Display}
    (hOn : (d.cursor t).OnScreen) :
    (d.sheet g).pos < Display.screenSize ∧
      d.screenX g = ((d.sheet g).pos % 80 : Nat) ∧
      d.screenY g = ((d.sheet g).pos / 80 : Nat) := by
  rw [hAim.onScreen_iff] at hOn
  simp only [Display.sheet, Display.numCols,
    Display.screenSize]
  omega

theorem sheet_upScrollForOneLine
    (hAim : Aimed g t frame)
    (d : Display)
    (hLeft : 0 ≤ d.screenX g)
    (hBelow : 1 ≤ d.screenY g) :
    (d.upScrollForOneLine g).sheet g =
      (d.sheet g).scroll 80 80 := by
  rcases hAim.upScrollForOneLine d with ⟨-, hX, hY⟩
  ext1
  · exact hAim.cells_upScrollForOneLine d _
  · simp only [Display.sheet, Logic.Sheet.scroll, hX, hY,
      Display.numCols]
    omega

/- The test for the scroll. -/
theorem screenY_eq_iff
    {d : Display}
    (hNear : Display.NearScreen g d) :
    d.screenY g = Display.numRows ↔
      Display.screenSize ≤ (d.sheet g).pos := by
  rcases hNear with ⟨hLeft, hRight, hAbove, hBelow⟩
  simp only [Display.sheet, Display.numCols,
    Display.numRows, Display.screenSize]
  omega

theorem sheet_scrollIfFull
    (hAim : Aimed g t frame)
    {d : Display}
    (hNear : Display.NearScreen g d) :
    (d.scrollIfFull g).sheet g =
      (d.sheet g).settle 80 80 Display.screenSize := by
  unfold Display.scrollIfFull Logic.Sheet.settle
  split
  next hFull =>
    rw [if_pos ((screenY_eq_iff hNear).mp hFull)]
    apply hAim.sheet_upScrollForOneLine d hNear.left
    rw [hFull]
    decide
  next hFull =>
    rw [if_neg (fun h =>
      hFull ((screenY_eq_iff hNear).mpr h))]

theorem sheet_calibIfViewed
    (d : Display) :
    (d.calibIfViewed g).sheet g = d.sheet g := by
  unfold Display.calibIfViewed
  split
  · rfl
  · rfl

/- A byte other than a backspace. -/
theorem sheet_nbPutc
    (hAim : Aimed g t frame)
    {c : UInt8}
    (hChar : c ≠ Display.backspace)
    (d : Display)
    (hOn : (d.cursor t).OnScreen) :
    (d.nbPutc g c).sheet g =
      (Display.write c (d.sheet g)).settle 80 80
        Display.screenSize := by
  rcases hAim.sheet_beforeScroll c d hOn with
    ⟨hSheet, hNear⟩
  rw [Display.nbPutc_eq g hChar, sheet_calibIfViewed,
    hAim.sheet_scrollIfFull hNear, hSheet]

/- The scrolls are those of the sheet. -/
theorem scrolls_iff
    (hAim : Aimed g t frame)
    {c : UInt8}
    (hChar : c ≠ Display.backspace)
    (d : Display)
    (hOn : (d.cursor t).OnScreen) :
    d.scrolls g c = true ↔
      Display.screenSize ≤
        (Display.write c (d.sheet g)).pos := by
  rcases hAim.sheet_beforeScroll c d hOn with
    ⟨hSheet, hNear⟩
  rw [Display.scrolls, decide_eq_true_eq, ← hSheet,
    ← screenY_eq_iff hNear]
  exact and_iff_right hChar

/- A backspace below the top left corner. -/
theorem sheet_putBackspace
    (hAim : Aimed g t frame)
    (d : Display)
    (hOn : (d.cursor t).OnScreen)
    (hPos : 0 < (d.sheet g).pos) :
    (d.nbPutc g Display.backspace).sheet g =
      (d.sheet g).erase Display.blankCell := by
  rw [hAim.onScreen_iff] at hOn
  simp only [Display.sheet, Display.numCols] at hPos
  have hBranch : d.nbPutc g Display.backspace =
      d.putBackspace g := rfl
  rw [hBranch, Display.putBackspace, if_neg (by omega)]
  dsimp only
  rw [sheet_calibIfViewed]
  -- the cursor before the cell is blanked
  obtain ⟨d₁, hd₁, hCells, hX, hPos₁⟩ :
      ∃ d₁,
        d₁ = (if d.screenX g = 0 then
          (d.setScreenX g Display.numCols).setScreenY g
            ((d.setScreenX g Display.numCols).screenY g - 1)
          else d) ∧
        d₁.cells g = d.cells g ∧
        (1 ≤ d₁.screenX g ∧ d₁.screenX g ≤ 80) ∧
        80 * d₁.screenY g + d₁.screenX g =
          80 * d.screenY g + d.screenX g := by
    refine ⟨_, rfl, ?_⟩
    split
    next hZero =>
      refine ⟨rfl, ?_, ?_⟩
      · simp [Display.numCols]
      · simp [Display.numCols, hZero]
        omega
    next hZero =>
      exact ⟨rfl, by omega, rfl⟩
  rw [← hd₁]
  have hIndex :
      Display.numCols * d₁.screenY g + d₁.screenX g - 1 =
        (((d.sheet g).pos - 1 : Nat) : Int) := by
    simp only [Display.sheet, Display.numCols]
    omega
  have hLt :
      (d.sheet g).pos - 1 < Display.screenSize := by
    simp only [Display.sheet, Display.numCols,
      Display.screenSize]
    omega
  rcases hAim.putCell_spec hIndex hLt Display.space d₁ with
    ⟨hPut, hX₂, hY₂⟩
  generalize d₁.putCell g _ Display.space = d₂
    at hPut hX₂ hY₂ ⊢
  ext1
  · rw [hCells] at hPut
    exact congrFun hPut _
  · simp only [Display.sheet, Logic.Sheet.erase,
      Display.screenX_setScreenX,
      Display.screenY_setScreenX, Display.numCols, hX₂, hY₂]
    omega

/- The cursor of a cleared screen. -/
theorem sheet_home
    (hAim : Aimed g t frame)
    (d : Display) :
    (((d.setScreenX g 0).setScreenY g
        Display.startHeight).calibCursor g).sheet g =
      { cell := d.cells g
        pos := 80 } := by
  ext1
  · rfl
  · simp [Display.sheet, Display.calibCursor,
      Display.screenX, Display.screenY, Display.setScreenX,
      Display.setScreenY, Display.numCols,
      Display.startHeight, hAim.screenX, hAim.screenY]

/- `clear` blanks the screen behind the terminal bar. -/
theorem sheet_clear
    (hAim : Aimed g t frame)
    (d : Display) :
    (d.clear g).sheet g =
      { cell := Logic.blit (d.cells g) 30 1970
          (fun _ => Display.blankCell)
        pos := 80 } := by
  have hLoop := hAim.cells_blanks_from 30 (n := 1970)
    (by decide) d
  rw [← hLoop]
  exact hAim.sheet_home _

end Aimed

end MartianPendulum
