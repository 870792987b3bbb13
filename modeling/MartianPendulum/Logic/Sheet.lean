import Mathlib.Logic.Function.Iterate
import Mathlib.Tactic.Ring
import MartianPendulum.Logic.Blit

/-
  Sheets of cells written in reading order.

  A sheet has a cell for every index and a position for the
  next one.  A screen of bounded size that scrolls below a
  fixed header shows a window of a sheet that never scrolls:
  each operation on the sheet is the same operation on the
  screen, and a scroll only moves the window.

  Key definitions include:
    * `Sheet`
    * `Sheet.settle`
    * `Sheet.ofList`
    * `Layout`, `Layout.put`, `Layout.newline`
    * `Sheet.Window`, `Sheet.Filling`
    * `shiftFrom`

  Key theorems include:
    * `Sheet.Filling.put`
    * `Sheet.Filling.newline`
    * `Sheet.Window.erase`
    * `Sheet.ofList_put`
    * `Sheet.ofList_newline`
    * `Layout.getD_cells`
    * `Sheet.iterate_erase_foldl_put`
    * `shiftFrom_append`
-/

------------------------------------------------------------
-- Sheets
------------------------------------------------------------

namespace Logic

variable {α : Type*}

/- Cells in reading order, and the next one to write. -/
structure Sheet (α : Type*) where
  cell : Nat → α
  pos : Nat

namespace Sheet

/- Write a cell. -/
def put
    (a : α)
    (s : Sheet α) : Sheet α :=
  { cell := Function.update s.cell s.pos a
    pos := s.pos + 1 }

/- Go to the start of the next line. -/
def newline
    (width : Nat)
    (s : Sheet α) : Sheet α :=
  { s with pos := (s.pos / width + 1) * width }

/- Blank the cell before the position. -/
def erase
    (blank : α)
    (s : Sheet α) : Sheet α :=
  { cell := Function.update s.cell (s.pos - 1) blank
    pos := s.pos - 1 }

/- Move what is below the header up by one line. -/
def scroll
    (width top : Nat)
    (s : Sheet α) : Sheet α :=
  { cell := fun i =>
      if i < top then s.cell i else s.cell (i + width)
    pos := s.pos - width }

/- Scroll if the position has left the screen. -/
def settle
    (width top size : Nat)
    (s : Sheet α) : Sheet α :=
  if size ≤ s.pos then s.scroll width top else s

/- A text below a header. -/
def ofList
    (top : Nat)
    (header : Nat → α)
    (blank : α)
    (l : List α) : Sheet α :=
  { cell := fun i =>
      if i < top then header i
      else l.getD (i - top) blank
    pos := top + l.length }

end Sheet

end Logic

------------------------------------------------------------
-- Texts
------------------------------------------------------------

namespace Logic

namespace Sheet

variable {α : Type*}
variable {top : Nat}
variable {header : Nat → α}
variable {blank : α}

@[ext] theorem ext
    {s s' : Sheet α}
    (hCell : ∀ i, s.cell i = s'.cell i)
    (hPos : s.pos = s'.pos) :
    s = s' := by
  cases s with
  | mk cell pos =>
      cases s' with
      | mk cell' pos' =>
          have hCell : cell = cell' := funext hCell
          subst hCell hPos
          rfl

theorem ofList_put
    (l : List α)
    (a : α) :
    (ofList top header blank l).put a =
      ofList top header blank (l ++ [a]) := by
  ext i
  · simp only [put, ofList]
    by_cases hi : i = top + l.length
    · subst hi
      rw [Function.update_self, if_neg (by omega)]
      simp
    · rw [Function.update_of_ne hi]
      by_cases hTop : i < top
      · rw [if_pos hTop, if_pos hTop]
      · rw [if_neg hTop, if_neg hTop]
        rcases Nat.lt_or_ge (i - top) l.length with
          hIn | hOut
        · simp only [List.getD_eq_getElem?_getD,
            List.getElem?_append_left hIn]
        · have hLong : (l ++ [a]).length ≤ i - top := by
            rw [List.length_append, List.length_singleton]
            omega
          simp only [List.getD_eq_getElem?_getD,
            List.getElem?_eq_none hOut,
            List.getElem?_eq_none hLong]
  · simp only [put, ofList, List.length_append,
      List.length_singleton]
    omega

/- A new line leaves blanks behind the last one. -/
theorem ofList_newline
    {width : Nat}
    (hWidth : 0 < width)
    {lines : Nat}
    (hTop : top = width * lines)
    (l : List α) :
    (ofList top header blank l).newline width =
      ofList top header blank
        (l ++ List.replicate (width - l.length % width)
          blank) := by
  ext i
  · simp only [newline, ofList]
    split
    · rfl
    · simp only [List.getD_eq_getElem?_getD]
      rcases Nat.lt_or_ge (i - top) l.length with
        hIn | hOut
      · rw [List.getElem?_append_left hIn]
      · rw [List.getElem?_append_right hOut,
          List.getElem?_eq_none hOut,
          List.getElem?_replicate]
        split
        · rfl
        · rfl
  · have hSplit := Nat.div_add_mod l.length width
    have hLast := Nat.mod_lt l.length hWidth
    have hDiv : (top + l.length) / width =
        lines + l.length / width := by
      rw [hTop, Nat.mul_add_div hWidth]
    simp only [newline, ofList, hDiv, List.length_append,
      List.length_replicate]
    have hMul : (lines + l.length / width + 1) * width =
        width * lines + width * (l.length / width) +
          width := by
      ring
    rw [hMul, ← hTop]
    omega

end Sheet

end Logic

------------------------------------------------------------
-- Rows
------------------------------------------------------------

namespace Logic

variable {α : Type*}
variable {width : Nat}

/-
  A text laid out in rows: those that are ended, and the one
  being written, which has room for one more.
-/
structure Layout (α : Type*) (width : Nat) where
  ended : List (List α)
  last : List α
  fits : ∀ row ∈ ended, row.length ≤ width
  short : last.length < width

namespace Layout

def empty
    (hWidth : 0 < width) : Layout α width :=
  { ended := []
    last := []
    fits := nofun
    short := hWidth }

def rows
    (l : Layout α width) : List (List α) :=
  l.ended ++ [l.last]

/- Start a new row behind this one. -/
def endRow
    (l : Layout α width)
    (row : List α)
    (hRow : row.length ≤ width) : Layout α width :=
  { ended := l.ended ++ [row]
    last := []
    fits := by
      intro row' hMem
      rcases List.mem_append.mp hMem with h | h
      · exact l.fits row' h
      · rw [List.mem_singleton.mp h]
        exact hRow
    short := Nat.zero_lt_of_lt l.short }

/- A row that gets full is ended at once. -/
def put
    (a : α)
    (l : Layout α width) : Layout α width :=
  if hFull : l.last.length + 1 = width then
    l.endRow (l.last ++ [a]) (by simp [hFull])
  else
    { l with
      last := l.last ++ [a]
      short := by
        have hShort := l.short
        simp only [List.length_append,
          List.length_singleton]
        omega }

def newline
    (l : Layout α width) : Layout α width :=
  l.endRow l.last (Nat.le_of_lt l.short)

/- The rows one after the other, all but the last filled. -/
def cells
    (blank : α)
    (l : Layout α width) : List α :=
  l.ended.flatMap
    (fun row =>
      row ++ List.replicate (width - row.length) blank) ++
    l.last

variable {blank : α}

theorem length_cells
    (l : Layout α width) :
    (l.cells blank).length =
      width * l.ended.length + l.last.length := by
  have hEnded : ∀ rows : List (List α),
      (∀ row ∈ rows, row.length ≤ width) →
      (rows.flatMap (fun row => row ++
        List.replicate (width - row.length) blank)).length =
        width * rows.length := by
    intro rows hFits
    induction rows with
    | nil => rfl
    | cons row rows ih =>
        have hRow := hFits row List.mem_cons_self
        rw [List.flatMap_cons, List.length_append,
          ih (fun r hr =>
            hFits r (List.mem_cons_of_mem _ hr)),
          List.length_append, List.length_replicate,
          List.length_cons, Nat.mul_succ]
        omega
  rw [cells, List.length_append, hEnded l.ended l.fits]

theorem cells_endRow
    (l : Layout α width)
    {row : List α}
    (hRow : row.length ≤ width) :
    (l.endRow row hRow).cells blank =
      l.ended.flatMap
        (fun row => row ++
          List.replicate (width - row.length) blank) ++
        (row ++
          List.replicate (width - row.length) blank) := by
  simp [cells, endRow]

theorem cells_put
    (a : α)
    (l : Layout α width) :
    (l.put a).cells blank = l.cells blank ++ [a] := by
  unfold put
  split
  next hFull =>
    have hLength : (l.last ++ [a]).length = width := by
      simp [hFull]
    rw [cells_endRow, hLength, Nat.sub_self,
      List.replicate_zero, List.append_nil, cells,
      List.append_assoc]
  next hFull =>
    simp only [cells, List.append_assoc]

theorem cells_newline
    (l : Layout α width) :
    l.newline.cells blank =
      l.cells blank ++
        List.replicate
          (width - (l.cells blank).length % width)
          blank := by
  rw [length_cells, Nat.mul_add_mod,
    Nat.mod_eq_of_lt l.short, newline, cells_endRow, cells,
    List.append_assoc]

/- A cell is the one of its row. -/
theorem getD_cells
    (l : Layout α width)
    (row : Nat)
    {col : Nat}
    (hCol : col < width) :
    (l.cells blank).getD (width * row + col) blank =
      (l.rows.getD row []).getD col blank := by
  have hShort := l.short
  unfold cells rows
  have hFits := l.fits
  generalize l.ended = ended at hFits ⊢
  simp only [List.getD_eq_getElem?_getD]
  -- on the rows that are ended
  induction ended generalizing row with
  | nil =>
      cases row with
      | zero => simp
      | succ row =>
          have hBehind :
              l.last.length ≤ width * (row + 1) + col := by
            rw [Nat.mul_succ]
            omega
          simp [List.getElem?_eq_none hBehind]
  | cons first ended ih =>
      have hFirst := hFits first List.mem_cons_self
      have hLength :
          (first ++ List.replicate (width - first.length)
            blank).length = width := by
        simp [hFirst]
      rw [List.flatMap_cons, List.append_assoc]
      cases row with
      | zero =>
          rw [Nat.mul_zero, Nat.zero_add,
            List.getElem?_append_left (by omega)]
          rcases Nat.lt_or_ge col first.length with
            hIn | hOut
          · simp [List.getElem?_append_left hIn]
          · rw [List.getElem?_append_right hOut,
              List.getElem?_replicate, if_pos (by omega)]
            simp [List.getElem?_eq_none hOut]
      | succ row =>
          have hNext : width * (row + 1) + col - width =
              width * row + col := by
            rw [Nat.mul_succ]
            omega
          rw [List.getElem?_append_right
              (by rw [hLength, Nat.mul_succ]; omega),
            hLength, hNext,
            ih row (fun r hr =>
              hFits r (List.mem_cons_of_mem _ hr))]
          rfl

end Layout

end Logic

------------------------------------------------------------
-- Undone Writing
------------------------------------------------------------

namespace Logic

namespace Sheet

variable {α : Type*}

theorem pos_foldl_put
    (l : List α)
    (s : Sheet α) :
    (l.foldl (fun s a => s.put a) s).pos =
      s.pos + l.length := by
  induction l generalizing s with
  | nil => rfl
  | cons a l ih =>
      rw [List.foldl_cons, ih, List.length_cons]
      simp only [put]
      omega

/- Writing leaves the cells before and behind alone. -/
theorem cell_foldl_put
    (l : List α)
    (s : Sheet α)
    {i : Nat}
    (hi : ¬ (s.pos ≤ i ∧ i < s.pos + l.length)) :
    (l.foldl (fun s a => s.put a) s).cell i = s.cell i := by
  induction l generalizing s with
  | nil => rfl
  | cons a l ih =>
      rw [List.length_cons] at hi
      rw [List.foldl_cons, ih]
      · exact Function.update_of_ne (by omega) _ _
      · simp only [put]
        omega

/- Erasing blanks the cells that it goes back over. -/
theorem iterate_erase
    (blank : α)
    (n : Nat)
    {s : Sheet α}
    (hPos : n ≤ s.pos) :
    (erase blank)^[n] s =
      { cell := blit s.cell (s.pos - n) n (fun _ => blank)
        pos := s.pos - n } := by
  induction n with
  | zero => simp
  | succ n ih =>
      rw [Function.iterate_succ_apply', ih (by omega)]
      ext i
      · simp only [erase]
        by_cases hi : i = s.pos - n - 1
        · rw [hi, Function.update_self,
            blit_apply_of_inside _ _ (by omega)]
        · rw [Function.update_of_ne hi]
          by_cases hIn : s.pos - n ≤ i ∧ i < s.pos - n + n
          · rw [blit_apply_of_inside _ _ hIn,
              blit_apply_of_inside _ _ (by omega)]
          · rw [blit_apply_of_outside _ _ hIn,
              blit_apply_of_outside _ _ (by omega)]
      · simp only [erase]
        omega

/-
  Erasing as many cells as were written leaves blanks in
  their place.
-/
theorem iterate_erase_foldl_put
    (blank : α)
    (l : List α)
    (s : Sheet α) :
    (erase blank)^[l.length]
        (l.foldl (fun s a => s.put a) s) =
      { cell := blit s.cell s.pos l.length (fun _ => blank)
        pos := s.pos } := by
  have hPos := pos_foldl_put l s
  rw [iterate_erase blank _ (by omega), hPos,
    Nat.add_sub_cancel]
  ext i
  · dsimp only
    by_cases hi : s.pos ≤ i ∧ i < s.pos + l.length
    · rw [blit_apply_of_inside _ _ hi,
        blit_apply_of_inside _ _ hi]
    · rw [blit_apply_of_outside _ _ hi,
        blit_apply_of_outside _ _ hi, cell_foldl_put l s hi]
  · rfl

end Sheet

end Logic

------------------------------------------------------------
-- Windows
------------------------------------------------------------

namespace Logic

namespace Sheet

variable {α : Type*}

/-
  After `n` scrolls the screen shows the header of the paper
  and the paper from `n` lines further down.
-/
structure Window
    (width top size n : Nat)
    (paper screen : Sheet α) : Prop where
  header : ∀ i, i < top → screen.cell i = paper.cell i
  cell : ∀ i, top ≤ i →
    screen.cell i = paper.cell (i + width * n)
  pos : paper.pos = screen.pos + width * n
  low : top ≤ screen.pos
  high : screen.pos < size

/-
  A screen that has scrolled is at its last line, as long as
  nothing is erased.
-/
structure Filling
    (width top size n : Nat)
    (paper screen : Sheet α) : Prop
    extends Window width top size n paper screen where
  full : n = 0 ∨ size ≤ screen.pos + width

/- A screen that has not scrolled shows itself. -/
theorem Filling.refl
    {width top size : Nat}
    {s : Sheet α}
    (hLow : top ≤ s.pos)
    (hHigh : s.pos < size) :
    Filling width top size 0 s s :=
  ⟨⟨fun _ _ => rfl, fun _ _ => rfl, rfl, hLow, hHigh⟩,
    Or.inl rfl⟩

/- How far the screen has scrolled, by the lines written. -/
theorem Filling.scrolled
    {width top rows n : Nat}
    {paper screen : Sheet α}
    (hWidth : 0 < width)
    (hFilling : Filling width top (width * rows) n paper
      screen) :
    n = paper.pos / width + 1 - rows ∧
      screen.pos / width = paper.pos / width - n := by
  have hHigh : screen.pos / width < rows := by
    rw [Nat.div_lt_iff_lt_mul hWidth, Nat.mul_comm]
    exact hFilling.high
  have hPos : paper.pos / width =
      screen.pos / width + n := by
    rw [hFilling.pos, Nat.add_mul_div_left _ _ hWidth]
  have hFull : n = 0 ∨ rows ≤ screen.pos / width + 1 := by
    rcases hFilling.full with hZero | hFull
    · exact Or.inl hZero
    · right
      rw [← Nat.add_div_right _ hWidth,
        Nat.le_div_iff_mul_le hWidth, Nat.mul_comm]
      exact hFull
  generalize screen.pos / width = line at *
  generalize paper.pos / width = lines at *
  omega

section Steps

variable {width top size n : Nat}
variable {paper screen : Sheet α}

/- The window after the scroll that a step needs. -/
theorem Filling.of_settle
    (hRoom : top + width ≤ size)
    (hHeader : ∀ i, i < top → screen.cell i = paper.cell i)
    (hCell : ∀ i, top ≤ i →
      screen.cell i = paper.cell (i + width * n))
    (hPos : paper.pos = screen.pos + width * n)
    (hLow : top ≤ screen.pos)
    (hHigh : screen.pos ≤ size)
    (hWidth : 0 < width)
    (hFull : n = 0 ∨ size ≤ screen.pos + width) :
    Filling width top size
      (n + if size ≤ screen.pos then 1 else 0)
      paper (screen.settle width top size) := by
  unfold settle
  by_cases hEnd : size ≤ screen.pos
  · have hNext : width * (n + 1) = width + width * n := by
      ring
    rw [if_pos hEnd, if_pos hEnd]
    refine ⟨⟨?_, ?_, ?_, ?_, ?_⟩, ?_⟩
    · intro i hi
      simp only [scroll]
      rw [if_pos hi]
      exact hHeader i hi
    · intro i hi
      simp only [scroll]
      rw [if_neg (by omega), hCell _ (by omega), hNext]
      congr 1
      omega
    · simp only [scroll]
      omega
    · simp only [scroll]
      omega
    · simp only [scroll]
      omega
    · simp only [scroll]
      omega
  · rw [if_neg hEnd, if_neg hEnd]
    exact ⟨⟨hHeader, hCell, hPos, hLow,
      Nat.lt_of_not_le hEnd⟩, hFull⟩

theorem Filling.put
    (hFilling : Filling width top size n paper screen)
    (hRoom : top + width ≤ size)
    (hWidth : 0 < width)
    (a : α) :
    Filling width top size
      (n + if size ≤ (screen.put a).pos then 1 else 0)
      (paper.put a)
      ((screen.put a).settle width top size) := by
  have hPos := hFilling.pos
  have hLow := hFilling.low
  have hHigh := hFilling.high
  have hFull := hFilling.full
  apply Filling.of_settle hRoom _ _ _ _ _ hWidth
  · simp only [Sheet.put]
    omega
  · intro i hi
    simp only [Sheet.put]
    rw [Function.update_of_ne (by omega),
      Function.update_of_ne (by omega)]
    exact hFilling.header i hi
  · intro i hi
    simp only [Sheet.put]
    by_cases hHere : i = screen.pos
    · rw [hHere, ← hPos, Function.update_self,
        Function.update_self]
    · rw [Function.update_of_ne hHere,
        Function.update_of_ne (by omega)]
      exact hFilling.cell i hi
  · simp only [Sheet.put]
    omega
  · simp only [Sheet.put]
    omega
  · simp only [Sheet.put]
    omega

theorem Filling.newline
    {rows : Nat}
    (hSize : size = width * rows)
    (hFilling : Filling width top size n paper screen)
    (hRoom : top + width ≤ size)
    (hWidth : 0 < width) :
    Filling width top size
      (n + if size ≤ (screen.newline width).pos then 1
        else 0)
      (paper.newline width)
      ((screen.newline width).settle width top size) := by
  have hPos := hFilling.pos
  have hLow := hFilling.low
  have hHigh := hFilling.high
  have hFull := hFilling.full
  have hSplit := Nat.div_add_mod screen.pos width
  have hLast := Nat.mod_lt screen.pos hWidth
  have hNext : (screen.pos / width + 1) * width =
      width * (screen.pos / width) + width := by
    ring
  have hRow : screen.pos / width < rows := by
    rw [Nat.div_lt_iff_lt_mul hWidth, Nat.mul_comm, ← hSize]
    exact hHigh
  have hLe : (screen.pos / width + 1) * width ≤ size := by
    rw [hSize, Nat.mul_comm width]
    exact Nat.mul_le_mul_right width hRow
  apply Filling.of_settle hRoom _ _ _ _ _ hWidth
  · simp only [Sheet.newline]
    omega
  · exact hFilling.header
  · exact hFilling.cell
  · simp only [Sheet.newline]
    rw [hPos, Nat.add_mul_div_left _ _ hWidth]
    ring
  · simp only [Sheet.newline]
    omega
  · exact hLe

/- An erased cell, as long as it is on the screen. -/
theorem Window.erase
    (hWindow : Window width top size n paper screen)
    (hAbove : top < screen.pos)
    (blank : α) :
    Window width top size n (paper.erase blank)
      (screen.erase blank) := by
  have hPos := hWindow.pos
  have hHigh := hWindow.high
  refine ⟨?_, ?_, ?_, ?_, ?_⟩
  · intro i hi
    simp only [Sheet.erase]
    rw [Function.update_of_ne (by omega),
      Function.update_of_ne (by omega)]
    exact hWindow.header i hi
  · intro i hi
    simp only [Sheet.erase]
    by_cases hHere : i = screen.pos - 1
    · have hThere : paper.pos - 1 = i + width * n := by
        omega
      rw [hThere, Function.update_self, hHere,
        Function.update_self]
    · rw [Function.update_of_ne hHere,
        Function.update_of_ne (by omega)]
      exact hWindow.cell i hi
  · simp only [Sheet.erase]
    omega
  · simp only [Sheet.erase]
    omega
  · simp only [Sheet.erase]
    omega

end Steps

end Sheet

end Logic

------------------------------------------------------------
-- Moves in Place
------------------------------------------------------------

namespace Logic

variable {α : Type*}

/- `n` cells from `pos` on get those `width` further on. -/
def shiftFrom
    (width pos n : Nat)
    (cell : Nat → α) : Nat → α :=
  fun i =>
    if pos ≤ i ∧ i < pos + n then cell (i + width)
    else cell i

@[simp] theorem shiftFrom_zero
    (width pos : Nat)
    (cell : Nat → α) :
    shiftFrom width pos 0 cell = cell := by
  funext i
  exact if_neg (by omega)

/-
  A move that goes on where another one ended is one longer
  move: no cell is read after it was written.
-/
theorem shiftFrom_append
    {width : Nat}
    (pos n m : Nat)
    (cell : Nat → α) :
    shiftFrom width (pos + n) m
        (shiftFrom width pos n cell) =
      shiftFrom width pos (n + m) cell := by
  funext i
  by_cases hSecond : pos + n ≤ i ∧ i < pos + n + m
  · have hAfter : ¬ (pos ≤ i + width ∧
        i + width < pos + n) := by
      omega
    have hWhole : pos ≤ i ∧ i < pos + (n + m) := by omega
    simp only [shiftFrom, hSecond, hAfter, hWhole, and_self,
      if_true, if_false]
  · by_cases hFirst : pos ≤ i ∧ i < pos + n
    · have hWhole : pos ≤ i ∧ i < pos + (n + m) := by omega
      simp only [shiftFrom, hSecond, hFirst, hWhole,
        and_self, if_true, if_false]
    · have hWhole : ¬ (pos ≤ i ∧ i < pos + (n + m)) := by
        omega
      simp only [shiftFrom, hSecond, hFirst, hWhole,
        if_false]

/- The next cell of a move that runs upwards. -/
theorem shiftFrom_succ
    {width : Nat}
    (pos n : Nat)
    (cell : Nat → α) :
    Function.update (shiftFrom width pos n cell) (pos + n)
        (shiftFrom width pos n cell (pos + n + width)) =
      shiftFrom width pos (n + 1) cell := by
  rw [← shiftFrom_append]
  funext i
  by_cases hi : i = pos + n
  · rw [hi, Function.update_self]
    exact (if_pos (by omega)).symm
  · rw [Function.update_of_ne hi]
    exact (if_neg (by omega)).symm

end Logic
