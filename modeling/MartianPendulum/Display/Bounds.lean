import MartianPendulum.Logic.Run
import MartianPendulum.Display.Screen

/-
  The screen routines stay on the screen.

  The accesses of a call to the bytes of video memory are
  listed beside the call, and carrying them out in order
  gives the memory that the call leaves.  For a cursor on
  the screen all of them are within the 4000 bytes of the
  screen, and the cursor is on the screen again afterwards.
  Nothing is assumed of the page tables.

  Key definitions include:
    * `Display.VideoAccess`
    * `Display.nbPutcAccesses`
    * `Display.clearAccesses`
    * `Kernel.consoleCall`
    * `Kernel.ConsoleReady`

  Key theorems include:
    * `Display.mem_nbPutc`
    * `Display.nbPutcAccesses_inside`
    * `Display.places_nbPutc`
    * `console_calls_stay_on_screen`
-/

------------------------------------------------------------
-- Accesses to Video Memory
------------------------------------------------------------

namespace MartianPendulum

namespace Display

/-
  A byte of video memory written, or copied within it.  The
  arguments are indices into `video_mem`.
-/
inductive VideoAccess where
| write (index : Int) (b : UInt8)
| copy (toIndex fromIndex : Int)

namespace VideoAccess

/- The indices that are written or read. -/
def indices :
    VideoAccess → List Int
| write index _ => [index]
| copy toIndex fromIndex => [toIndex, fromIndex]

def perform
    (g : Control)
    (d : Display) :
    VideoAccess → Display
| write index b => d.store g (videoStart + index) b
| copy toIndex fromIndex =>
    d.store g (videoStart + toIndex)
      (d.load g (videoStart + fromIndex))

/- The access is to the 4000 bytes of the screen. -/
def Inside
    (a : VideoAccess) : Prop :=
  ∀ index ∈ a.indices, 0 ≤ index ∧ index ≤ 3999

end VideoAccess

/- The accesses of `putCell` and `copyCell`. -/
def putCellAccesses
    (index : Int)
    (c : UInt8) : List VideoAccess :=
  [.write (index * 2) c, .write (index * 2 + 1) attrib]

def copyCellAccesses
    (toIndex fromIndex : Int) : List VideoAccess :=
  [.copy (toIndex * 2) (fromIndex * 2),
    .copy (toIndex * 2 + 1) (fromIndex * 2 + 1)]

/- The accesses of the two loops of the scroll. -/
def scrollRowAccesses
    (row : Nat) : List VideoAccess :=
  (List.range 80).flatMap
    (fun (col : Nat) =>
      copyCellAccesses (row * numCols + col)
        ((row + 1) * numCols + col))

def lastRowAccesses : List VideoAccess :=
  (List.range 80).flatMap
    (fun (i : Nat) =>
      putCellAccesses ((numRows - 1) * numCols + i) space)

/- The accesses of `up_scroll_for_one_line`. -/
def upScrollAccesses : List VideoAccess :=
  (List.range' 1 23).flatMap scrollRowAccesses ++
    lastRowAccesses

/- The accesses of the scroll at the end of `nb_putc`. -/
def scrollAccesses
    (g : Control)
    (d : Display) : List VideoAccess :=
  if d.screenY g = numRows then upScrollAccesses else []

/- The accesses of the branch for `\b`. -/
def backspaceAccesses
    (g : Control)
    (d : Display) : List VideoAccess :=
  if d.screenX g = 0 ∧ d.screenY g = 0 then []
  else
    let d :=
      if d.screenX g = 0 then
        let d := d.setScreenX g numCols
        d.setScreenY g (d.screenY g - 1)
      else d
    putCellAccesses
      (numCols * d.screenY g + d.screenX g - 1) space

/- The accesses of the branch for printable characters. -/
def glyphAccesses
    (g : Control)
    (c : UInt8)
    (d : Display) : List VideoAccess :=
  putCellAccesses (numCols * d.screenY g + d.screenX g) c ++
    scrollAccesses g (d.glyphPut g c)

/- The accesses of `nb_putc`. -/
def nbPutcAccesses
    (g : Control)
    (c : UInt8)
    (d : Display) : List VideoAccess :=
  if c = newline ∨ c = carriageReturn then
    scrollAccesses g (d.lineEnded g)
  else if c = backspace then backspaceAccesses g d
  else if c = 0 then glyphAccesses g space d
  else glyphAccesses g c d

/- The accesses of `clear`. -/
def clearAccesses : List VideoAccess :=
  (List.range' 30 1970).flatMap
    (fun (i : Nat) => putCellAccesses i space)

/- Accesses carried out in order. -/
def performAll
    (g : Control)
    (accesses : List VideoAccess)
    (d : Display) : Display :=
  accesses.foldl (VideoAccess.perform g) d

end Display

end MartianPendulum

------------------------------------------------------------
-- The Accesses Account for the Memory
------------------------------------------------------------

namespace MartianPendulum

namespace Display

theorem performAll_append
    (g : Control)
    (first second : List VideoAccess)
    (d : Display) :
    performAll g (first ++ second) d =
      performAll g second (performAll g first d) :=
  List.foldl_append

theorem putCell_eq_performAll
    (g : Control)
    (index : Int)
    (c : UInt8)
    (d : Display) :
    d.putCell g index c =
      performAll g (putCellAccesses index c) d := by
  simp only [putCell, performAll, putCellAccesses,
    List.foldl_cons, List.foldl_nil, VideoAccess.perform,
    add_assoc]

theorem copyCell_eq_performAll
    (g : Control)
    (toIndex fromIndex : Int)
    (d : Display) :
    d.copyCell g toIndex fromIndex =
      performAll g (copyCellAccesses toIndex fromIndex)
        d := by
  simp only [copyCell, performAll, copyCellAccesses,
    List.foldl_cons, List.foldl_nil, VideoAccess.perform,
    add_assoc]

/- A loop whose passes are accesses is their sequence. -/
theorem foldl_eq_performAll
    {α : Type}
    {g : Control}
    {body : Display → α → Display}
    {accesses : α → List VideoAccess}
    (hBody : ∀ d i,
      body d i = performAll g (accesses i) d)
    (l : List α)
    (d : Display) :
    l.foldl body d =
      performAll g (l.flatMap accesses) d := by
  induction l generalizing d with
  | nil => rfl
  | cons i l ih =>
      rw [List.foldl_cons, ih, hBody, List.flatMap_cons,
        performAll_append]

/- An access reads and writes memory only. -/
theorem mem_store_congr
    (g : Control)
    (v : Int)
    (b : UInt8)
    {d d' : Display}
    (hMem : d.mem = d'.mem) :
    (d.store g v b).mem = (d'.store g v b).mem := by
  unfold store
  cases g.walk (u32 v) with
  | none => exact hMem
  | some p => exact congrArg (Function.update · p b) hMem

theorem load_congr
    (g : Control)
    (v : Int)
    {d d' : Display}
    (hMem : d.mem = d'.mem) :
    d.load g v = d'.load g v := by
  unfold load
  rw [hMem]

theorem mem_performAll_congr
    (g : Control)
    (accesses : List VideoAccess)
    {d d' : Display}
    (hMem : d.mem = d'.mem) :
    (performAll g accesses d).mem =
      (performAll g accesses d').mem := by
  induction accesses generalizing d d' with
  | nil => exact hMem
  | cons a accesses ih =>
      apply ih
      cases a with
      | write index b => exact mem_store_congr g _ b hMem
      | copy toIndex fromIndex =>
          have hLoad := load_congr g
            (videoStart + fromIndex) hMem
          simp only [VideoAccess.perform, hLoad]
          exact mem_store_congr g _ _ hMem

theorem mem_calibIfViewed
    (g : Control)
    (d : Display) :
    (d.calibIfViewed g).mem = d.mem := by
  unfold calibIfViewed
  split
  · rfl
  · rfl

/- The scroll moves the cursor between its two loops. -/
theorem upScrollForOneLine_eq
    (g : Control)
    (d : Display) :
    d.upScrollForOneLine g =
      let d := performAll g
        ((List.range' 1 23).flatMap scrollRowAccesses) d
      performAll g lastRowAccesses
        (d.setScreenY g (d.screenY g - 1)) := by
  have hRow : ∀ (d : Display) (row : Nat),
      scrollRow g d row =
        performAll g (scrollRowAccesses row) d := by
    intro d row
    exact foldl_eq_performAll
      (fun d (col : Nat) => copyCell_eq_performAll g
        (row * numCols + col) ((row + 1) * numCols + col) d)
      _ d
  unfold upScrollForOneLine lastRowAccesses
  dsimp only
  rw [foldl_eq_performAll hRow,
    foldl_eq_performAll
      (fun d (i : Nat) => putCell_eq_performAll g
        ((numRows - 1) * numCols + i) space d)]

theorem mem_setScreenY
    (g : Control)
    (y : Int)
    (d : Display) :
    (d.setScreenY g y).mem = d.mem := rfl

theorem mem_upScrollForOneLine
    (g : Control)
    (d : Display) :
    (d.upScrollForOneLine g).mem =
      (performAll g upScrollAccesses d).mem := by
  rw [upScrollForOneLine_eq]
  unfold upScrollAccesses
  rw [performAll_append]
  exact mem_performAll_congr g _ (mem_setScreenY g _ _)

theorem mem_scrollIfFull
    (g : Control)
    (d : Display) :
    (d.scrollIfFull g).mem =
      (performAll g (scrollAccesses g d) d).mem := by
  unfold scrollIfFull scrollAccesses
  split
  · exact mem_upScrollForOneLine g d
  · rfl

theorem mem_glyphPut
    (g : Control)
    (c : UInt8)
    (d : Display) :
    (d.glyphPut g c).mem =
      (d.putCell g
        (numCols * d.screenY g + d.screenX g) c).mem := by
  unfold glyphPut
  dsimp only
  split
  · rfl
  · rfl

theorem mem_putGlyph
    (g : Control)
    (c : UInt8)
    (d : Display) :
    (d.putGlyph g c).mem =
      (performAll g (glyphAccesses g c d) d).mem := by
  have hPut : d.putGlyph g c =
      ((d.glyphPut g c).scrollIfFull g).calibIfViewed g :=
    rfl
  rw [hPut, mem_calibIfViewed, mem_scrollIfFull]
  unfold glyphAccesses
  rw [performAll_append, ← putCell_eq_performAll]
  exact mem_performAll_congr g _ (mem_glyphPut g c d)

theorem mem_putBackspace
    (g : Control)
    (d : Display) :
    (d.putBackspace g).mem =
      (performAll g (backspaceAccesses g d) d).mem := by
  unfold putBackspace backspaceAccesses
  split
  · rw [mem_calibIfViewed]
    rfl
  · dsimp only
    rw [mem_calibIfViewed]
    split
    · rw [putCell_eq_performAll]
      exact mem_performAll_congr g _ rfl
    · rw [putCell_eq_performAll]
      rfl

/- `nb_putc` carries out its accesses. -/
theorem mem_nbPutc
    (g : Control)
    (c : UInt8)
    (d : Display) :
    (d.nbPutc g c).mem =
      (performAll g (nbPutcAccesses g c d) d).mem := by
  unfold nbPutc nbPutcAccesses
  split
  · have hPut : d.putNewline g =
        ((d.lineEnded g).scrollIfFull g).calibIfViewed g :=
      rfl
    rw [hPut, mem_calibIfViewed, mem_scrollIfFull]
    exact mem_performAll_congr g _ rfl
  · split
    · exact mem_putBackspace g d
    · split
      · exact mem_putGlyph g space d
      · exact mem_putGlyph g c d

/- `clear` carries out its accesses. -/
theorem mem_clear
    (g : Control)
    (d : Display) :
    (d.clear g).mem =
      (performAll g clearAccesses d).mem := by
  have hHome : ∀ d : Display,
      (((d.setScreenX g 0).setScreenY g
        startHeight).calibCursor g).mem = d.mem :=
    fun _ => rfl
  unfold clear clearAccesses
  rw [← foldl_eq_performAll
    (fun d (i : Nat) => putCell_eq_performAll g i space d)]
  exact hHome _

end Display

end MartianPendulum

------------------------------------------------------------
-- Cursor Moves
------------------------------------------------------------

namespace MartianPendulum

namespace Display

/-
  From `d` to `d'` the cursor goes to column `x` and row
  `y`, and no other cursor moves.  The two pointers need not
  point to the same terminal.
-/
def Places
    (g : Control)
    (x y : Int)
    (d d' : Display) : Prop :=
  ((d.setScreenX g x).setScreenY g y).cursor = d'.cursor

/- The cursor is on the screen. -/
def CursorInside
    (g : Control)
    (d : Display) : Prop :=
  0 ≤ d.screenX g ∧ d.screenX g < 80 ∧
    0 ≤ d.screenY g ∧ d.screenY g < 25

namespace Places

variable {g : Control}
variable {x y : Int}
variable {d d' : Display}

theorem start
    (g : Control)
    (d : Display) :
    Places g (d.screenX g) (d.screenY g) d d := by
  unfold Places setScreenX setScreenY screenX screenY
  funext t
  simp only [Function.update_eq_self]

theorem of_cursor
    {d'' : Display}
    (hPlace : Places g x y d d')
    (hCursor : d''.cursor = d'.cursor) :
    Places g x y d d'' :=
  hPlace.trans hCursor.symm

theorem setScreenX
    (hPlace : Places g x y d d')
    (x' : Int) :
    Places g x' y d (d'.setScreenX g x') := by
  unfold Places at hPlace ⊢
  unfold Display.setScreenX Display.setScreenY at hPlace ⊢
  dsimp only at hPlace ⊢
  rw [← hPlace]
  funext t
  by_cases hX : t = g.screenXPtr
  · by_cases hSame : g.screenXPtr = g.screenYPtr
    · simp [hX, hSame]
    · simp [hX, hSame]
  · by_cases hY : t = g.screenYPtr
    · subst hY
      simp [hX]
    · simp [hX, hY]

theorem setScreenY
    (hPlace : Places g x y d d')
    (y' : Int) :
    Places g x y' d (d'.setScreenY g y') := by
  unfold Places at hPlace ⊢
  unfold Display.setScreenX Display.setScreenY at hPlace ⊢
  dsimp only at hPlace ⊢
  rw [← hPlace]
  simp

theorem screenX
    (hPlace : Places g x y d d') :
    d'.screenX g = x := by
  have hHere : d'.screenX g =
      ((d.setScreenX g x).setScreenY g y).screenX g := by
    unfold Display.screenX
    rw [← hPlace]
  simpa using hHere

theorem screenY
    (hPlace : Places g x y d d') :
    d'.screenY g = y := by
  have hHere : d'.screenY g =
      ((d.setScreenX g x).setScreenY g y).screenY g := by
    unfold Display.screenY
    rw [← hPlace]
  simpa using hHere

/- Any cursor on the screen stays on it. -/
theorem onScreen
    (hPlace : Places g x y d d')
    (hX : 0 ≤ x ∧ x < 80)
    (hY : 0 ≤ y ∧ y < 25)
    {t : Tid}
    (hOn : (d.cursor t).OnScreen) :
    (d'.cursor t).OnScreen := by
  unfold Cursor.OnScreen at hOn ⊢
  rw [← hPlace]
  unfold Display.setScreenX Display.setScreenY
  by_cases hToX : t = g.screenXPtr
  · by_cases hToY : t = g.screenYPtr
    · simp [← hToX, ← hToY, hX, hY]
    · subst hToX
      simp [hToY, hX, hOn]
  · by_cases hToY : t = g.screenYPtr
    · subst hToY
      simp [hToX, hY, hOn]
    · simp [hToX, hToY, hOn]

theorem cursorInside
    (hPlace : Places g x y d d')
    (hX : 0 ≤ x ∧ x < 80)
    (hY : 0 ≤ y ∧ y < 25) :
    d'.CursorInside g := by
  unfold CursorInside
  rw [hPlace.screenX, hPlace.screenY]
  exact ⟨hX.1, hX.2, hY.1, hY.2⟩

end Places

theorem cursor_store
    (g : Control)
    (v : Int)
    (b : UInt8)
    (d : Display) :
    (d.store g v b).cursor = d.cursor := by
  unfold store
  split
  · rfl
  · rfl

theorem cursor_performAll
    (g : Control)
    (accesses : List VideoAccess)
    (d : Display) :
    (performAll g accesses d).cursor = d.cursor := by
  induction accesses generalizing d with
  | nil => rfl
  | cons a accesses ih =>
      refine (ih (a.perform g d)).trans ?_
      cases a with
      | write index b => exact cursor_store g _ b d
      | copy toIndex fromIndex =>
          exact cursor_store g _ _ d

theorem cursor_putCell
    (g : Control)
    (index : Int)
    (c : UInt8)
    (d : Display) :
    (d.putCell g index c).cursor = d.cursor := by
  rw [putCell_eq_performAll]
  exact cursor_performAll g _ d

theorem cursor_calibIfViewed
    (g : Control)
    (d : Display) :
    (d.calibIfViewed g).cursor = d.cursor := by
  unfold calibIfViewed
  split
  · rfl
  · rfl

/- The scroll moves the cursor up by a row. -/
theorem Places.scrollIfFull
    {g : Control}
    {x y : Int}
    {d d' : Display}
    (hPlace : Places g x y d d') :
    Places g x (if y = 25 then 24 else y) d
      (d'.scrollIfFull g) := by
  unfold Display.scrollIfFull
  rw [hPlace.screenY]
  unfold numRows
  split
  next hFull =>
    have hRows := hPlace.of_cursor (cursor_performAll g
      ((List.range' 1 23).flatMap scrollRowAccesses) d')
    rw [upScrollForOneLine_eq]
    dsimp only
    rw [hRows.screenY, hFull]
    exact (hRows.setScreenY (25 - 1)).of_cursor
      (cursor_performAll g lastRowAccesses _)
  next hNot => exact hPlace

/-
  The cursor after a printable character, where it may stand
  below the last row.
-/
theorem places_glyphPut
    (g : Control)
    (c : UInt8)
    {d : Display}
    (hIn : d.CursorInside g) :
    ∃ x y, (0 ≤ x ∧ x < 80) ∧ (0 ≤ y ∧ y ≤ 25) ∧
      Places g x y d (d.glyphPut g c) := by
  rcases hIn with ⟨hLeft, hRight, hTop, hBottom⟩
  have hPut := (Places.start g d).of_cursor
    (cursor_putCell g
      (numCols * d.screenY g + d.screenX g) c d)
  have hMoved := hPut.setScreenX (d.screenX g + 1)
  unfold glyphPut
  dsimp only
  rw [hPut.screenX, hMoved.screenX, hMoved.screenY]
  unfold numCols at hMoved ⊢
  split
  next hWrap =>
    exact ⟨0, d.screenY g + 1, by omega, by omega,
      (hMoved.setScreenY _).setScreenX 0⟩
  next hSame =>
    exact ⟨d.screenX g + 1, d.screenY g, by omega,
      by omega, hMoved⟩

theorem places_lineEnded
    (g : Control)
    {d : Display}
    (hIn : d.CursorInside g) :
    ∃ x y, (0 ≤ x ∧ x < 80) ∧ (0 ≤ y ∧ y ≤ 25) ∧
      Places g x y d (d.lineEnded g) := by
  rcases hIn with ⟨hLeft, hRight, hTop, hBottom⟩
  exact ⟨0, d.screenY g + 1, by omega, by omega,
    ((Places.start g d).setScreenY _).setScreenX 0⟩

theorem places_beforeScroll
    (g : Control)
    (c : UInt8)
    {d : Display}
    (hIn : d.CursorInside g) :
    ∃ x y, (0 ≤ x ∧ x < 80) ∧ (0 ≤ y ∧ y ≤ 25) ∧
      Places g x y d (d.beforeScroll g c) := by
  unfold beforeScroll
  split
  · exact places_lineEnded g hIn
  · split
    · exact places_glyphPut g space hIn
    · exact places_glyphPut g c hIn

/- The branch for `\b` passes through column 80. -/
theorem places_putBackspace
    (g : Control)
    {d : Display}
    (hIn : d.CursorInside g) :
    ∃ x y, (0 ≤ x ∧ x < 80) ∧ (0 ≤ y ∧ y < 25) ∧
      Places g x y d (d.putBackspace g) := by
  rcases hIn with ⟨hLeft, hRight, hTop, hBottom⟩
  unfold putBackspace
  split
  next hCorner =>
    exact ⟨d.screenX g, d.screenY g, ⟨hLeft, hRight⟩,
      ⟨hTop, hBottom⟩, (Places.start g d).of_cursor
        (cursor_calibIfViewed g d)⟩
  next hNot =>
    dsimp only
    -- the cursor before the cell is erased
    have hFrom : ∃ x y, (1 ≤ x ∧ x ≤ 80) ∧
        (0 ≤ y ∧ y < 25) ∧ Places g x y d
          (if d.screenX g = 0 then
            (d.setScreenX g numCols).setScreenY g
              ((d.setScreenX g numCols).screenY g - 1)
          else d) := by
      split
      next hZero =>
        rw [screenY_setScreenX]
        refine ⟨80, d.screenY g - 1, by omega, by omega,
          ?_⟩
        exact ((Places.start g d).setScreenX 80).setScreenY
          (d.screenY g - 1)
      next hSome =>
        exact ⟨d.screenX g, d.screenY g, by omega,
          ⟨hTop, hBottom⟩, Places.start g d⟩
    rcases hFrom with ⟨x, y, hX, hY, hPlace⟩
    have hErased := hPlace.of_cursor (cursor_putCell g
      (numCols * y + x - 1) space _)
    rw [hPlace.screenX, hPlace.screenY, hErased.screenX]
    exact ⟨x - 1, y, by omega, hY,
      (hErased.setScreenX (x - 1)).of_cursor
        (cursor_calibIfViewed g _)⟩

/- The cursor after a call of `nb_putc`. -/
theorem places_nbPutc
    (g : Control)
    (c : UInt8)
    {d : Display}
    (hIn : d.CursorInside g) :
    ∃ x y, (0 ≤ x ∧ x < 80) ∧ (0 ≤ y ∧ y < 25) ∧
      Places g x y d (d.nbPutc g c) := by
  by_cases hBack : c = backspace
  · subst hBack
    exact places_putBackspace g hIn
  · rcases places_beforeScroll g c hIn with
      ⟨x, y, hX, hY, hPlace⟩
    rw [nbPutc_eq g hBack]
    refine ⟨x, if y = 25 then 24 else y, hX, by omega, ?_⟩
    exact hPlace.scrollIfFull.of_cursor
      (cursor_calibIfViewed g _)

/- `clear` puts the cursor below the terminal bar. -/
theorem places_clear
    (g : Control)
    (d : Display) :
    Places g 0 1 d (d.clear g) := by
  have hHome : ∀ d' : Display, d'.cursor = d.cursor →
      Places g 0 1 d
        (((d'.setScreenX g 0).setScreenY g
          startHeight).calibCursor g) := by
    intro d' hCursor
    have hThere := (Places.start g d).of_cursor hCursor
    exact ((hThere.setScreenX 0).setScreenY 1).of_cursor rfl
  unfold clear
  refine hHome _ ?_
  rw [foldl_eq_performAll
    (fun d (i : Nat) => putCell_eq_performAll g i space d)]
  exact cursor_performAll g _ d

end Display

end MartianPendulum

------------------------------------------------------------
-- Bounds of the Accesses
------------------------------------------------------------

namespace MartianPendulum

namespace Display

theorem putCellAccesses_inside
    {index : Int}
    (hIndex : 0 ≤ index ∧ index < 2000)
    (c : UInt8) :
    ∀ a ∈ putCellAccesses index c, a.Inside := by
  intro a ha
  simp only [putCellAccesses, List.mem_cons,
    List.not_mem_nil, or_false] at ha
  rcases ha with rfl | rfl
  · simp only [VideoAccess.Inside, VideoAccess.indices,
      List.mem_singleton, forall_eq]
    omega
  · simp only [VideoAccess.Inside, VideoAccess.indices,
      List.mem_singleton, forall_eq]
    omega

theorem copyCellAccesses_inside
    {toIndex fromIndex : Int}
    (hTo : 0 ≤ toIndex ∧ toIndex < 2000)
    (hFrom : 0 ≤ fromIndex ∧ fromIndex < 2000) :
    ∀ a ∈ copyCellAccesses toIndex fromIndex,
      a.Inside := by
  intro a ha
  simp only [copyCellAccesses, List.mem_cons,
    List.not_mem_nil, or_false] at ha
  rcases ha with rfl | rfl
  · simp only [VideoAccess.Inside, VideoAccess.indices,
      List.forall_mem_cons, List.not_mem_nil,
      IsEmpty.forall_iff, implies_true, and_true]
    omega
  · simp only [VideoAccess.Inside, VideoAccess.indices,
      List.forall_mem_cons, List.not_mem_nil,
      IsEmpty.forall_iff, implies_true, and_true]
    omega

theorem upScrollAccesses_inside :
    ∀ a ∈ upScrollAccesses, a.Inside := by
  intro a ha
  simp only [upScrollAccesses, scrollRowAccesses,
    lastRowAccesses, List.mem_append, List.mem_flatMap,
    List.mem_range, List.mem_range'_1, numCols,
    numRows] at ha
  rcases ha with ⟨row, hRow, col, hCol, ha⟩ | ⟨i, hi, ha⟩
  · exact copyCellAccesses_inside (by omega) (by omega)
      a ha
  · exact putCellAccesses_inside (by omega) space a ha

theorem scrollAccesses_inside
    (g : Control)
    (d : Display) :
    ∀ a ∈ scrollAccesses g d, a.Inside := by
  unfold scrollAccesses
  split
  · exact upScrollAccesses_inside
  · simp

theorem backspaceAccesses_inside
    {g : Control}
    {d : Display}
    (hIn : d.CursorInside g) :
    ∀ a ∈ backspaceAccesses g d, a.Inside := by
  rcases hIn with ⟨hLeft, hRight, hTop, hBottom⟩
  unfold backspaceAccesses
  split
  next hCorner => simp
  next hNot =>
    dsimp only
    apply putCellAccesses_inside
    unfold numCols
    split
    next hZero =>
      simp only [screenX_setScreenY, screenX_setScreenX,
        screenY_setScreenY, screenY_setScreenX]
      omega
    next hSome => omega

theorem glyphAccesses_inside
    {g : Control}
    {d : Display}
    (hIn : d.CursorInside g)
    (c : UInt8) :
    ∀ a ∈ glyphAccesses g c d, a.Inside := by
  rcases hIn with ⟨hLeft, hRight, hTop, hBottom⟩
  intro a ha
  rcases List.mem_append.mp ha with hCell | hScroll
  · refine putCellAccesses_inside ?_ c a hCell
    unfold numCols
    omega
  · exact scrollAccesses_inside g _ a hScroll

/- Every access of `nb_putc` is to the screen. -/
theorem nbPutcAccesses_inside
    {g : Control}
    {d : Display}
    (hIn : d.CursorInside g)
    (c : UInt8) :
    ∀ a ∈ nbPutcAccesses g c d, a.Inside := by
  unfold nbPutcAccesses
  split
  · exact scrollAccesses_inside g _
  · split
    · exact backspaceAccesses_inside hIn
    · split
      · exact glyphAccesses_inside hIn space
      · exact glyphAccesses_inside hIn c

/- Every access of `clear` is to the screen. -/
theorem clearAccesses_inside :
    ∀ a ∈ clearAccesses, a.Inside := by
  intro a ha
  simp only [clearAccesses, List.mem_flatMap,
    List.mem_range'_1] at ha
  rcases ha with ⟨i, hi, ha⟩
  exact putCellAccesses_inside (by omega) space a ha

end Display

end MartianPendulum

------------------------------------------------------------
-- Sequences of Calls
------------------------------------------------------------

namespace MartianPendulum

/- A call of `nb_putc` or `clear`. -/
inductive ConsoleCall where
| nbPutc (c : UInt8)
| clear

namespace Kernel

def consoleCall
    (k : Kernel) :
    ConsoleCall → Kernel
| .nbPutc c => k.setDisplay (fun g d => d.nbPutc g c)
| .clear => k.clear

/-
  The pointers and the mapping under which the call draws.
  `clear` turns them to the viewed terminal.
-/
def callControl
    (k : Kernel) :
    ConsoleCall → Control
| .nbPutc _ => k.toControl
| .clear =>
    k.toControl.changeVidmemMapping k.viewingTermPtr

def callAccesses
    (k : Kernel) :
    ConsoleCall → List Display.VideoAccess
| .nbPutc c =>
    Display.nbPutcAccesses k.toControl c k.toDisplay
| .clear => Display.clearAccesses

/- The call carries out its accesses. -/
theorem mem_consoleCall
    (k : Kernel)
    (call : ConsoleCall) :
    (k.consoleCall call).mem =
      (Display.performAll (k.callControl call)
        (k.callAccesses call) k.toDisplay).mem := by
  cases call with
  | nbPutc c => exact Display.mem_nbPutc _ c _
  | clear => exact Display.mem_clear _ _

/-
  The cursor is on the screen, and so is the cursor of the
  running terminal, to which `clear` points the kernel in
  the end.  Outside of `echo` the two are the same.
-/
structure ConsoleReady
    (k : Kernel) : Prop where
  cursor : k.toDisplay.CursorInside k.toControl
  running : (k.cursor k.runningTermPtr).OnScreen

theorem ConsoleReady.nbPutc
    {k : Kernel}
    (hReady : k.ConsoleReady)
    (c : UInt8) :
    (k.consoleCall (.nbPutc c)).ConsoleReady := by
  rcases Display.places_nbPutc k.toControl c
      hReady.cursor with
    ⟨x, y, hX, hY, hPlace⟩
  exact ⟨hPlace.cursorInside hX hY,
    hPlace.onScreen hX hY hReady.running⟩

theorem ConsoleReady.of_pointed
    {k : Kernel}
    (hX : k.screenXPtr = k.runningTermPtr)
    (hY : k.screenYPtr = k.runningTermPtr)
    (hOn : (k.cursor k.runningTermPtr).OnScreen) :
    k.ConsoleReady := by
  refine ⟨?_, hOn⟩
  unfold Display.CursorInside Display.screenX
    Display.screenY
  rw [hX, hY]
  exact hOn

/- `clear` ends with the pointers on the running terminal. -/
theorem ConsoleReady.clear
    {k : Kernel}
    (hReady : k.ConsoleReady) :
    (k.consoleCall .clear).ConsoleReady := by
  have hPlace := Display.places_clear
    (k.toControl.changeVidmemMapping k.viewingTermPtr)
    k.toDisplay
  have hOn := hPlace.onScreen
    (show (0 : Int) ≤ 0 ∧ (0 : Int) < 80 by decide)
    (show (0 : Int) ≤ 1 ∧ (1 : Int) < 25 by decide)
    hReady.running
  -- any drawing through the viewed terminal ends this way
  have hEnd : ∀ draw : Control → Display → Display,
      ((draw (k.toControl.changeVidmemMapping
        k.viewingTermPtr) k.toDisplay).cursor
          k.runningTermPtr).OnScreen →
      (((k.setControl
        (fun g => g.changeVidmemMapping
          g.viewingTermPtr)).setDisplay draw).setControl
            Control.mapRunning).ConsoleReady :=
    fun _ h => .of_pointed rfl rfl h
  exact hEnd Display.clear hOn

theorem ConsoleReady.consoleCall
    {k : Kernel}
    (hReady : k.ConsoleReady)
    (call : ConsoleCall) :
    (k.consoleCall call).ConsoleReady := by
  cases call with
  | nbPutc c => exact hReady.nbPutc c
  | clear => exact hReady.clear

theorem ConsoleReady.callAccesses_inside
    {k : Kernel}
    (hReady : k.ConsoleReady)
    (call : ConsoleCall) :
    ∀ a ∈ k.callAccesses call, a.Inside := by
  cases call with
  | nbPutc c =>
      exact Display.nbPutcAccesses_inside hReady.cursor c
  | clear => exact Display.clearAccesses_inside

end Kernel

/-
  After every sequence of calls the cursor is on the screen,
  and the next call reads and writes video memory within the
  screen only.
-/
theorem console_calls_stay_on_screen
    (k : Kernel)
    (hReady : k.ConsoleReady)
    (calls : List ConsoleCall) :
    let k' := Logic.run Kernel.consoleCall k calls
    k'.toDisplay.CursorInside k'.toControl ∧
      ∀ call,
        (k'.consoleCall call).mem =
            (Display.performAll (k'.callControl call)
              (k'.callAccesses call) k'.toDisplay).mem ∧
          ∀ a ∈ k'.callAccesses call,
            ∀ index ∈ a.indices,
              0 ≤ index ∧ index ≤ 3999 := by
  intro k'
  have hThere : k'.ConsoleReady :=
    Logic.invariant_run (I := Kernel.ConsoleReady)
      (fun _ call h => h.consoleCall call) hReady calls
  refine ⟨hThere.cursor, fun call => ⟨?_, ?_⟩⟩
  · exact k'.mem_consoleCall call
  · exact hThere.callAccesses_inside call

/- A backspace at the upper left corner, then a clear. -/
theorem console_calls_stay_on_screen_blankKernel :
    let k' := Logic.run Kernel.consoleCall blankKernel
      [.nbPutc Display.backspace, .clear]
    blankKernel.ConsoleReady ∧
      k'.toDisplay.CursorInside k'.toControl := by
  have hReady : blankKernel.ConsoleReady :=
    .of_pointed rfl rfl
      ⟨by decide, by decide, by decide, by decide⟩
  exact ⟨hReady, (console_calls_stay_on_screen blankKernel
    hReady [.nbPutc Display.backspace, .clear]).1⟩

end MartianPendulum
