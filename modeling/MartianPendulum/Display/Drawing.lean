import MartianPendulum.Kernel.AddressSpace

/-
  What the screen routines change.

  Under a mapping of video memory to one frame, and with the
  cursor pointers on one terminal, the routines write that
  frame and that cursor only, and keep the cursor on the
  screen.

  Key definitions include:
    * `Aimed`
    * `Paints`
    * `Draws`
    * `Cursor.OnScreen`

  Key theorems include:
    * `Aimed.nbPutc`
    * `Aimed.putBytes`
    * `Aimed.clear`
    * `memcpy_eq`
-/

------------------------------------------------------------
-- Targets
------------------------------------------------------------

namespace MartianPendulum

/-
  Video memory is mapped to a frame and the cursor pointers
  point to a terminal.
-/
structure Aimed
    (g : Control)
    (t : Tid)
    (frame : Nat) : Prop where
  screenX : g.screenXPtr = t
  screenY : g.screenYPtr = t
  video : ∀ off < size4K,
    g.walk (videoStart + off) = some (frame * size4K + off)

/- Only the bytes of one frame change. -/
structure Paints
    (frame : Nat)
    (d d' : Display) : Prop where
  mem : ∀ p, p / size4K ≠ frame → d'.mem p = d.mem p
  cursor : d'.cursor = d.cursor
  cursorPos : d'.cursorPos = d.cursorPos

/- Only the bytes of one frame and one cursor change. -/
structure Draws
    (t : Tid)
    (frame : Nat)
    (d d' : Display) : Prop where
  mem : ∀ p, p / size4K ≠ frame → d'.mem p = d.mem p
  cursor : ∀ u, u ≠ t → d'.cursor u = d.cursor u

/- The position that `calib_cursor` computes. -/
def Cursor.pos
    (c : Cursor) : Int :=
  c.cursorY * 80 + c.cursorX

def Cursor.OnScreen
    (c : Cursor) : Prop :=
  0 ≤ c.cursorX ∧ c.cursorX < 80 ∧
    0 ≤ c.cursorY ∧ c.cursorY < 25

namespace Paints

theorem refl
    (frame : Nat)
    (d : Display) :
    Paints frame d d :=
  ⟨fun _ _ => rfl, rfl, rfl⟩

theorem trans
    {frame : Nat}
    (d₁ d₂ d₃ : Display)
    (h₁ : Paints frame d₁ d₂)
    (h₂ : Paints frame d₂ d₃) :
    Paints frame d₁ d₃ :=
  ⟨fun p hp => (h₂.mem p hp).trans (h₁.mem p hp),
    h₂.cursor.trans h₁.cursor,
    h₂.cursorPos.trans h₁.cursorPos⟩

theorem draws
    {frame : Nat}
    {d d' : Display}
    (hPaint : Paints frame d d')
    (t : Tid) :
    Draws t frame d d' :=
  ⟨hPaint.mem, fun u _ => by rw [hPaint.cursor]⟩

/- A loop that paints in every pass paints. -/
theorem foldl
    {α : Type}
    {frame : Nat}
    {body : Display → α → Display}
    {l : List α}
    (hBody : ∀ d, ∀ i ∈ l, Paints frame d (body d i))
    (d : Display) :
    Paints frame d (l.foldl body d) :=
  (Logic.foldl_preserves
    (I := fun _ => True)
    (Paints.refl frame) Paints.trans
    (fun d i hi _ => ⟨hBody d i hi, trivial⟩)
    trivial).1

end Paints

namespace Draws

theorem refl
    (t : Tid)
    (frame : Nat)
    (d : Display) :
    Draws t frame d d :=
  ⟨fun _ _ => rfl, fun _ _ => rfl⟩

theorem trans
    {t : Tid}
    {frame : Nat}
    {d₁ d₂ d₃ : Display}
    (h₁ : Draws t frame d₁ d₂)
    (h₂ : Draws t frame d₂ d₃) :
    Draws t frame d₁ d₃ :=
  ⟨fun p hp => (h₂.mem p hp).trans (h₁.mem p hp),
    fun u hu => (h₂.cursor u hu).trans (h₁.cursor u hu)⟩

end Draws

end MartianPendulum

------------------------------------------------------------
-- Cells
------------------------------------------------------------

namespace MartianPendulum

namespace Aimed

variable {g : Control}
variable {t : Tid}
variable {frame : Nat}

/- Where an address of video memory goes. -/
theorem walk_eq
    (hAim : Aimed g t frame)
    {off : Int}
    (hLow : 0 ≤ off)
    (hHigh : off < 4096) :
    g.walk (u32 ((videoStart : Int) + off)) =
      some (frame * size4K + off.toNat) := by
  have hAddr : u32 ((videoStart : Int) + off) =
      videoStart + off.toNat := by
    rw [videoStart_eq]
    unfold u32
    omega
  have hWalk := hAim.video off.toNat (by
    rw [size4K_eq]
    omega)
  rw [hAddr, hWalk]

/- A store into video memory. -/
theorem store
    (hAim : Aimed g t frame)
    {off : Int}
    (hLow : 0 ≤ off)
    (hHigh : off < 4096)
    (b : UInt8)
    (d : Display) :
    Paints frame d (d.store g (videoStart + off) b) := by
  unfold Display.store
  rw [hAim.walk_eq hLow hHigh]
  refine ⟨?_, rfl, rfl⟩
  intro p hp
  apply Function.update_of_ne
  intro hEq
  apply hp
  rw [hEq, size4K_eq]
  omega

theorem putCell
    (hAim : Aimed g t frame)
    {index : Int}
    (hLow : 0 ≤ index)
    (hHigh : index < 2000)
    (c : UInt8)
    (d : Display) :
    Paints frame d (d.putCell g index c) := by
  unfold Display.putCell
  have hOff : (videoStart : Int) + index * 2 + 1 =
      videoStart + (index * 2 + 1) := by
    omega
  rw [hOff]
  exact .trans _ _ _
    (hAim.store (by omega) (by omega) c d)
    (hAim.store (by omega) (by omega) _ _)

theorem copyCell
    (hAim : Aimed g t frame)
    {toIndex : Int}
    (hLow : 0 ≤ toIndex)
    (hHigh : toIndex < 2000)
    (fromIndex : Int)
    (d : Display) :
    Paints frame d (d.copyCell g toIndex fromIndex) := by
  unfold Display.copyCell
  have hOff : (videoStart : Int) + toIndex * 2 + 1 =
      videoStart + (toIndex * 2 + 1) := by
    omega
  dsimp only
  rw [hOff]
  exact .trans _ _ _
    (hAim.store (by omega) (by omega) _ d)
    (hAim.store (by omega) (by omega) _ _)

/- The rows moved up by a scroll. -/
theorem scrollRows
    (hAim : Aimed g t frame)
    (d : Display) :
    Paints frame d
      ((List.range' 1 23).foldl (Display.scrollRow g) d) := by
  apply Paints.foldl
  intro d row hRow
  rw [List.mem_range'_1] at hRow
  apply Paints.foldl
  intro d col hCol
  rw [List.mem_range] at hCol
  unfold Display.numCols
  exact hAim.copyCell (by omega) (by omega) _ d

/- The row cleared by a scroll. -/
theorem clearRow
    (hAim : Aimed g t frame)
    (d : Display) :
    Paints frame d
      ((List.range 80).foldl
        (fun d (i : Nat) => d.putCell g
          ((Display.numRows - 1) * Display.numCols + i)
          Display.space) d) := by
  apply Paints.foldl
  intro d i hi
  rw [List.mem_range] at hi
  unfold Display.numRows Display.numCols
  exact hAim.putCell (by omega) (by omega) _ d

end Aimed

end MartianPendulum

------------------------------------------------------------
-- Cursors
------------------------------------------------------------

namespace MartianPendulum

namespace Display

variable (g : Control)

@[simp] theorem screenX_setScreenX
    (x : Int)
    (d : Display) :
    (d.setScreenX g x).screenX g = x := by
  simp [screenX, setScreenX]

@[simp] theorem screenY_setScreenX
    (x : Int)
    (d : Display) :
    (d.setScreenX g x).screenY g = d.screenY g := by
  by_cases hSame : g.screenYPtr = g.screenXPtr
  · simp [screenY, setScreenX, hSame]
  · simp [screenY, setScreenX, hSame]

@[simp] theorem screenX_setScreenY
    (y : Int)
    (d : Display) :
    (d.setScreenY g y).screenX g = d.screenX g := by
  by_cases hSame : g.screenXPtr = g.screenYPtr
  · simp [screenX, setScreenY, hSame]
  · simp [screenX, setScreenY, hSame]

@[simp] theorem screenY_setScreenY
    (y : Int)
    (d : Display) :
    (d.setScreenY g y).screenY g = y := by
  simp [screenY, setScreenY]

end Display

namespace Paints

variable {frame : Nat}
variable {d d' : Display}

theorem screenX
    (hPaint : Paints frame d d')
    (g : Control) :
    d'.screenX g = d.screenX g := by
  unfold Display.screenX
  rw [hPaint.cursor]

theorem screenY
    (hPaint : Paints frame d d')
    (g : Control) :
    d'.screenY g = d.screenY g := by
  unfold Display.screenY
  rw [hPaint.cursor]

end Paints

/- A drawing that leaves the hardware cursor alone. -/
structure Moves
    (t : Tid)
    (frame : Nat)
    (d d' : Display) : Prop
    extends Draws t frame d d' where
  cursorPos : d'.cursorPos = d.cursorPos

namespace Moves

variable {t : Tid}
variable {frame : Nat}

theorem refl
    (d : Display) :
    Moves t frame d d :=
  ⟨.refl t frame d, rfl⟩

theorem trans
    {d₁ d₂ d₃ : Display}
    (h₁ : Moves t frame d₁ d₂)
    (h₂ : Moves t frame d₂ d₃) :
    Moves t frame d₁ d₃ :=
  ⟨h₁.toDraws.trans h₂.toDraws,
    h₂.cursorPos.trans h₁.cursorPos⟩

theorem of_paints
    {d d' : Display}
    (hPaint : Paints frame d d') :
    Moves t frame d d' :=
  ⟨hPaint.draws t, hPaint.cursorPos⟩

theorem setScreenX
    {g : Control}
    (hAim : Aimed g t frame)
    (x : Int)
    (d : Display) :
    Moves t frame d (d.setScreenX g x) := by
  refine ⟨⟨fun _ _ => rfl, ?_⟩, rfl⟩
  intro u hu
  unfold Display.setScreenX
  rw [hAim.screenX]
  exact Function.update_of_ne hu _ _

theorem setScreenY
    {g : Control}
    (hAim : Aimed g t frame)
    (y : Int)
    (d : Display) :
    Moves t frame d (d.setScreenY g y) := by
  refine ⟨⟨fun _ _ => rfl, ?_⟩, rfl⟩
  intro u hu
  unfold Display.setScreenY
  rw [hAim.screenY]
  exact Function.update_of_ne hu _ _

end Moves

/- The cursor of the drawn terminal is on the screen. -/
theorem Aimed.onScreen_iff
    {g : Control}
    {t : Tid}
    {frame : Nat}
    (hAim : Aimed g t frame)
    (d : Display) :
    (d.cursor t).OnScreen ↔
      0 ≤ d.screenX g ∧ d.screenX g < 80 ∧
        0 ≤ d.screenY g ∧ d.screenY g < 25 := by
  unfold Cursor.OnScreen Display.screenX Display.screenY
  rw [hAim.screenX, hAim.screenY]

/- The position fits in the two cursor registers. -/
theorem calibCursor_pos
    {g : Control}
    {t : Tid}
    (hX : g.screenXPtr = t)
    (hY : g.screenYPtr = t)
    {d : Display}
    (hOn : (d.cursor t).OnScreen) :
    ((d.calibCursor g).cursorPos : Int) =
      (d.cursor t).pos := by
  rcases hOn with ⟨hLeft, hRight, hTop, hBottom⟩
  have hPos : (d.calibCursor g).cursorPos =
      (((d.cursor t).cursorY * 80 +
        (d.cursor t).cursorX) % 2 ^ 16).toNat := by
    unfold Display.calibCursor Display.screenX
      Display.screenY Display.numCols
    rw [hX, hY]
  rw [hPos]
  unfold Cursor.pos
  omega

end MartianPendulum

------------------------------------------------------------
-- Characters
------------------------------------------------------------

namespace MartianPendulum

namespace Aimed

variable {g : Control}
variable {t : Tid}
variable {frame : Nat}

/- A scroll moves the cursor up one line. -/
theorem upScrollForOneLine
    (hAim : Aimed g t frame)
    (d : Display) :
    Moves t frame d (d.upScrollForOneLine g) ∧
      (d.upScrollForOneLine g).screenX g = d.screenX g ∧
      (d.upScrollForOneLine g).screenY g =
        d.screenY g - 1 := by
  have hRows := hAim.scrollRows d
  unfold Display.upScrollForOneLine
  dsimp only
  generalize (List.range' 1 23).foldl
    (Display.scrollRow g) d = d₁ at hRows ⊢
  have hClear := hAim.clearRow
    (d₁.setScreenY g (d₁.screenY g - 1))
  refine ⟨?_, ?_, ?_⟩
  · exact (Moves.of_paints hRows).trans
      ((Moves.setScreenY hAim _ d₁).trans
        (Moves.of_paints hClear))
  · rw [hClear.screenX, Display.screenX_setScreenY,
      hRows.screenX]
  · rw [hClear.screenY, Display.screenY_setScreenY,
      hRows.screenY]

/- The scroll brings the cursor back on the screen. -/
theorem scrollIfFull
    (hAim : Aimed g t frame)
    (d : Display)
    (hX : 0 ≤ d.screenX g ∧ d.screenX g < 80)
    (hY : 0 ≤ d.screenY g ∧ d.screenY g ≤ 25) :
    Moves t frame d (d.scrollIfFull g) ∧
      ((d.scrollIfFull g).cursor t).OnScreen := by
  unfold Display.scrollIfFull
  split
  next hFull =>
    rcases hAim.upScrollForOneLine d with
      ⟨hMove, hSameX, hUpY⟩
    refine ⟨hMove, ?_⟩
    rw [hAim.onScreen_iff, hSameX, hUpY, hFull]
    exact ⟨hX.1, hX.2, by decide, by decide⟩
  next hFull =>
    refine ⟨.refl d, ?_⟩
    unfold Display.numRows at hFull
    rw [hAim.onScreen_iff]
    omega

/-
  A drawing that puts the hardware cursor on the drawn
  terminal if that is the viewed one.
-/
structure Puts
    (g : Control)
    (t : Tid)
    (frame : Nat)
    (d d' : Display) : Prop where
  draws : Draws t frame d d'
  onScreen : (d'.cursor t).OnScreen
  viewed : g.viewingTermPtr = g.runningTermPtr →
    (d'.cursorPos : Int) = (d'.cursor t).pos
  hidden : g.viewingTermPtr ≠ g.runningTermPtr →
    d'.cursorPos = d.cursorPos

theorem calibIfViewed
    (hAim : Aimed g t frame)
    {d d' : Display}
    (hMove : Moves t frame d d')
    (hOn : (d'.cursor t).OnScreen) :
    Puts g t frame d (d'.calibIfViewed g) := by
  unfold Display.calibIfViewed
  split
  next hView =>
    exact ⟨⟨hMove.mem, hMove.cursor⟩, hOn,
      fun _ => calibCursor_pos hAim.screenX hAim.screenY hOn,
      fun hNot => absurd hView hNot⟩
  next hView =>
    exact ⟨hMove.toDraws, hOn,
      fun hSame => absurd hSame hView,
      fun _ => hMove.cursorPos⟩

theorem putNewline
    (hAim : Aimed g t frame)
    (d : Display)
    (hOn : (d.cursor t).OnScreen) :
    Puts g t frame d (d.putNewline g) := by
  rw [hAim.onScreen_iff] at hOn
  have hMove : Moves t frame d
      ((d.setScreenY g (d.screenY g + 1)).setScreenX g 0) :=
    (Moves.setScreenY hAim _ d).trans
      (Moves.setScreenX hAim _ _)
  rcases hAim.scrollIfFull
      ((d.setScreenY g (d.screenY g + 1)).setScreenX g 0)
      (by simp) (by simp; omega) with
    ⟨hScroll, hEnd⟩
  exact hAim.calibIfViewed (hMove.trans hScroll) hEnd

theorem putGlyph
    (hAim : Aimed g t frame)
    (c : UInt8)
    (d : Display)
    (hOn : (d.cursor t).OnScreen) :
    Puts g t frame d (d.putGlyph g c) := by
  rw [hAim.onScreen_iff] at hOn
  have hCell : Paints frame d
      (d.putCell g
        (Display.numCols * d.screenY g + d.screenX g) c) := by
    unfold Display.numCols
    exact hAim.putCell (by omega) (by omega) c d
  unfold Display.putGlyph
  dsimp only
  generalize d.putCell g
    (Display.numCols * d.screenY g + d.screenX g) c = d₁
    at hCell ⊢
  have hX := hCell.screenX g
  have hY := hCell.screenY g
  have hRight := Moves.setScreenX hAim
    (d₁.screenX g + 1) d₁
  have hStart : Moves t frame d
      (d₁.setScreenX g (d₁.screenX g + 1)) :=
    (Moves.of_paints hCell).trans hRight
  rw [Display.screenX_setScreenX,
    Display.screenY_setScreenX]
  unfold Display.numCols
  split
  next hWrap =>
    have hMove := hStart.trans
      ((Moves.setScreenY hAim (d₁.screenY g + 1) _).trans
        (Moves.setScreenX hAim 0 _))
    rcases hAim.scrollIfFull
        (((d₁.setScreenX g (d₁.screenX g + 1)).setScreenY g
          (d₁.screenY g + 1)).setScreenX g 0)
        (by simp) (by simp; omega) with
      ⟨hScroll, hEnd⟩
    exact hAim.calibIfViewed (hMove.trans hScroll) hEnd
  next hWrap =>
    rcases hAim.scrollIfFull
        (d₁.setScreenX g (d₁.screenX g + 1))
        (by simp; omega) (by simp; omega) with
      ⟨hScroll, hEnd⟩
    exact hAim.calibIfViewed (hStart.trans hScroll) hEnd

theorem putBackspace
    (hAim : Aimed g t frame)
    (d : Display)
    (hOn : (d.cursor t).OnScreen) :
    Puts g t frame d (d.putBackspace g) := by
  unfold Display.putBackspace
  split
  · exact hAim.calibIfViewed (.refl d) hOn
  next hHome =>
    rw [hAim.onScreen_iff] at hOn
    dsimp only
    -- the cursor before the cell is blanked
    obtain ⟨d₁, hd₁, hMove, hX, hY⟩ :
        ∃ d₁,
          d₁ = (if d.screenX g = 0 then
            (d.setScreenX g Display.numCols).setScreenY g
              ((d.setScreenX g Display.numCols).screenY g - 1)
            else d) ∧
          Moves t frame d d₁ ∧
          (1 ≤ d₁.screenX g ∧ d₁.screenX g ≤ 80) ∧
          (0 ≤ d₁.screenY g ∧ d₁.screenY g < 25) := by
      refine ⟨_, rfl, ?_⟩
      split
      next hZero =>
        refine ⟨(Moves.setScreenX hAim _ d).trans
          (Moves.setScreenY hAim _ _), ?_, ?_⟩
        · simp [Display.numCols]
        · simp
          omega
      next hZero =>
        refine ⟨.refl d, ?_, ?_⟩
        · omega
        · omega
    rw [← hd₁]
    have hCell : Paints frame d₁
        (d₁.putCell g
          (Display.numCols * d₁.screenY g +
            d₁.screenX g - 1) Display.space) := by
      unfold Display.numCols
      exact hAim.putCell (by omega) (by omega) _ d₁
    have hBack := Moves.setScreenX hAim
      ((d₁.putCell g (Display.numCols * d₁.screenY g +
        d₁.screenX g - 1) Display.space).screenX g - 1)
      (d₁.putCell g (Display.numCols * d₁.screenY g +
        d₁.screenX g - 1) Display.space)
    refine hAim.calibIfViewed
      (hMove.trans ((Moves.of_paints hCell).trans hBack)) ?_
    rw [hAim.onScreen_iff, Display.screenX_setScreenX,
      Display.screenY_setScreenX, hCell.screenX,
      hCell.screenY]
    omega

/- Every character stays within the drawn terminal. -/
theorem nbPutc
    (hAim : Aimed g t frame)
    (c : UInt8)
    (d : Display)
    (hOn : (d.cursor t).OnScreen) :
    Puts g t frame d (d.nbPutc g c) := by
  unfold Display.nbPutc
  split
  · exact hAim.putNewline d hOn
  · split
    · exact hAim.putBackspace d hOn
    · split
      · exact hAim.putGlyph _ d hOn
      · exact hAim.putGlyph c d hOn

end Aimed

end MartianPendulum

------------------------------------------------------------
-- Texts
------------------------------------------------------------

namespace MartianPendulum

/-
  What a text leaves behind.  Unlike for `Puts`, it may be
  empty and leave the hardware cursor where it was.
-/
structure Writes
    (g : Control)
    (t : Tid)
    (frame : Nat)
    (d d' : Display) : Prop where
  draws : Draws t frame d d'
  onScreen : (d'.cursor t).OnScreen
  viewed : g.viewingTermPtr = g.runningTermPtr →
    (d.cursorPos : Int) = (d.cursor t).pos →
      (d'.cursorPos : Int) = (d'.cursor t).pos
  hidden : g.viewingTermPtr ≠ g.runningTermPtr →
    d'.cursorPos = d.cursorPos

/- A drawing that ends with a call of `calib_cursor`. -/
structure Shows
    (t : Tid)
    (frame : Nat)
    (d d' : Display) : Prop where
  draws : Draws t frame d d'
  onScreen : (d'.cursor t).OnScreen
  cursorPos : (d'.cursorPos : Int) = (d'.cursor t).pos

namespace Aimed

variable {g : Control}
variable {t : Tid}
variable {frame : Nat}

theorem putBytes
    (hAim : Aimed g t frame)
    (bytes : List UInt8)
    (d : Display)
    (hOn : (d.cursor t).OnScreen) :
    Writes g t frame d (d.putBytes g bytes) := by
  induction bytes generalizing d with
  | nil =>
      exact ⟨.refl t frame d, hOn, fun _ hPos => hPos,
        fun _ => rfl⟩
  | cons c bytes ih =>
      have hPut := hAim.nbPutc c d hOn
      have hRest := ih (d.nbPutc g c) hPut.onScreen
      refine ⟨hPut.draws.trans hRest.draws,
        hRest.onScreen, ?_, ?_⟩
      · intro hView _
        exact hRest.viewed hView (hPut.viewed hView)
      · intro hView
        exact (hRest.hidden hView).trans (hPut.hidden hView)

/- The display part of an echo. -/
theorem echo
    (hAim : Aimed g t frame)
    (c : UInt8)
    (d : Display)
    (hOn : (d.cursor t).OnScreen) :
    Shows t frame d ((d.nbPutc g c).calibCursor g) := by
  have hPut := hAim.nbPutc c d hOn
  exact ⟨⟨hPut.draws.mem, hPut.draws.cursor⟩,
    hPut.onScreen,
    calibCursor_pos hAim.screenX hAim.screenY
      hPut.onScreen⟩

theorem clear
    (hAim : Aimed g t frame)
    (d : Display) :
    Shows t frame d (d.clear g) := by
  have hCells : Paints frame d
      ((List.range' 30 1970).foldl
        (fun d (i : Nat) =>
          d.putCell g i Display.space) d) := by
    apply Paints.foldl
    intro d i hi
    rw [List.mem_range'_1] at hi
    exact hAim.putCell (by omega) (by omega) _ d
  unfold Display.clear
  dsimp only
  generalize (List.range' 30 1970).foldl
    (fun d (i : Nat) => d.putCell g i Display.space) d = d₁
    at hCells ⊢
  have hMove : Moves t frame d
      ((d₁.setScreenX g 0).setScreenY g
        Display.startHeight) :=
    (Moves.of_paints hCells).trans
      ((Moves.setScreenX hAim 0 d₁).trans
        (Moves.setScreenY hAim _ _))
  have hOn : (((d₁.setScreenX g 0).setScreenY g
      Display.startHeight).cursor t).OnScreen := by
    rw [hAim.onScreen_iff]
    simp [Display.startHeight]
  exact ⟨⟨hMove.mem, hMove.cursor⟩, hOn,
    calibCursor_pos hAim.screenX hAim.screenY hOn⟩

end Aimed

end MartianPendulum

------------------------------------------------------------
-- Pages
------------------------------------------------------------

namespace MartianPendulum

/-
  A copy between two ranges that the walk maps to disjoint
  ranges of memory.
-/
theorem memcpy_eq
    {g : Control}
    {dest src toAddr fromAddr n : Nat}
    (hDest : ∀ i < n,
      g.walk (dest + i) = some (toAddr + i))
    (hSrc : ∀ i < n,
      g.walk (src + i) = some (fromAddr + i))
    (hApart : toAddr + n ≤ fromAddr ∨
      fromAddr + n ≤ toAddr)
    (hDestLt : dest + n ≤ 2 ^ 32)
    (hSrcLt : src + n ≤ 2 ^ 32)
    (d : Display) :
    d.memcpy g dest src n =
      { d with
        mem := Logic.blit d.mem toAddr n
          (fun i => d.mem (fromAddr + i)) } := by
  induction n with
  | zero => simp [Display.memcpy]
  | succ n ih =>
      have hCopied := ih
        (fun i hi => hDest i (by omega))
        (fun i hi => hSrc i (by omega))
        (by omega) (by omega) (by omega)
      have hTo : u32 ((dest + n : Nat) : Int) = dest + n := by
        unfold u32
        omega
      have hFrom : u32 ((src + n : Nat) : Int) = src + n := by
        unfold u32
        omega
      unfold Display.memcpy at hCopied ⊢
      rw [List.range_succ, List.foldl_append, hCopied]
      simp only [List.foldl_cons, List.foldl_nil,
        Display.store, Display.load, hTo, hFrom,
        hDest n (by omega), hSrc n (by omega)]
      rw [Logic.blit_apply_of_outside _ _ (by omega),
        Logic.blit_succ]

end MartianPendulum
