import Mathlib.Logic.Function.Basic

/-
  Block copies into unbounded buffers.

  A buffer is a function from indices to elements.
  `blit dest pos n src` overwrites the `n` elements of
  `dest` from `pos` on with the first `n` elements of `src`.
  Adjacent copies combine, so a loop of block copies is
  described by one copy.

  Key theorems include:
    * `blit_append`
    * `blit_succ`
    * `blit_congr`
-/

------------------------------------------------------------
-- Block Copies
------------------------------------------------------------

namespace Logic

variable {α : Type*}

/- Copy `n` elements of `src` into `dest` at `pos`. -/
def blit
    (dest : Nat → α)
    (pos n : Nat)
    (src : Nat → α) :
    Nat → α :=
  fun i =>
    if pos ≤ i ∧ i < pos + n then src (i - pos) else dest i

theorem blit_apply_of_lt
    (dest : Nat → α)
    {n i : Nat}
    (src : Nat → α)
    (hi : i < n) :
    blit dest 0 n src i = src i := by
  simp [blit, hi]

theorem blit_apply_of_inside
    (dest : Nat → α)
    {pos n i : Nat}
    (src : Nat → α)
    (hi : pos ≤ i ∧ i < pos + n) :
    blit dest pos n src i = src (i - pos) := by
  simp only [blit, hi, and_self, if_true]

theorem blit_apply_of_outside
    (dest : Nat → α)
    {pos n i : Nat}
    (src : Nat → α)
    (hi : ¬ (pos ≤ i ∧ i < pos + n)) :
    blit dest pos n src i = dest i := by
  simp only [blit, hi, if_false]

@[simp] theorem blit_zero
    (dest : Nat → α)
    (pos : Nat)
    (src : Nat → α) :
    blit dest pos 0 src = dest := by
  funext i
  exact blit_apply_of_outside dest src (by omega)

/- The next element of a copy that runs upwards. -/
theorem blit_succ
    (dest : Nat → α)
    (pos n : Nat)
    (src : Nat → α) :
    Function.update (blit dest pos n src) (pos + n) (src n) =
      blit dest pos (n + 1) src := by
  funext i
  by_cases hLast : i = pos + n
  · subst hLast
    simp [blit]
  · rw [Function.update_of_ne hLast]
    by_cases hi : pos ≤ i ∧ i < pos + n
    · have hWhole : pos ≤ i ∧ i < pos + (n + 1) := by omega
      simp only [blit, hi, hWhole, and_self, if_true]
    · have hWhole : ¬ (pos ≤ i ∧ i < pos + (n + 1)) := by
        omega
      simp only [blit, hi, hWhole, if_false]

/- The next element of a copy that runs downwards. -/
theorem blit_pred
    (dest : Nat → α)
    (pos n : Nat)
    (src : Nat → α) :
    Function.update
        (blit dest (pos + 1) n (fun i => src (i + 1)))
        pos (src 0) =
      blit dest pos (n + 1) src := by
  funext i
  by_cases hFirst : i = pos
  · subst hFirst
    rw [Function.update_self,
      blit_apply_of_inside dest src (by omega),
      Nat.sub_self]
  · rw [Function.update_of_ne hFirst]
    by_cases hi : pos + 1 ≤ i ∧ i < pos + 1 + n
    · rw [blit_apply_of_inside _ _ hi,
        blit_apply_of_inside _ _ (by omega)]
      congr 1
      omega
    · rw [blit_apply_of_outside _ _ hi,
        blit_apply_of_outside _ _ (by omega)]

/- Only the copied elements of the source matter. -/
theorem blit_congr
    (dest : Nat → α)
    (pos : Nat)
    {n : Nat}
    {src src' : Nat → α}
    (hSrc : ∀ i, i < n → src i = src' i) :
    blit dest pos n src = blit dest pos n src' := by
  funext i
  by_cases hi : pos ≤ i ∧ i < pos + n
  · simp only [blit, hi, and_self, if_true]
    exact hSrc _ (by omega)
  · simp only [blit, hi, if_false]

/-
  A copy followed by the copy of the next elements of the
  same source is one longer copy.
-/
theorem blit_append
    (dest : Nat → α)
    (pos n m : Nat)
    (src : Nat → α) :
    blit (blit dest pos n src) (pos + n) m
        (fun i => src (n + i)) =
      blit dest pos (n + m) src := by
  funext i
  by_cases hFirst : pos ≤ i ∧ i < pos + n
  · have hSecond : ¬ (pos + n ≤ i ∧ i < pos + n + m) := by
      omega
    have hWhole : pos ≤ i ∧ i < pos + (n + m) := by omega
    simp only [blit, hFirst, hSecond, hWhole, and_self,
      if_true, if_false]
  · by_cases hSecond : pos + n ≤ i ∧ i < pos + n + m
    · have hWhole : pos ≤ i ∧ i < pos + (n + m) := by omega
      have hIdx : n + (i - (pos + n)) = i - pos := by omega
      simp only [blit, hSecond, hWhole, and_self, if_true,
        hIdx]
    · have hWhole : ¬ (pos ≤ i ∧ i < pos + (n + m)) := by
        omega
      simp only [blit, hFirst, hSecond, hWhole, if_false]

end Logic
