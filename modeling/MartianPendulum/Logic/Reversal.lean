import Mathlib.Data.List.GetD
import Mathlib.Logic.Function.Basic

/-
  Lists laid into a table, and ranges reversed in place.

  A loop that exchanges the two ends of a range and goes
  inwards reverses the range.  `reversed_exchange` is one
  pass of such a loop.

  Key definitions include:
    * `laid`
    * `reversed`

  Key theorems include:
    * `laid_append`
    * `reversed_exchange`
    * `reversed_laid`
-/

------------------------------------------------------------
-- Lists in a Table
------------------------------------------------------------

namespace Logic

variable {α : Type*}

/- The table with a list from `pos` on. -/
def laid
    (table : Nat → α)
    (pos : Nat)
    (l : List α) : Nat → α :=
  fun i =>
    if pos ≤ i then l.getD (i - pos) (table i) else table i

theorem laid_nil
    (table : Nat → α)
    (pos : Nat) :
    laid table pos [] = table := by
  funext i
  simp [laid]

theorem laid_of_lt
    (table : Nat → α)
    (pos : Nat)
    {l : List α}
    {i : Nat}
    (hi : i < l.length) :
    laid table pos l (pos + i) = l[i] := by
  unfold laid
  rw [if_pos (by omega), Nat.add_sub_cancel_left,
    List.getD_eq_getElem _ _ hi]

theorem laid_of_outside
    (table : Nat → α)
    {pos : Nat}
    {l : List α}
    {i : Nat}
    (hi : ¬ (pos ≤ i ∧ i < pos + l.length)) :
    laid table pos l i = table i := by
  unfold laid
  split
  next hPos =>
    exact List.getD_eq_default _ _ (by omega)
  next hPos => rfl

/- A loop that lays one element after the other. -/
theorem laid_cons
    (table : Nat → α)
    (pos : Nat)
    (a : α)
    (l : List α) :
    laid (Function.update table pos a) (pos + 1) l =
      laid table pos (a :: l) := by
  funext i
  unfold laid
  rcases Nat.lt_trichotomy i pos with hLt | hEq | hGt
  · rw [if_neg (by omega), if_neg (by omega),
      Function.update_of_ne (by omega)]
  · rw [if_neg (by omega), if_pos (by omega), hEq,
      Function.update_self, Nat.sub_self]
    rfl
  · have hIndex : i - pos = i - (pos + 1) + 1 := by omega
    rw [if_pos (by omega), if_pos (by omega), hIndex,
      Function.update_of_ne (by omega), List.getD_cons_succ]

theorem laid_update_of_lt
    (table : Nat → α)
    {pos i : Nat}
    (hi : i < pos)
    (a : α)
    (l : List α) :
    laid (Function.update table i a) pos l =
      Function.update (laid table pos l) i a := by
  funext j
  by_cases hj : j = i
  · subst hj
    rw [Function.update_self,
      laid_of_outside _ (by omega), Function.update_self]
  · rw [Function.update_of_ne hj]
    unfold laid
    rw [Function.update_of_ne hj]

/- A list laid right before another one. -/
theorem laid_prepend
    (table : Nat → α)
    (pos : Nat)
    (l rest : List α) :
    laid (laid table (pos + l.length) rest) pos l =
      laid table pos (l ++ rest) := by
  induction l generalizing table pos with
  | nil => rw [laid_nil]; rfl
  | cons a l ih =>
      have hPos : pos + (a :: l).length =
          pos + 1 + l.length := by
        rw [List.length_cons]
        omega
      rw [hPos, ← laid_cons, ← laid_update_of_lt _ (by omega),
        ih, laid_cons]
      rfl

theorem laid_append
    (table : Nat → α)
    (pos : Nat)
    (l rest : List α) :
    laid (laid table pos l) (pos + l.length) rest =
      laid table pos (l ++ rest) := by
  induction l generalizing table pos with
  | nil => rw [laid_nil]; rfl
  | cons a l ih =>
      have hPos : pos + (a :: l).length =
          pos + 1 + l.length := by
        rw [List.length_cons]
        omega
      rw [hPos, ← laid_cons, ih, laid_cons]
      rfl

end Logic

------------------------------------------------------------
-- Reversed Ranges
------------------------------------------------------------

namespace Logic

variable {α : Type*}

/- The table with the `n` entries from `pos` on reversed. -/
def reversed
    (table : Nat → α)
    (pos n : Nat) : Nat → α :=
  fun i =>
    if pos ≤ i ∧ i < pos + n then table (pos + n - 1 - (i - pos))
    else table i

theorem reversed_of_outside
    (table : Nat → α)
    {pos n i : Nat}
    (hi : ¬ (pos ≤ i ∧ i < pos + n)) :
    reversed table pos n i = table i :=
  if_neg hi

/- A range of at most one entry. -/
theorem reversed_short
    (table : Nat → α)
    (pos : Nat)
    {n : Nat}
    (hn : n ≤ 1) :
    reversed table pos n = table := by
  funext i
  unfold reversed
  split
  next hi =>
    congr 1
    omega
  next hi => rfl

/-
  The ends of the range are exchanged, and what is between
  them is reversed.
-/
theorem reversed_exchange
    (table : Nat → α)
    {pos last : Nat}
    (hLt : pos < last) :
    reversed
        (Function.update
          (Function.update table last (table pos))
          pos (table last))
        (pos + 1) (last - pos - 1) =
      reversed table pos (last - pos + 1) := by
  funext i
  by_cases hInner :
      pos + 1 ≤ i ∧ i < pos + 1 + (last - pos - 1)
  · have hOuter : pos ≤ i ∧ i < pos + (last - pos + 1) := by
      omega
    unfold reversed
    rw [if_pos hInner, if_pos hOuter,
      Function.update_of_ne (by omega),
      Function.update_of_ne (by omega)]
    congr 1
    omega
  · rw [reversed_of_outside _ hInner]
    by_cases hFirst : i = pos
    · have hOuter : pos ≤ i ∧ i < pos + (last - pos + 1) := by
        omega
      rw [hFirst, Function.update_self]
      unfold reversed
      rw [hFirst] at hOuter
      rw [if_pos hOuter]
      congr 1
      omega
    · rw [Function.update_of_ne hFirst]
      by_cases hLast : i = last
      · have hOuter :
            pos ≤ i ∧ i < pos + (last - pos + 1) := by
          omega
        rw [hLast, Function.update_self]
        unfold reversed
        rw [hLast] at hOuter
        rw [if_pos hOuter]
        congr 1
        omega
      · rw [Function.update_of_ne hLast]
        have hOuter :
            ¬ (pos ≤ i ∧ i < pos + (last - pos + 1)) := by
          omega
        rw [reversed_of_outside _ hOuter]

/- A list in the range is reversed. -/
theorem reversed_laid
    (table : Nat → α)
    (pos : Nat)
    (l rest : List α) :
    reversed (laid table pos (l ++ rest)) pos l.length =
      laid table pos (l.reverse ++ rest) := by
  funext i
  by_cases hInside : pos ≤ i ∧ i < pos + l.length
  · obtain ⟨j, rfl⟩ := Nat.exists_eq_add_of_le hInside.1
    have hj : j < l.length := by omega
    have hIndex : pos + l.length - 1 - (pos + j - pos) =
        pos + (l.length - 1 - j) := by
      omega
    unfold reversed
    rw [if_pos hInside, hIndex,
      laid_of_lt _ _ (by rw [List.length_append]; omega),
      laid_of_lt _ _ (by
        rw [List.length_append, List.length_reverse]
        omega),
      List.getElem_append_left (by omega),
      List.getElem_append_left (by simpa using hj),
      List.getElem_reverse]
  · rw [reversed_of_outside _ hInside, ← laid_append,
      ← laid_append, List.length_reverse]
    -- the rest is laid over both alike
    unfold laid
    split
    next hRest =>
      congr 1
      split
      next hPos =>
        rw [List.getD_eq_default _ _ (by omega),
          List.getD_eq_default _ _ (by
            rw [List.length_reverse]
            omega)]
      next hPos => rfl
    next hRest =>
      rw [if_neg (by omega), if_neg (by omega)]

end Logic
