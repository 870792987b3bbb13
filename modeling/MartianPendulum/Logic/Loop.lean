import Mathlib.Data.List.Basic
import Mathlib.Logic.Function.Iterate

/-
  Loops that write a table or thread a state.

  A `for` loop is a fold over its index list.  A loop that
  writes one entry for each index, and may skip some of
  them, leaves the table described by
  `foldl_skip_update_apply`.  A bulk loop goes by single
  elements until its state is aligned, then by groups of
  elements, and then by single elements again.

  Key definitions include:
    * `bulkLoop`

  Key theorems include:
    * `foldl_skip_update_apply`
    * `foldl_update_apply`
    * `foldl_preserves`
    * `bulkLoop_invariant`
-/

------------------------------------------------------------
-- Table Loops
------------------------------------------------------------

namespace Logic

variable {α β : Type*}
variable [DecidableEq α]

/- The table after a loop that skips some indices. -/
theorem foldl_skip_update_apply
    (skip : α → Prop)
    [DecidablePred skip]
    (f : α → β)
    (l : List α)
    (table : α → β)
    (j : α) :
    l.foldl
        (fun table i =>
          if skip i then table
          else Function.update table i (f i))
        table j =
      if j ∈ l ∧ ¬ skip j then f j else table j := by
  induction l generalizing table with
  | nil => simp
  | cons i l ih =>
      rw [List.foldl_cons, ih]
      by_cases hLater : j ∈ l ∧ ¬ skip j
      · rw [if_pos hLater, if_pos]
        exact ⟨List.mem_cons_of_mem i hLater.1, hLater.2⟩
      · rw [if_neg hLater]
        by_cases hSkip : skip j
        · have hLast :
              (if skip i then table
                else Function.update table i (f i)) j =
                table j := by
            by_cases hi : skip i
            · rw [if_pos hi]
            · have hNe : j ≠ i := by
                intro hEq
                exact hi (hEq ▸ hSkip)
              rw [if_neg hi, Function.update_of_ne hNe]
          rw [hLast, if_neg (fun h => h.2 hSkip)]
        · have hNot : j ∉ l := fun h => hLater ⟨h, hSkip⟩
          by_cases hHere : j = i
          · subst hHere
            simp [hSkip]
          · by_cases hi : skip i
            · simp [hi, hHere, hNot]
            · simp [hi, hHere, hNot]

/- The table after a loop that writes every index. -/
theorem foldl_update_apply
    (f : α → β)
    (l : List α)
    (table : α → β)
    (j : α) :
    l.foldl
        (fun table i => Function.update table i (f i))
        table j =
      if j ∈ l then f j else table j := by
  have hLoop := foldl_skip_update_apply
    (fun _ => False) f l table j
  simpa using hLoop

end Logic

------------------------------------------------------------
-- State Loops
------------------------------------------------------------

namespace Logic

variable {α σ : Type*}

/-
  A reflexive and transitive relation between the states
  before and after each pass, under an invariant that every
  pass keeps, holds across the loop.
-/
theorem foldl_preserves
    {R : σ → σ → Prop}
    {I : σ → Prop}
    {body : σ → α → σ}
    {l : List α}
    (hRefl : ∀ s, R s s)
    (hTrans : ∀ s₁ s₂ s₃, R s₁ s₂ → R s₂ s₃ → R s₁ s₃)
    (hBody : ∀ s, ∀ i ∈ l, I s →
      R s (body s i) ∧ I (body s i))
    {s : σ}
    (hInit : I s) :
    R s (l.foldl body s) ∧ I (l.foldl body s) := by
  induction l generalizing s with
  | nil => exact ⟨hRefl s, hInit⟩
  | cons i l ih =>
      rcases hBody s i (by simp) hInit with ⟨hStep, hInv⟩
      rcases
          ih (fun s j hj => hBody s j (by simp [hj])) hInv with
        ⟨hRest, hEnd⟩
      exact ⟨hTrans _ _ _ hStep hRest, hEnd⟩

end Logic

------------------------------------------------------------
-- Bulk Loops
------------------------------------------------------------

namespace Logic

variable {σ : Type*}

/- Single steps until the state is aligned. -/
def untilAligned
    (aligned : σ → Bool)
    (one : σ → σ) :
    Nat → σ → Nat × σ
| 0, s => (0, s)
| n + 1, s =>
    if aligned s then (n + 1, s)
    else untilAligned aligned one n (one s)

/-
  `n` elements: single ones up to the alignment, the rest in
  groups of `size`, and the remainder of that.
-/
def bulkLoop
    (aligned : σ → Bool)
    (one : σ → σ)
    (group : σ → σ)
    (size n : Nat)
    (s : σ) : σ :=
  match untilAligned aligned one n s with
  | (0, s) => s
  | (rest, s) =>
      one^[rest % size] (group^[rest / size] s)

variable {aligned : σ → Bool}
variable {one group : σ → σ}
variable {I : Nat → σ → Prop}

theorem iterate_invariant
    {f : σ → σ}
    {size total : Nat}
    (hStep : ∀ k s, I k s → k + size ≤ total →
      I (k + size) (f s))
    {n k : Nat}
    {s : σ}
    (hInit : I k s)
    (hFit : k + n * size ≤ total) :
    I (k + n * size) (f^[n] s) := by
  induction n generalizing k s with
  | zero => simpa using hInit
  | succ n ih =>
      have hSucc : k + (n + 1) * size =
          k + size + n * size := by
        rw [Nat.succ_mul]
        omega
      rw [hSucc] at hFit ⊢
      exact ih (hStep k s hInit (by omega)) hFit

theorem untilAligned_invariant
    (aligned : σ → Bool)
    {total : Nat}
    (hOne : ∀ k s, I k s → k + 1 ≤ total →
      I (k + 1) (one s))
    {n k : Nat}
    {s : σ}
    (hInit : I k s)
    (hFit : k + n = total) :
    ∃ j, j + (untilAligned aligned one n s).1 = total ∧
      I j (untilAligned aligned one n s).2 := by
  induction n generalizing k s with
  | zero => exact ⟨k, hFit, hInit⟩
  | succ n ih =>
      unfold untilAligned
      split
      next hAligned => exact ⟨k, hFit, hInit⟩
      next hNot =>
        exact ih (hOne k s hInit (by omega)) (by omega)

/-
  An invariant about the number of elements that are done
  holds of all of them in the end.
-/
theorem bulkLoop_invariant
    {size total : Nat}
    (hOne : ∀ k s, I k s → k + 1 ≤ total →
      I (k + 1) (one s))
    (hGroup : ∀ k s, I k s → k + size ≤ total →
      I (k + size) (group s))
    {s : σ}
    (hInit : I 0 s) :
    I total (bulkLoop aligned one group size total s) := by
  rcases untilAligned_invariant aligned hOne hInit
      (Nat.zero_add total) with
    ⟨j, hRest, hThere⟩
  unfold bulkLoop
  generalize untilAligned aligned one total s = reached
    at hRest hThere
  cases reached with
  | mk rest s' =>
      dsimp only at hRest hThere
      cases rest with
      | zero =>
          have hAll : j = total := by omega
          rw [hAll] at hThere
          exact hThere
      | succ rest =>
          have hParts := Nat.div_add_mod (rest + 1) size
          rw [Nat.mul_comm] at hParts
          have hGroups := iterate_invariant hGroup hThere
            (show j + (rest + 1) / size * size ≤ total by
              omega)
          have hTail := iterate_invariant hOne hGroups
            (show j + (rest + 1) / size * size +
              (rest + 1) % size * 1 ≤ total by omega)
          have hAll : j + (rest + 1) / size * size +
              (rest + 1) % size * 1 = total := by
            omega
          rw [hAll] at hTail
          exact hTail

end Logic
