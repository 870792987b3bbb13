import Mathlib.Order.Basic
import Mathlib.Data.List.Basic

/-
  First-fit scans of an increasing list.

  `List.find?` on an increasing list returns the least
  element that satisfies the test.
-/

------------------------------------------------------------
-- First Fit
------------------------------------------------------------

namespace Logic

variable {α : Type*}

/- The element found is least among those that fit. -/
theorem find?_least
    [Preorder α]
    {l : List α}
    {p : α → Bool}
    {x : α}
    (hSorted : l.Pairwise (· < ·))
    (hFind : l.find? p = some x) :
    x ∈ l ∧ p x = true ∧ ∀ y ∈ l, y < x → p y = false := by
  rcases List.find?_eq_some_iff_append.mp hFind with
    ⟨hp, before, after, hSplit, hBefore⟩
  subst hSplit
  refine ⟨by simp, hp, ?_⟩
  intro y hMem hLt
  rcases List.mem_append.mp hMem with hEarly | hLate
  · simpa using hBefore y hEarly
  · rcases List.mem_cons.mp hLate with rfl | hTail
    · exact absurd hLt (lt_irrefl _)
    · have hGt : x < y :=
        List.rel_of_pairwise_cons
          (List.pairwise_append.mp hSorted).2.1 hTail
      exact absurd hLt hGt.asymm

end Logic
