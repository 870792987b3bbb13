import Mathlib.Data.List.Nodup
import Mathlib.Logic.Function.Basic

/-
  Stacks encoded by parent links.

  A family of stacks indexed by `τ` is stored as one map
  `parent : ι → ι`, a top element for each index, and a
  value `stop` that ends every chain.  The abstract view is
  a list for each index; `IsForest` says that the links
  encode pairwise disjoint lists that together hold exactly
  the live elements.

  Key definitions include:
    * `Follows`
    * `IsForest`

  Key theorems include:
    * `Follows.unique`
    * `Follows.nodup`
    * `IsForest.push`
    * `IsForest.pop`
-/

------------------------------------------------------------
-- Following Parent Links
------------------------------------------------------------

namespace Logic

variable {ι : Type*}

/-
  Following `parent` from `a` visits the elements of the
  list in order and then reaches `stop`.
-/
def Follows
    (parent : ι → ι)
    (stop : ι) :
    ι → List ι → Prop
| a, [] => a = stop
| a, x :: l =>
    a = x ∧ a ≠ stop ∧ Follows parent stop (parent a) l

namespace Follows

variable {parent parent' : ι → ι}
variable {stop a b : ι}
variable {l l' : List ι}

/- Only the parents of the visited elements matter. -/
theorem congr
    (hChain : Follows parent stop a l)
    (hEq : ∀ x ∈ l, parent' x = parent x) :
    Follows parent' stop a l := by
  induction l generalizing a with
  | nil => exact hChain
  | cons x l ih =>
      rcases hChain with ⟨rfl, hStop, hRest⟩
      refine ⟨rfl, hStop, ?_⟩
      rw [hEq a (by simp)]
      exact ih hRest (fun y hy => hEq y (by simp [hy]))

theorem unique
    (hChain : Follows parent stop a l)
    (hChain' : Follows parent stop a l') :
    l = l' := by
  induction l generalizing a l' with
  | nil =>
      cases l' with
      | nil => rfl
      | cons x l' => exact absurd hChain hChain'.2.1
  | cons x l ih =>
      cases l' with
      | nil => exact absurd hChain' hChain.2.1
      | cons y l' =>
          rcases hChain with ⟨rfl, _, hRest⟩
          rcases hChain' with ⟨rfl, _, hRest'⟩
          rw [ih hRest hRest']

/- Each visited element starts a chain that is no longer. -/
theorem exists_of_mem
    (hChain : Follows parent stop a l)
    (hMem : b ∈ l) :
    ∃ l', Follows parent stop b l' ∧
      l'.length ≤ l.length := by
  induction l generalizing a with
  | nil => simp at hMem
  | cons x l ih =>
      by_cases hHead : b = a
      · subst hHead
        exact ⟨x :: l, hChain, Nat.le_refl _⟩
      · have hTail : b ∈ l := by
          rcases hChain with ⟨rfl, _, _⟩
          simpa [hHead] using hMem
        rcases ih hChain.2.2 hTail with ⟨l', hRest, hLen⟩
        exact ⟨l', hRest, by simp; omega⟩

/- A chain that reaches `stop` repeats no element. -/
theorem nodup
    (hChain : Follows parent stop a l) :
    l.Nodup := by
  induction l generalizing a with
  | nil => exact List.nodup_nil
  | cons x l ih =>
      refine List.nodup_cons.mpr ⟨?_, ih hChain.2.2⟩
      intro hMem
      rcases exists_of_mem hChain.2.2 hMem with
        ⟨l', hAgain, hLen⟩
      rcases hChain with ⟨rfl, hStop, hRest⟩
      have hEq : l' = a :: l :=
        hAgain.unique ⟨rfl, hStop, hRest⟩
      rw [hEq, List.length_cons] at hLen
      omega

/- The start of a chain is visited unless it is `stop`. -/
theorem start_mem
    (hChain : Follows parent stop a l)
    (hStop : a ≠ stop) :
    a ∈ l := by
  cases l with
  | nil => exact absurd hChain hStop
  | cons x l => simp [hChain.1]

/- The parent of a visited element is visited or `stop`. -/
theorem parent_mem
    (hChain : Follows parent stop a l)
    (hMem : b ∈ l)
    (hStop : parent b ≠ stop) :
    parent b ∈ l.tail := by
  induction l generalizing a with
  | nil => simp at hMem
  | cons x l ih =>
      rcases hChain with ⟨rfl, _, hRest⟩
      rcases List.mem_cons.mp hMem with rfl | hTail
      · exact hRest.start_mem hStop
      · exact List.mem_of_mem_tail (ih hRest hTail)

/- The start of a chain lies strictly below nothing. -/
theorem start_not_mem_tail
    (hChain : Follows parent stop a l) :
    a ∉ l.tail := by
  cases l with
  | nil => simp
  | cons x l =>
      have hNodup := hChain.nodup
      rw [List.nodup_cons] at hNodup
      rw [hChain.1]
      exact hNodup.1

end Follows

end Logic

------------------------------------------------------------
-- Families of Disjoint Chains
------------------------------------------------------------

namespace Logic

variable {ι τ : Type*}

/-
  The links encode the lists `chain`: every list starts at
  its top, distinct lists share no element, and an element
  is live exactly when it is on some list.
-/
structure IsForest
    (parent : ι → ι)
    (stop : ι)
    (top : τ → ι)
    (live : ι → Prop)
    (chain : τ → List ι) : Prop where
  follows : ∀ t, Follows parent stop (top t) (chain t)
  disjoint :
    ∀ t u x, x ∈ chain t → x ∈ chain u → t = u
  live_iff : ∀ x, live x ↔ ∃ t, x ∈ chain t

namespace IsForest

variable {parent : ι → ι}
variable {stop : ι}
variable {top : τ → ι}
variable {live : ι → Prop}
variable {chain : τ → List ι}

theorem top_live
    (hForest : IsForest parent stop top live chain)
    {t : τ}
    (hStop : top t ≠ stop) :
    live (top t) :=
  (hForest.live_iff _).mpr
    ⟨t, (hForest.follows t).start_mem hStop⟩

/- The parent of a live element is live or `stop`. -/
theorem parent_live
    (hForest : IsForest parent stop top live chain)
    {x : ι}
    (hLive : live x)
    (hStop : parent x ≠ stop) :
    live (parent x) := by
  rcases (hForest.live_iff x).mp hLive with ⟨t, hMem⟩
  exact (hForest.live_iff _).mpr
    ⟨t, List.mem_of_mem_tail
      ((hForest.follows t).parent_mem hMem hStop)⟩

/- The parent of a live element tops no chain. -/
theorem parent_ne_top
    (hForest : IsForest parent stop top live chain)
    {x : ι}
    (hLive : live x)
    (hStop : parent x ≠ stop)
    (t : τ) :
    parent x ≠ top t := by
  intro hTop
  rcases (hForest.live_iff x).mp hLive with ⟨u, hMem⟩
  have hTail :=
    (hForest.follows u).parent_mem hMem hStop
  have hOwn : top t ∈ chain t :=
    (hForest.follows t).start_mem (hTop ▸ hStop)
  have hSame : u = t :=
    hForest.disjoint u t (parent x)
      (List.mem_of_mem_tail hTail) (hTop ▸ hOwn)
  subst hSame
  exact (hForest.follows u).start_not_mem_tail
    (hTop ▸ hTail)

/- Distinct chains have distinct tops. -/
theorem top_inj
    (hForest : IsForest parent stop top live chain)
    {t u : τ}
    (hStop : top t ≠ stop)
    (hTop : top t = top u) :
    t = u :=
  hForest.disjoint t u (top t)
    ((hForest.follows t).start_mem hStop)
    (hTop ▸ (hForest.follows u).start_mem (hTop ▸ hStop))

variable [DecidableEq τ]

/- The members of the chains with one more top. -/
theorem mem_update_cons
    {t u : τ}
    {n x : ι} :
    x ∈ Function.update chain t (n :: chain t) u ↔
      (x = n ∧ u = t) ∨ x ∈ chain u := by
  by_cases hu : u = t
  · subst hu
    rw [Function.update_self, List.mem_cons]
    simp
  · rw [Function.update_of_ne hu]
    simp [hu]

/- A fresh element on top of one chain. -/
theorem push
    [DecidableEq ι]
    (hForest : IsForest parent stop top live chain)
    {n : ι}
    (t : τ)
    (hFresh : ¬ live n)
    (hStop : n ≠ stop) :
    IsForest
      (Function.update parent n (top t)) stop
      (Function.update top t n)
      (fun x => x = n ∨ live x)
      (Function.update chain t (n :: chain t)) := by
  have hNew : ∀ u, n ∉ chain u := fun u hMem =>
    hFresh ((hForest.live_iff n).mpr ⟨u, hMem⟩)
  have hKeep : ∀ u,
      Follows (Function.update parent n (top t)) stop
        (top u) (chain u) := by
    intro u
    apply (hForest.follows u).congr
    intro x hx
    have hNe : x ≠ n := by
      intro hEq
      exact hNew u (hEq ▸ hx)
    exact Function.update_of_ne hNe _ _
  refine ⟨?_, ?_, ?_⟩
  · intro u
    by_cases hu : u = t
    · subst hu
      simp only [Function.update_self]
      refine ⟨rfl, hStop, ?_⟩
      simpa only [Function.update_self] using hKeep u
    · simpa only [Function.update_of_ne hu] using hKeep u
  · intro u v x hu hv
    rcases mem_update_cons.mp hu with ⟨hx, hut⟩ | hu'
    · rcases mem_update_cons.mp hv with ⟨_, hvt⟩ | hv'
      · exact hut.trans hvt.symm
      · exact absurd (hx ▸ hv') (hNew v)
    · rcases mem_update_cons.mp hv with ⟨hx, _⟩ | hv'
      · exact absurd (hx ▸ hu') (hNew u)
      · exact hForest.disjoint u v x hu' hv'
  · intro x
    simp only [mem_update_cons, exists_or, exists_and_left,
      exists_eq, and_true, hForest.live_iff]

/- The top of one chain removed. -/
theorem pop
    (hForest : IsForest parent stop top live chain)
    (t : τ)
    (hStop : top t ≠ stop) :
    IsForest parent stop
      (Function.update top t (parent (top t)))
      (fun x => x ≠ top t ∧ live x)
      (Function.update chain t (chain t).tail) := by
  have hChain := hForest.follows t
  have hSub : ∀ u x,
      x ∈ Function.update chain t (chain t).tail u →
        x ∈ chain u := by
    intro u x hx
    by_cases hu : u = t
    · subst hu
      rw [Function.update_self] at hx
      exact List.mem_of_mem_tail hx
    · rwa [Function.update_of_ne hu] at hx
  refine ⟨?_, ?_, ?_⟩
  · intro u
    by_cases hu : u = t
    · subst hu
      simp only [Function.update_self]
      cases hList : chain u with
      | nil =>
          rw [hList] at hChain
          exact absurd hChain hStop
      | cons x l =>
          rw [hList] at hChain
          exact hChain.2.2
    · simpa only [Function.update_of_ne hu] using
        hForest.follows u
  · intro u v x hu hv
    exact hForest.disjoint u v x
      (hSub u x hu) (hSub v x hv)
  · intro x
    constructor
    · rintro ⟨hNe, hLive⟩
      rcases (hForest.live_iff x).mp hLive with ⟨u, hMem⟩
      refine ⟨u, ?_⟩
      by_cases hu : u = t
      · subst hu
        rw [Function.update_self]
        cases hList : chain u with
        | nil => simp [hList] at hMem
        | cons y l =>
            rw [hList] at hChain hMem
            have hHead : x ≠ y := by
              rw [← hChain.1]
              exact hNe
            simpa [hHead] using hMem
      · rwa [Function.update_of_ne hu]
    · rintro ⟨u, hMem⟩
      refine ⟨?_, (hForest.live_iff x).mpr
        ⟨u, hSub u x hMem⟩⟩
      intro hEq
      have hOwn : x ∈ chain t := by
        rw [hEq]
        exact hChain.start_mem hStop
      have hSame : u = t :=
        hForest.disjoint u t x (hSub u x hMem) hOwn
      subst hSame
      rw [Function.update_self, hEq] at hMem
      exact hChain.start_not_mem_tail hMem

end IsForest

end Logic
