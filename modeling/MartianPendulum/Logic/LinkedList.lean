import MartianPendulum.Logic.ParentChain
import Mathlib.Data.Option.Basic
import Mathlib.Logic.Function.Iterate

/-
  Singly linked lists.

  The links are a map `next : α → Option α`, and a list is
  entered through a pointer `p : Option α`.  `Linked` says
  that following the links from the pointer visits the
  elements of a list and then ends.

  Key definitions include:
    * `Linked`
    * `Reaches`

  Key theorems include:
    * `Linked.reaches_iff`
    * `Linked.push`
    * `Linked.push_cycle`
    * `Linked.unlink_head`
    * `Linked.unlink_next`
-/

------------------------------------------------------------
-- Linked Lists
------------------------------------------------------------

namespace Logic

variable {α : Type*}

/- One link followed from a pointer. -/
def follow
    (next : α → Option α)
    (p : Option α) : Option α :=
  p.bind next

/- The links lead from `p` through the list to the end. -/
def Linked
    (next : α → Option α)
    (p : Option α)
    (l : List α) : Prop :=
  Follows (follow next) none p (l.map some)

/- Some number of links leads from `p` to the element. -/
def Reaches
    (next : α → Option α)
    (p : Option α)
    (a : α) : Prop :=
  ∃ n, (follow next)^[n] p = some a

@[simp] theorem linked_nil
    {next : α → Option α}
    {p : Option α} :
    Linked next p [] ↔ p = none :=
  Iff.rfl

@[simp] theorem linked_cons
    {next : α → Option α}
    {p : Option α}
    {a : α}
    {l : List α} :
    Linked next p (a :: l) ↔
      p = some a ∧ Linked next (next a) l := by
  constructor
  · rintro ⟨rfl, _, hRest⟩
    exact ⟨rfl, hRest⟩
  · rintro ⟨rfl, hRest⟩
    exact ⟨rfl, by simp, hRest⟩

/- No link leads on from the end. -/
theorem not_reaches_none
    (next : α → Option α)
    (a : α) :
    ¬ Reaches next none a := by
  rintro ⟨n, hReach⟩
  have hEnd : (follow next)^[n] none = none :=
    Function.iterate_fixed rfl n
  rw [hEnd] at hReach
  simp at hReach

/- What a pointer to an element reaches. -/
theorem reaches_some_iff
    (next : α → Option α)
    (a b : α) :
    Reaches next (some a) b ↔
      b = a ∨ Reaches next (next a) b := by
  constructor
  · rintro ⟨n, hReach⟩
    cases n with
    | zero =>
        left
        exact (Option.some.inj hReach).symm
    | succ n =>
        right
        rw [Function.iterate_succ_apply] at hReach
        exact ⟨n, hReach⟩
  · rintro (rfl | ⟨n, hReach⟩)
    · exact ⟨0, rfl⟩
    · refine ⟨n + 1, ?_⟩
      rw [Function.iterate_succ_apply]
      exact hReach

namespace Linked

variable {next next' : α → Option α}
variable {p : Option α}
variable {l l' : List α}

/- A linked list repeats no element. -/
theorem nodup
    (hLinked : Linked next p l) :
    l.Nodup :=
  List.Nodup.of_map _ (Follows.nodup hLinked)

theorem unique
    (hLinked : Linked next p l)
    (hLinked' : Linked next p l') :
    l = l' :=
  List.map_injective_iff.mpr (Option.some_injective α)
    (Follows.unique hLinked hLinked')

/- Only the links of the listed elements matter. -/
theorem congr
    (hLinked : Linked next p l)
    (hEq : ∀ a ∈ l, next' a = next a) :
    Linked next' p l := by
  apply Follows.congr hLinked
  intro q hq
  rcases List.mem_map.mp hq with ⟨a, ha, rfl⟩
  exact hEq a ha

/- The elements of the list are those reached. -/
theorem reaches_iff
    (hLinked : Linked next p l)
    (a : α) :
    Reaches next p a ↔ a ∈ l := by
  induction l generalizing p with
  | nil =>
      rw [linked_nil] at hLinked
      subst hLinked
      simp [not_reaches_none]
  | cons b l ih =>
      rw [linked_cons] at hLinked
      rw [hLinked.1, reaches_some_iff, ih hLinked.2,
        List.mem_cons]

/- The list from an element on, replaced. -/
theorem splice
    {l₁ : List α}
    {a : α}
    (hLinked : Linked next p (l₁ ++ a :: l))
    (hEq : ∀ b ∈ l₁, next' b = next b)
    (hRest : Linked next' (next' a) l') :
    Linked next' p (l₁ ++ a :: l') := by
  induction l₁ generalizing p with
  | nil =>
      rw [List.nil_append, linked_cons] at hLinked ⊢
      exact ⟨hLinked.1, hRest⟩
  | cons b l₁ ih =>
      rw [List.cons_append, linked_cons] at hLinked ⊢
      refine ⟨hLinked.1, ?_⟩
      rw [hEq b (by simp)]
      exact ih hLinked.2 (fun c hc => hEq c (by simp [hc]))

/- The tail of a list, entered from its predecessor. -/
theorem rest
    {l₁ : List α}
    {a : α}
    (hLinked : Linked next p (l₁ ++ a :: l)) :
    Linked next (next a) l := by
  induction l₁ generalizing p with
  | nil =>
      rw [List.nil_append, linked_cons] at hLinked
      exact hLinked.2
  | cons b l₁ ih =>
      rw [List.cons_append, linked_cons] at hLinked
      exact ih hLinked.2

end Linked

end Logic

------------------------------------------------------------
-- Updates of the Links
------------------------------------------------------------

namespace Logic

namespace Linked

variable {α : Type*}
variable [DecidableEq α]
variable {next : α → Option α}
variable {p : Option α}
variable {l l₁ l₂ : List α}
variable {a b : α}

/- The links of a list do not change with another element. -/
theorem update_of_not_mem
    (hLinked : Linked next p l)
    (hFresh : a ∉ l)
    (q : Option α) :
    Linked (Function.update next a q) p l := by
  apply hLinked.congr
  intro b hb
  have hNe : b ≠ a := by
    intro hEq
    exact hFresh (hEq ▸ hb)
  exact Function.update_of_ne hNe _ _

/- A fresh element in front. -/
theorem push
    (hLinked : Linked next p l)
    (hFresh : a ∉ l) :
    Linked (Function.update next a p) (some a) (a :: l) := by
  rw [linked_cons, Function.update_self]
  exact ⟨rfl, hLinked.update_of_not_mem hFresh p⟩

/-
  A listed element pushed again closes a cycle: the way from
  the old head still leads back to it.
-/
theorem push_cycle
    (hLinked : Linked next p l)
    (hMem : a ∈ l)
    (l' : List α) :
    ¬ Linked (Function.update next a p) (some a) l' := by
  intro hCycle
  rcases List.append_of_mem hMem with ⟨l₁, l₂, rfl⟩
  have hBefore : a ∉ l₁ := by
    have hNodup := hLinked.nodup
    rw [List.nodup_middle, List.nodup_cons] at hNodup
    intro hIn
    exact hNodup.1 (List.mem_append_left _ hIn)
  cases l' with
  | nil => simp at hCycle
  | cons b l' =>
      rw [linked_cons] at hCycle
      obtain rfl : a = b := Option.some.inj hCycle.1
      have hSame : ∀ c ∈ l₁,
          Function.update next a p c = next c := by
        intro c hc
        have hNe : c ≠ a := by
          intro hEq
          exact hBefore (hEq ▸ hc)
        exact Function.update_of_ne hNe _ _
      rw [Function.update_self] at hCycle
      have hAgain : Linked (Function.update next a p) p
          (l₁ ++ a :: l') := by
        apply hLinked.splice hSame
        rw [Function.update_self]
        exact hCycle.2
      have hEq := hAgain.unique hCycle.2
      have hLength := congrArg List.length hEq
      simp at hLength
      omega

/- The first element unlinked and cleared. -/
theorem unlink_head
    (hLinked : Linked next (some a) (a :: l)) :
    Linked (Function.update next a none) (next a) l := by
  have hNodup := hLinked.nodup
  rw [List.nodup_cons] at hNodup
  rw [linked_cons] at hLinked
  exact hLinked.2.update_of_not_mem hNodup.1 none

/- The element after `b` unlinked and cleared. -/
theorem unlink_next
    (hLinked : Linked next p (l₁ ++ b :: a :: l₂)) :
    Linked
      (Function.update (Function.update next b (next a))
        a none) p (l₁ ++ b :: l₂) := by
  have hNodup := hLinked.nodup
  have hTail := hLinked.rest
  rw [linked_cons] at hTail
  simp only [List.nodup_append, List.nodup_cons,
    List.mem_cons, not_or] at hNodup
  rcases hNodup with ⟨_, ⟨⟨hba, hb⟩, ha, _⟩, hApart⟩
  apply Linked.update_of_not_mem
  · apply hLinked.splice
    · intro c hc
      exact Function.update_of_ne
        (hApart c hc b (Or.inl rfl)) _ _
    · rw [Function.update_self]
      exact hTail.2.update_of_not_mem hb _
  · intro hMem
    rcases List.mem_append.mp hMem with hIn | hIn
    · exact hApart a hIn a (Or.inr (Or.inl rfl)) rfl
    · rcases List.mem_cons.mp hIn with hEq | hIn'
      · exact hba hEq.symm
      · exact ha hIn'

end Linked

end Logic
