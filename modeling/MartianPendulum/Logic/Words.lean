import Mathlib.Data.List.TakeWhile

/-
  Lists split at runs of separators.

  The words of a list are the pieces between separators that
  are not empty.  Joined without separators they are the
  elements of the list that are no separators, and that list
  has the same words only if there is at most one.

  Key definitions include:
    * `Logic.words`

  Key theorems include:
    * `Logic.words_append_sep`
    * `Logic.words_eq_cons`
    * `Logic.words_filter_eq_iff`
-/

------------------------------------------------------------
-- Words
------------------------------------------------------------

namespace Logic

variable {α : Type*}
variable {sep : α → Bool}

/- The nonempty pieces between separators. -/
def words
    (sep : α → Bool)
    (l : List α) : List (List α) :=
  (l.splitOnP sep).filter (fun w => !w.isEmpty)

/- The words before and after a separator. -/
theorem words_append_sep
    {c : α}
    (hSep : sep c = true)
    (l m : List α) :
    words sep (l ++ c :: m) = words sep l ++ words sep m := by
  unfold words
  rw [List.splitOnP_append_cons l m hSep,
    List.filter_append]

theorem words_cons_sep
    {c : α}
    (hSep : sep c = true)
    (l : List α) :
    words sep (c :: l) = words sep l := by
  have hSplit := words_append_sep hSep [] l
  rwa [List.nil_append] at hSplit

/- A list without separators is one word. -/
theorem words_of_solid
    {l : List α}
    (hSolid : ∀ c ∈ l, sep c = false) :
    words sep l = if l = [] then [] else [l] := by
  unfold words
  rw [List.splitOnP_eq_singleton hSolid]
  cases l with
  | nil => rfl
  | cons c l => rfl

/- Separators in front do not matter. -/
theorem words_dropWhile
    (sep : α → Bool)
    (l : List α) :
    words sep (l.dropWhile sep) = words sep l := by
  induction l with
  | nil => rfl
  | cons c l ih =>
      cases hSep : sep c with
      | false => rw [List.dropWhile_cons_of_neg (by simp [hSep])]
      | true =>
          rw [List.dropWhile_cons_of_pos hSep, ih,
            words_cons_sep hSep]

/- The first word ends before the first separator. -/
theorem words_eq_cons
    {c : α}
    {l : List α}
    (hHead : sep c = false) :
    words sep (c :: l) =
      (c :: l).takeWhile (fun a => !sep a) ::
        words sep ((c :: l).dropWhile (fun a => !sep a)) := by
  have hSolid : ∀ a ∈ (c :: l).takeWhile (fun a => !sep a),
      sep a = false := by
    intro a ha
    simpa using List.mem_takeWhile_imp ha
  have hFirst := words_of_solid hSolid
  rw [if_neg (by simp [hHead])] at hFirst
  conv =>
    lhs
    rw [← List.takeWhile_append_dropWhile (l := c :: l)
      (p := fun a => !sep a)]
  cases hRest : (c :: l).dropWhile (fun a => !sep a) with
  | nil =>
      rw [List.append_nil, hFirst]
      rfl
  | cons b m =>
      have hSep : sep b = true := by
        have hStop := List.head?_dropWhile_not
          (fun a => !sep a) (c :: l)
        rw [hRest] at hStop
        simpa using hStop
      rw [words_append_sep hSep, words_cons_sep hSep, hFirst]
      rfl

end Logic

------------------------------------------------------------
-- Joined Words
------------------------------------------------------------

namespace Logic

variable {α : Type*}

theorem flatten_splitOnP
    (sep : α → Bool)
    (l : List α) :
    (l.splitOnP sep).flatten = l.filter (fun c => !sep c) := by
  induction l with
  | nil => simp
  | cons c l ih =>
      rw [List.splitOnP_cons_eq_if_modifyHead]
      cases hSep : sep c with
      | true => simp [hSep, ih]
      | false =>
          rcases List.exists_cons_of_ne_nil
              (List.splitOnP_ne_nil sep l) with
            ⟨w, ws, hSplit⟩
          rw [hSplit] at ih
          simp [hSep, hSplit, ← ih]

theorem flatten_filter_isEmpty
    (ws : List (List α)) :
    (ws.filter (fun w => !w.isEmpty)).flatten =
      ws.flatten := by
  induction ws with
  | nil => rfl
  | cons w ws ih =>
      cases w with
      | nil => simpa using ih
      | cons c w => simpa using ih

theorem flatten_words
    (sep : α → Bool)
    (l : List α) :
    (words sep l).flatten = l.filter (fun c => !sep c) := by
  unfold words
  rw [flatten_filter_isEmpty, flatten_splitOnP]

theorem words_nonempty
    {sep : α → Bool}
    {l w : List α}
    (hMem : w ∈ words sep l) :
    w ≠ [] := by
  unfold words at hMem
  simpa using (List.mem_filter.mp hMem).2

/-
  Without its separators a list has the same words only if
  it has at most one.
-/
theorem words_filter_eq_iff
    (sep : α → Bool)
    (l : List α) :
    words sep (l.filter (fun c => !sep c)) = words sep l ↔
      (words sep l).length ≤ 1 := by
  have hSolid : ∀ c ∈ l.filter (fun c => !sep c),
      sep c = false := by
    intro c hc
    simpa using (List.mem_filter.mp hc).2
  rw [words_of_solid hSolid, ← flatten_words]
  have hNonempty : ∀ w ∈ words sep l, w ≠ [] :=
    fun w hMem => words_nonempty hMem
  generalize words sep l = ws at hNonempty ⊢
  match ws, hNonempty with
  | [], _ => simp
  | [w], hNonempty => simp [hNonempty w (by simp)]
  | w :: v :: ws, hNonempty =>
      have hHead := hNonempty w (by simp)
      simp [hHead]

end Logic
