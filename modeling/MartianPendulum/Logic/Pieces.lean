import Mathlib.Data.List.Basic
import Mathlib.Tactic.Common

/-
  Lines that are cut into pieces of bounded length.

  A text is split at a separator, and each line is cut into
  pieces of at most `cap` elements from its start.  A reader
  with a buffer of `cap` elements finds the pieces one by
  one: `pieces_line`, `pieces_full` and `pieces_last` are
  the three ways in which a piece can end.

  Two texts that are read at the same pace meet line by line
  and character by character: `zipPad`.

  Key definitions include:
    * `chunks`
    * `pieces`
    * `zipPad`

  Key theorems include:
    * `exists_line`
    * `pieces_line`
    * `pieces_full`
    * `pieces_last`
    * `zipPad_tail`
    * `zipPad_pairwise`
-/

------------------------------------------------------------
-- Chunks
------------------------------------------------------------

namespace Logic

variable {α : Type*}

/- The pieces of length `cap`, and what is left in the end. -/
def chunks
    (cap : Nat)
    (l : List α) : List (List α) :=
  (List.range ((l.length + cap - 1) / cap)).map
    (fun i => (l.drop (i * cap)).take cap)

theorem chunks_nil
    {cap : Nat}
    (hCap : 0 < cap) :
    chunks cap ([] : List α) = [] := by
  have hCount : (0 + cap - 1) / cap = 0 :=
    Nat.div_eq_of_lt (by omega)
  simp only [chunks, List.length_nil, hCount,
    List.range_zero, List.map_nil]

/- A list that fits is one piece. -/
theorem chunks_of_length_le
    {cap : Nat}
    {l : List α}
    (hNonempty : l ≠ [])
    (hFits : l.length ≤ cap) :
    chunks cap l = [l] := by
  have hPos := List.length_pos_iff.mpr hNonempty
  have hCount : (l.length + cap - 1) / cap = 1 := by
    have hSplit : l.length + cap - 1 =
        (l.length - 1) + 1 * cap := by omega
    rw [hSplit, Nat.add_mul_div_right _ _ (by omega),
      Nat.div_eq_of_lt (by omega)]
  simp only [chunks, hCount, List.range_one,
    List.map_singleton, Nat.zero_mul, List.drop_zero,
    List.take_of_length_le hFits]

/- A full piece comes off the front. -/
theorem chunks_append
    {cap : Nat}
    (hCap : 0 < cap)
    {l : List α}
    (hFull : l.length = cap)
    (rest : List α) :
    chunks cap (l ++ rest) = l :: chunks cap rest := by
  have hCount : (cap + rest.length + cap - 1) / cap =
      (rest.length + cap - 1) / cap + 1 := by
    have hSplit : cap + rest.length + cap - 1 =
        (rest.length + cap - 1) + 1 * cap := by omega
    rw [hSplit, Nat.add_mul_div_right _ _ hCap]
  rw [chunks, List.length_append, hFull, hCount,
    List.range_succ_eq_map, List.map_cons, List.map_map]
  congr 1
  · simp only [Nat.zero_mul, List.drop_zero]
    exact List.take_left' hFull
  · apply List.map_congr_left
    intro i _
    have hDrop : (i + 1) * cap = l.length + i * cap := by
      rw [hFull, Nat.succ_mul, Nat.add_comm]
    rw [Function.comp_apply, Nat.succ_eq_add_one, hDrop,
      List.drop_length_add_append]

end Logic

------------------------------------------------------------
-- Pieces
------------------------------------------------------------

namespace Logic

variable {α : Type*}
variable [DecidableEq α]

/- The pieces of all lines. -/
def pieces
    (sep : α)
    (cap : Nat)
    (l : List α) : List (List α) :=
  (l.splitOn sep).flatMap (chunks cap)

variable {sep : α}
variable {cap : Nat}
variable {l : List α}

/- A line that ends within the buffer. -/
theorem pieces_line
    (hLine : sep ∉ l)
    (rest : List α) :
    pieces sep cap (l ++ sep :: rest) =
      chunks cap l ++ pieces sep cap rest := by
  rw [pieces, List.splitOn_append_cons_self_of_not_mem hLine,
    List.flatMap_cons]
  rfl

/- The last line, which no separator ends. -/
theorem pieces_last
    (hLine : sep ∉ l) :
    pieces sep cap l = chunks cap l := by
  rw [pieces, List.splitOn_eq_singleton hLine,
    List.flatMap_singleton]

/- A text starts with a line. -/
theorem exists_line
    (sep : α)
    (l : List α) :
    ∃ line more, l = line ++ more ∧ sep ∉ line ∧
      (more = [] ∨ more.head? = some sep) := by
  induction l with
  | nil => exact ⟨[], [], rfl, nofun, .inl rfl⟩
  | cons x l ih =>
      by_cases hx : x = sep
      · subst hx
        exact ⟨[], x :: l, rfl, nofun, .inr rfl⟩
      · rcases ih with ⟨line, more, rfl, hLine, hMore⟩
        refine ⟨x :: line, more, rfl, ?_, hMore⟩
        rw [List.mem_cons, not_or]
        exact ⟨fun hEq => hx hEq.symm, hLine⟩

theorem splitOn_append
    (hLine : sep ∉ l)
    (rest : List α) :
    (l ++ rest).splitOn sep =
      (rest.splitOn sep).modifyHead (l ++ ·) := by
  induction l with
  | nil =>
      have hHead := List.splitOn_ne_nil sep rest
      cases hSplit : rest.splitOn sep with
      | nil => exact absurd hSplit hHead
      | cons line lines =>
          rw [List.nil_append, hSplit]
          rfl
  | cons x l ih =>
      have hx : ¬ (x == sep) = true := by
        intro hEq
        exact hLine (by simp [eq_of_beq hEq])
      rw [List.cons_append,
        List.splitOn_cons_eq_if_modifyHead, if_neg hx,
        ih (fun hMem => hLine (List.mem_cons_of_mem x hMem)),
        List.modifyHead_modifyHead]
      rfl

/- A line has no separator in it. -/
theorem not_mem_of_mem_splitOn
    {line : List α}
    (hMem : line ∈ l.splitOn sep) :
    sep ∉ line := by
  induction l generalizing line with
  | nil =>
      rw [List.splitOn_nil, List.mem_singleton] at hMem
      rw [hMem]
      exact List.not_mem_nil
  | cons x l ih =>
      rw [List.splitOn_cons_eq_if_modifyHead] at hMem
      split at hMem
      next hx =>
        rcases List.mem_cons.mp hMem with rfl | hMem
        · exact List.not_mem_nil
        · exact ih hMem
      next hx =>
        cases hSplit : l.splitOn sep with
        | nil =>
            exact absurd hSplit (List.splitOn_ne_nil sep l)
        | cons first lines =>
            rw [hSplit, List.modifyHead_cons] at hMem
            rw [hSplit] at ih
            rcases List.mem_cons.mp hMem with rfl | hMem
            · rw [List.mem_cons, not_or]
              refine ⟨?_, ih List.mem_cons_self⟩
              rintro rfl
              exact hx BEq.rfl
            · exact ih (List.mem_cons_of_mem _ hMem)

/- A line that fills the buffer before it ends. -/
theorem pieces_full
    (hCap : 0 < cap)
    (hLine : sep ∉ l)
    (hFull : l.length = cap)
    (rest : List α) :
    pieces sep cap (l ++ rest) =
      l :: pieces sep cap rest := by
  have hHead := List.splitOn_ne_nil sep rest
  rw [pieces, pieces, splitOn_append hLine]
  cases hSplit : rest.splitOn sep with
  | nil => exact absurd hSplit hHead
  | cons line lines =>
      rw [List.modifyHead_cons, List.flatMap_cons,
        List.flatMap_cons, chunks_append hCap hFull]
      rfl

end Logic

------------------------------------------------------------
-- Two Lists Side by Side
------------------------------------------------------------

namespace Logic

variable {α γ : Type*}

/-
  `f` of the pairs of elements at the same index, from
  index `n` on; the shorter list is padded.
-/
def zipPad
    (f : Nat → α → α → List γ)
    (pad : α)
    (n : Nat)
    (l₁ l₂ : List α) : List γ :=
  (List.range (max l₁.length l₂.length)).flatMap
    (fun j => f (n + j) (l₁.getD j pad) (l₂.getD j pad))

variable {f : Nat → α → α → List γ}
variable {pad : α}
variable {n : Nat}
variable {l₁ l₂ : List α}

theorem getD_tail
    (l : List α)
    (j : Nat) :
    l.tail.getD j pad = l.getD (j + 1) pad := by
  cases l with
  | nil => rfl
  | cons x l => rfl

theorem max_length_pos
    (hSome : l₁ ≠ [] ∨ l₂ ≠ []) :
    0 < max l₁.length l₂.length := by
  rcases hSome with hFirst | hSecond
  · have hLength := List.length_pos_of_ne_nil hFirst
    omega
  · have hLength := List.length_pos_of_ne_nil hSecond
    omega

/- The heads come first, then the tails. -/
theorem zipPad_tail
    (hSome : l₁ ≠ [] ∨ l₂ ≠ []) :
    zipPad f pad n l₁ l₂ =
      f n (l₁.headD pad) (l₂.headD pad) ++
        zipPad f pad (n + 1) l₁.tail l₂.tail := by
  have hPos := max_length_pos hSome
  have hLength : max l₁.length l₂.length =
      max l₁.tail.length l₂.tail.length + 1 := by
    rw [List.length_tail, List.length_tail]
    omega
  have hHead : ∀ l : List α, l.getD 0 pad = l.headD pad := by
    intro l
    cases l with
    | nil => rfl
    | cons x l => rfl
  unfold zipPad
  rw [hLength, List.range_succ_eq_map, List.flatMap_cons,
    List.flatMap_map, hHead, hHead]
  congr 1
  apply List.flatMap_congr
  intro j _
  rw [getD_tail, getD_tail, Nat.succ_eq_add_one,
    Nat.add_assoc, Nat.add_comm 1 j]

theorem mem_zipPad
    {x : γ} :
    x ∈ zipPad f pad n l₁ l₂ ↔
      ∃ j < max l₁.length l₂.length,
        x ∈ f (n + j) (l₁.getD j pad) (l₂.getD j pad) := by
  simp only [zipPad, List.mem_flatMap, List.mem_range]

/- What holds between earlier and later elements. -/
theorem zipPad_pairwise
    {R : γ → γ → Prop}
    (hSame : ∀ j < max l₁.length l₂.length,
      (f (n + j) (l₁.getD j pad)
        (l₂.getD j pad)).Pairwise R)
    (hLater : ∀ i j, i < j → j < max l₁.length l₂.length →
      ∀ x ∈ f (n + i) (l₁.getD i pad) (l₂.getD i pad),
      ∀ y ∈ f (n + j) (l₁.getD j pad) (l₂.getD j pad),
        R x y) :
    (zipPad f pad n l₁ l₂).Pairwise R := by
  unfold zipPad
  rw [List.pairwise_flatMap]
  refine ⟨fun j hj => hSame j (List.mem_range.mp hj), ?_⟩
  refine List.Pairwise.imp_of_mem ?_ List.pairwise_lt_range
  intro i j _ hj hLt
  exact hLater i j hLt (List.mem_range.mp hj)

end Logic
