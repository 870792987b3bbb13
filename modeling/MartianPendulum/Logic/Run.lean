import Mathlib.Data.List.Basic

/-
  Runs of a deterministic labelled transition system.

  A system is a step function `step : σ → ε → σ` on states
  and events.  A run is the fold of `step` over a list of
  events, oldest event first.

  Key definitions include:
    * `run`
    * `Along`

  Key theorems include:
    * `Along.split`
    * `along_iff_forall_split`
    * `invariant_run_of_along`
    * `invariant_run`
    * `along_congr`
    * `along_iff_along`
    * `reached_iff_along`
-/

------------------------------------------------------------
-- Runs
------------------------------------------------------------

namespace Logic

variable {σ ε : Type*}

/- The state reached from `s` by the events of `es`. -/
def run
    (step : σ → ε → σ)
    (s : σ)
    (es : List ε) : σ :=
  es.foldl step s

@[simp] theorem run_nil
    (step : σ → ε → σ)
    (s : σ) :
    run step s [] = s := rfl

@[simp] theorem run_cons
    (step : σ → ε → σ)
    (s : σ)
    (e : ε)
    (es : List ε) :
    run step s (e :: es) = run step (step s e) es := rfl

theorem run_append
    (step : σ → ε → σ)
    (s : σ)
    (es fs : List ε) :
    run step s (es ++ fs) = run step (run step s es) fs :=
  List.foldl_append

end Logic

------------------------------------------------------------
-- Step Conditions Along a Run
------------------------------------------------------------

namespace Logic

variable {σ ε : Type*}
variable {step : σ → ε → σ}
variable {R : σ → ε → Prop}

/-
  `R` holds of every step of the run, that is, of the state
  before the step and the event taken there.
-/
def Along
    (step : σ → ε → σ)
    (R : σ → ε → Prop) :
    σ → List ε → Prop
| _, [] => True
| s, e :: es => R s e ∧ Along step R (step s e) es

theorem along_append
    (s : σ)
    (es fs : List ε) :
    Along step R s (es ++ fs) ↔
      Along step R s es ∧
        Along step R (run step s es) fs := by
  induction es generalizing s with
  | nil => simp [Along]
  | cons e es ih =>
      simp only [List.cons_append, Along, run_cons, ih,
        and_assoc]

/- A condition on a run holds at each of its steps. -/
theorem Along.split
    {s : σ}
    {es fs : List ε}
    {e : ε}
    (hAlong : Along step R s (es ++ e :: fs)) :
    R (run step s es) e := by
  rw [along_append] at hAlong
  exact hAlong.2.1

theorem along_iff_forall_split
    (s : σ)
    (es : List ε) :
    Along step R s es ↔
      ∀ es₁ e es₂, es = es₁ ++ e :: es₂ →
        R (run step s es₁) e := by
  constructor
  · intro hAlong es₁ e es₂ hEs
    subst hEs
    exact hAlong.split
  · intro hSplit
    induction es generalizing s with
    | nil => trivial
    | cons e es ih =>
        refine ⟨hSplit [] e es rfl, ih (step s e) ?_⟩
        intro es₁ e' es₂ hEs
        exact hSplit (e :: es₁) e' es₂ (by simp [hEs])

end Logic

------------------------------------------------------------
-- Invariants
------------------------------------------------------------

namespace Logic

variable {σ ε : Type*}
variable {step : σ → ε → σ}
variable {R : σ → ε → Prop}
variable {I : σ → Prop}

/-
  An invariant that every step meeting `R` preserves holds
  at the end of every run that meets `R` throughout.
-/
theorem invariant_run_of_along
    (hStep : ∀ s e, I s → R s e → I (step s e))
    {s : σ}
    {es : List ε}
    (hInit : I s)
    (hAlong : Along step R s es) :
    I (run step s es) := by
  induction es generalizing s with
  | nil => exact hInit
  | cons e es ih =>
      exact ih (hStep s e hInit hAlong.1) hAlong.2

/- An invariant of every step is an invariant of every run. -/
theorem invariant_run
    (hStep : ∀ s e, I s → I (step s e))
    {s : σ}
    (hInit : I s)
    (es : List ε) :
    I (run step s es) := by
  induction es generalizing s with
  | nil => exact hInit
  | cons e es ih => exact ih (hStep s e hInit)

/-
  Two conditions that agree where an invariant holds agree
  along runs.
-/
theorem along_congr
    {R' : σ → ε → Prop}
    (hStep : ∀ s e, I s → I (step s e))
    (hAgree : ∀ s e, I s → (R s e ↔ R' s e))
    {s : σ}
    (hInit : I s)
    (es : List ε) :
    Along step R s es ↔ Along step R' s es := by
  induction es generalizing s with
  | nil => exact Iff.rfl
  | cons e es ih =>
      exact and_congr (hAgree s e hInit)
        (ih (hStep s e hInit))

/-
  Along runs that meet `C`, two conditions agree if they do
  so where an invariant holds that the second one keeps.
-/
theorem along_iff_along
    {C Q : σ → ε → Prop}
    (hStep : ∀ s e, I s → C s e → R s e → I (step s e))
    (hAgree : ∀ s e, I s → C s e → (Q s e ↔ R s e))
    {s : σ}
    (hInit : I s)
    {es : List ε}
    (hSide : Along step C s es) :
    Along step Q s es ↔ Along step R s es := by
  induction es generalizing s with
  | nil => exact Iff.rfl
  | cons e es ih =>
      have hHere := hAgree s e hInit hSide.1
      constructor
      · rintro ⟨hQ, hRest⟩
        have hR := hHere.mp hQ
        have hNext := hStep s e hInit hSide.1 hR
        exact ⟨hR, (ih hNext hSide.2).mp hRest⟩
      · rintro ⟨hR, hRest⟩
        have hNext := hStep s e hInit hSide.1 hR
        exact ⟨hHere.mpr hR, (ih hNext hSide.2).mpr hRest⟩

/-
  Along runs that meet `C`, a property of states that an
  invariant implies holds in every state reached exactly if
  every step meets `R`, provided `R` keeps the invariant and
  the property fails right after a step that does not meet
  `R`.
-/
theorem reached_iff_along
    {C : σ → ε → Prop}
    {P : σ → Prop}
    (hProp : ∀ s, I s → P s)
    (hStep : ∀ s e, I s → C s e → R s e → I (step s e))
    (hBack : ∀ s e, I s → C s e → P (step s e) → R s e)
    {s : σ}
    (hInit : I s)
    {es : List ε}
    (hSide : Along step C s es) :
    (∀ es₁ es₂, es = es₁ ++ es₂ → P (run step s es₁)) ↔
      Along step R s es := by
  constructor
  · intro hReached
    induction es generalizing s with
    | nil => trivial
    | cons e es ih =>
        have hHere : R s e :=
          hBack s e hInit hSide.1 (hReached [e] es rfl)
        refine ⟨hHere,
          ih (hStep s e hInit hSide.1 hHere) hSide.2 ?_⟩
        intro es₁ es₂ hEs
        exact hReached (e :: es₁) es₂ (by simp [hEs])
  · rintro hAlong es₁ es₂ rfl
    rw [along_append] at hAlong hSide
    have hBoth : Along step (fun s e => C s e ∧ R s e)
        s es₁ := by
      rw [along_iff_forall_split]
      rintro fs₁ e fs₂ rfl
      exact ⟨hSide.1.split, hAlong.1.split⟩
    exact hProp _ (invariant_run_of_along
      (fun s e hInv h => hStep s e hInv h.1 h.2)
      hInit hBoth)

end Logic
