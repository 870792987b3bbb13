import MartianPendulum.Logic.Run
import Mathlib.Logic.Function.Basic

/-
  Reads of the real-time clock.

  `rtc_read` clears the global `rtc_signal`, waits until the
  interrupt handler has set it, and clears it again.  The
  processes of all terminals share the flag, and the
  scheduler runs their steps in any order.  A poll that sees
  the flag set and its clearing are one step.

  Key definitions include:
    * `RtcState`
    * `RtcState.step`
    * `RtcState.Clears`

  Key theorems include:
    * `RtcState.step_rtcSignal_iff`
    * `RtcState.run_rtcSignal_iff`
    * `rtc_poll_returns_iff`
-/

------------------------------------------------------------
-- Readers
------------------------------------------------------------

namespace MartianPendulum

/- `rtc_signal`, and the processes inside `rtc_read`. -/
structure RtcState (ι : Type*) where
  rtcSignal : Bool
  waiting : ι → Bool

inductive RtcEvent (ι : Type*) where
-- `rtc_int_handler`
| interrupt
-- a process calls `rtc_read` and clears the flag
| enter (p : ι)
-- a process in `rtc_read` tests the flag
| poll (p : ι)

namespace RtcState

variable {ι : Type*}

/- `rtc_init` -/
def rtcInit : RtcState ι :=
  { rtcSignal := false
    waiting := fun _ => false }

variable [DecidableEq ι]

/- Only a process outside enters, only one inside polls. -/
def step
    (s : RtcState ι) :
    RtcEvent ι → RtcState ι
| .interrupt => { s with rtcSignal := true }
| .enter p =>
    if s.waiting p then s
    else
      { rtcSignal := false
        waiting := Function.update s.waiting p true }
| .poll p =>
    if s.waiting p then
      if s.rtcSignal then
        { rtcSignal := false
          waiting := Function.update s.waiting p false }
      else s
    else s

/-
  The step clears the flag: a process enters, or one polls
  and returns.
-/
def Clears
    (s : RtcState ι) :
    RtcEvent ι → Prop
| .interrupt => False
| .enter p => s.waiting p = false
| .poll p => s.waiting p = true ∧ s.rtcSignal = true

end RtcState

end MartianPendulum

------------------------------------------------------------
-- The Flag
------------------------------------------------------------

namespace MartianPendulum

namespace RtcState

variable {ι : Type*}
variable [DecidableEq ι]

/- The flag is set by an interrupt, and stays set. -/
theorem step_rtcSignal_iff
    (s : RtcState ι)
    (e : RtcEvent ι) :
    (s.step e).rtcSignal = true ↔
      e = .interrupt ∨
        s.rtcSignal = true ∧ ¬ s.Clears e := by
  cases e with
  | interrupt => simp [step]
  | enter p =>
      cases hWait : s.waiting p with
      | true => simp [step, Clears, hWait]
      | false => simp [step, Clears, hWait]
  | poll p =>
      cases hWait : s.waiting p with
      | false => simp [step, Clears, hWait]
      | true =>
          cases hSignal : s.rtcSignal with
          | true => simp [step, Clears, hWait, hSignal]
          | false => simp [step, hWait, hSignal]

/- A process waits until it polls itself. -/
theorem step_waiting
    {s : RtcState ι}
    {p : ι}
    (hWait : s.waiting p = true)
    {e : RtcEvent ι}
    (hOther : e ≠ .poll p) :
    (s.step e).waiting p = true := by
  cases e with
  | interrupt => exact hWait
  | enter q =>
      simp only [step]
      split
      · exact hWait
      · by_cases hq : p = q
        · subst hq
          exact Function.update_self _ _ _
        · dsimp only
          rw [Function.update_of_ne hq]
          exact hWait
  | poll q =>
      have hq : p ≠ q := by
        intro hEq
        exact hOther (by rw [hEq])
      simp only [step]
      split
      · split
        · dsimp only
          rw [Function.update_of_ne hq]
          exact hWait
        · exact hWait
      · exact hWait

theorem run_waiting
    {s : RtcState ι}
    {p : ι}
    (hWait : s.waiting p = true)
    {es : List (RtcEvent ι)}
    (hOthers : ∀ e ∈ es, e ≠ .poll p) :
    (Logic.run step s es).waiting p = true := by
  induction es generalizing s with
  | nil => exact hWait
  | cons e es ih =>
      rw [Logic.run_cons]
      exact ih (step_waiting hWait (hOthers e (by simp)))
        (fun e he => hOthers e (by simp [he]))

/- A waiting process returns if it finds the flag set. -/
theorem step_poll
    {s : RtcState ι}
    {p : ι}
    (hWait : s.waiting p = true) :
    (s.step (.poll p)).waiting p = false ↔
      s.rtcSignal = true := by
  cases hSignal : s.rtcSignal with
  | true => simp [step, hWait, hSignal]
  | false => simp [step, hWait, hSignal]

/-
  The flag is set at the end of a run if nothing has cleared
  it since the start, or since some interrupt.
-/
theorem run_rtcSignal_iff
    (s : RtcState ι)
    (es : List (RtcEvent ι)) :
    (Logic.run step s es).rtcSignal = true ↔
      s.rtcSignal = true ∧
          Logic.Along step (fun s e => ¬ s.Clears e) s es ∨
        ∃ es₁ es₂,
          es = es₁ ++ .interrupt :: es₂ ∧
            Logic.Along step (fun s e => ¬ s.Clears e)
              (Logic.run step s (es₁ ++ [.interrupt]))
              es₂ := by
  induction es generalizing s with
  | nil => simp [Logic.Along]
  | cons e es ih =>
      rw [Logic.run_cons, ih, step_rtcSignal_iff]
      constructor
      · rintro (⟨rfl | hKept, hRest⟩ |
          ⟨es₁, es₂, rfl, hRest⟩)
        · exact Or.inr ⟨[], es, rfl, hRest⟩
        · exact Or.inl ⟨hKept.1, hKept.2, hRest⟩
        · exact Or.inr ⟨e :: es₁, es₂, rfl, hRest⟩
      · rintro (⟨hSignal, hKept, hRest⟩ |
          ⟨es₁, es₂, hEs, hRest⟩)
        · exact Or.inl ⟨Or.inr ⟨hSignal, hKept⟩, hRest⟩
        · cases es₁ with
          | nil =>
              rw [List.nil_append, List.cons.injEq] at hEs
              rcases hEs with ⟨rfl, rfl⟩
              exact Or.inl ⟨Or.inl rfl, hRest⟩
          | cons e' es₁ =>
              rw [List.cons_append, List.cons.injEq] at hEs
              rcases hEs with ⟨rfl, rfl⟩
              exact Or.inr ⟨es₁, es₂, rfl, hRest⟩

/-
  The next poll after an interrupt returns exactly if the
  flag was not cleared since the last interrupt before it.
-/
theorem step_poll_iff
    {s : RtcState ι}
    {p : ι}
    (hWait : s.waiting p = true)
    {es : List (RtcEvent ι)}
    (hNext : ∀ e ∈ es, e ≠ .poll p) :
    ((Logic.run step s (.interrupt :: es)).step
        (.poll p)).waiting p = false ↔
      ∃ es₁ es₂,
        RtcEvent.interrupt :: es =
            es₁ ++ .interrupt :: es₂ ∧
          Logic.Along step (fun s e => ¬ s.Clears e)
            (Logic.run step s (es₁ ++ [.interrupt]))
            es₂ := by
  have hStill :
      (Logic.run step s (.interrupt :: es)).waiting p =
        true := by
    apply run_waiting hWait
    intro e he
    rcases List.mem_cons.mp he with rfl | hMem
    · simp
    · exact hNext e hMem
  rw [step_poll hStill, run_rtcSignal_iff]
  constructor
  · rintro (⟨-, -, hRest⟩ | hLater)
    · exact ⟨[], es, rfl, hRest⟩
    · exact hLater
  · exact Or.inr

end RtcState

end MartianPendulum

------------------------------------------------------------
-- Ticks and Polls
------------------------------------------------------------

namespace MartianPendulum

/-
  A process waits in `rtc_read` when an interrupt comes, and
  polls next after the events `es`.  It returns exactly if
  no process has entered or returned since the last
  interrupt before that poll.
-/
theorem rtc_poll_returns_iff
    {ι : Type*}
    [DecidableEq ι]
    (es₀ es : List (RtcEvent ι))
    (p : ι)
    (hWait : (Logic.run RtcState.step RtcState.rtcInit
      es₀).waiting p = true)
    (hNext : ∀ e ∈ es, e ≠ .poll p) :
    ((Logic.run RtcState.step RtcState.rtcInit
        (es₀ ++ .interrupt :: es)).step
          (.poll p)).waiting p = false ↔
      ∃ es₁ es₂,
        RtcEvent.interrupt :: es =
            es₁ ++ .interrupt :: es₂ ∧
          Logic.Along RtcState.step
            (fun s e => ¬ s.Clears e)
            (Logic.run RtcState.step RtcState.rtcInit
              (es₀ ++ (es₁ ++ [.interrupt]))) es₂ := by
  simp only [Logic.run_append RtcState.step
    RtcState.rtcInit es₀]
  exact RtcState.step_poll_iff hWait hNext

/-
  Two processes wait.  The second one takes the first tick
  and polls once more, but a tick comes in between, and the
  first process gets that one.
-/
theorem rtc_poll_returns_iff_two :
    ((Logic.run RtcState.step RtcState.rtcInit
        [RtcEvent.enter 0, .enter 1, .interrupt, .poll 1,
          .interrupt, .poll 1, .enter 0]).step
            (.poll 0)).waiting 0 = false := by
  have hNext : ∀ e ∈ [RtcEvent.poll 1, .interrupt,
      .poll 1, .enter 0], e ≠ .poll 0 := by
    simp
  have hKept : Logic.Along RtcState.step
      (fun s e => ¬ s.Clears e)
      (Logic.run RtcState.step RtcState.rtcInit
        ([RtcEvent.enter 0, .enter 1] ++
          ([.interrupt, .poll 1] ++ [.interrupt])))
      [.poll 1, .enter 0] := by
    refine ⟨?_, ?_, trivial⟩
    · rintro ⟨hWaits, -⟩
      cases hWaits
    · intro hOutside
      cases hOutside
  exact (rtc_poll_returns_iff [RtcEvent.enter 0, .enter 1]
    [.poll 1, .interrupt, .poll 1, .enter 0] 0 rfl
    hNext).mpr ⟨[.interrupt, .poll 1], [.poll 1, .enter 0],
      rfl, hKept⟩

/-
  Two processes wait, and the one that polls first takes the
  tick of the other.
-/
theorem rtc_tick_lost :
    ¬ ∀ (es₀ es : List (RtcEvent Nat)) (p : Nat),
      (Logic.run RtcState.step RtcState.rtcInit
        es₀).waiting p = true →
      (∀ e ∈ es, e ≠ .poll p) →
        ((Logic.run RtcState.step RtcState.rtcInit
          (es₀ ++ .interrupt :: es)).step
            (.poll p)).waiting p = false := by
  intro hAll
  have hReturns := hAll [.enter 0, .enter 1] [.poll 1] 0 rfl
    (by simp)
  exact absurd hReturns (by decide)

end MartianPendulum
