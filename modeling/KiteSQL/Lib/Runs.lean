import Mathlib.Tactic

/-! Runs of a system that answers events, each step allowed by a condition on the state before it. -/
namespace Runs

variable {σ ε ρ : Type}

/-- The log of a run has the newest event first. -/
abbrev Log (ε ρ : Type) := List (ε × ρ)

inductive Run (step : σ → ε → Option (σ × ρ)) (allowed : σ → ε → Prop) (start : σ) :
    Log ε ρ → σ → Prop
  | start : Run step allowed start [] start
  | step {log : Log ε ρ} {s s' : σ} {e : ε} {r : ρ} : Run step allowed start log s →
      allowed s e → step s e = some (s', r) → Run step allowed start ((e, r) :: log) s'

variable {step : σ → ε → Option (σ × ρ)} {allowed : σ → ε → Prop} {start s : σ} {log : Log ε ρ}

theorem Run.invariant {P : Log ε ρ → σ → Prop} (h : Run step allowed start log s)
    (hstart : P [] start)
    (hstep : ∀ {log s e s' r}, P log s → allowed s e → step s e = some (s', r) →
      P ((e, r) :: log) s') : P log s := by
  induction h with
  | start => exact hstart
  | step _ hallowed hs ih => exact hstep ih hallowed hs

/-- The events one after the other, if each is let through and the system answers it. -/
def replay (guard : σ → ε → Bool) (step : σ → ε → Option (σ × ρ)) :
    List ε → Log ε ρ × σ → Option (Log ε ρ × σ)
  | [], run => some run
  | e :: events, (log, s) =>
    if guard s e then
      match step s e with
      | none => none
      | some (s', r) => replay guard step events ((e, r) :: log, s')
    else none

theorem Run.replay {guard : σ → ε → Bool} {events : List ε} {run : Log ε ρ × σ}
    (hguard : ∀ s e, guard s e = true → allowed s e) (h : Run step allowed start log s)
    (hr : replay guard step events (log, s) = some run) :
    Run step allowed start run.1 run.2 := by
  induction events generalizing log s with
  | nil =>
    cases hr
    exact h
  | cons e events ih =>
    rw [Runs.replay] at hr
    split at hr
    · next he =>
      cases hs : step s e with
      | none => simp [hs] at hr
      | some p =>
        rw [hs] at hr
        exact ih (h.step (hguard s e he) hs) hr
    · cases hr

end Runs
