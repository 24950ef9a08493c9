/-
  RustExt4.Lib.Runs

  Runs of a system of labelled steps, each of which a guard allows in the state
  it starts from, and the rule that an invariant of the allowed steps holds
  wherever a run ends.
-/
import Mathlib.Tactic.Common

namespace Runs

variable {σ α : Type}

/-- A run of any number of steps that the guard allows. -/
inductive Run (step : σ → α → σ → Prop) (guard : σ → α → Prop) : σ → σ → Prop
  | refl (s : σ) : Run step guard s s
  | tail {s s' s'' : σ} {a : α} : Run step guard s s' → guard s' a → step s' a s'' →
      Run step guard s s''

namespace Run

variable {step : σ → α → σ → Prop} {guard guard' : σ → α → Prop} {s s' s'' : σ}

/-- What every allowed step keeps holds at the end of every run. -/
theorem invariant {I : σ → Prop} (hrun : Run step guard s s')
    (hstep : ∀ s a s', I s → guard s a → step s a s' → I s') (h0 : I s) : I s' := by
  induction hrun with
  | refl => exact h0
  | tail _ hguard hs ih => exact hstep _ _ _ ih hguard hs

theorem single {a : α} (hguard : guard s a) (h : step s a s') : Run step guard s s' :=
  .tail (.refl s) hguard h

theorem trans (h1 : Run step guard s s') (h2 : Run step guard s' s'') : Run step guard s s'' := by
  induction h2 with
  | refl => exact h1
  | tail _ hguard hs ih => exact .tail ih hguard hs

end Run
end Runs
