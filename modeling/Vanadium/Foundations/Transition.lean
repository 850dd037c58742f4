import Mathlib

/-!
# Runs of a transition system

A system is a partial step function; a run is a list of actions taken one after the other. Safety
properties are invariants of the steps, carried along a run by `run_invariant`.
-/

namespace Vanadium.Foundations.Transition

variable {σ α : Type} {step : σ → α → Option σ} {as : List α} {ok : σ → α → Prop} {I : σ → Prop}
  {a : α} {s u : σ}

/-- Take the given actions one after the other. -/
def run (step : σ → α → Option σ) : σ → List α → Option σ
  | s, [] => some s
  | s, a :: as =>
    match step s a with
    | none => none
    | some t => run step t as

/-- The system that takes only the steps which meet a condition. -/
def guarded (ok : σ → α → Prop) [∀ s a, Decidable (ok s a)] (step : σ → α → Option σ) (s : σ)
    (a : α) : Option σ :=
  if ok s a then step s a else none

theorem guarded_eq_some_iff [∀ s a, Decidable (ok s a)] {t : σ} :
    guarded ok step s a = some t ↔ ok s a ∧ step s a = some t := by
  rw [guarded]
  by_cases h : ok s a <;> simp [h]

theorem run_cons_eq_some_iff :
    run step s (a :: as) = some u ↔ ∃ t, step s a = some t ∧ run step t as = some u := by
  rw [run]
  cases step s a <;> simp

/-- **The invariant rule.** What every step keeps holds at the end of every run. -/
theorem run_invariant (hstep : ∀ s a t, I s → step s a = some t → I t) {as : List α}
    (hs : I s) (h : run step s as = some u) : I u := by
  induction as generalizing s u with
  | nil =>
    cases h
    exact hs
  | cons a as ih =>
    obtain ⟨t, hat, ht⟩ := run_cons_eq_some_iff.mp h
    exact ih (hstep s a t hs hat) ht

theorem guarded_invariant [∀ s a, Decidable (ok s a)]
    (hstep : ∀ s a t, I s → ok s a → step s a = some t → I t) (hs : I s)
    (h : run (guarded ok step) s as = some u) : I u := by
  refine run_invariant (fun s a t hs hst ↦ ?_) hs h
  obtain ⟨hok, hst⟩ := guarded_eq_some_iff.mp hst
  exact hstep s a t hs hok hst

theorem exists_run_of_any {P : σ → Bool}
    (h : (run step s as).any P = true) : ∃ u, run step s as = some u ∧ P u = true := by
  cases hr : run step s as with
  | none => rw [hr] at h; cases h
  | some u => rw [hr] at h; exact ⟨u, rfl, h⟩

end Vanadium.Foundations.Transition
