import Mathlib.Data.List.Basic
import Mathlib.Order.Nat

/-!
# Leftmost places that do not overlap

* `Places P n i l`: the places from `i` on at which `P` holds, each the first that is at least `n`
  behind the one before;
* **`Places.restrict`**: looking only as far as an end loses the places that reach behind it.
-/

namespace Leftmost

variable {P Q : ℕ → Prop} {n i k m : ℕ} {places places' : List ℕ}

/-- The places from `i` on at which `P` holds, from the left, each `n` behind the one before. -/
inductive Places (P : ℕ → Prop) (n : ℕ) : ℕ → List ℕ → Prop
  | none {i : ℕ} : (∀ k, i ≤ k → ¬P k) → Places P n i []
  | some {i k : ℕ} {places : List ℕ} : i ≤ k → P k → (∀ j, i ≤ j → j < k → ¬P j) →
      Places P n (k + n) places → Places P n i (k :: places)

namespace Places

theorem skip (hi : ¬P i) (h : Places P n (i + 1) places) : Places P n i places := by
  have hfirst {j : ℕ} (hle : i ≤ j) (hj : P j) : i + 1 ≤ j := by
    rcases Nat.eq_or_lt_of_le hle with rfl | hlt
    · exact absurd hj hi
    · exact hlt
  cases h with
  | none hnone => exact .none fun k hle hk => hnone k (hfirst hle hk) hk
  | some hle hk hbefore hrest =>
    exact .some (by omega) hk (fun j hij hjk hj => hbefore j (hfirst hij hj) hjk hj) hrest

theorem take (hi : P i) (h : Places P n (i + n) places) : Places P n i (i :: places) :=
  .some le_rfl hi (fun _ hle hlt => absurd hlt (by omega)) h

/-- There is one such list. -/
theorem unique (h : Places P n i places) (h' : Places P n i places') : places = places' := by
  induction h generalizing places' with
  | none hnone =>
    cases h' with
    | none => rfl
    | some hle hk => exact absurd hk (hnone _ hle)
  | @some i k places hle hk hbefore _ ih =>
    cases h' with
    | none hnone => exact absurd hk (hnone k hle)
    | @some _ k' _ hle' hk' hbefore' hrest' =>
      obtain rfl : k = k' := by
        rcases Nat.lt_trichotomy k k' with hlt | heq | hlt
        · exact absurd hk (hbefore' k hle hlt)
        · exact heq
        · exact absurd hk' (hbefore k' hle' hlt)
      rw [ih hrest']

theorem le_of_mem (h : Places P n i places) (hk : k ∈ places) : i ≤ k := by
  induction h with
  | none => cases hk
  | some hle _ _ _ ih =>
    rcases List.mem_cons.mp hk with rfl | hk
    · exact hle
    · exact hle.trans ((Nat.le_add_right _ n).trans (ih hk))

theorem holds (h : Places P n i places) (hk : k ∈ places) : P k := by
  induction h with
  | none => cases hk
  | some _ hP _ _ ih =>
    rcases List.mem_cons.mp hk with rfl | hk
    · exact hP
    · exact ih hk

theorem apart (h : Places P n i places) : places.Pairwise fun a b => a + n ≤ b := by
  induction h with
  | none => exact .nil
  | some _ _ _ hrest ih => exact .cons (fun _ hk => hrest.le_of_mem hk) ih

/-- There is none behind the last one. -/
theorem none_behind (h : Places P n i (places ++ [k])) {j : ℕ} (hj : k + n ≤ j) : ¬P j := by
  induction places generalizing i with
  | nil =>
    cases h with
    | some _ _ _ hrest =>
      cases hrest with
      | none hnone => exact hnone j hj
  | cons place places ih =>
    cases h with
    | some _ _ _ hrest => exact ih hrest

/-- **Looking only as far as an end** loses the places that reach behind it. -/
theorem restrict (hQ : ∀ k, Q k ↔ P k ∧ k + n ≤ m) (h : Places P n i places) :
    Places Q n i (places.filter (· + n ≤ m)) := by
  induction h with
  | none hnone => exact .none fun k hle hk => hnone k hle ((hQ k).mp hk).1
  | @some i k places hle hk hbefore hrest ih =>
    by_cases hfits : k + n ≤ m
    · rw [List.filter_cons_of_pos (by simpa using hfits)]
      exact .some hle ((hQ k).mpr ⟨hk, hfits⟩)
        (fun j hij hjk hj => hbefore j hij hjk ((hQ j).mp hj).1) ih
    · have hempty : (k :: places).filter (· + n ≤ m) = [] := by
        rw [List.filter_eq_nil_iff]
        intro j hj
        have hkj : k ≤ j := by
          rcases List.mem_cons.mp hj with rfl | hj
          · exact le_rfl
          · exact (Nat.le_add_right k n).trans (hrest.le_of_mem hj)
        rw [decide_eq_true_iff]
        omega
      rw [hempty]
      refine .none fun j hij hj => ?_
      obtain ⟨hj, hend⟩ := (hQ j).mp hj
      exact hbefore j hij (by omega) hj

end Places

end Leftmost
