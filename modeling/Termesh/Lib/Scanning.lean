import Mathlib.Data.List.Forall2
import Mathlib.Tactic.Common

/-!
# Greedy scanning for a subsequence

Each wanted element is taken at its first occurrence behind the one before it.

* `scan R i l w`: the offsets, counted from `i`, at which the elements of `w` are found in `l`;
* **`scan_isSome_iff`**: greedy scanning finds all that can be found.
-/

namespace Scanning

variable {α β : Type*} {R : α → β → Prop}

section

variable (R) [DecidableRel R]

/-- The offsets, counted from `i`, at which a greedy scan of a list finds what is wanted. -/
@[simp] def scan : ℕ → List β → List α → Option (List ℕ)
  | _, _, [] => some []
  | _, [], _ :: _ => none
  | i, b :: l, a :: w =>
    if R a b then (scan (i + 1) l w).map (i :: ·) else scan (i + 1) l (a :: w)

end

/-! ## What greed gives up -/

theorem sublistForall₂_of_cons {a : α} {w : List α} {l : List β}
    (h : List.SublistForall₂ R (a :: w) l) : List.SublistForall₂ R w l := by
  induction l with
  | nil => cases h
  | cons b l ih =>
    cases h with
    | cons _ h => exact .cons_right h
    | cons_right h => exact .cons_right (ih h)

theorem sublistForall₂_take {a : α} {b : β} {w : List α} {l : List β} (hab : R a b) :
    List.SublistForall₂ R (a :: w) (b :: l) ↔ List.SublistForall₂ R w l := by
  constructor
  · intro h
    cases h with
    | cons _ h => exact h
    | cons_right h => exact sublistForall₂_of_cons h
  · exact .cons hab

theorem sublistForall₂_skip {a : α} {b : β} {w : List α} {l : List β} (hab : ¬R a b) :
    List.SublistForall₂ R (a :: w) (b :: l) ↔ List.SublistForall₂ R (a :: w) l := by
  constructor
  · intro h
    cases h with
    | cons h _ => exact absurd h hab
    | cons_right h => exact h
  · exact .cons_right

theorem sublistForall₂_append_left {w w' : List α} {l : List β}
    (h : List.SublistForall₂ R (w ++ w') l) : List.SublistForall₂ R w l := by
  induction l generalizing w with
  | nil =>
    cases w with
    | nil => exact .nil
    | cons a w => cases h
  | cons b l ih =>
    cases w with
    | nil => exact .nil
    | cons a w =>
      cases h with
      | cons hab h => exact .cons hab (ih h)
      | cons_right h => exact .cons_right (ih h)

theorem sublistForall₂_append_right {w : List α} {front l : List β}
    (h : List.SublistForall₂ R w l) : List.SublistForall₂ R w (front ++ l) := by
  induction front with
  | nil => exact h
  | cons b front ih => exact .cons_right ih

theorem SublistForall₂.mono {S : α → β → Prop} (hRS : ∀ a b, R a b → S a b) {w : List α}
    {l : List β} (h : List.SublistForall₂ R w l) : List.SublistForall₂ S w l := by
  induction h with
  | nil => exact .nil
  | cons hab _ ih => exact .cons (hRS _ _ hab) ih
  | cons_right _ ih => exact .cons_right ih

/-! ## The scan -/

variable [DecidableRel R]

theorem scan_nil (i : ℕ) (l : List β) : scan R i l [] = some [] := by
  cases l <;> rfl

/-- **Greedy scanning finds all that can be found.** -/
theorem scan_isSome_iff (i : ℕ) (l : List β) (w : List α) :
    (scan R i l w).isSome ↔ List.SublistForall₂ R w l := by
  induction l generalizing i w with
  | nil =>
    cases w with
    | nil => exact iff_of_true rfl .nil
    | cons a w => exact iff_of_false (by simp [scan]) fun h => by cases h
  | cons b l ih =>
    cases w with
    | nil => exact iff_of_true rfl .nil
    | cons a w =>
      by_cases hab : R a b
      · rw [scan, if_pos hab, Option.isSome_map, ih, sublistForall₂_take hab]
      · rw [scan, if_neg hab, ih, sublistForall₂_skip hab]

theorem scan_length {i : ℕ} {l : List β} {w : List α} {offsets : List ℕ}
    (h : scan R i l w = some offsets) : offsets.length = w.length := by
  induction l generalizing i w offsets with
  | nil =>
    cases w with
    | nil => simp_all [scan]
    | cons a w => simp [scan] at h
  | cons b l ih =>
    cases w with
    | nil => simp_all [scan]
    | cons a w =>
      rw [scan] at h
      by_cases hab : R a b
      · rw [if_pos hab] at h
        obtain ⟨rest, hrest, rfl⟩ := Option.map_eq_some_iff.mp h
        rw [List.length_cons, ih hrest, List.length_cons]
      · rw [if_neg hab] at h
        exact ih h

theorem scan_shift (k i : ℕ) (l : List β) (w : List α) :
    scan R (k + i) l w = (scan R i l w).map (List.map (k + ·)) := by
  induction l generalizing i w with
  | nil => cases w <;> simp [scan]
  | cons b l ih =>
    cases w with
    | nil => simp [scan]
    | cons a w =>
      rw [scan, scan, Nat.add_assoc, ih, ih]
      split_ifs
      · rw [Option.map_map, Option.map_map]
        rfl
      · rfl

/-- In front of what is scanned, elements that are not the first one wanted. -/
theorem scan_append {front l : List β} {a : α} {w : List α} (h : ∀ b ∈ front, ¬R a b) (i : ℕ) :
    scan R i (front ++ l) (a :: w) = scan R (front.length + i) l (a :: w) := by
  induction front generalizing i with
  | nil => rw [List.nil_append, List.length_nil, Nat.zero_add]
  | cons b front ih =>
    rw [List.cons_append, scan, if_neg (h b List.mem_cons_self),
      ih fun c hc => h c (List.mem_cons_of_mem _ hc), List.length_cons, Nat.add_assoc,
      Nat.add_comm 1 i]

/-- In front of what is scanned, an element that is the first one wanted: it is taken there. -/
theorem scan_front {front l : List β} {a : α} {w : List α} (h : ∃ b ∈ front, R a b) {i : ℕ}
    {offsets : List ℕ} (hscan : scan R i (front ++ l) (a :: w) = some offsets) :
    ∃ k ∈ offsets, k < i + front.length := by
  induction front generalizing i with
  | nil => simp at h
  | cons b front ih =>
    rw [List.cons_append, scan] at hscan
    by_cases hab : R a b
    · rw [if_pos hab] at hscan
      obtain ⟨rest, -, rfl⟩ := Option.map_eq_some_iff.mp hscan
      exact ⟨i, List.mem_cons_self, by rw [List.length_cons]; omega⟩
    · rw [if_neg hab] at hscan
      obtain ⟨c, hc, hac⟩ := h
      have hfront : ∃ c ∈ front, R a c := by
        rcases List.mem_cons.mp hc with rfl | hc
        · exact absurd hac hab
        · exact ⟨c, hc, hac⟩
      obtain ⟨k, hk, hlt⟩ := ih hfront hscan
      exact ⟨k, hk, by rw [List.length_cons]; omega⟩

end Scanning
