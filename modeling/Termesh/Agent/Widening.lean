import Mathlib.Data.List.Infix
import Termesh.Agent.Review

/-!
# Where a permission's diff fits

`whole_file_from_permission_diff` counts the places its old text stands at with `match_indices`,
which looks for the next one behind the end of the last one it found.

* `OccursAt`: the old text stands at an offset; `Widened`: what a widened diff is for;
* `Plainly`: the places of a text that do not hide each other;
* **`widened_iff`**: a diff is widened as it should be exactly when its places do not hide each other;
* **`widened_hidden`**: the second place of "aa" in "aaa" is not seen.
-/

namespace Termesh

/-- The needle stands at this offset of the text. -/
def OccursAt (needle t : Text) (i : ℕ) : Prop := i ≤ t.length ∧ needle <+: t.drop i

instance (needle t : Text) (i : ℕ) : Decidable (OccursAt needle t i) :=
  inferInstanceAs (Decidable (_ ∧ _))

/-- A permission's diff is widened only when it fits one place. -/
structure Widened (current oldText newText : Text) (r : Except AnchorFailure Text) : Prop where
  ok : ∀ whole, r = .ok whole → oldText = current ∧ whole = newText ∨
    oldText ≠ [] ∧ ∃ i, (∀ j, OccursAt oldText current j ↔ j = i) ∧
      whole = current.take i ++ newText ++ current.drop (i + oldText.length)
  ambiguous : ∀ i j, i ≠ j → OccursAt oldText current i → OccursAt oldText current j →
    r = .error .ambiguous
  notFound : (∀ i, ¬ OccursAt oldText current i) → r = .error .notFound

/-! ## What `match_indices` finds -/

section Indices

variable {needle : Text} (hn : needle ≠ [])

include hn

theorem occursAt_iff {t : Text} {i : ℕ} : OccursAt needle t i ↔ needle <+: t.drop i := by
  refine ⟨And.right, fun h => ⟨?_, h⟩⟩
  by_contra hlong
  rw [List.drop_eq_nil_of_le (by omega)] at h
  exact hn (List.prefix_nil.mp h)

theorem not_occursAt_nil (i : ℕ) : ¬ OccursAt needle [] i := by
  rw [occursAt_iff hn, List.drop_nil]
  exact fun h => hn (List.prefix_nil.mp h)

theorem occursAt_cons {c : Char} {t : Text} {i : ℕ} :
    OccursAt needle (c :: t) (i + 1) ↔ OccursAt needle t i := by
  rw [occursAt_iff hn, occursAt_iff hn, List.drop_succ_cons]

theorem occursAt_drop {t : Text} {i k : ℕ} :
    OccursAt needle (t.drop k) i ↔ OccursAt needle t (k + i) := by
  rw [occursAt_iff hn, occursAt_iff hn, List.drop_drop]

/-- Nothing is found exactly when nothing stands behind what is skipped. -/
theorem matchIndices_eq_nil (t : Text) (pos skip : ℕ) :
    matchIndices needle t pos skip = [] ↔ ∀ i, skip ≤ i → ¬ OccursAt needle t i := by
  induction t generalizing pos skip with
  | nil => exact ⟨fun _ i _ => not_occursAt_nil hn i, fun _ => rfl⟩
  | cons c t ih =>
    cases skip with
    | succ skip =>
      rw [matchIndices, ih]
      constructor
      · intro h i hi
        obtain ⟨k, rfl⟩ : ∃ k, i = k + 1 := ⟨i - 1, by omega⟩
        rw [occursAt_cons hn]
        exact h k (by omega)
      · intro h i hi
        rw [← occursAt_cons hn (c := c)]
        exact h (i + 1) (by omega)
    | zero =>
      rw [matchIndices]
      split_ifs with hp
      · have hzero : OccursAt needle (c :: t) 0 :=
          (occursAt_iff hn).mpr (List.isPrefixOf_iff_prefix.mp hp)
        exact iff_of_false (by simp) fun h => h 0 le_rfl hzero
      · rw [ih]
        constructor
        · intro h i _
          cases i with
          | zero =>
            rw [occursAt_iff hn]
            exact fun hzero => hp (List.isPrefixOf_iff_prefix.mpr hzero)
          | succ i =>
            rw [occursAt_cons hn]
            exact h i (Nat.zero_le i)
        · intro h i _
          rw [← occursAt_cons hn (c := c)]
          exact h (i + 1) (Nat.zero_le _)

/-- **What is found first is the first place behind what is skipped**, and the search goes on behind
its end. -/
theorem matchIndices_eq_cons (t : Text) {pos skip start : ℕ} {rest : List ℕ}
    (h : matchIndices needle t pos skip = start :: rest) :
    ∃ i, start = pos + i ∧ OccursAt needle t i ∧
      (∀ j, skip ≤ j → OccursAt needle t j → i ≤ j) ∧
      rest = matchIndices needle (t.drop (i + 1)) (pos + i + 1) (needle.length - 1) := by
  induction t generalizing pos skip with
  | nil => cases h
  | cons c t ih =>
    have hlater : ∀ {skip'}, matchIndices needle t (pos + 1) skip' = start :: rest →
        (∀ j, skip ≤ j → OccursAt needle (c :: t) j → ∃ k, j = k + 1 ∧ skip' ≤ k) →
        ∃ i, start = pos + i ∧ OccursAt needle (c :: t) i ∧
          (∀ j, skip ≤ j → OccursAt needle (c :: t) j → i ≤ j) ∧
          rest = matchIndices needle ((c :: t).drop (i + 1)) (pos + i + 1) (needle.length - 1) := by
      intro skip' hfound hbehind
      obtain ⟨i, rfl, hi, hfirst, hrest⟩ := ih hfound
      refine ⟨i + 1, by omega, (occursAt_cons hn).mpr hi, fun j hj hoccurs => ?_, ?_⟩
      · obtain ⟨k, rfl, hk⟩ := hbehind j hj hoccurs
        exact Nat.succ_le_succ (hfirst k hk ((occursAt_cons hn).mp hoccurs))
      · rw [hrest, List.drop_succ_cons, Nat.add_right_comm pos 1 i, ← Nat.add_assoc pos i 1]
    cases skip with
    | succ skip => exact hlater h fun j hj _ => ⟨j - 1, by omega, by omega⟩
    | zero =>
      rw [matchIndices] at h
      split_ifs at h with hp
      · obtain ⟨rfl, rfl⟩ := List.cons.inj h
        exact ⟨0, rfl, (occursAt_iff hn).mpr (List.isPrefixOf_iff_prefix.mp hp),
          fun j _ _ => Nat.zero_le j, rfl⟩
      · refine hlater h fun j _ hoccurs => ?_
        cases j with
        | zero =>
          rw [occursAt_iff hn] at hoccurs
          exact absurd (List.isPrefixOf_iff_prefix.mpr hoccurs) hp
        | succ k => exact ⟨k, rfl, Nat.zero_le k⟩

/-- Nothing else is found exactly when nothing stands behind the end of the first place. -/
theorem matchIndices_rest {t : Text} {start : ℕ} {rest : List ℕ}
    (h : matchIndices needle t 0 0 = start :: rest) :
    OccursAt needle t start ∧ (∀ j, OccursAt needle t j → start ≤ j) ∧
      (rest = [] ↔ ∀ j, start + needle.length ≤ j → ¬ OccursAt needle t j) := by
  have hlen := List.length_pos_iff.mpr hn
  obtain ⟨i, hi, hoccurs, hfirst, hrest⟩ := matchIndices_eq_cons hn t h
  obtain rfl : start = i := hi.trans (Nat.zero_add i)
  refine ⟨hoccurs, fun j hj => hfirst j (Nat.zero_le j) hj, ?_⟩
  rw [hrest, matchIndices_eq_nil hn]
  constructor
  · intro hnone j hj
    have hback := hnone (j - (start + 1)) (by omega)
    rw [occursAt_drop hn] at hback
    rwa [Nat.add_sub_cancel' (by omega)] at hback
  · intro hnone j hj
    rw [occursAt_drop hn]
    exact hnone _ (by omega)

end Indices

/-! ## Places that hide each other -/

/-- There is no second place, or one of the places is behind the end of the first. -/
def Plainly (needle t : Text) : Prop :=
  ∀ i, OccursAt needle t i → (∀ j, OccursAt needle t j → i ≤ j) →
    (∀ j, OccursAt needle t j → j = i) ∨ ∃ j, i + needle.length ≤ j ∧ OccursAt needle t j

theorem occursAt_self (t : Text) {j : ℕ} (h : OccursAt t t j) : j = 0 := by
  have hlen := h.2.length_le
  rw [List.length_drop] at hlen
  have hle := h.1
  by_contra hne
  have hnil : t = [] := by
    rw [← List.length_eq_zero_iff]
    omega
  rw [hnil] at hle
  exact hne (Nat.le_zero.mp hle)

/-- The places of a whole text in itself, and those of the empty text, are in plain sight. -/
theorem plainly_of_trivial {oldText current : Text} (h : oldText = current ∨ oldText = []) :
    Plainly oldText current := by
  intro i hi _
  rcases h with rfl | rfl
  · left
    intro j hj
    rw [occursAt_self _ hi, occursAt_self _ hj]
  · exact .inr ⟨i, le_rfl, hi⟩

theorem occursAt_empty {t : Text} {i : ℕ} (h : i ≤ t.length) : OccursAt [] t i :=
  ⟨h, List.nil_prefix⟩

/-- **A permission's diff is widened as it should be exactly when its places are in plain sight.** -/
theorem widened_iff (current oldText newText : Text) :
    Widened current oldText newText (wholeFileFromPermissionDiff current oldText newText) ↔
      Plainly oldText current := by
  unfold wholeFileFromPermissionDiff
  split_ifs with hwhole hnil
  · refine iff_of_true ⟨fun whole hok => ?_, fun i j hne hi hj => ?_, fun hnone => ?_⟩
      (plainly_of_trivial (.inl hwhole))
    · exact .inl ⟨hwhole, (Except.ok.inj hok).symm⟩
    · rw [hwhole] at hi hj
      exact absurd ((occursAt_self _ hi).trans (occursAt_self _ hj).symm) hne
    · rw [hwhole] at hnone
      exact absurd ⟨Nat.zero_le _, List.prefix_rfl⟩ (hnone 0)
  · refine iff_of_true ⟨fun whole hok => (nomatch hok), fun i j _ _ _ => rfl, fun hnone => ?_⟩
      (plainly_of_trivial (.inr hnil))
    rw [hnil] at hnone
    exact absurd (occursAt_empty (Nat.zero_le _)) (hnone 0)
  · cases hfound : matchIndices oldText current 0 0 with
    | nil =>
      have hnone : ∀ i, ¬ OccursAt oldText current i :=
        fun i => (matchIndices_eq_nil hnil current 0 0).mp hfound i (Nat.zero_le i)
      exact iff_of_true
        ⟨fun whole hok => (nomatch hok), fun i j _ hi _ => absurd hi (hnone i), fun _ => rfl⟩
        fun i hi _ => absurd hi (hnone i)
    | cons start rest =>
      obtain ⟨hoccurs, hfirst, hrest⟩ := matchIndices_rest hnil hfound
      have hplain : Plainly oldText current ↔ (∀ j, OccursAt oldText current j → j = start) ∨
          ∃ j, start + oldText.length ≤ j ∧ OccursAt oldText current j := by
        refine ⟨fun h => h start hoccurs hfirst, fun h i hi hleast => ?_⟩
        rwa [Nat.le_antisymm (hleast start hoccurs) (hfirst i hi)]
      rw [hplain]
      cases rest with
      | nil =>
        -- one match: the diff is widened at it, whatever stands across it
        have hnone := hrest.mp rfl
        constructor
        · intro h
          left
          intro j hj
          by_contra hne
          exact nomatch h.ambiguous j start hne hj hoccurs
        · rintro (honly | ⟨j, hj, hbehind⟩)
          · refine ⟨fun whole hok => .inr ⟨hnil, start, fun j => ⟨honly j, ?_⟩, ?_⟩,
              fun i j hne hi hj => absurd ((honly i hi).trans (honly j hj).symm) hne,
              fun hno => absurd hoccurs (hno start)⟩
            · rintro rfl
              exact hoccurs
            · exact (Except.ok.inj hok).symm
          · exact absurd hbehind (hnone j hj)
      | cons next rest =>
        have hsecond : ∃ j, start + oldText.length ≤ j ∧ OccursAt oldText current j := by
          by_contra hno
          exact List.cons_ne_nil next rest (hrest.mpr fun j hj hoccurs' => hno ⟨j, hj, hoccurs'⟩)
        exact iff_of_true
          ⟨fun whole hok => (nomatch hok), fun i j _ _ _ => rfl, fun hno => absurd hoccurs (hno start)⟩
          (.inr hsecond)

/-- **"aa" stands twice in "aaa", and is taken to stand once.** -/
theorem widened_hidden :
    ¬ ∀ current oldText newText,
      Widened current oldText newText (wholeFileFromPermissionDiff current oldText newText) := by
  intro hall
  have hambiguous := (hall ['a', 'a', 'a'] ['a', 'a'] ['b']).ambiguous 0 1 (by decide) (by decide)
    (by decide)
  exact absurd hambiguous (by decide)

end Termesh
