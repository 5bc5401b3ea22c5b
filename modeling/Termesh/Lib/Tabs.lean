import Mathlib.Data.List.Nodup
import Mathlib.Data.List.Perm.Basic

/-!
# A row of tabs

A list of tabs and the index of the one on screen. Whatever opens, sorts or selects keeps the tabs;
closing a tab other than the one on screen keeps that one only if its index slides along.

* `Row.Valid`: nothing is on screen in an empty row only, and an index is one of a tab;
* `Row.Keeps`: no tab goes; `Row.Follows`: the tab on screen stays when another one goes;
  `Row.Tends`: both are right;
* `slide`, `getElem?_eraseIdx_slide`: where a tab is found once another one is taken out;
* **`follows_close_iff`**: which index keeps the tab on screen.
-/

namespace Tabs

/-- Tabs in order, and the index of the one on screen. -/
structure Row (α : Type*) where
  tabs : List α
  active : Option ℕ

/-- Where entry `a` is found once entry `k` is taken out. -/
def slide (k a : ℕ) : ℕ := if k < a then a - 1 else a

theorem getElem?_eraseIdx_slide {α : Type*} (l : List α) {k a : ℕ} (hne : a ≠ k) :
    (l.eraseIdx k)[slide k a]? = l[a]? := by
  unfold slide
  split_ifs with hlt
  · rw [List.getElem?_eraseIdx_of_ge (by omega)]
    congr 1
    omega
  · exact List.getElem?_eraseIdx_of_lt (by omega)

namespace Row

variable {α : Type*} {r r' r₁ : Row α} {k j : ℕ}

/-- Nothing is on screen in an empty row only, and what is on screen is a tab of the row. -/
def Valid (r : Row α) : Prop :=
  (r.active = none ↔ r.tabs = []) ∧ ∀ i, r.active = some i → i < r.tabs.length

/-- The tab on screen. -/
def shown (r : Row α) : Option α := r.active.bind fun i => r.tabs[i]?

theorem valid_some {tabs : List α} {i : ℕ} (hi : i < tabs.length) : Valid ⟨tabs, some i⟩ := by
  constructor
  · simp [List.ne_nil_of_length_pos (Nat.zero_lt_of_lt hi)]
  · intro j hj
    rwa [← Option.some.inj hj]

theorem Valid.exists_active (hv : r.Valid) (hne : r.tabs ≠ []) :
    ∃ i, r.active = some i ∧ i < r.tabs.length := by
  obtain ⟨i, hi⟩ := Option.ne_none_iff_exists'.mp fun hnone => hne (hv.1.mp hnone)
  exact ⟨i, hi, hv.2 i hi⟩

/-! ## Opening and selecting -/

/-- No tab goes, and a valid row stays valid. -/
structure Keeps (r r' : Row α) : Prop where
  tabs : r.tabs ⊆ r'.tabs
  valid : r.Valid → r'.Valid

theorem Keeps.refl (r : Row α) : r.Keeps r := ⟨List.Subset.refl _, id⟩

theorem Keeps.of_eq (h : r' = r) : r.Keeps r' := h ▸ .refl r

theorem Keeps.trans (h : r.Keeps r₁) (h' : r₁.Keeps r') : r.Keeps r' :=
  ⟨List.Subset.trans h.tabs h'.tabs, fun hv => h'.valid (h.valid hv)⟩

theorem keeps_select {i : ℕ} (hi : i < r.tabs.length) : r.Keeps { r with active := some i } :=
  ⟨List.Subset.refl _, fun _ => valid_some hi⟩

theorem keeps_append (r : Row α) (a : α) : r.Keeps ⟨r.tabs ++ [a], some r.tabs.length⟩ :=
  ⟨List.subset_append_left _ _, fun _ => valid_some (by simp)⟩

theorem keeps_behind (r : Row α) (a : α) (hne : r.tabs ≠ []) : r.Keeps ⟨r.tabs ++ [a], r.active⟩ := by
  refine ⟨List.subset_append_left _ _, fun hv => ?_⟩
  obtain ⟨i, hi, hlt⟩ := hv.exists_active hne
  rw [hi]
  exact valid_some (by rw [List.length_append]; omega)

theorem keeps_perm {tabs : List α} {active : Option ℕ} (hp : tabs.Perm r.tabs)
    (hv : Valid ⟨tabs, active⟩) : r.Keeps ⟨tabs, active⟩ := ⟨hp.symm.subset, fun _ => hv⟩

/-! ## Closing -/

/-- When another tab goes than the one on screen, that one stays on screen. -/
def Follows (r r' : Row α) : Prop :=
  ∀ a ∈ r.tabs, a ∉ r'.tabs → r.shown ≠ some a → r'.shown = r.shown

theorem Keeps.follows (h : r.Keeps r') : r.Follows r' := fun _ ha hgone =>
  absurd (h.tabs ha) hgone

/-- A valid row stays valid, and the tab on screen stays there when another one goes. -/
structure Tends (r r' : Row α) : Prop where
  valid : r.Valid → r'.Valid
  follows : r.Valid → r.Follows r'

theorem Keeps.tends (h : r.Keeps r') : r.Tends r' := ⟨h.valid, fun _ => h.follows⟩

/-- Tab `k` is closed, and the one that has index `j` then is on screen. -/
def close (r : Row α) (k j : ℕ) : Row α where
  tabs := r.tabs.eraseIdx k
  active := if r.tabs.eraseIdx k = [] then none else some j

theorem valid_close (hj : r.tabs.eraseIdx k ≠ [] → j < (r.tabs.eraseIdx k).length) :
    (r.close k j).Valid := by
  by_cases hnil : r.tabs.eraseIdx k = []
  · simp [Valid, close, hnil]
  · simp only [close, if_neg hnil]
    exact valid_some (hj hnil)

theorem nodup_close (hn : r.tabs.Nodup) (k j : ℕ) : (r.close k j).tabs.Nodup :=
  hn.sublist (List.eraseIdx_sublist _ _)

theorem follows_close (hv : r.Valid)
    (hj : ∀ a, r.active = some a → a ≠ k → j = slide k a) : r.Follows (r.close k j) := by
  intro b hb hgone hshown
  obtain ⟨a, ha, hlt⟩ := hv.exists_active (List.ne_nil_of_mem hb)
  have hget : r.shown = r.tabs[a]? := by rw [shown, ha, Option.bind_some]
  by_cases hk : a = k
  · -- the one on screen is all that goes
    obtain ⟨i, hi⟩ := List.mem_iff_getElem?.mp hb
    have hik : i = k := by
      by_contra hne
      exact hgone (List.mem_eraseIdx_iff_getElem?.mpr ⟨i, hne, hi⟩)
    exact absurd (by rw [hget, hk, ← hik, hi]) hshown
  · have hfound := getElem?_eraseIdx_slide r.tabs hk
    have hne : r.tabs.eraseIdx k ≠ [] := by
      intro hnil
      rw [hnil, List.getElem?_nil, List.getElem?_eq_getElem hlt] at hfound
      cases hfound
    rw [hget, ← hfound, ← hj a ha hk, shown, close, if_neg hne, Option.bind_some]

/-- **Which index follows the tab on screen.** Where no tab is there twice, no other does. -/
theorem follows_close_iff (hv : r.Valid) (hn : r.tabs.Nodup) (hk : k < r.tabs.length) :
    r.Follows (r.close k j) ↔ ∀ a, r.active = some a → a ≠ k → j = slide k a := by
  refine ⟨fun hf a ha hne => ?_, follows_close hv⟩
  have hlt := hv.2 a ha
  have hget : r.shown = r.tabs[a]? := by rw [shown, ha, Option.bind_some]
  have hgone : r.tabs[k] ∉ (r.close k j).tabs := by
    intro hmem
    obtain ⟨i, hik, hi⟩ := List.mem_eraseIdx_iff_getElem?.mp hmem
    obtain ⟨hilt, heq⟩ := List.getElem?_eq_some_iff.mp hi
    exact hik ((List.Nodup.getElem_inj_iff hn).mp heq)
  have hother : r.shown ≠ some r.tabs[k] := by
    rw [hget, List.getElem?_eq_getElem hlt]
    intro heq
    exact hne ((List.Nodup.getElem_inj_iff hn).mp (Option.some.inj heq))
  have hsame := hf _ (List.getElem_mem hk) hgone hother
  rw [hget, ← getElem?_eraseIdx_slide r.tabs hne] at hsame
  have hslide : (r.tabs.eraseIdx k)[slide k a]? = some r.tabs[a] := by
    rw [getElem?_eraseIdx_slide r.tabs hne, List.getElem?_eq_getElem hlt]
  have hnil : r.tabs.eraseIdx k ≠ [] := by
    intro hnil
    rw [hnil] at hslide
    cases hslide
  rw [shown, close, if_neg hnil, Option.bind_some] at hsame
  rw [hslide] at hsame
  obtain ⟨hjlt, hjget⟩ := List.getElem?_eq_some_iff.mp hsame
  obtain ⟨hslt, hsget⟩ := List.getElem?_eq_some_iff.mp hslide
  exact (List.Nodup.getElem_inj_iff (hn.sublist (List.eraseIdx_sublist _ _))).mp
    (hjget.trans hsget.symm)

end Row

end Tabs
