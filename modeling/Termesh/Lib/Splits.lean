import Mathlib.Data.List.Basic

/-!
# Pieces of a list

`l.splitOn a` cuts `l` at each `a`.

* `exists_splitOn`: the first piece, and the others behind a separator each;
* `splitOn_flatMap`, `filter_splitOn_flatMap`: pieces that hold no separator are found again;
* `exists_of_flatMap`: an element of a flattened list is in the list of one element;
* `notMem_splitOn`, `subset_splitOn`: no separator is left in a piece, and nothing else is new;
* **`flatten_splitOn`**: the pieces together are the list without its separators.
-/

namespace Splits

theorem exists_of_flatMap {α β : Type*} {f : α → List β} {l : List α} {pre post : List β} {b : β}
    (h : l.flatMap f = pre ++ b :: post) :
    ∃ before a after inner rest, l = before ++ a :: after ∧ f a = inner ++ b :: rest ∧
      pre = before.flatMap f ++ inner := by
  induction l generalizing pre with
  | nil => cases pre <;> cases h
  | cons a l ih =>
    rw [List.flatMap_cons] at h
    rcases List.append_eq_append_iff.mp h with ⟨mid, rfl, hrest⟩ | ⟨mid, ha, hrest⟩
    · obtain ⟨before, c, after, inner, rest, rfl, hc, rfl⟩ := ih hrest
      exact ⟨a :: before, c, after, inner, rest, rfl, hc, by simp⟩
    · cases mid with
      | nil =>
        obtain ⟨before, c, after, inner, rest, rfl, hc, hpre⟩ :=
          ih (show l.flatMap f = [] ++ b :: post from hrest.symm)
        refine ⟨a :: before, c, after, inner, rest, rfl, hc, ?_⟩
        rw [List.flatMap_cons, List.append_assoc, ← hpre, ha]
        simp
      | cons d mid =>
        obtain ⟨rfl, -⟩ := List.cons.inj hrest
        exact ⟨[], a, l, pre, mid, rfl, ha, rfl⟩

variable {α : Type*} [DecidableEq α]

theorem exists_splitOn (a : α) (l : List α) :
    ∃ piece pieces, l.splitOn a = piece :: pieces ∧ l = piece ++ pieces.flatMap (a :: ·) := by
  induction l with
  | nil => exact ⟨[], [], rfl, rfl⟩
  | cons b l ih =>
    obtain ⟨piece, pieces, hsplit, hl⟩ := ih
    rw [List.splitOn_cons_eq_if_modifyHead, hsplit]
    by_cases hb : b = a
    · rw [if_pos (by simp [hb])]
      exact ⟨[], piece :: pieces, rfl, by rw [hl, hb]; rfl⟩
    · rw [if_neg (by simp [hb])]
      exact ⟨b :: piece, pieces, rfl, by rw [hl]; rfl⟩

/-- Pieces that hold no separator are found again. -/
theorem splitOn_flatMap {a : α} {piece : List α} {pieces : List (List α)}
    (h : ∀ l ∈ piece :: pieces, a ∉ l) :
    (piece ++ pieces.flatMap (a :: ·)).splitOn a = piece :: pieces := by
  induction pieces generalizing piece with
  | nil => simpa using List.splitOn_eq_singleton (h piece List.mem_cons_self)
  | cons next pieces ih =>
    rw [List.flatMap_cons, List.cons_append,
      List.splitOn_append_cons_self_of_not_mem (h piece List.mem_cons_self),
      ih fun l hl => h l (List.mem_cons_of_mem _ hl)]

/-- So are lines that each end in the separator. -/
theorem filter_splitOn_flatMap {a : α} {pieces : List (List α)}
    (h : ∀ l ∈ pieces, l ≠ [] ∧ a ∉ l) :
    ((pieces.flatMap (· ++ [a])).splitOn a).filter (· ≠ []) = pieces := by
  induction pieces with
  | nil => rfl
  | cons piece pieces ih =>
    obtain ⟨hne, hfree⟩ := h piece List.mem_cons_self
    rw [List.flatMap_cons, List.append_assoc, List.singleton_append,
      List.splitOn_append_cons_self_of_not_mem hfree, List.filter_cons_of_pos (by simpa using hne),
      ih fun l hl => h l (List.mem_cons_of_mem _ hl)]

theorem forall_splitOn_cons {p : List α → Prop} {a b : α} {l : List α} (hnil : b = a → p [])
    (hcons : b ≠ a → ∀ piece ∈ l.splitOn a, p (b :: piece)) (hl : ∀ piece ∈ l.splitOn a, p piece) :
    ∀ piece ∈ (b :: l).splitOn a, p piece := by
  obtain ⟨first, pieces, hsplit, -⟩ := exists_splitOn a l
  rw [hsplit] at hcons hl
  rw [List.splitOn_cons_eq_if_modifyHead, hsplit]
  intro piece hmem
  by_cases hb : b = a
  · rw [if_pos (by simp [hb])] at hmem
    rcases List.mem_cons.mp hmem with rfl | hmem
    · exact hnil hb
    · exact hl piece hmem
  · rw [if_neg (by simp [hb])] at hmem
    rcases List.mem_cons.mp hmem with rfl | hmem
    · exact hcons hb first List.mem_cons_self
    · exact hl piece (List.mem_cons_of_mem _ hmem)

theorem notMem_splitOn (a : α) (l : List α) : ∀ piece ∈ l.splitOn a, a ∉ piece := by
  induction l with
  | nil => simp
  | cons b l ih =>
    refine forall_splitOn_cons (by simp) (fun hb piece hmem => ?_) ih
    simp [ih piece hmem, Ne.symm hb]

theorem subset_splitOn (a : α) (l : List α) : ∀ piece ∈ l.splitOn a, piece ⊆ l := by
  induction l with
  | nil => simp
  | cons b l ih =>
    refine forall_splitOn_cons (by simp) (fun _ piece hmem => ?_) fun piece hmem => ?_
    · exact List.cons_subset_cons b (ih piece hmem)
    · exact List.Subset.trans (ih piece hmem) (List.subset_cons_self b l)

/-- **The pieces together are the list without its separators.** -/
theorem flatten_splitOn (a : α) (l : List α) : (l.splitOn a).flatten = l.filter (· ≠ a) := by
  induction l with
  | nil => rfl
  | cons b l ih =>
    obtain ⟨first, pieces, hsplit, -⟩ := exists_splitOn a l
    rw [hsplit] at ih
    rw [List.splitOn_cons_eq_if_modifyHead, hsplit]
    by_cases hb : b = a
    · rw [if_pos (by simp [hb]), List.filter_cons_of_neg (by simp [hb]), ← ih]
      rfl
    · rw [if_neg (by simp [hb]), List.filter_cons_of_pos (by simp [hb]), ← ih]
      rfl

end Splits
