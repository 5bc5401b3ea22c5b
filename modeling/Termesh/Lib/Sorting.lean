import Mathlib.Data.List.Lex
import Mathlib.Data.List.Sort

/-!
# Sorting by a key

* `sortBy key`: a stable sort;
* **`sortBy_eq_of_perm`**: where no two elements share a key, the order they come in is forgotten;
* `filter_sortBy`, **`sortBy_append_sortBy`**: a stable sort may be made piece by piece.
-/

namespace Sorting

variable {α β γ δ : Type*} [LinearOrder γ] [LinearOrder δ]

/-- The elements in the order of their keys; those of one key stay in their order. -/
def sortBy (key : α → γ) (l : List α) : List α := l.insertionSort fun a b => key a ≤ key b

theorem perm_sortBy (key : α → γ) (l : List α) : (sortBy key l).Perm l :=
  List.perm_insertionSort _ l

theorem mem_sortBy {key : α → γ} {l : List α} {a : α} : a ∈ sortBy key l ↔ a ∈ l :=
  (perm_sortBy key l).mem_iff

theorem length_sortBy (key : α → γ) (l : List α) : (sortBy key l).length = l.length :=
  (perm_sortBy key l).length_eq

theorem pairwise_sortBy (key : α → γ) (l : List α) :
    (sortBy key l).Pairwise fun a b => key a ≤ key b := by
  have htotal : Std.Total fun a b => key a ≤ key b := ⟨fun a b => le_total (key a) (key b)⟩
  have htrans : IsTrans α fun a b => key a ≤ key b := ⟨fun _ _ _ => le_trans⟩
  exact List.pairwise_insertionSort _ l

/-- Renaming that keeps the order of the keys. -/
theorem sortBy_map {key : α → γ} {key' : β → δ} {f : α → β} {l : List α}
    (h : ∀ a ∈ l, ∀ b ∈ l, key a ≤ key b ↔ key' (f a) ≤ key' (f b)) :
    (sortBy key l).map f = sortBy key' (l.map f) :=
  List.map_insertionSort _ _ f l h

/-- **Where no two elements share a key, the order they come in is forgotten.** -/
theorem sortBy_eq_of_perm {key : α → γ} {l l' : List α}
    (hkey : ∀ a ∈ l, ∀ b ∈ l, key a = key b → a = b) (h : l.Perm l') :
    sortBy key l = sortBy key l' := by
  refine List.Perm.eq_of_pairwise (fun a b ha hb hab hba => ?_) (pairwise_sortBy key l)
    (pairwise_sortBy key l') (((perm_sortBy key l).trans h).trans (perm_sortBy key l').symm)
  exact hkey a (mem_sortBy.mp ha) b (h.symm.subset (mem_sortBy.mp hb)) (le_antisymm hab hba)

/-- The elements of one key stay in their order. -/
theorem filter_sortBy (key : α → γ) (l : List α) (k : γ) :
    (sortBy key l).filter (key · = k) = l.filter (key · = k) := by
  have htotal : Std.Total fun a b => key a ≤ key b := ⟨fun a b => le_total (key a) (key b)⟩
  have htrans : IsTrans α fun a b => key a ≤ key b := ⟨fun _ _ _ => le_trans⟩
  have hsame : (l.filter (key · = k)).Pairwise fun a b => key a ≤ key b := by
    refine List.pairwise_of_forall_mem_list fun a ha b hb => ?_
    have hka : key a = k := by simpa using (List.mem_filter.mp ha).2
    have hkb : key b = k := by simpa using (List.mem_filter.mp hb).2
    exact (hka.trans hkb.symm).le
  have hsub : (l.filter (key · = k)).Sublist (sortBy key l) :=
    List.sublist_insertionSort hsame List.filter_sublist
  have hfilter : (l.filter (key · = k)).Sublist ((sortBy key l).filter (key · = k)) := by
    simpa [List.filter_filter] using hsub.filter (key · = k)
  exact (hfilter.eq_of_length ((perm_sortBy key l).filter _).length_eq.symm).symm

theorem eq_of_filter_eq {key : α → γ} {l l' : List α} (h : l.Pairwise fun a b => key a ≤ key b)
    (h' : l'.Pairwise fun a b => key a ≤ key b)
    (hfilter : ∀ k, l.filter (key · = k) = l'.filter (key · = k)) : l = l' := by
  have hmem : ∀ {a : α}, a ∈ l ↔ a ∈ l' := fun {a} => by
    have := congrArg (a ∈ ·) (hfilter (key a))
    simpa using this
  induction l generalizing l' with
  | nil =>
    refine (List.eq_nil_iff_forall_not_mem.mpr fun a ha => ?_).symm
    simpa using hmem.mpr ha
  | cons a l ih =>
    cases l' with
    | nil => simpa using (hmem (a := a)).mp List.mem_cons_self
    | cons b l' =>
      obtain ⟨ha, hl⟩ := List.pairwise_cons.mp h
      obtain ⟨hb, hl'⟩ := List.pairwise_cons.mp h'
      have hab : key a = key b := by
        refine le_antisymm ?_ ?_
        · rcases List.mem_cons.mp (hmem.mpr (List.mem_cons_self (a := b) (l := l'))) with heq | hin
          · rw [heq]
          · exact ha b hin
        · rcases List.mem_cons.mp (hmem.mp (List.mem_cons_self (a := a) (l := l))) with heq | hin
          · rw [heq]
          · exact hb a hin
      have hhead := hfilter (key b)
      rw [List.filter_cons_of_pos (by simp [hab]), List.filter_cons_of_pos (by simp)] at hhead
      obtain ⟨rfl, -⟩ := List.cons.inj hhead
      have htail : ∀ k, l.filter (key · = k) = l'.filter (key · = k) := fun k => by
        have hk := hfilter k
        rw [List.filter_cons, List.filter_cons] at hk
        split_ifs at hk
        · exact List.tail_eq_of_cons_eq hk
        · exact hk
      refine congrArg (a :: ·) (ih hl hl' htail fun {c} => ?_)
      have := congrArg (c ∈ ·) (htail (key c))
      simpa using this

/-- **A stable sort may be made piece by piece.** -/
theorem sortBy_append_sortBy (key : α → γ) (l l' : List α) :
    sortBy key (sortBy key l ++ l') = sortBy key (l ++ l') :=
  eq_of_filter_eq (pairwise_sortBy key _) (pairwise_sortBy key _) fun k => by
    simp [filter_sortBy, List.filter_append]

/-- A common front does not change how lists compare. -/
theorem append_le_append_iff {front a b : List γ} : front ++ a ≤ front ++ b ↔ a ≤ b := by
  have hmono : StrictMono (front ++ · : List γ → List γ) := fun _ _ h =>
    List.Lex.append_left (· < ·) h front
  exact hmono.le_iff_le

end Sorting
