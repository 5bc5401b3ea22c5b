import Mathlib.Order.Lattice
import Mathlib.Tactic.Common

/-!
# Sets kept in the order of a key

The elements of an ordered set, as a list in the strict order of their keys. An element whose key is
taken already is not put in again.

* `OrderedSet`: lists in order;
* `insertElement`, `insert`: an element put at its place, and that the order is kept;
* **`mem_insert`**: where no two elements share a key, that is what is in the set.
-/

variable {α γ : Type*} [LinearOrder γ]

/-- Elements in the order of their keys, one for each key. -/
structure OrderedSet (key : α → γ) where
  toList : List α
  ordered : toList.Pairwise fun a b => key a < key b

namespace OrderedSet

/-- Put an element at its place, unless its key is taken. -/
@[simp] def insertElement (key : α → γ) (a : α) : List α → List α
  | [] => [a]
  | b :: l =>
    if key a < key b then a :: b :: l
    else if key b < key a then b :: insertElement key a l
    else b :: l

variable {key : α → γ} {s : OrderedSet key} {a b : α} {l : List α}

theorem of_mem_insertElement (h : b ∈ insertElement key a l) : b = a ∨ b ∈ l := by
  induction l with
  | nil => simpa using h
  | cons c l ih =>
    rw [insertElement] at h
    split_ifs at h
    · simpa using h
    · rcases List.mem_cons.mp h with rfl | h
      · exact .inr List.mem_cons_self
      · exact (ih h).imp_right (List.mem_cons_of_mem c)
    · exact .inr h

theorem mem_insertElement_of_mem (h : b ∈ l) : b ∈ insertElement key a l := by
  induction l with
  | nil => cases h
  | cons c l ih =>
    rw [insertElement]
    split_ifs
    · exact List.mem_cons_of_mem a h
    · rcases List.mem_cons.mp h with rfl | h
      · exact List.mem_cons_self
      · exact List.mem_cons_of_mem c (ih h)
    · exact h

theorem exists_mem_insertElement : ∃ b ∈ insertElement key a l, key b = key a := by
  induction l with
  | nil => simp
  | cons c l ih =>
    rw [insertElement]
    split_ifs with hlt hgt
    · exact ⟨a, List.mem_cons_self, rfl⟩
    · obtain ⟨b, hb, hkey⟩ := ih
      exact ⟨b, List.mem_cons_of_mem c hb, hkey⟩
    · exact ⟨c, List.mem_cons_self, le_antisymm (not_lt.mp hlt) (not_lt.mp hgt)⟩

theorem ordered_insertElement (h : l.Pairwise fun a b => key a < key b) :
    (insertElement key a l).Pairwise fun a b => key a < key b := by
  induction l with
  | nil => simp
  | cons c l ih =>
    obtain ⟨hc, hl⟩ := List.pairwise_cons.mp h
    rw [insertElement]
    split_ifs with hlt hgt
    · refine List.pairwise_cons.mpr ⟨fun b hb => ?_, h⟩
      rcases List.mem_cons.mp hb with rfl | hb
      · exact hlt
      · exact hlt.trans (hc b hb)
    · refine List.pairwise_cons.mpr ⟨fun b hb => ?_, ih hl⟩
      rcases of_mem_insertElement hb with rfl | hb
      · exact hgt
      · exact hc b hb
    · exact h

def empty : OrderedSet key := ⟨[], List.Pairwise.nil⟩

def insert (a : α) (s : OrderedSet key) : OrderedSet key :=
  ⟨insertElement key a s.toList, ordered_insertElement s.ordered⟩

@[simp] theorem toList_empty : (empty : OrderedSet key).toList = [] := rfl

theorem of_mem_insert (h : b ∈ (s.insert a).toList) : b = a ∨ b ∈ s.toList := of_mem_insertElement h

theorem mem_insert_of_mem (h : b ∈ s.toList) : b ∈ (s.insert a).toList := mem_insertElement_of_mem h

theorem insert_ne_nil : (s.insert a).toList ≠ [] := by
  obtain ⟨b, hb, -⟩ : ∃ b ∈ insertElement key a s.toList, key b = key a :=
    exists_mem_insertElement
  exact List.ne_nil_of_mem hb

/-- **Putting an element in.** -/
theorem mem_insert (hkey : Function.Injective key) :
    b ∈ (s.insert a).toList ↔ b = a ∨ b ∈ s.toList := by
  refine ⟨of_mem_insert, ?_⟩
  rintro (rfl | h)
  · obtain ⟨c, hc, heq⟩ : ∃ c ∈ insertElement key b s.toList, key c = key b :=
      exists_mem_insertElement
    exact hkey heq ▸ hc
  · exact mem_insert_of_mem h

end OrderedSet
