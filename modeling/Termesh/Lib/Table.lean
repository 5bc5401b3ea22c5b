import Mathlib.Algebra.Order.Group.Multiset
import Mathlib.Data.List.AList

/-!
# Tables

A finite map with one entry for each key, over Mathlib's association lists. What it holds is counted
by two multisets, so that bookkeeping over several tables is arithmetic.

* `vals`, `names`: the values and the keys held;
* **`vals_insert`**, **`names_insert`**: a fresh key adds its entry;
* **`vals_erase`**, **`names_erase`**: a held key gives its entry back;
* `lookup_inserts`: pairs inserted in turn; `ofPairs`, **`lookup_ofPairs`**: a table of pairs.
-/

namespace Tables

/-- A finite map from `κ` to `ν`. -/
abbrev Table (κ ν : Type*) := AList fun _ : κ => ν

variable {κ ν : Type*}

namespace Table

/-- The values held. -/
def vals (t : Table κ ν) : Multiset ν := ↑(t.entries.map Sigma.snd)

/-- The keys held. -/
def names (t : Table κ ν) : Multiset κ := ↑t.keys

@[simp] theorem vals_empty : vals (∅ : Table κ ν) = 0 := rfl

@[simp] theorem names_empty : names (∅ : Table κ ν) = 0 := rfl

theorem vals_of_names {t : Table κ ν} (h : names t = 0) : vals t = 0 := by
  have : t.entries = [] := List.map_eq_nil_iff.mp (Multiset.coe_eq_zero _ |>.mp h)
  rw [vals, this]
  rfl

theorem mem_names {t : Table κ ν} {k : κ} : k ∈ names t ↔ k ∈ t := Iff.rfl

variable [DecidableEq κ]

theorem vals_insert (t : Table κ ν) {k : κ} (v : ν) (h : k ∉ t) :
    vals (t.insert k v) = {v} + vals t := by
  rw [vals, AList.entries_insert_of_notMem h]
  rfl

theorem names_insert (t : Table κ ν) {k : κ} (v : ν) (h : k ∉ t) :
    names (t.insert k v) = {k} + names t := by
  rw [names, AList.keys_insert, List.erase_of_not_mem h]
  rfl

theorem mem_of_lookup {t : Table κ ν} {k : κ} {v : ν} (h : t.lookup k = some v) : k ∈ t :=
  AList.lookup_isSome.mp (by rw [h]; rfl)

theorem vals_erase (t : Table κ ν) {k : κ} {v : ν} (h : t.lookup k = some v) :
    vals t = {v} + vals (t.erase k) := by
  obtain ⟨b, l₁, l₂, hn, he, hr⟩ := List.exists_of_kerase (mem_of_lookup h)
  have hb : b = v := by
    have hd : b ∈ t.lookup k := AList.mem_lookup_iff.mpr (by rw [he]; simp)
    exact Option.some.inj (hd.symm.trans h)
  refine Multiset.coe_eq_coe.mpr (?_ : (t.entries.map Sigma.snd).Perm
    (v :: (List.kerase k t.entries).map Sigma.snd))
  rw [hr, he, hb, List.map_append, List.map_cons, List.map_append]
  exact List.perm_middle

theorem names_erase (t : Table κ ν) {k : κ} {v : ν} (h : t.lookup k = some v) :
    names t = {k} + names (t.erase k) := by
  refine Multiset.coe_eq_coe.mpr (?_ : t.keys.Perm (k :: (t.erase k).keys))
  rw [AList.keys_erase]
  exact List.perm_cons_erase (mem_of_lookup h)

/-! ## Tables of pairs -/

/-- The pairs inserted in turn. -/
def ofPairs (ps : List (κ × ν)) : Table κ ν := ps.foldl (fun t p => t.insert p.1 p.2) ∅

theorem lookup_foldl_insert {ps : List (κ × ν)} (hnd : (ps.map Prod.fst).Nodup) (t : Table κ ν)
    (k : κ) (v : ν) : (ps.foldl (fun t p => t.insert p.1 p.2) t).lookup k = some v ↔
      (k, v) ∈ ps ∨ k ∉ ps.map Prod.fst ∧ t.lookup k = some v := by
  induction ps generalizing t with
  | nil => simp
  | cons p ps ih =>
    obtain ⟨k', v'⟩ := p
    rw [List.map_cons, List.nodup_cons] at hnd
    rw [List.foldl_cons, ih hnd.2]
    by_cases hk : k = k'
    · subst hk
      have hno : (k, v) ∉ ps := fun hm => hnd.1 (List.mem_map.mpr ⟨_, hm, rfl⟩)
      simp only [AList.lookup_insert, List.mem_cons, Prod.mk.injEq, true_and, hno, false_or,
        List.map_cons, hnd.1, not_false_eq_true, Option.some.injEq, not_true, false_and, or_false]
      exact eq_comm
    · rw [AList.lookup_insert_ne hk]
      simp [hk]

/-- Pairs inserted in turn: a key has a value of one of its pairs, or what it had. -/
theorem lookup_inserts (ps : List (κ × ν)) (t : Table κ ν) (k : κ) :
    (∃ v, (k, v) ∈ ps ∧ (ps.foldl (fun t p => t.insert p.1 p.2) t).lookup k = some v) ∨
      k ∉ ps.map Prod.fst ∧
        (ps.foldl (fun t p => t.insert p.1 p.2) t).lookup k = t.lookup k := by
  induction ps generalizing t with
  | nil => simp
  | cons p ps ih =>
    rcases ih (t.insert p.1 p.2) with ⟨v, hmem, hv⟩ | ⟨hno, hsame⟩
    · exact .inl ⟨v, List.mem_cons_of_mem _ hmem, hv⟩
    · by_cases hk : k = p.1
      · refine .inl ⟨p.2, by rw [hk]; exact List.mem_cons_self, ?_⟩
        rw [List.foldl_cons, hsame, hk, AList.lookup_insert]
      · refine .inr ⟨by simp [hk] at hno ⊢; exact hno, ?_⟩
        rw [List.foldl_cons, hsame, AList.lookup_insert_ne hk]

/-- **Pairs with distinct keys are looked up as they are.** -/
theorem lookup_ofPairs {ps : List (κ × ν)} (hnd : (ps.map Prod.fst).Nodup) (k : κ) (v : ν) :
    (ofPairs ps).lookup k = some v ↔ (k, v) ∈ ps := by
  rw [ofPairs, lookup_foldl_insert hnd]
  simp

theorem mem_snd_iff {t : Table κ ν} {v : ν} :
    v ∈ t.entries.map Sigma.snd ↔ ∃ k, t.lookup k = some v := by
  constructor
  · intro h
    obtain ⟨⟨k, w⟩, hm, rfl⟩ := List.mem_map.mp h
    exact ⟨k, AList.mem_lookup_iff.mpr hm⟩
  · rintro ⟨k, hk⟩
    exact List.mem_map.mpr ⟨⟨k, v⟩, AList.mem_lookup_iff.mp hk, rfl⟩

end Table

end Tables
