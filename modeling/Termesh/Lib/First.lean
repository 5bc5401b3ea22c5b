import Mathlib.Data.List.Forall2
import Mathlib.Data.List.Sort

/-!
# The first element that meets a predicate

What changing a list does to `List.find?`.

* `modifyFirst`, `find?_modifyFirst`, `modifyFirst_eq_map`: the first one changed;
* `Settles`, `settles_append`: the value of the first element that has one.
-/

namespace Firsts

theorem find?_set {α : Type*} {p : α → Bool} {l : List α} {i : ℕ} {a b : α} (hi : l[i]? = some a)
    (ha : p a = false) (hb : p b = false) : (l.set i b).find? p = l.find? p := by
  induction l generalizing i with
  | nil => cases hi
  | cons c l ih =>
    cases i with
    | zero =>
      obtain rfl : c = a := by simpa using hi
      rw [List.set_cons_zero, List.find?_cons_of_neg (by simp [hb]),
        List.find?_cons_of_neg (by simp [ha])]
    | succ i =>
      rw [List.set_cons_succ]
      by_cases hc : p c = true
      · rw [List.find?_cons_of_pos hc, List.find?_cons_of_pos hc]
      · rw [List.find?_cons_of_neg hc, List.find?_cons_of_neg hc]
        exact ih (by simpa using hi)

/-- Putting another element in place of the first that meets `p`. -/
theorem find?_set_first {α : Type*} {p : α → Bool} {l : List α} {i : ℕ} {b : α}
    (hi : l.findIdx? p = some i) (hb : p b = true) : (l.set i b).find? p = some b := by
  obtain ⟨hlt, -, hbefore⟩ := List.findIdx?_eq_some_iff_getElem.mp hi
  refine List.find?_eq_some_iff_getElem.mpr ⟨hb, i, by rwa [List.length_set], ?_, fun j hj => ?_⟩
  · exact List.getElem_set_self _
  · rw [List.getElem_set_ne (Nat.ne_of_gt hj)]
    simpa using hbefore j hj

/-- Taking out an element other than the first that meets `p` does not change which that is. -/
theorem find?_eraseIdx {α : Type*} {p : α → Bool} {l : List α} {i : ℕ} (h : l.findIdx? p ≠ some i) :
    (l.eraseIdx i).find? p = l.find? p := by
  induction l generalizing i with
  | nil => rfl
  | cons a l ih =>
    cases i with
    | zero =>
      have ha : p a ≠ true := fun ha => h (by rw [List.findIdx?_cons, if_pos ha])
      rw [List.eraseIdx_cons_zero, List.find?_cons_of_neg ha]
    | succ i =>
      rw [List.eraseIdx_cons_succ]
      by_cases ha : p a = true
      · rw [List.find?_cons_of_pos ha, List.find?_cons_of_pos ha]
      · rw [List.find?_cons_of_neg ha, List.find?_cons_of_neg ha]
        refine ih fun he => h ?_
        rw [List.findIdx?_cons, if_neg ha, he]
        rfl

/-- Taking out the only element that meets `p`. -/
theorem find?_eraseIdx_only {α : Type*} {p : α → Bool} {l : List α} {i : ℕ}
    (h : l.findIdx? p = some i) (h1 : (l.filter p).length = 1) : (l.eraseIdx i).find? p = none := by
  induction l generalizing i with
  | nil => cases h
  | cons a l ih =>
    by_cases ha : p a = true
    · rw [List.findIdx?_cons, if_pos ha] at h
      obtain rfl : 0 = i := Option.some.inj h
      rw [List.filter_cons_of_pos ha, List.length_cons] at h1
      rw [List.eraseIdx_cons_zero]
      refine List.find?_eq_none.mpr fun b hb hp => ?_
      have := List.length_pos_of_mem (List.mem_filter.mpr ⟨hb, hp⟩)
      omega
    · rw [List.findIdx?_cons, if_neg ha] at h
      obtain ⟨j, hj, rfl⟩ := Option.map_eq_some_iff.mp h
      rw [List.filter_cons_of_neg ha] at h1
      rw [List.eraseIdx_cons_succ, List.find?_cons_of_neg ha]
      exact ih hj h1

/-- What an element and the one in its place have in common. -/
theorem map_set_of_eq {α β : Type*} {g : α → β} {l : List α} {i : ℕ} {a b : α} (hi : l[i]? = some a)
    (hg : g b = g a) : (l.set i b).map g = l.map g := by
  obtain ⟨hlt, rfl⟩ := List.getElem?_eq_some_iff.mp hi
  have hlen : i < (l.map g).length := by simpa using hlt
  have hself := List.set_getElem_self hlen
  rw [List.getElem_map] at hself
  rw [List.map_set, hg, hself]

/-! ## The first one changed -/

section Modify

variable {α β κ : Type*} {p q : α → Bool} {f : α → α} {l : List α}

/-- Change the first element that meets `p`. -/
@[simp] def modifyFirst (p : α → Bool) (f : α → α) : List α → List α
  | [] => []
  | a :: l => if p a then f a :: l else a :: modifyFirst p f l

theorem find?_modifyFirst (hf : ∀ a, p (f a) = p a) :
    (modifyFirst p f l).find? p = (l.find? p).map f := by
  induction l with
  | nil => rfl
  | cons a l ih =>
    by_cases ha : p a = true
    · simp [modifyFirst, ha, hf]
    · simp [modifyFirst, ha, ih]

/-- Where every element has a key of its own, the first one with a key is the only one. -/
theorem modifyFirst_eq_map [DecidableEq κ] {key : α → κ} {k : κ} (hn : (l.map key).Nodup) :
    modifyFirst (key · = k) f l = l.map fun a => if key a = k then f a else a := by
  induction l with
  | nil => rfl
  | cons a l ih =>
    obtain ⟨ha, hl⟩ := List.nodup_cons.mp hn
    by_cases hk : key a = k
    · have hrest : ∀ b ∈ l, (if key b = k then f b else b) = id b := fun b hb =>
        if_neg fun hb' => ha (List.mem_map.mpr ⟨b, hb, hb'.trans hk.symm⟩)
      simp [modifyFirst, hk, List.map_congr_left hrest]
    · simp [modifyFirst, hk, ih hl]

theorem modifyFirst_eq_modify : modifyFirst p f l =
    match l.findIdx? p with
    | some i => l.modify i f
    | none => l := by
  induction l with
  | nil => rfl
  | cons a l ih =>
    by_cases ha : p a = true
    · simp [modifyFirst, List.findIdx?_cons, ha]
    · rw [modifyFirst, if_neg ha, ih, List.findIdx?_cons, if_neg ha]
      cases l.findIdx? p with
      | none => rfl
      | some i => rfl

end Modify

/-! ## A stable sort -/

/-- A stable sort leaves elements that need not move past each other in their order. -/
theorem filter_insertionSort {α : Type*} {r : α → α → Prop} [DecidableRel r] {p : α → Bool}
    (hp : ∀ a b, p a = true → p b = true → r a b) (l : List α) :
    (l.insertionSort r).filter p = l.filter p := by
  have hsorted : (l.filter p).Pairwise r := by
    rw [List.pairwise_filter]
    exact List.pairwise_of_forall fun a b ha hb => hp a b ha hb
  have hsub := (List.sublist_insertionSort hsorted List.filter_sublist).filter p
  rw [List.filter_filter] at hsub
  simp only [Bool.and_self] at hsub
  have hlen : (l.filter p).length = ((l.insertionSort r).filter p).length :=
    ((List.perm_insertionSort _ l).filter p).length_eq.symm
  exact (hsub.eq_of_length hlen).symm

/-- A stable sort keeps the first of the elements of one key. -/
theorem find?_insertionSort {α : Type*} {key : α → ℕ} {p : α → Bool} {k : ℕ}
    (hp : ∀ a, p a = true → key a = k) (l : List α) :
    (l.insertionSort fun a b => key a ≤ key b).find? p = l.find? p := by
  rw [← List.head?_filter, ← List.head?_filter,
    filter_insertionSort fun a b ha hb => by rw [hp a ha, hp b hb]]

section Falling

variable {α β : Type*} {key : α → ℕ} {l : List α} {n : ℕ}

/-- In a list whose keys fall, the elements of the greatest key stand first. -/
theorem filter_append_filter_of_falling (hl : l.Pairwise fun a b => key b ≤ key a)
    (hn : ∀ a ∈ l, key a ≤ n) :
    l.filter (key · = n) ++ l.filter (key · < n) = l := by
  induction l with
  | nil => rfl
  | cons a l ih =>
    obtain ⟨ha, hl⟩ := List.pairwise_cons.mp hl
    have hrest := ih hl fun b hb => hn b (List.mem_cons_of_mem a hb)
    have han := hn a List.mem_cons_self
    by_cases hak : key a = n
    · rw [List.filter_cons_of_pos (by simp [hak]), List.filter_cons_of_neg (by simp [hak]),
        List.cons_append, hrest]
    · -- no later key is greater, so none of them is `n`
      have hnone : l.filter (key · = n) = [] := by
        refine List.filter_eq_nil_iff.mpr fun b hb => ?_
        have hba := ha b hb
        simp only [decide_eq_true_eq]
        omega
      rw [hnone, List.nil_append] at hrest
      rw [List.filter_cons_of_neg (by simp [hak]), hnone, List.nil_append,
        List.filter_cons_of_pos (by simp; omega), hrest]

theorem findSome?_congr {f g : α → Option β} (h : ∀ a ∈ l, f a = g a) :
    l.findSome? f = l.findSome? g := by
  induction l with
  | nil => rfl
  | cons a l ih =>
    rw [List.findSome?_cons, List.findSome?_cons, h a List.mem_cons_self,
      ih fun b hb => h b (List.mem_cons_of_mem a hb)]

theorem findSome?_filter (f : α → Option β) (p : α → Bool) :
    (l.filter p).findSome? f = l.findSome? fun a => if p a then f a else none := by
  induction l with
  | nil => rfl
  | cons a l ih =>
    by_cases hp : p a = true
    · rw [List.filter_cons_of_pos hp, List.findSome?_cons, List.findSome?_cons, if_pos hp, ih]
    · rw [List.filter_cons_of_neg hp, List.findSome?_cons, if_neg hp, ih]

theorem findSome?_eq_of_only {f : α → Option β} {a : α} (ha : a ∈ l)
    (h : ∀ b ∈ l, b ≠ a → f b = none) : l.findSome? f = f a := by
  induction l with
  | nil => cases ha
  | cons b l ih =>
    have hl : ∀ c ∈ l, c ≠ a → f c = none := fun c hc => h c (List.mem_cons_of_mem b hc)
    rw [List.findSome?_cons]
    cases hb : f b with
    | some v =>
      have hba : b = a := by
        by_contra hne
        rw [h b List.mem_cons_self hne] at hb
        cases hb
      rw [← hba, hb]
    | none =>
      by_cases hal : a ∈ l
      · exact ih hal hl
      · obtain rfl : a = b := by simpa [hal] using ha
        rw [hb, List.findSome?_eq_none_iff]
        exact fun c hc => hl c hc fun hca => hal (hca ▸ hc)

/-- A list whose keys fall answers key by key, the greatest key first. -/
theorem findSome?_of_falling (f : α → Option β) (hl : l.Pairwise fun a b => key b ≤ key a)
    (hn : ∀ a ∈ l, key a < n) :
    l.findSome? f = (List.range n).reverse.findSome? fun k => (l.filter (key · = k)).findSome? f := by
  induction n generalizing l with
  | zero =>
    have hnil : l = [] := List.eq_nil_iff_forall_not_mem.mpr fun a ha =>
      Nat.not_lt_zero _ (hn a ha)
    rw [hnil]
    rfl
  | succ n ih =>
    have hrest := ih (hl.filter (key · < n)) fun a ha => by simpa using (List.mem_filter.mp ha).2
    have hkeys : ∀ k ∈ (List.range n).reverse,
        ((l.filter (key · < n)).filter (key · = k)).findSome? f =
          (l.filter (key · = k)).findSome? f := by
      intro k hk
      have hkn : k < n := by simpa using hk
      rw [List.filter_filter]
      congr 1
      refine List.filter_congr fun a _ => ?_
      by_cases hak : key a = k
      · simp [hak, hkn]
      · simp [hak]
    rw [List.range_succ, List.reverse_append, List.reverse_singleton, List.singleton_append,
      List.findSome?_cons, ← findSome?_congr hkeys, ← hrest]
    conv_lhs => rw [← filter_append_filter_of_falling hl fun a ha => Nat.le_of_lt_succ (hn a ha)]
    rw [List.findSome?_append]
    cases (l.filter (key · = n)).findSome? f with
    | none => rfl
    | some b => rfl

/-- What a list sorted by falling keys answers: the greatest key is asked first, and elements of
one key in the order they had. -/
theorem findSome?_insertionSort (f : α → Option β) (hn : ∀ a ∈ l, key a < n) :
    (l.insertionSort fun a b => key b ≤ key a).findSome? f =
      (List.range n).reverse.findSome? fun k => (l.filter (key · = k)).findSome? f := by
  have htotal : Std.Total fun a b : α => key b ≤ key a := ⟨fun a b => le_total _ _⟩
  have htrans : IsTrans α fun a b : α => key b ≤ key a := ⟨fun a b c hab hbc => hbc.trans hab⟩
  have hsorted := List.pairwise_insertionSort (fun a b : α => key b ≤ key a) l
  have hkeys : ∀ k, (l.insertionSort fun a b => key b ≤ key a).filter (key · = k) =
      l.filter (key · = k) := fun k => filter_insertionSort (fun a b ha hb => by
    have ha : key a = k := by simpa using ha
    have hb : key b = k := by simpa using hb
    rw [ha, hb]) l
  rw [findSome?_of_falling f hsorted fun a ha => hn a ((List.mem_insertionSort _).mp ha)]
  simp only [hkeys]

end Falling

/-! ## The first element with a value -/

section Settling

variable {α β : Type*} {f : α → Option β} {l l' : List α} {b b' : β}

/-- The first element that has a value has the value `b`. -/
def Settles (f : α → Option β) (l : List α) (b : β) : Prop :=
  ∃ before a after, l = before ++ a :: after ∧ f a = some b ∧ ∀ x ∈ before, f x = none

theorem settles_iff : Settles f l b ↔ l.findSome? f = some b := List.findSome?_eq_some_iff.symm

instance [DecidableEq β] : Decidable (Settles f l b) := decidable_of_iff _ settles_iff.symm

theorem settles_append :
    Settles f (l ++ l') b ↔ Settles f l b ∨ (∀ a ∈ l, f a = none) ∧ Settles f l' b := by
  rw [settles_iff, settles_iff, settles_iff, List.findSome?_append, Option.or_eq_some_iff,
    List.findSome?_eq_none_iff]

theorem Settles.unique (h : Settles f l b) (h' : Settles f l b') : b = b' :=
  Option.some.inj ((settles_iff.mp h).symm.trans (settles_iff.mp h'))

theorem none_or_settles (f : α → Option β) (l : List α) :
    (∀ a ∈ l, f a = none) ∨ ∃ b, Settles f l b := by
  cases h : l.findSome? f with
  | none => exact .inl (List.findSome?_eq_none_iff.mp h)
  | some b => exact .inr ⟨b, settles_iff.mpr h⟩

end Settling

/-! ## Two predicates along a list -/

/-- Two predicates hold of all of a list, or each fails in it, exactly when at the first element
where one of them fails the other one fails too, or fails further on. -/
theorem forall_iff_forall_iff {α : Type*} {P Q : α → Prop} {l : List α} :
    ((∀ a ∈ l, P a) ↔ ∀ a ∈ l, Q a) ↔ ∀ before a after, l = before ++ a :: after →
      (∀ x ∈ before, P x ∧ Q x) →
      (¬P a ∧ Q a → ∃ x ∈ after, ¬Q x) ∧ (P a ∧ ¬Q a → ∃ x ∈ after, ¬P x) := by
  induction l with
  | nil => simp
  | cons a l ih =>
    have hfirst : (∀ before b after, a :: l = before ++ b :: after → (∀ x ∈ before, P x ∧ Q x) →
          (¬P b ∧ Q b → ∃ x ∈ after, ¬Q x) ∧ (P b ∧ ¬Q b → ∃ x ∈ after, ¬P x)) ↔
        ((¬P a ∧ Q a → ∃ x ∈ l, ¬Q x) ∧ (P a ∧ ¬Q a → ∃ x ∈ l, ¬P x)) ∧
          (P a ∧ Q a → ∀ before b after, l = before ++ b :: after → (∀ x ∈ before, P x ∧ Q x) →
            (¬P b ∧ Q b → ∃ x ∈ after, ¬Q x) ∧ (P b ∧ ¬Q b → ∃ x ∈ after, ¬P x)) := by
      constructor
      · intro h
        refine ⟨h [] a l rfl (List.forall_mem_nil _), fun ha before b after hl hbefore => ?_⟩
        exact h (a :: before) b after (congrArg (a :: ·) hl) (List.forall_mem_cons.mpr ⟨ha, hbefore⟩)
      · rintro ⟨hhead, htail⟩ before b after hl hbefore
        cases before with
        | nil =>
          obtain ⟨rfl, rfl⟩ := List.cons.inj hl
          exact hhead
        | cons c before =>
          obtain ⟨rfl, hrest⟩ := List.cons.inj hl
          obtain ⟨ha, hbefore⟩ := List.forall_mem_cons.mp hbefore
          exact htail ha before b after hrest hbefore
    rw [hfirst, ← ih, List.forall_mem_cons, List.forall_mem_cons]
    by_cases hp : P a <;> by_cases hq : Q a <;> simp [hp, hq]

end Firsts
