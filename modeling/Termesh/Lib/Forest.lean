import Mathlib.Data.Finset.Card
import Mathlib.Data.List.Nodup
import Mathlib.Logic.Relation

/-!
# Rooted trees given by child lists

A tree over a type of names: every name has a list of children, and what is live is what is below
the root. Nothing bounds the names, and dead names have no children.

* `Child`, `Below`: one step down, and any number of them;
* `Rooted`: child lists that make a tree below a root;
* `Gone`, **`Rooted.relist`**: a new child list for one name, without what is below the children
  it loses;
* `sweep`, **`mem_sweep`**: a worklist visits exactly what is below it.
-/

namespace Forest

open Relation

variable {ι : Type*}

/-- `c` is a child of `p`. -/
def Child (kids : ι → List ι) (p c : ι) : Prop := c ∈ kids p

/-- `c` is `p` or below it. -/
abbrev Below (kids : ι → List ι) : ι → ι → Prop := ReflTransGen (Child kids)

/-- A chain of children, each step of which starts at an open name. -/
abbrev Through (E : ι → Prop) (kids : ι → List ι) : ι → ι → Prop :=
  ReflTransGen fun p c => E p ∧ Child kids p c

/-- Child lists that make a tree. -/
structure Rooted (live : ι → Prop) (kids : ι → List ι) (root : ι) : Prop where
  reach : ∀ i, live i ↔ Below kids root i
  nodup : ∀ i, (kids i).Nodup
  single : ∀ p q c, c ∈ kids p → c ∈ kids q → p = q
  top : ∀ p, root ∉ kids p
  lives : ∀ p c, c ∈ kids p → live p

namespace Rooted

variable {live : ι → Prop} {kids : ι → List ι} {root : ι}

theorem root_live (h : Rooted live kids root) : live root := (h.reach root).mpr .refl

theorem child_live (h : Rooted live kids root) {p c : ι} (hc : c ∈ kids p) : live c :=
  (h.reach c).mpr (((h.reach p).mp (h.lives p c hc)).tail hc)

theorem child_ne_root (h : Rooted live kids root) {p c : ι} (hc : c ∈ kids p) : c ≠ root := by
  rintro rfl
  exact h.top p hc

/-- **Nothing is below itself**: climbing a cycle would reach the root. -/
theorem acyclic (h : Rooted live kids root) {i : ι} (hi : live i) : ¬ TransGen (Child kids) i i := by
  have hroot := (h.reach i).mp hi
  clear hi
  induction hroot with
  | refl =>
    intro hcycle
    obtain ⟨p, -, hp⟩ := TransGen.tail'_iff.mp hcycle
    exact h.top p hp
  | @tail p c hp hc ih =>
    intro hcycle
    obtain ⟨q, hbelow, hq⟩ := TransGen.tail'_iff.mp hcycle
    obtain rfl : p = q := h.single p q c hc hq
    exact ih (TransGen.head' hc hbelow)

/-- A live name but the root is in exactly one child list. -/
theorem once (h : Rooted live kids root) {c : ι} (hc : live c) (hne : c ≠ root) :
    ∃! p, c ∈ kids p := by
  rcases ((h.reach c).mp hc).cases_tail with rfl | ⟨p, -, hp⟩
  · exact absurd rfl hne
  · exact ⟨p, hp, fun q hq => h.single q p c hq hp⟩

theorem below_cases (h : Rooted live kids root) {p c r : ι} (hc : c ∈ kids p)
    (hb : Below kids r c) : r = c ∨ Below kids r p := by
  rcases hb.cases_tail with rfl | ⟨q, hrq, hq⟩
  · exact .inl rfl
  · obtain rfl : p = q := h.single p q c hc hq
    exact .inr hrq

theorem siblings (h : Rooted live kids root) {p c d i : ι} (hc : c ∈ kids p) (hd : d ∈ kids p)
    (hci : Below kids c i) (hdi : Below kids d i) : c = d := by
  have hapart : ∀ {c d : ι}, c ∈ kids p → d ∈ kids p → Below kids d c → d = c := by
    intro c d hc hd hb
    rcases h.below_cases hc hb with he | hb
    · exact he
    · exact absurd (TransGen.head' hd hb) (h.acyclic (h.lives p c hc))
  induction hci with
  | refl => exact (hapart hc hd hdi).symm
  | @tail y i hcy hy ih =>
    rcases h.below_cases hy hdi with rfl | hdy
    · exact hapart hd hc (hcy.tail hy)
    · exact ih hdy

end Rooted

/-! ## A new child list -/

/-- What is below a child of `x` that is not among the new ones. -/
def Gone (kids : ι → List ι) (x : ι) (new : List ι) (i : ι) : Prop :=
  ∃ r ∈ kids x, r ∉ new ∧ Below kids r i

section Relist

variable {live live' : ι → Prop} {kids kids' : ι → List ι} {root x : ι} {new : List ι}

/-- The child lists after `x` got new children and lost what is gone. -/
structure Relisted (live : ι → Prop) (kids : ι → List ι) (x : ι) (new : List ι)
    (live' : ι → Prop) (kids' : ι → List ι) : Prop where
  nodup : new.Nodup
  /-- A new child was a child before, or is fresh. -/
  fresh : ∀ c ∈ new, c ∈ kids x ∨ ¬ live c
  lives : ∀ i, live' i ↔ live i ∧ ¬ Gone kids x new i ∨ i ∈ new
  same : kids' x = new
  other : ∀ i, i ≠ x → live i → ¬ Gone kids x new i → kids' i = kids i
  gone : ∀ i, i ≠ x → ¬ live i ∨ Gone kids x new i → kids' i = []

namespace Rooted

variable (h : Rooted live kids root)
include h

theorem not_gone_self (hx : live x) : ¬ Gone kids x new x := by
  rintro ⟨r, hr, -, hb⟩
  exact h.acyclic hx (TransGen.head' hr hb)

theorem not_gone_root : ¬ Gone kids x new root := by
  rintro ⟨r, hr, -, hb⟩
  rcases hb.cases_tail with rfl | ⟨q, -, hq⟩
  · exact h.top x hr
  · exact h.top q hq

/-- A child is gone with its parent, or as a child of `x` that is not among the new ones. -/
theorem gone_child {p c : ι} (hc : c ∈ kids p) (hg : Gone kids x new c) :
    Gone kids x new p ∨ p = x ∧ c ∉ new := by
  obtain ⟨r, hr, hn, hb⟩ := hg
  rcases h.below_cases hc hb with rfl | hb
  · exact .inr ⟨h.single p x _ hc hr, hn⟩
  · exact .inl ⟨r, hr, hn, hb⟩

omit h in
theorem gone_below {p c : ι} (hc : c ∈ kids p) (hg : Gone kids x new p) : Gone kids x new c := by
  obtain ⟨r, hr, hn, hb⟩ := hg
  exact ⟨r, hr, hn, hb.tail hc⟩

theorem through_relist (hr : Relisted live kids x new live' kids') {E : ι → Prop} {i : ι}
    (ht : Through E kids root i) (hi : ¬ Gone kids x new i) : Through E kids' root i := by
  induction ht with
  | refl => exact .refl
  | @tail p c _ hc ih =>
    have hp : ¬ Gone kids x new p := fun hg => hi (gone_below hc.2 hg)
    refine (ih hp).tail ⟨hc.1, ?_⟩
    by_cases hx : p = x
    · subst hx
      by_contra hn
      rw [Child, hr.same] at hn
      exact hi ⟨c, hc.2, hn, .refl⟩
    · rw [Child, hr.other p hx (h.lives p c hc.2) hp]
      exact hc.2

theorem through_gone {E : ι → Prop} {i : ι} (ht : Through E kids root i)
    (hg : Gone kids x new i) : Through E kids root x := by
  induction ht with
  | refl => exact absurd hg h.not_gone_root
  | @tail p c hp hc ih =>
    rcases h.gone_child hc.2 hg with hg | ⟨rfl, -⟩
    · exact ih hg
    · exact hp

/-- **A new child list leaves a tree.** -/
theorem relist (hx : live x) (hr : Relisted live kids x new live' kids') :
    Rooted live' kids' root := by
  have hself : live' x := (hr.lives x).mpr (.inl ⟨hx, h.not_gone_self hx⟩)
  have hkids : ∀ p c, c ∈ kids' p → p = x ∧ c ∈ new ∨
      p ≠ x ∧ live p ∧ ¬ Gone kids x new p ∧ c ∈ kids p := by
    intro p c hc
    by_cases hp : p = x
    · subst hp
      rw [hr.same] at hc
      exact .inl ⟨rfl, hc⟩
    · by_cases hk : live p ∧ ¬ Gone kids x new p
      · rw [hr.other p hp hk.1 hk.2] at hc
        exact .inr ⟨hp, hk.1, hk.2, hc⟩
      · rw [hr.gone p hp (by tauto)] at hc
        cases hc
  have hstay : ∀ p c, c ∈ kids' p → live' c := by
    intro p c hc
    rcases hkids p c hc with ⟨-, hn⟩ | ⟨hp, -, hk, hc⟩
    · exact (hr.lives c).mpr (.inr hn)
    · refine (hr.lives c).mpr (.inl ⟨h.child_live hc, fun hg => ?_⟩)
      rcases h.gone_child hc hg with hg | ⟨rfl, -⟩
      · exact hk hg
      · exact hp rfl
  have hreach : ∀ i, live i → ¬ Gone kids x new i → Below kids' root i := by
    intro i hi hg
    have hb : Through (fun _ => True) kids root i :=
      ((h.reach i).mp hi).lift id fun _ _ hc => ⟨trivial, hc⟩
    exact (h.through_relist hr hb hg).lift id fun _ _ hc => hc.2
  constructor
  case reach =>
    intro i
    constructor
    · intro hi
      rcases (hr.lives i).mp hi with ⟨hi, hg⟩ | hn
      · exact hreach i hi hg
      · refine (hreach x hx (h.not_gone_self hx)).tail ?_
        rw [Child, hr.same]
        exact hn
    · intro hb
      rcases hb.cases_tail with rfl | ⟨p, -, hc⟩
      · exact (hr.lives _).mpr (.inl ⟨h.root_live, h.not_gone_root⟩)
      · exact hstay p i hc
  case nodup =>
    intro i
    by_cases hi : i = x
    · subst hi
      rw [hr.same]
      exact hr.nodup
    · by_cases hk : live i ∧ ¬ Gone kids x new i
      · rw [hr.other i hi hk.1 hk.2]
        exact h.nodup i
      · rw [hr.gone i hi (by tauto)]
        exact List.nodup_nil
  case single =>
    -- a new child that is listed elsewhere is not fresh, and so it was listed twice before
    have hapart : ∀ q c, c ∈ new → q ≠ x → c ∉ kids q := by
      intro q c hn hq hc
      rcases hr.fresh c hn with hx' | hfresh
      · exact hq (h.single q x c hc hx')
      · exact hfresh (h.child_live hc)
    intro p q c hp hq
    rcases hkids p c hp with ⟨rfl, hn⟩ | ⟨hpx, -, -, hcp⟩
    · rcases hkids q c hq with ⟨rfl, -⟩ | ⟨hqx, -, -, hcq⟩
      · rfl
      · exact absurd hcq (hapart q c hn hqx)
    · rcases hkids q c hq with ⟨rfl, hn⟩ | ⟨-, -, -, hcq⟩
      · exact absurd hcp (hapart p c hn hpx)
      · exact h.single p q c hcp hcq
  case top =>
    intro p hp
    rcases hkids p root hp with ⟨-, hn⟩ | ⟨-, -, -, hc⟩
    · rcases hr.fresh root hn with hc | hf
      · exact h.top x hc
      · exact hf h.root_live
    · exact h.top p hc
  case lives =>
    intro p c hc
    rcases hkids p c hc with ⟨rfl, -⟩ | ⟨-, hp, hg, -⟩
    · exact hself
    · exact (hr.lives p).mpr (.inl ⟨hp, hg⟩)

end Rooted

end Relist

/-! ## Worklists -/

/-- The names a worklist visits: the top of the stack, and then its children above the rest. -/
def sweep (kids : ι → List ι) : ℕ → List ι → List ι
  | 0, _ => []
  | _ + 1, [] => []
  | fuel + 1, i :: stack => i :: sweep kids fuel ((kids i).reverse ++ stack)

theorem below_of_mem_sweep {kids : ι → List ι} {fuel : ℕ} {stack : List ι} {i : ι}
    (h : i ∈ sweep kids fuel stack) : ∃ s ∈ stack, Below kids s i := by
  induction fuel generalizing stack with
  | zero => cases h
  | succ fuel ih =>
    cases stack with
    | nil => cases h
    | cons s stack =>
      rcases List.mem_cons.mp h with rfl | h
      · exact ⟨_, List.mem_cons_self, .refl⟩
      · obtain ⟨r, hr, hb⟩ := ih h
        rcases List.mem_append.mp hr with hr | hr
        · exact ⟨s, List.mem_cons_self, .head (List.mem_reverse.mp hr) hb⟩
        · exact ⟨r, List.mem_cons_of_mem _ hr, hb⟩

theorem sweep_congr {kids kids' : ι → List ι} {fuel : ℕ} {stack : List ι}
    (h : ∀ s ∈ stack, ∀ i, Below kids s i → kids' i = kids i) :
    sweep kids' fuel stack = sweep kids fuel stack := by
  induction fuel generalizing stack with
  | zero => rfl
  | succ fuel ih =>
    cases stack with
    | nil => rfl
    | cons s stack =>
      have hs := h s List.mem_cons_self s .refl
      rw [sweep, sweep, hs]
      congr 1
      refine ih fun r hr i hi => ?_
      rcases List.mem_append.mp hr with hr | hr
      · exact h s List.mem_cons_self i (.head (List.mem_reverse.mp hr) hi)
      · exact h r (List.mem_cons_of_mem _ hr) i hi

/-- What a worklist has visited and what it has still to visit: no name twice, and each but the
seed is the child of one that was visited. -/
structure Sweeping (kids : ι → List ι) (seed : ι) (seen stack : List ι) : Prop where
  nodup : (seen ++ stack).Nodup
  from_seed : ∀ i ∈ seen ++ stack, Below kids seed i
  parent : ∀ i ∈ seen ++ stack, i = seed ∨ ∃ p ∈ seen, i ∈ kids p

theorem Sweeping.next {live : ι → Prop} {kids : ι → List ι} {root : ι}
    (h : Rooted live kids root) {seed i : ι} (hseed : live seed) {seen stack : List ι}
    (hs : Sweeping kids seed seen (i :: stack)) :
    Sweeping kids seed (seen ++ [i]) ((kids i).reverse ++ stack) := by
  have hi : i ∈ seen ++ i :: stack := List.mem_append_right _ List.mem_cons_self
  have hfresh : ∀ c ∈ kids i, c ∉ seen ++ i :: stack := by
    intro c hc hm
    rcases hs.parent c hm with rfl | ⟨p, hp, hcp⟩
    · exact h.acyclic hseed (TransGen.tail' (hs.from_seed i hi) hc)
    · obtain rfl : p = i := h.single p i c hcp hc
      have hdup := List.nodup_append.mp hs.nodup
      exact hdup.2.2 p hp p List.mem_cons_self rfl
  have hperm : (seen ++ [i] ++ ((kids i).reverse ++ stack)).Perm
      (kids i ++ (seen ++ i :: stack)) := by
    have hrev : ((kids i).reverse ++ stack).Perm (kids i ++ stack) :=
      (List.reverse_perm _).append_right _
    rw [List.append_assoc]
    refine ((hrev.cons i).append_left seen).trans ?_
    have hmid : (i :: (kids i ++ stack)).Perm (kids i ++ i :: stack) := List.perm_middle.symm
    refine (hmid.append_left seen).trans ?_
    rw [← List.append_assoc, ← List.append_assoc]
    exact List.perm_append_comm.append_right _
  constructor
  · rw [hperm.nodup_iff]
    refine List.nodup_append.mpr ⟨h.nodup i, hs.nodup, fun c hc d hd hcd => ?_⟩
    exact hfresh c hc (hcd ▸ hd)
  · intro c hc
    rcases List.mem_append.mp (hperm.mem_iff.mp hc) with hc | hc
    · exact (hs.from_seed i hi).tail hc
    · exact hs.from_seed c hc
  · intro c hc
    rcases List.mem_append.mp (hperm.mem_iff.mp hc) with hc | hc
    · exact .inr ⟨i, by simp, hc⟩
    · rcases hs.parent c hc with hc | ⟨p, hp, hc⟩
      · exact .inl hc
      · exact .inr ⟨p, List.mem_append_left _ hp, hc⟩

/-- A worklist with fuel for every name below its seed visits its stack and all below. -/
theorem mem_sweep_of_below {live : ι → Prop} {kids : ι → List ι} {root : ι} {rank : ι → ℕ}
    (h : Rooted live kids root) (hrank : Function.Injective rank) {n : ℕ} {seed : ι}
    (hn : ∀ i, Below kids seed i → rank i < n) (hseed : live seed) {fuel : ℕ}
    {seen stack : List ι} (hs : Sweeping kids seed seen stack) (hfuel : n ≤ fuel + seen.length)
    {s i : ι} (hstack : s ∈ stack) (hb : Below kids s i) : i ∈ sweep kids fuel stack := by
  induction fuel generalizing seen stack s with
  | zero =>
    -- every name below the seed was seen, so nothing is left on the stack
    have hle : (seen ++ stack).length ≤ n := by
      have hcard : ((seen ++ stack).map rank).toFinset ⊆ Finset.range n := by
        intro k hk
        obtain ⟨j, hj, rfl⟩ := List.mem_map.mp (List.mem_toFinset.mp hk)
        exact Finset.mem_range.mpr (hn j (hs.from_seed j hj))
      have hle := Finset.card_le_card hcard
      rw [List.toFinset_card_of_nodup (hs.nodup.map hrank), List.length_map,
        Finset.card_range] at hle
      exact hle
    have hpos := List.length_pos_of_mem hstack
    rw [List.length_append] at hle
    omega
  | succ fuel ih =>
    cases stack with
    | nil => cases hstack
    | cons top stack =>
      have hnext := hs.next h hseed
      have hfuel' : n ≤ fuel + (seen ++ [top]).length := by
        rw [List.length_append, List.length_singleton]
        omega
      rcases List.mem_cons.mp hstack with rfl | hstack
      · rcases hb.cases_head with rfl | ⟨c, hc, hb⟩
        · exact List.mem_cons_self
        · refine List.mem_cons_of_mem _ (ih hnext hfuel' (s := c) ?_ hb)
          exact List.mem_append_left _ (List.mem_reverse.mpr hc)
      · exact List.mem_cons_of_mem _ (ih hnext hfuel' (List.mem_append_right _ hstack) hb)

/-- **A worklist visits exactly what is below its seed.** -/
theorem mem_sweep {live : ι → Prop} {kids : ι → List ι} {root : ι} {rank : ι → ℕ}
    (h : Rooted live kids root) (hrank : Function.Injective rank) {n : ℕ} {seed : ι}
    (hn : ∀ i, Below kids seed i → rank i < n) (hseed : live seed) {i : ι} :
    i ∈ sweep kids n [seed] ↔ Below kids seed i := by
  constructor
  · intro hi
    obtain ⟨s, hs, hb⟩ := below_of_mem_sweep hi
    rw [List.mem_singleton] at hs
    exact hs ▸ hb
  · intro hb
    have hs : Sweeping kids seed [] [seed] :=
      ⟨List.nodup_singleton seed, by simp [ReflTransGen.refl], by simp⟩
    exact mem_sweep_of_below h hrank hn hseed hs (Nat.le_refl n) List.mem_cons_self hb

end Forest
