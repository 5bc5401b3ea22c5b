import Termesh.Filesystem.Tree
import Termesh.Lib.Forest

/-!
# The shape of the explorer's tree

What holds of a tree that is never told of a failed read of a directory whose children it shows.

* `Live`, `kids`, `Open`: what the arena means as a tree of names;
* `Sound`: the invariant; `Shaped`: what it says of the tree as the user sees it;
* **`Sound.shaped`**.
-/

namespace Termesh

namespace Filesystem

open Relation Forest Tables

/-- A node without what expanding it and reading its directory change. -/
def Node.core (n : Node) : Node :=
  { n with expanded := false, children := .loaded n.children.ids }

namespace FileTree

variable {t t' : FileTree} {id : NodeId}

def Live (t : FileTree) (id : NodeId) : Prop := (t.node id).isSome = true

/-- The loaded children of a live node. -/
def kids (t : FileTree) (id : NodeId) : List NodeId := ((t.node id).map (·.children.ids)).getD []

def Open (t : FileTree) (id : NodeId) : Prop := ∃ n, t.node id = some n ∧ n.expanded = true

/-- `c` is in the loaded child list of the live directory `p`. -/
def Lists (t : FileTree) (p c : NodeId) : Prop :=
  ∃ n ids, t.node p = some n ∧ n.kind = .dir ∧ n.children = .loaded ids ∧ c ∈ ids

/-- What the user is promised of the tree. -/
structure Shaped (t : FileTree) : Prop where
  reached : ∀ id, t.Live id → ReflTransGen t.Lists t.root id
  once : ∀ id, t.Live id → id ≠ t.root → ∃! p, t.Lists p id
  nodup : ∀ id n ids, t.node id = some n → n.children = .loaded ids → ids.Nodup
  top : ∀ p, ¬ t.Lists p t.root
  paths : ∀ id id' n n', t.node id = some n → t.node id' = some n' → n.path = n'.path → id = id'
  found : ∀ id n, t.node id = some n → t.findByPath n.path = some id
  shown : t.selected ∈ t.visibleRows.map Row.id

/-- The invariant of a tree. -/
structure Sound (t : FileTree) : Prop where
  ids : ∀ k (n : Node), t.nodes[k]? = some n → n.id = ⟨k⟩
  tree : Rooted t.Live t.kids t.root
  parent : ∀ p c n, c ∈ t.kids p → t.node c = some n → n.parent = some p
  orphan : ∀ n, t.node t.root = some n → n.parent = none
  under : ∀ k (n : Node) p, t.nodes[k]? = some n → n.parent = some p →
    p.val < k ∧ ∃ q : Node, t.nodes[p.val]? = some q ∧ q.kind = .dir ∧ n.path = q.path ++ [.normal n.name]
  names : ∀ p c d n m, c ∈ t.kids p → d ∈ t.kids p → t.node c = some n → t.node d = some m →
    n.name = m.name → c = d
  shown : Through t.Open t.kids t.root t.selected

/-! ## Nodes -/

theorem node_some {n : Node} :
    t.node id = some n ↔ t.nodes[id.val]? = some n ∧ n.alive = true := by
  simp [node, Option.filter_eq_some_iff]

theorem live_iff : t.Live id ↔ ∃ n, t.node id = some n := Option.isSome_iff_exists

theorem mem_kids {c : NodeId} : c ∈ t.kids id ↔ ∃ n, t.node id = some n ∧ c ∈ n.children.ids := by
  unfold kids
  cases t.node id <;> simp

theorem node_modify (t : FileTree) (id j : NodeId) {f : Node → Node}
    (hf : ∀ n, (f n).alive = n.alive) :
    (t.modify id f).node j = if j = id then (t.node id).map f else t.node j := by
  unfold modify
  by_cases hlive : (t.node id).isSome = true
  · rw [if_pos hlive]
    by_cases hj : j = id
    · subst hj
      rw [if_pos rfl, node, node]
      simp only [List.getElem?_modify_eq]
      cases t.nodes[j.val]? with
      | none => rfl
      | some n =>
        simp only [Option.map_eq_map, Option.map_some, Option.filter_some, hf]
        split_ifs <;> rfl
    · have hval : id.val ≠ j.val := by
        intro hv
        cases id
        cases j
        exact hj (by rw [NodeId.mk.injEq]; exact hv.symm)
      rw [if_neg hj, node, node]
      simp only [List.getElem?_modify_ne _ _ hval]
  · rw [if_neg hlive]
    by_cases hj : j = id
    · subst hj
      rw [if_pos rfl]
      rw [Bool.not_eq_true, Option.isSome_eq_false_iff, Option.isNone_iff_eq_none] at hlive
      rw [hlive]
      rfl
    · rw [if_neg hj]

/-! ## Paths -/

theorem Sound.rank (h : t.Sound) {p c : NodeId} (hc : c ∈ t.kids p) : p.val < c.val := by
  obtain ⟨n, hn⟩ := live_iff.mp (h.tree.child_live hc)
  exact (h.under c.val n p (node_some.mp hn).1 (h.parent p c n hc hn)).1

theorem Sound.path (h : t.Sound) {p c : NodeId} {n : Node} (hc : c ∈ t.kids p)
    (hn : t.node c = some n) :
    ∃ q, t.node p = some q ∧ q.kind = .dir ∧ n.path = q.path ++ [.normal n.name] := by
  obtain ⟨-, q, hq, hdir, hpath⟩ := h.under c.val n p (node_some.mp hn).1 (h.parent p c n hc hn)
  obtain ⟨q', hq', -⟩ := mem_kids.mp hc
  obtain rfl : q = q' := Option.some.inj (hq.symm.trans (node_some.mp hq').1)
  exact ⟨q, hq', hdir, hpath⟩

theorem Sound.root_path_lt (h : t.Sound) {c : NodeId} {r n : Node} (hr : t.node t.root = some r)
    (hb : Below t.kids t.root c) (hn : t.node c = some n) :
    r.path.length ≤ n.path.length ∧ (c ≠ t.root → r.path.length < n.path.length) := by
  induction hb generalizing n with
  | refl =>
    obtain rfl : n = r := Option.some.inj (hn.symm.trans hr)
    exact ⟨Nat.le_refl _, fun hne => absurd rfl hne⟩
  | @tail p c _ hc ih =>
    obtain ⟨q, hq, -, hpath⟩ := h.path hc hn
    have hle := (ih hq).1
    have hlen := congrArg List.length hpath
    rw [List.length_append, List.length_singleton] at hlen
    exact ⟨by omega, fun _ => by omega⟩

/-- **No two live nodes have one path.** -/
theorem Sound.path_injective (h : t.Sound) {c d : NodeId} {n m : Node} (hn : t.node c = some n)
    (hm : t.node d = some m) (hpath : n.path = m.path) : c = d := by
  obtain ⟨r, hr⟩ := live_iff.mp h.tree.root_live
  have hb : Below t.kids t.root c := (h.tree.reach c).mp (live_iff.mpr ⟨n, hn⟩)
  have hbd : Below t.kids t.root d := (h.tree.reach d).mp (live_iff.mpr ⟨m, hm⟩)
  induction hb generalizing d n m with
  | refl =>
    by_contra hne
    obtain rfl : n = r := Option.some.inj (hn.symm.trans hr)
    have hlt := (h.root_path_lt hr hbd hm).2 fun he => hne he.symm
    rw [hpath] at hlt
    exact Nat.lt_irrefl _ hlt
  | @tail p c hb hc ih =>
    rcases hbd.cases_tail with hroot | ⟨q, hq, hd⟩
    · have hlt := (h.root_path_lt hr (hb.tail hc) hn).2 (h.tree.child_ne_root hc)
      rw [hroot] at hm
      obtain rfl : m = r := Option.some.inj (hm.symm.trans hr)
      rw [hpath] at hlt
      exact absurd hlt (Nat.lt_irrefl _)
    · obtain ⟨np, hnp, -, hpn⟩ := h.path hc hn
      obtain ⟨nq, hnq, -, hqm⟩ := h.path hd hm
      rw [hpn, hqm] at hpath
      obtain ⟨hparent, hname⟩ := List.append_inj' hpath rfl
      obtain rfl : p = q := ih hnp hnq hparent hq
      exact h.names p c d n m hc hd hn hm (by simpa using hname)

/-! ## Rows -/

theorem mem_rows_of_through {fuel depth : ℕ} {x : NodeId} (hlive : t.Live id)
    (hrank : ∀ p c, c ∈ t.kids p → p.val < c.val) (hfuel : id.val < fuel + x.val)
    (hb : Through t.Open t.kids x id) : id ∈ (t.rowsFrom fuel x depth).map Row.id := by
  induction fuel generalizing x depth with
  | zero =>
    exfalso
    have hle : x.val ≤ id.val := by
      clear hfuel hlive
      induction hb with
      | refl => exact Nat.le_refl _
      | tail _ hc ih => exact Nat.le_trans ih (Nat.le_of_lt (hrank _ _ hc.2))
    omega
  | succ fuel ih =>
    rcases hb.cases_head with rfl | ⟨c, ⟨⟨n, hn, hopen⟩, hc⟩, hb⟩
    · obtain ⟨n, hn⟩ := live_iff.mp hlive
      rw [rowsFrom, hn]
      exact List.mem_cons_self
    · have hlt := hrank x c hc
      have hmem : id ∈ (t.rowsFrom fuel c (depth + 1)).map Row.id := ih (by omega) hb
      obtain ⟨n', hn', hc⟩ := mem_kids.mp hc
      obtain rfl : n = n' := Option.some.inj (hn.symm.trans hn')
      rw [rowsFrom, hn]
      dsimp only
      rw [if_pos hopen, List.map_cons, List.map_flatMap]
      exact List.mem_cons_of_mem _ (List.mem_flatMap.mpr ⟨c, hc, hmem⟩)

theorem through_of_mem_rows {fuel depth : ℕ} {x : NodeId}
    (h : id ∈ (t.rowsFrom fuel x depth).map Row.id) : Through t.Open t.kids x id := by
  induction fuel generalizing x depth with
  | zero => cases h
  | succ fuel ih =>
    rw [rowsFrom] at h
    split at h
    · cases h
    · rename_i n hn
      rw [List.map_cons] at h
      rcases List.mem_cons.mp h with rfl | h
      · exact .refl
      · split_ifs at h with hopen
        · rw [List.map_flatMap] at h
          obtain ⟨c, hc, h⟩ := List.mem_flatMap.mp h
          exact .head ⟨⟨n, hn, hopen⟩, mem_kids.mpr ⟨n, hn, hc⟩⟩ (ih h)
        · cases h

/-- **The visible rows**: what expanded directories lead to. -/
theorem Sound.mem_rows_iff (h : t.Sound) :
    id ∈ t.visibleRows.map Row.id ↔ Through t.Open t.kids t.root id := by
  constructor
  · exact through_of_mem_rows
  · intro hb
    have hlive : t.Live id := by
      rcases hb.cases_tail with rfl | ⟨p, -, hc⟩
      · exact h.tree.root_live
      · exact h.tree.child_live hc.2
    obtain ⟨n, hn⟩ := live_iff.mp hlive
    obtain ⟨hlt, -⟩ := List.getElem?_eq_some_iff.mp (node_some.mp hn).1
    exact mem_rows_of_through hlive (fun _ _ => h.rank) (Nat.lt_add_right _ hlt) hb

/-! ## What the user is promised -/

theorem Sound.lists_iff (h : t.Sound) {p c : NodeId} : t.Lists p c ↔ c ∈ t.kids p := by
  constructor
  · rintro ⟨n, ids, hn, -, hids, hc⟩
    exact mem_kids.mpr ⟨n, hn, by rw [hids]; exact hc⟩
  · intro hc
    obtain ⟨m, hm⟩ := live_iff.mp (h.tree.child_live hc)
    obtain ⟨n, hn, hdir, -⟩ := h.path hc hm
    obtain ⟨n', hn', hc⟩ := mem_kids.mp hc
    obtain rfl : n = n' := Option.some.inj (hn.symm.trans hn')
    cases hs : n.children with
    | loaded ids =>
      rw [hs] at hc
      exact ⟨n, ids, hn, hdir, hs, hc⟩
    | unloaded | loading | error =>
      rw [hs] at hc
      cases hc

theorem Sound.found (h : t.Sound) {n : Node} (hn : t.node id = some n) :
    t.findByPath n.path = some id := by
  obtain ⟨hget, halive⟩ := node_some.mp hn
  unfold findByPath
  cases hf : t.nodes.find? fun m => m.alive && m.path = n.path with
  | none =>
    have hno := List.find?_eq_none.mp hf n (List.mem_of_getElem? hget)
    simp [halive] at hno
  | some m =>
    obtain ⟨hm, hmem⟩ := And.intro (List.find?_some hf) (List.mem_of_find?_eq_some hf)
    obtain ⟨k, hk⟩ := List.getElem?_of_mem hmem
    simp only [Bool.and_eq_true, decide_eq_true_eq] at hm
    have hid := h.ids k m hk
    have hnode : t.node ⟨k⟩ = some m := node_some.mpr ⟨hk, hm.1⟩
    rw [Option.map_some, hid, h.path_injective hnode hn hm.2]

/-- **A sound tree is as promised.** -/
theorem Sound.shaped (h : t.Sound) : t.Shaped := by
  constructor
  case reached =>
    intro id hid
    exact ((h.tree.reach id).mp hid).lift (fun i => i) fun p c hc => h.lists_iff.mpr hc
  case once =>
    intro id hid hne
    obtain ⟨p, hp, honly⟩ := h.tree.once hid hne
    exact ⟨p, h.lists_iff.mpr hp, fun q hq => honly q (h.lists_iff.mp hq)⟩
  case nodup =>
    intro id n ids hn hids
    have hnodup := h.tree.nodup id
    unfold kids at hnodup
    rw [hn, Option.map_some, Option.getD_some, hids] at hnodup
    exact hnodup
  case top => exact fun p hp => h.tree.top p (h.lists_iff.mp hp)
  case paths => exact fun _ _ _ _ hn hm => h.path_injective hn hm
  case found => exact fun _ _ => h.found
  case shown => exact h.mem_rows_iff.mpr h.shown

/-! ## What loading and selecting keep -/

theorem core_of_map (hcore : t'.nodes.map Node.core = t.nodes.map Node.core) {k : ℕ} {n' : Node}
    (hn : t'.nodes[k]? = some n') : ∃ n, t.nodes[k]? = some n ∧ n'.core = n.core := by
  have hget : (t'.nodes.map Node.core)[k]? = (t.nodes.map Node.core)[k]? := by rw [hcore]
  rw [List.getElem?_map, List.getElem?_map, hn, Option.map_some] at hget
  obtain ⟨n, hn, hc⟩ := Option.map_eq_some_iff.mp hget.symm
  exact ⟨n, hn, hc.symm⟩

theorem node_core (hcore : t'.nodes.map Node.core = t.nodes.map Node.core) {n' : Node}
    (hn : t'.node id = some n') : ∃ n, t.node id = some n ∧ n'.core = n.core := by
  obtain ⟨hget, halive⟩ := node_some.mp hn
  obtain ⟨n, hn, hc⟩ := core_of_map hcore hget
  have ha : n'.alive = n.alive := show n'.core.alive = n.core.alive by rw [hc]
  exact ⟨n, node_some.mpr ⟨hn, ha.symm.trans halive⟩, hc⟩

theorem kids_core (hcore : t'.nodes.map Node.core = t.nodes.map Node.core) : t'.kids = t.kids := by
  funext id
  cases hn : t'.node id with
  | none =>
    cases hn' : t.node id with
    | none => rw [kids, kids, hn, hn']
    | some n =>
      obtain ⟨m, hm, -⟩ := node_core hcore.symm hn'
      rw [hm] at hn
      cases hn
  | some n' =>
    obtain ⟨n, hn', hc⟩ := node_core hcore hn
    rw [kids, kids, hn, hn']
    exact ChildState.loaded.inj (congrArg Node.children hc)

theorem live_core (hcore : t'.nodes.map Node.core = t.nodes.map Node.core) : t'.Live = t.Live := by
  funext id
  rw [eq_iff_iff, live_iff, live_iff]
  constructor
  · rintro ⟨n', hn'⟩
    obtain ⟨n, hn, -⟩ := node_core hcore hn'
    exact ⟨n, hn⟩
  · rintro ⟨n, hn⟩
    obtain ⟨n', hn', -⟩ := node_core hcore.symm hn
    exact ⟨n', hn'⟩

/-- The shape is that of the nodes without what expanding and reading change. -/
theorem Sound.of_core (h : t.Sound) (hroot : t'.root = t.root)
    (hcore : t'.nodes.map Node.core = t.nodes.map Node.core)
    (hshown : Through t'.Open t.kids t.root t'.selected) : t'.Sound := by
  have hkids := kids_core hcore
  constructor
  case ids =>
    intro k n hn
    obtain ⟨m, hm, hc⟩ := core_of_map hcore hn
    have hid : n.id = m.id := show n.core.id = m.core.id by rw [hc]
    exact hid.trans (h.ids k m hm)
  case tree =>
    rw [hkids, live_core hcore, hroot]
    exact h.tree
  case parent =>
    intro p c n hc hn
    rw [hkids] at hc
    obtain ⟨m, hm, hcore⟩ := node_core hcore hn
    have hp : n.parent = m.parent := show n.core.parent = m.core.parent by rw [hcore]
    exact hp.trans (h.parent p c m hc hm)
  case orphan =>
    intro n hn
    rw [hroot] at hn
    obtain ⟨m, hm, hcore⟩ := node_core hcore hn
    have hp : n.parent = m.parent := show n.core.parent = m.core.parent by rw [hcore]
    exact hp.trans (h.orphan m hm)
  case under =>
    intro k n p hn hp
    obtain ⟨m, hm, hc⟩ := core_of_map hcore hn
    have hparent : n.parent = m.parent := show n.core.parent = m.core.parent by rw [hc]
    have hpath : n.path = m.path := show n.core.path = m.core.path by rw [hc]
    have hname : n.name = m.name := show n.core.name = m.core.name by rw [hc]
    obtain ⟨hlt, q, hq, hdir, heq⟩ := h.under k m p hm (hparent.symm.trans hp)
    obtain ⟨q', hq', hcq⟩ := core_of_map hcore.symm hq
    have hkind : q.kind = q'.kind := show q.core.kind = q'.core.kind by rw [hcq]
    have hqpath : q.path = q'.path := show q.core.path = q'.core.path by rw [hcq]
    exact ⟨hlt, q', hq', hkind.symm.trans hdir, by rw [hpath, heq, hname, hqpath]⟩
  case names =>
    intro p c d n m hc hd hn hm hname
    rw [hkids] at hc hd
    obtain ⟨n', hn', hcn⟩ := node_core hcore hn
    obtain ⟨m', hm', hcm⟩ := node_core hcore hm
    have hname' : n'.core.name = m'.core.name := by rw [← hcn, ← hcm]; exact hname
    exact h.names p c d n' m' hc hd hn' hm' hname'
  case shown =>
    rw [hkids, hroot]
    exact hshown

theorem modify_core {f : Node → Node} (hf : ∀ n, t.node id = some n → (f n).core = n.core) :
    (t.modify id f).nodes.map Node.core = t.nodes.map Node.core := by
  unfold modify
  split_ifs with hlive
  · obtain ⟨n, hn⟩ := Option.isSome_iff_exists.mp hlive
    refine List.ext_getElem? fun k => ?_
    rw [List.getElem?_map, List.getElem?_map]
    by_cases hk : id.val = k
    · subst hk
      rw [List.getElem?_modify_eq, (node_some.mp hn).1]
      exact congrArg some (hf n hn)
    · rw [List.getElem?_modify_ne _ _ hk]
  · rfl

theorem root_modify (t : FileTree) (id : NodeId) (f : Node → Node) :
    (t.modify id f).root = t.root := by
  unfold modify
  split_ifs <;> rfl

theorem selected_modify (t : FileTree) (id : NodeId) (f : Node → Node) :
    (t.modify id f).selected = t.selected := by
  unfold modify
  split_ifs <;> rfl

theorem Sound.modify (h : t.Sound) {f : Node → Node}
    (hf : ∀ n, t.node id = some n → (f n).core = n.core) (halive : ∀ n, (f n).alive = n.alive)
    (hopen : ∀ n, n.expanded = true → (f n).expanded = true) : (t.modify id f).Sound := by
  refine h.of_core (root_modify ..) (modify_core hf) ?_
  rw [selected_modify]
  refine h.shown.lift (fun i => i) fun p c hc => ⟨?_, hc.2⟩
  obtain ⟨n, hn, he⟩ := hc.1
  by_cases hp : p = id
  · subst hp
    exact ⟨f n, by rw [node_modify t p p halive, if_pos rfl, hn]; rfl, hopen n he⟩
  · exact ⟨n, by rw [node_modify t id p halive, if_neg hp]; exact hn, he⟩

theorem Sound.beginLoad (h : t.Sound) (id : NodeId) : (t.beginLoad id).1.Sound := by
  unfold FileTree.beginLoad
  split
  · exact h
  · rename_i n hn
    split_ifs
    · exact h
    · have hload (hids : n.children.ids = []) :
          (t.modify id fun n => { n with children := .loading }).Sound := by
        refine h.modify (fun m hm => ?_) (fun _ => rfl) (fun _ he => he)
        obtain rfl : n = m := Option.some.inj (hn.symm.trans hm)
        rw [Node.core, Node.core, hids]
        rfl
      cases hs : n.children with
      | unloaded => exact hload (by rw [hs]; rfl)
      | error e => exact hload (by rw [hs]; rfl)
      | loading | loaded => exact h

theorem Sound.expand (h : t.Sound) (id : NodeId) : (t.expand id).1.Sound := by
  unfold FileTree.expand
  split
  · exact h
  · split_ifs
    · exact h
    · have hopened : (t.modify id fun n => { n with expanded := true }).Sound :=
        h.modify (fun _ _ => rfl) (fun _ => rfl) fun _ _ => rfl
      exact hopened.beginLoad id

theorem Sound.collapse (h : t.Sound) : (t.collapse t.selected).Sound := by
  refine h.of_core (root_modify ..) (modify_core fun _ _ => rfl) ?_
  have hselected : (t.collapse t.selected).selected = t.selected := selected_modify ..
  rw [hselected]
  have hsel : t.Live t.selected := by
    rcases h.shown.cases_tail with hr | ⟨p, -, hc⟩
    · rw [hr]
      exact h.tree.root_live
    · exact h.tree.child_live hc.2
  -- the directories above the selection stay open
  have habove : ∀ i, Through t.Open t.kids t.root i → Below t.kids i t.selected →
      Through (t.collapse t.selected).Open t.kids t.root i := by
    intro i ht hb
    induction ht with
    | refl => exact .refl
    | @tail p c _ hc ih =>
      refine (ih (.head hc.2 hb)).tail ⟨?_, hc.2⟩
      have hne : p ≠ t.selected := by
        rintro rfl
        exact h.tree.acyclic hsel (TransGen.head' hc.2 hb)
      obtain ⟨n, hn, he⟩ := hc.1
      have hsame : (t.collapse t.selected).node p = t.node p :=
        (node_modify t t.selected p (f := fun n => { n with expanded := false }) fun _ => rfl).trans
          (if_neg hne)
      exact ⟨n, hsame.trans hn, he⟩
  exact habove t.selected h.shown .refl

theorem Sound.toggle (h : t.Sound) : (t.toggle t.selected).1.Sound := by
  unfold FileTree.toggle
  split
  · exact h
  · split_ifs
    · exact h.collapse
    · exact h.expand t.selected
    · exact h

theorem Sound.select (h : t.Sound) (hid : Through t.Open t.kids t.root id) :
    ({ t with selected := id } : FileTree).Sound := h.of_core rfl rfl hid

theorem Sound.moveSelection (h : t.Sound) (delta : Int) : (t.moveSelection delta).Sound := by
  unfold FileTree.moveSelection
  dsimp only
  split
  · rename_i row hrow
    exact h.select (h.mem_rows_iff.mp (List.mem_map_of_mem (List.mem_of_getElem? hrow)))
  · exact h

theorem Sound.collapseOrParent (h : t.Sound) : t.collapseOrParent.Sound := by
  unfold FileTree.collapseOrParent
  split
  · exact h
  · rename_i n hn
    have hid : n.id = t.selected := h.ids _ n (node_some.mp hn).1
    split_ifs
    · rw [hid]
      exact h.collapse
    · split
      · rename_i p hp
        refine h.select ?_
        rcases h.shown.cases_tail with hr | ⟨q, hq, hc⟩
        · rw [hr] at hn
          have horphan := h.orphan n hn
          rw [hp] at horphan
          cases horphan
        · obtain rfl : p = q := Option.some.inj (hp.symm.trans (h.parent q _ n hc.2 hn))
          exact hq
      · exact h

theorem Sound.setError (h : t.Sound) (hids : t.kids id = []) (error : FsError) :
    (t.setError id error).Sound := by
  refine h.modify (fun n hn => ?_) (fun _ => rfl) (fun _ he => he)
  rw [kids, hn, Option.map_some, Option.getD_some] at hids
  rw [Node.core, Node.core, hids]
  rfl

end FileTree

end Filesystem

end Termesh
