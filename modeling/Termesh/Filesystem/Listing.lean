import Termesh.Filesystem.Shape

/-!
# A listing is absorbed

`setChildren` reconciles a listing with the nodes that are there. Under the invariant it gives the
directory a new child list and takes away exactly what is below the children it loses.

* `Absorbed`, `absorb_spec`: the nodes kept and the nodes made for a listing;
* **`Sound.setChildren`**: a listing of a directory keeps the invariant.
-/

namespace Termesh

namespace Filesystem

open Relation Forest Tables

/-- A node as its listing made it. -/
def Node.tag (n : Node) : Node := { n with expanded := false, children := .unloaded, alive := true }

/-- A node that vanished from disk. -/
def Node.dead (n : Node) : Node := { n with alive := false }

/-- The node made for an entry. -/
def Node.made (parent : NodeId) (k : ℕ) (e : DirEntryInfo) : Node where
  id := ⟨k⟩
  parent := some parent
  name := e.name
  path := e.path
  kind := e.kind
  expanded := false
  children := .unloaded
  alive := true

/-- A listing of a directory: its names are distinct and its paths lead into it. -/
def IsListing (path : Path) (entries : List DirEntryInfo) : Prop :=
  (entries.map (·.name)).Nodup ∧ ∀ e ∈ entries, e.path = path ++ [.normal e.name]

instance (path : Path) (entries : List DirEntryInfo) : Decidable (IsListing path entries) :=
  inferInstanceAs (Decidable (_ ∧ _))

theorem val_injective : Function.Injective NodeId.val := by
  rintro ⟨a⟩ ⟨b⟩ hab
  exact congrArg NodeId.mk hab

namespace FileTree

/-! ## Killing subtrees -/

/-- The child lists of an arena, of dead nodes too. -/
def raw (nodes : List Node) (id : NodeId) : List NodeId :=
  ((nodes[id.val]?).map (·.children.ids)).getD []

theorem raw_modify (nodes : List Node) (k : ℕ) : raw (nodes.modify k Node.dead) = raw nodes := by
  funext id
  rw [raw, raw, List.getElem?_modify]
  cases nodes[id.val]? with
  | none => rfl
  | some n => simp only [Option.map_eq_map, Option.map_some]; split_ifs <;> rfl

theorem killLoop_get (fuel : ℕ) (stack : List NodeId) (nodes : List Node) (k : ℕ) :
    (killLoop fuel stack nodes)[k]? = (nodes[k]?).map fun n =>
      if ⟨k⟩ ∈ sweep (raw nodes) fuel stack then n.dead else n := by
  induction fuel generalizing stack nodes with
  | zero => simp [killLoop, sweep]
  | succ fuel ih =>
    cases stack with
    | nil => simp [killLoop, sweep]
    | cons cur stack =>
      rw [killLoop]
      cases hcur : nodes[cur.val]? with
      | none =>
        have hraw : raw nodes cur = [] := by rw [raw, hcur]; rfl
        rw [ih, sweep, hraw]
        cases hk : nodes[k]? with
        | none => rfl
        | some n =>
          have hne : (⟨k⟩ : NodeId) ≠ cur := by
            rintro rfl
            rw [hk] at hcur
            cases hcur
          simp [hne]
      | some n =>
        have hraw : raw nodes cur = n.children.ids := by rw [raw, hcur]; rfl
        have hmodify : (nodes.modify cur.val fun n => { n with alive := false }) =
            nodes.modify cur.val Node.dead := rfl
        dsimp only
        rw [hmodify, ih, raw_modify, sweep, hraw, List.getElem?_modify]
        cases hk : nodes[k]? with
        | none => rfl
        | some m =>
          by_cases hkc : cur.val = k
          · have hmem : (⟨k⟩ : NodeId) = cur := val_injective hkc.symm
            simp [hkc, hmem, Node.dead]
          · have hmem : (⟨k⟩ : NodeId) ≠ cur := fun he => hkc (by rw [← he])
            simp [hkc, hmem]

theorem raw_killSubtree (t : FileTree) (id : NodeId) :
    raw (t.killSubtree id).nodes = raw t.nodes := by
  funext i
  rw [raw, raw, killSubtree, killLoop_get]
  cases t.nodes[i.val]? with
  | none => rfl
  | some n => simp only [Option.map_some]; split_ifs <;> rfl

theorem length_killSubtree (t : FileTree) (id : NodeId) :
    (t.killSubtree id).nodes.length = t.nodes.length := by
  have hget : ∀ k : ℕ, ((t.killSubtree id).nodes[k]?).isSome = (t.nodes[k]?).isSome := by
    intro k
    rw [killSubtree, killLoop_get, Option.isSome_map]
  refine Nat.le_antisymm ?_ ?_
  · by_contra hlt
    have hk := hget t.nodes.length
    rw [List.getElem?_eq_none (Nat.le_refl _), List.getElem?_eq_getElem (by omega)] at hk
    cases hk
  · by_contra hlt
    have hk := hget (t.killSubtree id).nodes.length
    rw [List.getElem?_eq_none (Nat.le_refl _), List.getElem?_eq_getElem (by omega)] at hk
    cases hk

theorem killAll_get (gone : List NodeId) (t : FileTree) (k : ℕ) :
    (gone.foldl killSubtree t).nodes[k]? = (t.nodes[k]?).map fun n =>
      if ∃ r ∈ gone, ⟨k⟩ ∈ sweep (raw t.nodes) t.nodes.length [r] then n.dead else n := by
  induction gone generalizing t with
  | nil => simp
  | cons r gone ih =>
    rw [List.foldl_cons, ih, raw_killSubtree, length_killSubtree, killSubtree, killLoop_get]
    cases t.nodes[k]? with
    | none => rfl
    | some n =>
      simp only [Option.map_some, List.exists_mem_cons_iff, Option.some.injEq]
      by_cases h₁ : ∃ r ∈ gone, ⟨k⟩ ∈ sweep (raw t.nodes) t.nodes.length [r] <;>
        by_cases h₂ : ⟨k⟩ ∈ sweep (raw t.nodes) t.nodes.length [r] <;>
        simp [h₁, h₂, Node.dead]

theorem killAll_root (gone : List NodeId) (t : FileTree) :
    (gone.foldl killSubtree t).root = t.root ∧ (gone.foldl killSubtree t).selected = t.selected := by
  induction gone generalizing t with
  | nil => exact ⟨rfl, rfl⟩
  | cons r gone ih => exact ih _

/-! ## Reconciling -/

/-- The entries of a listing in turn: a child that is kept, or a fresh node. The fresh nodes are
numbered from `k`; behind them are the new child list and the nodes kept in it. -/
inductive Absorbed (t : FileTree) (id : NodeId) :
    ℕ → List DirEntryInfo → List Node → List NodeId → List NodeId → Prop
  | nil (k : ℕ) : Absorbed t id k [] [] [] []
  | keep {k : ℕ} {e : DirEntryInfo} {es : List DirEntryInfo} {fresh : List Node}
      {new kept : List NodeId} {c : NodeId} {n : Node} (hc : c ∈ t.kids id)
      (hn : t.node c = some n) (hname : n.name = e.name) (h : Absorbed t id k es fresh new kept) :
      Absorbed t id k (e :: es) fresh (c :: new) (c :: kept)
  | add {k : ℕ} {e : DirEntryInfo} {es : List DirEntryInfo} {fresh : List Node}
      {new kept : List NodeId} (h : Absorbed t id (k + 1) es fresh new kept) :
      Absorbed t id k (e :: es) (.made id k e :: fresh) (⟨k⟩ :: new) kept

section Absorbed

variable {t : FileTree} {id : NodeId} {k : ℕ} {es : List DirEntryInfo} {fresh : List Node}
  {new kept : List NodeId}

theorem Absorbed.mem_kept (h : Absorbed t id k es fresh new kept) {c : NodeId} (hc : c ∈ kept) :
    c ∈ t.kids id ∧ c ∈ new := by
  induction h with
  | nil => cases hc
  | keep hk _ _ _ ih =>
    rcases List.mem_cons.mp hc with rfl | hc
    · exact ⟨hk, List.mem_cons_self⟩
    · exact ⟨(ih hc).1, List.mem_cons_of_mem _ (ih hc).2⟩
  | add _ ih => exact ⟨(ih hc).1, List.mem_cons_of_mem _ (ih hc).2⟩

theorem Absorbed.mem_new (h : Absorbed t id k es fresh new kept) {c : NodeId} (hc : c ∈ new) :
    c ∈ kept ∨ k ≤ c.val := by
  induction h with
  | nil => cases hc
  | keep _ _ _ _ ih =>
    rcases List.mem_cons.mp hc with rfl | hc
    · exact .inl List.mem_cons_self
    · exact (ih hc).imp_left (List.mem_cons_of_mem _)
  | add _ ih =>
    rcases List.mem_cons.mp hc with rfl | hc
    · exact .inr (Nat.le_refl _)
    · exact (ih hc).imp_right Nat.le_of_succ_le

theorem Absorbed.get_fresh (h : Absorbed t id k es fresh new kept) {i : ℕ} {n : Node}
    (hn : fresh[i]? = some n) : ∃ e ∈ es, n = Node.made id (k + i) e ∧ ⟨k + i⟩ ∈ new := by
  induction h generalizing i with
  | nil => simp at hn
  | keep _ _ _ _ ih =>
    obtain ⟨e, he, hne, hnew⟩ := ih hn
    exact ⟨e, List.mem_cons_of_mem _ he, hne, List.mem_cons_of_mem _ hnew⟩
  | @add k e _ _ _ _ _ ih =>
    cases i with
    | zero =>
      rw [List.getElem?_cons_zero, Option.some.injEq] at hn
      exact ⟨e, List.mem_cons_self, hn.symm, List.mem_cons_self⟩
    | succ i =>
      rw [List.getElem?_cons_succ] at hn
      obtain ⟨e, he, hne, hnew⟩ := ih hn
      rw [show k + 1 + i = k + (i + 1) by omega] at hne hnew
      exact ⟨e, List.mem_cons_of_mem _ he, hne, List.mem_cons_of_mem _ hnew⟩

theorem Absorbed.map_name (h : Absorbed t id k es fresh new kept) {nodes : List Node}
    (hlen : nodes.length = k) (hold : ∀ c n, t.node c = some n → nodes[c.val]? = some n) :
    new.map (fun c => ((nodes ++ fresh)[c.val]?).map (·.name)) = es.map fun e => some e.name := by
  induction h generalizing nodes with
  | nil => rfl
  | @keep _ _ _ fresh _ _ c n _ hn hname _ ih =>
    have hc := hold c n hn
    obtain ⟨hlt, -⟩ := List.getElem?_eq_some_iff.mp hc
    rw [List.map_cons, List.map_cons, ih hlen hold, List.getElem?_append_left hlt, hc,
      Option.map_some, hname]
  | @add k e _ fresh _ _ _ ih =>
    have hstep := @ih (nodes ++ [Node.made id k e]) (by simp [hlen]) fun c n hn => by
      obtain ⟨hlt, -⟩ := List.getElem?_eq_some_iff.mp (hold c n hn)
      rw [List.getElem?_append_left hlt, hold c n hn]
    rw [List.append_assoc, List.singleton_append] at hstep
    rw [List.map_cons, List.map_cons, hstep]
    congr 1
    rw [List.getElem?_append_right (Nat.le_of_eq hlen), hlen, Nat.sub_self]
    rfl

end Absorbed

theorem modify_self {t : FileTree} {id : NodeId} {f : Node → Node} {n : Node}
    (hn : t.node id = some n) (hf : f n = n) : t.modify id f = t := by
  unfold modify
  have hnodes : t.nodes.modify id.val f = t.nodes := by
    refine List.ext_getElem? fun k => ?_
    by_cases hk : id.val = k
    · subst hk
      rw [List.getElem?_modify_eq, (node_some.mp hn).1]
      exact congrArg some hf
    · exact List.getElem?_modify_ne _ _ hk
  split_ifs
  · rw [hnodes]
  · rfl

section Reconcile

variable {t : FileTree} {id : NodeId} {parent : Node} (h : t.Sound) (hid : t.node id = some parent)
include h hid

theorem existing_lookup (s : String) (c : NodeId) :
    (t.existing parent).lookup s = some c ↔
      c ∈ t.kids id ∧ ∃ n, t.node c = some n ∧ n.name = s := by
  have hkids : t.kids id = parent.children.ids := by rw [kids, hid]; rfl
  have hmem : ∀ c, c ∈ parent.children.ids → ∃ n, t.node c = some n := fun c hc =>
    live_iff.mp (h.tree.child_live (p := id) (hkids ▸ hc))
  have hnd : ((parent.children.ids.filterMap fun cid =>
      (t.node cid).map fun n => (n.name, cid)).map Prod.fst).Nodup := by
    rw [List.map_filterMap, List.nodup_iff_pairwise_ne, List.pairwise_filterMap]
    have hnodup := h.tree.nodup id
    rw [hkids] at hnodup
    refine hnodup.imp_of_mem fun {c d} hc hd hne s hs s' hs' hss => ?_
    obtain ⟨n, hn⟩ := hmem c hc
    obtain ⟨m, hm⟩ := hmem d hd
    rw [hn] at hs
    rw [hm] at hs'
    simp only [Option.map_some, Option.some.injEq] at hs hs'
    rw [← hkids] at hc hd
    exact hne (h.names id c d n m hc hd hn hm (by rw [hs, hs', hss]))
  rw [existing, Table.lookup_ofPairs hnd, hkids]
  constructor
  · intro hm
    obtain ⟨d, hd, hm⟩ := List.mem_filterMap.mp hm
    obtain ⟨n, hn, heq⟩ := Option.map_eq_some_iff.mp hm
    obtain ⟨rfl, rfl⟩ := Prod.mk.inj heq
    exact ⟨hd, n, hn, rfl⟩
  · rintro ⟨hc, n, hn, rfl⟩
    exact List.mem_filterMap.mpr ⟨c, hc, by rw [hn]; rfl⟩

/-- What a listing makes of the arena. -/
theorem absorb_spec {entries : List DirEntryInfo}
    (hpath : ∀ e ∈ entries, e.path = parent.path ++ [.normal e.name]) (acc : List Node) :
    ∃ fresh new kept, Absorbed t id (t.nodes.length + acc.length) entries fresh new kept ∧
      absorb id (t.existing parent) { t with nodes := t.nodes ++ acc } entries =
        ({ t with nodes := t.nodes ++ acc ++ fresh }, new, kept) := by
  induction entries generalizing acc with
  | nil => exact ⟨[], [], [], .nil _, by rw [List.append_nil]; rfl⟩
  | cons e entries ih =>
    have hrest := fun e' he' => hpath e' (List.mem_cons_of_mem _ he')
    rw [absorb]
    cases hfound : ((t.existing parent).lookup e.name).filter fun cid =>
        (({ t with nodes := t.nodes ++ acc } : FileTree).node cid).map (·.kind) = some e.kind with
    | some c =>
      obtain ⟨hlookup, -⟩ := Option.filter_eq_some_iff.mp hfound
      obtain ⟨hc, n, hn, hname⟩ := (existing_lookup h hid e.name c).mp hlookup
      obtain ⟨hget, halive⟩ := node_some.mp hn
      obtain ⟨hlt, -⟩ := List.getElem?_eq_some_iff.mp hget
      have hnode : ({ t with nodes := t.nodes ++ acc } : FileTree).node c = some n :=
        node_some.mpr ⟨by rw [List.getElem?_append_left hlt, hget], halive⟩
      -- the path of a kept node is what the listing says
      have hsame : { n with path := e.path } = n := by
        obtain ⟨q, hq, -, hp⟩ := h.path hc hn
        obtain rfl : parent = q := Option.some.inj (hid.symm.trans hq)
        rw [hpath e List.mem_cons_self, ← hname, ← hp]
      obtain ⟨fresh, new, kept, hab, heq⟩ := ih hrest acc
      refine ⟨fresh, c :: new, c :: kept, .keep hc hn hname hab, ?_⟩
      dsimp only
      rw [modify_self hnode hsame, heq]
    | none =>
      obtain ⟨fresh, new, kept, hab, heq⟩ :=
        ih hrest (acc ++ [Node.made id (t.nodes.length + acc.length) e])
      rw [List.length_append, List.length_singleton, ← Nat.add_assoc] at hab
      refine ⟨_, _, _, .add hab, ?_⟩
      have hpush : ({ t with nodes := t.nodes ++ acc } : FileTree).pushNode (some id) e =
          (⟨t.nodes.length + acc.length⟩,
            { t with nodes := t.nodes ++ (acc ++ [Node.made id (t.nodes.length + acc.length) e]) }) := by
        simp only [pushNode, List.length_append, List.append_assoc]
        rfl
      dsimp only
      rw [hpush, heq]
      simp only [List.append_assoc, List.cons_append, List.nil_append]

end Reconcile

/-! ## The new tree -/

/-- A tree before a listing, and what the listing makes of its directory. -/
structure Listed (t : FileTree) (id : NodeId) (parent : Node) (entries : List DirEntryInfo)
    (fresh : List Node) (new kept : List NodeId) : Prop where
  sound : t.Sound
  node : t.node id = some parent
  dir : parent.kind = .dir
  absorbed : Absorbed t id t.nodes.length entries fresh new kept
  paths : ∀ e ∈ entries, e.path = parent.path ++ [.normal e.name]
  names : (entries.map (·.name)).Nodup

/-- The children that are not kept. -/
def lost (t : FileTree) (parent : Node) (kept : List NodeId) : List NodeId :=
  ((t.existing parent).entries.map Sigma.snd).filter fun cid => cid ∉ kept

/-- The tree with a new child list, before its selection is looked at. -/
def relist (t : FileTree) (id : NodeId) (parent : Node) (fresh : List Node)
    (new kept : List NodeId) : FileTree :=
  ((t.lost parent kept).foldl killSubtree { t with nodes := t.nodes ++ fresh }).modify id
    fun n => { n with children := .loaded new }

theorem val_lt_of_live {t : FileTree} {c : NodeId} (hc : t.Live c) : c.val < t.nodes.length := by
  obtain ⟨n, hn⟩ := live_iff.mp hc
  exact (List.getElem?_eq_some_iff.mp (node_some.mp hn).1).1

theorem get_of_node {t : FileTree} {c : NodeId} {n : Node} (hn : t.node c = some n)
    (fresh : List Node) : (t.nodes ++ fresh)[c.val]? = some n := by
  rw [List.getElem?_append_left (val_lt_of_live (live_iff.mpr ⟨n, hn⟩))]
  exact (node_some.mp hn).1

theorem tag_inj {n m : Node} (h : n.tag = m.tag) :
    n.id = m.id ∧ n.parent = m.parent ∧ n.name = m.name ∧ n.path = m.path ∧ n.kind = m.kind :=
  ⟨show n.tag.id = m.tag.id by rw [h], show n.tag.parent = m.tag.parent by rw [h],
    show n.tag.name = m.tag.name by rw [h], show n.tag.path = m.tag.path by rw [h],
    show n.tag.kind = m.tag.kind by rw [h]⟩

theorem relist_root (t : FileTree) (id : NodeId) (parent : Node) (fresh : List Node)
    (new kept : List NodeId) : (t.relist id parent fresh new kept).root = t.root := by
  rw [relist, root_modify, (killAll_root _ _).1]

theorem relist_selected (t : FileTree) (id : NodeId) (parent : Node) (fresh : List Node)
    (new kept : List NodeId) :
    (t.relist id parent fresh new kept).selected = t.selected := by
  rw [relist, selected_modify, (killAll_root _ _).2]

section Listed

variable {t : FileTree} {id : NodeId} {parent : Node} {entries : List DirEntryInfo}
  {fresh : List Node} {new kept : List NodeId} (l : Listed t id parent entries fresh new kept)
include l

theorem Listed.live : t.Live id := live_iff.mpr ⟨parent, l.node⟩

theorem Listed.get_cases {k : ℕ} {n : Node} (hn : (t.nodes ++ fresh)[k]? = some n) :
    t.nodes[k]? = some n ∨ t.nodes.length ≤ k ∧ ⟨k⟩ ∈ new ∧ ∃ e ∈ entries, n = .made id k e := by
  by_cases hlt : k < t.nodes.length
  · rw [List.getElem?_append_left hlt] at hn
    exact .inl hn
  · have hle : t.nodes.length ≤ k := by omega
    rw [List.getElem?_append_right hle] at hn
    obtain ⟨e, he, hn, hnew⟩ := l.absorbed.get_fresh hn
    rw [Nat.add_sub_of_le hle] at hn hnew
    exact .inr ⟨hle, hnew, e, he, hn⟩

theorem Listed.map_name :
    new.map (fun c => ((t.nodes ++ fresh)[c.val]?).map (·.name)) =
      entries.map fun e => some e.name :=
  l.absorbed.map_name rfl fun _ _ hn => (node_some.mp hn).1

theorem Listed.nodup_names :
    (new.map fun c => ((t.nodes ++ fresh)[c.val]?).map (·.name)).Nodup := by
  rw [l.map_name]
  have hmap : (entries.map fun e => some e.name) = (entries.map (·.name)).map some := by
    rw [List.map_map]
    rfl
  rw [hmap]
  exact l.names.map (Option.some_injective _)

theorem Listed.mem_lost {r : NodeId} :
    r ∈ t.lost parent kept ↔ r ∈ t.kids id ∧ r ∉ new := by
  rw [lost, List.mem_filter, Table.mem_snd_iff]
  constructor
  · rintro ⟨⟨s, hs⟩, hk⟩
    have hr := ((existing_lookup l.sound l.node s r).mp hs).1
    refine ⟨hr, fun hn => ?_⟩
    rcases l.absorbed.mem_new hn with hkept | hle
    · simp [hkept] at hk
    · exact absurd hle (Nat.not_le.mpr (val_lt_of_live (l.sound.tree.child_live hr)))
  · rintro ⟨hr, hn⟩
    obtain ⟨n, hnode⟩ := live_iff.mp (l.sound.tree.child_live hr)
    refine ⟨⟨n.name, (existing_lookup l.sound l.node n.name r).mpr ⟨hr, n, hnode, rfl⟩⟩, ?_⟩
    simp only [decide_eq_true_eq]
    exact fun hkept => hn (l.absorbed.mem_kept hkept).2

theorem Listed.killed_iff {i : NodeId} :
    (∃ r ∈ t.lost parent kept,
      i ∈ sweep (raw (t.nodes ++ fresh)) (t.nodes ++ fresh).length [r]) ↔
        Gone t.kids id new i := by
  have hbelow : ∀ r, t.Live r → ∀ j, Below t.kids r j → t.Live j := by
    intro r hr j hj
    exact (l.sound.tree.reach j).mpr (((l.sound.tree.reach r).mp hr).trans hj)
  have hsweep : ∀ r, t.Live r → (i ∈ sweep (raw (t.nodes ++ fresh)) (t.nodes ++ fresh).length [r] ↔
      Below t.kids r i) := by
    intro r hr
    have hcongr : sweep (raw (t.nodes ++ fresh)) (t.nodes ++ fresh).length [r] =
        sweep t.kids (t.nodes ++ fresh).length [r] := by
      refine sweep_congr fun s hs j hj => ?_
      rw [List.mem_singleton] at hs
      obtain ⟨n, hn⟩ := live_iff.mp (hbelow r hr j (hs ▸ hj))
      rw [raw, kids, hn, get_of_node hn fresh]
    rw [hcongr]
    refine mem_sweep l.sound.tree val_injective (fun j hj => ?_) hr
    rw [List.length_append]
    exact Nat.lt_add_right _ (val_lt_of_live (hbelow r hr j hj))
  constructor
  · rintro ⟨r, hr, hi⟩
    obtain ⟨hk, hn⟩ := l.mem_lost.mp hr
    exact ⟨r, hk, hn, (hsweep r (l.sound.tree.child_live hk)).mp hi⟩
  · rintro ⟨r, hk, hn, hb⟩
    exact ⟨r, l.mem_lost.mpr ⟨hk, hn⟩, (hsweep r (l.sound.tree.child_live hk)).mpr hb⟩

theorem Listed.not_gone : ¬ Gone t.kids id new id := l.sound.tree.not_gone_self l.live

theorem Listed.killed_get (k : ℕ) [Decidable (Gone t.kids id new ⟨k⟩)] :
    ((t.lost parent kept).foldl killSubtree { t with nodes := t.nodes ++ fresh }).nodes[k]? =
      ((t.nodes ++ fresh)[k]?).map fun n => if Gone t.kids id new ⟨k⟩ then n.dead else n := by
  rw [killAll_get]
  congr 1
  funext n
  exact if_congr l.killed_iff rfl rfl

theorem Listed.killed_node (j : NodeId) [Decidable (Gone t.kids id new j)] :
    ((t.lost parent kept).foldl killSubtree { t with nodes := t.nodes ++ fresh }).node j =
      if Gone t.kids id new j then none
      else ({ t with nodes := t.nodes ++ fresh } : FileTree).node j := by
  have hget := l.killed_get j.val
  rw [FileTree.node, hget, FileTree.node]
  cases (t.nodes ++ fresh)[j.val]? with
  | none => simp
  | some n =>
    split_ifs with hg
    · simp [Node.dead]
    · rfl

theorem Listed.relist_node (j : NodeId) [Decidable (Gone t.kids id new j)] :
    (t.relist id parent fresh new kept).node j =
      if j = id then some { parent with children := .loaded new }
      else if Gone t.kids id new j then none
      else ({ t with nodes := t.nodes ++ fresh } : FileTree).node j := by
  classical
  rw [relist, node_modify (f := fun n => { n with children := .loaded new }) _ _ _ fun _ => rfl]
  by_cases hj : j = id
  · subst hj
    have halive : ({ t with nodes := t.nodes ++ fresh } : FileTree).node j = some parent :=
      node_some.mpr ⟨get_of_node l.node fresh, (node_some.mp l.node).2⟩
    rw [if_pos rfl, if_pos rfl, l.killed_node j, if_neg l.not_gone, halive]
    rfl
  · rw [if_neg hj, if_neg hj, l.killed_node j]

theorem Listed.node_cases {j : NodeId} {n : Node}
    (hn : ({ t with nodes := t.nodes ++ fresh } : FileTree).node j = some n) :
    t.node j = some n ∨ t.nodes.length ≤ j.val ∧ j ∈ new ∧ n.children.ids = [] := by
  obtain ⟨hget, halive⟩ := node_some.mp hn
  rcases l.get_cases hget with hold | ⟨hle, hnew, e, -, rfl⟩
  · exact .inl (node_some.mpr ⟨hold, halive⟩)
  · exact .inr ⟨hle, hnew, rfl⟩

theorem Listed.new_spec {j : NodeId} (hj : j ∈ new) :
    ¬ Gone t.kids id new j ∧ (j ∈ t.kids id ∨ t.nodes.length ≤ j.val) ∧
      ∃ n, ({ t with nodes := t.nodes ++ fresh } : FileTree).node j = some n := by
  have hlisted : ((t.nodes ++ fresh)[j.val]?).map (·.name) ∈
      entries.map fun e => some e.name := by
    rw [← l.map_name]
    exact List.mem_map_of_mem hj
  obtain ⟨e, -, he⟩ := List.mem_map.mp hlisted
  obtain ⟨n, hn, -⟩ := Option.map_eq_some_iff.mp he.symm
  rcases l.absorbed.mem_new hj with hkept | hle
  · have hk := (l.absorbed.mem_kept hkept).1
    obtain ⟨m, hm⟩ := live_iff.mp (l.sound.tree.child_live hk)
    refine ⟨fun hg => ?_, .inl hk, m, node_some.mpr ⟨get_of_node hm fresh, (node_some.mp hm).2⟩⟩
    rcases l.sound.tree.gone_child hk hg with hg | ⟨-, hn⟩
    · exact l.not_gone hg
    · exact hn hj
  · refine ⟨fun hg => ?_, .inr hle, n, node_some.mpr ⟨hn, ?_⟩⟩
    · obtain ⟨r, hr, -, hb⟩ := hg
      have hlive : t.Live j :=
        (l.sound.tree.reach j).mpr
          (((l.sound.tree.reach r).mp (l.sound.tree.child_live hr)).trans hb)
      exact absurd hle (Nat.not_le.mpr (val_lt_of_live hlive))
    · rcases l.get_cases hn with hold | ⟨-, -, e, -, rfl⟩
      · exact absurd hle (Nat.not_le.mpr (List.getElem?_eq_some_iff.mp hold).1)
      · rfl

/-- **The listing changes the tree of names at its directory only.** -/
theorem Listed.relisted : Relisted t.Live t.kids id new
    (t.relist id parent fresh new kept).Live (t.relist id parent fresh new kept).kids := by
  classical
  constructor
  case nodup => exact List.Nodup.of_map _ l.nodup_names
  case fresh =>
    intro c hc
    rcases (l.new_spec hc).2.1 with hk | hle
    · exact .inl hk
    · exact .inr fun hlive => absurd hle (Nat.not_le.mpr (val_lt_of_live hlive))
  case lives =>
    intro j
    rw [Live, l.relist_node j]
    by_cases hj : j = id
    · subst hj
      simp [l.live, l.not_gone]
    · rw [if_neg hj]
      by_cases hg : Gone t.kids id new j
      · rw [if_pos hg]
        constructor
        · intro hn
          cases hn
        · rintro (⟨-, hn⟩ | hn)
          · exact absurd hg hn
          · exact absurd hg (l.new_spec hn).1
      · rw [if_neg hg]
        constructor
        · intro hn
          obtain ⟨n, hn⟩ := Option.isSome_iff_exists.mp hn
          rcases l.node_cases hn with hold | ⟨-, hnew, -⟩
          · exact .inl ⟨live_iff.mpr ⟨n, hold⟩, hg⟩
          · exact .inr hnew
        · rintro (⟨hlive, -⟩ | hn)
          · obtain ⟨n, hn⟩ := live_iff.mp hlive
            exact Option.isSome_iff_exists.mpr
              ⟨n, node_some.mpr ⟨get_of_node hn fresh, (node_some.mp hn).2⟩⟩
          · exact Option.isSome_iff_exists.mpr (l.new_spec hn).2.2
  case same =>
    rw [kids, l.relist_node id, if_pos rfl]
    rfl
  case other =>
    intro j hj hlive hg
    obtain ⟨n, hn⟩ := live_iff.mp hlive
    have hnode : ({ t with nodes := t.nodes ++ fresh } : FileTree).node j = some n :=
      node_some.mpr ⟨get_of_node hn fresh, (node_some.mp hn).2⟩
    rw [kids, l.relist_node j, if_neg hj, if_neg hg, hnode, kids, hn]
  case gone =>
    intro j hj hno
    rw [kids, l.relist_node j, if_neg hj]
    split_ifs with hg
    · rfl
    · cases hn : ({ t with nodes := t.nodes ++ fresh } : FileTree).node j with
      | none => rfl
      | some n =>
        rcases l.node_cases hn with hold | ⟨-, -, hids⟩
        · rcases hno with hno | hno
          · exact absurd (live_iff.mpr ⟨n, hold⟩) hno
          · exact absurd hno hg
        · exact hids

theorem Listed.relist_tag (k : ℕ) :
    ((t.relist id parent fresh new kept).nodes[k]?).map Node.tag =
      ((t.nodes ++ fresh)[k]?).map Node.tag := by
  classical
  have hkilled : (((t.lost parent kept).foldl killSubtree
      { t with nodes := t.nodes ++ fresh }).nodes[k]?).map Node.tag =
        ((t.nodes ++ fresh)[k]?).map Node.tag := by
    rw [l.killed_get, Option.map_map]
    congr 1
    funext n
    simp only [Function.comp]
    split_ifs <;> rfl
  rw [relist, FileTree.modify]
  split_ifs
  · rw [List.getElem?_modify, ← hkilled, Option.map_eq_map, Option.map_map]
    congr 1
    funext n
    simp only [Function.comp]
    split_ifs <;> rfl
  · exact hkilled

theorem Listed.tag_get {k : ℕ} {n : Node}
    (hn : (t.relist id parent fresh new kept).nodes[k]? = some n) :
    ∃ m, (t.nodes ++ fresh)[k]? = some m ∧ n.tag = m.tag := by
  have htag := l.relist_tag k
  rw [hn, Option.map_some] at htag
  obtain ⟨m, hm, heq⟩ := Option.map_eq_some_iff.mp htag.symm
  exact ⟨m, hm, heq.symm⟩

theorem Listed.get_tag {k : ℕ} {m : Node} (hm : (t.nodes ++ fresh)[k]? = some m) :
    ∃ n, (t.relist id parent fresh new kept).nodes[k]? = some n ∧ n.tag = m.tag := by
  have htag := l.relist_tag k
  rw [hm, Option.map_some] at htag
  exact Option.map_eq_some_iff.mp htag

theorem Listed.through {i : NodeId} (hi : Through t.Open t.kids t.root i)
    (hg : ¬ Gone t.kids id new i) :
    Through (t.relist id parent fresh new kept).Open (t.relist id parent fresh new kept).kids
      t.root i := by
  classical
  have hr := l.relisted
  refine (l.sound.tree.through_relist hr hi hg).lift (fun j => j) fun p c hc => ⟨?_, hc.2⟩
  obtain ⟨n, hn, he⟩ := hc.1
  have hp := (l.sound.tree.relist l.live hr).lives p c hc.2
  by_cases hpid : p = id
  · subst hpid
    obtain rfl : parent = n := Option.some.inj (l.node.symm.trans hn)
    exact ⟨{ parent with children := .loaded new }, by rw [l.relist_node p, if_pos rfl], he⟩
  · have hpg : ¬ Gone t.kids id new p := by
      rcases (hr.lives p).mp hp with ⟨-, hg⟩ | hnew
      · exact hg
      · exact (l.new_spec hnew).1
    refine ⟨n, ?_, he⟩
    rw [l.relist_node p, if_neg hpid, if_neg hpg]
    exact node_some.mpr ⟨get_of_node hn fresh, (node_some.mp hn).2⟩

theorem Listed.sound_select {s : NodeId}
    (hs : Through (t.relist id parent fresh new kept).Open
      (t.relist id parent fresh new kept).kids t.root s) :
    ({ t.relist id parent fresh new kept with selected := s } : FileTree).Sound := by
  classical
  have hr := l.relisted
  have hkids : ∀ p c, c ∈ (t.relist id parent fresh new kept).kids p →
      p = id ∧ c ∈ new ∨ p ≠ id ∧ c ∈ t.kids p := by
    intro p c hc
    by_cases hp : p = id
    · subst hp
      rw [hr.same] at hc
      exact .inl ⟨rfl, hc⟩
    · by_cases hk : t.Live p ∧ ¬ Gone t.kids id new p
      · rw [hr.other p hp hk.1 hk.2] at hc
        exact .inr ⟨hp, hc⟩
      · rw [hr.gone p hp (by tauto)] at hc
        cases hc
  constructor
  case ids =>
    intro k n hn
    obtain ⟨m, hm, htag⟩ := l.tag_get hn
    rw [(tag_inj htag).1]
    rcases l.get_cases hm with hold | ⟨-, -, e, -, rfl⟩
    · exact l.sound.ids k m hold
    · rfl
  case tree =>
    have hroot : ({ t.relist id parent fresh new kept with selected := s } : FileTree).root =
        t.root := relist_root ..
    rw [hroot]
    exact l.sound.tree.relist l.live hr
  case parent =>
    intro p c n hc hn
    obtain ⟨m, hm, htag⟩ := l.tag_get (node_some.mp hn).1
    rw [(tag_inj htag).2.1]
    have hmade : ∀ e : DirEntryInfo, m = Node.made id c.val e → m.parent = some id := by
      rintro e rfl
      rfl
    have hold : ∀ q, c ∈ t.kids q → m.parent = some q := by
      intro q hq
      obtain ⟨n', hn'⟩ := live_iff.mp (l.sound.tree.child_live hq)
      obtain rfl : m = n' := Option.some.inj (hm.symm.trans (get_of_node hn' fresh))
      exact l.sound.parent q c m hq hn'
    rcases hkids p c hc with ⟨rfl, hnew⟩ | ⟨-, hcp⟩
    · rcases (l.new_spec hnew).2.1 with hk | hle
      · exact hold p hk
      · rcases l.get_cases hm with hget | ⟨-, -, e, -, he⟩
        · exact absurd hle (Nat.not_le.mpr (List.getElem?_eq_some_iff.mp hget).1)
        · exact hmade e he
    · exact hold p hcp
  case orphan =>
    intro n hn
    have hroot : ({ t.relist id parent fresh new kept with selected := s } : FileTree).root =
        t.root := relist_root ..
    rw [hroot] at hn
    obtain ⟨m, hm, htag⟩ := l.tag_get (node_some.mp hn).1
    obtain ⟨r, hr⟩ := live_iff.mp l.sound.tree.root_live
    obtain rfl : m = r := Option.some.inj (hm.symm.trans (get_of_node hr fresh))
    rw [(tag_inj htag).2.1]
    exact l.sound.orphan m hr
  case under =>
    intro k n p hn hp
    obtain ⟨m, hm, htag⟩ := l.tag_get hn
    obtain ⟨-, hparent, hname, hpath, -⟩ := tag_inj htag
    rw [hparent] at hp
    have hfound : ∀ q : Node, t.nodes[p.val]? = some q → q.kind = .dir →
        m.path = q.path ++ [.normal m.name] → ∃ q' : Node,
          (t.relist id parent fresh new kept).nodes[p.val]? = some q' ∧ q'.kind = .dir ∧
            n.path = q'.path ++ [.normal n.name] := by
      intro q hq hdir hpathq
      have hget : (t.nodes ++ fresh)[p.val]? = some q := by
        rw [List.getElem?_append_left (List.getElem?_eq_some_iff.mp hq).1, hq]
      obtain ⟨q', hq', htag'⟩ := l.get_tag hget
      obtain ⟨-, -, -, hqpath, hqkind⟩ := tag_inj htag'
      exact ⟨q', hq', hqkind.trans hdir, by rw [hpath, hpathq, hqpath, hname]⟩
    rcases l.get_cases hm with hold | ⟨hle, -, e, he, rfl⟩
    · obtain ⟨hlt, q, hq, hdir, heq⟩ := l.sound.under k m p hold hp
      exact ⟨hlt, hfound q hq hdir heq⟩
    · obtain rfl : id = p := Option.some.inj hp
      refine ⟨Nat.lt_of_lt_of_le (val_lt_of_live l.live) hle, ?_⟩
      exact hfound parent (node_some.mp l.node).1 l.dir (l.paths e he)
  case names =>
    intro p c d n m hc hd hn hm hname
    obtain ⟨n', hn', htagn⟩ := l.tag_get (node_some.mp hn).1
    obtain ⟨m', hm', htagm⟩ := l.tag_get (node_some.mp hm).1
    have hname' : n'.name = m'.name := by
      rw [← (tag_inj htagn).2.2.1, ← (tag_inj htagm).2.2.1, hname]
    rcases hkids p c hc with ⟨rfl, hcn⟩ | ⟨hp, hcp⟩
    · rcases hkids p d hd with ⟨-, hdn⟩ | ⟨hp, -⟩
      · refine List.inj_on_of_nodup_map l.nodup_names hcn hdn ?_
        rw [hn', hm', Option.map_some, Option.map_some, hname']
      · exact absurd rfl hp
    · rcases hkids p d hd with ⟨hp', -⟩ | ⟨-, hdp⟩
      · exact absurd hp' hp
      · obtain ⟨nc, hnc⟩ := live_iff.mp (l.sound.tree.child_live hcp)
        obtain ⟨nd, hnd⟩ := live_iff.mp (l.sound.tree.child_live hdp)
        obtain rfl : n' = nc := Option.some.inj (hn'.symm.trans (get_of_node hnc fresh))
        obtain rfl : m' = nd := Option.some.inj (hm'.symm.trans (get_of_node hnd fresh))
        exact l.sound.names p c d n' m' hcp hdp hnc hnd hname'
  case shown =>
    have hroot : ({ t.relist id parent fresh new kept with selected := s } : FileTree).root =
        t.root := relist_root ..
    rw [hroot]
    exact hs

end Listed

theorem Sound.listed {t : FileTree} (h : t.Sound) {id : NodeId} {parent : Node}
    (hid : t.node id = some parent) (hdir : parent.kind = .dir) {entries : List DirEntryInfo}
    (hlisting : IsListing parent.path entries) :
    ∃ fresh new kept, Listed t id parent entries fresh new kept ∧ t.setChildren id entries =
      if ((t.relist id parent fresh new kept).node t.selected).isNone then
        { t.relist id parent fresh new kept with selected := id }
      else t.relist id parent fresh new kept := by
  classical
  obtain ⟨fresh, new, kept, hab, heq⟩ := absorb_spec h hid hlisting.2 []
  simp only [List.append_nil, List.length_nil, Nat.add_zero] at hab heq
  have l : Listed t id parent entries fresh new kept := ⟨h, hid, hdir, hab, hlisting.2, hlisting.1⟩
  refine ⟨fresh, new, kept, l, ?_⟩
  have hself : ((t.relist id parent fresh new kept).node id).isSome = true := by
    rw [l.relist_node, if_pos rfl]
    rfl
  have hnear : (t.relist id parent fresh new kept).nearestLiveAncestor
      ((t.relist id parent fresh new kept).nodes.length + 1) id = id := if_pos hself
  have hselected : (t.relist id parent fresh new kept).selected = t.selected := relist_selected ..
  rw [FileTree.setChildren, hid]
  dsimp only
  rw [heq]
  change (if ((t.relist id parent fresh new kept).node
      (t.relist id parent fresh new kept).selected).isNone then
        { t.relist id parent fresh new kept with
          selected := (t.relist id parent fresh new kept).nearestLiveAncestor
            ((t.relist id parent fresh new kept).nodes.length + 1) id }
      else t.relist id parent fresh new kept) = _
  rw [hselected, hnear]

/-- **A listing of a directory keeps the invariant.** -/
theorem Sound.setChildren {t : FileTree} (h : t.Sound) {id : NodeId} {entries : List DirEntryInfo}
    (hdir : ∀ n, t.node id = some n → n.kind = .dir ∧ IsListing n.path entries) :
    (t.setChildren id entries).Sound := by
  classical
  cases hid : t.node id with
  | none =>
    rw [FileTree.setChildren, hid]
    exact h
  | some parent =>
    obtain ⟨fresh, new, kept, l, heq⟩ := h.listed hid (hdir parent hid).1 (hdir parent hid).2
    have hselected : (t.relist id parent fresh new kept).selected = t.selected := relist_selected ..
    have hlive : t.Live t.selected := by
      rcases h.shown.cases_tail with hr | ⟨p, -, hc⟩
      · rw [hr]
        exact h.tree.root_live
      · exact h.tree.child_live hc.2
    rw [heq]
    by_cases hg : Gone t.kids id new t.selected
    · -- the selection is gone, and the directory that was listed is above it
      have hne : t.selected ≠ id := fun he => l.not_gone (he ▸ hg)
      have hnone : ((t.relist id parent fresh new kept).node t.selected).isNone = true := by
        rw [l.relist_node, if_neg hne, if_pos hg]
        rfl
      rw [if_pos hnone]
      exact l.sound_select (l.through (h.tree.through_gone h.shown hg) l.not_gone)
    · have hsome : ((t.relist id parent fresh new kept).node t.selected).isNone = false := by
        rw [Option.isNone_eq_false_iff]
        exact (l.relisted.lives t.selected).mpr (.inl ⟨hlive, hg⟩)
      rw [hsome, if_neg Bool.false_ne_true]
      have hsound := l.sound_select (l.through h.shown hg)
      rw [← hselected] at hsound
      exact hsound

/-- Every node keeps its id, its parent, its name, its path and its kind. -/
def Keeps (t t' : FileTree) : Prop :=
  ∀ (k : ℕ) (n : Node), t.nodes[k]? = some n → ∃ n', t'.nodes[k]? = some n' ∧ n'.tag = n.tag

theorem Sound.setChildren_keeps {t : FileTree} (h : t.Sound) {id : NodeId}
    {entries : List DirEntryInfo}
    (hdir : ∀ n, t.node id = some n → n.kind = .dir ∧ IsListing n.path entries) :
    t.Keeps (t.setChildren id entries) := by
  intro k n hn
  cases hid : t.node id with
  | none =>
    rw [FileTree.setChildren, hid]
    exact ⟨n, hn, rfl⟩
  | some parent =>
    obtain ⟨fresh, new, kept, l, heq⟩ := h.listed hid (hdir parent hid).1 (hdir parent hid).2
    have hget : (t.nodes ++ fresh)[k]? = some n := by
      rw [List.getElem?_append_left (List.getElem?_eq_some_iff.mp hn).1, hn]
    have hkept := l.get_tag hget
    rw [heq]
    split_ifs
    · exact hkept
    · exact hkept

end FileTree

end Filesystem

end Termesh
