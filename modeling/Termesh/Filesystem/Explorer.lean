import Termesh.Filesystem.Listing
import Termesh.Lib.Run

/-!
# The explorer over time

The tree of an open workspace with the reads it waits for. Keys act on the selection; listings and
failures arrive at any time, for nodes in any state.

* `Explorer`, `Move`, `Explorer.step`: everything that happens to a tree;
* `Stays`: nodes are never given to other entries, **`step_stays`**;
* `Upright`, **`step_upright`**: the invariant with the reads that are in flight;
* `Spares`: no failed read for a directory whose children are shown;
* **`explorer_shaped`**: under `Spares` the tree stays as promised;
* **`setError_shaped_iff`**: a failed read for such a directory leaves its children behind.

A listing is taken as it is when the settings' exclusions have been left out of it.
-/

namespace Termesh

namespace Filesystem

open Runs Relation Forest

namespace FileTree

/-! ## Identity -/

/-- Every id still names its entry, and what vanished stays so. -/
def Stays (t t' : FileTree) : Prop :=
  ∀ (k : ℕ) (n : Node), t.nodes[k]? = some n → ∃ n', t'.nodes[k]? = some n' ∧ n'.name = n.name ∧
    n'.kind = n.kind ∧ n'.parent = n.parent ∧ (n'.alive = true → n.alive = true)

variable {t t' t'' : FileTree}

theorem Stays.refl (t : FileTree) : t.Stays t := fun _ n hn => ⟨n, hn, rfl, rfl, rfl, fun h => h⟩

theorem Stays.trans (h : t.Stays t') (h' : t'.Stays t'') : t.Stays t'' := by
  intro k n hn
  obtain ⟨n', hn', hname, hkind, hparent, halive⟩ := h k n hn
  obtain ⟨n'', hn'', hname', hkind', hparent', halive'⟩ := h' k n' hn'
  exact ⟨n'', hn'', hname'.trans hname, hkind'.trans hkind, hparent'.trans hparent,
    fun ha => halive (halive' ha)⟩

theorem modify_stays (t : FileTree) (id : NodeId) {f : Node → Node}
    (hf : ∀ n, (f n).name = n.name ∧ (f n).kind = n.kind ∧ (f n).parent = n.parent ∧
      (f n).alive = n.alive) : t.Stays (t.modify id f) := by
  unfold FileTree.modify
  split_ifs
  · intro k n hn
    by_cases hk : id.val = k
    · subst hk
      obtain ⟨hname, hkind, hparent, halive⟩ := hf n
      refine ⟨f n, ?_, hname, hkind, hparent, fun ha => halive ▸ ha⟩
      rw [List.getElem?_modify_eq, hn]
      rfl
    · refine ⟨n, ?_, rfl, rfl, rfl, fun h => h⟩
      rw [List.getElem?_modify_ne _ _ hk, hn]
  · exact Stays.refl t

theorem pushNode_stays (t : FileTree) (parent : Option NodeId) (entry : DirEntryInfo) :
    t.Stays (t.pushNode parent entry).2 := by
  intro k n hn
  refine ⟨n, ?_, rfl, rfl, rfl, fun h => h⟩
  rw [pushNode, List.getElem?_append_left (List.getElem?_eq_some_iff.mp hn).1, hn]

theorem killSubtree_stays (t : FileTree) (id : NodeId) : t.Stays (t.killSubtree id) := by
  intro k n hn
  rw [killSubtree, killLoop_get, hn]
  by_cases hk : ⟨k⟩ ∈ sweep (raw t.nodes) t.nodes.length [id]
  · exact ⟨n.dead, by rw [Option.map_some, if_pos hk], rfl, rfl, rfl, fun h => Bool.noConfusion h⟩
  · exact ⟨n, by rw [Option.map_some, if_neg hk], rfl, rfl, rfl, fun h => h⟩

theorem absorb_stays (id : NodeId) (existing : Tables.Table String NodeId) (t : FileTree)
    (entries : List DirEntryInfo) : t.Stays (absorb id existing t entries).1 := by
  induction entries generalizing t with
  | nil => exact Stays.refl t
  | cons e entries ih =>
    rw [absorb]
    split
    · rename_i c _
      exact (modify_stays t c (f := fun n => { n with path := e.path })
        fun _ => ⟨rfl, rfl, rfl, rfl⟩).trans (ih _)
    · exact (pushNode_stays t (some id) e).trans (ih _)

theorem setChildren_stays (t : FileTree) (id : NodeId) (entries : List DirEntryInfo) :
    t.Stays (t.setChildren id entries) := by
  unfold FileTree.setChildren
  split
  · exact Stays.refl t
  · rename_i parent _
    have hkill : ∀ (gone : List NodeId) (t : FileTree), t.Stays (gone.foldl killSubtree t) := by
      intro gone
      induction gone with
      | nil => exact fun t => Stays.refl t
      | cons r gone ih => exact fun t => (killSubtree_stays t r).trans (ih _)
    have hlisted := fun gone => (absorb_stays id (t.existing parent) t entries).trans (hkill gone _)
    have hset := fun (t : FileTree) (new : List NodeId) =>
      modify_stays t id (f := fun n => { n with children := .loaded new })
        fun _ => ⟨rfl, rfl, rfl, rfl⟩
    dsimp only
    split_ifs
    · exact (hlisted _).trans (hset _ _)
    · exact (hlisted _).trans (hset _ _)

theorem beginLoad_stays (t : FileTree) (id : NodeId) : t.Stays (t.beginLoad id).1 := by
  unfold FileTree.beginLoad
  split
  · exact Stays.refl t
  · split_ifs
    · exact Stays.refl t
    · split
      · exact modify_stays t id fun _ => ⟨rfl, rfl, rfl, rfl⟩
      · exact modify_stays t id fun _ => ⟨rfl, rfl, rfl, rfl⟩
      · exact Stays.refl t
      · exact Stays.refl t

theorem expand_stays (t : FileTree) (id : NodeId) : t.Stays (t.expand id).1 := by
  unfold FileTree.expand
  split
  · exact Stays.refl t
  · split_ifs
    · exact Stays.refl t
    · exact (modify_stays t id (f := fun n => { n with expanded := true })
        fun _ => ⟨rfl, rfl, rfl, rfl⟩).trans (beginLoad_stays _ _)

theorem collapse_stays (t : FileTree) (id : NodeId) : t.Stays (t.collapse id) :=
  modify_stays t id fun _ => ⟨rfl, rfl, rfl, rfl⟩

theorem toggle_stays (t : FileTree) (id : NodeId) : t.Stays (t.toggle id).1 := by
  unfold FileTree.toggle
  split
  · exact Stays.refl t
  · split_ifs
    · exact collapse_stays t id
    · exact expand_stays t id
    · exact Stays.refl t

theorem moveSelection_stays (t : FileTree) (delta : Int) : t.Stays (t.moveSelection delta) := by
  unfold FileTree.moveSelection
  dsimp only
  split
  · exact Stays.refl t
  · exact Stays.refl t

theorem collapseOrParent_stays (t : FileTree) : t.Stays t.collapseOrParent := by
  unfold FileTree.collapseOrParent
  split
  · exact Stays.refl t
  · split_ifs
    · exact collapse_stays t _
    · split
      · exact Stays.refl t
      · exact Stays.refl t

end FileTree

/-! ## Moves -/

/-- A tree with the reads in flight for it. -/
structure Explorer where
  tree : FileTree
  reads : List (NodeId × Path) := []
deriving DecidableEq, Repr

inductive Move where
  | expand (id : NodeId)
  | toggle
  | collapse
  | selectNext
  | selectPrev
  | collapseOrParent
  /-- Paths changed on disk. -/
  | changed (paths : List Path)
  /-- The settings changed what is excluded. -/
  | reload
  /-- A directory was listed, or could not be. -/
  | listed (id : NodeId) (path : Path) (entries : List DirEntryInfo)
  | failed (id : NodeId) (error : FsError)

namespace Explorer

/-- A workspace that was just opened. -/
def new (rootPath : Path) (displayName : String) : Explorer where
  tree := FileTree.new rootPath displayName

/-- Change the tree and ask for a listing, if one is needed. -/
def ask (x : Explorer) (id : NodeId) (asked : FileTree × Option Path) : Explorer where
  tree := asked.1
  reads := x.reads ++ (asked.2.map fun path => (id, path)).toList

/-- One move. `none` is an answer to nothing that was asked, or one that is no listing. -/
def step (x : Explorer) : Move → Option Explorer
  | .expand id => some (x.ask id (x.tree.expand id))
  | .toggle => some (x.ask x.tree.selected (x.tree.toggle x.tree.selected))
  | .collapse => some { x with tree := x.tree.collapse x.tree.selected }
  | .selectNext => some { x with tree := x.tree.selectNext }
  | .selectPrev => some { x with tree := x.tree.selectPrev }
  | .collapseOrParent => some { x with tree := x.tree.collapseOrParent }
  | .changed paths =>
    let asked := (x.tree.dirsToRefresh paths).filterMap fun id =>
      (x.tree.refresh id).map fun path => (id, path)
    some { x with reads := x.reads ++ asked }
  | .reload => some { x with reads := x.reads ++ x.tree.loadedDirectories }
  | .listed id path entries =>
    if (id, path) ∈ x.reads ∧ IsListing path entries then
      some ⟨x.tree.setChildren id entries, x.reads.erase (id, path)⟩
    else none
  | .failed id error => some { x with tree := x.tree.setError id error }

/-- The move does not tell of a failed read for a directory whose children are shown. -/
def Spares (x : Explorer) : Move → Prop
  | .failed id _ => x.tree.kids id = []
  | _ => True

variable {x x' : Explorer} {mv : Move}

/-- **No move gives an id to another entry.** -/
theorem step_stays (h : x.step mv = some x') : x.tree.Stays x'.tree := by
  cases mv with
  | expand id => exact Option.some.inj h ▸ x.tree.expand_stays id
  | toggle => exact Option.some.inj h ▸ x.tree.toggle_stays x.tree.selected
  | collapse => exact Option.some.inj h ▸ x.tree.collapse_stays x.tree.selected
  | selectNext | selectPrev => exact Option.some.inj h ▸ x.tree.moveSelection_stays _
  | collapseOrParent => exact Option.some.inj h ▸ x.tree.collapseOrParent_stays
  | changed | reload => exact Option.some.inj h ▸ FileTree.Stays.refl x.tree
  | listed id path entries =>
    rw [step] at h
    split_ifs at h
    exact Option.some.inj h ▸ x.tree.setChildren_stays id entries
  | failed id error =>
    exact Option.some.inj h ▸ x.tree.modify_stays id fun _ => ⟨rfl, rfl, rfl, rfl⟩

theorem run_stays {moves : List Move} (h : run step x moves = some x') :
    x.tree.Stays x'.tree := by
  induction moves generalizing x with
  | nil =>
    obtain rfl : x = x' := Option.some.inj h
    exact FileTree.Stays.refl _
  | cons mv moves ih =>
    obtain ⟨x₁, hstep, hrun⟩ := Option.bind_eq_some_iff.mp h
    exact (step_stays hstep).trans (ih hrun)

/-! ## The invariant -/

/-- A sound tree, and reads of its directories by their paths. -/
structure Upright (x : Explorer) : Prop where
  sound : x.tree.Sound
  reads : ∀ r ∈ x.reads, ∃ n : Node, x.tree.nodes[r.1.val]? = some n ∧ n.kind = .dir ∧ n.path = r.2

theorem upright_new (rootPath : Path) (displayName : String) :
    (new rootPath displayName).Upright := by
  have hnode : ∀ id n, (FileTree.new rootPath displayName).node id = some n → id = ⟨0⟩ := by
    intro id n hn
    obtain ⟨hlt, -⟩ := List.getElem?_eq_some_iff.mp (FileTree.node_some.mp hn).1
    cases id with
    | mk k => exact congrArg NodeId.mk (Nat.lt_one_iff.mp hlt)
  have hkids : ∀ id, (FileTree.new rootPath displayName).kids id = [] := by
    intro id
    rw [FileTree.kids]
    cases hn : (FileTree.new rootPath displayName).node id with
    | none => rfl
    | some n =>
      obtain rfl := hnode id n hn
      rw [← Option.some.inj hn]
      rfl
  have hget : ∀ (k : ℕ) (n : Node), (FileTree.new rootPath displayName).nodes[k]? = some n →
      k = 0 ∧ n.id = ⟨0⟩ ∧ n.parent = none := by
    intro k n hn
    obtain ⟨hlt, hn⟩ := List.getElem?_eq_some_iff.mp hn
    obtain rfl : k = 0 := Nat.lt_one_iff.mp hlt
    rw [← hn]
    exact ⟨rfl, rfl, rfl⟩
  refine ⟨?_, fun r hr => by cases hr⟩
  constructor
  case ids =>
    intro k n hn
    obtain ⟨rfl, hid, -⟩ := hget k n hn
    exact hid
  case tree =>
    have hno : ∀ p c, c ∉ (FileTree.new rootPath displayName).kids p := by simp [hkids]
    refine ⟨fun id => ⟨fun hid => ?_, fun hb => ?_⟩, fun p => (hkids p).symm ▸ List.nodup_nil,
      fun p q c hc => absurd hc (hno p c), fun p => hno p _, fun p c hc => absurd hc (hno p c)⟩
    · obtain ⟨n, hn⟩ := FileTree.live_iff.mp hid
      obtain rfl := hnode id n hn
      exact .refl
    · rcases hb.cases_tail with rfl | ⟨p, -, hc⟩
      · exact rfl
      · exact absurd hc (hno p id)
  case parent =>
    intro p c n hc
    change c ∈ (FileTree.new rootPath displayName).kids p at hc
    rw [hkids] at hc
    cases hc
  case orphan =>
    intro n hn
    exact (hget 0 n (FileTree.node_some.mp hn).1).2.2
  case under =>
    intro k n p hn hp
    rw [(hget k n hn).2.2] at hp
    cases hp
  case names =>
    intro p c d n m hc
    change c ∈ (FileTree.new rootPath displayName).kids p at hc
    rw [hkids] at hc
    cases hc
  case shown => exact .refl

open FileTree in
theorem keeps_of_core {t t' : FileTree} (hcore : t'.nodes.map Node.core = t.nodes.map Node.core) :
    t.Keeps t' := by
  intro k n hn
  obtain ⟨n', hn', hc⟩ := core_of_map hcore.symm hn
  refine ⟨n', hn', ?_⟩
  have htag : n.core.tag = n'.core.tag := by rw [hc]
  exact htag.symm

theorem Upright.move (h : x.Upright) (hsound : x'.tree.Sound) (hkeeps : x.tree.Keeps x'.tree)
    (hreads : ∀ r ∈ x'.reads, r ∈ x.reads ∨
      ∃ n : Node, x.tree.nodes[r.1.val]? = some n ∧ n.kind = .dir ∧ n.path = r.2) : x'.Upright := by
  refine ⟨hsound, fun r hr => ?_⟩
  obtain ⟨n, hn, hkind, hpath⟩ : ∃ n : Node, x.tree.nodes[r.1.val]? = some n ∧ n.kind = .dir ∧
      n.path = r.2 := by
    rcases hreads r hr with hold | hnew
    · exact h.reads r hold
    · exact hnew
  obtain ⟨n', hn', htag⟩ := hkeeps _ n hn
  obtain ⟨-, -, -, hpath', hkind'⟩ := FileTree.tag_inj htag
  exact ⟨n', hn', hkind'.trans hkind, hpath'.trans hpath⟩

section Loading

open FileTree

variable {t : FileTree}

theorem beginLoad_asks (t : FileTree) (id : NodeId) :
    (t.beginLoad id).1.nodes.map Node.core = t.nodes.map Node.core ∧
      ∀ path, (t.beginLoad id).2 = some path →
        ∃ n, t.node id = some n ∧ n.kind = .dir ∧ n.path = path := by
  unfold FileTree.beginLoad
  split
  · exact ⟨rfl, fun path hp => by cases hp⟩
  · rename_i n hn
    split_ifs with hdir
    · exact ⟨rfl, fun path hp => by cases hp⟩
    · have hload (hids : n.children.ids = []) :
          (t.modify id fun n => { n with children := .loading }).nodes.map Node.core =
            t.nodes.map Node.core := by
        refine modify_core fun m hm => ?_
        obtain rfl : n = m := Option.some.inj (hn.symm.trans hm)
        rw [Node.core, Node.core, hids]
        rfl
      have hpath : ∀ path, some n.path = some path →
          ∃ n, t.node id = some n ∧ n.kind = .dir ∧ n.path = path := fun path hp =>
        ⟨n, hn, not_not.mp hdir, Option.some.inj hp⟩
      cases hs : n.children with
      | unloaded => exact ⟨hload (by rw [hs]; rfl), hpath⟩
      | error e => exact ⟨hload (by rw [hs]; rfl), hpath⟩
      | loading | loaded => exact ⟨rfl, fun path hp => by cases hp⟩

theorem expand_asks {id : NodeId} :
    (t.expand id).1.nodes.map Node.core = t.nodes.map Node.core ∧
      ∀ path, (t.expand id).2 = some path →
        ∃ n, t.node id = some n ∧ n.kind = .dir ∧ n.path = path := by
  unfold FileTree.expand
  split
  · exact ⟨rfl, fun path hp => by cases hp⟩
  · rename_i n hn
    split_ifs
    · exact ⟨rfl, fun path hp => by cases hp⟩
    · obtain ⟨hcore, hasks⟩ :=
        beginLoad_asks (t.modify id fun n => { n with expanded := true }) id
      have hopen : (t.modify id fun n => { n with expanded := true }).nodes.map Node.core =
          t.nodes.map Node.core := modify_core fun _ _ => rfl
      refine ⟨hcore.trans hopen, fun path hp => ?_⟩
      obtain ⟨m, hm, hkind, hpath⟩ := hasks path hp
      obtain ⟨n', hn', hc⟩ := node_core hopen hm
      have hk : m.kind = n'.kind := show m.core.kind = n'.core.kind by rw [hc]
      have hp' : m.path = n'.path := show m.core.path = n'.core.path by rw [hc]
      exact ⟨n', hn', hk.symm.trans hkind, hp'.symm.trans hpath⟩

theorem toggle_asks {id : NodeId} :
    (t.toggle id).1.nodes.map Node.core = t.nodes.map Node.core ∧
      ∀ path, (t.toggle id).2 = some path →
        ∃ n, t.node id = some n ∧ n.kind = .dir ∧ n.path = path := by
  unfold FileTree.toggle
  split
  · exact ⟨rfl, fun path hp => by cases hp⟩
  · split_ifs
    · exact ⟨modify_core fun _ _ => rfl, fun path hp => by cases hp⟩
    · exact expand_asks
    · exact ⟨rfl, fun path hp => by cases hp⟩

theorem moveSelection_nodes (t : FileTree) (delta : Int) :
    (t.moveSelection delta).nodes = t.nodes := by
  unfold FileTree.moveSelection
  dsimp only
  split <;> rfl

theorem collapseOrParent_core (t : FileTree) :
    t.collapseOrParent.nodes.map Node.core = t.nodes.map Node.core := by
  unfold FileTree.collapseOrParent
  split
  · rfl
  · split_ifs
    · exact modify_core fun _ _ => rfl
    · split <;> rfl

end Loading

/-- **What one move preserves.** -/
theorem step_upright (h : x.Upright) (hs : x.Spares mv) (hstep : x.step mv = some x') :
    x'.Upright := by
  have hask : ∀ id (asked : FileTree × Option Path), asked.1.Sound →
      asked.1.nodes.map Node.core = x.tree.nodes.map Node.core →
      (∀ path, asked.2 = some path →
        ∃ n, x.tree.node id = some n ∧ n.kind = .dir ∧ n.path = path) →
      (x.ask id asked).Upright := by
    intro id asked hsound hcore hasks
    refine h.move hsound (keeps_of_core hcore) fun r hr => ?_
    rcases List.mem_append.mp hr with hr | hr
    · exact .inl hr
    · obtain ⟨path, hpath, rfl⟩ := Option.map_eq_some_iff.mp (Option.mem_toList.mp hr)
      obtain ⟨n, hn, hkind, hp⟩ := hasks path hpath
      exact .inr ⟨n, (FileTree.node_some.mp hn).1, hkind, hp⟩
  have hsame : ∀ t : FileTree, t.Sound → t.nodes.map Node.core = x.tree.nodes.map Node.core →
      ({ x with tree := t } : Explorer).Upright := fun t hsound hcore =>
    h.move hsound (keeps_of_core hcore) fun r hr => .inl hr
  cases mv with
  | expand id =>
    exact Option.some.inj hstep ▸
      hask id _ (h.sound.expand id) expand_asks.1 expand_asks.2
  | toggle =>
    exact Option.some.inj hstep ▸
      hask x.tree.selected _ h.sound.toggle toggle_asks.1 toggle_asks.2
  | collapse =>
    exact Option.some.inj hstep ▸
      hsame _ h.sound.collapse (FileTree.modify_core fun _ _ => rfl)
  | selectNext | selectPrev =>
    exact Option.some.inj hstep ▸
      hsame _ (h.sound.moveSelection _) (congrArg _ (moveSelection_nodes x.tree _))
  | collapseOrParent =>
    exact Option.some.inj hstep ▸
      hsame _ h.sound.collapseOrParent (collapseOrParent_core x.tree)
  | changed paths =>
    refine Option.some.inj hstep ▸ h.move h.sound (keeps_of_core rfl) fun r hr => ?_
    rcases List.mem_append.mp hr with hr | hr
    · exact .inl hr
    · obtain ⟨id, -, hr⟩ := List.mem_filterMap.mp hr
      obtain ⟨path, hpath, rfl⟩ := Option.map_eq_some_iff.mp hr
      obtain ⟨n, hn, rfl⟩ := Option.map_eq_some_iff.mp hpath
      obtain ⟨hn, hkind⟩ := Option.filter_eq_some_iff.mp hn
      exact .inr ⟨n, (FileTree.node_some.mp hn).1, by simpa using hkind, rfl⟩
  | reload =>
    refine Option.some.inj hstep ▸ h.move h.sound (keeps_of_core rfl) fun r hr => ?_
    rcases List.mem_append.mp hr with hr | hr
    · exact .inl hr
    · obtain ⟨n, hn, rfl⟩ := List.mem_map.mp hr
      obtain ⟨hmem, hn⟩ := List.mem_filter.mp hn
      obtain ⟨k, hk⟩ := List.getElem?_of_mem hmem
      have hid := h.sound.ids k n hk
      simp only [Bool.and_eq_true, decide_eq_true_eq] at hn
      exact .inr ⟨n, by rw [hid]; exact hk, hn.1.2, rfl⟩
  | listed id path entries =>
    rw [step] at hstep
    split_ifs at hstep with hlisting
    obtain ⟨n, hn, hkind, hpath⟩ := h.reads (id, path) hlisting.1
    have hdir : ∀ m, x.tree.node id = some m → m.kind = .dir ∧ IsListing m.path entries := by
      intro m hm
      obtain rfl : n = m := Option.some.inj (hn.symm.trans (FileTree.node_some.mp hm).1)
      exact ⟨hkind, hpath ▸ hlisting.2⟩
    exact Option.some.inj hstep ▸
      h.move (h.sound.setChildren hdir) (h.sound.setChildren_keeps hdir) fun r hr =>
        .inl (List.mem_of_mem_erase hr)
  | failed id error =>
    have hids : x.tree.kids id = [] := hs
    refine Option.some.inj hstep ▸
      hsame _ (h.sound.setError hids error) (FileTree.modify_core fun n hn => ?_)
    rw [FileTree.kids, hn, Option.map_some, Option.getD_some] at hids
    rw [Node.core, Node.core, hids]
    rfl

/-- **The tree stays as promised** in every run that never tells of a failed read for a directory
whose children are shown, and no run gives an id to another entry. -/
theorem explorer_shaped {rootPath : Path} {displayName : String} {x : Explorer}
    (h : Reach step Spares (fun x => x = new rootPath displayName) x) :
    x.tree.Shaped ∧ ∀ moves x', run step x moves = some x' → x.tree.Stays x'.tree := by
  have hup : x.Upright := by
    refine Reach.inv (fun x hx => ?_) (fun x mv x' hx hok hs => step_upright hx hok hs) h
    rw [hx]
    exact upright_new rootPath displayName
  exact ⟨hup.sound.shaped, fun moves x' hrun => run_stays hrun⟩

open FileTree in
/-- **A failed read leaves the tree as promised exactly when its directory shows no children**: the
others stay live and in no list. -/
theorem setError_shaped_iff (h : x.Upright) (id : NodeId) (error : FsError) :
    (x.tree.setError id error).Shaped ↔ x.tree.kids id = [] := by
  constructor
  · intro hshaped
    by_contra hne
    obtain ⟨c, hc⟩ := List.exists_mem_of_ne_nil _ hne
    have hnode : ∀ j, (x.tree.setError id error).node j =
        if j = id then (x.tree.node id).map fun n => { n with children := .error error }
        else x.tree.node j := fun j =>
      node_modify x.tree id j (f := fun n => { n with children := .error error }) fun _ => rfl
    have hlive : (x.tree.setError id error).Live c := by
      obtain ⟨n, hn⟩ := live_iff.mp (h.sound.tree.child_live hc)
      rw [live_iff, hnode]
      by_cases hcid : c = id
      · subst hcid
        exact ⟨_, by rw [if_pos rfl, hn]; rfl⟩
      · exact ⟨n, by rw [if_neg hcid, hn]⟩
    have hroot : (x.tree.setError id error).root = x.tree.root := root_modify ..
    have hreach := hshaped.reached c hlive
    rw [hroot] at hreach
    rcases hreach.cases_tail with he | ⟨p, -, n, ids, hn, -, hids, hmem⟩
    · exact h.sound.tree.child_ne_root hc he
    · rw [hnode] at hn
      split_ifs at hn with hp
      · obtain ⟨m, -, rfl⟩ := Option.map_eq_some_iff.mp hn
        cases hids
      · have hcp : c ∈ x.tree.kids p := mem_kids.mpr ⟨n, hn, by rw [hids]; exact hmem⟩
        exact hp (h.sound.tree.single p id c hcp hc)
  · intro hids
    exact (h.sound.setError hids error).shaped

/-! ## A directory that is read, and then cannot be -/

/-- A root that was listed, with a directory in it. -/
def listedOnce : List Move :=
  [.expand ⟨0⟩, .listed ⟨0⟩ [.rootDir, .normal "r"]
    [⟨"a", [.rootDir, .normal "r", .normal "a"], .dir⟩]]

def afterListing : Explorer := (run step (new [.rootDir, .normal "r"] "r") listedOnce).get (by decide)

theorem explorer_shaped_listed :
    afterListing.tree.Shaped ∧
      ∀ moves x', run step afterListing moves = some x' → afterListing.tree.Stays x'.tree := by
  have hstart : Reach step Spares (fun x => x = new [.rootDir, .normal "r"] "r")
      (new [.rootDir, .normal "r"] "r") := .start rfl
  have hspares : ∀ x id path entries, Spares x (.expand id) ∧ Spares x (.listed id path entries) :=
    fun _ _ _ _ => ⟨trivial, trivial⟩
  have hexpanded := hstart.next (hspares _ ⟨0⟩ [] []).1 rfl
  exact explorer_shaped (hexpanded.next (hspares _ ⟨0⟩ [.rootDir, .normal "r"]
    [⟨"a", [.rootDir, .normal "r", .normal "a"], .dir⟩]).2 rfl)

/-- The root is refreshed, cannot be read, and is expanded and listed again. -/
def listedAgain : List Move :=
  [.changed [[.rootDir, .normal "r", .normal "b"]],
    .failed ⟨0⟩ (.permissionDenied [.rootDir, .normal "r"]),
    .expand ⟨0⟩, .listed ⟨0⟩ [.rootDir, .normal "r"]
      [⟨"a", [.rootDir, .normal "r", .normal "a"], .dir⟩]]

def afterFailure : Explorer := (run step afterListing listedAgain).get (by decide)

/-- **A failed read leaves an orphan**: two live nodes have one path, and a path names the node that
is not shown. -/
theorem orphan_shadows :
    run step (new [.rootDir, .normal "r"] "r") (listedOnce ++ listedAgain) = some afterFailure ∧
      ¬ afterFailure.tree.Shaped ∧
      afterFailure.tree.visibleRows.map Row.id = [⟨0⟩, ⟨2⟩] ∧
      afterFailure.tree.findByPath [.rootDir, .normal "r", .normal "a"] = some ⟨1⟩ := by
  refine ⟨by decide, fun hshaped => ?_, by decide, by decide⟩
  have htwo : afterFailure.tree.findByPath [.rootDir, .normal "r", .normal "a"] = some ⟨2⟩ :=
    hshaped.found ⟨2⟩ ⟨⟨2⟩, some ⟨0⟩, "a", [.rootDir, .normal "r", .normal "a"], .dir, false,
      .unloaded, true⟩ (by decide)
  rw [show afterFailure.tree.findByPath [.rootDir, .normal "r", .normal "a"] = some ⟨1⟩ by decide]
    at htwo
  exact absurd htwo (by decide)

end Explorer

end Filesystem

end Termesh
