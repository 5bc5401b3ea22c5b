import Termesh.Filesystem.Rows
import Termesh.Workspace.Root

/-!
# What the agent is told of the workspace

A snapshot is built from the tree that the user is looking at, and from nothing else.

* `TreeEntry`, `WorkspaceSnapshot`, `build`: the snapshot of a tree;
* `Told`: what the agent can take from one;
* **`build_told`**: in every run it tells what is shown, no more and no less.
-/

namespace Termesh

namespace Workspace

open Filesystem Filesystem.FileTree Runs Forest

/-- A visible entry. -/
structure TreeEntry where
  /-- Relative to the root. -/
  path : Path
  depth : ℕ
  isDir : Bool
  /-- A directory that is not expanded. -/
  unexplored : Bool
deriving DecidableEq, Repr

/-- What an agent is told of the workspace. -/
structure WorkspaceSnapshot where
  root : Path
  projectKind : ProjectKind
  projectKinds : List ProjectKind
  visibleTree : List TreeEntry
  /-- Relative to the root. -/
  selection : Option Path
deriving DecidableEq, Repr

/-- The path behind the root, or all of it where it is not beneath. -/
def relativeTo (root path : Path) : Path :=
  if root <+: path then path.drop root.length else path

namespace WorkspaceSnapshot

/-- The entry of a row. -/
def entryOf (root : WorkspaceRoot) (tree : FileTree) (row : Row) : Option TreeEntry :=
  (tree.node row.id).map fun n =>
    { path := relativeTo root.path n.path
      depth := row.depth - 1
      isDir := n.isExpandable
      unexplored := n.isExpandable && !n.expanded }

/-- The snapshot of a tree. -/
def build (root : WorkspaceRoot) (tree : FileTree) : WorkspaceSnapshot where
  root := root.path
  projectKind := root.kind
  projectKinds := root.kinds
  visibleTree := (tree.visibleRows.filter fun row => row.id ≠ tree.root).filterMap
    (entryOf root tree)
  selection := (((tree.node tree.selected).map (·.path)).filter fun _ =>
    tree.selected ≠ tree.root).map (relativeTo root.path)

end WorkspaceSnapshot

open WorkspaceSnapshot

/-- What the agent can take from a snapshot of a tree. -/
structure Told (tree : FileTree) (s : WorkspaceSnapshot) : Prop where
  /-- Just what a chain of expanded directories leads to is in it, -/
  shown : ∀ p, p ∈ s.visibleTree.map TreeEntry.path ↔ p ≠ [] ∧ ∃ id n,
    tree.node id = some n ∧ n.path = s.root ++ p ∧ Through tree.Open tree.kids tree.root id
  /-- and once only. -/
  once : (s.visibleTree.map TreeEntry.path).Nodup
  /-- No path leads out of the root or tells where it is. -/
  names : ∀ e ∈ s.visibleTree, ∃ names : List String,
    e.path = names.map .normal ∧ names.length = e.depth + 1
  /-- What is a directory, and which ones were not looked into. -/
  flags : ∀ e ∈ s.visibleTree, ∃ id n, tree.findByPath (s.root ++ e.path) = some id ∧
    tree.node id = some n ∧ (e.isDir = true ↔ n.kind = .dir) ∧
    (e.unexplored = true ↔ n.kind = .dir ∧ ¬ tree.Open id)
  /-- An entry that is not at the top stands behind its directory, which is explored, and what is
  between them is no higher. -/
  nested : ∀ pre e post, s.visibleTree = pre ++ e :: post → 0 < e.depth →
    ∃ above d between name, pre = above ++ d :: between ∧ e.depth = d.depth + 1 ∧
      (∀ q ∈ between, e.depth ≤ q.depth) ∧ d.isDir = true ∧ d.unexplored = false ∧
      e.path = d.path ++ [.normal name]
  /-- The selection is something in it, or else the root. -/
  selection : match s.selection with
    | none => tree.selected = tree.root
    | some p => p ∈ s.visibleTree.map TreeEntry.path ∧
      tree.findByPath (s.root ++ p) = some tree.selected

/-! ## Entries and rows -/

theorem relativeTo_append (root p : Path) : relativeTo root (root ++ p) = p := by
  rw [relativeTo, if_pos (List.prefix_append root p), List.drop_left]

variable {root : WorkspaceRoot} {tree : FileTree} {r : Node}

/-- An entry and the row it stands for. -/
structure EntryFor (root : WorkspaceRoot) (tree : FileTree) (row : Row) (e : TreeEntry) : Prop where
  node : ∃ n, tree.node row.id = some n ∧ n.path = root.path ++ e.path ∧
    (e.isDir = true ↔ n.kind = .dir) ∧ (e.unexplored = true ↔ n.kind = .dir ∧ ¬ tree.Open row.id)
  names : ∃ names : List String, e.path = names.map .normal ∧ names.length = e.depth + 1
  depth : row.depth = e.depth + 1

theorem entryFor (h : tree.Sound) (hr : tree.node tree.root = some r) (hpath : r.path = root.path)
    {row : Row} (hrow : row ∈ tree.visibleRows) (hne : row.id ≠ tree.root) :
    ∃ e, entryOf root tree row = some e ∧ EntryFor root tree row e := by
  obtain ⟨n, names, hn, hnpath, hdepth⟩ := h.row_path hr hrow
  rw [Nat.zero_add] at hdepth
  have hnames : names ≠ [] := by
    rintro rfl
    refine hne (h.path_injective hn hr ?_)
    rw [hnpath]
    simp
  have hrel : relativeTo root.path n.path = names.map .normal := by
    rw [hnpath, hpath, relativeTo_append]
  have hopen : tree.Open row.id ↔ n.expanded = true := by
    constructor
    · rintro ⟨m, hm, hopen⟩
      rwa [Option.some.inj (hn.symm.trans hm)]
    · exact fun he => ⟨n, hn, he⟩
  have hlen : names.length = row.depth - 1 + 1 := by
    have := List.length_pos_iff.mpr hnames
    omega
  refine ⟨_, by rw [entryOf, hn]; rfl, ⟨n, hn, ?_, ?_, ?_⟩, ⟨names, hrel, hlen⟩, ?_⟩
  · change n.path = root.path ++ relativeTo root.path n.path
    rw [hrel, hnpath, hpath]
  · simp [Node.isExpandable]
  · simp [Node.isExpandable, hopen]
  · exact hdepth.trans hlen

/-- **There is an entry for each row but the root's**, in their order. -/
theorem build_entries (h : tree.Sound) (hr : tree.node tree.root = some r)
    (hpath : r.path = root.path) :
    ∃ rows, tree.visibleRows = ⟨tree.root, 0⟩ :: rows ∧
      List.Forall₂ (EntryFor root tree) rows (build root tree).visibleTree := by
  obtain ⟨rows, hrows, hne⟩ := h.visibleRows_eq
  refine ⟨rows, hrows, ?_⟩
  have hfilter : tree.visibleRows.filter (fun row => row.id ≠ tree.root) = rows := by
    rw [hrows, List.filter_cons_of_neg (by simp), List.filter_eq_self]
    exact fun row hrow => by simpa using hne row hrow
  have hall : ∀ row ∈ rows, ∃ e, entryOf root tree row = some e ∧ EntryFor root tree row e :=
    fun row hrow => entryFor h hr hpath (hrows ▸ List.mem_cons_of_mem _ hrow) (hne row hrow)
  change List.Forall₂ _ rows ((tree.visibleRows.filter _).filterMap _)
  rw [hfilter]
  clear hfilter hne hrows
  induction rows with
  | nil => exact .nil
  | cons row rows ih =>
    obtain ⟨⟨e, he, hfor⟩, hrest⟩ := List.forall_mem_cons.mp hall
    rw [List.filterMap_cons_some he]
    exact .cons hfor (ih hrest)

/-! ## What is told -/

theorem exists_row {rows : List Row} {entries : List TreeEntry}
    (hall : List.Forall₂ (EntryFor root tree) rows entries) {e : TreeEntry} (he : e ∈ entries) :
    ∃ row ∈ rows, EntryFor root tree row e := by
  induction hall with
  | nil => cases he
  | cons hfor _ ih =>
    rcases List.mem_cons.mp he with rfl | he
    · exact ⟨_, List.mem_cons_self, hfor⟩
    · obtain ⟨row, hrow, hfor⟩ := ih he
      exact ⟨row, List.mem_cons_of_mem _ hrow, hfor⟩

theorem exists_entry {rows : List Row} {entries : List TreeEntry}
    (hall : List.Forall₂ (EntryFor root tree) rows entries) {row : Row} (hrow : row ∈ rows) :
    ∃ e ∈ entries, EntryFor root tree row e := by
  induction hall with
  | nil => cases hrow
  | cons hfor _ ih =>
    rcases List.mem_cons.mp hrow with rfl | hrow
    · exact ⟨_, List.mem_cons_self, hfor⟩
    · obtain ⟨e, he, hfor⟩ := ih hrow
      exact ⟨e, List.mem_cons_of_mem _ he, hfor⟩

theorem entries_nodup (h : tree.Sound) {rows : List Row} {entries : List TreeEntry}
    (hall : List.Forall₂ (EntryFor root tree) rows entries) (hrows : (rows.map Row.id).Nodup) :
    (entries.map TreeEntry.path).Nodup := by
  induction hall with
  | nil => exact List.nodup_nil
  | @cons row e rows entries hfor hall ih =>
    rw [List.map_cons, List.nodup_cons] at hrows ⊢
    refine ⟨fun hmem => hrows.1 ?_, ih hrows.2⟩
    obtain ⟨e', he', hpath⟩ := List.mem_map.mp hmem
    obtain ⟨row', hrow', hfor'⟩ := exists_row hall he'
    obtain ⟨n, hn, hnpath, -⟩ := hfor.node
    obtain ⟨n', hn', hnpath', -⟩ := hfor'.node
    have hid : row'.id = row.id := h.path_injective hn' hn (by rw [hnpath, hnpath', hpath])
    exact hid ▸ List.mem_map_of_mem hrow'

theorem entry_parent (h : tree.Sound) {rows : List Row} {pre post : List TreeEntry} {e : TreeEntry}
    (hrows : tree.visibleRows = ⟨tree.root, 0⟩ :: rows)
    (hall : List.Forall₂ (EntryFor root tree) rows (pre ++ e :: post)) (he : 0 < e.depth) :
    ∃ above d between name, pre = above ++ d :: between ∧ e.depth = d.depth + 1 ∧
      (∀ q ∈ between, e.depth ≤ q.depth) ∧ d.isDir = true ∧ d.unexplored = false ∧
      e.path = d.path ++ [.normal name] := by
  have hpre := List.forall₂_take_append rows pre _ hall
  obtain ⟨row, after, hfor, -, hdrop⟩ :=
    List.forall₂_cons_right_iff.mp (List.forall₂_drop_append rows pre _ hall)
  have hsplit : tree.visibleRows = (⟨tree.root, 0⟩ :: rows.take pre.length) ++ row :: after := by
    rw [hrows, List.cons_append, ← hdrop, List.take_append_drop]
  obtain ⟨above, p, between, hcut, hdepth, hbetween, hopen, hkid⟩ :=
    row_parent hsplit (List.cons_ne_nil _ _)
  have hrowdepth := hfor.depth
  cases above with
  | nil =>
    -- a row right below the root's is at the top
    obtain ⟨rfl, -⟩ := List.cons.inj hcut
    rw [hdepth] at hrowdepth
    dsimp only at hrowdepth
    omega
  | cons first above =>
    obtain ⟨-, hcut⟩ := List.cons.inj hcut
    rw [hcut] at hpre
    have habove := List.forall₂_take_append pre above _ hpre.flip
    obtain ⟨d, between', hd, hbelow, hdrop'⟩ :=
      List.forall₂_cons_right_iff.mp (List.forall₂_drop_append pre above _ hpre.flip)
    obtain ⟨q, hq, hqpath, hqdir, hqopen⟩ := hd.node
    obtain ⟨n, hn, hnpath, -⟩ := hfor.node
    obtain ⟨q', hq', hkind, hpath⟩ := h.path hkid hn
    obtain rfl : q = q' := Option.some.inj (hq.symm.trans hq')
    have hpdepth := hd.depth
    refine ⟨pre.take above.length, d, between', n.name, ?_, by omega, fun e' he' => ?_,
      hqdir.mpr hkind, ?_, ?_⟩
    · rw [← hdrop', List.take_append_drop]
    · obtain ⟨row', hrow', hfor'⟩ := exists_row hbelow.flip he'
      have hle := hbetween row' hrow'
      have hdepth' := hfor'.depth
      omega
    · rw [← Bool.not_eq_true, hqopen]
      exact fun hnot => hnot.2 hopen
    · rw [hqpath, List.append_assoc, hnpath] at hpath
      exact List.append_cancel_left hpath

/-- **A snapshot of a sound tree tells what is shown.** -/
theorem Told.of_sound (h : tree.Sound) (hr : tree.node tree.root = some r)
    (hpath : r.path = root.path) : Told tree (build root tree) := by
  obtain ⟨rows, hrows, hall⟩ := build_entries h hr hpath
  have hnodup : (tree.visibleRows.map Row.id).Nodup := h.rows_nodup h.tree.root_live
  rw [hrows, List.map_cons, List.nodup_cons] at hnodup
  have hshown : ∀ p, p ∈ (build root tree).visibleTree.map TreeEntry.path ↔ p ≠ [] ∧ ∃ id n,
      tree.node id = some n ∧ n.path = root.path ++ p ∧
        Through tree.Open tree.kids tree.root id := by
    intro p
    constructor
    · intro hp
      obtain ⟨e, he, rfl⟩ := List.mem_map.mp hp
      obtain ⟨row, hrow, hfor⟩ := exists_row hall he
      obtain ⟨n, hn, hnpath, -⟩ := hfor.node
      obtain ⟨names, hnames, hlen⟩ := hfor.names
      refine ⟨?_, row.id, n, hn, hnpath, h.mem_rows_iff.mp ?_⟩
      · rw [hnames, ne_eq, List.map_eq_nil_iff, ← List.length_eq_zero_iff]
        omega
      · rw [hrows]
        exact List.mem_map_of_mem (List.mem_cons_of_mem _ hrow)
    · rintro ⟨hp, id, n, hn, hnpath, hthrough⟩
      have hmem := h.mem_rows_iff.mpr hthrough
      rw [hrows, List.map_cons] at hmem
      rcases List.mem_cons.mp hmem with rfl | hmem
      · obtain rfl : r = n := Option.some.inj (hr.symm.trans hn)
        rw [hpath] at hnpath
        exact absurd (List.self_eq_append_right.mp hnpath) hp
      · obtain ⟨row, hrow, rfl⟩ := List.mem_map.mp hmem
        obtain ⟨e, he, hfor⟩ := exists_entry hall hrow
        obtain ⟨m, hm, hmpath, -⟩ := hfor.node
        obtain rfl : n = m := Option.some.inj (hn.symm.trans hm)
        rw [hnpath] at hmpath
        exact List.append_cancel_left hmpath ▸ List.mem_map_of_mem he
  constructor
  case shown => exact hshown
  case once => exact entries_nodup h hall hnodup.2
  case names =>
    intro e he
    obtain ⟨row, -, hfor⟩ := exists_row hall he
    exact hfor.names
  case flags =>
    intro e he
    obtain ⟨row, -, hfor⟩ := exists_row hall he
    obtain ⟨n, hn, hnpath, hdir, hopen⟩ := hfor.node
    exact ⟨row.id, n, hnpath ▸ h.found hn, hn, hdir, hopen⟩
  case nested =>
    intro pre e post hsplit he
    rw [hsplit] at hall
    exact entry_parent h hrows hall he
  case selection =>
    have hsel := h.shown
    obtain ⟨n, hn⟩ : ∃ n, tree.node tree.selected = some n := live_iff.mp <| by
      rcases hsel.cases_tail with he | ⟨p, -, hc⟩
      · rw [he]
        exact h.tree.root_live
      · exact h.tree.child_live hc.2
    have hselection : (build root tree).selection =
        if tree.selected = tree.root then none else some (relativeTo root.path n.path) := by
      simp only [build, hn, Option.map_some, Option.filter_some]
      split_ifs with hroot <;> simp_all
    rw [hselection]
    split_ifs with hroot
    · exact hroot
    · have hmem := h.mem_rows_iff.mpr hsel
      rw [hrows, List.map_cons] at hmem
      obtain ⟨row, hrow, hid⟩ := List.mem_map.mp (List.mem_of_ne_of_mem hroot hmem)
      obtain ⟨e, he, hfor⟩ := exists_entry hall hrow
      obtain ⟨m, hm, hmpath, -⟩ := hfor.node
      rw [hid] at hm
      obtain rfl : n = m := Option.some.inj (hn.symm.trans hm)
      rw [hmpath, relativeTo_append]
      exact ⟨List.mem_map_of_mem he, hmpath ▸ h.found hn⟩

/-- **The agent is told what the user is shown**, in every run of the explorer that never tells of a
failed read for a directory whose children are shown. -/
theorem build_told {root : WorkspaceRoot} {displayName : String} {x : Explorer}
    (h : Reach Explorer.step Explorer.Spares (fun x => x = Explorer.new root.path displayName) x) :
    Told x.tree (build root x.tree) := by
  obtain ⟨hup, r, hr, hpath⟩ := Explorer.root_kept h
  exact Told.of_sound hup.sound hr hpath

/-- A root that was listed, with a directory in it that was not opened. -/
theorem build_told_listed :
    Told Explorer.afterListing.tree
      (build ⟨[.rootDir, .normal "r"], .unknown, [], false⟩ Explorer.afterListing.tree) := by
  have hspares : ∀ x id path entries, Explorer.Spares x (.expand id) ∧
      Explorer.Spares x (.listed id path entries) := fun _ _ _ _ => ⟨trivial, trivial⟩
  have hstart : Reach Explorer.step Explorer.Spares
      (fun x => x = Explorer.new [.rootDir, .normal "r"] "r")
      (Explorer.new [.rootDir, .normal "r"] "r") := .start rfl
  have hexpanded := hstart.next (hspares _ ⟨0⟩ [] []).1 rfl
  exact build_told (hexpanded.next (hspares _ ⟨0⟩ [.rootDir, .normal "r"]
    [⟨"a", [.rootDir, .normal "r", .normal "a"], .dir⟩]).2 rfl)

end Workspace

end Termesh
