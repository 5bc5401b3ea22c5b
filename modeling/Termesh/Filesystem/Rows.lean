import Termesh.Filesystem.Explorer
import Termesh.Lib.Splits

/-!
# The rows of the explorer

What the visible rows say of the tree behind them.

* **`row_parent`**: a row stands behind its parent's, with only deeper rows between;
* `Explorer.step_keeps`, **`Explorer.root_kept`**: the root stays where it was opened.
-/

namespace Termesh

namespace Filesystem

open Relation Forest Runs

namespace FileTree

variable {t : FileTree} {id : NodeId} {fuel depth : ℕ}

/-! ## Parents first -/

theorem rowsFrom_head {r : Row} {post : List Row} (h : t.rowsFrom fuel id depth = r :: post) :
    r = ⟨id, depth⟩ := by
  cases fuel with
  | zero => cases h
  | succ fuel =>
    rw [rowsFrom] at h
    split at h
    · cases h
    · exact (List.cons.inj h).1.symm

theorem rowsFrom_depth {r : Row} (hr : r ∈ t.rowsFrom fuel id depth) : depth ≤ r.depth := by
  induction fuel generalizing id depth with
  | zero => cases hr
  | succ fuel ih =>
    rw [rowsFrom] at hr
    split at hr
    · cases hr
    · rcases List.mem_cons.mp hr with rfl | hr
      · exact Nat.le_refl _
      · split_ifs at hr
        · obtain ⟨c, -, hr⟩ := List.mem_flatMap.mp hr
          exact Nat.le_of_succ_le (ih hr)
        · cases hr

/-- **A row stands behind its parent's**, and the rows between them are no higher than it is. -/
theorem row_parent {pre post : List Row} {r : Row}
    (h : t.rowsFrom fuel id depth = pre ++ r :: post) (hne : pre ≠ []) :
    ∃ above p between, pre = above ++ p :: between ∧ r.depth = p.depth + 1 ∧
      (∀ q ∈ between, r.depth ≤ q.depth) ∧ t.Open p.id ∧ r.id ∈ t.kids p.id := by
  induction fuel generalizing id depth pre post with
  | zero => cases pre <;> cases h
  | succ fuel ih =>
    rw [rowsFrom] at h
    split at h
    · cases pre <;> cases h
    · rename_i n hn
      obtain ⟨first, pre, rfl⟩ := List.exists_cons_of_ne_nil hne
      obtain ⟨rfl, hrest⟩ := List.cons.inj h
      split_ifs at hrest with hopen
      · obtain ⟨before, c, after, inner, post', hkids, hc, rfl⟩ := Splits.exists_of_flatMap hrest
        have hmem : c ∈ n.children.ids := hkids ▸ by simp
        by_cases hinner : inner = []
        · -- `r` is the first row of the child `c`
          subst hinner
          have hr : r = ⟨c, depth + 1⟩ := rowsFrom_head hc
          subst hr
          refine ⟨[], ⟨id, depth⟩, before.flatMap fun c => t.rowsFrom fuel c (depth + 1), by simp,
            rfl, fun q hq => ?_, ⟨n, hn, hopen⟩, mem_kids.mpr ⟨n, hn, hmem⟩⟩
          obtain ⟨b, -, hq⟩ := List.mem_flatMap.mp hq
          exact rowsFrom_depth hq
        · obtain ⟨above, p, between, rfl, hdepth, hbetween, hp, hkid⟩ := ih hc hinner
          exact ⟨⟨id, depth⟩ :: (before.flatMap fun c => t.rowsFrom fuel c (depth + 1)) ++ above, p,
            between, by simp, hdepth, hbetween, hp, hkid⟩
      · cases pre <;> cases hrest

/-! ## Paths and depths -/

theorem Sound.row_path (h : t.Sound) {n : Node} (hn : t.node id = some n) {r : Row}
    (hr : r ∈ t.rowsFrom fuel id depth) :
    ∃ (m : Node) (names : List String), t.node r.id = some m ∧
      m.path = n.path ++ names.map .normal ∧ r.depth = depth + names.length := by
  induction fuel generalizing id depth n with
  | zero => cases hr
  | succ fuel ih =>
    rw [rowsFrom, hn] at hr
    rcases List.mem_cons.mp hr with rfl | hr
    · exact ⟨n, [], hn, by simp, rfl⟩
    · split_ifs at hr
      · obtain ⟨c, hc, hr⟩ := List.mem_flatMap.mp hr
        have hkid : c ∈ t.kids id := mem_kids.mpr ⟨n, hn, hc⟩
        obtain ⟨k, hk⟩ := live_iff.mp (h.tree.child_live hkid)
        obtain ⟨q, hq, -, hpath⟩ := h.path hkid hk
        obtain rfl : n = q := Option.some.inj (hn.symm.trans hq)
        obtain ⟨m, names, hm, hmpath, hdepth⟩ := ih hk hr
        refine ⟨m, k.name :: names, hm, by simp [hmpath, hpath], ?_⟩
        rw [hdepth, List.length_cons]
        omega
      · cases hr

theorem Sound.rows_nodup (h : t.Sound) (hlive : t.Live id) :
    ((t.rowsFrom fuel id depth).map Row.id).Nodup := by
  induction fuel generalizing id depth with
  | zero => exact List.nodup_nil
  | succ fuel ih =>
    obtain ⟨n, hn⟩ := live_iff.mp hlive
    have hkid : ∀ c ∈ n.children.ids, c ∈ t.kids id := fun c hc => mem_kids.mpr ⟨n, hn, hc⟩
    have hbelow : ∀ {i c : NodeId}, i ∈ (t.rowsFrom fuel c (depth + 1)).map Row.id →
        Below t.kids c i := fun hi =>
      (through_of_mem_rows hi).lift (fun i => i) fun _ _ hstep => hstep.2
    rw [rowsFrom, hn]
    dsimp only
    split_ifs
    · rw [List.map_cons, List.map_flatMap, List.nodup_cons]
      refine ⟨fun hmem => ?_, List.nodup_flatMap.mpr ⟨fun c hc => ?_, ?_⟩⟩
      · obtain ⟨c, hc, hi⟩ := List.mem_flatMap.mp hmem
        exact h.tree.acyclic hlive (TransGen.head' (hkid c hc) (hbelow hi))
      · exact ih (h.tree.child_live (hkid c hc))
      · have hnodup : n.children.ids.Nodup := by
          have := h.tree.nodup id
          rwa [kids, hn] at this
        refine hnodup.imp_of_mem fun {c d} hc hd hne => ?_
        intro i hi hi'
        exact hne (h.tree.siblings (hkid c hc) (hkid d hd) (hbelow hi) (hbelow hi'))
    · simp

theorem Sound.visibleRows_eq (h : t.Sound) :
    ∃ rows, t.visibleRows = ⟨t.root, 0⟩ :: rows ∧ ∀ r ∈ rows, r.id ≠ t.root := by
  have hnodup : (t.visibleRows.map Row.id).Nodup := h.rows_nodup h.tree.root_live
  have hmem : t.root ∈ t.visibleRows.map Row.id := h.mem_rows_iff.mpr .refl
  cases hrows : t.visibleRows with
  | nil => simp [hrows] at hmem
  | cons r rows =>
    obtain rfl := rowsFrom_head hrows
    rw [hrows, List.map_cons, List.nodup_cons] at hnodup
    exact ⟨rows, rfl, fun r hr he => hnodup.1 (List.mem_map.mpr ⟨r, hr, he⟩)⟩

/-! ## The root -/

theorem beginLoad_root (t : FileTree) (id : NodeId) : (t.beginLoad id).1.root = t.root := by
  unfold FileTree.beginLoad
  split
  · rfl
  · split_ifs
    · rfl
    · split <;> simp [root_modify]

theorem expand_root (t : FileTree) (id : NodeId) : (t.expand id).1.root = t.root := by
  unfold FileTree.expand
  split
  · rfl
  · split_ifs
    · rfl
    · rw [beginLoad_root, root_modify]

theorem toggle_root (t : FileTree) (id : NodeId) : (t.toggle id).1.root = t.root := by
  unfold FileTree.toggle
  split
  · rfl
  · split_ifs
    · exact root_modify _ _ _
    · exact expand_root t id
    · rfl

theorem moveSelection_root (t : FileTree) (delta : Int) :
    (t.moveSelection delta).root = t.root := by
  unfold FileTree.moveSelection
  dsimp only
  split <;> rfl

theorem collapseOrParent_root (t : FileTree) : t.collapseOrParent.root = t.root := by
  unfold FileTree.collapseOrParent
  split
  · rfl
  · split_ifs
    · exact root_modify _ _ _
    · split <;> rfl

theorem Sound.setChildren_root (h : t.Sound) {entries : List DirEntryInfo}
    (hdir : ∀ n, t.node id = some n → n.kind = .dir ∧ IsListing n.path entries) :
    (t.setChildren id entries).root = t.root := by
  cases hid : t.node id with
  | none => rw [FileTree.setChildren, hid]
  | some parent =>
    obtain ⟨fresh, new, kept, -, heq⟩ := h.listed hid (hdir parent hid).1 (hdir parent hid).2
    rw [heq]
    split_ifs <;> exact relist_root ..

end FileTree

namespace Explorer

open FileTree

variable {x x' : Explorer} {mv : Move}

/-- What one move keeps of every entry, and of the root. -/
theorem step_keeps (h : x.Upright) (hs : x.Spares mv) (hstep : x.step mv = some x') :
    x.tree.Keeps x'.tree ∧ x'.tree.root = x.tree.root := by
  cases mv with
  | expand id =>
    exact Option.some.inj hstep ▸ ⟨keeps_of_core expand_asks.1, expand_root _ _⟩
  | toggle => exact Option.some.inj hstep ▸ ⟨keeps_of_core toggle_asks.1, toggle_root _ _⟩
  | collapse =>
    exact Option.some.inj hstep ▸
      ⟨keeps_of_core (FileTree.modify_core fun _ _ => rfl), root_modify _ _ _⟩
  | selectNext | selectPrev =>
    exact Option.some.inj hstep ▸
      ⟨keeps_of_core (congrArg _ (moveSelection_nodes x.tree _)), moveSelection_root _ _⟩
  | collapseOrParent =>
    exact Option.some.inj hstep ▸
      ⟨keeps_of_core (collapseOrParent_core x.tree), collapseOrParent_root _⟩
  | changed | reload => exact Option.some.inj hstep ▸ ⟨keeps_of_core rfl, rfl⟩
  | listed id path entries =>
    rw [step] at hstep
    split_ifs at hstep with hlisting
    obtain ⟨n, hn, hkind, hpath⟩ := h.reads (id, path) hlisting.1
    have hdir : ∀ m, x.tree.node id = some m → m.kind = .dir ∧ IsListing m.path entries := by
      intro m hm
      obtain rfl : n = m := Option.some.inj (hn.symm.trans (FileTree.node_some.mp hm).1)
      exact ⟨hkind, hpath ▸ hlisting.2⟩
    exact Option.some.inj hstep ▸ ⟨h.sound.setChildren_keeps hdir, h.sound.setChildren_root hdir⟩
  | failed id error =>
    have hids : x.tree.kids id = [] := hs
    refine Option.some.inj hstep ▸ ⟨keeps_of_core (FileTree.modify_core fun n hn => ?_),
      root_modify _ _ _⟩
    rw [FileTree.kids, hn, Option.map_some, Option.getD_some] at hids
    rw [Node.core, Node.core, hids]
    rfl

/-- **The root stays where it was opened.** -/
theorem root_kept {rootPath : Path} {displayName : String}
    (h : Reach step Spares (fun x => x = new rootPath displayName) x) :
    x.Upright ∧ ∃ n, x.tree.node x.tree.root = some n ∧ n.path = rootPath := by
  have hinv : x.Upright ∧ x.tree.root = ⟨0⟩ ∧
      ∃ n, x.tree.nodes[0]? = some n ∧ n.path = rootPath := by
    induction h with
    | start hx =>
      rw [hx]
      exact ⟨upright_new rootPath displayName, rfl, _, rfl, rfl⟩
    | next _ hok hs ih =>
      obtain ⟨hup, hroot, n, hn, hpath⟩ := ih
      obtain ⟨hkeeps, hroot'⟩ := step_keeps hup hok hs
      obtain ⟨n', hn', htag⟩ := hkeeps 0 n hn
      exact ⟨step_upright hup hok hs, hroot'.trans hroot, n', hn',
        (tag_inj htag).2.2.2.1.trans hpath⟩
  obtain ⟨hup, hroot, n, hn, hpath⟩ := hinv
  obtain ⟨m, hm⟩ := live_iff.mp hup.sound.tree.root_live
  refine ⟨hup, m, hm, ?_⟩
  rw [node_some, hroot] at hm
  rw [← hpath, Option.some.inj (hm.1.symm.trans hn)]

end Explorer

end Filesystem

end Termesh
