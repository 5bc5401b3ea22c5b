import Termesh.Core.Fs
import Termesh.Lib.Table

/-!
# The explorer's tree

Nodes are an arena that only grows; a node's id is its place in it. What vanishes from disk is
marked dead and stays, so that an id is never given to another entry.

* `Node`, `ChildState`, `FileTree`: the arena with its root and its selection;
* `beginLoad`, `expand`, `toggle`, `setError`: what a node holds of its directory;
* `setChildren`: a listing, reconciled with the nodes that are there;
* `visibleRows`, `findByPath`, `dirsToRefresh`, `loadedDirectories`: what is read off the tree;
* `selectNext`, `selectPrev`, `collapseOrParent`: moving the selection.

Rows are kept without the text drawn in them.
-/

namespace Termesh

open Tables

namespace Filesystem

/-- How much of a directory's contents is held. -/
inductive ChildState where
  | unloaded
  | loading
  | loaded (ids : List NodeId)
  | error (error : FsError)
deriving DecidableEq, Repr

/-- An entry of the tree; one that is gone stays, not alive. -/
structure Node where
  id : NodeId
  parent : Option NodeId
  name : String
  path : Path
  kind : EntryKind
  expanded : Bool
  children : ChildState
  /-- Whether the entry is still on disk. -/
  alive : Bool
deriving DecidableEq, Repr

/-- Directories can be expanded. -/
def Node.isExpandable (n : Node) : Bool := n.kind = .dir

/-- The child list, if it is loaded. -/
def ChildState.ids : ChildState → List NodeId
  | loaded ids => ids
  | _ => []

/-- The child list is loaded. -/
def ChildState.isLoaded : ChildState → Bool
  | loaded _ => true
  | _ => false

/-- A line of the visible tree. -/
structure Row where
  id : NodeId
  depth : ℕ
deriving DecidableEq, Repr

/-- The nodes, by their ids, and the state of the explorer. -/
structure FileTree where
  nodes : List Node
  root : NodeId
  selected : NodeId
deriving DecidableEq, Repr

namespace FileTree

/-- A tree of the root directory only, collapsed and unloaded. -/
def new (rootPath : Path) (displayName : String) : FileTree where
  nodes := [{
    id := ⟨0⟩, parent := none, name := displayName, path := rootPath, kind := .dir
    expanded := false, children := .unloaded, alive := true }]
  root := ⟨0⟩
  selected := ⟨0⟩

/-- The live node of an id. -/
def node (t : FileTree) (id : NodeId) : Option Node := (t.nodes[id.val]?).filter (·.alive)

/-- Change a live node: `node_mut`. -/
def modify (t : FileTree) (id : NodeId) (f : Node → Node) : FileTree :=
  if (t.node id).isSome then { t with nodes := t.nodes.modify id.val f } else t

/-! ## Loading -/

/-- Mark a directory as awaiting a read, and the path to list. -/
def beginLoad (t : FileTree) (id : NodeId) : FileTree × Option Path :=
  match t.node id with
  | none => (t, none)
  | some n =>
    if n.kind ≠ .dir then (t, none)
    else
      match n.children with
      | .unloaded | .error _ => (t.modify id fun n => { n with children := .loading }, some n.path)
      | .loading | .loaded _ => (t, none)

/-- A directory is expanded, and read first if it was not. -/
def expand (t : FileTree) (id : NodeId) : FileTree × Option Path :=
  match t.node id with
  | none => (t, none)
  | some n =>
    if n.kind ≠ .dir then (t, none)
    else (t.modify id fun n => { n with expanded := true }).beginLoad id

/-- A directory is collapsed; what is known of it stays. -/
def collapse (t : FileTree) (id : NodeId) : FileTree :=
  t.modify id fun n => { n with expanded := false }

/-- A directory is expanded or collapsed. -/
def toggle (t : FileTree) (id : NodeId) : FileTree × Option Path :=
  match t.node id with
  | none => (t, none)
  | some n =>
    if n.isExpandable && n.expanded then (t.collapse id, none)
    else if n.isExpandable then t.expand id
    else (t, none)

/-- Record a failed read against its node. -/
def setError (t : FileTree) (id : NodeId) (error : FsError) : FileTree :=
  t.modify id fun n => { n with children := .error error }

/-! ## Listings -/

/-- A node for an entry of a listing. -/
def pushNode (t : FileTree) (parent : Option NodeId) (entry : DirEntryInfo) : NodeId × FileTree :=
  let id : NodeId := ⟨t.nodes.length⟩
  (id, { t with nodes := t.nodes ++ [{
    id, parent, name := entry.name, path := entry.path, kind := entry.kind
    expanded := false, children := .unloaded, alive := true }] })

/-- The loop of `kill_subtree`. The fuel is enough for any tree. -/
def killLoop : ℕ → List NodeId → List Node → List Node
  | 0, _, nodes => nodes
  | _ + 1, [], nodes => nodes
  | fuel + 1, cur :: stack, nodes =>
    match nodes[cur.val]? with
    | none => killLoop fuel stack nodes
    | some n =>
      killLoop fuel (n.children.ids.reverse ++ stack)
        (nodes.modify cur.val fun n => { n with alive := false })

/-- Mark a node and everything beneath it dead. -/
def killSubtree (t : FileTree) (id : NodeId) : FileTree :=
  { t with nodes := killLoop t.nodes.length [id] t.nodes }

/-- Climb to a live node. -/
def nearestLiveAncestor (t : FileTree) : ℕ → NodeId → NodeId
  | 0, _ => t.root
  | fuel + 1, id =>
    if (t.node id).isSome then id
    else
      match (t.nodes[id.val]?).bind (·.parent) with
      | some parent => nearestLiveAncestor t fuel parent
      | none => t.root

/-- The live children by name. -/
def existing (t : FileTree) (parent : Node) : Table String NodeId :=
  Table.ofPairs
    (parent.children.ids.filterMap fun cid => (t.node cid).map fun n => (n.name, cid))

/-- The entries of a listing in turn: the new child list, and the nodes kept in it. -/
def absorb (id : NodeId) (existing : Table String NodeId) :
    FileTree → List DirEntryInfo → FileTree × List NodeId × List NodeId
  | t, [] => (t, [], [])
  | t, entry :: entries =>
    match (existing.lookup entry.name).filter fun cid =>
        (t.node cid).map (·.kind) = some entry.kind with
    | some cid =>
      let (t, new, kept) :=
        absorb id existing (t.modify cid fun n => { n with path := entry.path }) entries
      (t, cid :: new, cid :: kept)
    | none =>
      let (cid, t) := t.pushNode (some id) entry
      let (t, new, kept) := absorb id existing t entries
      (t, cid :: new, kept)

/-- Absorb a listing: entries matched by name and kind keep their nodes, and the rest of what was
there is gone. -/
def setChildren (t : FileTree) (id : NodeId) (entries : List DirEntryInfo) : FileTree :=
  match t.node id with
  | none => t
  | some parent =>
    let existing := t.existing parent
    let (t, new, kept) := absorb id existing t entries
    let gone := (existing.entries.map Sigma.snd).filter fun cid => cid ∉ kept
    let t := gone.foldl killSubtree t
    let t := t.modify id fun n => { n with children := .loaded new }
    if (t.node t.selected).isNone then
      { t with selected := t.nearestLiveAncestor (t.nodes.length + 1) id }
    else t

/-! ## Reading the tree -/

/-- The rows of a node and of what is visible below it. -/
def rowsFrom (t : FileTree) : ℕ → NodeId → ℕ → List Row
  | 0, _, _ => []
  | fuel + 1, id, depth =>
    match t.node id with
    | none => []
    | some n =>
      ⟨id, depth⟩ ::
        if n.expanded then n.children.ids.flatMap fun child => rowsFrom t fuel child (depth + 1)
        else []

/-- The expanded tree in render order. -/
def visibleRows (t : FileTree) : List Row := t.rowsFrom t.nodes.length t.root 0

/-- The live node of a path. -/
def findByPath (t : FileTree) (path : Path) : Option NodeId :=
  (t.nodes.find? fun n => n.alive && n.path = path).map (·.id)

/-- The children of the node are known. -/
def isLoadedDir (t : FileTree) (id : NodeId) : Bool :=
  (t.node id).any fun n => n.children.isLoaded

/-- The loaded directories that changed paths are in, each once. -/
def dirsToRefresh (t : FileTree) (changed : List Path) : List NodeId :=
  changed.foldl (fun out path =>
    let itself := (t.findByPath path).filter t.isLoadedDir
    let candidate := (itself <|> path.parent.bind t.findByPath).filter t.isLoadedDir
    match candidate with
    | some id => if id ∈ out then out else out ++ [id]
    | none => out) []

/-- The directories to read again. -/
def loadedDirectories (t : FileTree) : List (NodeId × Path) :=
  (t.nodes.filter fun n => n.alive && n.kind = .dir && n.children.isLoaded).map fun n =>
    (n.id, n.path)

/-- The path to list again, if the node is a directory. -/
def refresh (t : FileTree) (id : NodeId) : Option Path :=
  ((t.node id).filter fun n => n.kind = .dir).map (·.path)

/-! ## Selection -/

/-- Step through the visible rows, stopping at the ends. -/
def moveSelection (t : FileTree) (delta : Int) : FileTree :=
  let rows := t.visibleRows
  let cur := (rows.findIdx? fun r => r.id = t.selected).getD 0
  let next := (min (max (cur + delta) 0) ((rows.length : Int) - 1)).toNat
  match rows[next]? with
  | some row => { t with selected := row.id }
  | none => t

/-- One row down. -/
def selectNext (t : FileTree) : FileTree := t.moveSelection 1

/-- One row up. -/
def selectPrev (t : FileTree) : FileTree := t.moveSelection (-1)

/-- Collapse the selection, or step to its parent. -/
def collapseOrParent (t : FileTree) : FileTree :=
  match t.node t.selected with
  | none => t
  | some n =>
    if n.isExpandable && n.expanded then t.collapse n.id
    else
      match n.parent with
      | some parent => { t with selected := parent }
      | none => t

end FileTree

end Filesystem

end Termesh
