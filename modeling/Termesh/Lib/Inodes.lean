import Mathlib.Tactic.Common

/-!
# A filesystem of numbered nodes

Directories hold entries, a name and a node number each; files and links are nodes of their own.

* `Node`, `Disk`, `Slot`: a node, all of them, and the place of one entry;
* `Disk.entry`, `Disk.isDir`, `Disk.isEmptyDir`, `Disk.above`: looking up;
* `Disk.link`, `Disk.unlink`, `Disk.reparent`, `Disk.alloc`: one node at a time;
* `Disk.create`, `Disk.rename`: an entry for a new node, and an entry that is moved;
* `Spares`: every entry but one is what it was, and so is every file; **`spares_create`**,
  **`spares_rename`**: where nothing is replaced;
* `Replaceable`, **`rename_onto_iff`**: when a target is replaced.
-/

namespace Inodes

/-- A node: names are `N`, the targets of links `L`. -/
inductive Node (N L : Type) where
  | file (contents : List UInt8)
  | symlink (target : L)
  | dir (parent : ℕ) (entries : List (N × ℕ))

/-- The nodes by number; the root is node 0. -/
structure Disk (N L : Type) where
  nodes : List (Node N L)

/-- The place of an entry: a directory and a name. -/
structure Slot (N : Type) where
  dir : ℕ
  name : N
deriving DecidableEq

inductive Errno where
  | noEntry
  | exists_
  | notADirectory
  | isADirectory
  | notEmpty
  | invalid
  | loop
deriving DecidableEq, Repr

variable {N L : Type}

namespace Disk

/-- The entries of a directory. -/
def entriesOf (d : Disk N L) (i : ℕ) : List (N × ℕ) :=
  match d.nodes[i]? with
  | some (.dir _ entries) => entries
  | _ => []

def isDir (d : Disk N L) (i : ℕ) : Bool :=
  match d.nodes[i]? with
  | some (.dir _ _) => true
  | _ => false

def isEmptyDir (d : Disk N L) (i : ℕ) : Bool := d.isDir i && (d.entriesOf i).isEmpty

/-- The directory a directory is in. -/
def parentOf (d : Disk N L) (i : ℕ) : ℕ :=
  match d.nodes[i]? with
  | some (.dir parent _) => parent
  | _ => i

/-- Whether node `i` is met on the way up from `j`. -/
def above (d : Disk N L) (i : ℕ) : ℕ → ℕ → Bool
  | 0, j => j = i
  | fuel + 1, j => j = i || d.above i fuel (d.parentOf j)

/-- Change the entries of a directory. -/
def edit (d : Disk N L) (i : ℕ) (f : List (N × ℕ) → List (N × ℕ)) : Disk N L :=
  match d.nodes[i]? with
  | some (.dir parent entries) => ⟨d.nodes.set i (.dir parent (f entries))⟩
  | _ => d

/-- A directory has come into another one. -/
def reparent (d : Disk N L) (i parent : ℕ) : Disk N L :=
  match d.nodes[i]? with
  | some (.dir _ entries) => ⟨d.nodes.set i (.dir parent entries)⟩
  | _ => d

/-- A new node, under the next number. -/
def alloc (d : Disk N L) (node : Node N L) : Disk N L := ⟨d.nodes ++ [node]⟩

/-- One more entry. -/
def link (d : Disk N L) (s : Slot N) (i : ℕ) : Disk N L := d.edit s.dir (· ++ [(s.name, i)])

variable [DecidableEq N]

/-- The node an entry leads to. -/
def entry (d : Disk N L) (s : Slot N) : Option ℕ :=
  ((d.entriesOf s.dir).find? (·.1 = s.name)).map (·.2)

/-- One entry less. -/
def unlink (d : Disk N L) (s : Slot N) : Disk N L := d.edit s.dir (·.filter (·.1 ≠ s.name))

/-- An entry for a new node, where there is none. -/
def create (d : Disk N L) (s : Slot N) (node : Node N L) : Except Errno (Disk N L) :=
  if (d.entry s).isSome then .error .exists_
  else .ok ((d.alloc node).link s d.nodes.length)

/-- Whether a node takes the place of another: a directory takes that of an empty directory, anything
else that of anything but a directory. -/
def replaces (d : Disk N L) (i j : ℕ) : Except Errno Unit :=
  if d.isDir i then
    if !d.isDir j then .error .notADirectory
    else if !d.isEmptyDir j then .error .notEmpty
    else .ok ()
  else if d.isDir j then .error .isADirectory
  else .ok ()

/-- The entry is taken out of its slot and put into another, in the place of what was there. -/
def move (d : Disk N L) (s s' : Slot N) (i : ℕ) : Disk N L :=
  (((d.unlink s').unlink s).link s' i).reparent i s'.dir

/-- `rename(2)` on the slots that the two paths lead to. Two links to one node are left alone. -/
def rename (d : Disk N L) (s s' : Slot N) : Except Errno (Disk N L) :=
  match d.entry s with
  | none => .error .noEntry
  | some i =>
    if s = s' then .ok d
    else if d.isDir i && d.above i d.nodes.length s'.dir then .error .invalid
    else
      match d.entry s' with
      | none => .ok (d.move s s' i)
      | some j =>
        if i = j then .ok d
        else (d.replaces i j).map fun _ => d.move s s' i

end Disk

/-! ## One node at a time -/

section Frames

variable (d : Disk N L) (i j p : ℕ) (node : Node N L) (f : List (N × ℕ) → List (N × ℕ))

theorem isDir_iff {d : Disk N L} {i : ℕ} :
    d.isDir i = true ↔ ∃ p es, d.nodes[i]? = some (.dir p es) := by
  unfold Disk.isDir
  split
  · rename_i p es h
    exact iff_of_true rfl ⟨p, es, h⟩
  · rename_i hno
    exact iff_of_false (by decide) fun ⟨p, es, h⟩ => hno p es h

theorem entriesOf_edit : (d.edit i f).entriesOf j =
    if j = i ∧ d.isDir i = true then f (d.entriesOf i) else d.entriesOf j := by
  unfold Disk.edit
  split
  · rename_i p es h
    have hdir : d.isDir i = true := isDir_iff.mpr ⟨p, es, h⟩
    obtain ⟨hlt, -⟩ := List.getElem?_eq_some_iff.mp h
    by_cases hj : j = i
    · rw [if_pos ⟨hj, hdir⟩, hj, Disk.entriesOf, Disk.entriesOf, List.getElem?_set_self hlt, h]
    · rw [if_neg fun hboth => hj hboth.1]
      simp [Disk.entriesOf, List.getElem?_set_ne (Ne.symm hj)]
  · rename_i hno
    rw [if_neg]
    rintro ⟨-, hdir⟩
    obtain ⟨p, es, h⟩ := isDir_iff.mp hdir
    exact hno p es h

theorem entriesOf_reparent : (d.reparent i p).entriesOf j = d.entriesOf j := by
  unfold Disk.reparent
  split
  · rename_i q es h
    obtain ⟨hlt, -⟩ := List.getElem?_eq_some_iff.mp h
    by_cases hj : j = i
    · rw [hj, Disk.entriesOf, Disk.entriesOf, List.getElem?_set_self hlt, h]
    · simp [Disk.entriesOf, List.getElem?_set_ne (Ne.symm hj)]
  · rfl

theorem entriesOf_alloc (hj : d.entriesOf j ≠ []) : (d.alloc node).entriesOf j = d.entriesOf j := by
  have hlt : j < d.nodes.length := by
    by_contra hlong
    rw [Disk.entriesOf, List.getElem?_eq_none (Nat.le_of_not_lt hlong)] at hj
    exact hj rfl
  rw [Disk.entriesOf, Disk.entriesOf, Disk.alloc, List.getElem?_append_left hlt]

variable {d i j}

theorem nodes_edit {node : Node N L} (h : d.nodes[j]? = some node) (hj : d.isDir j = false) :
    (d.edit i f).nodes[j]? = some node := by
  unfold Disk.edit
  split
  · rename_i p es hi
    have hne : i ≠ j := by
      rintro rfl
      rw [isDir_iff.mpr ⟨p, es, hi⟩] at hj
      cases hj
    rw [List.getElem?_set_ne hne, h]
  · exact h

theorem nodes_reparent {node : Node N L} (h : d.nodes[j]? = some node) (hj : d.isDir j = false) :
    (d.reparent i p).nodes[j]? = some node := by
  unfold Disk.reparent
  split
  · rename_i q es hi
    have hne : i ≠ j := by
      rintro rfl
      rw [isDir_iff.mpr ⟨q, es, hi⟩] at hj
      cases hj
    rw [List.getElem?_set_ne hne, h]
  · exact h

theorem nodes_alloc {node' : Node N L} (h : d.nodes[j]? = some node) :
    (d.alloc node').nodes[j]? = some node := by
  obtain ⟨hlt, -⟩ := List.getElem?_eq_some_iff.mp h
  rw [Disk.alloc, List.getElem?_append_left hlt, h]

end Frames

/-! ## What is left alone -/

variable [DecidableEq N]

/-- Every entry but one leads to the node it led to, and everything but a directory is what it was. -/
structure Spares (but : Option (Slot N)) (d d' : Disk N L) : Prop where
  entries : ∀ s i, but ≠ some s → d.entry s = some i → d'.entry s = some i
  nodes : ∀ i node, d.nodes[i]? = some node → d.isDir i = false → d'.nodes[i]? = some node

variable {d d' d₁ : Disk N L} {but : Option (Slot N)} {s s' : Slot N} {i j : ℕ}

theorem Spares.refl (but : Option (Slot N)) (d : Disk N L) : Spares but d d :=
  ⟨fun _ _ _ h => h, fun _ _ h _ => h⟩

theorem Spares.trans (h : Spares but d d₁) (h' : Spares but d₁ d') : Spares but d d' := by
  refine ⟨fun s i hs hi => h'.entries s i hs (h.entries s i hs hi), fun i node hi hdir => ?_⟩
  have hi' := h.nodes i node hi hdir
  refine h'.nodes i node hi' ?_
  unfold Disk.isDir at hdir ⊢
  rw [hi']
  rwa [hi] at hdir

theorem Spares.weaken (h : Spares none d d') (but : Option (Slot N)) : Spares but d d' :=
  ⟨fun s i _ hi => h.entries s i (Option.some_ne_none s).symm hi, h.nodes⟩

theorem spares_alloc (d : Disk N L) (node : Node N L) : Spares none d (d.alloc node) := by
  refine ⟨fun s i _ hi => ?_, fun i n hi _ => nodes_alloc n hi⟩
  have hne : d.entriesOf s.dir ≠ [] := by
    intro hnil
    rw [Disk.entry, hnil] at hi
    cases hi
  rw [Disk.entry, entriesOf_alloc d s.dir node hne]
  exact hi

theorem spares_link (d : Disk N L) (s : Slot N) (i : ℕ) : Spares none d (d.link s i) := by
  refine ⟨fun s' k _ hk => ?_, fun j node hj hdir => nodes_edit _ hj hdir⟩
  rw [Disk.entry, Disk.link, entriesOf_edit]
  split_ifs with hsame
  · rw [Disk.entry, hsame.1] at hk
    obtain ⟨e, he, hek⟩ := Option.map_eq_some_iff.mp hk
    rw [List.find?_append, he]
    exact congrArg some hek
  · exact hk

theorem spares_reparent (d : Disk N L) (i p : ℕ) : Spares none d (d.reparent i p) := by
  refine ⟨fun s k _ hk => ?_, fun j node hj hdir => nodes_reparent p hj hdir⟩
  rw [Disk.entry, entriesOf_reparent]
  exact hk

theorem entry_unlink (d : Disk N L) (h : s ≠ s') : (d.unlink s').entry s = d.entry s := by
  rw [Disk.entry, Disk.entry, Disk.unlink, entriesOf_edit]
  split_ifs with hsame
  · have hname : s.name ≠ s'.name := by
      intro hname
      obtain ⟨dir, name⟩ := s
      obtain ⟨dir', name'⟩ := s'
      exact h (Slot.mk.injEq .. ▸ ⟨hsame.1, hname⟩)
    rw [hsame.1, List.find?_filter]
    have hsee : (fun e : N × ℕ => decide (decide (e.1 ≠ s'.name) = true ∧
        decide (e.1 = s.name) = true)) = fun e => decide (e.1 = s.name) := by
      funext e
      by_cases he : e.1 = s.name
      · simp [he, hname]
      · simp [he]
    rw [hsee]
  · rfl

theorem spares_unlink (d : Disk N L) (s : Slot N) : Spares (some s) d (d.unlink s) :=
  ⟨fun _ _ hne hi => (entry_unlink d fun heq => hne (congrArg some heq.symm)).trans hi,
    fun _ _ hj hdir => nodes_edit _ hj hdir⟩

theorem spares_unlink_none (h : d.entry s = none) : Spares none d (d.unlink s) := by
  refine ⟨fun s' i _ hi => ?_, fun _ _ hj hdir => nodes_edit _ hj hdir⟩
  rw [entry_unlink d fun heq => ?_, hi]
  rw [heq, h] at hi
  cases hi

/-- **A new entry** costs nothing. -/
theorem spares_create {node : Node N L} (h : d.create s node = .ok d') : Spares none d d' := by
  unfold Disk.create at h
  split_ifs at h
  obtain rfl := Except.ok.inj h
  exact (spares_alloc d node).trans (spares_link _ s _)

/-! ## Renaming -/

/-- **An entry that moves to a free slot** costs nothing but its old slot. -/
theorem spares_rename (h : d.rename s s' = .ok d') (hfree : s = s' ∨ d.entry s' = none) :
    Spares (some s) d d' := by
  unfold Disk.rename at h
  split at h
  · cases h
  · rename_i i hi
    split_ifs at h with hsame hloop
    · rw [← Except.ok.inj h]
      exact .refl _ d
    · have hnone := hfree.resolve_left hsame
      rw [hnone] at h
      obtain rfl := Except.ok.inj h
      have hout := (spares_unlink_none hnone).weaken (some s)
      exact ((hout.trans (spares_unlink _ s)).trans ((spares_link _ s' i).weaken _)).trans
        ((spares_reparent _ i s'.dir).weaken _)

/-- The target is another entry than the source, and the kernel lets the source take its place. -/
def Replaceable (d : Disk N L) (s s' : Slot N) : Prop :=
  s ≠ s' ∧ ∃ i j, d.entry s = some i ∧ d.entry s' = some j ∧
    (d.isDir i = true → d.above i d.nodes.length s'.dir = false) ∧
    (i = j ∨ d.isDir i = false ∧ d.isDir j = false ∨ d.isDir i = true ∧ d.isEmptyDir j = true)

omit [DecidableEq N] in
theorem replaces_iff : d.replaces i j = .ok () ↔
    d.isDir i = false ∧ d.isDir j = false ∨ d.isDir i = true ∧ d.isEmptyDir j = true := by
  have hempty : d.isEmptyDir j = true → d.isDir j = true := by
    unfold Disk.isEmptyDir
    rw [Bool.and_eq_true]
    exact And.left
  unfold Disk.replaces
  cases hi : d.isDir i <;> cases hj : d.isDir j <;> cases he : d.isEmptyDir j <;> simp_all

/-- **A target that is there is renamed onto exactly when it can be replaced.** -/
theorem rename_onto_iff (hne : s ≠ s') (hthere : (d.entry s').isSome) :
    (∃ d', d.rename s s' = .ok d') ↔ Replaceable d s s' := by
  obtain ⟨j, hj⟩ := Option.isSome_iff_exists.mp hthere
  unfold Disk.rename Replaceable
  cases hi : d.entry s with
  | none => simp
  | some i =>
    dsimp only
    rw [if_neg hne, hj]
    by_cases hloop : (d.isDir i && d.above i d.nodes.length s'.dir) = true
    · rw [if_pos hloop]
      rw [Bool.and_eq_true] at hloop
      refine iff_of_false (fun h => by simp at h) ?_
      rintro ⟨-, i', j', hi', -, hno, -⟩
      obtain rfl := Option.some.inj hi'
      rw [hno hloop.1] at hloop
      exact absurd hloop.2 (by decide)
    · rw [if_neg hloop]
      have hno : d.isDir i = true → d.above i d.nodes.length s'.dir = false := by
        intro hdir
        rw [hdir, Bool.true_and] at hloop
        exact Bool.eq_false_iff.mpr hloop
      have hrhs : (s ≠ s' ∧ ∃ i' j', some i = some i' ∧ some j = some j' ∧
          (d.isDir i' = true → d.above i' d.nodes.length s'.dir = false) ∧
          (i' = j' ∨ d.isDir i' = false ∧ d.isDir j' = false ∨
            d.isDir i' = true ∧ d.isEmptyDir j' = true)) ↔
          i = j ∨ d.replaces i j = .ok () := by
        rw [replaces_iff]
        constructor
        · rintro ⟨-, i', j', hi', hj', -, hcase⟩
          rwa [Option.some.inj hi', Option.some.inj hj']
        · exact fun hcase => ⟨hne, i, j, rfl, rfl, hno, hcase⟩
      rw [hrhs]
      dsimp only
      split_ifs with hij
      · exact iff_of_true ⟨d, rfl⟩ (.inl hij)
      · rw [or_iff_right hij]
        cases hr : d.replaces i j with
        | error e => simp [Except.map]
        | ok u => simp [Except.map]

end Inodes
