import Mathlib.Data.List.Pairwise
import Termesh.Filesystem.Ignore

/-!
# The root of a workspace

Where a project starts, looked for from a path upwards, and what kinds of project it is.

* `ProjectKind`, `WorkspaceRoot`: a root and every kind it matches;
* `detectRoot`, `projectKindOf`: the walk upwards, and one directory alone;
* `Marked`, `Bare`: directories that hold a marker, and that can be read and hold none;
* **`detectRoot_nearest`**: the nearest marked directory, and its kinds by their priority.
-/

namespace Termesh

namespace Path

/-- The path and what is above it, as far as `fuel` parents. -/
def ancestorsFrom : ℕ → Path → List Path
  | 0, p => [p]
  | fuel + 1, p =>
    p :: match p.parent with
      | some above => ancestorsFrom fuel above
      | none => []

/-- `Path::ancestors`. -/
def ancestors (p : Path) : List Path := ancestorsFrom p.length p

theorem exists_ancestors (p : Path) : ∃ above, p.ancestors = p :: above := by
  unfold ancestors
  cases p.length <;> exact ⟨_, rfl⟩

end Path

namespace Workspace

open Filesystem (FileSystemService)

/-- The kinds of projects. -/
inductive ProjectKind where
  | rust
  | java
  | node
  | python
  | go
  | unknown
deriving DecidableEq, Repr

/-- Marker files with what they tell, in priority order. -/
def projectMarkers : List (String × ProjectKind) :=
  [("Cargo.toml", .rust), ("pom.xml", .java), ("build.gradle", .java), ("build.gradle.kts", .java),
    ("settings.gradle", .java), ("settings.gradle.kts", .java), ("go.mod", .go),
    ("pyproject.toml", .python), ("package.json", .node)]

/-- A root, but of no kind. -/
def vcsMarker : String := ".git"

/-- A root, and what it was detected by. -/
structure WorkspaceRoot where
  path : Path
  /-- The first of the kinds. -/
  kind : ProjectKind
  kinds : List ProjectKind
  /-- Whether a marker was found. -/
  detected : Bool
deriving DecidableEq, Repr

/-- A directory holds an entry of this name. -/
def has (entries : List DirEntryInfo) (name : String) : Bool := entries.any fun e => e.name = name

/-- `retain` with the kinds seen so far: the first of each is kept. -/
def retainFirst : List ProjectKind → List ProjectKind → List ProjectKind
  | _, [] => []
  | seen, kind :: kinds =>
    if kind ∈ seen then retainFirst seen kinds else kind :: retainFirst (seen ++ [kind]) kinds

/-- The kinds of a directory. -/
def kindsIn (entries : List DirEntryInfo) : List ProjectKind :=
  retainFirst [] ((projectMarkers.filter fun marker => has entries marker.1).map Prod.snd)

/-- The directory as a root, if it holds a marker. -/
def markedRoot (dir : Path) (entries : List DirEntryInfo) : Option WorkspaceRoot :=
  match (kindsIn entries).head? with
  | some kind => some ⟨dir, kind, kindsIn entries, true⟩
  | none => if has entries vcsMarker then some ⟨dir, .unknown, [], true⟩ else none

/-- The walk of `detect_root`. A directory that cannot be read ends it. -/
def climb (fs : FileSystemService) : List Path → Option WorkspaceRoot
  | [] => none
  | dir :: above =>
    match fs.readDir dir with
    | .error _ => none
    | .ok entries =>
      match markedRoot dir entries with
      | some root => some root
      | none => climb fs above

variable (canonicalize : Path → Except FsError Path) (fs : FileSystemService)

/-- The path resolved, or as it is. -/
def resolved (start : Path) : Path :=
  match canonicalize start with
  | .ok path => path
  | .error _ => start

/-- The root of a place. -/
def detectRoot (start : Path) : WorkspaceRoot :=
  match climb fs (resolved canonicalize start).ancestors with
  | some root => root
  | none => ⟨resolved canonicalize start, .unknown, [], false⟩

/-- The kind of one directory, without walking up. -/
def projectKindOf (dir : Path) : Except FsError ProjectKind :=
  match fs.readDir dir with
  | .error e => .error e
  | .ok entries =>
    .ok (((projectMarkers.find? fun marker => has entries marker.1).map Prod.snd).getD .unknown)

/-! ## Kinds -/

/-- The place of a kind's first marker. -/
def rank (kind : ProjectKind) : ℕ := projectMarkers.findIdx fun marker => marker.2 = kind

theorem rank_injective : ∀ a ∈ projectMarkers, ∀ b ∈ projectMarkers, rank a.2 = rank b.2 →
    a.2 = b.2 := by
  decide

theorem markers_ordered : projectMarkers.Pairwise fun a b => rank a.2 ≤ rank b.2 := by decide

theorem mem_retainFirst {seen kinds : List ProjectKind} {kind : ProjectKind} :
    kind ∈ retainFirst seen kinds ↔ kind ∈ kinds ∧ kind ∉ seen := by
  induction kinds generalizing seen with
  | nil => simp [retainFirst]
  | cons k kinds ih =>
    rw [retainFirst]
    split_ifs with hk
    · rw [ih, List.mem_cons]
      grind
    · rw [List.mem_cons, List.mem_cons, ih, List.mem_append, List.mem_singleton]
      grind

theorem retainFirst_sublist (seen kinds : List ProjectKind) :
    (retainFirst seen kinds).Sublist kinds := by
  induction kinds generalizing seen with
  | nil => exact List.Sublist.refl _
  | cons k kinds ih =>
    rw [retainFirst]
    split_ifs
    · exact (ih seen).cons k
    · exact (ih _).cons_cons k

theorem nodup_retainFirst (seen kinds : List ProjectKind) : (retainFirst seen kinds).Nodup := by
  induction kinds generalizing seen with
  | nil => exact List.nodup_nil
  | cons k kinds ih =>
    rw [retainFirst]
    split_ifs
    · exact ih seen
    · refine List.nodup_cons.mpr ⟨fun hmem => ?_, ih _⟩
      exact (mem_retainFirst.mp hmem).2 (by simp)

variable {entries : List DirEntryInfo} {dir : Path} {root : WorkspaceRoot}

/-- **A directory is of the kinds that it holds a marker of.** -/
theorem mem_kindsIn {kind : ProjectKind} :
    kind ∈ kindsIn entries ↔ ∃ name, (name, kind) ∈ projectMarkers ∧ has entries name = true := by
  rw [kindsIn, mem_retainFirst, List.mem_map]
  constructor
  · rintro ⟨⟨⟨name, k⟩, hmem, rfl⟩, -⟩
    obtain ⟨hmem, hhas⟩ := List.mem_filter.mp hmem
    exact ⟨name, hmem, hhas⟩
  · rintro ⟨name, hmem, hhas⟩
    exact ⟨⟨(name, kind), List.mem_filter.mpr ⟨hmem, hhas⟩, rfl⟩, List.not_mem_nil⟩

theorem kindsIn_ordered : (kindsIn entries).Pairwise fun a b => rank a < rank b := by
  have hle : (kindsIn entries).Pairwise fun a b => rank a ≤ rank b := by
    refine List.Pairwise.sublist (retainFirst_sublist _ _) ?_
    rw [List.pairwise_map]
    exact markers_ordered.filter _
  refine List.Pairwise.imp_of_mem (fun {a b} ha hb h => ?_) (hle.and (nodup_retainFirst [] _))
  obtain ⟨n, hn, -⟩ := mem_kindsIn.mp ha
  obtain ⟨m, hm, -⟩ := mem_kindsIn.mp hb
  exact Nat.lt_of_le_of_ne h.1 fun he => h.2 (rank_injective _ hn _ hm he)

theorem head_kindsIn :
    (kindsIn entries).head? =
      (projectMarkers.find? fun marker => has entries marker.1).map Prod.snd := by
  rw [kindsIn, ← List.head?_filter, ← List.head?_map]
  cases (projectMarkers.filter fun marker => has entries marker.1).map Prod.snd with
  | nil => rfl
  | cons kind kinds => simp [retainFirst]

/-! ## The walk -/

/-- The directory can be read, and it holds a marker. -/
def Marked (dir : Path) : Prop :=
  ∃ entries, fs.readDir dir = .ok entries ∧
    (vcsMarker :: projectMarkers.map Prod.fst).any (has entries) = true

/-- The directory can be read, and it holds none. -/
def Bare (dir : Path) : Prop :=
  ∃ entries, fs.readDir dir = .ok entries ∧
    (vcsMarker :: projectMarkers.map Prod.fst).any (has entries) = false

theorem markedRoot_none :
    markedRoot dir entries = none ↔
      (vcsMarker :: projectMarkers.map Prod.fst).any (has entries) = false := by
  have hkinds : (kindsIn entries).head? = none ↔
      (projectMarkers.map Prod.fst).any (has entries) = false := by
    rw [head_kindsIn, Option.map_eq_none_iff, List.find?_eq_none, List.any_eq_false,
      List.forall_mem_map]
  rw [markedRoot, List.any_cons, Bool.or_eq_false_iff, ← hkinds]
  cases (kindsIn entries).head? with
  | some kind => simp
  | none => cases has entries vcsMarker <;> simp

theorem markedRoot_some (h : markedRoot dir entries = some root) :
    root.path = dir ∧ root.detected = true ∧ root.kinds = kindsIn entries ∧
      root.kind = (kindsIn entries).head?.getD .unknown := by
  rw [markedRoot] at h
  cases hhead : (kindsIn entries).head? with
  | some kind =>
    rw [hhead] at h
    obtain rfl := Option.some.inj h
    exact ⟨rfl, rfl, rfl, rfl⟩
  | none =>
    rw [hhead] at h
    dsimp only at h
    split_ifs at h
    obtain rfl := Option.some.inj h
    exact ⟨rfl, rfl, (List.head?_eq_none_iff.mp hhead).symm, rfl⟩

/-- **The walk finds the first marked directory behind bare ones.** -/
theorem climb_some {dirs : List Path} (h : climb fs dirs = some root) :
    ∃ closer dir farther entries, dirs = closer ++ dir :: farther ∧ (∀ d ∈ closer, Bare fs d) ∧
      fs.readDir dir = .ok entries ∧ markedRoot dir entries = some root := by
  induction dirs with
  | nil => cases h
  | cons dir above ih =>
    rw [climb] at h
    split at h
    · cases h
    · rename_i entries hread
      split at h
      · rename_i r hroot
        obtain rfl := Option.some.inj h
        exact ⟨[], dir, above, entries, rfl, by simp, hread, hroot⟩
      · rename_i hnone
        obtain ⟨closer, d, farther, found, rfl, hcloser, hd, hroot⟩ := ih h
        refine ⟨dir :: closer, d, farther, found, rfl, ?_, hd, hroot⟩
        exact List.forall_mem_cons.mpr ⟨⟨entries, hread, markedRoot_none.mp hnone⟩, hcloser⟩

theorem climb_of_marked {closer farther : List Path} {dir : Path} (h : ∀ d ∈ closer, Bare fs d)
    (hdir : Marked fs dir) : (climb fs (closer ++ dir :: farther)).isSome = true := by
  induction closer with
  | nil =>
    obtain ⟨entries, hread, hmarked⟩ := hdir
    rw [List.nil_append, climb, hread]
    dsimp only
    cases hroot : markedRoot dir entries with
    | some root => rfl
    | none => simp [markedRoot_none.mp hroot] at hmarked
  | cons d closer ih =>
    obtain ⟨⟨entries, hread, hbare⟩, hcloser⟩ := List.forall_mem_cons.mp h
    rw [List.cons_append, climb, hread]
    dsimp only
    rw [markedRoot_none.mpr hbare]
    exact ih hcloser

/-- **The root is the nearest marked directory that bare ones lead to**, or else where the walk
started. Its kinds are those of its markers by their priority, each once; the first one is what the
directory alone would be taken for; and the root of the root is itself. -/
theorem detectRoot_nearest (start : Path) :
    ((detectRoot canonicalize fs start).detected = true ↔ ∃ closer dir farther,
      (resolved canonicalize start).ancestors = closer ++ dir :: farther ∧
        (∀ d ∈ closer, Bare fs d) ∧ Marked fs dir) ∧
    ((detectRoot canonicalize fs start).detected = true → ∃ closer farther entries,
      (resolved canonicalize start).ancestors =
        closer ++ (detectRoot canonicalize fs start).path :: farther ∧
      (∀ d ∈ closer, Bare fs d) ∧ Marked fs (detectRoot canonicalize fs start).path ∧
      fs.readDir (detectRoot canonicalize fs start).path = .ok entries ∧
      (∀ kind, kind ∈ (detectRoot canonicalize fs start).kinds ↔
        ∃ name, (name, kind) ∈ projectMarkers ∧ name ∈ entries.map DirEntryInfo.name) ∧
      projectKindOf fs (detectRoot canonicalize fs start).path =
        .ok (detectRoot canonicalize fs start).kind) ∧
    ((detectRoot canonicalize fs start).detected = false →
      (detectRoot canonicalize fs start).path = resolved canonicalize start ∧
        (detectRoot canonicalize fs start).kinds = []) ∧
    (detectRoot canonicalize fs start).kinds.Pairwise (fun a b => rank a < rank b) ∧
    (detectRoot canonicalize fs start).kind =
      (detectRoot canonicalize fs start).kinds.head?.getD .unknown ∧
    ∀ canonicalize' : Path → Except FsError Path,
      resolved canonicalize' (detectRoot canonicalize fs start).path =
        (detectRoot canonicalize fs start).path →
      detectRoot canonicalize' fs (detectRoot canonicalize fs start).path =
        detectRoot canonicalize fs start := by
  cases hclimb : climb fs (resolved canonicalize start).ancestors with
  | none =>
    have hroot : detectRoot canonicalize fs start =
        ⟨resolved canonicalize start, .unknown, [], false⟩ := by rw [detectRoot, hclimb]
    rw [hroot]
    refine ⟨⟨fun h => absurd h Bool.false_ne_true, ?_⟩, fun h => absurd h Bool.false_ne_true,
      fun _ => ⟨rfl, rfl⟩, List.Pairwise.nil, rfl, fun canonicalize' hsame => ?_⟩
    · rintro ⟨closer, dir, farther, hdirs, hcloser, hdir⟩
      have hsome : (climb fs (closer ++ dir :: farther)).isSome = true :=
        climb_of_marked fs hcloser hdir
      rw [← hdirs, hclimb] at hsome
      cases hsome
    · rw [detectRoot, hsame, hclimb]
  | some root =>
    have hroot : detectRoot canonicalize fs start = root := by rw [detectRoot, hclimb]
    obtain ⟨closer, dir, farther, entries, hdirs, hcloser, hread, hmarked⟩ := climb_some fs hclimb
    obtain ⟨hpath, hdetected, hkinds, hkind⟩ := markedRoot_some hmarked
    have hdir : Marked fs dir := by
      refine ⟨entries, hread, ?_⟩
      rw [← Bool.not_eq_false]
      intro hbare
      rw [markedRoot_none.mpr hbare] at hmarked
      cases hmarked
    rw [hroot, hpath, hkinds, hkind]
    refine ⟨⟨fun _ => ⟨closer, dir, farther, hdirs, hcloser, hdir⟩, fun _ => hdetected⟩,
      fun _ => ⟨closer, farther, entries, hdirs, hcloser, hdir, hread, fun kind => ?_, ?_⟩,
      fun hfalse => ?_, kindsIn_ordered, rfl, fun canonicalize' hsame => ?_⟩
    · rw [mem_kindsIn]
      simp [has]
    · rw [projectKindOf, hread, head_kindsIn]
    · rw [hdetected] at hfalse
      cases hfalse
    · obtain ⟨above, habove⟩ := Path.exists_ancestors dir
      rw [detectRoot, hsame, habove, climb, hread]
      dsimp only
      rw [hmarked]

end Workspace

end Termesh
