import Termesh.App.Input
import Termesh.Lib.Inodes

/-!
# What the explorer's operations do to the disk

A confirmed prompt queues one request; the worker carries it out later, on whatever is there.

* `walk`, `Kernel.locate`: where a path leads, through symbolic links;
* `Kernel.createNew`, `Kernel.mkdir`, `Kernel.createDirAll`, `Kernel.rename`: `std::fs`;
* `Kernel.createFile`, `Kernel.createDir`, `Kernel.renameEntry`, `Kernel.execute`: the service and
  the worker;
* `Considerate`: nothing is destroyed that the request does not name;
* `spares_make`, `spares_createDirAll`, **`renameEntry_careful_iff`**: operation by operation;
* **`explorer_careful_iff`**: when the request of a prompt is considerate;
* **`rename_clobbers`**: a file that is renamed onto another.
-/

namespace Termesh

open Inodes

/-- Names are strings, and links lead to paths. -/
abbrev Disk := Inodes.Disk String Path

/-! ## `std::fs` -/

/-- The kinds of errors. -/
inductive IoErrorKind where
  | notFound
  | permissionDenied
  | alreadyExists
  | other
deriving DecidableEq, Repr

/-- An error of the system. -/
structure IoError where
  kind : IoErrorKind
  message : String
deriving DecidableEq, Repr

/-- `io::Error::from_raw_os_error`. -/
def IoError.ofErrno : Errno → IoError
  | .noEntry => ⟨.notFound, "No such file or directory (os error 2)"⟩
  | .exists_ => ⟨.alreadyExists, "File exists (os error 17)"⟩
  | .notADirectory => ⟨.other, "Not a directory (os error 20)"⟩
  | .isADirectory => ⟨.other, "Is a directory (os error 21)"⟩
  | .invalid => ⟨.other, "Invalid argument (os error 22)"⟩
  | .notEmpty => ⟨.other, "Directory not empty (os error 39)"⟩
  | .loop => ⟨.other, "Too many levels of symbolic links (os error 40)"⟩

/-- A call that changes the disk. -/
inductive Syscall where
  | open_ (path : Path)
  | mkdir (path : Path)
  | rename (source target : Path)

/-- What the kernel refuses for other reasons than the entries (permissions, space, the length of a
name), and the working directory. -/
structure Kernel where
  refuses : Syscall → Disk → Option IoError
  cwd : ℕ

/-- Follow a path from a node; `follow` goes on behind a symbolic link. -/
def walkWith (d : Disk) (follow : ℕ → Path → Except Errno ℕ) : ℕ → Path → Except Errno ℕ
  | i, [] => .ok i
  | _, .rootDir :: rest => walkWith d follow 0 rest
  | i, .curDir :: rest => walkWith d follow i rest
  | i, .parentDir :: rest =>
    if d.isDir i then walkWith d follow (d.parentOf i) rest else .error .notADirectory
  | i, .normal name :: rest =>
    if d.isDir i then
      match d.entry ⟨i, name⟩ with
      | none => .error .noEntry
      | some j =>
        match d.nodes[j]? with
        | some (.symlink target) => follow i (target ++ rest)
        | _ => walkWith d follow j rest
    else .error .notADirectory

/-- Follow a path through at most so many symbolic links. -/
def walk (d : Disk) : ℕ → ℕ → Path → Except Errno ℕ
  | 0 => walkWith d fun _ _ => .error .loop
  | links + 1 => walkWith d (walk d links)

/-- As many symbolic links as the kernel follows. -/
def maxSymlinks : ℕ := 40

theorem length_parent {path parent : Path} (h : path.parent = some parent) :
    parent.length < path.length := by
  unfold Path.parent at h
  split at h
  · cases h
  · cases h
  · rename_i last hne hlast
    obtain ⟨front, rfl⟩ := List.getLast?_eq_some_iff.mp hlast
    rw [List.dropLast_concat] at h
    rw [← Option.some.inj h, List.length_append, List.length_singleton]
    exact Nat.lt_succ_self _

namespace Kernel

/-- The slot a path names. A path that ends in the root, `.` or `..` has no slot of its own. -/
def locate (k : Kernel) (d : Disk) (path : Path) : Except Errno (Slot String) :=
  match path.getLast? with
  | some (.normal name) =>
    match walk d maxSymlinks k.cwd path.dropLast with
    | .error e => .error e
    | .ok i => if d.isDir i then .ok ⟨i, name⟩ else .error .notADirectory
  | _ =>
    match walk d maxSymlinks k.cwd path with
    | .error e => .error e
    | .ok _ => .error .exists_

/-- `Path::is_dir`. -/
def isDir (k : Kernel) (d : Disk) (path : Path) : Bool :=
  match walk d maxSymlinks k.cwd path with
  | .error _ => false
  | .ok i => d.isDir i

/-- A new node under a path. -/
def make (k : Kernel) (d : Disk) (call : Syscall) (path : Path)
    (node : Slot String → Node String Path) : Except IoError Disk :=
  match k.refuses call d with
  | some e => .error e
  | none =>
    match k.locate d path with
    | .error e => .error (.ofErrno e)
    | .ok s => (d.create s (node s)).mapError .ofErrno

/-- `OpenOptions::new().write(true).create_new(true).open(path)`. -/
def createNew (k : Kernel) (d : Disk) (path : Path) : Except IoError Disk :=
  k.make d (.open_ path) path fun _ => .file []

/-- A new directory. -/
def mkdir (k : Kernel) (d : Disk) (path : Path) : Except IoError Disk :=
  k.make d (.mkdir path) path fun s => .dir s.dir []

/-- `std::fs::create_dir_all`; the ancestors it made stay when it fails. -/
def createDirAll (k : Kernel) (d : Disk) (path : Path) : Disk × Except IoError Unit :=
  if path = [] then (d, .ok ())
  else
    match k.mkdir d path with
    | .ok d' => (d', .ok ())
    | .error e =>
      if e.kind = .notFound then
        match _hp : path.parent with
        | none => (d, .error ⟨.other, "failed to create whole tree"⟩)
        | some parent =>
          match k.createDirAll d parent with
          | (d₁, .error e) => (d₁, .error e)
          | (d₁, .ok ()) =>
            match k.mkdir d₁ path with
            | .ok d' => (d', .ok ())
            | .error e => (d₁, if k.isDir d₁ path then .ok () else .error e)
      else (d, if k.isDir d path then .ok () else .error e)
termination_by path.length
decreasing_by exact length_parent _hp

/-- `std::fs::rename`. -/
def rename (k : Kernel) (d : Disk) (source target : Path) : Except IoError Disk :=
  match k.refuses (.rename source target) d with
  | some e => .error e
  | none =>
    match k.locate d source with
    | .error e => .error (.ofErrno e)
    | .ok s =>
      match k.locate d target with
      | .error e => .error (.ofErrno e)
      | .ok s' => (d.rename s s').mapError .ofErrno

end Kernel

/-! ## The service and the worker -/

/-- Translate an `io::Error`, attaching the path it concerns. -/
def mapErr (path : Path) (e : IoError) : FsError :=
  match e.kind with
  | .notFound => .notFound path
  | .permissionDenied => .permissionDenied path
  | .alreadyExists => .alreadyExists path
  | .other => .other path e.message

/-- What a call leaves, and how it went; a call that fails changes nothing. -/
def settled (d : Disk) (path : Path) : Except IoError Disk → Disk × Except FsError Unit
  | .ok d' => (d', .ok ())
  | .error e => (d, .error (mapErr path e))

namespace Kernel

/-- A new file. -/
def createFile (k : Kernel) (d : Disk) (path : Path) : Disk × Except FsError Unit :=
  settled d path (k.createNew d path)

/-- A new directory and those above it. -/
def createDir (k : Kernel) (d : Disk) (path : Path) : Disk × Except FsError Unit :=
  let (d, r) := k.createDirAll d path
  (d, r.mapError (mapErr path))

/-- `RealFileSystem::rename`. -/
def renameEntry (k : Kernel) (d : Disk) (source target : Path) : Disk × Except FsError Unit :=
  settled d source (k.rename d source target)

end Kernel

/-- Turn a mutation outcome into the event the state loop expects. -/
def mutationResult (outcome : Except FsError Unit) (paths : List Path) : FsEvent :=
  match outcome with
  | .ok () => .changed paths
  | .error e => .mutationFailed e

/-- The worker's arms for new files, new directories and renames. -/
def Kernel.execute (k : Kernel) (d : Disk) : FsRequest → Option (Disk × FsEvent)
  | .createFile path =>
    let (d, outcome) := k.createFile d path
    some (d, mutationResult outcome [path])
  | .createDir path =>
    let (d, outcome) := k.createDir d path
    some (d, mutationResult outcome [path])
  | .rename source target =>
    let (d, outcome) := k.renameEntry d source target
    some (d, mutationResult outcome [source, target])
  | _ => none

/-! ## What is destroyed -/

/-- The slot of the entry that a request renames. -/
def Kernel.renamed (k : Kernel) (d : Disk) : FsRequest → Option (Slot String)
  | .rename source _ => (k.locate d source).toOption
  | _ => none

/-- **Nothing is destroyed that was not asked for**: every entry but the renamed one leads where it
led, and every file is what it was; a rename onto another name that is there fails and changes
nothing. -/
structure Considerate (k : Kernel) (d : Disk) (r : FsRequest) (out : Disk × FsEvent) : Prop where
  spared : Spares (k.renamed d r) d out.1
  refused : ∀ source target s', r = .rename source target → k.locate d target = .ok s' →
    k.locate d source ≠ .ok s' → (d.entry s').isSome →
      (∃ e, out.2 = .mutationFailed e) ∧ out.1 = d

/-- The request renames an entry onto another one, and the kernel lets it take its place. -/
def Overwrites (k : Kernel) (d : Disk) (r : FsRequest) : Prop :=
  ∃ source target s s', r = .rename source target ∧ k.refuses (.rename source target) d = none ∧
    k.locate d source = .ok s ∧ k.locate d target = .ok s' ∧ Replaceable d s s'

section

variable {k : Kernel} {d d' : Disk} {path : Path}

theorem spares_make {call : Syscall} {node : Slot String → Node String Path}
    (h : k.make d call path node = .ok d') : Spares none d d' := by
  unfold Kernel.make at h
  split at h
  · cases h
  · split at h
    · cases h
    · rename_i s hs
      cases hc : d.create s (node s) with
      | error e =>
        rw [hc] at h
        cases h
      | ok d₁ =>
        rw [hc] at h
        obtain rfl := Except.ok.inj h
        exact spares_create hc

/-- **Directories are made beside what is there.** -/
theorem spares_createDirAll (k : Kernel) (d : Disk) (path : Path) :
    Spares none d (k.createDirAll d path).1 := by
  induction hn : path.length using Nat.strong_induction_on generalizing d path with
  | _ n ih =>
    unfold Kernel.createDirAll
    by_cases hnil : path = []
    · rw [if_pos hnil]
      exact .refl none d
    · rw [if_neg hnil]
      split
      · rename_i d' hd
        exact spares_make hd
      · rename_i e he
        by_cases hmissing : e.kind = .notFound
        · rw [if_pos hmissing]
          split
          · exact .refl none d
          · rename_i parent hp
            have hless : parent.length < n := hn ▸ length_parent hp
            have hup := ih parent.length hless d parent rfl
            split
            · rename_i d₁ e' hd₁
              rwa [hd₁] at hup
            · rename_i d₁ hd₁
              rw [hd₁] at hup
              split
              · rename_i d' hd
                exact hup.trans (spares_make hd)
              · exact hup
        · rw [if_neg hmissing]
          exact .refl none d

theorem careful_create {r : FsRequest} {out : Disk × FsEvent}
    (hr : ∀ source target, r ≠ .rename source target) (hs : Spares none d out.1) :
    Considerate k d r out := by
  refine ⟨hs.weaken _, fun source target s' heq => ?_⟩
  exact absurd heq (hr source target)

theorem careful_failed {r : FsRequest} (e : FsError) : Considerate k d r (d, .mutationFailed e) :=
  ⟨.refl _ d, fun _ _ _ _ _ _ _ => ⟨⟨e, rfl⟩, rfl⟩⟩

/-- **A rename is considerate exactly when it overwrites nothing.** -/
theorem renameEntry_careful_iff (k : Kernel) (d : Disk) (source target : Path) :
    Considerate k d (.rename source target)
        ((k.renameEntry d source target).1,
          mutationResult (k.renameEntry d source target).2 [source, target]) ↔
      ¬ Overwrites k d (.rename source target) := by
  unfold Kernel.renameEntry Kernel.rename
  cases hk : k.refuses (.rename source target) d with
  | some e =>
    refine iff_of_true (careful_failed _) ?_
    rintro ⟨source', target', s, s', heq, hno, -⟩
    obtain ⟨rfl, rfl⟩ := FsRequest.rename.inj heq
    rw [hk] at hno
    cases hno
  | none =>
    dsimp only
    cases hs : k.locate d source with
    | error e =>
      refine iff_of_true (careful_failed _) ?_
      rintro ⟨source', target', s, s', heq, -, hno, -⟩
      obtain ⟨rfl, rfl⟩ := FsRequest.rename.inj heq
      rw [hs] at hno
      cases hno
    | ok s =>
      dsimp only
      cases hs' : k.locate d target with
      | error e =>
        refine iff_of_true (careful_failed _) ?_
        rintro ⟨source', target', s₁, s', heq, -, -, hno, -⟩
        obtain ⟨rfl, rfl⟩ := FsRequest.rename.inj heq
        rw [hs'] at hno
        cases hno
      | ok s' =>
        dsimp only
        have hover : Overwrites k d (.rename source target) ↔ Replaceable d s s' := by
          constructor
          · rintro ⟨source', target', s₁, s₁', heq, -, h₁, h₁', hrep⟩
            obtain ⟨rfl, rfl⟩ := FsRequest.rename.inj heq
            rw [hs] at h₁
            rw [hs'] at h₁'
            rwa [Except.ok.inj h₁, Except.ok.inj h₁']
          · exact fun hrep => ⟨source, target, s, s', rfl, hk, hs, hs', hrep⟩
        rw [hover]
        cases hd : d.rename s s' with
        | error e =>
          refine iff_of_true (careful_failed _) fun hrep => ?_
          obtain ⟨i, j, -, hj, -⟩ := hrep.2
          obtain ⟨d', hd'⟩ := (rename_onto_iff hrep.1 (by rw [hj]; rfl)).mpr hrep
          rw [hd] at hd'
          cases hd'
        | ok d' =>
          show Considerate k d (.rename source target) (d', .changed [source, target]) ↔ _
          constructor
          · rintro hc hrep
            obtain ⟨i, j, -, hj, -⟩ := hrep.2
            have hother : k.locate d source ≠ .ok s' := by
              rw [hs]
              exact fun heq => hrep.1 (Except.ok.inj heq)
            obtain ⟨⟨e, he⟩, -⟩ := hc.refused source target s' rfl hs' hother (by rw [hj]; rfl)
            cases he
          · intro hno
            have hfree : s = s' ∨ d.entry s' = none := by
              by_contra hboth
              rw [not_or] at hboth
              have hthere := Option.isSome_iff_ne_none.mpr hboth.2
              exact hno ((rename_onto_iff hboth.1 hthere).mp ⟨d', hd⟩)
            refine ⟨?_, fun source' target' s₁ heq h₁ hother hthere => ?_⟩
            · show Spares (k.locate d source).toOption d d'
              rw [hs]
              exact spares_rename hd hfree
            · obtain ⟨rfl, rfl⟩ := FsRequest.rename.inj heq
              obtain rfl : s' = s₁ := Except.ok.inj (hs'.symm.trans h₁)
              rcases hfree with rfl | hnone
              · exact absurd hs hother
              · rw [hnone] at hthere
                cases hthere

end

/-! ## The prompts -/

/-- A prompt for a new file, a new directory or another name. -/
inductive App.PromptKind.Explorer : App.PromptKind → Prop
  | newFile (parent : Path) : Explorer (.newFile parent)
  | newDir (parent : Path) : Explorer (.newDir parent)
  | rename (target : Path) : Explorer (.rename target)

namespace App.Model

/-- **What a confirmed prompt queues is considerate exactly when it overwrites nothing**, whatever the
disk is when the worker comes to it. -/
theorem explorer_careful_iff (h : Host) (m : Model) (prompt : Prompt)
    (hkind : prompt.kind.Explorer) :
    ∃ m', m.confirmPrompt h prompt = some m' ∧
      (m'.outbox = m.outbox ∨ ∃ r, m'.outbox = m.outbox ++ [r] ∧
        ∀ (k : Kernel) (d : Disk), ∃ out, k.execute d r = some out ∧
          (Considerate k d r out ↔ ¬ Overwrites k d r)) := by
  have hquiet : ∀ s : String, (m.notify s).outbox = m.outbox := fun _ => rfl
  have hfile : m.confirmPrompt h prompt = some (m.confirmFile prompt (trim prompt.input)) := by
    unfold confirmPrompt
    generalize prompt.kind = kind at hkind
    cases hkind <;> rfl
  refine ⟨_, hfile, ?_⟩
  unfold confirmFile
  split_ifs
  · exact .inl (hquiet _)
  · exact .inl (hquiet _)
  · cases hk : prompt.kind <;> rw [hk] at hkind
    case newFile parent =>
      refine .inr ⟨.createFile (parent.join (trim prompt.input)), rfl, fun k d => ⟨_, rfl, ?_⟩⟩
      refine iff_of_true (careful_create (by simp) ?_) (by simp [Overwrites])
      dsimp only [Kernel.createFile, settled]
      split
      · rename_i d' hd
        exact spares_make hd
      · exact .refl none d
    case newDir parent =>
      refine .inr ⟨.createDir (parent.join (trim prompt.input)), rfl, fun k d => ⟨_, rfl, ?_⟩⟩
      exact iff_of_true (careful_create (by simp) (spares_createDirAll k d _)) (by simp [Overwrites])
    case rename target =>
      dsimp only
      cases hp : target.parent with
      | none => exact .inl rfl
      | some parent =>
        exact .inr ⟨.rename target (parent.join (trim prompt.input)), rfl,
          fun k d => ⟨_, rfl, renameEntry_careful_iff k d _ _⟩⟩
    all_goals cases hkind

end App.Model

/-! ## A file that is renamed onto another -/

/-- Two files in one directory. -/
def twoNotes : Disk := ⟨[.dir 0 [("w", 1)], .dir 0 [("a", 2), ("b", 3)], .file [65], .file [66]]⟩

/-- A kernel with no objections. -/
def obliging : Kernel := ⟨fun _ _ => none, 0⟩

/-- The first file is to be called like the second. -/
def renameToB : App.Prompt := ⟨"Rename", "b", .rename [.rootDir, .normal "w", .normal "a"]⟩

def renameRequest : FsRequest :=
  .rename [.rootDir, .normal "w", .normal "a"] [.rootDir, .normal "w", .normal "b"]

namespace App.Model

theorem explorer_careful_iff_renamed :
    ∃ m', ({} : Model).confirmPrompt Host.plain renameToB = some m' ∧
      (m'.outbox = [] ∨ ∃ r, m'.outbox = [] ++ [r] ∧
        ∀ (k : Kernel) (d : Disk), ∃ out, k.execute d r = some out ∧
          (Considerate k d r out ↔ ¬ Overwrites k d r)) :=
  explorer_careful_iff Host.plain {} renameToB (.rename _)

/-- **A file renamed onto another takes its place**: the other one is lost, and no failure is
reported. -/
theorem rename_clobbers :
    (¬ ∀ (m m' : Model) (prompt : Prompt) (r : FsRequest) (k : Kernel) (d : Disk)
        (out : Disk × FsEvent), prompt.kind.Explorer →
      m.confirmPrompt Host.plain prompt = some m' → m'.outbox = m.outbox ++ [r] →
        k.execute d r = some out → Considerate k d r out) ∧
      (obliging.execute twoNotes renameRequest).map (fun out => out.1.entry ⟨1, "b"⟩) =
        some (some 2) := by
  refine ⟨fun hall => ?_, rfl⟩
  have hqueued : ({} : Model).confirmPrompt Host.plain renameToB =
      some (({} : Model).send renameRequest) := by
    have hfile : ({} : Model).confirmPrompt Host.plain renameToB =
        some (({} : Model).confirmFile renameToB (trim "b")) := rfl
    have htrim : trim "b" = "b" := by decide
    have hplain : ¬ (renameToB.takesInput ∧ ("b".contains '/' ∨ "b".contains '\\' ∨ "b" = ".." ∨
        "b" = ".")) := by simp
    rw [hfile, htrim, confirmFile, if_neg (by decide), if_neg hplain]
    rfl
  obtain ⟨out, hout⟩ : ∃ out, obliging.execute twoNotes renameRequest = some out := ⟨_, rfl⟩
  have hcareful := hall {} (({} : Model).send renameRequest) renameToB renameRequest obliging
    twoNotes out (.rename _) hqueued rfl hout
  have hother : obliging.locate twoNotes [.rootDir, .normal "w", .normal "a"] ≠ .ok ⟨1, "b"⟩ := by
    intro heq
    have hname : (⟨1, "a"⟩ : Inodes.Slot String) = ⟨1, "b"⟩ := Except.ok.inj heq
    exact absurd hname (by decide)
  obtain ⟨⟨e, he⟩, -⟩ := hcareful.refused _ _ ⟨1, "b"⟩ rfl rfl hother rfl
  have hdone : (obliging.execute twoNotes renameRequest).map (·.2) =
      some (.changed [[.rootDir, .normal "w", .normal "a"], [.rootDir, .normal "w", .normal "b"]]) :=
    rfl
  rw [hout, Option.map_some, he] at hdone
  cases hdone

end App.Model

end Termesh
