import Termesh.Filesystem.Rulings

/-!
# Pattern files

Which files a reader asks about an entry, one by one, and what each of them decides. The first file
that decides anything is followed.

* `PatternFile`, `decision`: a file of patterns, and what it decides about an entry;
* `rootFiles`, `nestedFiles`: the root's files, and those of the directories read below it;
* **`ruling_eq`**, `ruling_root_iff`, `ruling_reader_iff`: the rulings of directories, file by file;
* `Plain`, `onTheWay`: names that leave nothing out, and the directories above an entry.
-/

namespace Termesh

namespace Filesystem

open Firsts

variable {γ : Type} (eng : Gitignores γ) (fs : FileSystemService) (root : Path)
  (options : IgnoreOptions) (reads : List Path)

/-- A file of patterns. -/
structure PatternFile where
  /-- The directory whose entries the patterns are about. -/
  dir : Path
  path : Path

/-- The ignore files of a directory. -/
def ownFiles (dir : Path) : List PatternFile :=
  [⟨dir, dir.join ".gitignore"⟩, ⟨dir, dir.join ".ignore"⟩]

/-- The files of the root, the repository's own excludes last. -/
def rootFiles : List PatternFile := ownFiles root ++ [⟨root, IgnoreRules.excludeFile root⟩]

/-- The files of the directories read on the way to an entry, the deepest directory first. -/
def nestedFiles (entry : Path) : List PatternFile :=
  (nested reads entry).flatMap fun dir => ownFiles (root ++ dir)

/-- The files of a directory of the root. -/
def filesOf (dir : Path) : List PatternFile :=
  ownFiles (root ++ dir) ++ if dir = [] then [⟨root, IgnoreRules.excludeFile root⟩] else []

/-- What a file decides about a path below its directory. One that is not there, is no text or holds
no pattern decides nothing. -/
def decision (path : Path) (isDir : Bool) (file : PatternFile) : Option Verdict :=
  (compiled eng fs file.path).bind fun matcher =>
    eng.matchedPathOrAnyParents matcher (path.drop file.dir.length) isDir

/-- The name of an entry does not leave it out. -/
def Plain (entry : Path) : Prop := options.showHidden = true ∨ isDotted entry = false

/-- The directories between the root and an entry. -/
def onTheWay (entry : Path) : List Path := entry.inits.filter fun dir => dir ≠ [] ∧ dir ≠ entry

instance (entry : Path) : Decidable (Plain options entry) := inferInstanceAs (Decidable (_ ∨ _))

variable {eng fs root options reads} {entry : Path} {isDir : Bool} {verdict : Verdict}

theorem findSome?_ownRules (dir : Path) (ask : γ → Option Verdict) :
    (ownRules eng fs root dir).findSome? ask =
      (filesOf root dir).findSome? fun file => (compiled eng fs file.path).bind ask := by
  have hfiles : ∀ names : List String,
      (names.filterMap fun name => compiled eng fs ((root ++ dir).join name)).findSome? ask =
        names.findSome? fun name => (compiled eng fs ((root ++ dir).join name)).bind ask := by
    intro names
    induction names with
    | nil => rfl
    | cons name names ih =>
      rw [List.filterMap_cons, List.findSome?_cons]
      cases compiled eng fs ((root ++ dir).join name) with
      | none => exact ih
      | some matcher =>
        rw [List.findSome?_cons, ih]
        rfl
  rw [ownRules, filesOf, List.findSome?_append, List.findSome?_append, hfiles]
  congr 1
  split_ifs
  · rw [List.findSome?_singleton]
    cases compiled eng fs (IgnoreRules.excludeFile root) with
    | none => rfl
    | some matcher => exact List.findSome?_singleton
  · rfl

theorem dir_of_mem_filesOf {dir : Path} {file : PatternFile} (hfile : file ∈ filesOf root dir) :
    file.dir = root ++ dir := by
  rcases List.mem_append.mp hfile with hfile | hfile
  · simp only [ownFiles, List.mem_cons, List.not_mem_nil, or_false] at hfile
    rcases hfile with rfl | rfl <;> rfl
  · split_ifs at hfile with hdir
    · rw [List.mem_singleton.mp hfile, hdir, List.append_nil]
    · cases hfile

/-- **The ruling of directories**, file by file. -/
theorem ruling_eq (dirs : List Path) : ruling eng fs root dirs entry isDir =
    (dirs.flatMap (filesOf root)).findSome? (decision eng fs (root ++ entry) isDir) := by
  induction dirs with
  | nil => rfl
  | cons dir dirs ih =>
    have hown : ((ownRules eng fs root dir).findSome? fun matcher =>
        eng.matchedPathOrAnyParents matcher (entry.drop dir.length) isDir) =
          (filesOf root dir).findSome? (decision eng fs (root ++ entry) isDir) := by
      rw [findSome?_ownRules]
      refine findSome?_congr fun file hfile => ?_
      rw [decision, dir_of_mem_filesOf hfile, List.length_append, ← List.drop_drop, List.drop_left]
    rw [List.flatMap_cons, List.findSome?_append, ← hown, ← ih, ruling, ruling, List.findSome?_cons]
    cases (ownRules eng fs root dir).findSome? fun matcher =>
      eng.matchedPathOrAnyParents matcher (entry.drop dir.length) isDir <;> rfl

theorem flatMap_nested :
    (nested reads entry).flatMap (filesOf root) = nestedFiles root reads entry := by
  refine List.flatMap_congr fun dir hdir => ?_
  have hne : dir ≠ [] := (of_decide_eq_true (List.mem_filter.mp hdir).2).1
  rw [filesOf, if_neg hne, List.append_nil]

theorem filesOf_root : filesOf root [] = rootFiles root := by
  rw [filesOf, if_pos rfl, List.append_nil, rootFiles]

/-- What a watch follows is the first of the root's files that decides. -/
theorem ruling_root_iff : ruling eng fs root [[]] entry isDir = some verdict ↔
    Settles (decision eng fs (root ++ entry) isDir) (rootFiles root) verdict := by
  rw [settles_iff, ruling_eq, List.flatMap_singleton, filesOf_root]

/-- What a reader follows is the first file that decides, the nested ones being asked first. -/
theorem ruling_reader_iff :
    ruling eng fs root (nested reads entry ++ [[]]) entry isDir = some verdict ↔
      Settles (decision eng fs (root ++ entry) isDir)
        (nestedFiles root reads entry ++ rootFiles root) verdict := by
  rw [settles_iff, ruling_eq, List.flatMap_append, List.flatMap_singleton, flatMap_nested,
    filesOf_root]

end Filesystem

end Termesh
