import Mathlib.Data.List.Sort
import Termesh.Core.Fs
import Termesh.Core.Trim

/-!
# Ignore rules

Which entries the explorer leaves out, and which raw watch events wake it.

* `Gitignores`: the pattern matchers of the `ignore` crate;
* `IgnoreRules`, `forRoot`, `loadDir`: the matchers a root starts with, and those that the
  directories read add;
* `isIgnored`, `isHidden`: what they say of an entry;
* `DirReader`: a directory listed through them;
* `isEditorNoise`, `isRelevant`, `watch`: the watcher's filter.

File names are text. A path is relative to a directory by what stands behind it.
-/

namespace Termesh

namespace Filesystem

/-- What a matcher decides of an entry: `Match` of the crate, whose `None` is `none` here. -/
inductive Verdict where
  | ignore
  | whitelist
deriving DecidableEq, Repr

/-- Matchers compiled from pattern lines, asked about paths relative to their directory. Whether the
path names a directory is the second argument of a question. -/
structure Gitignores (γ : Type) where
  /-- Whether a line is taken: a comment is, a malformed glob is not. -/
  addLine : String → Bool
  build : List String → Option γ
  /-- The path alone. -/
  matched : γ → Path → Bool → Option Verdict
  /-- The path and the directories above it. -/
  matchedPathOrAnyParents : γ → Path → Bool → Option Verdict

/-- The reads of the filesystem service. -/
structure FileSystemService where
  readFile : Path → Except FsError ByteArray
  readDir : Path → Except FsError (List DirEntryInfo)

/-- What the human wants to see. -/
structure IgnoreOptions where
  showIgnored : Bool
  showHidden : Bool
deriving DecidableEq, Repr

/-- Both off. -/
def IgnoreOptions.default : IgnoreOptions := ⟨false, false⟩

/-- The ignore files of a directory, in the order they are loaded. -/
def ignoreFiles : List String := [".gitignore", ".ignore"]

/-- The matchers loaded, each with the directory it is anchored at. -/
structure IgnoreRules (γ : Type) where
  matchers : List (Path × γ)
  options : IgnoreOptions
  root : Path

variable {γ : Type}

namespace IgnoreRules

/-- The rules with those of one file. -/
def loadFile (eng : Gitignores γ) (fs : FileSystemService) (rules : IgnoreRules γ)
    (anchor path : Path) : IgnoreRules γ :=
  match fs.readFile path with
  | .error _ => rules
  | .ok bytes =>
    match String.fromUTF8? bytes with
    | none => rules
    | some text =>
      let lines := ((textLines text.toList).map String.ofList).filter eng.addLine
      if lines.isEmpty then rules
      else
        match eng.build lines with
        | none => rules
        | some matcher => { rules with matchers := rules.matchers ++ [(anchor, matcher)] }

/-- Read a directory's own ignore files, if none of them is loaded. -/
def loadDir (eng : Gitignores γ) (fs : FileSystemService) (rules : IgnoreRules γ) (dir : Path) :
    IgnoreRules γ :=
  if rules.matchers.any (·.1 = dir) then rules
  else ignoreFiles.foldl (fun rules name => rules.loadFile eng fs dir (dir.join name)) rules

/-- The repository's own excludes, outside the working tree. -/
def excludeFile (root : Path) : Path := ((root.join ".git").join "info").join "exclude"

/-- The rules of the root. -/
def forRoot (eng : Gitignores γ) (fs : FileSystemService) (root : Path) (options : IgnoreOptions) :
    IgnoreRules γ :=
  ((⟨[], options, root⟩ : IgnoreRules γ).loadDir eng fs root).loadFile eng fs root
    (excludeFile root)

/-- The deepest directory's matchers come first; the first that decides is followed. -/
def isIgnored (eng : Gitignores γ) (rules : IgnoreRules γ) (path : Path) (isDir : Bool) : Bool :=
  let candidates := (rules.matchers.filter fun c => path.startsWith c.1).insertionSort
    fun a b => b.1.length ≤ a.1.length
  candidates.findSome? (fun c =>
    eng.matchedPathOrAnyParents c.2 (path.drop c.1.length) isDir) = some .ignore

/-- The entry is left out. -/
def isHidden (eng : Gitignores γ) (rules : IgnoreRules γ) (path : Path) (isDir : Bool) : Bool :=
  let name := path.fileName.getD ""
  if !rules.options.showHidden && name.toList.head? = some '.' then true
  else if rules.options.showIgnored then false
  else rules.isIgnored eng path isDir

/-- The entries that the explorer is to show. -/
def filter (eng : Gitignores γ) (rules : IgnoreRules γ) (entries : List DirEntryInfo) :
    List DirEntryInfo :=
  entries.filter fun e => !rules.isHidden eng e.path (e.kind = .dir)

end IgnoreRules

/-! ## Listing a directory -/

/-- The most entries that are listed of a directory. -/
def maxEntriesPerDir : ℕ := 10000

/-- Lists directories for the tree. The service it reads through is an argument. -/
structure DirReader (γ : Type) where
  rules : IgnoreRules γ

/-- A reader that has read nothing yet. -/
def DirReader.new (eng : Gitignores γ) (fs : FileSystemService) (root : Path)
    (options : IgnoreOptions) : DirReader γ :=
  ⟨.forRoot eng fs root options⟩

/-- List one level, the directory's own ignore files read first. -/
def DirReader.read (eng : Gitignores γ) (fs : FileSystemService) (r : DirReader γ) (path : Path) :
    DirReader γ × Except FsError (List DirEntryInfo) :=
  let rules := r.rules.loadDir eng fs path
  (⟨rules⟩,
    match fs.readDir path with
    | .error e => .error e
    | .ok entries => .ok ((rules.filter eng entries).take maxEntriesPerDir))

/-- The reader after listing the directories of a list. -/
def DirReader.readAll (eng : Gitignores γ) (fs : FileSystemService) (r : DirReader γ)
    (paths : List Path) : DirReader γ :=
  paths.foldl (fun r path => (r.read eng fs path).1) r

/-! ## Watching -/

/-- Swap, backup and lock files of editors. -/
def isEditorNoise (path : Path) : Bool :=
  match path.fileName with
  | none => false
  | some name =>
    ['~'].isSuffixOf name.toList ||
    ".swp".toList.isSuffixOf name.toList ||
    ".swx".toList.isSuffixOf name.toList ||
    ".tmp".toList.isSuffixOf name.toList ||
    name = "4913" ||
    ".#".toList.isPrefixOf name.toList

/-- The path may be gone, so it is asked about as a file and as a directory. -/
def isRelevant (eng : Gitignores γ) (path : Path) (rules : IgnoreRules γ) : Bool :=
  if isEditorNoise path then false
  else !(rules.isHidden eng path false && rules.isHidden eng path true)

/-- A `Watch` request: the reader of the new root, and the filter of its raw events. -/
def watch (eng : Gitignores γ) (fs : FileSystemService) (options : IgnoreOptions) (root : Path) :
    DirReader γ × (Path → Bool) :=
  let reader := DirReader.new eng fs root options
  let rules := IgnoreRules.forRoot eng fs root options
  (reader, fun path => isRelevant eng path rules)

end Filesystem

end Termesh
