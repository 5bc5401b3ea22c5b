import Termesh.Filesystem.PatternFiles

/-!
# What wakes the tree

A watch asks the root's files about one path; the explorer asks the files of every directory it has
read about each entry on the way down. So a path below a directory that is left out can wake the
tree, and so can one that a nested file ignores; and a nested file that whitelists what the root's
files ignore makes an entry that is shown and whose changes are dropped.

* `Shown`: what the explorer can show;
* `Passes`, `Covers`: entries that the root's files let through, and directories that are left out;
* `Misjudged`: the kinds of paths a watch is wrong about;
* **`relevant_iff_shown`**: it is wrong about these only.
-/

namespace Termesh

namespace Filesystem

open Firsts

variable {γ : Type}

/-- No directory between the root and an entry is hidden. -/
def Uncovered (eng : Gitignores γ) (rules : IgnoreRules γ) (root entry : Path) : Prop :=
  ∀ dir ∈ entry.inits, dir ≠ [] → dir ≠ entry → rules.isHidden eng (root ++ dir) true = false

/-- The explorer can show an entry, as a file or as a directory. -/
def Shown (eng : Gitignores γ) (rules : IgnoreRules γ) (root entry : Path) : Prop :=
  Uncovered eng rules root entry ∧ ∃ isDir, rules.isHidden eng (root ++ entry) isDir = false

variable (eng : Gitignores γ) (fs : FileSystemService) (root : Path) (options : IgnoreOptions)
  (reads : List Path)

/-- In one reading, as a file or as a directory, the root's files do not have an entry left out. -/
def Passes (entry : Path) (isDir : Bool) : Prop :=
  options.showIgnored = true ∨
    ¬Settles (decision eng fs (root ++ entry) isDir) (rootFiles root) .ignore

/-- The name of a directory leaves it out, or the files that are read for it do. -/
def Covers (dir : Path) : Prop :=
  ¬Plain options dir ∨ options.showIgnored = false ∧
    Settles (decision eng fs (root ++ dir) true) (nestedFiles root reads dir ++ rootFiles root)
      .ignore

/-- The paths that a watch is wrong about. The name tells nothing about any of them. -/
inductive Misjudged (entry : Path) : Prop
  /-- The root's files let it through, and a directory on the way has a dotted name. -/
  | belowDotted {dir : Path} {isDir : Bool} (hplain : Plain options entry)
      (hpass : Passes eng fs root options entry isDir) (hdir : dir ∈ onTheWay entry)
      (hdot : ¬Plain options dir)
  /-- The root's files let it through, and a directory on the way is ignored. -/
  | belowIgnored {dir : Path} {isDir : Bool} (hplain : Plain options entry)
      (hpass : Passes eng fs root options entry isDir) (hdir : dir ∈ onTheWay entry)
      (hi : options.showIgnored = false)
      (hs : Settles (decision eng fs (root ++ dir) true)
        (nestedFiles root reads dir ++ rootFiles root) .ignore)
  /-- The root's files let it through, but a nested file ignores it; and it is ignored in the other
  reading too. -/
  | ignored {isDir : Bool} (hplain : Plain options entry) (hi : options.showIgnored = false)
      (hroot : ¬Settles (decision eng fs (root ++ entry) isDir) (rootFiles root) .ignore)
      (hnested : Settles (decision eng fs (root ++ entry) isDir) (nestedFiles root reads entry)
        .ignore)
      (hother : Settles (decision eng fs (root ++ entry) (!isDir))
        (nestedFiles root reads entry ++ rootFiles root) .ignore)
  /-- The root's files ignore it, but a nested file whitelists it, and nothing on the way is left
  out. -/
  | whitelisted {isDir : Bool} (hplain : Plain options entry) (hi : options.showIgnored = false)
      (hroot : ∀ isDir, Settles (decision eng fs (root ++ entry) isDir) (rootFiles root) .ignore)
      (hnested : Settles (decision eng fs (root ++ entry) isDir) (nestedFiles root reads entry)
        .whitelist)
      (hway : ∀ dir ∈ onTheWay entry, ¬Covers eng fs root options reads dir)

instance (rules : IgnoreRules γ) (entry : Path) : Decidable (Shown eng rules root entry) :=
  inferInstanceAs (Decidable ((∀ dir ∈ entry.inits, _) ∧ _))

instance (entry : Path) (isDir : Bool) : Decidable (Passes eng fs root options entry isDir) :=
  inferInstanceAs (Decidable (_ ∨ _))

instance (dir : Path) : Decidable (Covers eng fs root options reads dir) :=
  inferInstanceAs (Decidable (_ ∨ _))

variable {eng fs root options reads} {entry : Path} {isDir : Bool}

theorem leavesOut_eq_false {verdict : Option Verdict} : leavesOut options entry verdict = false ↔
    Plain options entry ∧ (options.showIgnored = true ∨ verdict ≠ some .ignore) := by
  cases hh : options.showHidden <;> cases hi : options.showIgnored <;> simp [leavesOut, Plain, hh, hi]

theorem isRelevant_iff (hnoise : isEditorNoise (root ++ entry) = false) (he : entry ≠ []) :
    (watch eng fs options root).2 (root ++ entry) = true ↔
      Plain options entry ∧ ∃ isDir, Passes eng fs root options entry isDir := by
  have hasked : (watch eng fs options root).2 (root ++ entry) = true ↔
      ∃ isDir, leavesOut options entry (ruling eng fs root [[]] entry isDir) = false := by
    show isRelevant eng _ _ = true ↔ _
    rw [isRelevant, if_neg (by simp [hnoise]), isHidden_forRoot he, isHidden_forRoot he]
    simp only [Bool.not_eq_true', Bool.and_eq_false_iff, Bool.exists_bool]
  rw [hasked]
  simp only [leavesOut_eq_false, ne_eq, ruling_root_iff, exists_and_left]
  rfl

theorem isHidden_dir_iff {dir : Path} (hne : dir ≠ []) :
    (readerAfter eng fs root options reads).rules.isHidden eng (root ++ dir) true = false ↔
      ¬Covers eng fs root options reads dir := by
  rw [isHidden_readerAfter hne, leavesOut_eq_false, ne_eq, ruling_reader_iff, Covers, not_or,
    not_not, not_and, imp_iff_not_or, Bool.not_eq_false]

theorem shown_iff (he : entry ≠ []) :
    Shown eng (readerAfter eng fs root options reads).rules root entry ↔
      (∀ dir ∈ onTheWay entry, ¬Covers eng fs root options reads dir) ∧ Plain options entry ∧
        ∃ isDir, options.showIgnored = true ∨ ¬Settles (decision eng fs (root ++ entry) isDir)
          (nestedFiles root reads entry ++ rootFiles root) .ignore := by
  unfold Shown Uncovered onTheWay
  refine and_congr ?_ ?_
  · simp only [List.mem_filter, decide_eq_true_eq, and_imp]
    exact forall₄_congr fun dir _ hne _ => isHidden_dir_iff hne
  · simp only [isHidden_readerAfter he, leavesOut_eq_false, ne_eq, ruling_reader_iff,
      exists_and_left]

theorem Misjudged.of_relevant (hplain : Plain options entry)
    (hpass : Passes eng fs root options entry isDir)
    (hshown : ¬Shown eng (readerAfter eng fs root options reads).rules root entry)
    (he : entry ≠ []) : Misjudged eng fs root options reads entry := by
  by_cases hway : ∃ dir ∈ onTheWay entry, Covers eng fs root options reads dir
  · obtain ⟨dir, hdir, hdot | ⟨hi, hs⟩⟩ := hway
    · exact .belowDotted hplain hpass hdir hdot
    · exact .belowIgnored hplain hpass hdir hi hs
  · push Not at hway
    have hall : ∀ isDir, ¬(options.showIgnored = true ∨
        ¬Settles (decision eng fs (root ++ entry) isDir)
          (nestedFiles root reads entry ++ rootFiles root) .ignore) :=
      fun isDir hlet => hshown ((shown_iff he).mpr ⟨hway, hplain, isDir, hlet⟩)
    simp only [not_or, not_not] at hall
    have hi : options.showIgnored = false := Bool.eq_false_iff.mpr (hall isDir).1
    have hroot := hpass.resolve_left (hall isDir).1
    have hnested := (settles_append.mp (hall isDir).2).resolve_right fun hs => hroot hs.2
    exact .ignored hplain hi hroot hnested (hall !isDir).2

theorem Misjudged.of_shown
    (hshown : Shown eng (readerAfter eng fs root options reads).rules root entry)
    (hnot : ¬∃ isDir, Passes eng fs root options entry isDir) (he : entry ≠ []) :
    Misjudged eng fs root options reads entry := by
  obtain ⟨hway, hplain, isDir, hlet⟩ := (shown_iff he).mp hshown
  simp only [Passes, not_exists, not_or, not_not] at hnot
  have hi : options.showIgnored = false := Bool.eq_false_iff.mpr (hnot isDir).1
  have hlet := hlet.resolve_left (hnot isDir).1
  rcases none_or_settles (decision eng fs (root ++ entry) isDir) (nestedFiles root reads entry) with
    hnone | ⟨verdict, hs⟩
  · exact absurd (settles_append.mpr (.inr ⟨hnone, (hnot isDir).2⟩)) hlet
  · cases verdict with
    | ignore => exact absurd (settles_append.mpr (.inl hs)) hlet
    | whitelist => exact .whitelisted hplain hi (fun isDir => (hnot isDir).2) hs hway

theorem Misjudged.wrong (hm : Misjudged eng fs root options reads entry) (he : entry ≠ []) :
    ¬((Plain options entry ∧ ∃ isDir, Passes eng fs root options entry isDir) ↔
      Shown eng (readerAfter eng fs root options reads).rules root entry) := by
  rw [shown_iff he]
  intro hiff
  cases hm with
  | belowDotted hplain hpass hdir hdot =>
    exact (hiff.mp ⟨hplain, _, hpass⟩).1 _ hdir (.inl hdot)
  | belowIgnored hplain hpass hdir hi hs =>
    exact (hiff.mp ⟨hplain, _, hpass⟩).1 _ hdir (.inr ⟨hi, hs⟩)
  | @ignored isDir hplain hi hroot hnested hother =>
    obtain ⟨-, -, reading, hlet⟩ := hiff.mp ⟨hplain, isDir, .inr hroot⟩
    have hlet := hlet.resolve_left (Bool.eq_false_iff.mp hi)
    rcases Bool.eq_or_eq_not reading isDir with rfl | rfl
    · exact hlet (settles_append.mpr (.inl hnested))
    · exact hlet hother
  | @whitelisted isDir hplain hi hroot hnested hway =>
    have hlet : ¬Settles (decision eng fs (root ++ entry) isDir)
        (nestedFiles root reads entry ++ rootFiles root) .ignore := fun hs =>
      Verdict.noConfusion (hs.unique (settles_append.mpr (.inl hnested)))
    obtain ⟨-, reading, hpass⟩ := hiff.mpr ⟨hway, hplain, isDir, .inr hlet⟩
    exact hpass.elim (Bool.eq_false_iff.mp hi) fun hnot => hnot (hroot reading)

/-- **A watch accepts what the explorer can show, and nothing else, but for the misjudged paths.** -/
theorem relevant_iff_shown (eng : Gitignores γ) (fs : FileSystemService) (root : Path)
    (options : IgnoreOptions) (reads : List Path) (entry : Path) (he : entry ≠ [])
    (hnoise : isEditorNoise (root ++ entry) = false) :
    ((watch eng fs options root).2 (root ++ entry) = true ↔
      Shown eng (((watch eng fs options root).1.readAll eng fs (reads.map (root ++ ·))).rules)
        root entry) ↔
    ¬Misjudged eng fs root options reads entry := by
  rw [isRelevant_iff hnoise he]
  show (_ ↔ Shown eng (readerAfter eng fs root options reads).rules root entry) ↔ _
  constructor
  · exact fun hiff hm => hm.wrong he hiff
  · intro hnot
    constructor
    · rintro ⟨hplain, isDir, hpass⟩
      by_contra hshown
      exact hnot (.of_relevant hplain hpass hshown he)
    · intro hshown
      refine ⟨((shown_iff he).mp hshown).2.1, ?_⟩
      by_contra hpass
      exact hnot (.of_shown hshown hpass he)

/-! ## Plain names -/

/-- The matchers of lines that are plain names, each whitelisted when a `!` stands before it. The
last line that names an entry decides, and an entry is decided with the nearest directory that is
named. -/
def plainNames : Gitignores (List String) where
  addLine _ := true
  build lines := some lines
  matched lines entry _ := decideName lines entry
  matchedPathOrAnyParents lines entry _ := entry.inits.reverse.findSome? (decideName lines)
where
  decideName (lines : List String) (entry : Path) : Option Verdict :=
    match entry.fileName with
    | none => none
    | some name => lines.reverse.findSome? fun line =>
      if line = name then some .ignore else if line = "!" ++ name then some .whitelist else none

/-- A disk that holds some text files, each given by its path. -/
def textFiles (files : List (String × String)) : FileSystemService where
  readFile path :=
    match files.find? fun f => Path.ofString f.1 = path with
    | some f => .ok f.2.toUTF8
    | none => .error (.notFound path)
  readDir path := .error (.notFound path)

def buildTree : FileSystemService := textFiles [("/r/.gitignore", "target\n")]

theorem not_misjudged_target : ¬Misjudged plainNames buildTree (.ofString "/r") .default
    [[], [.normal "target"]] [.normal "target", .normal "a.o"] := by
  have hroot : ∀ isDir, Settles (decision plainNames buildTree (.ofString "/r/target/a.o") isDir)
      (rootFiles (.ofString "/r")) .ignore := by decide +kernel
  intro hm
  cases hm with
  | belowDotted _ hpass | belowIgnored _ hpass =>
    exact hpass.elim Bool.false_ne_true fun hnot => hnot (hroot _)
  | ignored _ _ hnot => exact hnot (hroot _)
  | @whitelisted isDir _ _ _ hnested =>
    have hnone : ∀ isDir, ¬Settles
        (decision plainNames buildTree (.ofString "/r/target/a.o") isDir)
        (nestedFiles (.ofString "/r") [[], [.normal "target"]] [.normal "target", .normal "a.o"])
        .whitelist := by decide +kernel
    exact hnone isDir hnested

/-- A build's output neither shows nor wakes the tree. -/
theorem relevant_iff_shown_target :
    ((watch plainNames buildTree .default (.ofString "/r")).2 (.ofString "/r/target/a.o") = true ↔
      Shown plainNames ((watch plainNames buildTree .default (.ofString "/r")).1.readAll plainNames
        buildTree ([[], [.normal "target"]].map (Path.ofString "/r" ++ ·))).rules
        (.ofString "/r") [.normal "target", .normal "a.o"]) :=
  (relevant_iff_shown plainNames buildTree (.ofString "/r") .default [[], [.normal "target"]]
    [.normal "target", .normal "a.o"] (by decide) (by decide +kernel)).mpr not_misjudged_target

/-- **A write to `.git/index` wakes a tree that shows nothing below `.git`.** -/
theorem git_write_relevant :
    ¬ ∀ (fs : FileSystemService) (root : Path) (options : IgnoreOptions) (reads : List Path)
      (entry : Path), entry ≠ [] → isEditorNoise (root ++ entry) = false →
      (∀ dir ∈ entry.inits, dir ≠ entry → dir ∈ reads) →
      ((watch plainNames fs options root).2 (root ++ entry) = true ↔
        Shown plainNames ((watch plainNames fs options root).1.readAll plainNames fs
          (reads.map (root ++ ·))).rules root entry) := by
  intro h
  have hindex := h (textFiles []) (.ofString "/r") .default [[], [.normal ".git"]]
    [.normal ".git", .normal "index"] (by decide) (by decide +kernel) (by decide)
  revert hindex
  decide +kernel

end Filesystem

end Termesh
