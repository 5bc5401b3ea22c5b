import Mathlib.Data.List.Infix
import Termesh.Lib.First
import Termesh.Filesystem.Ignore

/-!
# The order in which ignore files decide

The rules of a reader are kept in the order its directories were read. What they say of a path is
what the ignore files on the way to it say, from the deepest directory up; the order of the reads is
forgotten.

* `ruling`: what the files of some directories say, the first directory first;
* `Held`: the matchers are those of the directories read.

Directories and entries are relative to the root.
-/

namespace Termesh

namespace Filesystem

open Firsts

variable {γ : Type} (eng : Gitignores γ) (fs : FileSystemService) (root : Path)

/-- The matcher a pattern file gives, if it gives one. -/
def compiled (path : Path) : Option γ :=
  match fs.readFile path with
  | .error _ => none
  | .ok bytes =>
    match String.fromUTF8? bytes with
    | none => none
    | some text =>
      let lines := ((textLines text.toList).map String.ofList).filter eng.addLine
      if lines.isEmpty then none else eng.build lines

/-- The matchers of a directory, in the order they are asked. -/
def ownRules (dir : Path) : List γ :=
  ignoreFiles.filterMap (fun name => compiled eng fs ((root ++ dir).join name)) ++
    if dir = [] then (compiled eng fs (IgnoreRules.excludeFile root)).toList else []

/-- What the files of `dirs` say of an entry below them. -/
def ruling (dirs : List Path) (entry : Path) (isDir : Bool) : Option Verdict :=
  dirs.findSome? fun dir => (ownRules eng fs root dir).findSome? fun matcher =>
    eng.matchedPathOrAnyParents matcher (entry.drop dir.length) isDir

/-- The directories below the root on the way to an entry that were read, deepest first. -/
def nested (reads : List Path) (entry : Path) : List Path :=
  entry.inits.reverse.filter fun dir => dir ≠ [] ∧ dir ∈ reads

/-- Whether the name starts with a dot. -/
def isDotted (entry : Path) : Bool := (entry.fileName.getD "").toList.head? = some '.'

/-- Whether an entry is left out, from its name and what the ignore files say. -/
def leavesOut (options : IgnoreOptions) (entry : Path) (verdict : Option Verdict) : Bool :=
  (!options.showHidden && isDotted entry) || (!options.showIgnored && verdict = some .ignore)

/-- The reader of a root after directories below it were read. -/
def readerAfter (options : IgnoreOptions) (reads : List Path) : DirReader γ :=
  (DirReader.new eng fs root options).readAll eng fs (reads.map (root ++ ·))

/-! ## What is loaded -/

section Loading

variable {eng fs} {rules : IgnoreRules γ} {dir d path : Path}

theorem loadFile_eq : rules.loadFile eng fs dir path =
    { rules with matchers := rules.matchers ++ ((compiled eng fs path).map (dir, ·)).toList } := by
  unfold IgnoreRules.loadFile compiled
  cases hread : fs.readFile path with
  | error e => simp
  | ok bytes =>
    dsimp only
    cases htext : String.fromUTF8? bytes with
    | none => simp
    | some text =>
      dsimp only
      by_cases hl : (((textLines text.toList).map String.ofList).filter eng.addLine).isEmpty = true
      · rw [if_pos hl, if_pos hl]
        simp
      · rw [if_neg hl, if_neg hl]
        cases eng.build (((textLines text.toList).map String.ofList).filter eng.addLine) with
        | none => simp
        | some matcher => rfl

theorem foldl_loadFile (names : List String) :
    names.foldl (fun rules name => rules.loadFile eng fs dir (dir.join name)) rules =
      { rules with matchers := rules.matchers ++
        (names.filterMap fun name => compiled eng fs (dir.join name)).map (dir, ·) } := by
  induction names generalizing rules with
  | nil => simp
  | cons name names ih =>
    rw [List.foldl_cons, loadFile_eq, ih, List.filterMap_cons]
    cases compiled eng fs (dir.join name) with
    | none => simp
    | some matcher => simp

theorem filter_loadDir : (rules.loadDir eng fs dir).matchers.filter (·.1 = d) =
    if d = dir ∧ rules.matchers.filter (·.1 = d) = [] then
      (ignoreFiles.filterMap fun name => compiled eng fs (dir.join name)).map (dir, ·)
    else rules.matchers.filter (·.1 = d) := by
  unfold IgnoreRules.loadDir
  by_cases hany : rules.matchers.any (·.1 = dir) = true
  · rw [if_pos hany, if_neg]
    rintro ⟨rfl, hnil⟩
    obtain ⟨c, hc, hcd⟩ := List.any_eq_true.mp hany
    exact (List.filter_eq_nil_iff.mp hnil c hc) hcd
  · rw [if_neg hany, foldl_loadFile, List.filter_append]
    by_cases hd : d = dir
    · have hnil : rules.matchers.filter (·.1 = d) = [] := by
        refine List.filter_eq_nil_iff.mpr fun c hc hcd => hany ?_
        exact List.any_eq_true.mpr ⟨c, hc, by rwa [hd] at hcd⟩
      rw [if_pos ⟨hd, hnil⟩, hnil, List.nil_append, List.filter_eq_self]
      intro c hc
      obtain ⟨matcher, -, rfl⟩ := List.mem_map.mp hc
      simp [hd]
    · have hnone : ((ignoreFiles.filterMap fun name => compiled eng fs (dir.join name)).map
          (dir, ·)).filter (·.1 = d) = [] := by
        refine List.filter_eq_nil_iff.mpr fun c hc => ?_
        obtain ⟨matcher, -, rfl⟩ := List.mem_map.mp hc
        simpa using Ne.symm hd
      rw [if_neg fun h => hd h.1, hnone, List.append_nil]

end Loading

/-- The matchers anchored at a directory are its own if it was read, and none otherwise. -/
def Held (reads : List Path) (rules : IgnoreRules γ) : Prop :=
  (∀ dir, rules.matchers.filter (·.1 = root ++ dir) =
    if dir = [] ∨ dir ∈ reads then (ownRules eng fs root dir).map (root ++ dir, ·) else []) ∧
  ∀ c ∈ rules.matchers, root <+: c.1

theorem held_forRoot (options : IgnoreOptions) :
    Held eng fs root [] (.forRoot eng fs root options) := by
  have hfresh : ((⟨[], options, root⟩ : IgnoreRules γ).loadDir eng fs root).matchers =
      (ignoreFiles.filterMap fun name => compiled eng fs (root.join name)).map (root, ·) := by
    rw [IgnoreRules.loadDir, if_neg (by simp), foldl_loadFile, List.nil_append]
  have hall : (IgnoreRules.forRoot eng fs root options).matchers =
      (ownRules eng fs root []).map (root, ·) := by
    rw [IgnoreRules.forRoot, loadFile_eq, hfresh, ownRules, if_pos rfl, List.map_append,
      List.append_nil]
    cases compiled eng fs (IgnoreRules.excludeFile root) with
    | none => rfl
    | some matcher => rfl
  refine ⟨fun dir => ?_, fun c hc => ?_⟩
  · by_cases hd : dir = []
    · rw [if_pos (.inl hd), hall, hd, List.append_nil, List.filter_eq_self]
      intro c hc
      obtain ⟨matcher, -, rfl⟩ := List.mem_map.mp hc
      simp
    · rw [if_neg (by simpa using hd), hall, List.filter_eq_nil_iff]
      intro c hc
      obtain ⟨matcher, -, rfl⟩ := List.mem_map.mp hc
      simpa using Ne.symm hd
  · rw [hall] at hc
    obtain ⟨matcher, -, rfl⟩ := List.mem_map.mp hc
    exact List.prefix_rfl

variable {eng fs root} {reads : List Path} {rules : IgnoreRules γ} {options : IgnoreOptions}

theorem Held.loadDir (h : Held eng fs root reads rules) (dir : Path) :
    Held eng fs root (reads ++ [dir]) (rules.loadDir eng fs (root ++ dir)) := by
  refine ⟨fun d => ?_, fun c hc => ?_⟩
  · rw [filter_loadDir, h.1 d]
    by_cases hd : d = dir
    · subst hd
      by_cases hheld : d = [] ∨ d ∈ reads
      · have hafter : d = [] ∨ d ∈ reads ++ [d] := .inr (by simp)
        rw [if_pos hheld, if_pos hafter]
        by_cases hown : ownRules eng fs root d = []
        · -- read again, and still without ignore files
          have hfiles := (List.append_eq_nil_iff.mp hown).1
          rw [if_pos ⟨rfl, by rw [hown, List.map_nil]⟩, hfiles, hown]
        · rw [if_neg fun hn => hown (List.map_eq_nil_iff.mp hn.2)]
      · rw [if_neg hheld, if_pos ⟨rfl, rfl⟩, if_pos (by simp), ownRules,
          if_neg fun hn => hheld (.inl hn), List.append_nil]
    · rw [if_neg fun hn => hd (List.append_cancel_left hn.1)]
      simp [hd]
  · rw [IgnoreRules.loadDir] at hc
    split at hc
    · exact h.2 c hc
    · rw [foldl_loadFile] at hc
      rcases List.mem_append.mp hc with hc | hc
      · exact h.2 c hc
      · obtain ⟨matcher, -, rfl⟩ := List.mem_map.mp hc
        exact List.prefix_append root dir

theorem Held.readAll (h : Held eng fs root reads rules) (more : List Path) :
    Held eng fs root (reads ++ more)
      ((⟨rules⟩ : DirReader γ).readAll eng fs (more.map (root ++ ·))).rules := by
  induction more generalizing reads rules with
  | nil => simpa [DirReader.readAll] using h
  | cons dir more ih =>
    have hnext := ih (h.loadDir dir)
    rw [List.append_assoc, List.singleton_append] at hnext
    exact hnext

theorem held_readerAfter : Held eng fs root reads (readerAfter eng fs root options reads).rules :=
  (held_forRoot eng fs root options).readAll reads

@[simp] theorem options_loadDir {dir : Path} :
    (rules.loadDir eng fs dir).options = rules.options := by
  unfold IgnoreRules.loadDir
  split
  · rfl
  · rw [foldl_loadFile]

@[simp] theorem options_readerAfter :
    (readerAfter eng fs root options reads).rules.options = options := by
  suffices h : ∀ (r : DirReader γ) (paths : List Path),
      (r.readAll eng fs paths).rules.options = r.rules.options by
    rw [readerAfter, h, DirReader.new, IgnoreRules.forRoot, loadFile_eq]
    exact options_loadDir
  intro r paths
  induction paths generalizing r with
  | nil => rfl
  | cons path paths ih => exact (ih _).trans options_loadDir

/-! ## What is answered -/

/-- Sorting the candidates asks the directories on the way up, each for its own matchers. -/
theorem isIgnored_eq (rules : IgnoreRules γ) (path : Path) (isDir : Bool) :
    rules.isIgnored eng path isDir = decide (path.inits.reverse.findSome? (fun dir =>
      (rules.matchers.filter (·.1 = dir)).findSome? fun c =>
        eng.matchedPathOrAnyParents c.2 (path.drop c.1.length) isDir) = some .ignore) := by
  have hbelow : ∀ c ∈ rules.matchers.filter fun c => path.startsWith c.1,
      c.1.length < path.length + 1 := fun c hc => by
    have hp : c.1 <+: path := List.isPrefixOf_iff_prefix.mp (List.mem_filter.mp hc).2
    exact Nat.lt_succ_of_le hp.length_le
  have hups : path.inits.reverse = (List.range (path.length + 1)).reverse.map path.take := by
    rw [List.map_reverse]
    congr 1
    refine List.ext_getElem (by simp) fun n h h' => ?_
    simp [List.getElem_inits]
  rw [IgnoreRules.isIgnored, findSome?_insertionSort _ hbelow, hups, List.findSome?_map]
  congr 2
  refine findSome?_congr fun k hk => ?_
  have hk : k ≤ path.length := by
    have := List.mem_range.mp (List.mem_reverse.mp hk)
    omega
  rw [Function.comp_apply, List.filter_filter]
  congr 1
  refine List.filter_congr fun c _ => ?_
  -- of the directories on the way there is one of each depth
  rw [Bool.eq_iff_iff, Bool.and_eq_true, decide_eq_true_eq, decide_eq_true_eq, Path.startsWith,
    List.isPrefixOf_iff_prefix]
  constructor
  · rintro ⟨hlen, hp⟩
    rw [List.prefix_iff_eq_take.mp hp, hlen]
  · intro h
    rw [h]
    exact ⟨by simp [hk], List.take_prefix k path⟩

theorem inits_eq_cons (entry : Path) : ∃ tail, entry.inits = [] :: tail ∧ [] ∉ tail := by
  cases entry with
  | nil => exact ⟨[], rfl, by simp⟩
  | cons a entry => exact ⟨_, List.inits_cons a entry, by simp⟩

/-- A reader follows the nested files it has read, and then the root's. -/
theorem isIgnored_readerAfter (entry : Path) (isDir : Bool) :
    (readerAfter eng fs root options reads).rules.isIgnored eng (root ++ entry) isDir =
      decide (ruling eng fs root (nested reads entry ++ [[]]) entry isDir = some .ignore) := by
  have hheld : Held eng fs root reads (readerAfter eng fs root options reads).rules :=
    held_readerAfter
  set rules := (readerAfter eng fs root options reads).rules
  set ask : Path × γ → Option Verdict := fun c =>
    eng.matchedPathOrAnyParents c.2 ((root ++ entry).drop c.1.length) isDir
  -- below the root: the directories read answer with their own matchers
  have hbelow : ∀ dir, (rules.matchers.filter (·.1 = root ++ dir)).findSome? ask =
      if dir = [] ∨ dir ∈ reads then ruling eng fs root [dir] entry isDir else none := by
    intro dir
    rw [hheld.1 dir]
    split
    · simp [ruling, List.findSome?_map, Function.comp_def, ask]
    · rfl
  have habove : ∀ dir ∈ root.inits.reverse, dir ≠ root →
      (rules.matchers.filter (·.1 = dir)).findSome? ask = none := by
    intro dir hdir hne
    have hnil : rules.matchers.filter (·.1 = dir) = [] := by
      refine List.filter_eq_nil_iff.mpr fun c hc hcd => hne ?_
      have hcd : c.1 = dir := by simpa using hcd
      have hdir : dir <+: root := (List.mem_inits _ _).mp (List.mem_reverse.mp hdir)
      exact hdir.eq_of_length_le (hcd ▸ (hheld.2 c hc).length_le)
    rw [hnil]
    rfl
  have hroot : root.inits.reverse.findSome?
      (fun dir => (rules.matchers.filter (·.1 = dir)).findSome? ask) =
        ruling eng fs root [[]] entry isDir := by
    have hself : root ∈ root.inits.reverse :=
      List.mem_reverse.mpr ((List.mem_inits _ _).mpr List.prefix_rfl)
    have hown := hbelow []
    rw [List.append_nil, if_pos (.inl rfl)] at hown
    rw [findSome?_eq_of_only hself habove, hown]
  have hdown : (entry.inits.tail.map (root ++ ·)).reverse.findSome?
      (fun dir => (rules.matchers.filter (·.1 = dir)).findSome? ask) =
        ruling eng fs root (nested reads entry) entry isDir := by
    obtain ⟨tail, htail, hnotin⟩ := inits_eq_cons entry
    rw [← List.map_reverse, List.findSome?_map, ruling, nested, findSome?_filter, htail,
      List.tail_cons, List.reverse_cons, List.findSome?_append]
    have hempty : [([] : Path)].findSome? (fun dir =>
        if decide (dir ≠ [] ∧ dir ∈ reads) = true then
          (ownRules eng fs root dir).findSome? fun matcher =>
            eng.matchedPathOrAnyParents matcher (entry.drop dir.length) isDir
        else none) = none := by simp
    rw [hempty, Option.or_none]
    refine findSome?_congr fun dir hdir => ?_
    have hne : dir ≠ [] := fun hn => hnotin (hn ▸ List.mem_reverse.mp hdir)
    rw [Function.comp_apply, hbelow]
    simp [hne, ruling]
  rw [isIgnored_eq, List.inits_append, List.reverse_append, List.findSome?_append, hdown, hroot,
    ruling, ruling, ruling, List.findSome?_append]

/-- A reader hides what its name, the nested files it has read and the root's files leave out. -/
theorem isHidden_readerAfter {entry : Path} (he : entry ≠ []) (isDir : Bool) :
    (readerAfter eng fs root options reads).rules.isHidden eng (root ++ entry) isDir =
      leavesOut options entry
        (ruling eng fs root (nested reads entry ++ [[]]) entry isDir) := by
  have hname : (root ++ entry).fileName = entry.fileName := by
    rw [Path.fileName, Path.fileName, List.getLast?_append_of_ne_nil _ he]
  rw [IgnoreRules.isHidden, isIgnored_readerAfter, options_readerAfter, hname, leavesOut, isDotted]
  cases options.showHidden with
  | true => cases options.showIgnored <;> simp
  | false =>
    by_cases hdot : (entry.fileName.getD "").toList.head? = some '.'
    · simp [hdot]
    · cases options.showIgnored <;> simp [hdot]

theorem nested_nil (entry : Path) : nested [] entry = [] := by
  simp [nested]

theorem isHidden_forRoot {entry : Path} (he : entry ≠ []) (isDir : Bool) :
    (IgnoreRules.forRoot eng fs root options).isHidden eng (root ++ entry) isDir =
      leavesOut options entry (ruling eng fs root [[]] entry isDir) := by
  have h : (readerAfter eng fs root options []).rules.isHidden eng (root ++ entry) isDir = _ :=
    isHidden_readerAfter he isDir
  rwa [nested_nil, List.nil_append] at h

end Filesystem

end Termesh
