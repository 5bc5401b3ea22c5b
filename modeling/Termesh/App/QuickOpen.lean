import Mathlib.Order.WithBot
import Termesh.Core.Search
import Termesh.Core.Spelling
import Termesh.Search.Fuzzy

/-!
# Quick open

The overlay ranks the paths of its matches, and those are spelled with the workspace root in front.

* `SearchOverlay`, `refilter`: what is shown of the matches, for both modes;
* `joinSpelled`, `shown`: files joined to a root, and those shown of them;
* `names`: what a relative path adds to a root; **`ofString_joinSpelled`**;
* **`scoreOf_joinSpelled`**: a root that the query's first character is not in shifts every score;
* **`shown_root_independent`**: exactly when the root does not matter.
-/

namespace Termesh

namespace App

open Search Sorting

/-- `SearchMatch`, with its path as it is spelled. -/
structure OverlayMatch where
  path : String
  line : Option ℕ
  column : Option ℕ
  text : Option String

/-- What `refilter` reads and writes of the overlay. -/
structure SearchOverlay where
  mode : SearchMode
  query : Text
  found : List OverlayMatch
  visible : List ℕ
  selected : ℕ

/-- `VISIBLE_LIMIT`. -/
def visibleLimit : ℕ := 200

/-- How components compare: by kind first, names by their bytes. -/
def componentKey : Component → ℕ ×ₗ List Char
  | .rootDir => toLex (0, [])
  | .curDir => toLex (1, [])
  | .parentDir => toLex (2, [])
  | .normal name => toLex (3, name.toList)

/-- How text matches compare: by path, line and column. -/
def OverlayMatch.key (m : OverlayMatch) : List (ℕ ×ₗ List Char) ×ₗ WithBot ℕ ×ₗ WithBot ℕ :=
  toLex ((Path.ofString m.path).map componentKey, toLex (m.line, m.column))

/-- The index a path is kept under: the last match of an equal path. -/
def byPath (path : String) : ℕ → List OverlayMatch → Option ℕ
  | _, [] => none
  | index, m :: found =>
    (byPath path (index + 1) found).or
      (if Path.ofString m.path = Path.ofString path then some index else none)

namespace SearchOverlay

/-- The selection stays among what is visible. -/
def clampSelected (o : SearchOverlay) : SearchOverlay :=
  if o.visible.length ≤ o.selected then { o with selected := o.visible.length - 1 } else o

/-- `refilter`. -/
def refilter (T : CaseTable) (o : SearchOverlay) : SearchOverlay :=
  match o.mode with
  | .text =>
    let found := sortBy OverlayMatch.key o.found
    clampSelected { o with found, visible := List.range (min found.length visibleLimit) }
  | .files =>
    let ranked := rankFiles T (o.found.map OverlayMatch.path) o.query
    clampSelected { o with visible := (ranked.filterMap (byPath · 0 o.found)).take visibleLimit }

@[simp] theorem clampSelected_visible (o : SearchOverlay) :
    o.clampSelected.visible = o.visible := by
  rw [clampSelected]
  split_ifs <;> rfl

end SearchOverlay

/-! ## Files joined to a root -/

/-- A root with the separator that `PathBuf::push` puts behind it. -/
def rootPrefix (root : String) : Text :=
  if root.toList = [] ∨ root.toList.getLast? = some '/' then root.toList else root.toList ++ ['/']

/-- `Path::join`, as it spells the path. -/
def joinSpelled (root path : String) : String :=
  if path.toList.head? = some '/' then path else String.ofList (rootPrefix root ++ path.toList)

/-- Quick open on the files of a workspace. -/
def quickOpen (root : String) (files : List String) (query : Text) : SearchOverlay where
  mode := .files
  query := query
  found := files.map fun path =>
    { path := joinSpelled root path, line := none, column := none, text := none }
  visible := []
  selected := 0

/-- The files shown, in order, as they are spelled below the root. -/
def shown (T : CaseTable) (root : String) (files : List String) (query : Text) : List String :=
  ((quickOpen root files query).refilter T).visible.filterMap (files[·]?)

/-- A relative path that names a file. -/
structure IsRelativeFile (path : String) : Prop where
  relative : path.toList.head? ≠ some '/'
  named : ((Path.ofString path).fileName).isSome

/-- No character of the root is one that the query is matched with. -/
def RootUnmatched (T : CaseTable) (root : String) (files : List String) (query : Text) : Prop :=
  ∀ path ∈ files, ∀ positions,
    subsequencePositions T (joinSpelled root path).toList query (isSensitive T query) =
      some positions → ∀ i ∈ positions, (rootPrefix root).length ≤ i

/-- The query is empty, its first character is in no part of the root, or it selects no file. -/
def ClearOfRoot (T : CaseTable) (root : String) (files : List String) (query : Text) : Prop :=
  match query with
  | [] => True
  | first :: _ =>
    (∀ c ∈ rootPrefix root, charsEqual T c first (isSensitive T query) = false) ∨
      ∀ path ∈ files, ¬Contains T query (joinSpelled root path).toList

/-! ## What a path adds to a root -/

/-- The components of a relative path behind a root. -/
def names (path : String) : Path := (Path.splitSlash path.toList).filterMap Path.component

theorem ofString_absolute (t : Text) : Path.ofString (String.ofList ('/' :: t)) =
    .rootDir :: (Path.splitSlash t).filterMap Path.component := by
  have hne : Path.splitSlash t ≠ [] := by
    rw [Path.splitSlash_eq]
    exact List.splitOn_ne_nil '/' t
  simp [Path.ofString, Path.splitSlash, hne]

/-- An absolute root in front: the leading separator, and nothing else or a part that ends in one. -/
theorem rootPrefix_absolute {root : String} (h : root.toList.head? = some '/') :
    ∃ t, rootPrefix root = '/' :: t ∧ (t = [] ∨ ∃ t', t = t' ++ ['/']) := by
  obtain ⟨t, ht⟩ : ∃ t, root.toList = '/' :: t := by
    cases hroot : root.toList with
    | nil => simp [hroot] at h
    | cons c t =>
      rw [hroot, List.head?_cons, Option.some_inj] at h
      exact ⟨t, by rw [h]⟩
  rw [rootPrefix, ht]
  by_cases hlast : ('/' :: t).getLast? = some '/'
  · rw [if_pos (.inr hlast)]
    refine ⟨t, rfl, ?_⟩
    cases List.eq_nil_or_concat t with
    | inl hnil => exact .inl hnil
    | inr hconcat =>
      obtain ⟨t', c, rfl⟩ := hconcat
      rw [List.concat_eq_append, ← List.cons_append, List.getLast?_concat, Option.some_inj]
        at hlast
      exact .inr ⟨t', by rw [List.concat_eq_append, hlast]⟩
  · rw [if_neg (by simp [hlast])]
    exact ⟨t ++ ['/'], rfl, .inr ⟨t, rfl⟩⟩

/-- **A relative path adds its names to a root**, whatever the root. -/
theorem ofString_joinSpelled {root : String} (h : root.toList.head? = some '/') :
    ∃ base : Path, ∀ path, path.toList.head? ≠ some '/' →
      Path.ofString (joinSpelled root path) = base ++ names path := by
  obtain ⟨t, ht, hend⟩ := rootPrefix_absolute h
  refine ⟨.rootDir :: (Path.splitSlash t).filterMap Path.component, fun path hpath => ?_⟩
  rw [joinSpelled, if_neg hpath, ht, List.cons_append, ofString_absolute, List.cons_append, names]
  refine congrArg _ ?_
  simp only [Path.splitSlash_eq]
  rcases hend with rfl | ⟨t', rfl⟩
  · rfl
  · rw [List.append_assoc, List.singleton_append, List.splitOn_append_cons_self,
      List.splitOn_append_cons_self, List.filterMap_append, List.filterMap_append,
      List.append_assoc]
    rfl

theorem fileName_names {path : String} (h : IsRelativeFile path) :
    ∃ first last name, names path = first ++ [last] ∧ last = .normal name ∧
      (Path.ofString path).fileName = some name := by
  obtain ⟨name, hname⟩ := Option.isSome_iff_exists.mp h.named
  have hlast {p : Path} (hp : p.fileName = some name) : p.getLast? = some (.normal name) := by
    unfold Path.fileName at hp
    split at hp
    · rename_i s hs
      rw [hs, Option.some.inj hp]
    · cases hp
  have hnames : (names path).getLast? = some (.normal name) := by
    have hget := hlast hname
    have hbehind {c : Component} {p : Path} (hc : c ≠ .normal name)
        (h : (c :: p).getLast? = some (.normal name)) : p.getLast? = some (.normal name) := by
      rw [List.getLast?_cons] at h
      cases hp : p.getLast? with
      | none =>
        rw [hp] at h
        exact absurd (Option.some.inj h) hc
      | some last => rwa [hp] at h
    rw [Path.ofString] at hget
    rw [names]
    split at hget
    · simp at hget
    · rename_i pieces hsplit
      rw [hsplit]
      split_ifs at hget
      · simp at hget
      · exact hbehind (by simp) hget
    · rename_i pieces hsplit
      rw [hsplit]
      exact hbehind (by simp) hget
    · exact hget
  obtain ⟨first, hfirst⟩ := List.getLast?_eq_some_iff.mp hnames
  exact ⟨first, _, name, hfirst, rfl, hname⟩

theorem fileName_joinSpelled {root path : String} (hroot : root.toList.head? = some '/')
    (h : IsRelativeFile path) :
    (Path.ofString (joinSpelled root path)).fileName = (Path.ofString path).fileName := by
  obtain ⟨base, hbase⟩ := ofString_joinSpelled hroot
  obtain ⟨first, last, name, hnames, rfl, hname⟩ := fileName_names h
  rw [hbase path h.relative, hname, hnames, ← List.append_assoc, Path.fileName,
    List.getLast?_concat]

theorem toList_joinSpelled {root path : String} (h : path.toList.head? ≠ some '/') :
    (joinSpelled root path).toList = rootPrefix root ++ path.toList := by
  rw [joinSpelled, if_neg h, String.toList_ofList]

/-! ## Scores behind a root -/

/-- The score of a path behind a root. -/
def shiftScore (root : String) (s : Score) : Score :=
  { s with
    firstMatch := (rootPrefix root).length + s.firstMatch
    pathLen := (rootPrefix root).length + s.pathLen
    stablePath := joinSpelled root s.stablePath }

theorem gapCount_shift (k : ℕ) (positions : List ℕ) :
    gapCount (positions.map (k + ·)) = gapCount positions := by
  induction positions with
  | nil => rfl
  | cons p positions ih =>
    cases positions with
    | nil => rfl
    | cons q positions =>
      rw [List.map_cons, List.map_cons, gapCount, gapCount, ← List.map_cons (f := (k + ·)), ih]
      congr 1
      omega

theorem shiftScore_key_le {root : String} {s t : Score} (hs : s.stablePath.toList.head? ≠ some '/')
    (ht : t.stablePath.toList.head? ≠ some '/') :
    (shiftScore root s).key ≤ (shiftScore root t).key ↔ s.key ≤ t.key := by
  simp only [Score.key, shiftScore, toList_joinSpelled hs, toList_joinSpelled ht,
    Prod.Lex.toLex_le_toLex, append_le_append_iff, Nat.add_lt_add_iff_left, Nat.add_right_inj]

/-- **A root without the query's first character** shifts the score of every path alike. -/
theorem scoreOf_joinSpelled {T : CaseTable} {root path : String} {first : Char} {wanted : Text}
    {sensitive : Bool} (hroot : root.toList.head? = some '/') (h : IsRelativeFile path)
    (hclear : ∀ c ∈ rootPrefix root, charsEqual T c first sensitive = false) :
    scoreOf T (first :: wanted) sensitive (joinSpelled root path) =
      (scoreOf T (first :: wanted) sensitive path).map (shiftScore root) := by
  have hne : first :: wanted ≠ [] := by simp
  have hskip : ∀ c ∈ rootPrefix root, ¬Meets T sensitive first c := fun c hc => by
    rw [Meets, hclear c hc]
    simp
  have hname : filenameMatches T (first :: wanted) sensitive (joinSpelled root path) =
      filenameMatches T (first :: wanted) sensitive path := by
    rw [filenameMatches, filenameMatches, fileName_joinSpelled hroot h]
  have hpositions : subsequencePositions T (joinSpelled root path).toList (first :: wanted)
      sensitive = (subsequencePositions T path.toList (first :: wanted) sensitive).map
        (List.map ((rootPrefix root).length + ·)) := by
    rw [subsequencePositions_eq _ _ hne, subsequencePositions_eq _ _ hne,
      toList_joinSpelled h.relative, Scanning.scan_append hskip, Scanning.scan_shift]
  rw [scoreOf, scoreOf, hpositions, Option.map_map, Option.map_map]
  refine Option.map_congr fun positions hsome => ?_
  rw [subsequencePositions_eq _ _ hne] at hsome
  obtain ⟨p, rest, rfl⟩ := List.exists_cons_of_length_eq_add_one (Scanning.scan_length hsome)
  have hgap := gapCount_shift (rootPrefix root).length (p :: rest)
  rw [List.map_cons] at hgap
  simp only [Function.comp_apply, shiftScore, hname, toList_joinSpelled h.relative,
    List.length_append, List.map_cons, List.headD_cons, hgap]

theorem scoredFiles_joinSpelled {T : CaseTable} {root : String} {first : Char} {wanted : Text}
    (hroot : root.toList.head? = some '/') {files : List String}
    (hfiles : ∀ path ∈ files, IsRelativeFile path)
    (hclear : ∀ c ∈ rootPrefix root,
      charsEqual T c first (isSensitive T (first :: wanted)) = false) :
    scoredFiles T (first :: wanted) (files.map (joinSpelled root)) =
      (scoredFiles T (first :: wanted) files).map
        fun entry => (shiftScore root entry.1, joinSpelled root entry.2) := by
  rw [scoredFiles, scoredFiles, List.filterMap_map, List.map_filterMap]
  refine List.filterMap_congr fun path hmem => ?_
  rw [Function.comp_apply, scoreOf_joinSpelled hroot (hfiles path hmem) hclear, Option.map_map,
    Option.map_map]
  rfl

theorem rankFiles_eq_nil {T : CaseTable} {files : List String} {query : Text}
    (h : ∀ path ∈ files, ¬Contains T query path.toList) : rankFiles T files query = [] := by
  have hperm := rankFiles_perm (T := T) files query
  rw [List.filter_eq_nil_iff.mpr fun path hmem => by simpa using h path hmem] at hperm
  exact hperm.eq_nil

/-- A query that a root does not hold ranks files behind the root as it ranks them without. -/
theorem rankFiles_joinSpelled {T : CaseTable} {root : String} {files : List String} {query : Text}
    (hroot : root.toList.head? = some '/') (hfiles : ∀ path ∈ files, IsRelativeFile path)
    (hclear : ClearOfRoot T root files query) :
    rankFiles T (files.map (joinSpelled root)) query =
      (rankFiles T files query).map (joinSpelled root) := by
  cases query with
  | nil =>
    rw [rankFiles, rankFiles, if_pos rfl, if_pos rfl]
    refine (sortBy_map fun a ha b hb => ?_).symm
    rw [toList_joinSpelled (hfiles a ha).relative, toList_joinSpelled (hfiles b hb).relative,
      append_le_append_iff]
  | cons first wanted =>
    have hne : first :: wanted ≠ [] := by simp
    rcases hclear with hclear | hnone
    · have hrelative {entry : Score × String}
          (h : entry ∈ scoredFiles T (first :: wanted) files) :
          entry.1.stablePath.toList.head? ≠ some '/' := by
        obtain ⟨hmem, hscore⟩ := mem_scoredFiles h
        rw [(stablePath_of_scoreOf hscore).1]
        exact (hfiles _ hmem).relative
      have hsort : (sortBy (fun entry : Score × String => entry.1.key)
            (scoredFiles T (first :: wanted) files)).map
              (fun entry => (shiftScore root entry.1, joinSpelled root entry.2)) =
          sortBy (fun entry => entry.1.key) ((scoredFiles T (first :: wanted) files).map
            fun entry => (shiftScore root entry.1, joinSpelled root entry.2)) :=
        sortBy_map fun a ha b hb => (shiftScore_key_le (hrelative ha) (hrelative hb)).symm
      rw [rankFiles_of_ne_nil hne, rankFiles_of_ne_nil hne,
        scoredFiles_joinSpelled hroot hfiles hclear, ← hsort, List.map_map, List.map_map]
      rfl
    · have hrelative (path : String) (hmem : path ∈ files) :
          ¬Contains T (first :: wanted) path.toList := fun h => by
        refine hnone path hmem ?_
        rw [toList_joinSpelled (hfiles path hmem).relative]
        exact Scanning.sublistForall₂_append_right h
      rw [rankFiles_eq_nil hrelative, rankFiles_eq_nil, List.map_nil]
      intro path hmem
      obtain ⟨rel, hrel, rfl⟩ := List.mem_map.mp hmem
      exact hnone rel hrel

/-! ## What is shown -/

/-- The index of the last file of the same names. -/
def byNames (path : String) : ℕ → List String → Option ℕ
  | _, [] => none
  | index, f :: files =>
    (byNames path (index + 1) files).or (if names f = names path then some index else none)

theorem byPath_joinSpelled {root path : String} (hroot : root.toList.head? = some '/')
    (hpath : path.toList.head? ≠ some '/') {files : List String}
    (hfiles : ∀ f ∈ files, IsRelativeFile f) (index : ℕ) :
    byPath (joinSpelled root path) index (files.map fun f =>
        { path := joinSpelled root f, line := none, column := none, text := none }) =
      byNames path index files := by
  obtain ⟨base, hbase⟩ := ofString_joinSpelled hroot
  induction files generalizing index with
  | nil => rfl
  | cons f files ih =>
    have hf := (hfiles f List.mem_cons_self).relative
    rw [List.map_cons, byPath, ih (fun g hg => hfiles g (List.mem_cons_of_mem _ hg)), byNames,
      hbase f hf, hbase path hpath]
    simp only [List.append_cancel_left_eq]

/-- A query that the root does not hold shows what ranking the relative paths shows. -/
theorem shown_eq {T : CaseTable} {root : String} {files : List String} {query : Text}
    (hroot : root.toList.head? = some '/') (hfiles : ∀ path ∈ files, IsRelativeFile path)
    (hclear : ClearOfRoot T root files query) :
    shown T root files query =
      (((rankFiles T files query).filterMap (byNames · 0 files)).take visibleLimit).filterMap
        (files[·]?) := by
  have hpaths : (quickOpen root files query).found.map OverlayMatch.path =
      files.map (joinSpelled root) := by
    simp [quickOpen]
  have hvisible : ((rankFiles T files query).map (joinSpelled root)).filterMap
      (byPath · 0 (quickOpen root files query).found) =
        (rankFiles T files query).filterMap (byNames · 0 files) := by
    rw [List.filterMap_map]
    refine List.filterMap_congr fun path hmem => ?_
    have hpath := hfiles path (List.mem_of_mem_filter ((rankFiles_perm files query).subset hmem))
    exact byPath_joinSpelled hroot hpath.relative hfiles 0
  have hrank := rankFiles_joinSpelled hroot hfiles hclear
  rw [← hpaths] at hrank
  rw [shown, SearchOverlay.refilter]
  simp only [quickOpen, SearchOverlay.clampSelected_visible]
  simp only [quickOpen] at hrank hvisible
  rw [hrank, hvisible]

theorem rootUnmatched_iff {T : CaseTable} {root : String} {files : List String} {query : Text}
    (hfiles : ∀ path ∈ files, IsRelativeFile path) :
    RootUnmatched T root files query ↔ ClearOfRoot T root files query := by
  cases query with
  | nil =>
    refine iff_of_true (fun path _ positions hpositions => ?_) trivial
    cases hpositions
  | cons first wanted =>
    have hne : first :: wanted ≠ [] := by simp
    have hmeets (c : Char) : Meets T (isSensitive T (first :: wanted)) first c ↔
        ¬charsEqual T c first (isSensitive T (first :: wanted)) = false := by
      simp [Meets]
    constructor
    · intro h
      by_contra hclear
      obtain ⟨hroot, hsome⟩ := not_or.mp hclear
      push Not at hroot hsome
      obtain ⟨c, hc, hfirst⟩ := hroot
      obtain ⟨path, hmem, hcontains⟩ := hsome
      obtain ⟨positions, hpositions⟩ :=
        Option.isSome_iff_exists.mp ((isSome_subsequencePositions hne _).mpr hcontains)
      have hscan := hpositions
      rw [subsequencePositions_eq _ _ hne, toList_joinSpelled (hfiles path hmem).relative] at hscan
      obtain ⟨i, hi, hlt⟩ := Scanning.scan_front ⟨c, hc, (hmeets c).mpr hfirst⟩ hscan
      have hle := h path hmem positions hpositions i hi
      omega
    · rintro (hroot | hnone) path hmem positions hpositions i hi
      · rw [subsequencePositions_eq _ _ hne, toList_joinSpelled (hfiles path hmem).relative,
          Scanning.scan_append (fun c hc => by rw [hmeets c, not_not]; exact hroot c hc),
          Scanning.scan_shift] at hpositions
        obtain ⟨rest, -, rfl⟩ := Option.map_eq_some_iff.mp hpositions
        obtain ⟨k, -, rfl⟩ := List.mem_map.mp hi
        exact Nat.le_add_right _ k
      · refine absurd ((isSome_subsequencePositions hne _).mp ?_) (hnone path hmem)
        rw [hpositions]
        rfl

/-- **Quick open does not see the root exactly when** the query is empty, or its first character is
in neither root, or the query selects nothing there: otherwise characters of the root are matched. -/
theorem shown_root_independent (T : CaseTable) {root root' : String}
    (hroot : root.toList.head? = some '/') (hroot' : root'.toList.head? = some '/')
    (files : List String) (hfiles : ∀ path ∈ files, IsRelativeFile path) (query : Text) :
    (shown T root files query = shown T root' files query ∧
        RootUnmatched T root files query ∧ RootUnmatched T root' files query) ↔
      ClearOfRoot T root files query ∧ ClearOfRoot T root' files query := by
  rw [rootUnmatched_iff hfiles, rootUnmatched_iff hfiles]
  refine and_iff_right_of_imp fun h => ?_
  rw [shown_eq hroot hfiles h.1, shown_eq hroot' hfiles h.2]

/-- Two files in two workspaces. -/
theorem shown_root_independent_two :
    (shown .dotted "/rust" ["a", "b/a"] ['a'] = shown .dotted "/w" ["a", "b/a"] ['a'] ∧
        RootUnmatched .dotted "/rust" ["a", "b/a"] ['a'] ∧
        RootUnmatched .dotted "/w" ["a", "b/a"] ['a']) ↔
      ClearOfRoot .dotted "/rust" ["a", "b/a"] ['a'] ∧
        ClearOfRoot .dotted "/w" ["a", "b/a"] ['a'] := by
  refine shown_root_independent .dotted (by decide) (by decide) ["a", "b/a"] ?_ ['a']
  intro path hmem
  rcases List.mem_pair.mp hmem with rfl | rfl
  · exact ⟨by decide, by decide⟩
  · exact ⟨by decide, by decide⟩

/-- A file without the letter of the query is shown below a root that has it. -/
theorem root_matched : IsRelativeFile "a" ∧ shown .dotted "/rust" ["a"] ['r'] = ["a"] ∧
    shown .dotted "/w" ["a"] ['r'] = [] :=
  ⟨⟨by decide, by decide⟩, by decide, by decide⟩

end App

end Termesh
