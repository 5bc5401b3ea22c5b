import Mathlib.Data.List.Lex
import Mathlib.Data.Prod.Lex
import Mathlib.Data.String.Basic
import Termesh.Core.Path
import Termesh.Editor.Casing
import Termesh.Lib.Scanning
import Termesh.Lib.Sorting

/-!
# Ranking files

A path is the text it is spelled with: ranking reads its characters.

* `charsEqual`, `subsequencePositions`, `Score`, `rankFiles`: quick open's ranking;
* `Contains`, `FileNameContains`: what a query selects, and what it puts first;
* **`subsequencePositions_eq`**: the loop is a greedy scan;
* **`rankFiles_complete`**: all that is selected, by file name first, however the files come.
-/

namespace Termesh

namespace Search

open Sorting

section

variable (T : CaseTable)

/-- `chars_equal`. -/
def charsEqual (left right : Char) (sensitive : Bool) : Bool :=
  if sensitive then left == right else T.toLower left == T.toLower right

/-- Smart case: an uppercase character in the query. -/
def isSensitive (query : Text) : Bool := query.any T.isUppercase

/-- The loop of `subsequence_positions`, from `index` on: `current` is wanted, and then `wanted`. -/
def positionsFrom (sensitive : Bool) : ℕ → Text → Char → Text → Option (List ℕ)
  | _, [], _, _ => none
  | index, candidate :: haystack, current, wanted =>
    if charsEqual T candidate current sensitive then
      match wanted with
      | next :: wanted =>
        (positionsFrom sensitive (index + 1) haystack next wanted).map (index :: ·)
      | [] => some [index]
    else positionsFrom sensitive (index + 1) haystack current wanted

/-- `subsequence_positions`. -/
def subsequencePositions (haystack needle : Text) (sensitive : Bool) : Option (List ℕ) :=
  match needle with
  | [] => none
  | current :: wanted => positionsFrom T sensitive 0 haystack current wanted

/-- How a path ranks; the fields are compared in this order. -/
structure Score where
  filenameMiss : Bool
  gapCount : ℕ
  firstMatch : ℕ
  pathLen : ℕ
  stablePath : String
deriving DecidableEq

/-- What is compared of a score. -/
def Score.key (s : Score) : Bool ×ₗ ℕ ×ₗ ℕ ×ₗ ℕ ×ₗ List Char :=
  toLex (s.filenameMiss, toLex (s.gapCount, toLex (s.firstMatch, toLex (s.pathLen,
    s.stablePath.toList))))

/-- The characters skipped between one position and the next. -/
def gapCount : List ℕ → ℕ
  | p :: q :: positions => (q - (p + 1)) + gapCount (q :: positions)
  | _ => 0

/-- The file name of a path matches by itself. -/
def filenameMatches (query : Text) (sensitive : Bool) (path : String) : Bool :=
  match (Path.ofString path).fileName with
  | some name => (subsequencePositions T name.toList query sensitive).isSome
  | none => false

/-- The score of a path that matches. -/
def scoreOf (query : Text) (sensitive : Bool) (path : String) : Option Score :=
  (subsequencePositions T path.toList query sensitive).map fun positions =>
    { filenameMiss := !filenameMatches T query sensitive path
      gapCount := gapCount positions
      firstMatch := positions.headD 0
      pathLen := path.toList.length
      stablePath := path }

/-- `rank_files`: files filtered by the query and ranked. -/
def rankFiles (files : List String) (query : Text) : List String :=
  if query = [] then sortBy String.toList files
  else
    let sensitive := isSensitive T query
    let scored := files.filterMap fun path =>
      (scoreOf T query sensitive path).map fun score => (score, path)
    (sortBy (fun entry : Score × String => entry.1.key) scored).map Prod.snd

/-! ## What a query selects -/

/-- The query's characters stand in the text, in order: the same characters when one of the query is
uppercase, and characters of equal lowercasings otherwise. -/
def Contains (query text : Text) : Prop :=
  List.SublistForall₂ (fun wanted c =>
    if query.any T.isUppercase then c = wanted else T.toLower c = T.toLower wanted) query text

/-- The file name of a path contains the query by itself. -/
def FileNameContains (query : Text) (path : String) : Prop :=
  ∃ name, (Path.ofString path).fileName = some name ∧ Contains T query name.toList

/-- The file name of a path does not contain the query: it has one that does not, or it has none
that could. -/
def FileNameMisses (query : Text) (path : String) : Prop :=
  match (Path.ofString path).fileName with
  | some name => ¬Contains T query name.toList
  | none => query ≠ []

end

variable {T : CaseTable}

/-! ## The loop -/

/-- A character found for a wanted one. -/
abbrev Meets (T : CaseTable) (sensitive : Bool) (wanted c : Char) : Prop :=
  charsEqual T c wanted sensitive = true

theorem positionsFrom_eq (sensitive : Bool) (index : ℕ) (haystack : Text) (current : Char)
    (wanted : Text) : positionsFrom T sensitive index haystack current wanted =
      Scanning.scan (Meets T sensitive) index haystack (current :: wanted) := by
  induction haystack generalizing index current wanted with
  | nil => rfl
  | cons c haystack ih =>
    cases wanted with
    | nil => simp only [positionsFrom, Scanning.scan, Scanning.scan_nil, ih, Option.map_some]
    | cons next wanted => simp only [positionsFrom, Scanning.scan, ih]

/-- **The loop is a greedy scan.** -/
theorem subsequencePositions_eq (haystack : Text) (sensitive : Bool) {needle : Text}
    (h : needle ≠ []) : subsequencePositions T haystack needle sensitive =
      Scanning.scan (Meets T sensitive) 0 haystack needle := by
  obtain ⟨current, wanted, rfl⟩ := List.exists_cons_of_ne_nil h
  exact positionsFrom_eq sensitive 0 haystack current wanted

theorem meets_iff (query : Text) (wanted c : Char) : Meets T (isSensitive T query) wanted c ↔
    if query.any T.isUppercase then c = wanted else T.toLower c = T.toLower wanted := by
  rw [Meets, charsEqual, isSensitive]
  split_ifs <;> simp

theorem contains_iff {query text : Text} :
    Contains T query text ↔
      List.SublistForall₂ (Meets T (isSensitive T query)) query text := by
  have hmeets : Meets T (isSensitive T query) = fun wanted c =>
      if query.any T.isUppercase then c = wanted else T.toLower c = T.toLower wanted := by
    funext wanted c
    exact propext (meets_iff query wanted c)
  rw [Contains, hmeets]

theorem isSome_subsequencePositions {query : Text} (hquery : query ≠ []) (text : Text) :
    (subsequencePositions T text query (isSensitive T query)).isSome ↔ Contains T query text := by
  rw [subsequencePositions_eq text _ hquery, Scanning.scan_isSome_iff, contains_iff]

instance (query text : Text) : Decidable (Contains T query text) :=
  if h : query = [] then isTrue (h ▸ .nil)
  else decidable_of_iff _ (isSome_subsequencePositions h text)

theorem filenameMatches_iff {query : Text} (hquery : query ≠ []) (path : String) :
    filenameMatches T query (isSensitive T query) path = true ↔ FileNameContains T query path := by
  rw [filenameMatches, FileNameContains]
  cases (Path.ofString path).fileName with
  | none => simp
  | some name => simp [isSome_subsequencePositions hquery]

theorem not_filenameMatches {query : Text} (hquery : query ≠ []) {path : String}
    (h : FileNameMisses T query path) :
    filenameMatches T query (isSensitive T query) path = false := by
  rw [FileNameMisses] at h
  rw [filenameMatches]
  cases hname : (Path.ofString path).fileName with
  | none => rfl
  | some name =>
    rw [hname] at h
    exact Bool.eq_false_iff.mpr fun hsome => h ((isSome_subsequencePositions hquery _).mp hsome)

/-- What a longer query selects, a shorter one does: an uppercase character only asks for more. -/
theorem Contains.of_append {query more text : Text} (h : Contains T (query ++ more) text) :
    Contains T query text := by
  rw [contains_iff] at h ⊢
  refine Scanning.SublistForall₂.mono (fun wanted c hmeets => ?_)
    (Scanning.sublistForall₂_append_left h)
  rw [meets_iff, List.any_append] at hmeets
  rw [meets_iff]
  by_cases hquery : query.any T.isUppercase
  · simpa [hquery] using hmeets
  · rw [if_neg hquery]
    split_ifs at hmeets
    · rw [hmeets]
    · exact hmeets

/-! ## The ranking -/

/-- The files that a query scores, with their scores. -/
def scoredFiles (T : CaseTable) (query : Text) (files : List String) : List (Score × String) :=
  files.filterMap fun path => (scoreOf T query (isSensitive T query) path).map (·, path)

theorem rankFiles_of_ne_nil {query : Text} (hquery : query ≠ []) (files : List String) :
    rankFiles T files query =
      (sortBy (fun entry => entry.1.key) (scoredFiles T query files)).map Prod.snd := by
  rw [rankFiles, if_neg hquery]
  rfl

theorem mem_scoredFiles {query : Text} {files : List String} {entry : Score × String}
    (h : entry ∈ scoredFiles T query files) :
    entry.2 ∈ files ∧ scoreOf T query (isSensitive T query) entry.2 = some entry.1 := by
  obtain ⟨path, hmem, hscore⟩ := List.mem_filterMap.mp h
  obtain ⟨score, hsome, rfl⟩ := Option.map_eq_some_iff.mp hscore
  exact ⟨hmem, hsome⟩

theorem map_snd_scoredFiles {query : Text} (hquery : query ≠ []) (files : List String) :
    (scoredFiles T query files).map Prod.snd = files.filter (Contains T query ·.toList) := by
  induction files with
  | nil => rfl
  | cons path files ih =>
    rw [scoredFiles] at ih ⊢
    have hsome := isSome_subsequencePositions (T := T) hquery path.toList
    cases hpositions : subsequencePositions T path.toList query (isSensitive T query) with
    | none =>
      have hno : ¬Contains T query path.toList := by simpa [hpositions] using hsome
      rw [List.filterMap_cons_none (by simp [scoreOf, hpositions]), ih,
        List.filter_cons_of_neg (by simpa using hno)]
    | some positions =>
      have hyes : Contains T query path.toList := by simpa [hpositions] using hsome
      rw [List.filter_cons_of_pos (by simpa using hyes), ← ih]
      simp [scoreOf, hpositions]

theorem stablePath_of_scoreOf {query : Text} {sensitive : Bool} {path : String} {score : Score}
    (h : scoreOf T query sensitive path = some score) :
    score.stablePath = path ∧ score.filenameMiss = !filenameMatches T query sensitive path := by
  obtain ⟨positions, -, rfl⟩ := Option.map_eq_some_iff.mp h
  exact ⟨rfl, rfl⟩

theorem Score.filenameMiss_le {s t : Score} (h : s.key ≤ t.key) :
    s.filenameMiss ≤ t.filenameMiss :=
  Prod.Lex.monotone_fst _ _ h

theorem Score.stablePath_eq {s t : Score} (h : s.key = t.key) : s.stablePath = t.stablePath := by
  simp only [Score.key, toLex_inj, Prod.mk.injEq] at h
  exact String.toList_injective h.2.2.2.2

theorem rankFiles_perm (files : List String) (query : Text) :
    (rankFiles T files query).Perm (files.filter (Contains T query ·.toList)) := by
  by_cases hquery : query = []
  · have hall : files.filter (Contains T query ·.toList) = files :=
      List.filter_eq_self.mpr fun path _ => decide_eq_true (hquery ▸ .nil)
    rw [rankFiles, if_pos hquery, hall]
    exact perm_sortBy _ files
  · rw [rankFiles_of_ne_nil hquery, ← map_snd_scoredFiles hquery]
    exact (perm_sortBy _ _).map Prod.snd

theorem rankFiles_pairwise (files : List String) (query : Text) :
    (rankFiles T files query).Pairwise fun earlier later =>
      FileNameMisses T query earlier → ¬FileNameContains T query later := by
  by_cases hquery : query = []
  · refine List.pairwise_of_forall fun earlier later hmiss => ?_
    rw [FileNameMisses, hquery] at hmiss
    cases hname : (Path.ofString earlier).fileName with
    | none => simp [hname] at hmiss
    | some name =>
      have hnil : Contains T [] name.toList := .nil
      exact absurd hnil (by simpa [hname] using hmiss)
  · rw [rankFiles_of_ne_nil hquery, List.pairwise_map]
    refine (pairwise_sortBy _ _).imp_of_mem fun {a b} ha hb hle hmiss hcontains => ?_
    have hscore := (mem_scoredFiles (mem_sortBy.mp ha)).2
    have hscore' := (mem_scoredFiles (mem_sortBy.mp hb)).2
    have hlate := (filenameMatches_iff hquery b.2).mpr hcontains
    have hearly := not_filenameMatches hquery hmiss
    have hkey := Score.filenameMiss_le hle
    rw [(stablePath_of_scoreOf hscore).2, (stablePath_of_scoreOf hscore').2, hlate, hearly] at hkey
    exact absurd hkey (by decide)

theorem rankFiles_eq_of_perm {files files' : List String} (h : files.Perm files') (query : Text) :
    rankFiles T files query = rankFiles T files' query := by
  by_cases hquery : query = []
  · rw [rankFiles, rankFiles, if_pos hquery, if_pos hquery]
    exact sortBy_eq_of_perm (fun a _ b _ hab => String.toList_injective hab) h
  · rw [rankFiles_of_ne_nil hquery, rankFiles_of_ne_nil hquery]
    refine congrArg _ (sortBy_eq_of_perm (fun a ha b hb hab => ?_) (h.filterMap _))
    have hscore := (mem_scoredFiles ha).2
    have hscore' := (mem_scoredFiles hb).2
    have hpath : a.2 = b.2 := by
      rw [← (stablePath_of_scoreOf hscore).1, ← (stablePath_of_scoreOf hscore').1,
        Score.stablePath_eq hab]
    rw [hpath, hscore'] at hscore
    exact Prod.ext (Option.some.inj hscore.symm) hpath

/-- **Ranking is complete and forgets the order of the files**: the files that contain the query,
those whose name does first, and never one that a shorter query leaves out. -/
theorem rankFiles_complete (T : CaseTable) (files : List String) (query : Text) :
    (rankFiles T files query).Perm (files.filter (Contains T query ·.toList)) ∧
      ((rankFiles T files query).Pairwise fun earlier later =>
        FileNameMisses T query earlier → ¬FileNameContains T query later) ∧
      (∀ files', files.Perm files' → rankFiles T files' query = rankFiles T files query) ∧
      ∀ more, rankFiles T files (query ++ more) ⊆ rankFiles T files query := by
  refine ⟨rankFiles_perm files query, rankFiles_pairwise files query,
    fun files' h => (rankFiles_eq_of_perm h query).symm, fun more path hmem => ?_⟩
  have hlong := (rankFiles_perm files (query ++ more)).subset hmem
  refine (rankFiles_perm files query).symm.subset ?_
  simp only [List.mem_filter, decide_eq_true_eq] at hlong ⊢
  exact ⟨hlong.1, hlong.2.of_append⟩

end Search

end Termesh
