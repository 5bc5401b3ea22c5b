import Mathlib.Data.List.Infix
import Termesh.Agent.LineDiff
import Termesh.Lib.Leftmost
import Termesh.Search.Fuzzy
import Termesh.Search.Protocol

/-!
# Searching without ripgrep

A line is searched without its line break, which ripgrep leaves on it.

* `literalMatches`: the search in a buffer, or in a file where there is no ripgrep;
* `OccursAt`, `RgPrints`: where a query stands in a line, and what ripgrep prints for a file;
* **`rg_eq_native_iff`**: exactly the files for which both report the same.
-/

namespace Termesh

namespace Search

open Leftmost

/-- `strip_suffix(c)`, and the text itself where it does not end so. -/
def stripEnd (c : Char) (t : Text) : Text := if t.getLast? = some c then t.dropLast else t

/-- A line without its line break. -/
def stripLine (rawLine : Text) : Text := stripEnd '\r' (stripEnd '\n' rawLine)

section

variable (T : CaseTable)

/-- The needle stands at `start`. -/
def hitAt (sensitive : Bool) (needle chars : Text) (start : ℕ) : Bool :=
  (((chars.drop start).take needle.length).zip needle).all fun p => charsEqual T p.1 p.2 sensitive

/-- The loop of `literal_matches` over a line: where the hits start. -/
def startsFrom (sensitive : Bool) {needle : Text} (hne : needle ≠ []) (chars : Text) (start : ℕ) :
    List ℕ :=
  if start + needle.length ≤ chars.length then
    if hitAt T sensitive needle chars start then
      start :: startsFrom sensitive hne chars (start + needle.length)
    else startsFrom sensitive hne chars (start + 1)
  else []
termination_by chars.length + 1 - start
decreasing_by
  all_goals have := List.length_pos_iff.mpr hne
  all_goals omega

/-- The hits in a line. -/
def lineMatchesNative (path : Path) {query : Text} (hne : query ≠ []) (rawLine : Text)
    (lineIndex : ℕ) : List SearchMatch :=
  let line := stripLine rawLine
  if line.length < query.length then []
  else
    (startsFrom T (isSensitive T query) hne line 0).map fun start =>
      { path, line := some (lineIndex + 1), column := some (start + 1),
        text := some (String.ofList line) }

/-- `literal_matches`. -/
def literalMatches (path : Path) (contents query : Text) : List SearchMatch :=
  if hne : query = [] then []
  else (splitInclusive contents).zipIdx.flatMap fun p => lineMatchesNative T path hne p.1 p.2

/-! ## What ripgrep prints -/

/-- The query stands in the line behind `k` characters: the same characters when one of the query is
uppercase, and characters of equal lowercasings otherwise. -/
def OccursAt (query line : Text) (k : ℕ) : Prop :=
  ∃ front found behind, line = front ++ (found ++ behind) ∧ front.length = k ∧
    List.Forall₂ (fun c wanted =>
      if query.any T.isUppercase then c = wanted else T.toLower c = T.toLower wanted) found query

/-- The occurrences in a line, from the left, none of them in another. -/
abbrev Occurrences (query line : Text) (hits : List ℕ) : Prop :=
  Places (OccursAt T query line) query.length 0 hits

/-- What ripgrep prints for the lines of a file from `number` on: a record for each line with an
occurrence, with the line as it is. -/
inductive RgPrints (parse : String → Except String Value) (path query : Text) :
    ℕ → List Text → List String → Prop
  | nil {number : ℕ} : RgPrints parse path query number [] []
  | miss {number : ℕ} {line : Text} {lines : List Text} {raws : List String} :
      Occurrences T query line [] → RgPrints parse path query (number + 1) lines raws →
      RgPrints parse path query number (line :: lines) raws
  | hit {number : ℕ} {line : Text} {lines : List Text} {raw : String} {raws : List String}
      {value : Value} {hits : List ℕ} :
      Occurrences T query line hits → parse raw = .ok value →
      PrintsHit value (.text path) number (.text line) hits →
      RgPrints parse path query (number + 1) lines raws →
      RgPrints parse path query number (line :: lines) (raw :: raws)

/-- The occurrences of a line end in front of its line break, and in front of a line break with
occurrences there is not another carriage return. -/
def BreakApart (query line : Text) : Prop :=
  ∀ hits, Occurrences T query line hits → ∀ k ∈ hits,
    k + query.length ≤ (stripLine line).length ∧ (stripLine line).getLast? ≠ some '\r'

end

/-! ## Lines -/

theorem exists_body {t line : Text} (h : line ∈ splitInclusive t) :
    ∃ body, '\n' ∉ body ∧ (line = body ++ ['\n'] ∨ line = body) := by
  rcases (ended_splitInclusive t).1 line h with ⟨body, hbody, hline⟩ | ⟨-, hline⟩
  · exact ⟨body, hbody, .inl hline⟩
  · exact ⟨line, hline, .inr rfl⟩

theorem stripEnd_append (c : Char) (t : Text) : stripEnd c (t ++ [c]) = t := by
  simp [stripEnd]

theorem stripEnd_of_notMem {c : Char} {t : Text} (h : c ∉ t) : stripEnd c t = t := by
  rw [stripEnd, if_neg fun hlast => h (List.mem_of_getLast? hlast)]

theorem exists_stripLine {t line : Text} (h : line ∈ splitInclusive t) :
    '\n' ∉ stripLine line ∧ ∃ terminator, line = stripLine line ++ terminator ∧
      ∀ c ∈ terminator, c = '\r' ∨ c = '\n' := by
  obtain ⟨body, hbody, hline⟩ := exists_body h
  have hstrip : stripEnd '\n' line = body := by
    rcases hline with rfl | rfl
    · exact stripEnd_append '\n' body
    · exact stripEnd_of_notMem hbody
  obtain ⟨ending, hending, hbreak⟩ : ∃ ending, line = body ++ ending ∧ ∀ c ∈ ending, c = '\n' := by
    rcases hline with rfl | rfl
    · exact ⟨['\n'], rfl, by simp⟩
    · exact ⟨[], by simp, by simp⟩
  rw [stripLine, hstrip, stripEnd]
  split_ifs with hlast
  · obtain ⟨front, rfl⟩ := List.getLast?_eq_some_iff.mp hlast
    rw [List.dropLast_concat]
    refine ⟨fun hmem => hbody (List.mem_append_left _ hmem), '\r' :: ending, ?_, ?_⟩
    · rw [hending, List.append_assoc]
      rfl
    · intro c hc
      exact (List.mem_cons.mp hc).imp id (hbreak c)
  · exact ⟨hbody, ending, hending, fun c hc => .inr (hbreak c hc)⟩

/-- Trimming all breaks leaves what stripping one leaves, unless there are more. -/
theorem trimBreaks_eq_iff {t line : Text} (h : line ∈ splitInclusive t) :
    trimBreaks line = stripLine line ↔ (stripLine line).getLast? ≠ some '\r' := by
  obtain ⟨hfeed, terminator, hline, hbreak⟩ := exists_stripLine h
  have htrim : trimBreaks line = trimBreaks (stripLine line) := by
    conv_lhs => rw [hline]
    rw [trimBreaks, List.rdropWhile, List.reverse_append, List.dropWhile_append_of_pos]
    · rfl
    · intro c hc
      simpa using hbreak c (List.mem_reverse.mp hc)
  rw [htrim, trimBreaks, List.rdropWhile_eq_self_iff]
  constructor
  · intro hself hlast
    have hne : stripLine line ≠ [] := by
      rintro hnil
      rw [hnil] at hlast
      cases hlast
    rw [List.getLast?_eq_some_getLast hne] at hlast
    exact hself hne (by simp [Option.some.inj hlast])
  · intro hlast hne
    have hmem := List.getLast_mem hne
    rw [List.getLast?_eq_some_getLast hne] at hlast
    rw [decide_eq_true_iff]
    rintro (hcr | hlf)
    · exact hlast (by rw [hcr])
    · exact hfeed (hlf ▸ hmem)

/-! ## The loop -/

section

variable {T : CaseTable} {query line : Text}

theorem hitAt_iff {chars : Text} {start : ℕ} (hend : start + query.length ≤ chars.length) :
    hitAt T (isSensitive T query) query chars start = true ↔ OccursAt T query chars start := by
  have halike (c wanted : Char) : charsEqual T c wanted (isSensitive T query) = true ↔
      if query.any T.isUppercase then c = wanted else T.toLower c = T.toLower wanted :=
    meets_iff query wanted c
  have hlen : ((chars.drop start).take query.length).length = query.length := by
    rw [List.length_take, List.length_drop]
    omega
  have hforall : hitAt T (isSensitive T query) query chars start = true ↔
      List.Forall₂ (fun c wanted =>
        if query.any T.isUppercase then c = wanted else T.toLower c = T.toLower wanted)
        ((chars.drop start).take query.length) query := by
    rw [hitAt, List.all_eq_true, List.forall₂_iff_zip]
    simp only [halike, hlen, true_and, Prod.forall]
  rw [hforall]
  constructor
  · intro h
    refine ⟨chars.take start, _, (chars.drop start).drop query.length, ?_, ?_, h⟩
    · rw [List.take_append_drop, List.take_append_drop]
    · rw [List.length_take]
      omega
  · rintro ⟨front, found, behind, rfl, rfl, h⟩
    rwa [List.drop_left, ← h.length_eq, List.take_left]

theorem OccursAt.end_le {k : ℕ} (h : OccursAt T query line k) :
    k + query.length ≤ line.length := by
  obtain ⟨front, found, behind, rfl, rfl, hfound⟩ := h
  simp only [List.length_append, ← hfound.length_eq]
  omega

/-- The loop finds the occurrences in a line. -/
theorem startsFrom_places (hne : query ≠ []) (chars : Text) (start : ℕ) :
    Places (OccursAt T query chars) query.length start
      (startsFrom T (isSensitive T query) hne chars start) := by
  fun_induction startsFrom T (isSensitive T query) hne chars start with
  | case1 start hend hhit ih => exact .take ((hitAt_iff hend).mp hhit) ih
  | case2 start hend hhit ih => exact .skip (fun h => hhit ((hitAt_iff hend).mpr h)) ih
  | case3 start hend =>
    refine .none fun k hle hk => hend ?_
    have hk := hk.end_le
    omega

theorem occursAt_append {chars terminator : Text} (k : ℕ) : OccursAt T query chars k ↔
    OccursAt T query (chars ++ terminator) k ∧ k + query.length ≤ chars.length := by
  constructor
  · intro h
    refine ⟨?_, h.end_le⟩
    obtain ⟨front, found, behind, rfl, rfl, hfound⟩ := h
    exact ⟨front, found, behind ++ terminator, by simp, rfl, hfound⟩
  · rintro ⟨⟨front, found, behind, hline, rfl, hfound⟩, hend⟩
    rw [← hfound.length_eq, ← List.length_append] at hend
    obtain ⟨behind', rfl⟩ := List.prefix_of_prefix_length_le ⟨behind, by simpa using hline.symm⟩
      (List.prefix_append chars terminator) hend
    exact ⟨front, found, behind', by simp, rfl, hfound⟩

/-- **The loop finds the occurrences that end in front of the line break.** -/
theorem starts_restrict {t : Text} (hline : line ∈ splitInclusive t) (hne : query ≠ [])
    {hits : List ℕ} (h : Occurrences T query line hits) :
    startsFrom T (isSensitive T query) hne (stripLine line) 0 =
      hits.filter (· + query.length ≤ (stripLine line).length) := by
  obtain ⟨-, terminator, hterminator, -⟩ := exists_stripLine hline
  rw [hterminator] at h
  exact (startsFrom_places hne (stripLine line) 0).unique
    (h.restrict fun k => occursAt_append k)

/-! ## A line -/

/-- The matches that are reported for a line. -/
def lineFound (path : Path) (number : ℕ) (text : Text) (hits : List ℕ) : List SearchMatch :=
  hits.map fun k => { path, line := some number, column := some (k + 1),
                      text := some (String.ofList text) }

theorem lineMatchesNative_eq {t : Text} (hline : line ∈ splitInclusive t) (hne : query ≠ [])
    {hits : List ℕ} (h : Occurrences T query line hits) (path : Path) (lineIndex : ℕ) :
    lineMatchesNative T path hne line lineIndex = lineFound path (lineIndex + 1) (stripLine line)
      (hits.filter (· + query.length ≤ (stripLine line).length)) := by
  rw [lineMatchesNative, ← starts_restrict hline hne h]
  split_ifs with hshort
  · rw [startsFrom, if_neg (by omega)]
    rfl
  · rfl

/-- Both report the same for a line whose occurrences keep apart from its line break. -/
theorem lineFound_eq_iff {t : Text} (hline : line ∈ splitInclusive t) {hits : List ℕ}
    (h : Occurrences T query line hits) (path : Path) (number : ℕ) :
    lineFound path number (trimBreaks line) hits = lineFound path number (stripLine line)
        (hits.filter (· + query.length ≤ (stripLine line).length)) ↔ BreakApart T query line := by
  constructor
  · intro heq hits' h' k hk
    obtain rfl := h'.unique h
    have hfits : hits'.filter (· + query.length ≤ (stripLine line).length) = hits' := by
      refine List.filter_sublist.eq_of_length ?_
      have hlen := congrArg List.length heq
      rwa [lineFound, lineFound, List.length_map, List.length_map, eq_comm] at hlen
    refine ⟨by simpa using List.filter_eq_self.mp hfits k hk, (trimBreaks_eq_iff hline).mp ?_⟩
    rw [hfits, lineFound, lineFound, List.map_inj_left] at heq
    exact String.ofList_inj.mp (Option.some.inj (congrArg SearchMatch.text (heq k hk)))
  · intro hapart
    cases hits with
    | nil => rfl
    | cons k hits =>
      have htrim := (trimBreaks_eq_iff hline).mpr (hapart _ h k List.mem_cons_self).2
      have hfits : (k :: hits).filter (· + query.length ≤ (stripLine line).length) = k :: hits :=
        List.filter_eq_self.mpr fun j hj => by simpa using (hapart _ h j hj).1
      rw [htrim, hfits]

/-! ## A file -/

/-- Two lists of which one is nowhere the longer are equal when their parts are. -/
theorem append_eq_iff {α : Type} {a b c d : List α} (hac : c.length ≤ a.length)
    (hbd : d.length ≤ b.length) : a ++ b = c ++ d ↔ a = c ∧ b = d := by
  constructor
  · intro h
    have hlen := congrArg List.length h
    rw [List.length_append, List.length_append] at hlen
    exact List.append_inj h (by omega)
  · rintro ⟨rfl, rfl⟩
    rfl

theorem parseRgJsonLine_hit {parse : String → Except String Value} {path : Text} {raw : String}
    {value : Value} {number : ℕ} {hits : List ℕ} (root : Path) (hparse : parse raw = .ok value)
    (h : PrintsHit value (.text path) number (.text line) hits) :
    parseRgJsonLine parse root raw =
      .ok (lineFound (underRoot root (Path.ofString (String.ofList path))) number
        (trimBreaks line) hits) := by
  rw [parseRgJsonLine, hparse]
  dsimp only
  rw [if_neg (by simp [h.type]), parseMatch_hit root h]
  rfl

/-- What ripgrep reports for lines is never less, and is the same when it is for each of them. -/
theorem rgPrints_lines {parse : String → Except String Value} {path : Text} {t : Text}
    {lines : List Text} {raws : List String} (number : ℕ) (root : Path) (hne : query ≠ [])
    (hlines : ∀ line ∈ lines, line ∈ splitInclusive t)
    (h : RgPrints T parse path query (number + 1) lines raws) :
    ∃ found, raws.mapM (parseRgJsonLine parse root) = .ok found ∧
      ((lines.zipIdx number).flatMap fun p => lineMatchesNative T
        (underRoot root (Path.ofString (String.ofList path))) hne p.1 p.2).length ≤
          found.flatten.length ∧
      (found.flatten = ((lines.zipIdx number).flatMap fun p => lineMatchesNative T
        (underRoot root (Path.ofString (String.ofList path))) hne p.1 p.2) ↔
          ∀ line ∈ lines, BreakApart T query line) := by
  generalize hfrom : number + 1 = n at h
  induction h generalizing number with
  | nil => exact ⟨[], rfl, le_rfl, by simp⟩
  | @miss _ line lines raws hmiss _ ih =>
    obtain ⟨found, hfound, hlen, heq⟩ :=
      ih (number + 1) (fun l hl => hlines l (List.mem_cons_of_mem _ hl)) (by omega)
    have hline := hlines line List.mem_cons_self
    have hnone : lineMatchesNative T (underRoot root (Path.ofString (String.ofList path))) hne line
        number = [] := by
      rw [lineMatchesNative_eq hline hne hmiss]
      rfl
    have hapart : BreakApart T query line := fun hits h k hk => by
      rw [h.unique hmiss] at hk
      cases hk
    simp only [List.zipIdx_cons, List.flatMap_cons, hnone, List.nil_append, List.forall_mem_cons,
      hapart, true_and]
    exact ⟨found, hfound, hlen, heq⟩
  | @hit _ line lines raw raws value hits hhits hparse hprints _ ih =>
    obtain ⟨found, hfound, hlen, heq⟩ :=
      ih (number + 1) (fun l hl => hlines l (List.mem_cons_of_mem _ hl)) (by omega)
    have hline := hlines line List.mem_cons_self
    have hshorter : (lineFound (underRoot root (Path.ofString (String.ofList path))) (number + 1)
        (stripLine line) (hits.filter (· + query.length ≤ (stripLine line).length))).length ≤
          (lineFound (underRoot root (Path.ofString (String.ofList path))) (number + 1)
            (trimBreaks line) hits).length := by
      rw [lineFound, lineFound, List.length_map, List.length_map]
      exact List.length_filter_le _ _
    refine ⟨lineFound (underRoot root (Path.ofString (String.ofList path))) (number + 1)
      (trimBreaks line) hits :: found, ?_, ?_, ?_⟩
    · rw [List.mapM_cons, parseRgJsonLine_hit root hparse (hfrom ▸ hprints), hfound]
      rfl
    · rw [List.zipIdx_cons, List.flatMap_cons, lineMatchesNative_eq hline hne hhits,
        List.flatten_cons, List.length_append, List.length_append]
      exact Nat.add_le_add hshorter hlen
    · rw [List.zipIdx_cons, List.flatMap_cons, lineMatchesNative_eq hline hne hhits,
        List.flatten_cons, append_eq_iff hshorter hlen, heq, List.forall_mem_cons,
        lineFound_eq_iff hline hhits]

/-- **The search with ripgrep and the search without it report the same exactly when every line's
occurrences keep apart from its line break.** -/
theorem rg_eq_native_iff {parse : String → Except String Value} {path contents : Text}
    {raws : List String} (root : Path) (hne : query ≠ [])
    (h : RgPrints T parse path query 1 (splitInclusive contents) raws) :
    (raws.mapM (parseRgJsonLine parse root)).map List.flatten =
        .ok (literalMatches T (underRoot root (Path.ofString (String.ofList path))) contents
          query) ↔
      ∀ line ∈ splitInclusive contents, BreakApart T query line := by
  obtain ⟨found, hfound, -, heq⟩ := rgPrints_lines 0 root hne (fun _ hl => hl) h
  rw [hfound, literalMatches, dif_neg hne, ← heq]
  exact ⟨fun h => Except.ok.inj h, congrArg Except.ok⟩

end

/-- What ripgrep prints for a hit at the start of the only line of a file `a`. -/
def rawOf (escaped : String) : String :=
  "\x7b\"type\":\"match\",\"data\":\x7b\"path\":\x7b\"text\":\"a\"\x7d," ++
    "\"lines\":\x7b\"text\":\"" ++ escaped ++ "\"\x7d,\"line_number\":1," ++
    "\"submatches\":[\x7b\"match\":\x7b\"text\":\"x\"\x7d,\"start\":0,\"end\":1\x7d]\x7d\x7d"

/-- That line, parsed. -/
def valueOf (line : Text) : Value :=
  .object [("type", .string "match"), ("data", .object [("path", .object [("text", .string "a")]),
    ("lines", .object [("text", .string (String.ofList line))]),
    ("line_number", .number (.posInt 1)),
    ("submatches", .array [.object [("match", .object [("text", .string "x")]),
      ("start", .number (.posInt 0)), ("end", .number (.posInt 1))]])])]

/-- A parser, as far as two such lines. -/
def parseOf (raw : String) : Except String Value :=
  if raw = rawOf "x\\n" then .ok (valueOf ['x', '\n'])
  else if raw = rawOf "x\\r\\r\\n" then .ok (valueOf ['x', '\r', '\r', '\n'])
  else .error "expected value at line 1 column 1"

theorem valueOf_prints (line : Text) :
    PrintsHit (valueOf line) (.text ['a']) 1 (.text line) [0] where
  type := by simp [valueOf, Value.getStr, Value.get, Value.asStr]
  fields := by
    refine ⟨_, _, _, _, rfl, rfl, ?_, rfl, ?_, rfl, rfl, .cons rfl .nil⟩
    · simp [Printed.Holds, Value.getStr, Value.get, Value.asStr]
    · simp [Printed.Holds, Value.getStr, Value.get, Value.asStr]
  hits := by simp
  within := by simp [Printed.Within]

theorem startsFrom_x (hne : ['x'] ≠ []) : ∀ ending ∈ [[], ['\r'], ['\n'], ['\r', '\r', '\n']],
    startsFrom CaseTable.dotted (isSensitive CaseTable.dotted ['x']) hne ('x' :: ending) 0 =
      [0] := by
  intro ending h
  simp only [List.mem_cons, List.not_mem_nil, or_false] at h
  rcases h with rfl | rfl | rfl | rfl <;>
    simp [startsFrom, hitAt, charsEqual, isSensitive, CaseTable.dotted]

theorem occurrences_x {ending : Text} (h : ending ∈ [[], ['\r'], ['\n'], ['\r', '\r', '\n']]) :
    Occurrences CaseTable.dotted ['x'] ('x' :: ending) [0] := by
  have hplaces := startsFrom_places (T := CaseTable.dotted) (List.cons_ne_nil 'x' [])
    ('x' :: ending) 0
  rwa [startsFrom_x _ ending h] at hplaces

/-- Both sides at a file with one line. -/
theorem rg_eq_native_line :
    (([rawOf "x\\n"].mapM (parseRgJsonLine parseOf [.rootDir])).map List.flatten =
        .ok (literalMatches CaseTable.dotted
          (underRoot [.rootDir] (Path.ofString (String.ofList ['a']))) ['x', '\n'] ['x'])) ↔
      ∀ line ∈ splitInclusive ['x', '\n'], BreakApart CaseTable.dotted ['x'] line :=
  rg_eq_native_iff [.rootDir] (List.cons_ne_nil 'x' [])
    (.hit (occurrences_x (by decide)) (if_pos rfl) (valueOf_prints _) .nil)

/-- **A carriage return in front of a line break of two characters** is in the text that one search
reports and not in the other's. -/
theorem carriage_return_dropped :
    (¬∀ (parse : String → Except String Value) (path contents query : Text) (raws : List String)
        (root : Path), query ≠ [] → '\n' ∉ query →
      RgPrints CaseTable.dotted parse path query 1 (splitInclusive contents) raws →
        (raws.mapM (parseRgJsonLine parse root)).map List.flatten =
          .ok (literalMatches CaseTable.dotted
            (underRoot root (Path.ofString (String.ofList path))) contents query)) ∧
      [rawOf "x\\r\\r\\n"].mapM (parseRgJsonLine parseOf [.rootDir]) =
        .ok [[{ path := [.rootDir, .normal "a"], line := some 1, column := some 1,
                text := some "x" }]] ∧
      literalMatches CaseTable.dotted [.rootDir, .normal "a"] ['x', '\r', '\r', '\n'] ['x'] =
        [{ path := [.rootDir, .normal "a"], line := some 1, column := some 1,
           text := some "x\r" }] := by
  have hparse : parseOf (rawOf "x\\r\\r\\n") = .ok (valueOf ['x', '\r', '\r', '\n']) := by
    rw [parseOf, if_neg (by decide), if_pos rfl]
  have hrg : [rawOf "x\\r\\r\\n"].mapM (parseRgJsonLine parseOf [.rootDir]) =
      .ok [[{ path := [.rootDir, .normal "a"], line := some 1, column := some 1,
              text := some "x" }]] := by
    rw [List.mapM_cons, parseRgJsonLine_hit [.rootDir] hparse (valueOf_prints _)]
    rfl
  have hnative : literalMatches CaseTable.dotted [.rootDir, .normal "a"] ['x', '\r', '\r', '\n']
      ['x'] = [{ path := [.rootDir, .normal "a"], line := some 1, column := some 1,
                 text := some "x\r" }] := by
    have hstarts := startsFrom_x (List.cons_ne_nil 'x' []) ['\r'] (by decide)
    simp [literalMatches, splitInclusive, consLine, lineMatchesNative, stripLine, stripEnd, hstarts]
  refine ⟨fun hall => ?_, hrg, hnative⟩
  have hsame := hall parseOf ['a'] ['x', '\r', '\r', '\n'] ['x'] [rawOf "x\\r\\r\\n"] [.rootDir]
    (by decide) (by decide) (.hit (occurrences_x (by decide)) hparse (valueOf_prints _) .nil)
  have hpath : underRoot [.rootDir] (Path.ofString (String.ofList ['a'])) =
      [.rootDir, .normal "a"] := by decide
  rw [hrg, hpath, hnative] at hsame
  exact absurd (Except.ok.inj hsame) (by decide)

end Search

end Termesh
