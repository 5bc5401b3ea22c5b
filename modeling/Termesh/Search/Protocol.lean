import Mathlib.Data.List.DropRight
import Termesh.Agent.Json
import Termesh.Core.Search
import Termesh.Lib.WellFormed
import Termesh.Workspace.Permissions

/-!
# Lines of ripgrep's output

* `SearchError`, `parseRgJsonLine`, `matchesFromLine`: what the code makes of one line;
* `Record`, `Prints`: what ripgrep means by a line, and the lines it prints for it;
* `Record.found`: the matches of a record, none at all where its path or its line is not UTF-8;
* **`line_found`**: the code reads the matches of a record, and fails where there are none at all.
-/

namespace Termesh

namespace Search

open Utf8
open Decoding (size)

/-- Why a search fails; each reads as its text and what it carries. -/
inductive SearchError where
  /-- `malformed ripgrep JSON` -/
  | malformedJson (error : String)
  /-- `malformed ripgrep match record` -/
  | malformedMatch
  /-- `could not run search` -/
  | process (message : String)
deriving DecidableEq

/-! ## Reading a line -/

/-- `ok_or(SearchError::MalformedMatch)`. -/
def orMalformed {α : Type} : Option α → Except SearchError α
  | some a => .ok a
  | none => .error .malformedMatch

@[simp] theorem orMalformed_some_bind {α β : Type} (a : α) (f : α → Except SearchError β) :
    (orMalformed (some a) >>= f) = f a := rfl

@[simp] theorem orMalformed_none_bind {α β : Type} (f : α → Except SearchError β) :
    (orMalformed none >>= f) = .error .malformedMatch := rfl

/-- A path as it is when absolute, under the root otherwise. -/
def underRoot (root path : Path) : Path :=
  if path.isAbsolute then path else App.PermissionStore.joinPath root path

/-- `trim_end_matches(['\r', '\n'])`. -/
def trimBreaks (t : List Char) : List Char := t.rdropWhile fun c => c = '\r' ∨ c = '\n'

/-- `str::get(..start)`: nothing when `start` is inside a character or behind the end. -/
def getTo : List Char → ℕ → Option (List Char)
  | _, 0 => some []
  | [], _ + 1 => none
  | c :: t, n + 1 =>
    if c.utf8Size ≤ n + 1 then (getTo t (n + 1 - c.utf8Size)).map (c :: ·) else none

/-- One hit of a line. -/
def submatchFrom (path : Path) (line : ℕ) (lineText : String) (submatch : Value) :
    Except SearchError SearchMatch := do
  let start ← orMalformed ((submatch.get "start").bind Value.asU64)
  let before ← orMalformed (getTo lineText.toList start)
  return { path, line := some line, column := some (before.length + 1),
           text := some (String.ofList (trimBreaks lineText.toList)) }

/-- The matches of a record whose type is `match`. -/
def parseMatch (root : Path) (value : Value) : Except SearchError (List SearchMatch) := do
  let data ← orMalformed (value.get "data")
  let rawPath ← orMalformed ((data.get "path").bind (·.getStr "text"))
  let lineText ← orMalformed ((data.get "lines").bind (·.getStr "text"))
  let line ← orMalformed ((data.get "line_number").bind Value.asU64)
  let submatches ← orMalformed ((data.get "submatches").bind Value.asArray)
  if submatches.isEmpty then throw .malformedMatch
  submatches.mapM (submatchFrom (underRoot root (Path.ofString rawPath)) line lineText)

/-- `parse_rg_json_line`, with the JSON crate's parser. -/
def parseRgJsonLine (parse : String → Except String Value) (root : Path) (raw : String) :
    Except SearchError (List SearchMatch) :=
  match parse raw with
  | .error error => .error (.malformedJson error)
  | .ok value => if value.getStr "type" ≠ some "match" then .ok [] else parseMatch root value

/-- `matches_from_line`. -/
def matchesFromLine (parse : String → Except String Value) (request : SearchRequest)
    (line : String) : Except SearchError (List SearchMatch) :=
  match request.mode with
  | .files => .ok [{ path := underRoot request.root (Path.ofString line), line := none,
                     column := none, text := none }]
  | .text => parseRgJsonLine parse request.root line

/-- What `BufRead::lines` yields for the bytes of a line. -/
def readLine (bytes : List UInt8) : Except String String :=
  match fromUtf8 bytes with
  | .ok t => .ok (String.ofList t)
  | .error _ => .error "stream did not contain valid UTF-8"

/-! ## Records -/

/-- Text in a record: itself when it is UTF-8, and its bytes in base64 when it is not. -/
inductive Printed where
  | text (t : List Char)
  | bytes (base64 : String)

/-- One thing that ripgrep reports. -/
inductive Record where
  /-- A file, by the bytes of its path. -/
  | file (path : List UInt8)
  /-- The beginning or the end of a file, a line of context, the summary. -/
  | other
  /-- A line with hits, each by what is in front of it: characters of a text, or bytes. -/
  | hit (path : Printed) (line : ℕ) (lines : Printed) (before : List ℕ)

/-- Where a hit starts, in bytes. -/
def Printed.offset : Printed → ℕ → ℕ
  | text t, k => size Char.utf8Size (t.take k)
  | bytes _, k => k

/-- The object that holds a printed text. -/
def Printed.Holds (v : Value) : Printed → Prop
  | text t => v.getStr "text" = some (String.ofList t)
  | bytes base64 => v.get "text" = none ∧ v.getStr "bytes" = some base64

/-- The hits lie in the text. -/
def Printed.Within (before : List ℕ) : Printed → Prop
  | text t => ∀ k ∈ before, k ≤ t.length
  | bytes _ => True

/-- The record of a line with hits. -/
structure PrintsHit (value : Value) (path : Printed) (line : ℕ) (lines : Printed)
    (before : List ℕ) : Prop where
  type : value.getStr "type" = some "match"
  fields : ∃ data p l submatches, value.get "data" = some data ∧
    data.get "path" = some p ∧ path.Holds p ∧ data.get "lines" = some l ∧ lines.Holds l ∧
    (data.get "line_number").bind Value.asU64 = some line ∧
    (data.get "submatches").bind Value.asArray = some submatches ∧
    List.Forall₂ (fun submatch k => (submatch.get "start").bind Value.asU64 =
      some (lines.offset k)) submatches before
  hits : before ≠ []
  within : lines.Within before

/-- The lines that ripgrep prints for a record. -/
inductive Prints (parse : String → Except String Value) :
    SearchMode → List UInt8 → Record → Prop
  | file (path : List UInt8) : Prints parse .files path (.file path)
  | other {raw : String} {value : Value} {kind : String} :
      parse raw = .ok value → value.getStr "type" = some kind → kind ≠ "match" →
      Prints parse .text (utf8 raw.toList) .other
  | hit {raw : String} {value : Value} {path lines : Printed} {line : ℕ} {before : List ℕ} :
      parse raw = .ok value → PrintsHit value path line lines before →
      Prints parse .text (utf8 raw.toList) (.hit path line lines before)

/-- The matches of a record, or nothing where its path or its line is not UTF-8. -/
def Record.found (root : Path) : Record → Option (List SearchMatch)
  | file path =>
    match fromUtf8 path with
    | .ok t => some [{ path := underRoot root (Path.ofString (String.ofList t)), line := none,
                       column := none, text := none }]
    | .error _ => none
  | other => some []
  | hit (.text p) line (.text t) before =>
    some (before.map fun k =>
      { path := underRoot root (Path.ofString (String.ofList p)), line := some line,
        column := some (k + 1), text := some (String.ofList (trimBreaks t)) })
  | hit .. => none

/-- What the code makes of the bytes of a line. -/
def lineMatches (parse : String → Except String Value) (request : SearchRequest)
    (bytes : List UInt8) : Except SearchError (List SearchMatch) :=
  match readLine bytes with
  | .ok line => matchesFromLine parse request line
  | .error error => .error (.process error)

/-! ## The code on a record -/

theorem getTo_size (t : List Char) (k : ℕ) :
    getTo t (size Char.utf8Size (t.take k)) = some (t.take k) := by
  induction t generalizing k with
  | nil => simp [getTo]
  | cons c t ih =>
    cases k with
    | zero => simp [getTo]
    | succ k =>
      have hpos := Char.utf8Size_pos c
      have hsize : size Char.utf8Size ((c :: t).take (k + 1)) =
          c.utf8Size + size Char.utf8Size (t.take k) := by
        rw [List.take_succ_cons, Decoding.size_cons]
      obtain ⟨n, hn⟩ : ∃ n, size Char.utf8Size ((c :: t).take (k + 1)) = n + 1 :=
        Nat.exists_eq_succ_of_ne_zero (by omega)
      have hrest : n + 1 - c.utf8Size = size Char.utf8Size (t.take k) := by omega
      rw [hn, getTo, if_pos (by omega), hrest, ih, List.take_succ_cons, Option.map_some]

theorem submatchFrom_text {path : Path} {line k : ℕ} {t : List Char} {submatch : Value}
    (h : (submatch.get "start").bind Value.asU64 = some (size Char.utf8Size (t.take k)))
    (hk : k ≤ t.length) :
    submatchFrom path line (String.ofList t) submatch =
      .ok { path, line := some line, column := some (k + 1),
            text := some (String.ofList (trimBreaks t)) } := by
  have hlen : (t.take k).length = k := by rw [List.length_take, Nat.min_eq_left hk]
  simp only [submatchFrom, h, orMalformed_some_bind, String.toList_ofList, getTo_size, hlen]
  rfl

theorem mapM_submatchFrom {path : Path} {line : ℕ} {t : List Char} {submatches : List Value}
    {before : List ℕ}
    (h : List.Forall₂ (fun submatch k => (submatch.get "start").bind Value.asU64 =
      some ((Printed.text t).offset k)) submatches before)
    (hk : ∀ k ∈ before, k ≤ t.length) :
    submatches.mapM (submatchFrom path line (String.ofList t)) =
      .ok (before.map fun k => { path, line := some line, column := some (k + 1),
                                 text := some (String.ofList (trimBreaks t)) }) := by
  induction h with
  | nil => rfl
  | cons hsub _ ih =>
    rw [List.mapM_cons, submatchFrom_text hsub (hk _ List.mem_cons_self),
      ih fun k hmem => hk k (List.mem_cons_of_mem _ hmem)]
    rfl

/-- A line with hits is read when both its texts are, and is malformed otherwise. -/
theorem parseMatch_hit (root : Path) {value : Value} {path lines : Printed} {line : ℕ}
    {before : List ℕ} (h : PrintsHit value path line lines before) :
    parseMatch root value =
      orMalformed ((Record.hit path line lines before).found root) := by
  obtain ⟨data, p, l, submatches, hdata, hp, hpath, hl, hlines, hline, hsub, hstarts⟩ := h.fields
  have hbytes {v : Value} {base64 : String} (hv : (Printed.bytes base64).Holds v) :
      v.getStr "text" = none := by rw [Value.getStr, hv.1, Option.bind_none]
  cases path with
  | bytes =>
    simp only [parseMatch, hdata, hp, orMalformed_some_bind, Option.bind_some, hbytes hpath]
    rfl
  | text p' =>
    have hpath : p.getStr "text" = some (String.ofList p') := hpath
    cases lines with
    | bytes =>
      simp only [parseMatch, hdata, hp, hpath, hl, orMalformed_some_bind, Option.bind_some,
        hbytes hlines]
      rfl
    | text t =>
      have hlines : l.getStr "text" = some (String.ofList t) := hlines
      have hne : submatches.isEmpty = false := by
        cases hstarts with
        | nil => exact absurd rfl h.hits
        | cons _ _ => rfl
      simp only [parseMatch, hdata, hp, hpath, hl, hlines, hline, hsub, orMalformed_some_bind,
        Option.bind_some, hne]
      exact mapM_submatchFrom hstarts h.within

theorem readLine_utf8 (raw : String) : readLine (utf8 raw.toList) = .ok raw := by
  simp [readLine, fromUtf8_utf8]

/-- **What the code makes of a record**: its matches, and an error where there are none at all. -/
theorem line_found {parse : String → Except String Value} {request : SearchRequest}
    {bytes : List UInt8} {record : Record} (h : Prints parse request.mode bytes record) :
    match record.found request.root with
    | some found => lineMatches parse request bytes = .ok found
    | none => ∃ error, lineMatches parse request bytes = .error error := by
  obtain ⟨id, root, mode, query, limit⟩ := request
  cases h with
  | file =>
    cases hread : fromUtf8 bytes with
    | ok t => simp [Record.found, lineMatches, readLine, matchesFromLine, hread]
    | error e => simp [Record.found, lineMatches, readLine, hread]
  | other hparse htype hkind =>
    have hne : some _ ≠ some "match" := fun heq => hkind (Option.some.inj heq)
    simp only [Record.found, lineMatches, readLine_utf8, matchesFromLine, parseRgJsonLine, hparse,
      htype]
    exact if_pos hne
  | hit hparse hprints =>
    have hread := parseMatch_hit root hprints
    simp only [lineMatches, readLine_utf8, matchesFromLine, parseRgJsonLine, hparse,
      hprints.type, ne_eq, not_true, if_false, hread]
    split
    · rename_i found hfound
      rw [hfound]
      rfl
    · rename_i hfound
      exact ⟨.malformedMatch, by rw [hfound]; rfl⟩

end Search

end Termesh
