import Termesh.Agent.Json
import Termesh.Tasks.TextProblems

/-!
# Decoders of task output

Output arrives in any chunks. A decoder keeps the bytes of a line that is not complete, and the end
of the output completes it.

* `CargoOutputDecoder`, `decodeLine`: Cargo's JSON messages, and all other lines as they are;
* `runDecoder`: a stream pushed in chunks and finished;
* `MachineLine`: a line that holds one of Cargo's machine messages;
* **`decoding_chunks`**: chunks make no difference, and nothing else is lost.
-/

namespace Termesh

namespace Tasks

open Utf8
open Lsp (parseUsize)

/-! ## Cargo's lines -/

/-- `merge`. -/
def merge (target source : DecodedTaskOutput) : DecodedTaskOutput :=
  { display := target.display ++ source.display, problems := target.problems ++ source.problems }

/-- What is left behind an escape sequence: all behind its last character. -/
def skipSequence : List Char → List Char
  | [] => []
  | c :: t => if '@' ≤ c ∧ c ≤ '~' then t else skipSequence t

theorem length_skipSequence_le (t : List Char) : (skipSequence t).length ≤ t.length := by
  induction t with
  | nil => exact Nat.le_refl 0
  | cons c t ih =>
    rw [skipSequence, List.length_cons]
    split_ifs <;> omega

/-- `strip_ansi`. -/
def stripAnsi : List Char → List Char
  | [] => []
  | '\u001b' :: '[' :: t => stripAnsi (skipSequence t)
  | c :: t => c :: stripAnsi t
termination_by t => t.length
decreasing_by
  · have := length_skipSequence_le t
    simp only [List.length_cons]
    omega
  · simp

/-- What `split(pattern).nth(1)` yields. -/
def secondPiece (pattern text : List Char) : Option (List Char) :=
  (splitFirst pattern text).map fun (_, behind) =>
    match splitFirst pattern behind with
    | some (piece, _) => piece
    | none => behind

/-- `split_whitespace().next()`. -/
def firstWord (text : List Char) : Option (List Char) :=
  let word := (trimStart text).takeWhile fun c => !isWhitespace c
  if word = [] then none else some word

/-- `panic_problem`. -/
def panicProblem (cwd : Path) (line : List Char) : Option Problem := do
  let behind ← secondPiece "panicked at ".toList line
  let word ← firstWord behind
  let quoted : Char → Bool := fun c => c = '\'' ∨ c = '"' ∨ c = ','
  let location := ((word.dropWhile quoted).rdropWhile quoted).rdropWhile (· = ':')
  let (front, column) := (splitLast [':'] location).getD ([], location)
  let column ← parseUsize (column.rdropWhile (· = ':'))
  let (rawPath, lineNumber) ← splitLast [':'] front
  let lineNumber ← parseUsize lineNumber
  return { path := underCwd cwd (Path.ofString (String.ofList rawPath)), line := lineNumber, column,
           severity := .error, message := String.ofList (trimText line) }

/-- `fallback_line`: the text of the line is what its lossy reading gives. -/
def fallbackLine (cwd : Path) (line : List UInt8) (text : List Char) : DecodedTaskOutput :=
  { display := line, problems := (panicProblem cwd (stripAnsi text)).toList }

/-- `problem_from_span`. -/
def problemFromSpan (cwd : Path) (message span : Value) : Option Problem := do
  let rawPath ← span.getStr "file_name"
  let level := (message.getStr "level").getD "warning"
  let line ← (span.get "line_start").bind Value.asU64
  let column ← (span.get "column_start").bind Value.asU64
  let text ← message.getStr "message"
  return { path := underCwd cwd (Path.ofString rawPath), line, column,
           severity := if level = "error" then .error else .warning, message := text }

/-- The primary span of a message. -/
def primarySpan (message : Value) : Option Value :=
  ((message.get "spans").bind Value.asArray).bind
    (·.find? fun span => (span.get "is_primary").bind Value.asBool == some true)

/-- `compiler_message`. -/
def compilerMessage (cwd : Path) (value : Value) : DecodedTaskOutput :=
  match value.get "message" with
  | none => {}
  | some message =>
    { display := utf8 ((message.getStr "rendered").getD "").toList
      problems := ((primarySpan message).bind (problemFromSpan cwd message)).toList }

/-- A line without its line feed, and without a carriage return in front of that. -/
def stripLineEnd (text : List Char) : List Char :=
  let text := (text.dropSuffix? ['\n']).getD text
  (text.dropSuffix? ['\r']).getD text

/-- The decoder of a Cargo task. -/
structure CargoOutputDecoder where
  cwd : Path
  pending : List UInt8

namespace CargoOutputDecoder

/-- `CargoOutputDecoder::new`. -/
def new (cwd : Path) : CargoOutputDecoder := { cwd, pending := [] }

variable (parse : String → Except String Value)

/-- `decode_line`, with the JSON crate's parser. -/
def decodeLine (cwd : Path) (line : List UInt8) : DecodedTaskOutput :=
  match fromUtf8 line with
  | .error _ => { display := line }
  | .ok text =>
    match parse (String.ofList (stripLineEnd text)) with
    | .error _ => fallbackLine cwd line text
    | .ok value =>
      match value.getStr "reason" with
      | some "compiler-message" => compilerMessage cwd value
      | some "compiler-artifact" | some "build-script-executed" | some "build-finished" => {}
      | _ => { display := line }

/-- `push`. -/
def push (d : CargoOutputDecoder) (bytes : List UInt8) : CargoOutputDecoder × DecodedTaskOutput :=
  let (lines, pending) := Lines.takeLines 10 (d.pending ++ bytes)
  ({ d with pending },
    lines.foldl (fun decoded line => merge decoded (decodeLine parse d.cwd line)) {})

/-- `finish`. -/
def finish (d : CargoOutputDecoder) : CargoOutputDecoder × DecodedTaskOutput :=
  if d.pending = [] then (d, {})
  else ({ d with pending := [] }, decodeLine parse d.cwd d.pending)

end CargoOutputDecoder

/-- Chunks pushed in order, and the end. -/
def runDecoder {δ : Type} (push : δ → List UInt8 → δ × DecodedTaskOutput)
    (finish : δ → δ × DecodedTaskOutput) : δ → List (List UInt8) → DecodedTaskOutput
  | d, [] => (finish d).2
  | d, chunk :: chunks =>
    merge (push d chunk).2 (runDecoder push finish (push d chunk).1 chunks)

/-- A JSON object with one of Cargo's machine reasons. -/
def MachineLine (parse : String → Except String Value) (line : List UInt8) : Prop :=
  ∃ text value, line = utf8 text ∧ parse (String.ofList (stripLineEnd text)) = .ok value ∧
    ∃ reason, value.getStr "reason" = some reason ∧
      reason ∈ ["compiler-message", "compiler-artifact", "build-script-executed", "build-finished"]

/-! ## Chunks -/

@[simp] theorem merge_empty (a : DecodedTaskOutput) : merge a {} = a := by
  simp [merge]

@[simp] theorem empty_merge (a : DecodedTaskOutput) : merge {} a = a := by
  simp [merge]

theorem foldl_merge {α : Type} (f : α → DecodedTaskOutput) (l : List α) (a : DecodedTaskOutput) :
    l.foldl (fun decoded x => merge decoded (f x)) a =
      { display := a.display ++ l.flatMap fun x => (f x).display
        problems := a.problems ++ l.flatMap fun x => (f x).problems } := by
  induction l generalizing a with
  | nil => simp
  | cons x l ih => rw [List.foldl_cons, ih]; simp [merge]

/-- **Text in chunks**: the problems of the lines, and the stream itself. -/
theorem runDecoder_text {d : TextProblemDecoder} (hopen : 10 ∉ d.pending)
    (chunks : List (List UInt8)) :
    runDecoder TextProblemDecoder.push TextProblemDecoder.finish d chunks =
      { display := chunks.flatten
        problems :=
          (Lines.takeLines 10 (d.pending ++ chunks.flatten)).1.filterMap (decodeLine d.cwd) ++
            (decodeLine d.cwd (Lines.takeLines 10 (d.pending ++ chunks.flatten)).2).toList } := by
  induction chunks generalizing d with
  | nil =>
    rw [List.flatten_nil, List.append_nil, Lines.takeLines_open hopen]
    rfl
  | cons chunk chunks ih =>
    have hpush : 10 ∉ (d.push chunk).1.pending := Lines.notMem_takeLines _
    rw [runDecoder, ih hpush, List.flatten_cons, ← List.append_assoc,
      Lines.takeLines_append (d.pending ++ chunk), List.filterMap_append, List.append_assoc]
    rfl

variable {parse : String → Except String Value}

/-- **Cargo's output in chunks**: what its lines decode to. -/
theorem runDecoder_cargo {d : CargoOutputDecoder} (hopen : 10 ∉ d.pending)
    (chunks : List (List UInt8)) :
    runDecoder (CargoOutputDecoder.push parse) (CargoOutputDecoder.finish parse) d chunks =
      (Lines.allLines 10 (d.pending ++ chunks.flatten)).foldl
        (fun decoded line => merge decoded (CargoOutputDecoder.decodeLine parse d.cwd line)) {} := by
  induction chunks generalizing d with
  | nil =>
    rw [List.flatten_nil, List.append_nil, Lines.allLines, Lines.takeLines_open hopen, runDecoder,
      CargoOutputDecoder.finish]
    by_cases hempty : d.pending = []
    · rw [if_pos hempty, if_pos hempty]
      rfl
    · rw [if_neg hempty, if_neg hempty, List.nil_append, List.foldl_cons, empty_merge]
      rfl
  | cons chunk chunks ih =>
    have hpush : 10 ∉ (d.push parse chunk).1.pending := Lines.notMem_takeLines _
    rw [runDecoder, ih hpush, List.flatten_cons, ← List.append_assoc,
      Lines.allLines_append (d.pending ++ chunk), List.foldl_append]
    simp only [CargoOutputDecoder.push, foldl_merge]
    simp [merge]

/-! ## Lines that are kept -/

theorem display_decodeLine {cwd : Path} {line : List UInt8} (h : ¬MachineLine parse line) :
    (CargoOutputDecoder.decodeLine parse cwd line).display = line := by
  cases hread : fromUtf8 line with
  | error e => simp only [CargoOutputDecoder.decodeLine, hread]
  | ok text =>
    cases hparse : parse (String.ofList (stripLineEnd text)) with
    | error e => simp only [CargoOutputDecoder.decodeLine, hread, hparse, fallbackLine]
    | ok value =>
      have hmachine (reason : String) (hreason : value.getStr "reason" = some reason)
          (hmem : reason ∈ ["compiler-message", "compiler-artifact", "build-script-executed",
            "build-finished"]) : False :=
        h ⟨text, value, eq_utf8_of_fromUtf8 hread, hparse, reason, hreason, hmem⟩
      simp only [CargoOutputDecoder.decodeLine, hread, hparse]
      split
      · rename_i hreason
        exact (hmachine _ hreason (by simp)).elim
      · rename_i hreason
        exact (hmachine _ hreason (by simp)).elim
      · rename_i hreason
        exact (hmachine _ hreason (by simp)).elim
      · rename_i hreason
        exact (hmachine _ hreason (by simp)).elim
      · rfl

/-- **Chunks make no difference and nothing is lost**: either decoder gives what it gives for the
whole stream; the text decoder displays the stream, and Cargo's displays every line of it in order,
those without a machine message as they are. -/
theorem decoding_chunks (parse : String → Except String Value) (cwd : Path)
    (chunks : List (List UInt8)) :
    runDecoder TextProblemDecoder.push TextProblemDecoder.finish (.new cwd) chunks =
        runDecoder TextProblemDecoder.push TextProblemDecoder.finish (.new cwd)
          [chunks.flatten] ∧
      (runDecoder TextProblemDecoder.push TextProblemDecoder.finish (.new cwd) chunks).display =
        chunks.flatten ∧
      runDecoder (CargoOutputDecoder.push parse) (CargoOutputDecoder.finish parse) (.new cwd)
          chunks =
        runDecoder (CargoOutputDecoder.push parse) (CargoOutputDecoder.finish parse) (.new cwd)
          [chunks.flatten] ∧
      ∃ shown, List.Forall₂ (fun line bytes => ¬MachineLine parse line → bytes = line)
          (Lines.allLines 10 chunks.flatten) shown ∧
        (runDecoder (CargoOutputDecoder.push parse) (CargoOutputDecoder.finish parse) (.new cwd)
          chunks).display = shown.flatten := by
  have hopen : (10 : UInt8) ∉ ([] : List UInt8) := by simp
  have hone : [chunks.flatten].flatten = chunks.flatten := List.flatten_singleton
  have htext := fun cs => runDecoder_text (d := .new cwd) hopen cs
  have hcargo := fun cs => @runDecoder_cargo parse (.new cwd) hopen cs
  refine ⟨by rw [htext, htext, hone], by rw [htext], by rw [hcargo, hcargo, hone],
    (Lines.allLines 10 chunks.flatten).map fun line =>
      (CargoOutputDecoder.decodeLine parse cwd line).display, ?_, ?_⟩
  · rw [List.forall₂_map_right_iff, List.forall₂_same]
    exact fun line _ h => display_decodeLine h
  · rw [hcargo, foldl_merge, List.nil_append, List.flatMap_def]
    rfl

end Tasks

end Termesh
