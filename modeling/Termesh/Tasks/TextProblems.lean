import Termesh.Core.Task
import Termesh.Core.Texts
import Termesh.Lib.Lines
import Termesh.Lib.WellFormed
import Termesh.Lsp.Framing
import Termesh.Workspace.Permissions

/-!
# Problems in compiler output

A line of text is tried in four shapes, and the first that gives a problem is taken: `path(line,
column): message`, `path:line:column: message`, `path:line: message`, and a Python traceback frame.

* `decodeText`, `decodeLine`: a line and its problem;
* `TextProblemDecoder`: lines are decoded once they are complete.
-/

namespace Termesh

namespace Tasks

open Utf8
open Lsp (parseUsize)

/-- A path as it is when absolute, in the task's directory otherwise. -/
def underCwd (cwd path : Path) : Path :=
  if path.isAbsolute then path else App.PermissionStore.joinPath cwd path

/-- The first word of a message, of ASCII letters. -/
def leadingWord (message : List Char) : List Char :=
  (message.dropWhile fun c => !c.isAlpha).takeWhile Char.isAlpha

/-- `build_problem`. -/
def buildProblem (cwd : Path) (rawPath : List Char) (line column : ℕ) (message : List Char) :
    Option Problem :=
  let path := Path.ofString (String.ofList rawPath)
  if rawPath = [] ∨ message = [] then none
  else if .parentDir ∈ path then none
  else
    let word := (leadingWord message).map Char.toLower
    let severity : ProblemSeverity :=
      if word = "warning".toList ∨ word = "warn".toList then .warning else .error
    some { path := underCwd cwd path, line, column, severity, message := String.ofList message }

/-- `tsc_problem`. -/
def tscProblem (cwd : Path) (text : List Char) : Option Problem := do
  let (front, message) ← splitLast "):".toList text
  let (rawPath, coordinates) ← splitLast ['('] front
  match coordinates.splitOn ',' with
  | [line, column] =>
    let line ← parseUsize (trimText line)
    let column ← parseUsize (trimText column)
    buildProblem cwd rawPath line column (trimText message)
  | _ => none

/-- Behind a colon: a line, a column and a message, each with a colon in front. -/
def lineAndColumn (afterLine : List Char) : Option (ℕ × ℕ × List Char) := do
  let (line, afterColumn) ← splitFirst [':'] afterLine
  let line ← parseUsize (trimText line)
  let (column, message) ← splitFirst [':'] afterColumn
  let column ← parseUsize (trimText column)
  return (line, column, message)

/-- The loop over the colons of a text: what `attempt` makes of the first at which it does not
`continue`, from the text in front of it and the text behind. -/
def atColons {α : Type} (attempt : List Char → List Char → Option α) :
    List Char → List Char → Option α
  | _, [] => none
  | before, c :: rest =>
    if c = ':' then
      match attempt before rest with
      | some a => some a
      | none => atColons attempt (before ++ [c]) rest
    else atColons attempt (before ++ [c]) rest

/-- What `gcc_problem` makes of a colon. -/
def gccAttempt (cwd : Path) (before afterLine : List Char) : Option (Option Problem) :=
  (lineAndColumn afterLine).map fun (line, column, message) =>
    buildProblem cwd (trimText before) line column (trimText message)

/-- `gcc_problem`. -/
def gccProblem (cwd : Path) (text : List Char) : Option Problem :=
  (atColons (gccAttempt cwd) [] text).join

/-- `Path::extension` of a path has something to give. -/
def hasExtension (path : Path) : Bool :=
  match path.fileName with
  | some name =>
    match splitLast ['.'] name.toList with
    | some (before, _) => !before.isEmpty
    | none => false
  | none => false

/-- `plausible_two_part_path`. -/
def plausibleTwoPartPath (rawPath : List Char) : Bool :=
  !rawPath.isEmpty && hasExtension (Path.ofString (String.ofList rawPath)) &&
    (rawPath.contains '/' || rawPath.contains '\\' || rawPath.contains '.')

/-- Behind a colon: a line and a message. -/
def lineOnly (afterLine : List Char) : Option (ℕ × List Char) := do
  let (line, message) ← splitFirst [':'] afterLine
  let line ← parseUsize (trimText line)
  return (line, message)

/-- What `javac_problem` makes of a colon. -/
def javacAttempt (cwd : Path) (before afterLine : List Char) : Option (Option Problem) :=
  (lineOnly afterLine).bind fun (line, message) =>
    if plausibleTwoPartPath (trimText before) then
      some (buildProblem cwd (trimText before) line 1 (trimText message))
    else none

/-- `javac_problem`. -/
def javacProblem (cwd : Path) (text : List Char) : Option Problem :=
  (atColons (javacAttempt cwd) [] text).join

/-- `python_problem`. -/
def pythonProblem (cwd : Path) (text : List Char) : Option Problem := do
  let frame ← (trimStart text).dropPrefix? "File \"".toList
  let (rawPath, tail) ← splitFirst "\", line ".toList frame
  let line ← parseUsize (tail.takeWhile fun c => c ≠ ',' ∧ c ≠ ' ')
  buildProblem cwd rawPath line 1 (trimText text)

/-- `strip_maven_prefix`. -/
def stripMavenPrefix (text : List Char) : List Char × Option ProblemSeverity :=
  match text.dropPrefix? "[ERROR]".toList with
  | some text => (trimStart text, some .error)
  | none =>
    match text.dropPrefix? "[WARNING]".toList with
    | some text => (trimStart text, some .warning)
    | none => (text, none)

/-- The problem of a line of text. -/
def decodeText (cwd : Path) (line : List Char) : Option Problem := do
  let (text, prefixedSeverity) :=
    stripMavenPrefix (line.rdropWhile fun c => c = '\r' ∨ c = '\n')
  let problem ← tscProblem cwd text <|> gccProblem cwd text <|> javacProblem cwd text <|>
    pythonProblem cwd text
  return { problem with severity := prefixedSeverity.getD problem.severity }

/-- `decode_line`: nothing in bytes that are no text. -/
def decodeLine (cwd : Path) (line : List UInt8) : Option Problem :=
  match fromUtf8 line with
  | .ok text => decodeText cwd text
  | .error _ => none

/-- The decoder of a task that prints problems as text. -/
structure TextProblemDecoder where
  cwd : Path
  pending : List UInt8

namespace TextProblemDecoder

/-- `TextProblemDecoder::new`. -/
def new (cwd : Path) : TextProblemDecoder := { cwd, pending := [] }

/-- `push`: what is displayed is what came. -/
def push (d : TextProblemDecoder) (bytes : List UInt8) : TextProblemDecoder × DecodedTaskOutput :=
  let (lines, pending) := Lines.takeLines 10 (d.pending ++ bytes)
  ({ d with pending }, { display := bytes, problems := lines.filterMap (decodeLine d.cwd) })

/-- `finish`. -/
def finish (d : TextProblemDecoder) : TextProblemDecoder × DecodedTaskOutput :=
  ({ d with pending := [] },
    { display := [], problems := (decodeLine d.cwd d.pending).toList })

end TextProblemDecoder

end Tasks

end Termesh
