import Termesh.Agent.Json
import Termesh.Core.Lsp

/-!
# The language-server wire format

How paths, positions and edits are written into JSON, and how they are read back from what a server
sends. The fields of an object are listed in the order the map iterates them.

* `pathToUri`, `uriToPath`: file URIs, with every other byte in hexadecimal;
* `textRange`, `textEdit`, `textEdits`, `workspaceEdit`, `codeActions`: edits;
* `locations`, `hover`, `completionItems`, `documentSymbols`, `workspaceSymbols`,
  `parseDiagnostics`, `parseProgress`: what else a server answers and reports.
-/

namespace Termesh

namespace Lsp

/-- The most diagnostics that are taken from one report. -/
def maxDiagnostics : ℕ := 500

/-- The most locations that are taken from one answer. -/
def maxLocations : ℕ := 500

/-- The most completions that are taken from one answer. -/
def maxCompletions : ℕ := 200

/-- The most symbols that are taken from one list. -/
def maxSymbols : ℕ := 500

/-- The most code actions that are taken from one answer. -/
def maxCodeActions : ℕ := 100

/-- The most characters that are taken from a hover. -/
def maxHoverChars : ℕ := 32 * 1024

/-! ## Paths as URIs -/

/-- The bytes of a text. -/
def bytesOf (s : String) : List UInt8 := s.toUTF8.data.toList

/-- A hexadecimal digit, in capitals. -/
def hexDigit (n : UInt8) : Char :=
  if n < 10 then Char.ofNat (48 + n.toNat) else Char.ofNat (55 + n.toNat)

/-- A byte that stands for itself in a URI. -/
def plainByte (b : UInt8) : Bool :=
  let c := Char.ofNat b.toNat
  b < 128 && (c.isAlphanum || "/-_.~:".toList.contains c)

/-- A byte as it stands in a URI. -/
def encodeByte (b : UInt8) : List Char :=
  if plainByte b then [Char.ofNat b.toNat] else ['%', hexDigit (b >>> 4), hexDigit (b &&& 15)]

/-- The URI of a file. -/
def pathToUri (path : Path) : String :=
  "file://" ++ String.ofList ((bytesOf path.display).flatMap encodeByte)

/-- The value of a hexadecimal digit. -/
def hex (b : UInt8) : Option UInt8 :=
  if 48 ≤ b ∧ b ≤ 57 then some (b - 48)
  else if 97 ≤ b ∧ b ≤ 102 then some (b - 97 + 10)
  else if 65 ≤ b ∧ b ≤ 70 then some (b - 65 + 10)
  else none

/-- A `%` that two more bytes follow is an escape, and has to be one. -/
def percentDecode : List UInt8 → Option (List UInt8)
  | [] => some []
  | 37 :: a :: b :: rest =>
    (hex a).bind fun high =>
      (hex b).bind fun low =>
        (percentDecode rest).map ((high <<< 4 ||| low) :: ·)
  | b :: rest => (percentDecode rest).map (b :: ·)

/-- What follows the scheme of a file URI. -/
def stripScheme (uri : String) : Option (List UInt8) :=
  let scheme := bytesOf "file://"
  if scheme.isPrefixOf (bytesOf uri) then some ((bytesOf uri).drop scheme.length) else none

/-- The file of a URI, if its scheme is that of files and its bytes are a text. -/
def uriToPath (uri : String) : Option Path :=
  (stripScheme uri).bind fun encoded =>
    (percentDecode encoded).bind fun decoded =>
      (String.fromUTF8? ⟨decoded.toArray⟩).map Path.ofString

/-! ## Writing -/

/-- A position as it is sent. -/
def positionJson (position : TextPosition) : Value :=
  .object [("character", .number (.posInt position.character)),
    ("line", .number (.posInt position.line))]

/-- A range as it is sent. -/
def rangeJson (range : TextRange) : Value :=
  .object [("end", positionJson range.stop), ("start", positionJson range.start)]

/-- The document a request is about. -/
def documentJson (path : Path) : Value := .object [("uri", .string (pathToUri path))]

/-! ## Reading positions and edits -/

/-- A number that fits 32 bits. -/
def asU32 (v : Value) : Option ℕ := v.asU64.filter (· < 2 ^ 32)

/-- A position as it is read. -/
def textPosition (v : Value) : Option TextPosition :=
  ((v.get "line").bind asU32).bind fun line =>
    ((v.get "character").bind asU32).map fun character => ⟨line, character⟩

/-- A range as it is read. -/
def textRange (v : Value) : Option TextRange :=
  ((v.get "start").bind textPosition).bind fun start =>
    ((v.get "end").bind textPosition).map fun stop => ⟨start, stop⟩

/-- An edit of a file, whose range a completion may call `replace`. -/
def textEdit (v : Value) (path : Path) : Option TextEdit :=
  (((v.get "range").or (v.get "replace")).bind textRange).bind fun range =>
    (v.getStr "newText").map fun newText => ⟨path, range, newText.toList⟩

/-- The items of an array, none of anything else. -/
def itemsOf (v : Value) : List Value := v.asArray.getD []

/-- The edits of a file that can be read. -/
def textEdits (v : Value) (path : Path) : List TextEdit :=
  (itemsOf v).filterMap fun edit => textEdit edit path

/-- One entry of `changes`. -/
def changeEdits (change : String × Value) : List TextEdit :=
  match uriToPath change.1 with
  | none => []
  | some path => textEdits change.2 path

/-- The file a `documentChanges` entry is about, and the version it was computed for. -/
def changedDocument (change : Value) : Option (Path × Option ℕ) :=
  (change.get "textDocument").bind fun document =>
    ((document.getStr "uri").bind uriToPath).map fun path =>
      (path, (document.get "version").bind Value.asU64)

/-- The edits of one entry of `documentChanges`. -/
def documentEdits (change : Value) : List TextEdit :=
  match changedDocument change with
  | none => []
  | some (path, _) => ((change.get "edits").map fun edits => textEdits edits path).getD []

/-- The version one entry of `documentChanges` names. -/
def documentVersion (change : Value) : Option (Path × ℕ) :=
  (changedDocument change).bind fun document => document.2.map (document.1, ·)

/-- The fields of an object. -/
def asObject : Value → Option (List (String × Value))
  | .object fields => some fields
  | _ => none

/-- Everything of a workspace edit that can be read. -/
def workspaceEdit (v : Value) : WorkspaceEdit :=
  let changes := ((v.get "changes").bind asObject).getD []
  let documents := ((v.get "documentChanges").bind Value.asArray).getD []
  { edits := changes.flatMap changeEdits ++ documents.flatMap documentEdits
    versions := documents.filterMap documentVersion }

/-- A code action; a command it brings is not run. -/
def codeAction (v : Value) : Option CodeAction :=
  (v.getStr "title").map fun title => ⟨title, (v.get "edit").map workspaceEdit⟩

/-- The code actions of an answer. -/
def codeActions (v : Value) : List CodeAction :=
  ((itemsOf v).take maxCodeActions).filterMap codeAction

/-! ## Reading other answers -/

/-- A location or a location link. -/
def location (v : Value) : Option Location :=
  (((v.get "uri").or (v.get "targetUri")).bind Value.asStr).bind fun uri =>
    ((v.get "range").or ((v.get "targetSelectionRange").or (v.get "targetRange"))).bind fun range =>
      (uriToPath uri).bind fun path => (textRange range).map fun range => ⟨path, range⟩

/-- The locations of an answer, which may be a single one. -/
def locations (v : Value) : List Location :=
  match v with
  | .array values => (values.take maxLocations).filterMap location
  | v => (location v).toList

mutual

/-- The text of a hover: a string, a marked string, or several of them. -/
def hoverContents : Value → Option String
  | .string text => some text
  | .array items => some ("\n\n".intercalate (hoverParts items))
  | v => v.getStr "value"

/-- The texts of the items of a hover. -/
def hoverParts : List Value → List String
  | [] => []
  | v :: vs =>
    match hoverContents v with
    | some text => text :: hoverParts vs
    | none => hoverParts vs

end

/-- The hover text, cut to its limit. -/
def hover (v : Value) : Option String :=
  ((v.get "contents").bind hoverContents).map fun text =>
    String.ofList (text.toList.take maxHoverChars)

/-- One completion of a document. -/
def completionItem (path : Path) (v : Value) : Option CompletionItem :=
  (v.getStr "label").map fun label =>
    { label
      insertText := ((v.getStr "insertText").getD label).toList
      edit := (v.get "textEdit").bind fun edit => textEdit edit path }

/-- The completions of an answer, a list or the items of one. -/
def completionItems (v : Value) (path : Path) : List CompletionItem :=
  let values := (v.asArray.or ((v.get "items").bind Value.asArray)).getD []
  (values.take maxCompletions).filterMap (completionItem path)

theorem sizeOf_get {v child : Value} {key : String} (h : v.get key = some child) :
    sizeOf child < sizeOf v := by
  cases v with
  | object fields =>
    simp only [Value.get, Option.map_eq_some_iff] at h
    obtain ⟨field, hf, rfl⟩ := h
    have hmem := List.sizeOf_lt_of_mem (List.mem_of_find?_eq_some hf)
    have hsnd : sizeOf field.2 < sizeOf field := by
      obtain ⟨key, child⟩ := field
      rw [Prod.mk.sizeOf_spec]
      show sizeOf child < _
      omega
    rw [Value.object.sizeOf_spec]
    omega
  | _ => cases h

/-- A symbol of a document, with the symbols inside it behind it. -/
def documentSymbol (v : Value) : Option (List TextRange) :=
  let children : List (List TextRange) := match h : v.get "children" with
    | some (.array items) => (items.attach.take maxSymbols).filterMap fun ⟨item, hm⟩ =>
      have := Nat.lt_trans (List.sizeOf_lt_of_mem hm)
        (Nat.lt_trans (by simp : sizeOf items < sizeOf (Value.array items)) (sizeOf_get h))
      documentSymbol item
    | _ => []
  ((v.get "range").or ((v.get "location").bind (·.get "range"))).bind fun range =>
    (v.getStr "name").bind fun _ => (textRange range).map fun range => range :: children.flatten
termination_by sizeOf v

/-- The ranges of the symbols of a document. -/
def documentSymbols (v : Value) : List TextRange :=
  (((itemsOf v).take maxSymbols).filterMap documentSymbol).flatten

/-- One symbol of the workspace. -/
def workspaceSymbol (v : Value) : Option Location :=
  (v.getStr "name").bind fun _ => (v.get "location").bind location

/-- The symbols of an answer. -/
def workspaceSymbols (v : Value) : List Location :=
  ((itemsOf v).take maxSymbols).filterMap workspaceSymbol

/-! ## Reading notifications -/

/-- The severity of a number; one that is missing or unknown is information. -/
def diagnosticSeverity : Option ℕ → DiagnosticSeverity
  | some 1 => .error
  | some 2 => .warning
  | some 4 => .hint
  | _ => .info

/-- A diagnostic that has a range. -/
def diagnostic (v : Value) : Option Diagnostic :=
  ((v.get "range").bind textRange).map fun range =>
    ⟨range, diagnosticSeverity ((v.get "severity").bind Value.asU64)⟩

/-- `textDocument/publishDiagnostics`. -/
def parseDiagnostics (params : Value) : Option LspEvent :=
  ((params.getStr "uri").bind uriToPath).bind fun path =>
    ((params.get "diagnostics").bind Value.asArray).map fun items =>
      .diagnostics path ((params.get "version").bind Value.asU64)
        ((items.take maxDiagnostics).filterMap diagnostic)

/-- `$/progress`. -/
def parseProgress (params : Value) : Option LspEvent :=
  (params.get "value").map fun value =>
    .indexing (((value.getStr "message").or (value.getStr "title")).getD "indexing")
      (((value.get "percentage").bind Value.asU64).map (min · 100))

/-- `language/status` of the Java server. -/
def parseJdtLanguageStatus (params : Value) : LspEvent :=
  match params.getStr "type" with
  | some "Started" | some "ServiceReady" => .ready
  | _ => .indexing ((params.getStr "message").getD "indexing Java workspace") none

end Lsp

end Termesh
