import Mathlib.Data.Finset.Basic
import Termesh.Lib.Table
import Termesh.Lsp.Wire

/-!
# The language-server translator

`Translator` turns requests of the model into wire messages and wire messages into events, without
any I/O. Requests wait until the server has answered `initialize`; every request that expects an
answer is pending under a wire id drawn from one counter.

* `initializeWith`, `outgoing`, `encodeRequest`, `trackedRequest`: towards the server;
* `incoming`, `response`, `answerClientRequest`, `notificationEvents`: from the server.
-/

namespace Termesh

open Tables

namespace Lsp

/-- What the JSON crate decides: which texts parse, and how a fraction is written. -/
structure Json where
  parse : String → Except String Value
  floatText : UInt64 → String

/-- How far the handshake is. -/
inductive State where
  | new
  | initializing (id : ℕ)
  | ready
deriving DecidableEq

/-- What a request that waits for its answer was. -/
inductive PendingKind where
  | definition
  | hover
  | completion (path : Path)
  | references
  | documentSymbols
  | workspaceSymbols
  | rename
  | codeActions
  | formatting (path : Path)
  | shutdown
deriving DecidableEq

/-- A request that waits for its answer, and the model's id of it. -/
structure Pending where
  externalId : Option LspRequestId
  kind : PendingKind
deriving DecidableEq

/-- What the translator knows between two messages. -/
structure Translator where
  state : State := .new
  /-- The last wire id given out. -/
  ids : ℕ := 0
  pending : Table ℕ Pending := ∅
  externalToWire : Table LspRequestId ℕ := ∅
  cancelled : Finset ℕ := ∅
  queued : List LspRequest := []
  /-- Progress tokens the server has begun and not yet ended. -/
  activeProgress : Finset String := ∅

/-! ## Opening -/

/-- A capability that is there or not. -/
def flag (name : String) (on : Bool) : String × Value := (name, .bool on)

/-- The capabilities that are declared. -/
def capabilities : Value :=
  let static := flag "dynamicRegistration" false
  .object [
    ("textDocument", .object [
      ("codeAction", .object [static]),
      ("completion", .object [static]),
      ("definition", .object [static, flag "linkSupport" true]),
      ("documentSymbol", .object [static, flag "hierarchicalDocumentSymbolSupport" true]),
      ("formatting", .object [static]),
      ("hover", .object
        [("contentFormat", .array [.string "markdown", .string "plaintext"]), static]),
      ("references", .object [static]),
      ("rename", .object [static, flag "prepareSupport" false]),
      ("synchronization", .object
        [flag "didSave" true, static, flag "willSave" false, flag "willSaveWaitUntil" false])]),
    ("window", .object [flag "workDoneProgress" true]),
    ("workspace", .object [
      ("didChangeWatchedFiles", .object [flag "dynamicRegistration" true]),
      ("symbol", .object [static]),
      flag "workspaceFolders" true])]

/-- The name of the root, or the root itself. -/
def workspaceName (root : Path) : String := root.fileName.getD root.display

/-- The parameters of `initialize`. -/
def initializeParams (root : Path) (options : Option Value) : Value :=
  .object <|
    [("capabilities", capabilities)] ++
    (options.map fun options => ("initializationOptions", options)).toList ++
    [("processId", .null), ("rootUri", .string (pathToUri root)),
      ("workspaceFolders", .array [.object
        [("name", .string (workspaceName root)), ("uri", .string (pathToUri root))]])]

namespace Translator

/-- The opening handshake, unless the options it should carry do not parse. -/
def initializeWith (j : Json) (t : Translator) (root : Path) (options : Option String) :
    Except LspFailure (Translator × Message) :=
  match options.mapM j.parse with
  | .error error => .error ⟨.handshake, "invalid initializationOptions: " ++ error⟩
  | .ok options =>
    let id := t.ids + 1
    .ok ({ t with ids := id, state := .initializing id },
      .request id "initialize" (initializeParams root options))

end Translator

/-! ## Towards the server -/

/-- What a call is remembered as. -/
def pendingKind (kind : LspCall) (params : LspParams) : PendingKind :=
  let path : Path := match params with
    | .at path _ | .within path _ | .document path | .rename path _ _ => path
    | .workspace _ => []
  match kind with
  | .definition => .definition
  | .hover => .hover
  | .completion => .completion path
  | .references => .references
  | .documentSymbols => .documentSymbols
  | .workspaceSymbols => .workspaceSymbols
  | .rename => .rename
  | .codeActions => .codeActions
  | .formatting => .formatting path

/-- The method of a call. -/
def methodOf : LspCall → String
  | .definition => "textDocument/definition"
  | .hover => "textDocument/hover"
  | .completion => "textDocument/completion"
  | .references => "textDocument/references"
  | .documentSymbols => "textDocument/documentSymbol"
  | .workspaceSymbols => "workspace/symbol"
  | .rename => "textDocument/rename"
  | .codeActions => "textDocument/codeAction"
  | .formatting => "textDocument/formatting"

/-- The fields only one method has. -/
def extraParams : LspCall → List (String × Value)
  | .references => [("context", .object [flag "includeDeclaration" true])]
  | .codeActions => [("context", .object [("diagnostics", .array [])])]
  | .formatting =>
    [("options", .object [flag "insertSpaces" true, ("tabSize", .number (.posInt 4))])]
  | _ => []

/-- The parameters of a call. -/
def paramsJson (kind : LspCall) (params : LspParams) : Value :=
  .object <| extraParams kind ++ match params with
    | .at path position =>
      [("position", positionJson position), ("textDocument", documentJson path)]
    | .within path range => [("range", rangeJson range), ("textDocument", documentJson path)]
    | .document path => [("textDocument", documentJson path)]
    | .rename path position newName =>
      [("newName", .string newName), ("position", positionJson position),
        ("textDocument", documentJson path)]
    | .workspace query => [("query", .string query)]

/-- One entry of `workspace/didChangeWatchedFiles`. -/
def watchedChange (change : WatchedFileChange) : Value :=
  let entry (path : Path) (type : ℕ) : Value :=
    .object [("type", .number (.posInt type)), ("uri", .string (pathToUri path))]
  match change with
  | .created path => entry path 1
  | .changed path => entry path 2
  | .deleted path => entry path 3

/-- A text as it is sent. -/
def text (s : List Char) : Value := .string (String.ofList s)

namespace Translator

/-- Send a request whose answer is awaited. -/
def trackedRequest (t : Translator) (externalId : LspRequestId) (kind : PendingKind)
    (method : String) (params : Value) : Translator × Message :=
  let id := t.ids + 1
  ({ t with
      ids := id
      pending := t.pending.insert id ⟨some externalId, kind⟩
      externalToWire := t.externalToWire.insert externalId id },
    .request id method params)

/-- `encode_request`. Reloads of a project do not get here. -/
def encodeRequest (t : Translator) : LspRequest → Translator × Option Message
  | .start .. | .reloadProject _ => (t, none)
  | .didOpen path languageId version contents =>
    (t, some (.notification "textDocument/didOpen" (.object [("textDocument", .object
      [("languageId", .string languageId), ("text", text contents),
        ("uri", .string (pathToUri path)), ("version", .number (.posInt version))])])))
  | .didChange path version range contents =>
    let content := .object <|
      (range.map fun range => ("range", rangeJson range)).toList ++ [("text", text contents)]
    (t, some (.notification "textDocument/didChange" (.object [("contentChanges", .array [content]),
      ("textDocument", .object
        [("uri", .string (pathToUri path)), ("version", .number (.posInt version))])])))
  | .didSave path =>
    (t, some (.notification "textDocument/didSave" (.object [("textDocument", documentJson path)])))
  | .didClose path =>
    (t, some (.notification "textDocument/didClose" (.object [("textDocument", documentJson path)])))
  | .watchedFilesChanged changes =>
    (t, some (.notification "workspace/didChangeWatchedFiles"
      (.object [("changes", .array (changes.map watchedChange))])))
  | .call kind id params =>
    let (t, message) := t.trackedRequest id (pendingKind kind params) (methodOf kind)
      (paramsJson kind params)
    (t, some message)
  | .cancel id =>
    match t.externalToWire.lookup id with
    | none => (t, none)
    | some wire =>
      ({ t with cancelled := insert wire t.cancelled },
        some (.notification "$/cancelRequest" (.object [("id", .number (.posInt wire))])))
  | .shutdown =>
    let id := t.ids + 1
    ({ t with ids := id, pending := t.pending.insert id ⟨none, .shutdown⟩ },
      some (.request id "shutdown" .null))

/-- The messages a request becomes; it is queued until the handshake is over. -/
def outgoing (t : Translator) (request : LspRequest) : Translator × List Message :=
  if t.state ≠ .ready then ({ t with queued := t.queued ++ [request] }, [])
  else
    match request with
    | .reloadProject paths =>
      (t, paths.map fun path => .notification "java/projectConfigurationUpdate"
        (.object [("uri", .string (pathToUri path))]))
    | request =>
      let (t, message) := t.encodeRequest request
      (t, message.toList)

/-- Send requests one after the other; what each becomes is kept apart. -/
def flush (t : Translator) : List LspRequest → Translator × List (List Message)
  | [] => (t, [])
  | request :: requests =>
    let (t, messages) := t.outgoing request
    let (t, rest) := t.flush requests
    (t, messages :: rest)

end Translator

/-! ## From the server -/

/-- The answer to a request of the server itself. -/
def answerClientRequest (id : ℕ) (method : String) (params : Value) : Message :=
  match method with
  | "client/registerCapability" | "window/workDoneProgress/create" | "telemetry/event" =>
    .response id .null
  | "workspace/configuration" =>
    let count := (((params.get "items").bind Value.asArray).map List.length).getD 0
    .response id (.array (List.replicate count .null))
  | _ => .error id (-32601) "Method not found"

/-- A number as text. -/
def numberText (j : Json) : Number → String
  | .posInt n => toString n
  | .negInt n => toString n
  | .float bits => j.floatText bits

/-- The token of a progress, a string or a number. -/
def progressToken (j : Json) (params : Value) : Option String :=
  match params.get "token" with
  | some (.string token) => some token
  | some (.number token) => some (numberText j token)
  | _ => none

/-- The event an answer becomes. -/
def responseEvent (id : LspRequestId) (kind : PendingKind) (result : Value) : Option LspEvent :=
  match kind with
  | .definition => some (.definition id (locations result))
  | .hover => some (.hover id (hover result).isSome)
  | .completion path => some (.completion id (completionItems result path))
  | .references => some (.references id (locations result))
  | .documentSymbols => some (.documentSymbols id (documentSymbols result))
  | .workspaceSymbols => some (.workspaceSymbols id (workspaceSymbols result))
  | .rename => some (.rename id (workspaceEdit result))
  | .codeActions => some (.codeActions id (codeActions result))
  | .formatting path => some (.formatting id (textEdits result path))
  | .shutdown => none

namespace Translator

/-- Only the last token that ends means the server is done. -/
def progressEvents (j : Json) (t : Translator) (params : Value) : Translator × List LspEvent :=
  match parseProgress params with
  | none => (t, [])
  | some indexing =>
    match progressToken j params with
    | none => (t, [indexing])
    | some token =>
      if (params.get "value").bind (·.getStr "kind") = some "end" then
        let active := t.activeProgress.erase token
        ({ t with activeProgress := active }, if active = ∅ then [.ready] else [])
      else ({ t with activeProgress := insert token t.activeProgress }, [indexing])

/-- What a notification tells. -/
def notificationEvents (j : Json) (t : Translator) (method : String) (params : Value) :
    Translator × List LspEvent :=
  match method with
  | "textDocument/publishDiagnostics" => (t, (parseDiagnostics params).toList)
  | "$/progress" => t.progressEvents j params
  | "language/status" => (t, [parseJdtLanguageStatus params])
  | _ => (t, [])

/-- What `incoming` leaves behind: the translator, events for the model and messages for the
server. -/
abbrev Absorbed := Translator × List LspEvent × List Message

/-- An answer to a pending request: an event, unless the request was cancelled. -/
def answered (t : Translator) (pending : Pending) (id : ℕ) (answer : Except (Int × String) Value) :
    Translator × List LspEvent :=
  let known := match pending.externalId with
    | some external => t.externalToWire.erase external
    | none => t.externalToWire
  let t' := { t with
    pending := t.pending.erase id, externalToWire := known, cancelled := t.cancelled.erase id }
  if id ∈ t.cancelled then (t', [])
  else
    match pending.externalId with
    | none => (t', [])
    | some external =>
      match answer with
      | .ok result => (t', (responseEvent external pending.kind result).toList)
      | .error (code, message) =>
        (t', [.failed (some external) ⟨.server, "language request failed (" ++
          toString code ++ "): " ++ message⟩])

/-- The server answers a request of ours. -/
def response (t : Translator) (id : ℕ) (answer : Except (Int × String) Value) : Absorbed :=
  if t.state = .initializing id then
    match answer with
    | .ok _ =>
      let (t', messages) := { t with state := .ready, queued := [] }.flush t.queued
      (t', [.ready], .notification "initialized" (.object []) :: messages.flatten)
    | .error (code, message) =>
      ({ t with state := .new },
        [.failed none ⟨.handshake, "initialize failed (" ++ toString code ++ "): " ++ message⟩], [])
  else
    match t.pending.lookup id with
    | none => (t, [], [])
    | some pending =>
      let (t, events) := t.answered pending id answer
      (t, events, [])

/-- A message of the server is taken in. -/
def incoming (j : Json) (t : Translator) : Message → Absorbed
  | .request id method params => (t, [], [answerClientRequest id method params])
  | .notification method params =>
    let (t, events) := t.notificationEvents j method params
    (t, events, [])
  | .response id result => t.response id (.ok result)
  | .error id code message => t.response id (.error (code, message))

end Translator

end Lsp

end Termesh
