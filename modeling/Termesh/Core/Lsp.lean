import Termesh.Core.Ids
import Termesh.Core.Path

/-!
# Language-server vocabulary

What the model exchanges with a language server session. Positions are zero-based lines and UTF-16
columns; texts are character lists, as buffers hold them. The nine correlated calls share one
constructor that carries its `LspCall`.
-/

namespace Termesh

/-- A language server session, owned by the model and stable across restarts. -/
structure LspServerId where
  val : ℕ
deriving DecidableEq, Repr

/-- A call awaiting its answer from a server. -/
structure LspRequestId where
  val : ℕ
deriving DecidableEq, Repr

/-- A line and a UTF-16 column, both from zero. -/
structure TextPosition where
  line : ℕ
  character : ℕ
deriving DecidableEq, Repr

/-- A range of a document, up to its end. -/
structure TextRange where
  start : TextPosition
  stop : TextPosition
deriving DecidableEq, Repr

/-- How severe a diagnostic is. -/
inductive DiagnosticSeverity where
  | error
  | warning
  | info
  | hint
deriving DecidableEq, Repr

/-- A diagnostic as far as the editor draws it. -/
structure Diagnostic where
  range : TextRange
  severity : DiagnosticSeverity
deriving DecidableEq, Repr

/-- A range in a file. -/
structure Location where
  path : Path
  range : TextRange
deriving DecidableEq, Repr

/-- A range of a file and what takes its place. -/
structure TextEdit where
  path : Path
  range : TextRange
  newText : List Char
deriving DecidableEq, Repr

/-- Edits to several files, each version being the one the server computed its edits for. -/
structure WorkspaceEdit where
  edits : List TextEdit
  versions : List (Path × ℕ)
deriving DecidableEq, Repr

/-- A completion: its edit, or a text to insert. -/
structure CompletionItem where
  label : String
  insertText : List Char
  edit : Option TextEdit
deriving DecidableEq, Repr

/-- A code action and the edit it brings. -/
structure CodeAction where
  title : String
  edit : Option WorkspaceEdit
deriving DecidableEq, Repr

/-- The calls of which a session remembers the newest. -/
inductive LspCall where
  | definition
  | hover
  | completion
  | references
  | documentSymbols
  | workspaceSymbols
  | rename
  | codeActions
  | formatting
deriving DecidableEq, Repr

/-- What a call carries besides its id. -/
inductive LspParams where
  | at (path : Path) (position : TextPosition)
  | within (path : Path) (range : TextRange)
  | document (path : Path)
  | rename (path : Path) (position : TextPosition) (newName : String)
  | workspace (query : String)
deriving DecidableEq, Repr

/-- What happened to a watched file. -/
inductive WatchedFileChange where
  | created (path : Path)
  | changed (path : Path)
  | deleted (path : Path)
deriving DecidableEq, Repr

/-- What the model asks of a server session. -/
inductive LspRequest where
  | start (server : LspServerId) (root : Path) (command : List String) (language : String)
      (initializationOptions : Option String)
  | didOpen (path : Path) (languageId : String) (version : ℕ) (text : List Char)
  | didChange (path : Path) (version : ℕ) (range : Option TextRange) (text : List Char)
  | didSave (path : Path)
  | didClose (path : Path)
  | watchedFilesChanged (changes : List WatchedFileChange)
  | reloadProject (paths : List Path)
  | call (kind : LspCall) (id : LspRequestId) (params : LspParams)
  | cancel (id : LspRequestId)
  | shutdown
deriving DecidableEq, Repr

/-- Where a session or a call failed. -/
inductive LspFailureKind where
  | notInstalled
  | handshake
  | transport
  | server
  | unsupported
deriving DecidableEq, Repr

/-- A failure with its message for the human. -/
structure LspFailure where
  kind : LspFailureKind
  message : String
deriving DecidableEq, Repr

/-- What a server session tells the model. -/
inductive LspEvent where
  | started
  | ready
  | indexing (message : String) (percent : Option ℕ)
  | diagnostics (path : Path) (version : Option ℕ) (items : List Diagnostic)
  | definition (id : LspRequestId) (locations : List Location)
  | hover (id : LspRequestId) (found : Bool)
  | completion (id : LspRequestId) (items : List CompletionItem)
  | references (id : LspRequestId) (locations : List Location)
  /-- The symbols of a document as their ranges, each before those inside it. -/
  | documentSymbols (id : LspRequestId) (symbols : List TextRange)
  | workspaceSymbols (id : LspRequestId) (symbols : List Location)
  | rename (id : LspRequestId) (edit : WorkspaceEdit)
  | codeActions (id : LspRequestId) (actions : List CodeAction)
  | formatting (id : LspRequestId) (edits : List TextEdit)
  | failed (id : Option LspRequestId) (failure : LspFailure)
  | unavailable (message : String)
  | exited (code : Option Int)
deriving DecidableEq, Repr

end Termesh
