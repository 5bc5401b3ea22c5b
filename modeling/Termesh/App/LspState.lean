import Termesh.Core.Lsp
import Termesh.Editor.Lines
import Termesh.Editor.Span
import Termesh.Lib.Table

/-!
# Language-server state

The recipes not launched yet, the live sessions in the order of their ids, and the messages queued
for them. A session remembers the newest request of each kind and the text it last told its server.

* `serverFor`, `recipeForPath`: which session or recipe claims a path;
* `syncDocument`: one buffer of `sync_lsp_documents`;
* `closeDocument`, `restart`, `request`.
-/

namespace Termesh

open Tables

/-- `Path::extension`: what follows the last dot of the file name, unless the dot leads it. -/
def Path.extension (p : Path) : Option String :=
  p.fileName.bind fun name =>
    let tail := (name.toList.reverse.takeWhile (· ≠ '.')).reverse
    if tail.length + 1 < name.length then some (String.ofList tail) else none

namespace App

/-- How far a server is. -/
inductive LspLoadState where
  | idle
  | starting
  | indexing (message : String) (percent : Option ℕ)
  | ready
  | unavailable (failure : LspFailure)
  | stale (failure : LspFailure)
deriving DecidableEq, Repr

/-- Everything needed to launch a session's process again. -/
structure SessionLaunch where
  root : Path
  command : List String
  initializationOptions : Option String
deriving DecidableEq, Repr

/-- A recipe resolved at workspace open but not launched yet. -/
structure ConfiguredRecipe where
  language : String
  extensions : List String
  launch : SessionLaunch
  load : LspLoadState := .idle
deriving DecidableEq, Repr

/-- Whether a list of extensions claims `path`, ASCII case aside. -/
def claims (extensions : List String) (path : Path) : Bool :=
  match path.extension with
  | some ext => extensions.any fun claimed => claimed.toLower == ext.toLower
  | none => false

/-- One language server and everything currently in flight against it. -/
structure LspSessionState where
  server : LspServerId
  language : String
  load : LspLoadState := .starting
  extensions : List String
  launch : SessionLaunch
  openDocs : Table Path ℕ := ∅
  nextDocVersion : ℕ := 0
  syncedDocs : Table Path Text := ∅
  active : Table LspCall LspRequestId := ∅
  activeDocumentSymbolPath : Option Path := none

namespace LspSessionState

/-- Spend the next wire version on `path`. -/
def bump (s : LspSessionState) (path : Path) : LspSessionState :=
  { s with nextDocVersion := s.nextDocVersion + 1
           openDocs := s.openDocs.insert path (s.nextDocVersion + 1) }

/-- Forget every fact that belonged to the previous process. -/
def resetForRestart (s : LspSessionState) : LspSessionState :=
  { s with load := .starting, openDocs := ∅, syncedDocs := ∅, nextDocVersion := 0, active := ∅
           activeDocumentSymbolPath := none }

/-- Whether `id` is the newest request of some kind, and the session without it. -/
def clearRequest (s : LspSessionState) (id : LspRequestId) : LspSessionState × Bool :=
  let calls := s.active.entries.filterMap fun e => if e.2 = id then some e.1 else none
  ({ s with
      active := calls.foldl (fun t k => t.erase k) s.active
      activeDocumentSymbolPath :=
        if s.active.lookup .documentSymbols = some id then none
        else s.activeDocumentSymbolPath },
    !calls.isEmpty)

end LspSessionState

/-- The state of all sessions, with the outbox and the two counters of the model. -/
structure LspState where
  configured : List ConfiguredRecipe := []
  sessions : List LspSessionState := []
  diagnostics : Table Path (List Diagnostic) := ∅
  /-- Where the symbols of a document are. -/
  documentSymbols : Table Path (List TextRange) := ∅
  outbox : List (LspServerId × LspRequest) := []
  nextRequestId : ℕ := 0
  nextServerId : ℕ := 0

namespace LspState

/-- A request to a server. -/
def push (l : LspState) (server : LspServerId) (r : LspRequest) : LspState :=
  { l with outbox := l.outbox ++ [(server, r)] }

/-- The session of a server. -/
def session (l : LspState) (server : LspServerId) : Option LspSessionState :=
  l.sessions.find? (·.server = server)

/-- A session in place of the one of its server. -/
def setSession (l : LspState) (s : LspSessionState) : LspState :=
  { l with sessions := l.sessions.map fun t => if t.server = s.server then s else t }

/-- The session that claims `path`. -/
def serverFor (l : LspState) (path : Path) : Option LspServerId :=
  (l.sessions.find? fun s => claims s.extensions path).map (·.server)

/-- The index of the idle recipe that claims `path`. -/
def recipeForPath (l : LspState) (path : Path) : Option ℕ :=
  l.configured.findIdx? fun r => r.load == .idle && claims r.extensions path

/-- The request that starts a session's process. -/
def startRequest (s : LspSessionState) : LspRequest :=
  .start s.server s.launch.root s.launch.command s.language s.launch.initializationOptions

/-- Launch a recipe that claims `path`. -/
def launchFor (l : LspState) (path : Path) : Option (LspServerId × LspState) :=
  (l.recipeForPath path).bind fun i =>
    (l.configured[i]?).map fun recipe =>
      let server : LspServerId := ⟨l.nextServerId + 1⟩
      let s : LspSessionState :=
        { server, language := recipe.language, extensions := recipe.extensions
          launch := recipe.launch }
      (server, { l with
          configured := l.configured.eraseIdx i
          nextServerId := l.nextServerId + 1
          sessions := l.sessions ++ [s] }.push server (startRequest s))

/-- The changes of one document since its session last heard of it: the session, the messages, the
text it now has, and whether a change did not fit. -/
def sendChanges (path : Path) :
    List ChangeSet → LspSessionState → Text → LspSessionState × List LspRequest × Text × Bool
  | [], s, shadow => (s, [], shadow, false)
  | changes :: rest, s, shadow =>
    if changes.lenBefore ≠ shadow.length then (s, [], shadow, true)
    else
      match changes.changedSpan with
      | none => sendChanges path rest s shadow
      | some span =>
        let postImage := changes.apply shadow
        let start := utf16Position shadow span.beforeStart
        let stop := utf16Position shadow span.beforeEnd
        let replacement := (postImage.take span.afterEnd).drop span.afterStart
        let s := s.bump path
        let message := LspRequest.didChange path s.nextDocVersion
          (some ⟨⟨start.1, start.2⟩, ⟨stop.1, stop.2⟩⟩) replacement
        let (s, messages, shadow, lost) := sendChanges path rest s postImage
        (s, message :: messages, shadow, lost)

/-- Tell a session about a document: open it, send what changed, or close and open it again. -/
def syncWith (s : LspSessionState) (path : Path) (text : Text) (pending : List ChangeSet) :
    LspSessionState × List LspRequest :=
  match s.openDocs.lookup path with
  | none =>
    let s := s.bump path
    ({ s with syncedDocs := s.syncedDocs.insert path text },
      [.didOpen path s.language s.nextDocVersion text])
  | some _ =>
    let (s, messages, shadow, lost) := sendChanges path pending s ((s.syncedDocs.lookup path).getD text)
    if lost ∨ shadow ≠ text then
      let s := s.bump path
      ({ s with syncedDocs := s.syncedDocs.insert path text },
        messages ++ [.didClose path, .didOpen path s.language s.nextDocVersion text])
    else ({ s with syncedDocs := s.syncedDocs.insert path shadow }, messages)

/-- One buffer of `sync_lsp_documents`, from its path, its text and the changes it drained. -/
def syncDocument (l : LspState) (path : Path) (text : Text) (pending : List ChangeSet) : LspState :=
  let l := if pending.isEmpty then l else { l with diagnostics := l.diagnostics.erase path }
  match (l.serverFor path).map (·, l) <|> l.launchFor path with
  | none => l
  | some (server, l) =>
    match l.session server with
    | none => l
    | some s =>
      let (s, messages) := syncWith s path text pending
      { l.setSession s with outbox := l.outbox ++ messages.map (server, ·) }

/-- `close_lsp_document`. -/
def closeDocument (l : LspState) (path : Path) : LspState :=
  match (l.serverFor path).bind l.session with
  | none => l
  | some s =>
    let l :=
      if (s.openDocs.lookup path).isSome then
        (l.setSession { s with openDocs := s.openDocs.erase path
                               syncedDocs := s.syncedDocs.erase path }).push s.server
          (.didClose path)
      else l
    { l with diagnostics := l.diagnostics.erase path
             documentSymbols := l.documentSymbols.erase path }

/-- Relaunch every session under the recipe it was started with. -/
def restart (l : LspState) : LspState :=
  { l with
    sessions := l.sessions.map LspSessionState.resetForRestart
    outbox := l.outbox ++ l.sessions.map fun s => (s.server, startRequest s)
    diagnostics := ∅, documentSymbols := ∅ }

/-- Send a request of some kind to a session, cancelling the one it supersedes. -/
def request (l : LspState) (server : LspServerId) (kind : LspCall) (params : LspParams) :
    LspState :=
  let id : LspRequestId := ⟨l.nextRequestId + 1⟩
  let l := { l with nextRequestId := l.nextRequestId + 1 }
  match l.session server with
  | none => l
  | some s =>
    let l' := l.setSession { s with active := s.active.insert kind id }
    let l' := match s.active.lookup kind with
      | some previous => l'.push server (.cancel previous)
      | none => l'
    l'.push server (.call kind id params)

end LspState

end App

end Termesh
