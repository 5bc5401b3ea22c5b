import Termesh.App.Editing

/-!
# Language-server requests, edits and events

* `lspCursorTarget`, `requestAtCursor` and the other requests;
* `buildLspChanges`: protocol edits as one change set, or why not;
* `applyTextEdits`, `applyWorkspaceEdit`, `finishPendingWorkspaceEdit`;
* `openLspLocation`, `onLspEvent`.
-/

namespace Termesh

open Tables

/-- The order of components: root, `.`, `..`, then names. -/
def Component.rank : Component → ℕ
  | .rootDir => 0
  | .curDir => 1
  | .parentDir => 2
  | .normal _ => 3

/-- The order of paths, component by component. -/
def Path.le : Path → Path → Bool
  | [], _ => true
  | _ :: _, [] => false
  | .normal s :: p, .normal t :: q => if s = t then Path.le p q else decide (s < t)
  | a :: p, b :: q => if a = b then Path.le p q else decide (a.rank < b.rank)

/-- A set of paths in order. -/
def sortPaths (ps : List Path) : List Path := ps.dedup.insertionSort fun p q => p.le q = true

namespace App

/-- Protocol edits against the current text of a buffer. The inner error refuses them. -/
def buildLspChanges (b : Buffer) (edits : List TextEdit) : Option (Except String ChangeSet) :=
  let converted := edits.map fun e =>
    Hunk.mk (offsetFromUtf16 b.text e.range.start.line e.range.start.character)
      (offsetFromUtf16 b.text e.range.stop.line e.range.stop.character) e.newText .clean
  if converted.any fun k => k.stop < k.start then
    some (.error "Language server returned an edit with a reversed range")
  else
    let sorted := sortHunks converted
    if (sorted.zip sorted.tail).any fun (l, r) =>
        r.start < l.stop || (l.start == l.stop && r.start == r.stop && l.start == r.start) then
      some (.error "Language server returned overlapping edits")
    else
      ((hunkLoop sorted 0 (ChangeSet.builder b.text.length)).bind ChangeSetBuilder.build).map .ok

namespace Model

/-! ## Requests -/

/-- The session of the buffer on screen, its path and its cursor. -/
def lspCursorTarget (m : Model) : Option (LspServerId × Path × TextPosition) :=
  m.active.bind fun b =>
    b.path.bind fun path =>
      (m.lsp.serverFor path).map fun server =>
        let p := utf16Position b.text b.selection.primary.head
        (server, path, ⟨p.1, p.2⟩)

/-- Definition, hover, completion and references at the cursor. -/
def requestAtCursor (m : Model) (kind : LspCall) : Model :=
  match m.lspCursorTarget with
  | none => m
  | some (server, path, position) => { m with lsp := m.lsp.request server kind (.at path position) }

/-- Formatting and symbols of the document on screen. -/
def requestDocument (m : Model) (kind : LspCall) : Model :=
  match m.active.bind (·.path) with
  | none => m
  | some path =>
    match m.lsp.serverFor path with
    | none => m
    | some server => { m with lsp := m.lsp.request server kind (.document path) }

/-- The document on screen is sent for formatting. -/
def formatDocument (m : Model) : Model := m.requestDocument .formatting

/-- The symbols of the document on screen are asked for. -/
def requestLspDocumentSymbols (m : Model) : Model :=
  let m := m.requestDocument .documentSymbols
  match (m.active.bind (·.path)).bind fun path =>
      ((m.lsp.serverFor path).bind m.lsp.session).map (path, ·) with
  | none => m
  | some (path, s) =>
    { m with lsp := m.lsp.setSession { s with activeDocumentSymbolPath := some path } }

/-- The new name is asked for. -/
def promptLspRename (m : Model) : Model :=
  if m.lspCursorTarget.isNone then
    m.notify "No language server is available for this document"
  else m.pushOverlay (.prompt { title := "Code: Rename Symbol", input := "", kind := .lspRename })

/-- A rename of what is under the cursor is asked for. -/
def requestLspRename (m : Model) (newName : String) : Model :=
  match m.lspCursorTarget with
  | none => m
  | some (server, path, position) =>
    { m with lsp := m.lsp.request server .rename (.rename path position newName) }

/-- The code actions for the selection are asked for. -/
def requestLspCodeActions (m : Model) : Model :=
  match m.active with
  | none => m
  | some b =>
    match b.path.bind fun path => (m.lsp.serverFor path).map (path, ·) with
    | none => m
    | some (path, server) =>
      let selected := b.selection.primary
      let start := utf16Position b.text selected.start
      let stop := utf16Position b.text selected.stop
      let range : TextRange := ⟨⟨start.1, start.2⟩, ⟨stop.1, stop.2⟩⟩
      { m with lsp := m.lsp.request server .codeActions (.within path range) }

/-- The symbols of the workspace are asked of every server. -/
def requestLspWorkspaceSymbols (m : Model) : Model :=
  { m.pushOverlay (.symbols []) with
    lsp := m.lsp.sessions.foldl (fun l s => l.request s.server .workspaceSymbols (.workspace ""))
      m.lsp }

/-- Every server is started again. -/
def restartLanguageServers (m : Model) : Model :=
  if m.lsp.sessions.isEmpty then
    m.notify (if m.lsp.configured.isEmpty then "No language server is configured for this workspace"
      else "No language server has started yet")
  else
    let clear (b : Buffer) : Buffer := { b with decorations := b.decorations.clearDiagnostics }
    { m with lsp := m.lsp.restart, buffers := m.buffers.map clear }.notify
      "Restarting the language server"

/-! ## Edits -/

/-- Apply a server-authored edit set to one open buffer as one undoable transaction. -/
def applyTextEdits (h : Host) (m : Model) (edits : List TextEdit) : Option Model :=
  match edits with
  | [] => some m
  | e :: _ =>
    if edits.any fun e' => e'.path ≠ e.path then
      some (m.notify
        "language server returned edits for multiple files in a single-file response")
    else
      match m.located e.path with
      | none =>
        some (m.notify
          ("language server edit targets a file that is not open: " ++ e.path.display))
      | some (i, b) =>
        (buildLspChanges b edits).bind fun changes =>
          match changes with
          | .error message => some (m.notify message)
          | .ok changes =>
            (m.transact i changes .lsp).bind fun (m, outcome) =>
              match outcome with
              | .error e => some (m.notify e.toString)
              | .ok () => m.syncAll h

/-- Accept a completion, by its own edit or by inserting its text at the cursor. -/
def acceptCompletion (h : Host) (m : Model) (item : CompletionItem) : Option Model :=
  match item.edit with
  | some edit => m.applyTextEdits h [edit]
  | none =>
    match m.active with
    | none => some m
    | some b =>
      match b.path with
      | none => some m
      | some path =>
        let p := utf16Position b.text b.selection.primary.head
        m.applyTextEdits h [⟨path, ⟨⟨p.1, p.2⟩, ⟨p.1, p.2⟩⟩, item.insertText⟩]

/-- A buffer is put on screen again, if it is still open. -/
def restoreActiveBuffer (m : Model) (buffer : Option BufferId) : Model :=
  match buffer.bind fun id => m.buffers.findIdx? fun b => b.id = id with
  | some i => { m with activeBuffer := some i }
  | none => m

/-- The pending edit is given up. -/
def abandonPendingWorkspaceEdit (m : Model) (message : String) : Model :=
  match m.pendingWorkspaceEdit with
  | some pending =>
    ({ m with pendingWorkspaceEdit := none }.restoreActiveBuffer pending.previousActive).notify
      message
  | none => m.notify message

/-- The edits of each path, in the order of paths. -/
def groupEdits (edits : List TextEdit) : List (Path × List TextEdit) :=
  (sortPaths (edits.map (·.path))).map fun path => (path, edits.filter (·.path = path))

/-- Validate every file of a workspace edit. The inner error refuses all of them. -/
def prepareEdits (m : Model) :
    List (Path × List TextEdit) → Option (Except String (List (ℕ × ChangeSet)))
  | [] => some (.ok [])
  | (path, edits) :: rest =>
    match m.located path with
    | none =>
      some (.error ("Could not open " ++ path.display ++
        " for the language-server edit; no files were changed"))
    | some (i, b) =>
      (buildLspChanges b edits).bind fun changes =>
        match changes with
        | .error message => some (.error (message ++ "; no files were changed"))
        | .ok changes => (prepareEdits m rest).map fun r => r.map ((i, changes) :: ·)

/-- One transaction for each file, up to the first refusal. -/
def applyPrepared (m : Model) : List (ℕ × ChangeSet) → Option (Model × Except EditError Unit)
  | [] => some (m, .ok ())
  | (i, changes) :: rest =>
    (m.transact i changes .lsp).bind fun (m, outcome) =>
      match outcome with
      | .error e => some (m, .error e)
      | .ok () => m.applyPrepared rest

/-- Apply the pending workspace edit once nothing is left to load. -/
def finishPendingWorkspaceEdit (h : Host) (m : Model) : Option Model :=
  match m.pendingWorkspaceEdit with
  | none => some m
  | some pending =>
    if pending.waiting ≠ [] then some m
    else
      let m := { m with pendingWorkspaceEdit := none }
      let grouped := groupEdits pending.edit.edits
      (m.prepareEdits grouped).bind fun prepared =>
        match prepared with
        | .error message => some ((m.restoreActiveBuffer pending.previousActive).notify message)
        | .ok prepared =>
          (m.applyPrepared prepared).bind fun (m, outcome) =>
            match outcome with
            | .error e => some (m.notify ("Language-server edit failed: " ++ e.toString))
            | .ok () =>
              ((m.restoreActiveBuffer pending.previousActive).syncAll h).map fun m =>
                m.notify ("Applied language-server edit to " ++ Nat.repr grouped.length ++ " " ++
                  if grouped.length = 1 then "file" else "files")

/-- Queue a read for every target that is not open, and collect what is to be waited for. -/
def queueTargets (m : Model) : List Path → Model × List (BufferId × Path)
  | [] => (m, [])
  | path :: rest =>
    if (m.indexOf path).isSome then queueTargets m rest
    else
      match m.opening.find? fun o => o.2 = path with
      | some (buffer, _) =>
        let (m, waiting) := queueTargets m rest
        (m, (buffer, path) :: waiting)
      | none =>
        let (buffer, m) := m.queueRead path
        let (m, waiting) := queueTargets { m with opening := m.opening ++ [(buffer, path)] } rest
        (m, (buffer, path) :: waiting)

/-- Queue a workspace edit until every target has an open buffer. -/
def applyWorkspaceEdit (h : Host) (m : Model) (edit : WorkspaceEdit) : Option Model :=
  if m.pendingWorkspaceEdit.isSome then
    some (m.notify "Another language-server workspace edit is still loading")
  else if edit.edits = [] then
    some (m.notify "The selected language action made no changes")
  else
    match m.root with
    | none => some (m.notify "A workspace must be open to apply a workspace edit")
    | some root =>
      let paths := sortPaths (edit.edits.map (·.path))
      match paths.find? fun path => !path.startsWith root with
      | some path =>
        some (m.notify ("Language-server edit is outside the workspace: " ++ path.display))
      | none =>
        match edit.versions.find? fun v =>
            ((m.lsp.serverFor v.1).bind m.lsp.session).bind (·.openDocs.lookup v.1) ≠ some v.2 with
        | some v =>
          some (m.notify (v.1.display ++
            " changed after the language server prepared this edit; no files were changed"))
        | none =>
          let previousActive := m.active.map (·.id)
          let (m, waiting) := m.queueTargets paths
          let pending : PendingWorkspaceEdit := { edit, waiting, previousActive }
          { m with pendingWorkspaceEdit := some pending }.finishPendingWorkspaceEdit h

/-- The edit of a code action is accepted. -/
def acceptCodeAction (h : Host) (m : Model) (action : CodeAction) : Option Model :=
  match action.edit with
  | some edit => m.applyWorkspaceEdit h edit
  | none =>
    some (m.notify ("Code action '" ++ action.title ++ "' has no edit Termesh can apply"))

/-- A location is opened, if it is inside the workspace. -/
def openLspLocation (m : Model) (location : Location) : Model :=
  if m.root.any fun root => location.path.startsWith root then
    m.openFileAt location.path (location.range.start.line + 1) (location.range.start.character + 1)
  else m.notify ("language-server location is outside workspace: " ++ location.path.display)

/-! ## Events -/

/-- How a diagnostic is painted. -/
def Severity.ofDiagnostic : DiagnosticSeverity → Severity
  | .error => .error
  | .warning => .warning
  | .info => .info
  | .hint => .hint

/-- Draw the diagnostics of a path in its first buffer. -/
def syncLspDiagnostics (m : Model) (path : Path) : Model :=
  match m.located path with
  | none => m
  | some (i, b) =>
    let drawn := ((m.lsp.diagnostics.lookup path).getD []).map fun d =>
      Decoration.mk (offsetFromUtf16 b.text d.range.start.line d.range.start.character)
        (offsetFromUtf16 b.text d.range.stop.line d.range.stop.character)
        (.diagnostic (Severity.ofDiagnostic d.severity))
    m.setBuffer i { b with decorations := b.decorations.clearDiagnostics ++ drawn }

/-- Take the newest request of a kind off its session, if `id` is the one. -/
def takeCall (m : Model) (s : LspSessionState) (kind : LspCall) (id : LspRequestId) :
    Option Model :=
  if s.active.lookup kind = some id then
    some { m with lsp := m.lsp.setSession { s with active := s.active.erase kind } }
  else none

/-- An answer that only opens an overlay, or says that there is nothing to show. -/
def offer (m : Model) (nothing : Bool) (message : String) (overlay : Overlay) : Model :=
  if nothing then m.notify message else m.pushOverlay overlay

/-- Absorb something a language server produced. -/
def onLspEvent (h : Host) (m : Model) (server : LspServerId) (event : LspEvent) : Option Model :=
  match m.lsp.session server with
  | none => some m
  | some s =>
    let loading (load : LspLoadState) : Model := { m with lsp := m.lsp.setSession { s with load } }
    match event with
    | .started => some (loading .starting)
    | .ready => some (loading .ready)
    | .indexing message percent => some (loading (.indexing message percent))
    | .diagnostics path version items =>
      if version.any fun v => s.openDocs.lookup path ≠ some v then some m
      else
        let lsp := { m.lsp with diagnostics := m.lsp.diagnostics.insert path items }
        some ({ m with lsp }.syncLspDiagnostics path)
    | .definition id locations =>
      some <| ((m.takeCall s .definition id).map fun m =>
        match locations with
        | location :: _ => m.openLspLocation location
        | [] => m.notify "No definition found").getD m
    | .hover id found =>
      some <| ((m.takeCall s .hover id).map fun m =>
        m.offer (!found) "No hover information" .hover).getD m
    | .completion id items =>
      some <| ((m.takeCall s .completion id).map fun m =>
        m.offer items.isEmpty "No completions" (.completion items)).getD m
    | .references id locations =>
      some <| ((m.takeCall s .references id).map fun m =>
        m.offer locations.isEmpty "No references found" (.references locations)).getD m
    | .documentSymbols id symbols =>
      some <| ((m.takeCall s .documentSymbols id).map fun m =>
        match s.activeDocumentSymbolPath with
        | none => m
        | some path =>
          let s := { s with
            active := s.active.erase .documentSymbols, activeDocumentSymbolPath := none }
          let lsp := { m.lsp.setSession s with
            documentSymbols := m.lsp.documentSymbols.insert path symbols }
          { m with lsp }.offer symbols.isEmpty "No document symbols"
            (.symbols (symbols.map fun range => ⟨path, range⟩))).getD m
    | .workspaceSymbols id symbols =>
      some <| ((m.takeCall s .workspaceSymbols id).map fun m =>
        match m.overlays.getLast? with
        | some (.symbols rows) =>
          { m with overlays := m.overlays.dropLast ++ [.symbols (rows ++ symbols)] }
        | _ => m).getD m
    | .rename id edit =>
      match m.takeCall s .rename id with
      | none => some m
      | some m => m.applyWorkspaceEdit h edit
    | .codeActions id actions =>
      some <| ((m.takeCall s .codeActions id).map fun m =>
        m.offer actions.isEmpty "No code actions available" (.codeActions actions)).getD m
    | .formatting id edits =>
      match m.takeCall s .formatting id with
      | none => some m
      | some m => m.applyTextEdits h edits
    | .failed id failure =>
      let (s, known) := match id with
        | some id => s.clearRequest id
        | none => (s, true)
      let m := { m with lsp := m.lsp.setSession s }
      if !known then some m
      else
        let load := if id.isNone then LspLoadState.unavailable failure else .stale failure
        some ({ m with lsp := m.lsp.setSession { s with load } }.notify
          (s.language ++ ": " ++ failure.message))
    | .unavailable message =>
      some ((loading (.unavailable ⟨.transport, message⟩)).notify (s.language ++ ": " ++ message))
    | .exited code =>
      some (loading (.stale ⟨.server, match code with
        | some code => "language server exited with status " ++ Int.repr code
        | none => "language server exited"⟩))

/-- `is_java_build_file`. -/
def isJavaBuildFile (path : Path) : Bool :=
  match path.fileName with
  | some name =>
    ["pom.xml", "build.gradle", "build.gradle.kts", "settings.gradle", "settings.gradle.kts"].contains
      name
  | none => false

/-- Tell every session which watched files changed inside the workspace. -/
def notifyLspWatchedFiles (m : Model) (paths : List Path) : Model :=
  match m.root with
  | none => m
  | some root =>
    let changed := paths.filter fun path => path.startsWith root
    if changed = [] then m
    else
      let reload := changed.filter isJavaBuildFile
      let messages := m.lsp.sessions.flatMap fun s =>
        (s.server, LspRequest.watchedFilesChanged (changed.map .changed)) ::
          if s.language = "java" ∧ reload ≠ [] then [(s.server, .reloadProject reload)] else []
      { m with lsp := { m.lsp with outbox := m.lsp.outbox ++ messages } }

end Model

end App

end Termesh
