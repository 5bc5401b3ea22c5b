import Termesh.App.LanguageEdits
import Termesh.App.Session

/-!
# Files

What the filesystem worker answers: a file that was read is a new buffer, a reload in place, an
answer for the agent or a configuration; a file that was written settles a buffer or a draft.

* `openWorkspace`, `restoreSession`, `reopen`, `finishRestoredRead`;
* `reloadBuffer`, `showLoaded`, `fileLoaded`, `fileSaved`, `fileFailed`;
* `reloadChangedBuffers`, `onFsEvent`.
-/

namespace Termesh

namespace App

/-- The part of a saved session that opens something. -/
structure RestoredWorkspace where
  root : Path
  configured : List ConfiguredRecipe
  openPaths : List Path
  active : Option Path
  terminals : List Path

namespace Model

/-- Open a workspace under the recipes resolved for it. -/
def openWorkspace (m : Model) (root : Path) (configured : List ConfiguredRecipe) : Model :=
  let stops := m.lsp.sessions.map fun s => (s.server, LspRequest.shutdown)
  let lsp : LspState :=
    { configured, documentSymbols := m.lsp.documentSymbols, outbox := m.lsp.outbox ++ stops
      nextRequestId := m.lsp.nextRequestId, nextServerId := m.lsp.nextServerId }
  { m with lsp, focus := .project, root := some root }.send (.watch root)

/-- Open the files of a session; the ids of the reads in flight for them. -/
def openRestored (m : Model) : List Path → Model × List BufferId
  | [] => (m, [])
  | path :: rest =>
    let m := m.openFile path
    let mine := (m.opening.find? fun o => o.2 = path).map Prod.fst
    let (m, pending) := openRestored m rest
    (m, mine.toList ++ pending)

/-- A session is opened: its workspace, its files and its terminals. -/
def restoreSession (h : Host) (m : Model) (w : RestoredWorkspace) : Model :=
  let (m, pending) := (m.openWorkspace w.root w.configured).openRestored w.openPaths
  let m := if pending = [] then m else
    { m with pendingSessionRestore := some ⟨w.openPaths, w.active, pending⟩ }
  let restored := w.terminals.foldl (fun m cwd => m.createTerminal (h.shell cwd) .humanShell) m
  { restored with focus := m.focus, previousNonTerminalFocus := m.previousNonTerminalFocus }

/-- What `restoreSession` does once the workspace is open. -/
def reopen (h : Host) (m : Model) (w : RestoredWorkspace) : Model :=
  let (m, pending) := m.openRestored w.openPaths
  let m := if pending = [] then m else
    { m with pendingSessionRestore := some ⟨w.openPaths, w.active, pending⟩ }
  let restored := w.terminals.foldl (fun m cwd => m.createTerminal (h.shell cwd) .humanShell) m
  { restored with focus := m.focus, previousNonTerminalFocus := m.previousNonTerminalFocus }

theorem restoreSession_eq (h : Host) (m : Model) (w : RestoredWorkspace) :
    m.restoreSession h w = (m.openWorkspace w.root w.configured).reopen h w := rfl

/-- Where a buffer belongs in the order of a restored session. -/
def restoreKey (order : List Path) (b : Buffer) : ℕ :=
  (b.path.bind fun path => order.findIdx? (· = path)).getD order.length

/-- One read of a restored session is over: put the tabs in order and select the active one. -/
def finishRestoredRead (m : Model) (buffer : BufferId) : Model :=
  match m.pendingSessionRestore with
  | none => m
  | some restore =>
    let pending := restore.pending.filter (· ≠ buffer)
    let buffers := m.buffers.insertionSort fun a b =>
      restoreKey restore.order a ≤ restoreKey restore.order b
    let active := restore.active.bind fun path => buffers.findIdx? fun b => b.path = some path
    { m with
      buffers
      activeBuffer := active <|> if buffers = [] then none else some (buffers.length - 1)
      pendingSessionRestore := if pending = [] then none else some { restore with pending } }

/-- A configuration file was read; diagnostics about it are left out. -/
def applyConfig (h : Host) (m : Model) (kind : ConfigReloadKind) (contents : Option Text) : Model :=
  match kind with
  | .settings => { m with autosave := h.autosave contents }
  | .keymap => m

/-- A configuration file is read. -/
def queueConfigReload (m : Model) (kind : ConfigReloadKind) (path : Path) : Model :=
  let (buffer, m) := m.queueRead path
  { m with pendingConfigReloads := m.pendingConfigReloads ++ [⟨buffer, kind⟩] }

/-- `config.reload`: read both files again. -/
def reloadConfig (h : Host) (m : Model) : Model :=
  let m := match h.configFile with
    | some path => m.queueConfigReload .settings path
    | none => m
  match h.keymapFile with
  | some path => m.queueConfigReload .keymap path
  | none => m

/-! ## Loaded files -/

/-- A target of the pending workspace edit has arrived. -/
def stopWaiting (m : Model) (buffer : BufferId) : Model :=
  { m with
    pendingWorkspaceEdit := m.pendingWorkspaceEdit.map fun pending =>
      { pending with waiting := pending.waiting.filter (·.1 ≠ buffer) } }

/-- What a reload puts in place of a buffer: the file, under the old selection. -/
def reloaded (buffer : BufferId) (path : Path) (text : Text) (old : Buffer) : Buffer :=
  (Buffer.fromText buffer (some path) text).setSelection old.selection

/-- Replace a buffer in place, keeping its tab, its id and its selection. -/
def reloadBuffer (h : Host) (m : Model) (i : ℕ) (old : Buffer) (buffer : BufferId) (path : Path)
    (text : Text) : Option Model :=
  let lsp := match old.path with
    | some path => m.lsp.closeDocument path
    | none => m.lsp
  (({ m with lsp }.setBuffer i (reloaded buffer path text old)).syncAll h).bind fun m =>
    (m.stopWaiting buffer).finishPendingWorkspaceEdit h

/-- Put a file that was opened behind the other tabs. -/
def showLoaded (h : Host) (m : Model) (buffer : BufferId) (path : Path) (text : Text)
    (restored : Bool) : Option Model :=
  let m : Model := { m with buffers := m.buffers ++ [Buffer.fromText buffer (some path) text] }
  let m : Model :=
    if restored then m.finishRestoredRead buffer
    else
      { m with
        activeBuffer := some (m.buffers.length - 1)
        focus := if m.focus = .project then .editor else m.focus }
  (m.syncSyntax h).bind fun m =>
    let m : Model := match m.pendingOpenLocation with
      | some (pending, line, column) =>
        if pending = path then
          ({ m with pendingOpenLocation := none }.positionOpenBuffer path line column).1
        else m
      | none => m
    (m.syncLspDocuments.stopWaiting buffer).finishPendingWorkspaceEdit h

/-- A file that was opened is not text. -/
def refuseLoaded (m : Model) (buffer : BufferId) (path : Path) (restored : Bool) : Model :=
  let message := "not a text file: " ++ displayName path
  if restored then (m.finishRestoredRead buffer).appendNotification message
  else if m.pendingWorkspaceEdit.any fun p => p.waiting.any (·.1 = buffer) then
    m.abandonPendingWorkspaceEdit (message ++ "; no language-server edits were applied")
  else m.notify message

/-- A file was read. -/
def fileLoaded (h : Host) (m : Model) (buffer : BufferId) (path : Path) (contents : Option Text) :
    Option Model :=
  match m.pendingConfigReloads.find? (·.buffer = buffer) with
  | some pending =>
    let rest := m.pendingConfigReloads.eraseP (·.buffer = buffer)
    some ({ m with pendingConfigReloads := rest }.applyConfig h pending.kind contents)
  | none =>
    match m.pendingAgentReads.find? (·.buffer = buffer) with
    | some pending =>
      let rest := m.pendingAgentReads.eraseP (·.buffer = buffer)
      some ({ m with pendingAgentReads := rest }.reply
        (.fileContents pending.session pending.request pending.path contents))
    | none =>
      let restored := m.pendingSessionRestore.any (·.pending.contains buffer)
      let m := { m with opening := m.opening.filter (·.1 ≠ buffer) }
      match contents with
      | none => some (m.refuseLoaded buffer path restored)
      | some text =>
        match (m.buffers.findIdx? (·.id = buffer)).bind fun i => (m.buffers[i]?).map (i, ·) with
        | some (i, old) => m.reloadBuffer h i old buffer path text
        | none => m.showLoaded h buffer path text restored

/-- A file was written at revision `version`. -/
def fileSaved (h : Host) (m : Model) (buffer : BufferId) (version : Version) : Model :=
  match m.pendingDraftWrites.find? (·.1 = buffer) with
  | some (_, source) =>
    { m with
      pendingDraftWrites := m.pendingDraftWrites.filter (·.1 ≠ buffer)
      knownDrafts := m.knownDrafts.filter (· ≠ source) ++ [source] }
  | none =>
    match (m.buffers.findIdx? (·.id = buffer)).bind fun i => (m.buffers[i]?).map (i, ·) with
    | none => m
    | some (i, b) =>
      let m := m.setBuffer i (b.markSaved version)
      match b.path with
      | none => m
      | some path =>
        let known := m.knownDrafts.contains path
        let m : Model := { m with
          draftVersions := m.draftVersions.erase path
          knownDrafts := m.knownDrafts.filter (· ≠ path)
          lsp := match m.lsp.serverFor path with
            | some server => m.lsp.push server (.didSave path)
            | none => m.lsp }
        match h.draftsDir with
        | some dir => if known then m.send (.remove (dir.join (h.draftFileName path)) false) else m
        | none => m

/-- A read or a write failed. -/
def fileFailed (h : Host) (m : Model) (buffer : BufferId) (error : FsError) : Model :=
  match m.pendingDraftWrites.find? (·.1 = buffer) with
  | some (_, source) =>
    { m with
      pendingDraftWrites := m.pendingDraftWrites.filter (·.1 ≠ buffer) }.appendNotification
        ("could not write recovery draft for " ++ source.display ++ ": " ++ error.toString)
  | none =>
    match m.pendingConfigReloads.find? (·.buffer = buffer) with
    | some pending =>
      let rest := m.pendingConfigReloads.eraseP (·.buffer = buffer)
      let contents := match error with
        | .notFound _ => some []
        | _ => none
      { m with pendingConfigReloads := rest }.applyConfig h pending.kind contents
    | none =>
      match m.pendingAgentReads.find? (·.buffer = buffer) with
      | some pending =>
        let rest := m.pendingAgentReads.eraseP (·.buffer = buffer)
        { m with pendingAgentReads := rest }.reply
          (.fileContents pending.session pending.request pending.path none)
      | none =>
        let restored := m.pendingSessionRestore.any (·.pending.contains buffer)
        let m := { m with opening := m.opening.filter (·.1 ≠ buffer) }
        if restored then
          (m.finishRestoredRead buffer).appendNotification
            ("could not restore buffer: " ++ error.toString)
        else if m.pendingWorkspaceEdit.any fun p => p.waiting.any (·.1 = buffer) then
          m.abandonPendingWorkspaceEdit ("Could not open a language-server edit target: " ++
            error.toString ++ "; no files were changed")
        else m.notify error.toString

/-! ## Changes on disk -/

/-- Re-read an open file that changed on disk, unless it has unsaved work. -/
def reloadChanged (m : Model) (path : Path) : Model :=
  match m.bufferAt path with
  | none => m
  | some b =>
    if b.isDirty then
      m.notify (displayName path ++ " changed on disk; you have unsaved edits")
    else m.send (.readFile b.id path)

/-- Files that changed on disk are read again. -/
def reloadChangedBuffers (m : Model) (paths : List Path) : Model := paths.foldl reloadChanged m

/-- Absorb a result from the filesystem worker. -/
def onFsEvent (h : Host) (m : Model) : FsEvent → Option Model
  | .fileLoaded buffer path contents => m.fileLoaded h buffer path contents
  | .fileSaved buffer version => some (m.fileSaved h buffer version)
  | .fileFailed buffer error => some (m.fileFailed h buffer error)
  | .pathResolved request path =>
    match m.pendingProblemNavigation with
    | none => some m
    | some pending =>
      if pending.request ≠ request then some m
      else
        let m := { m with pendingProblemNavigation := none }
        if m.root.any fun root => path.startsWith root then
          some (m.openFileAt path pending.line pending.column)
        else some (m.notify ("problem path is outside workspace: " ++ path.display))
  | .pathResolveFailed request _ error =>
    if m.pendingProblemNavigation.any (·.request = request) then
      some ({ m with pendingProblemNavigation := none }.notify error.toString)
    else some m
  | .mutationFailed error => some (if m.root.isSome then m.notify error.toString else m)
  | .changed paths =>
    let m := m.notifyLspWatchedFiles paths
    some (if m.root.isSome then m.reloadChangedBuffers paths else m)

/-- Ask for a problem's path to be resolved before jumping to it. -/
def navigateProblem (m : Model) (path : Path) (line column : ℕ) : Model :=
  let request : LocationRequestId := ⟨m.nextLocationRequestId + 1⟩
  { m with
    nextLocationRequestId := m.nextLocationRequestId + 1
    pendingProblemNavigation := some ⟨request, line, column⟩ }.send (.resolvePath request path)

end Model

end App

end Termesh
