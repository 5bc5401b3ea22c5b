import Termesh.App.Files
import Termesh.Core.Trim

/-!
# Commands and prompts

* `Command`, `dispatch`: the single dispatch path for every command;
* `confirmPrompt`, `typeChar`;
* `Event`, `step`: everything that can happen to a model, one event at a time.

Commands whose effect is on state left out of the model are one command, `other`.
-/

namespace Termesh

namespace App

/-- Where a cursor command goes. -/
inductive Motion where
  | left
  | right
  | up
  | down
  | lineStart
  | lineEnd
deriving DecidableEq, Repr

/-- The buffer after a motion. -/
def Motion.run : Motion → Buffer → Buffer
  | left => Buffer.moveLeft
  | right => Buffer.moveRight
  | up => (·.moveLine false)
  | down => (·.moveLine true)
  | lineStart => Buffer.moveLineStart
  | lineEnd => Buffer.moveLineEnd

/-- The commands of the human. -/
inductive Command where
  | save
  | restoreDrafts
  | reloadConfig
  | cursor (motion : Motion)
  | newline
  | backspace
  | deleteForward
  | undo
  | redo
  | find
  | replace
  | findNext
  | findPrev
  | nextTab
  | prevTab
  | closeTab
  /-- Definition, hover, completion or references at the cursor. -/
  | lspAtCursor (kind : LspCall)
  | lspDocumentSymbols
  | lspWorkspaceSymbols
  | lspFormat
  | lspRename
  | lspCodeAction
  | lspRestart
  | agentSessionNew
  | agentPrompt
  | agentMode
  | proposalAccept
  | proposalReject
  | agentAllowOnce
  | agentAllowAlways
  | agentDeny
  | terminalFocus
  | terminalNew
  | terminalRun
  | terminalNext
  | terminalPrevious
  | terminalRestart
  | terminalClose
  | focusPane (pane : Pane)
  | focusNext
  | focusPrev
  | closeOverlay
  | quit
  | other
deriving DecidableEq, Repr

namespace Model

/-- A search is asked for, or what to replace. -/
def openFindPrompt (m : Model) (kind : PromptKind) (title : String) : Model :=
  if m.active.isNone then m.notify "no file open"
  else
    let input := match kind with
      | .find => (m.find.map fun f => String.ofList f.query).getD ""
      | _ => ""
    m.pushOverlay (.prompt { title, input, kind })

/-- Empty the find and the decorations it painted. -/
def clearFind (m : Model) : Model :=
  let m := { m with find := none }
  match m.onScreen with
  | none => m
  | some (i, b) => m.setBuffer i { b with decorations := b.decorations.clearMatches }

/-- A prompt about an entry of the explorer, once its name is checked. -/
def confirmFile (m : Model) (prompt : Prompt) (name : String) : Model :=
  if prompt.takesInput ∧ name = "" then m.notify "name cannot be empty"
  else if prompt.takesInput ∧
      (name.contains '/' ∨ name.contains '\\' ∨ name = ".." ∨ name = ".") then
    m.notify ("invalid name: " ++ name)
  else
    match prompt.kind with
    | .newFile parent => m.send (.createFile (parent.join name))
    | .newDir parent => m.send (.createDir (parent.join name))
    | .rename target =>
      match target.parent with
      | some parent => m.send (.rename target (parent.join name))
      | none => m
    | .confirmDelete target isDir => m.send (.remove target isDir)
    | _ => m

/-- Act on a prompt the human confirmed. -/
def confirmPrompt (h : Host) (m : Model) (prompt : Prompt) : Option Model :=
  let name := trim prompt.input
  match prompt.kind with
  | .find => if name = "" then some m.clearFind else m.runFind h name.toList
  | .replace => m.replaceAll h prompt.input.toList
  | .confirmCloseBuffer buffer => some (m.discardBuffer buffer)
  | .confirmCloseTerminal terminal => some (m.removeTerminal terminal true)
  | .terminalRun =>
    some <| if name = "" then m.notify "command cannot be empty"
      else m.createTerminal (h.humanCommand prompt.input (m.terminalCwd h)) .humanCommand
  | .gitCommit => some (if name = "" then m.notify "commit message cannot be empty" else m)
  | .lspRename =>
    some <| if name = "" then m.notify "new symbol name cannot be empty"
      else m.requestLspRename name
  | .agentPrompt session =>
    some <|
      if name = "" then m.notify "nothing to ask"
      else if m.agent.isSome then m.sendPrompt h session name
      else ({ m with pendingPrompt := some name }.newAgentSession).notify startingSession
  | _ => some (m.confirmFile prompt name)

/-- The pane behind and in front of another on the Tab ring, which leaves out the terminal. -/
def nextPane (m : Model) (forward : Bool) : Pane :=
  match m.focus, forward with
  | .project, true | .agent, false => .editor
  | .editor, true | .project, false => .agent
  | .agent, true | .editor, false => .project
  | .terminal, _ => m.previousNonTerminalFocus

/-- Undo or redo in the active buffer, or say that there is nothing to do. -/
def replayActive (m : Model) (f : Buffer → Option (Buffer × Bool)) (nothing : String) :
    Option Model :=
  (m.withBufferBool f).map fun (m, moved) => if moved then m else m.notify nothing

/-- What a command does. -/
def dispatchInner (h : Host) (m : Model) : Command → Option Model
  | .save => some m.saveActiveBuffer
  | .restoreDrafts => m.applyRecoveryDrafts false
  | .reloadConfig => some (m.reloadConfig h)
  | .cursor motion => some (m.withBuffer motion.run)
  | .newline => m.editActive (·.insert ['\n'] .keyboard)
  | .backspace => m.editActive Buffer.deleteBackward
  | .deleteForward => m.editActive Buffer.deleteForward
  | .undo => m.replayActive Buffer.undo "nothing to undo"
  | .redo => m.replayActive Buffer.redo "nothing to redo"
  | .find => some (m.openFindPrompt .find "Find")
  | .replace =>
    some <| if m.find.isNone then m.notify "find something first (Ctrl+F)"
      else m.openFindPrompt .replace "Replace all with"
  | .findNext => m.stepMatch true
  | .findPrev => m.stepMatch false
  | .nextTab => some (m.cycleTab 1)
  | .prevTab => some (m.cycleTab (-1))
  | .closeTab => some m.closeTab
  | .lspAtCursor kind => some (m.requestAtCursor kind)
  | .lspDocumentSymbols => some m.requestLspDocumentSymbols
  | .lspWorkspaceSymbols => some m.requestLspWorkspaceSymbols
  | .lspFormat => some m.formatDocument
  | .lspRename => some m.promptLspRename
  | .lspCodeAction => some m.requestLspCodeActions
  | .lspRestart => some m.restartLanguageServers
  | .agentSessionNew => some m.newAgentSession
  | .agentPrompt => some m.promptAgent
  | .agentMode => some m.openAgentModes
  | .proposalAccept => m.resolveProposal h true
  | .proposalReject => m.resolveProposal h false
  | .agentAllowOnce => m.decidePermission h .allowOnce
  | .agentAllowAlways => m.decidePermission h .allowAlways
  | .agentDeny => m.decidePermission h .rejectOnce
  | .terminalFocus => some (m.toggleTerminalFocus h)
  | .terminalNew => some (m.newShellTerminal h)
  | .terminalRun =>
    some (m.pushOverlay (.prompt { title := "Run in terminal", input := "", kind := .terminalRun }))
  | .terminalNext => some (m.cycleTerminal h 1)
  | .terminalPrevious => some (m.cycleTerminal h (-1))
  | .terminalRestart => m.restartTerminal h
  | .terminalClose => some m.closeTerminal
  | .focusPane pane => some { m with focus := pane }
  | .focusNext => some { m with focus := m.nextPane true }
  | .focusPrev => some { m with focus := m.nextPane false }
  | .closeOverlay => some { m with overlays := m.overlays.dropLast }
  | .quit => some { m with running := false }
  | .other => some m

/-- The single dispatch path for every command. -/
def dispatch (h : Host) (m : Model) (cmd : Command) : Option Model :=
  ({ m with notification := none }.dispatchInner h cmd).bind (syncAll h)

/-- Type `c` into the active buffer. -/
def typeChar (h : Host) (m : Model) (c : Char) : Option Model :=
  ({ m with notification := none }.editActive (·.insert [c] .keyboard)).bind (syncAll h)

end Model

/-- Everything that can happen to a model. -/
inductive Event where
  | dispatch (cmd : Command)
  | typeChar (c : Char)
  | confirmPrompt (prompt : Prompt)
  | openFile (path : Path)
  | openFileAt (path : Path) (line column : ℕ)
  | navigateProblem (path : Path) (line column : ℕ)
  | openWorkspace (root : Path) (configured : List ConfiguredRecipe)
  | restoreSession (w : RestoredWorkspace)
  /-- Keys that only the overlays read. -/
  | setOverlays (overlays : List Overlay)
  | acceptSelectedRecoveryDrafts
  | discardRecoveryDrafts
  | acceptCompletion (item : CompletionItem)
  | acceptCodeAction (action : CodeAction)
  | openLspLocation (location : Location)
  | applyTextEdits (edits : List TextEdit)
  | applyWorkspaceEdit (edit : WorkspaceEdit)
  | setAgentMode (mode : String)
  | decidePermission (decision : PermissionDecision)
  | typeTerminal (bytes : List UInt8)
  | setTerminalSize (size : TerminalSize)
  | fs (event : FsEvent)
  | agent (event : AgentEvent)
  | pty (event : PtyEvent)
  | lsp (server : LspServerId) (event : LspEvent)
  /-- Time passes, and an expired debounce becomes requests. -/
  | tick (seconds : ℕ)
  | shutdownTerminals
  /-- The loop takes what is queued for the workers. -/
  | takeFsRequests
  | takeAgentRequests
  | takePtyRequests
  | takeLspRequests

namespace Model

/-- One event. `none` is a panic. -/
def step (h : Host) (m : Model) : Event → Option Model
  | .dispatch cmd => m.dispatch h cmd
  | .typeChar c => m.typeChar h c
  | .confirmPrompt prompt => m.confirmPrompt h prompt
  | .openFile path => some (m.openFile path)
  | .openFileAt path line column => some (m.openFileAt path line column)
  | .navigateProblem path line column => some (m.navigateProblem path line column)
  | .openWorkspace root configured => some (m.openWorkspace root configured)
  | .restoreSession w => some (m.restoreSession h w)
  | .setOverlays overlays => some { m with overlays }
  | .acceptSelectedRecoveryDrafts => m.acceptSelectedRecoveryDrafts
  | .discardRecoveryDrafts => some (m.discardRecoveryDrafts h)
  | .acceptCompletion item => m.acceptCompletion h item
  | .acceptCodeAction action => m.acceptCodeAction h action
  | .openLspLocation location => some (m.openLspLocation location)
  | .applyTextEdits edits => m.applyTextEdits h edits
  | .applyWorkspaceEdit edit => m.applyWorkspaceEdit h edit
  | .setAgentMode mode => some (m.setAgentMode mode)
  | .decidePermission decision => m.decidePermission h decision
  | .typeTerminal bytes => some (m.typeTerminal bytes)
  | .setTerminalSize size => some (m.setTerminalSize size)
  | .fs event => m.onFsEvent h event
  | .agent event => m.onAgentEvent h event
  | .pty event => some (m.onPtyEvent h event)
  | .lsp server event => m.onLspEvent h server event
  | .tick seconds => some ({ m with clock := m.clock + seconds }.queueDueDrafts h)
  | .shutdownTerminals => some m.shutdownTerminals
  | .takeFsRequests => some { m with outbox := [] }
  | .takeAgentRequests => some { m with agentOutbox := [] }
  | .takePtyRequests => some { m with terminalOutbox := [] }
  | .takeLspRequests => some { m with lsp := { m.lsp with outbox := [] } }

end Model

end App

end Termesh
