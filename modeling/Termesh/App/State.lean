import Termesh.Agent.Proposal
import Termesh.App.LspState
import Termesh.Core.Agent
import Termesh.Core.Fs
import Termesh.Editor.Buffer
import Termesh.Editor.Search

/-!
# The state of the application

`Model` is the single owner of everything the human and the agent share: buffers, proposals,
terminals, language-server sessions, and what is queued for each worker. What its functions take
from outside the repository or read from the machine is a `Host`.

Left out are the parts nothing here reads: layout, theme, keymap, scrolling, the explorer's tree,
search, Git and tasks.
-/

namespace Termesh

open Tables

namespace App

/-- The panes that can have the focus. -/
inductive Pane where
  | project
  | editor
  | terminal
  | agent
deriving DecidableEq, Repr

/-- What a prompt asks for. -/
inductive PromptKind where
  | newFile (parent : Path)
  | newDir (parent : Path)
  | rename (target : Path)
  | confirmDelete (target : Path) (isDir : Bool)
  | agentPrompt (session : SessionId)
  | find
  | replace
  | confirmCloseBuffer (buffer : BufferId)
  | terminalRun
  | gitCommit
  | lspRename
  | confirmCloseTerminal (terminal : TerminalId)
deriving DecidableEq, Repr

/-- A single-line input (or confirmation) overlay. -/
structure Prompt where
  title : String
  input : String
  kind : PromptKind
deriving DecidableEq, Repr

/-- Whether a prompt takes typed input, as opposed to being a yes/no confirmation. -/
def Prompt.takesInput (p : Prompt) : Bool :=
  match p.kind with
  | .confirmDelete _ _ | .confirmCloseBuffer _ | .confirmCloseTerminal _ => false
  | _ => true

/-- A crash-recovery draft. When it was saved is left out. -/
structure Draft where
  path : Path
  text : Text
deriving DecidableEq, Repr

/-- What lies over the panes. Lists are kept without the row selected in them. -/
inductive Overlay where
  | prompt (p : Prompt)
  | hover
  | completion (items : List CompletionItem)
  | codeActions (actions : List CodeAction)
  | references (locations : List Location)
  | symbols (rows : List Location)
  | agentModes (modes : List SessionMode)
  /-- Drafts with whether each is chosen. -/
  | draftRecovery (drafts : List (Draft × Bool)) (previousFocus : Pane)
deriving DecidableEq, Repr

/-- Whose line it is. -/
inductive Speaker where
  | you
  | agent
  | thought
deriving DecidableEq, Repr

/-- A line of the conversation. -/
structure TranscriptLine where
  speaker : Speaker
  text : String
deriving DecidableEq, Repr

/-- How much transcript to keep. -/
def transcriptLimit : ℕ := 500

/-- Shown while a session is opening, and cleared the moment one does. -/
def startingSession : String := "starting an agent session…"

/-- What a permission is asked for. -/
inductive PermissionOrigin where
  | agentRequest (request : PermissionRequestId) (terminalSpec : Option TerminalSpec)
  | terminalCreate (session : SessionId) (request : AgentTerminalRequestId) (spec : TerminalSpec)
      (outputByteLimit : ℕ)
deriving DecidableEq, Repr

/-- A tool call awaiting approval. -/
structure PendingPermission where
  origin : PermissionOrigin
  summary : String
  command : List String
  /-- The proposal this permission is gating. -/
  review : Option ProposalId
deriving DecidableEq, Repr

/-- A live agent conversation and everything awaiting the human's judgement. -/
structure AgentSession where
  id : SessionId
  transcript : List TranscriptLine := []
  proposals : List EditProposal := []
  pendingPermission : Option PendingPermission := none
  attachedTerminals : List TerminalId := []
  turnActive : Bool := false
  modes : List SessionMode := []
  currentMode : Option String := none

/-- A terminal that an agent asked for, until its process runs. -/
structure PendingTerminalCreate where
  request : AgentTerminalRequestId
  terminal : TerminalId
  generation : TerminalGeneration
deriving DecidableEq, Repr

/-- An agent that waits for a terminal to end. -/
structure PendingTerminalWait where
  request : AgentTerminalRequestId
  terminal : TerminalId
deriving DecidableEq, Repr

/-- One retained terminal tab. Its screen is left out. -/
structure TerminalSession where
  id : TerminalId
  generation : TerminalGeneration
  spec : TerminalSpec
  owner : TerminalOwner
  title : String
  status : TerminalStatus
  /-- The capture limit, the bytes captured and whether the capture is finished. -/
  captureLimit : ℕ
  captured : List UInt8 := []
  captureFinished : Bool := false
  released : Bool := false
deriving DecidableEq, Repr

/-- The output that is kept of a terminal of the human. -/
def defaultCaptureLimit : ℕ := 1048576

/-- The most recent text served to the agent for a path, and the revision it came from. -/
structure ServedRead where
  path : Path
  version : Version
  text : Text
deriving DecidableEq, Repr

/-- A read for a file that is not open, in flight for the agent. -/
structure PendingAgentRead where
  buffer : BufferId
  session : SessionId
  request : ReadRequestId
  path : Path
deriving DecidableEq, Repr

/-- Which configuration is read. -/
inductive ConfigReloadKind where
  | settings
  | keymap
deriving DecidableEq, Repr

/-- A configuration file that is being read. -/
structure PendingConfigReload where
  buffer : BufferId
  kind : ConfigReloadKind
deriving DecidableEq, Repr

/-- Buffer reads belonging to one startup restore. -/
structure PendingSessionRestore where
  order : List Path
  active : Option Path
  pending : List BufferId
deriving DecidableEq, Repr

/-- A server edit waiting for every closed target to arrive. -/
structure PendingWorkspaceEdit where
  edit : WorkspaceEdit
  waiting : List (BufferId × Path)
  previousActive : Option BufferId
deriving DecidableEq, Repr

/-- A jump waiting for its path to be resolved. -/
structure PendingProblemNavigation where
  request : LocationRequestId
  line : ℕ
  column : ℕ
deriving DecidableEq, Repr

/-- A live find in the active buffer. -/
structure Find where
  query : Text
  found : List Match
  current : Option ℕ
deriving DecidableEq, Repr

/-- An exact safe command, its directory relative to the workspace. -/
structure CommandGrant where
  program : String
  args : List String
  cwd : Path
deriving DecidableEq, Repr

/-- `clean_absolute`: an absolute path without `..`, and without `.`. -/
def cleanAbsolute (p : Path) : Option Path :=
  if !p.isAbsolute || p.contains .parentDir then none else some (p.filter (· ≠ .curDir))

/-- The grant of a command: one that runs inside the workspace and sets no variable. -/
def CommandGrant.fromSpec (root : Path) (spec : TerminalSpec) : Option CommandGrant :=
  if spec.program = "" ∨ spec.env ≠ [] then none
  else
    (cleanAbsolute root).bind fun root =>
      (cleanAbsolute spec.cwd).bind fun cwd =>
        if cwd.startsWith root then
          let relative := cwd.drop root.length
          some ⟨spec.program, spec.args, if relative = [] then [.curDir] else relative⟩
        else none

/-- The commands granted for good. -/
abbrev PermissionPolicy := List CommandGrant

/-- The command was allowed for good. -/
def PermissionPolicy.permits (p : PermissionPolicy) (root : Path) (spec : TerminalSpec) : Bool :=
  match CommandGrant.fromSpec root spec with
  | some grant => p.contains grant
  | none => false

/-- Remember one exact safe command, unless it is unsafe. -/
def PermissionPolicy.remember (p : PermissionPolicy) (root : Path) (spec : TerminalSpec) :
    PermissionPolicy × Bool :=
  match CommandGrant.fromSpec root spec with
  | some grant => (if p.contains grant then p else p ++ [grant], true)
  | none => (p, false)

/-- What the functions of the model take from elsewhere. -/
structure Host where
  diff : LineDiff
  folding : Folding
  /-- The spans of a text under the grammar of its path, `none` when the grammar fails to load. -/
  highlight : Path → Text → Option (List (ℕ × ℕ × SyntaxKind))
  /-- The platform shell, and a command line passed to it. -/
  shell : Path → TerminalSpec
  humanCommand : String → Path → TerminalSpec
  currentDir : Path
  /-- The context attached to a turn. -/
  agentContext : String
  /-- The autosave delay of a settings file, `none` for off. -/
  autosave : Option Text → Option ℕ
  configFile : Option Path
  keymapFile : Option Path
  draftsDir : Option Path
  draftFileName : Path → String
  encodeDraft : Draft → Path → Except String Text
  /-- What a capture of that limit keeps of some bytes, and whether it cut anything. -/
  capture : ℕ → List UInt8 → Bool → String × Bool
  /-- What a screen answers to new output, given the output before it. -/
  replies : List UInt8 → List UInt8 → List (List UInt8)

/-- A host that highlights nothing, folds ASCII and keeps every captured byte. -/
def Host.plain : Host where
  diff := trimDiff
  folding := ⟨List.map Char.toLower, Char.isUpper⟩
  highlight _ _ := some []
  shell cwd := ⟨"sh", [], cwd, []⟩
  humanCommand line cwd := ⟨"sh", ["-c", line], cwd, []⟩
  currentDir := [.curDir]
  agentContext := ""
  autosave _ := some 2
  configFile := none
  keymapFile := none
  draftsDir := none
  draftFileName _ := "draft"
  encodeDraft draft _ := .ok draft.text
  capture _ bytes _ := (String.ofList (bytes.map fun b => Char.ofNat b.toNat), false)
  replies _ _ := []

/-- The state of the application, as far as the functions of the model read it. -/
structure Model where
  running : Bool := true
  focus : Pane := .editor
  previousNonTerminalFocus : Pane := .editor
  overlays : List Overlay := []
  notification : Option String := none
  /-- The time now, in seconds. -/
  clock : ℕ := 0
  /-- The root of the explorer. -/
  root : Option Path := none
  buffers : List Buffer := []
  activeBuffer : Option ℕ := none
  nextBufferId : ℕ := 0
  opening : List (BufferId × Path) := []
  find : Option Find := none
  agentName : Option String := none
  pendingPrompt : Option String := none
  agent : Option AgentSession := none
  agentCapabilities : Option AgentCapabilities := none
  permissionPolicy : PermissionPolicy := []
  pendingTerminalCreates : List PendingTerminalCreate := []
  pendingTerminalWaits : List PendingTerminalWait := []
  terminals : List TerminalSession := []
  activeTerminal : Option ℕ := none
  nextTerminalId : ℕ := 0
  terminalSize : TerminalSize := ⟨24, 80⟩
  terminalOutbox : List PtyRequest := []
  agentOutbox : List AgentRequest := []
  servedReads : List ServedRead := []
  pendingAgentReads : List PendingAgentRead := []
  pendingConfigReloads : List PendingConfigReload := []
  pendingSessionRestore : Option PendingSessionRestore := none
  autosave : Option ℕ := some 2
  draftVersions : Table Path Version := ∅
  draftDeadline : Option ℕ := none
  pendingDraftWrites : List (BufferId × Path) := []
  knownDrafts : List Path := []
  lsp : LspState := {}
  pendingWorkspaceEdit : Option PendingWorkspaceEdit := none
  pendingOpenLocation : Option (Path × ℕ × ℕ) := none
  nextLocationRequestId : ℕ := 0
  pendingProblemNavigation : Option PendingProblemNavigation := none
  outbox : List FsRequest := []

namespace Model

/-- A message for the human. -/
def notify (m : Model) (message : String) : Model := { m with notification := some message }

/-- `append_notification`. -/
def appendNotification (m : Model) (message : String) : Model :=
  match m.notification with
  | some existing => if existing = "" then m.notify message else m.notify (existing ++ "\n" ++ message)
  | none => m.notify message

/-- A request to the file worker. -/
def send (m : Model) (r : FsRequest) : Model := { m with outbox := m.outbox ++ [r] }

/-- A request to the agent. -/
def reply (m : Model) (r : AgentRequest) : Model := { m with agentOutbox := m.agentOutbox ++ [r] }

/-- A request to the PTY worker. -/
def sendPty (m : Model) (r : PtyRequest) : Model := { m with terminalOutbox := m.terminalOutbox ++ [r] }

/-- One more overlay. -/
def pushOverlay (m : Model) (o : Overlay) : Model := { m with overlays := m.overlays ++ [o] }

/-- The buffer on screen. -/
def active (m : Model) : Option Buffer := m.activeBuffer.bind fun i => m.buffers[i]?

/-- The index of the first buffer with a path. -/
def indexOf (m : Model) (path : Path) : Option ℕ :=
  m.buffers.findIdx? fun b => b.path = some path

/-- The first buffer with a path. -/
def bufferAt (m : Model) (path : Path) : Option Buffer := m.buffers.find? fun b => b.path = some path

/-- The proposals under review. -/
def proposals (m : Model) : List EditProposal := (m.agent.map (·.proposals)).getD []

/-- A buffer in place of the one at an index. -/
def setBuffer (m : Model) (i : ℕ) (b : Buffer) : Model := { m with buffers := m.buffers.set i b }

/-- The agent session changes, if there is one. -/
def modifyAgent (m : Model) (f : AgentSession → AgentSession) : Model :=
  { m with agent := m.agent.map f }

end Model

/-- The last component of a path, for prompts and messages. -/
def displayName (p : Path) : String := p.fileName.getD p.display

end App

/-- Whether a process may still be behind a tab. -/
def TerminalStatus.isLive : TerminalStatus → Bool
  | starting | running _ => true
  | exited _ | failed _ => false

/-- The refusal as it is shown. -/
def EditError.toString : EditError → String
  | staleVersion expected found =>
    "edit was written against version " ++ Nat.repr expected ++ " but the buffer is at " ++
      Nat.repr found
  | lengthMismatch expected found =>
    "edit expects a " ++ Nat.repr expected ++ "-char document, buffer has " ++ Nat.repr found

end Termesh
