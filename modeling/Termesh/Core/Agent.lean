import Termesh.Core.Terminal

/-!
# Agent vocabulary

What the model exchanges with the agent transport: `AgentRequest` towards the agent, `AgentEvent`
from it. File contents are character lists, as buffers hold them.
-/

namespace Termesh

/-- The answers to a permission request. -/
inductive PermissionDecision where
  | allowOnce
  | allowAlways
  | rejectOnce
  | rejectAlways
deriving DecidableEq, Repr

namespace PermissionDecision

/-- The answer lets the call through. -/
def allows : PermissionDecision → Bool
  | allowOnce | allowAlways => true
  | rejectOnce | rejectAlways => false

end PermissionDecision

/-- What a prompt may hold besides text. -/
structure PromptCapabilities where
  image : Bool
  audio : Bool
  embeddedContext : Bool
deriving DecidableEq, Repr

/-- What the agent says it can do. -/
structure AgentCapabilities where
  loadSession : Bool
  promptCapabilities : PromptCapabilities
deriving DecidableEq, Repr

/-- Why a turn ended. -/
inductive StopReason where
  | endTurn
  | cancelled
  | refusal
  | maxTokens
deriving DecidableEq, Repr

/-- Work sent to the agent. -/
inductive AgentRequest where
  | newSession (cwd : Path)
  | setMode (session : SessionId) (mode : String)
  | prompt (session : SessionId) (text context : String)
  | fileContents (session : SessionId) (request : ReadRequestId) (path : Path)
      (contents : Option (List Char))
  | permission (request : PermissionRequestId) (decision : PermissionDecision)
  | permissionCancelled (request : PermissionRequestId)
  | terminalResponse (request : AgentTerminalRequestId) (response : AgentTerminalResponse)
  | cancel (session : SessionId)
  | shutdown
deriving DecidableEq, Repr

/-- The before-and-after text of an edit an agent is asking permission to make. -/
structure ProposedEditDiff where
  path : Path
  oldText : List Char
  newText : List Char
deriving DecidableEq, Repr

/-- A mode the agent can work in. -/
structure SessionMode where
  id : String
  name : String
  description : Option String
deriving DecidableEq, Repr

/-- What comes back from the agent. -/
inductive AgentEvent where
  | ready (capabilities : AgentCapabilities)
  | sessionStarted (session : SessionId)
  | modesAvailable (session : SessionId) (current : String) (available : List SessionMode)
  | modeChanged (session : SessionId) (mode : String)
  | messageChunk (session : SessionId) (text : String)
  | thoughtChunk (session : SessionId) (text : String)
  | readFileRequested (session : SessionId) (request : ReadRequestId) (path : Path)
  | proposedEdit (session : SessionId) (proposal : ProposalId) (path : Path)
      (oldText : Option (List Char)) (newText : List Char)
  | permissionRequested (session : SessionId) (request : PermissionRequestId) (summary : String)
      (command : List String) (terminalSpec : Option TerminalSpec) (edit : Option ProposedEditDiff)
  | terminalRequest (session : SessionId) (request : AgentTerminalRequestId)
      (operation : AgentTerminalOperation)
  | terminalAttached (session : SessionId) (terminal : TerminalId)
  | turnEnded (session : SessionId) (reason : StopReason)
  | failed (session : SessionId) (message : String)
deriving DecidableEq, Repr

end Termesh
