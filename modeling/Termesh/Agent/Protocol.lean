import Termesh.Agent.Json
import Termesh.Core.Agent
import Termesh.Lib.Table

/-!
# The protocol translator

`Translator` turns requests of the model into wire messages and wire messages into events, without
any I/O. Calls of the agent that need an answer wait in one of three tables, under an identifier
drawn from one counter.

* `initializeWith`, `outgoing`, `encode`, `encodeTerminalResponse`: towards the agent;
* `incoming`, `onResponse`, `onError`, `onNotification`, `onRequest`: from the agent.
-/

namespace Termesh

open Tables

/-- The version of the protocol that is asked for. -/
def protocolVersion : ℕ := 1

/-- The output limit of a terminal that names none. -/
def defaultOutputLimit : ℕ := 1048576

/-- The largest output limit a terminal gets. -/
def maxOutputLimit : ℕ := 8388608

/-- What we offer the agent. -/
structure ClientCapabilities where
  readTextFile : Bool := true
  writeTextFile : Bool := true
  terminal : Bool := false

/-- What we were doing when we sent a request. -/
inductive Pending where
  | initializing
  | newSession
  | prompt (session : SessionId)
  | setMode (session : SessionId) (mode : String)
deriving DecidableEq, Repr

/-- One choice offered on a permission request. -/
structure PermissionOption where
  id : String
  kind : String
deriving DecidableEq, Repr

/-- A permission that the agent waits for. -/
structure PendingPermission where
  wireRequest : ℕ
  session : SessionId
  options : List PermissionOption
  terminalSpec : Option TerminalSpec
deriving DecidableEq, Repr

/-- What a terminal call asks. -/
inductive TerminalRpcKind where
  | create
  | output (terminal : TerminalId)
  | wait (terminal : TerminalId)
  | kill (terminal : TerminalId)
  | release (terminal : TerminalId)
deriving DecidableEq, Repr

/-- A terminal call that the agent waits for. -/
structure PendingTerminalRpc where
  wireRequest : ℕ
  session : SessionId
  kind : TerminalRpcKind
deriving DecidableEq, Repr

/-- A terminal under the name the agent knows it by. -/
structure TerminalBinding where
  loc : TerminalId
  wire : String
  session : SessionId
  released : Bool
deriving DecidableEq, Repr

/-- What the translator knows between two messages. -/
structure Translator where
  /-- The last id of our own requests. -/
  ids : ℕ := 0
  pending : Table ℕ Pending := ∅
  sessions : List (SessionId × String) := []
  permissions : Table PermissionRequestId PendingPermission := ∅
  reads : Table ReadRequestId ℕ := ∅
  terminalRpcs : Table AgentTerminalRequestId PendingTerminalRpc := ∅
  terminals : List TerminalBinding := []
  oneShotTerminalGrants : List (SessionId × TerminalSpec) := []
  nextSession : ℕ := 0
  nextId : ℕ := 0
  ready : Bool := false
  queued : List AgentRequest := []

/-- What `incoming` leaves behind: the translator, the events for the model and the messages for the
agent. -/
abbrev Absorbed := Translator × List AgentEvent × List Message

/-! ## Reading parameters -/

/-- Strings of an optional array. -/
def stringArray (value : Option Value) (required : Bool) (label : String) :
    Except String (List String) :=
  match value with
  | none => if required then .error (label ++ " must be an array") else .ok []
  | some value =>
    match value.asArray with
    | none => .error (label ++ " must be an array")
    | some array =>
      array.mapM fun item =>
        match item.asStr with
        | some s => .ok s
        | none => .error (label ++ " must contain only strings")

/-- One entry of an environment. -/
def envEntry (label : String) (item : Value) : Except String (String × String) :=
  match (item.getStr "name").filter fun name => name ≠ "" ∧ '=' ∉ name.toList ∧ '\x00' ∉ name.toList with
  | none => .error (label ++ " entries need a valid name")
  | some name =>
    match (item.getStr "value").filter fun value => '\x00' ∉ value.toList with
    | none => .error (label ++ " entries need a string value")
    | some value => .ok (name, value)

/-- The entries of an environment. -/
def envArray (value : Option Value) (required : Bool) (label : String) :
    Except String (List (String × String)) :=
  match value with
  | none => if required then .error (label ++ " must be an array") else .ok []
  | some value =>
    match value.asArray with
    | none => .error (label ++ " must be an array")
    | some array => array.mapM (envEntry label)

/-- A path from the root that climbs nowhere. -/
def validAbsolutePath (path : Path) : Bool := path.isAbsolute && !path.contains .parentDir

/-- The output limit a terminal asks for, up to the largest. -/
def outputLimit (params : Value) : Except String ℕ :=
  match params.get "outputByteLimit" with
  | none => .ok defaultOutputLimit
  | some value =>
    match value.asU64 with
    | none => .error "outputByteLimit must be a non-negative integer"
    | some limit => .ok (min limit maxOutputLimit)

/-- The command of `terminal/create`. -/
def terminalSpecOfCreate (params : Value) : Except String TerminalSpec :=
  match (params.getStr "command").filter (· ≠ "") with
  | none => .error "terminal/create needs a non-empty command"
  | some program =>
    (stringArray (params.get "args") false "terminal/create args").bind fun args =>
      match ((params.getStr "cwd").map Path.ofString).filter fun path => validAbsolutePath path with
      | none => .error "terminal/create cwd must be an absolute path without traversal"
      | some cwd =>
        (envArray (params.get "env") false "terminal/create env").map fun env =>
          { program, args, cwd, env }

/-- The exact command a permission request would run. -/
def terminalSpecOfPermission (tool : Option Value) : Option TerminalSpec :=
  (tool.bind (·.get "rawInput")).bind fun raw =>
    match stringArray (raw.get "command") true "permission command" with
    | .ok (program :: args) =>
      ((raw.getStr "cwd").map Path.ofString).bind fun cwd =>
        if !validAbsolutePath cwd then none
        else
          match envArray (raw.get "env") true "permission env" with
          | .ok env => some { program, args, cwd, env }
          | .error _ => none
    | _ => none

/-- The first `diff` entry of the tool call that names a path and a new text. -/
def editDiffOfPermission (tool : Option Value) : Option ProposedEditDiff :=
  ((tool.bind (·.get "content")).bind Value.asArray).bind fun contents =>
    contents.findSome? fun content =>
      if content.getStr "type" ≠ some "diff" then none
      else
        (content.getStr "path").bind fun path =>
          (content.getStr "newText").map fun newText =>
            { path := Path.ofString path
              oldText := ((content.getStr "oldText").getD "").toList
              newText := newText.toList }

/-- The command a tool call would run, as an argv array. -/
def argvOf (tool : Option Value) : List String :=
  match (tool.bind (·.get "rawInput")).bind (·.get "command") with
  | none => []
  | some command =>
    match command.asArray with
    | some array => array.filterMap Value.asStr
    | none => (command.asStr.map fun s => [s]).getD []

/-- The answers that a permission request offers. -/
def permissionOptions (params : Value) : List PermissionOption :=
  (((params.get "options").bind Value.asArray).getD []).filterMap fun o =>
    (o.getStr "optionId").map fun id => { id, kind := (o.getStr "kind").getD "" }

/-- The modes of a `session/new` result, if the agent sent a usable list. -/
def parseSessionModes (session : SessionId) (modes : Option Value) : Option AgentEvent :=
  modes.bind fun modes =>
    (modes.getStr "currentModeId").bind fun current =>
      ((modes.get "availableModes").bind Value.asArray).bind fun list =>
        let available := list.filterMap fun mode =>
          (mode.getStr "id").map fun id =>
            ({ id, name := (mode.getStr "name").getD id,
               description := mode.getStr "description" } : SessionMode)
        if available = [] then none else some (.modesAvailable session current available)

/-- What the agent says it can do. -/
def parseAgentCapabilities (result : Value) : AgentCapabilities :=
  let caps := result.get "agentCapabilities"
  let flag (on : Option Value) (key : String) : Bool :=
    ((on.bind (·.get key)).bind Value.asBool).getD false
  let prompt := caps.bind (·.get "promptCapabilities")
  { loadSession := flag caps "loadSession"
    promptCapabilities :=
      { image := flag prompt "image", audio := flag prompt "audio"
        embeddedContext := flag prompt "embeddedContext" } }

/-- The end of a process as it is sent. -/
def exitStatus (exit : TerminalExit) : Value :=
  .object [("exitCode", .orNull (exit.code.map fun n => .number (.posInt n))),
    ("signal", .orNull (exit.signal.map .string))]

/-- Pick the option matching the human's answer, falling back within the same direction. -/
def chooseOption (options : List PermissionOption) (decision : PermissionDecision) : Option String :=
  let wanted := match decision with
    | .allowOnce => "allow_once"
    | .allowAlways => "allow_always"
    | .rejectOnce => "reject_once"
    | .rejectAlways => "reject_always"
  let fallback := if decision.allows then "allow_once" else "reject_once"
  ((options.find? (·.kind == wanted)).or (options.find? (·.kind == fallback))).map (·.id)

/-- Change the first element that meets `p`. -/
def modifyFirst {α : Type*} (p : α → Bool) (f : α → α) : List α → List α
  | [] => []
  | a :: as => if p a then f a :: as else a :: modifyFirst p f as

namespace Translator

/-- The opening handshake. -/
def initializeWith (t : Translator) (capabilities : ClientCapabilities) : Translator × Message :=
  let id := t.ids + 1
  ({ t with ids := id, pending := t.pending.insert id .initializing },
    .request id "initialize" (.object [
      ("protocolVersion", .number (.posInt protocolVersion)),
      ("clientCapabilities", .object [
        ("fs", .object [
          ("readTextFile", .bool capabilities.readTextFile),
          ("writeTextFile", .bool capabilities.writeTextFile)]),
        ("terminal", .bool capabilities.terminal)])]))

/-- The agent's name of a session. -/
def wireSession (t : Translator) (session : SessionId) : Option String :=
  (t.sessions.find? (·.1 == session)).map Prod.snd

/-- The session of a name. -/
def ourSession (t : Translator) (wire : String) : Option SessionId :=
  (t.sessions.find? (·.2 == wire)).map Prod.fst

/-- The terminal of a name. -/
def terminalBinding (t : Translator) (wire : String) : Option TerminalBinding :=
  t.terminals.find? (·.wire == wire)

/-- The terminal of a name, if it is the session's and not released. -/
def liveTerminal (t : Translator) (wire : String) (session : SessionId) : Option TerminalId :=
  ((t.terminalBinding wire).filter fun b => b.session == session && !b.released).map (·.loc)

/-! ## Towards the agent -/

/-- Drop the allow-once grants of a session. -/
def expireTerminalGrants (t : Translator) (session : SessionId) : Translator :=
  { t with oneShotTerminalGrants := t.oneShotTerminalGrants.filter (·.1 != session) }

/-- Send one of our own requests. -/
def ask (t : Translator) (pending : Pending) (method : String) (params : Value) :
    Translator × Option Message :=
  let id := t.ids + 1
  ({ t with ids := id, pending := t.pending.insert id pending }, some (.request id method params))

/-- The answer to a terminal call, given what the call was. -/
def terminalResult (t : Translator) (pending : PendingTerminalRpc) (response : AgentTerminalResponse) :
    Translator × Message :=
  match response with
  | .error message => (t, .error pending.wireRequest (-32000) message)
  | response =>
    match pending.kind, response with
    | .create, .created terminal =>
      if t.terminals.any (·.loc == terminal) then
        (t, .error pending.wireRequest (-32000)
          ("terminal TerminalId(" ++ toString terminal.val ++ ") already has a wire id"))
      else
        let wire := "termesh-" ++ toString terminal.val
        ({ t with terminals := t.terminals ++ [⟨terminal, wire, pending.session, false⟩] },
          .response pending.wireRequest (.object [("terminalId", .string wire)]))
    | .output _, .output output truncated exit =>
      (t, .response pending.wireRequest (.object [("output", .string output),
        ("truncated", .bool truncated), ("exitStatus", .orNull (exit.map exitStatus))]))
    | .wait _, .exited exit => (t, .response pending.wireRequest (exitStatus exit))
    | .kill _, .acknowledged => (t, .response pending.wireRequest (.object []))
    | .release terminal, .acknowledged =>
      let ours (b : TerminalBinding) : Bool := b.loc == terminal && b.session == pending.session
      ({ t with terminals := modifyFirst ours (fun b => { b with released := true }) t.terminals },
        .response pending.wireRequest (.object []))
    | _, _ =>
      (t, .error pending.wireRequest (-32000) "terminal response did not match its request")

/-- The reply to a terminal call. -/
def encodeTerminalResponse (t : Translator) (request : AgentTerminalRequestId)
    (response : AgentTerminalResponse) : Translator × Option Message :=
  match t.terminalRpcs.lookup request with
  | none => (t, none)
  | some pending =>
    let t := { t with terminalRpcs := t.terminalRpcs.erase request }
    let (t, message) := t.terminalResult pending response
    (t, some message)

/-- The outcome sent for a permission request. -/
def outcome (option : Option String) : Value :=
  match option with
  | some id => .object [("outcome", .object [("outcome", .string "selected"), ("optionId", .string id)])]
  | none => .object [("outcome", .object [("outcome", .string "cancelled")])]

/-- One text block of a prompt. -/
def textBlock (text : String) : Value := .object [("type", .string "text"), ("text", .string text)]

/-- The message that a request of the model becomes. -/
def encode (t : Translator) : AgentRequest → Translator × Option Message
  | .newSession cwd =>
    t.ask .newSession "session/new"
      (.object [("cwd", .string cwd.display), ("mcpServers", .array [])])
  | .setMode session mode =>
    match t.wireSession session with
    | none => (t, none)
    | some wire =>
      t.ask (.setMode session mode) "session/set_mode"
        (.object [("sessionId", .string wire), ("modeId", .string mode)])
  | .prompt session text context =>
    match t.wireSession session with
    | none => (t, none)
    | some wire =>
      let blocks := if context = "" then [textBlock text] else [textBlock context, textBlock text]
      t.ask (.prompt session) "session/prompt"
        (.object [("sessionId", .string wire), ("prompt", .array blocks)])
  | .fileContents _ request path contents =>
    match t.reads.lookup request with
    | none => (t, none)
    | some id =>
      ({ t with reads := t.reads.erase request },
        some (match contents with
          | some content => .response id (.object [("content", .string (String.ofList content))])
          | none => .error id (-32000) ("cannot read " ++ path.display)))
  | .permission request decision =>
    match t.permissions.lookup request with
    | none => (t, none)
    | some pending =>
      let option := chooseOption pending.options decision
      let grants :=
        if option.isSome && decision.allows then
          match pending.terminalSpec with
          | some spec => t.oneShotTerminalGrants ++ [(pending.session, spec)]
          | none => t.oneShotTerminalGrants
        else t.oneShotTerminalGrants
      ({ t with permissions := t.permissions.erase request, oneShotTerminalGrants := grants },
        some (.response pending.wireRequest (outcome option)))
  | .permissionCancelled request =>
    match t.permissions.lookup request with
    | none => (t, none)
    | some pending =>
      ({ t with permissions := t.permissions.erase request },
        some (.response pending.wireRequest (outcome none)))
  | .terminalResponse request response => t.encodeTerminalResponse request response
  | .cancel session =>
    let t := t.expireTerminalGrants session
    match t.wireSession session with
    | none => (t, none)
    | some wire =>
      (t, some (.notification "session/cancel" (.object [("sessionId", .string wire)])))
  | .shutdown => (t, none)

/-- Encode several requests in order. -/
def encodeAll (t : Translator) : List AgentRequest → Translator × List Message
  | [] => (t, [])
  | r :: rs =>
    let (t, message) := t.encode r
    let (t, messages) := t.encodeAll rs
    (t, message.toList ++ messages)

/-- Turn one of our requests into wire messages, holding it until the handshake is done. -/
def outgoing (t : Translator) (request : AgentRequest) : Translator × List Message :=
  if !t.ready && request != .shutdown then ({ t with queued := t.queued ++ [request] }, [])
  else
    let (t, message) := t.encode request
    (t, message.toList)

/-! ## From the agent -/

/-- The agent answers a request of ours. -/
def onResponse (t : Translator) (id : ℕ) (result : Value) : Absorbed :=
  match t.pending.lookup id with
  | none => (t, [], [])
  | some pending =>
    let t := { t with pending := t.pending.erase id }
    match pending with
    | .initializing =>
      let (t', messages) := encodeAll { t with ready := true, queued := [] } t.queued
      (t', [.ready (parseAgentCapabilities result)], messages)
    | .newSession =>
      match result.getStr "sessionId" with
      | none => (t, [.failed ⟨0⟩ "session/new returned no sessionId"], [])
      | some wire =>
        let session : SessionId := ⟨t.nextSession + 1⟩
        ({ t with nextSession := t.nextSession + 1, sessions := t.sessions ++ [(session, wire)] },
          .sessionStarted session :: (parseSessionModes session (result.get "modes")).toList, [])
    | .prompt session =>
      let reason := match result.getStr "stopReason" with
        | some "cancelled" => StopReason.cancelled
        | some "refusal" => .refusal
        | some "max_tokens" => .maxTokens
        | _ => .endTurn
      (t.expireTerminalGrants session, [.turnEnded session reason], [])
    | .setMode session mode => (t, [.modeChanged session mode], [])

/-- The agent refuses a request of ours. -/
def onError (t : Translator) (id : ℕ) (message : String) : Absorbed :=
  let session := match t.pending.lookup id with
    | some (.prompt session) => session
    | some (.setMode session _) => session
    | _ => ⟨0⟩
  let t := { t with pending := t.pending.erase id }
  (t.expireTerminalGrants session, [.failed session message], [])

/-- The events of the content entries of a tool call. -/
def toolCallEvents (t : Translator) (session : SessionId) : List Value → Translator × List AgentEvent
  | [] => (t, [])
  | content :: contents =>
    match content.getStr "type" with
    | some "diff" =>
      match content.getStr "path", content.getStr "newText" with
      | some path, some newText =>
        let id := t.nextId + 1
        let (t, events) := toolCallEvents { t with nextId := id } session contents
        (t, .proposedEdit session ⟨id⟩ (Path.ofString path)
          ((content.getStr "oldText").map (·.toList)) newText.toList :: events)
      | _, _ => toolCallEvents t session contents
    | some "terminal" =>
      match ((content.getStr "terminalId").bind t.terminalBinding).filter (·.session == session) with
      | some binding =>
        let (t, events) := toolCallEvents t session contents
        (t, .terminalAttached session binding.loc :: events)
      | none => toolCallEvents t session contents
    | _ => toolCallEvents t session contents

/-- The text of an update. -/
def textOf (update : Value) : Option String :=
  ((update.get "content").bind (·.get "text")).bind Value.asStr

/-- `session/update`. -/
def onNotification (t : Translator) (method : String) (params : Value) :
    Translator × List AgentEvent :=
  if method ≠ "session/update" then (t, [])
  else
    match (params.getStr "sessionId").bind t.ourSession, params.get "update" with
    | some session, some update =>
      match (update.getStr "sessionUpdate").getD "" with
      | "agent_message_chunk" => (t, ((textOf update).map fun s => .messageChunk session s).toList)
      | "agent_thought_chunk" => (t, ((textOf update).map fun s => .thoughtChunk session s).toList)
      | "tool_call" | "tool_call_update" =>
        toolCallEvents t session (((update.get "content").bind Value.asArray).getD [])
      | "current_mode_update" =>
        (t, ((update.getStr "modeId").map fun mode => .modeChanged session mode).toList)
      | _ => (t, [])
    | _, _ => (t, [])

/-- Refuse a call whose parameters do not do. -/
def invalidParams (t : Translator) (id : ℕ) (message : String) : Absorbed :=
  (t, [], [.error id (-32602) message])

/-- `fs/read_text_file`. -/
def readTextFile (t : Translator) (id : ℕ) (session : SessionId) (params : Value) : Absorbed :=
  match params.getStr "path" with
  | none => t.invalidParams id "fs/read_text_file needs a path"
  | some path =>
    let request : ReadRequestId := ⟨t.nextId + 1⟩
    ({ t with nextId := t.nextId + 1, reads := t.reads.insert request id },
      [.readFileRequested session request (Path.ofString path)], [])

/-- `fs/write_text_file`: acknowledged at once, and turned into a proposal. -/
def writeTextFile (t : Translator) (id : ℕ) (session : SessionId) (params : Value) : Absorbed :=
  match params.getStr "path", params.getStr "content" with
  | some path, some content =>
    ({ t with nextId := t.nextId + 1 },
      [.proposedEdit session ⟨t.nextId + 1⟩ (Path.ofString path) none content.toList],
      [.response id .null])
  | _, _ => t.invalidParams id "fs/write_text_file needs a path and content"

/-- `session/request_permission`. -/
def requestPermission (t : Translator) (id : ℕ) (session : SessionId) (params : Value) : Absorbed :=
  let tool := params.get "toolCall"
  let summary := ((tool.bind (·.get "title")).bind Value.asStr).getD "run a tool"
  let terminalSpec := terminalSpecOfPermission tool
  let request : PermissionRequestId := ⟨t.nextId + 1⟩
  ({ t with
      nextId := t.nextId + 1
      permissions := t.permissions.insert request
        { wireRequest := id, session, options := permissionOptions params, terminalSpec } },
    [.permissionRequested session request summary (argvOf tool) terminalSpec
      (editDiffOfPermission tool)], [])

/-- Hold a terminal call until the model answers it. -/
def allocateTerminalRequest (t : Translator) (wireRequest : ℕ) (session : SessionId)
    (kind : TerminalRpcKind) (operation : AgentTerminalOperation) : Absorbed :=
  let request : AgentTerminalRequestId := ⟨t.nextId + 1⟩
  ({ t with
      nextId := t.nextId + 1
      terminalRpcs := t.terminalRpcs.insert request { wireRequest, session, kind } },
    [.terminalRequest session request operation], [])

/-- `terminal/create`; an allow-once grant for the same command is spent. -/
def terminalCreate (t : Translator) (id : ℕ) (session : SessionId) (params : Value) : Absorbed :=
  if session = ⟨0⟩ then t.invalidParams id "terminal/create needs a known sessionId"
  else
    match terminalSpecOfCreate params, outputLimit params with
    | .error message, _ => t.invalidParams id message
    | .ok _, .error message => t.invalidParams id message
    | .ok spec, .ok limit =>
      let granted : SessionId × TerminalSpec → Bool := fun g => g.1 == session && g.2 == spec
      let preauthorized := t.oneShotTerminalGrants.any granted
      allocateTerminalRequest
        { t with oneShotTerminalGrants := t.oneShotTerminalGrants.eraseP granted }
        id session .create (.create spec limit preauthorized)

/-- The other terminal calls: what they are for, given the terminal they name. -/
def terminalCall (t : Translator) (id : ℕ) (session : SessionId) (method : String) (params : Value)
    (kind : TerminalId → TerminalRpcKind) (operation : TerminalId → AgentTerminalOperation) :
    Absorbed :=
  if session = ⟨0⟩ then t.invalidParams id (method ++ " needs a known sessionId")
  else
    match params.getStr "terminalId" with
    | none => t.invalidParams id (method ++ " needs a terminalId")
    | some wire =>
      match t.liveTerminal wire session with
      | none => t.invalidParams id ("unknown or released terminalId: " ++ wire)
      | some terminal =>
        t.allocateTerminalRequest id session (kind terminal) (operation terminal)

/-- A call from the agent. -/
def onRequest (t : Translator) (id : ℕ) (method : String) (params : Value) : Absorbed :=
  let session := ((params.getStr "sessionId").bind t.ourSession).getD ⟨0⟩
  match method with
  | "fs/read_text_file" => t.readTextFile id session params
  | "fs/write_text_file" => t.writeTextFile id session params
  | "session/request_permission" => t.requestPermission id session params
  | "terminal/create" => t.terminalCreate id session params
  | "terminal/output" => t.terminalCall id session method params .output .output
  | "terminal/wait_for_exit" => t.terminalCall id session method params .wait .waitForExit
  | "terminal/kill" => t.terminalCall id session method params .kill .kill
  | "terminal/release" => t.terminalCall id session method params .release .release
  | _ => (t, [], [.error id (-32601) (method ++ " is not supported")])

/-- Absorb one wire message. -/
def incoming (t : Translator) : Message → Absorbed
  | .response id result => t.onResponse id result
  | .error id _ message => t.onError id message
  | .notification method params =>
    let (t, events) := t.onNotification method params
    (t, events, [])
  | .request id method params => t.onRequest id method params

end Translator

end Termesh
