import Termesh.App.State

/-!
# Terminals

Retained terminal tabs, the processes behind them, and the agent's calls about them. A call is
answered at once or kept: a create until its process is spawned, a wait until its process ends.

* `createTerminal`, `restartTerminal`, `closeTerminal`, `removeTerminal`;
* `handleAgentTerminal`, `spawnAgentTerminal`, `completeTerminalWaits`;
* `rejectPendingPermission`, `cancelAgentTerminals`, `shutdownTerminals`;
* `onPtyEvent`.

Task runs and screens are left out.
-/

namespace Termesh

namespace App

/-- Stop a session's process, if there may be one, and give its PTY back. -/
def TerminalSession.releaseRequests (t : TerminalSession) (kill : Bool) : List PtyRequest :=
  (if kill then [.kill t.id t.generation] else []) ++ [.release t.id t.generation]

namespace Model

/-- The terminal of an id. -/
def terminalWithId (m : Model) (terminal : TerminalId) : Option TerminalSession :=
  m.terminals.find? (·.id = terminal)

/-- The terminal on screen. -/
def activeTerminalSession (m : Model) : Option TerminalSession :=
  m.activeTerminal.bind fun i => m.terminals[i]?

/-- Change the first terminal with an id. -/
def modifyTerminal (m : Model) (terminal : TerminalId) (f : TerminalSession → TerminalSession) :
    Model :=
  match m.terminals.findIdx? (·.id = terminal) with
  | some i => { m with terminals := m.terminals.modify i f }
  | none => m

/-- A reply to an agent's terminal call. -/
def respondTerminal (m : Model) (request : AgentTerminalRequestId)
    (response : AgentTerminalResponse) : Model :=
  m.reply (.terminalResponse request response)

/-- Answer every wait for a terminal. -/
def completeTerminalWaits (m : Model) (terminal : TerminalId) (response : AgentTerminalResponse) :
    Model :=
  let done := m.pendingTerminalWaits.filter (·.terminal = terminal)
  { m with
    pendingTerminalWaits := m.pendingTerminalWaits.filter (·.terminal ≠ terminal)
    agentOutbox := m.agentOutbox ++ done.map fun w => .terminalResponse w.request response }

/-- Answer the first create that meets `p`. -/
def completeTerminalCreate (m : Model) (p : PendingTerminalCreate → Bool)
    (response : AgentTerminalResponse) : Model :=
  match m.pendingTerminalCreates.findIdx? p with
  | none => m
  | some i =>
    match m.pendingTerminalCreates[i]? with
    | none => m
    | some pending =>
      { m with pendingTerminalCreates := m.pendingTerminalCreates.eraseIdx i }.respondTerminal
        pending.request response

/-! ## Tabs -/

/-- The directory a terminal starts in. -/
def terminalCwd (h : Host) (m : Model) : Path := m.root.getD h.currentDir

/-- The terminal pane gets the focus, and the pane before it is remembered. -/
def focusTerminalPane (m : Model) : Model :=
  { m with
    previousNonTerminalFocus := if m.focus = .terminal then m.previousNonTerminalFocus else m.focus
    focus := .terminal }

/-- A new terminal, its process asked for. -/
def createTerminalWithLimit (m : Model) (spec : TerminalSpec) (owner : TerminalOwner)
    (outputByteLimit : ℕ) : TerminalId × Model :=
  let id : TerminalId := ⟨m.nextTerminalId + 1⟩
  let session : TerminalSession :=
    { id, generation := ⟨1⟩, spec, owner, title := "Terminal " ++ Nat.repr id.val
      status := .starting, captureLimit := outputByteLimit }
  let index := m.terminals.length
  let m : Model := { m with nextTerminalId := m.nextTerminalId + 1, terminals := m.terminals ++ [session] }
  -- focus follows the user, never the agent
  let m : Model := match owner with
    | .agent _ => if m.focus = .terminal then m else { m with activeTerminal := some index }
    | _ => { m with activeTerminal := some index }.focusTerminalPane
  (id, m.sendPty (.spawn id ⟨1⟩ spec m.terminalSize))

/-- A new terminal that keeps as much output as one of the human. -/
def createTerminal (m : Model) (spec : TerminalSpec) (owner : TerminalOwner) : Model :=
  (m.createTerminalWithLimit spec owner defaultCaptureLimit).2

/-- A new shell. -/
def newShellTerminal (h : Host) (m : Model) : Model :=
  m.createTerminal (h.shell (m.terminalCwd h)) .humanShell

/-- Into the terminal pane, or out of it again. -/
def toggleTerminalFocus (h : Host) (m : Model) : Model :=
  if m.focus = .terminal then { m with focus := m.previousNonTerminalFocus }
  else if m.terminals = [] then m.newShellTerminal h
  else m.focusTerminalPane

/-- The next terminal on screen, or the one before. -/
def cycleTerminal (h : Host) (m : Model) (delta : Int) : Model :=
  if m.terminals = [] then m.newShellTerminal h
  else
    let next := ((m.activeTerminal.getD 0 + delta) % m.terminals.length).toNat
    { m with activeTerminal := some next }.focusTerminalPane

/-- Start the next generation of the terminal on screen. `none` is an index out of bounds. -/
def restartTerminal (h : Host) (m : Model) : Option Model :=
  match m.activeTerminal with
  | none => some (m.newShellTerminal h)
  | some index =>
    (m.terminals[index]?).map fun session =>
      if m.pendingTerminalCreates.any (·.terminal = session.id) then
        m.notify "agent terminal is still starting"
      else
        let m := m.completeTerminalWaits session.id (.error "terminal restarted")
        let next : TerminalSession :=
          { session with
            generation := ⟨session.generation.val + 1⟩
            captureLimit := defaultCaptureLimit, captured := [], captureFinished := false
            status := .starting, released := false }
        let stop := if session.released then [] else session.releaseRequests session.status.isLive
        { m with
          terminals := m.terminals.set index next
          terminalOutbox :=
            m.terminalOutbox ++ stop ++ [.spawn next.id next.generation next.spec m.terminalSize] }

/-- The tab to show after the one at `index` is gone and `last` is the last one left. -/
def tabAfterRemoval (previous : Option ℕ) (index last : ℕ) : ℕ :=
  match previous with
  | some active =>
    if active = index then min index last else if active > index then active - 1 else active
  | none => min index last

/-- A terminal goes, with its tab. -/
def removeTerminal (m : Model) (terminal : TerminalId) (kill : Bool) : Model :=
  match m.terminals.findIdx? (·.id = terminal) with
  | none => m
  | some index =>
    match m.terminals[index]? with
    | none => m
    | some session =>
      let m := m.completeTerminalCreate (·.terminal = terminal) (.error "terminal closed")
      let m := m.completeTerminalWaits terminal (.error "terminal closed")
      let terminals := m.terminals.eraseIdx index
      let stop := if session.released then [] else session.releaseRequests kill
      { m with
        terminals
        terminalOutbox := m.terminalOutbox ++ stop
        focus :=
          if terminals = [] ∧ m.focus = .terminal then m.previousNonTerminalFocus else m.focus
        activeTerminal :=
          if terminals = [] then none
          else some (tabAfterRemoval m.activeTerminal index (terminals.length - 1)) }

/-- The terminal on screen is closed, after a question if it still runs. -/
def closeTerminal (m : Model) : Model :=
  match m.activeTerminalSession with
  | none => m.notify "no terminal to close"
  | some session =>
    if !session.released && session.status.isLive then
      m.pushOverlay (.prompt {
        title := "Close " ++ session.title ++ " and stop its process?  (Enter to confirm)"
        input := ""
        kind := .confirmCloseTerminal session.id })
    else m.removeTerminal session.id false

/-- Write to the process on screen. -/
def typeTerminal (m : Model) (bytes : List UInt8) : Model :=
  match m.activeTerminalSession with
  | none => m
  | some session =>
    if session.released || !session.status.isLive then m
    else m.sendPty (.write session.id session.generation bytes)

/-- Every terminal gets the size of the pane. -/
def setTerminalSize (m : Model) (size : TerminalSize) : Model :=
  let size : TerminalSize := ⟨max size.rows 1, max size.cols 1⟩
  if size = m.terminalSize then m
  else
    let live := m.terminals.filter fun t => !t.released && t.status.isLive
    { m with
      terminalSize := size
      terminalOutbox := m.terminalOutbox ++ live.map fun t => .resize t.id t.generation size }

/-! ## The agent's calls -/

/-- A terminal that an agent asked for. -/
def spawnAgentTerminal (m : Model) (session : SessionId) (request : AgentTerminalRequestId)
    (spec : TerminalSpec) (outputByteLimit : ℕ) : Model :=
  let (terminal, m) := m.createTerminalWithLimit spec (.agent session) outputByteLimit
  { m with pendingTerminalCreates := m.pendingTerminalCreates ++ [⟨request, terminal, ⟨1⟩⟩] }

/-- A `terminal/create` call: spawn it, ask the human, or refuse. -/
def createForAgent (m : Model) (session : SessionId) (request : AgentTerminalRequestId)
    (spec : TerminalSpec) (outputByteLimit : ℕ) (preauthorized : Bool) : Model :=
  if preauthorized || m.root.any fun root => m.permissionPolicy.permits root spec then
    m.spawnAgentTerminal session request spec outputByteLimit
  else
    match m.agent with
    | none => m
    | some agent =>
      if agent.pendingPermission.isSome then
        m.respondTerminal request (.error "another permission request is pending")
      else
        let pending : PendingPermission :=
          { summary := "Run " ++ spec.program ++ " in a managed terminal?"
            command := spec.program :: spec.args
            origin := .terminalCreate session request spec outputByteLimit
            review := none }
        { m with agent := some { agent with pendingPermission := some pending } }

/-- Serve an operation on an unreleased terminal of the session, or refuse it. -/
def withAgentTerminal (m : Model) (session : SessionId) (request : AgentTerminalRequestId)
    (terminal : TerminalId) (f : ℕ → TerminalSession → Model) : Model :=
  let found := m.terminals.findIdx? fun t =>
    t.id = terminal && t.owner = .agent session && !t.released
  match found.bind fun i => (m.terminals[i]?).map (i, ·) with
  | none => m.respondTerminal request (.error "unknown or released terminal")
  | some (i, t) => f i t

/-- Serve a `terminal/*` call. -/
def handleAgentTerminal (h : Host) (m : Model) (session : SessionId)
    (request : AgentTerminalRequestId) (operation : AgentTerminalOperation) : Model :=
  if m.agent.all fun agent => agent.id ≠ session then
    m.respondTerminal request (.error "unknown agent session")
  else
    match operation with
    | .create spec outputByteLimit preauthorized =>
      m.createForAgent session request spec outputByteLimit preauthorized
    | .output terminal =>
      m.withAgentTerminal session request terminal fun _ t =>
        let kept := h.capture t.captureLimit t.captured t.captureFinished
        let exit := match t.status with
          | .exited exit => some exit
          | _ => none
        m.respondTerminal request (.output kept.1 kept.2 exit)
    | .waitForExit terminal =>
      m.withAgentTerminal session request terminal fun _ t =>
        match t.status with
        | .exited exit => m.respondTerminal request (.exited exit)
        | .failed message => m.respondTerminal request (.error message)
        | _ => { m with pendingTerminalWaits := m.pendingTerminalWaits ++ [⟨request, terminal⟩] }
    | .kill terminal =>
      m.withAgentTerminal session request terminal fun _ t =>
        ((m.sendPty (.kill terminal t.generation)).completeTerminalWaits terminal
          (.exited ⟨none, some "killed"⟩)).respondTerminal request .acknowledged
    | .release terminal =>
      m.withAgentTerminal session request terminal fun i t =>
        let m : Model := { m with
          terminalOutbox := m.terminalOutbox ++ t.releaseRequests t.status.isLive
          terminals := m.terminals.modify i fun t => { t with released := true } }
        (m.completeTerminalWaits terminal (.error "terminal released")).respondTerminal request
          .acknowledged

/-- Answer the pending permission of a session, or of any, without asking the human. -/
def rejectPendingPermission (m : Model) (session : Option SessionId) (reason : String) : Model :=
  match m.agent with
  | none => m
  | some agent =>
    if session.all fun session => agent.id = session then
      match agent.pendingPermission with
      | none => m
      | some pending =>
        let m : Model := { m with agent := some { agent with pendingPermission := none } }
        match pending.origin with
        | .agentRequest request _ => m.reply (.permissionCancelled request)
        | .terminalCreate _ request _ _ => m.respondTerminal request (.error reason)
    else m

/-- Release one terminal of a session that ended. -/
def releaseEnded (reason : String) (m : Model) (t : TerminalSession) : Model :=
  ({ m with
    terminalOutbox := m.terminalOutbox ++ t.releaseRequests t.status.isLive }.modifyTerminal t.id
      fun t => { t with released := true }).completeTerminalWaits t.id (.error reason)

/-- Answer and release everything a session holds. -/
def cancelAgentTerminals (m : Model) (session : SessionId) (reason : String) : Model :=
  let m := m.rejectPendingPermission (some session) reason
  let owned (c : PendingTerminalCreate) : Bool :=
    m.terminals.any fun t => t.id = c.terminal && t.owner = .agent session
  let done := m.pendingTerminalCreates.filter owned
  let m : Model := { m with
    pendingTerminalCreates := m.pendingTerminalCreates.filter fun c => !owned c
    agentOutbox := m.agentOutbox ++ done.map fun c => .terminalResponse c.request (.error reason) }
  let held := m.terminals.filter fun t => t.owner = .agent session && !t.released
  held.foldl (releaseEnded reason) m

/-- Answer everything pending and queue a release for every retained PTY. -/
def shutdownTerminals (m : Model) : Model :=
  let reason := "application shutting down"
  let m := m.rejectPendingPermission none reason
  let creates := m.pendingTerminalCreates.map fun c =>
    AgentRequest.terminalResponse c.request (.error reason)
  let waits := m.pendingTerminalWaits.map fun w =>
    AgentRequest.terminalResponse w.request (.error reason)
  let held := m.terminals.filter (!·.released)
  { m with
    pendingTerminalCreates := []
    pendingTerminalWaits := []
    agentOutbox := m.agentOutbox ++ creates ++ waits
    terminalOutbox := m.terminalOutbox ++ held.flatMap fun t => t.releaseRequests t.status.isLive
    terminals := m.terminals.map fun t => { t with released := true } }

/-! ## Events -/

/-- The terminal and the generation an event is about. -/
def eventTerminal : PtyEvent → TerminalId × TerminalGeneration
  | .spawned t g _ | .output t g _ | .exited t g _ | .failed t g _ => (t, g)

/-- What an event does to the terminal it names, which is retained under that generation. -/
def absorbPtyEvent (h : Host) (m : Model) (t : TerminalSession) : PtyEvent → Model
  | .spawned terminal generation processId =>
    (m.modifyTerminal terminal fun t => { t with status := .running processId }).completeTerminalCreate
      (fun c => c.terminal = terminal && c.generation = generation) (.created terminal)
  | .output terminal generation bytes =>
    if !t.status.isLive then m
    else
      let m := m.modifyTerminal terminal fun t => { t with captured := t.captured ++ bytes }
      let replies := (h.replies t.captured bytes).map fun b => PtyRequest.write terminal generation b
      { m with terminalOutbox := m.terminalOutbox ++ replies }
  | .exited terminal _ exit =>
    (m.modifyTerminal terminal fun t =>
      { t with captureFinished := true, status := .exited exit }).completeTerminalWaits terminal
        (.exited exit)
  | .failed terminal generation message =>
    match t.status with
    | .exited _ => m -- a terminal that already reported how it ended keeps that answer
    | _ =>
      let m : Model := (m.modifyTerminal terminal fun t =>
        { t with captureFinished := true, status := .failed message }).notify
          ("terminal: " ++ message)
      (m.completeTerminalCreate (fun c => c.terminal = terminal && c.generation = generation)
        (.error message)).completeTerminalWaits terminal (.error message)

/-- Absorb one event from the PTY worker into only its named terminal. -/
def onPtyEvent (h : Host) (m : Model) (event : PtyEvent) : Model :=
  let (terminal, generation) := eventTerminal event
  match m.terminalWithId terminal with
  | none => m
  | some t => if t.generation ≠ generation ∨ t.released then m else m.absorbPtyEvent h t event

end Model

end App

end Termesh
