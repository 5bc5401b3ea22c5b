import Termesh.Agent.Review
import Termesh.App.Editing
import Termesh.App.Terminals

/-!
# The agent session

Everything the agent asks for or hands over, and the human's judgement of it.

* `serveRead`: a file's text, from its buffer or through the worker;
* `receiveProposal`, `reviewForPermission`: edits as proposals under review;
* `resolveProposal`, `decidePermission`, `answerPermission`: the answers;
* `onAgentEvent`.
-/

namespace Termesh

namespace App.Model

/-- Remember a command for the workspace, or say why not. -/
def rememberPermission (m : Model) (spec : TerminalSpec) : Model :=
  let remembered := m.root.map fun root => PermissionPolicy.remember m.permissionPolicy root spec
  match remembered with
  | some (policy, true) => { m with permissionPolicy := policy }
  | _ =>
    m.notify "approved once; cwd or environment made this command unsafe to remember"

/-! ## Conversation -/

/-- Add to the conversation, continuing the current speaker's turn where possible. -/
def pushTranscript (m : Model) (speaker : Speaker) (text : String) : Model :=
  match m.agent with
  | none => m
  | some agent =>
    let transcript := match agent.transcript.getLast? with
      | some last =>
        if last.speaker = speaker then
          agent.transcript.dropLast ++ [{ last with text := last.text ++ text }]
        else agent.transcript ++ [⟨speaker, text⟩]
      | none => agent.transcript ++ [⟨speaker, text⟩]
    let transcript := if transcriptLimit < transcript.length then transcript.tail else transcript
    { m with agent := some { agent with transcript } }

/-- Start a session in the workspace root. -/
def newAgentSession (m : Model) : Model :=
  match m.root with
  | some cwd => m.reply (.newSession cwd)
  | none => m.notify "open a workspace before starting an agent"

/-- Ask for a turn. -/
def promptAgent (m : Model) : Model :=
  if m.agentName.isNone then
    m.notify "no agent configured — see ~/.config/termesh/agents.toml"
  else if m.agent.any (·.turnActive) then m.notify "the agent is still working"
  else
    let session := (m.agent.map (·.id)).getD ⟨0⟩
    m.pushOverlay (.prompt { title := "Ask the agent", input := "", kind := .agentPrompt session })

/-- Send a turn. -/
def sendPrompt (h : Host) (m : Model) (session : SessionId) (text : String) : Model :=
  (m.modifyAgent fun agent =>
    { agent with turnActive := true, transcript := agent.transcript ++ [⟨.you, text⟩] }).reply
      (.prompt session text h.agentContext)

/-- Offer the agent's modes, if it published any. -/
def openAgentModes (m : Model) : Model :=
  match m.agent with
  | none => m.notify "no agent session"
  | some agent =>
    if agent.modes = [] then m.notify "this agent offers no session modes"
    else m.pushOverlay (.agentModes agent.modes)

def setAgentMode (m : Model) (mode : String) : Model :=
  match m.agent with
  | none => m
  | some agent => m.reply (.setMode agent.id mode)

/-! ## Reads -/

/-- Answer `fs/read_text_file`: from the live buffer when the file is open, otherwise from disk
inside the workspace. -/
def serveRead (m : Model) (session : SessionId) (request : ReadRequestId) (path : Path) : Model :=
  match m.bufferAt path with
  | some b =>
    let served := m.servedReads.filter (·.path ≠ path) ++ [⟨path, b.version, b.text⟩]
    { m with servedReads := served }.reply (.fileContents session request path (some b.text))
  | none =>
    if m.root.any fun root => path.startsWith root then
      let (buffer, m) := m.queueRead path
      { m with pendingAgentReads := m.pendingAgentReads ++ [⟨buffer, session, request, path⟩] }
    else m.reply (.fileContents session request path none)

/-! ## Proposals -/

/-- Prepare the diff behind an edit permission. Returns the proposal to display, if one could be
built, and the summary to show. -/
def reviewForPermission (h : Host) (m : Model) (request : PermissionRequestId)
    (edit : ProposedEditDiff) (summary : String) : Option (Model × Option ProposalId × String) :=
  let name := displayName edit.path
  match m.bufferAt edit.path with
  | none => some (m, none, summary ++ " (open " ++ name ++ " to see the diff)")
  | some b =>
    match wholeFileFromPermissionDiff b.text edit.oldText edit.newText with
    | .error .notFound =>
      some (m, none, summary ++ " (" ++ name ++ " has changed since the agent read it)")
    | .error .ambiguous =>
      some (m, none, summary ++ " (the change matches several places in " ++ name ++ ")")
    | .ok whole =>
      let id : ProposalId := ⟨request.val⟩
      (EditProposal.new h.diff id edit.path none b.text whole b.text).bind fun proposal =>
        let push (agent : AgentSession) : AgentSession :=
          { agent with proposals := agent.proposals ++ [proposal] }
        ((m.modifyAgent push).syncProposals h).map fun m => (m, some id, summary)

/-- Whether the pending permission already shows an edit of this path. -/
def gatedHere (m : Model) (path : Path) : Bool :=
  match m.agent with
  | none => false
  | some agent =>
    match agent.pendingPermission.bind (·.review) with
    | none => false
    | some reviewed =>
      match agent.proposals.find? (·.id = reviewed) with
      | some proposal => proposal.path = path
      | none => false

/-- Turn a whole-file edit into a reviewable proposal anchored onto the buffer. -/
def receiveProposal (h : Host) (m : Model) (id : ProposalId) (path : Path)
    (oldText : Option Text) (newText : Text) : Option Model :=
  if m.gatedHere path then some m
  else
    match m.bufferAt path with
    | none =>
      some (m.notify ("agent proposed edits to " ++ displayName path ++ "; open it to review"))
    | some b =>
      let oldText := oldText.getD b.text
      let served := m.servedReads.reverse.find? fun r => r.path = path && r.text = oldText
      let baseVersion := served.map (·.version)
      (EditProposal.new h.diff id path baseVersion oldText newText b.text).bind fun proposal =>
        let push (agent : AgentSession) : AgentSession :=
          { agent with proposals := agent.proposals.filter (·.id ≠ id) ++ [proposal] }
        (m.modifyAgent push).syncProposals h

/-- The part of `decide_permission` that answers: the agent for itself, a terminal call by spawning
it or refusing. -/
def answerPermission (m : Model) (pending : PendingPermission) (decision : PermissionDecision) :
    Model :=
  match pending.origin with
  | .agentRequest request spec =>
    let m : Model := match spec with
      | some spec => if decision = .allowAlways then m.rememberPermission spec else m
      | none => m
    m.reply (.permission request decision)
  | .terminalCreate session request spec outputByteLimit =>
    if decision.allows then
      let m : Model := if decision = .allowAlways then m.rememberPermission spec else m
      m.spawnAgentTerminal session request spec outputByteLimit
    else m.respondTerminal request (.error "command rejected")

/-- Answer a pending permission request. -/
def decidePermission (h : Host) (m : Model) (decision : PermissionDecision) : Option Model :=
  match m.agent with
  | none => some m
  | some agent =>
    match agent.pendingPermission with
    | none => some m
    | some pending =>
      -- the agent makes the edit itself, so the client's copy goes with the prompt
      let cleared := match pending.review with
        | none => some { m with agent := some { agent with pendingPermission := none } }
        | some reviewed =>
          let kept (p : EditProposal) : Bool := p.id ≠ reviewed
          let agent : AgentSession :=
            { agent with pendingPermission := none, proposals := agent.proposals.filter kept }
          { m with agent := some agent }.syncProposals h
      cleared.map fun m =>
        let m := m.answerPermission pending decision
        if m.notification.isNone then
          m.notify ((if decision.allows then "approved: " else "denied: ") ++ pending.summary)
        else m

/-- Whether the pending permission gates the oldest proposal. -/
def gatedFirst (m : Model) : Bool :=
  match m.agent with
  | none => false
  | some agent =>
    match agent.pendingPermission.bind (·.review), agent.proposals with
    | some reviewed, first :: _ => first.id = reviewed
    | _, _ => false

/-- Apply the clean hunks of a proposal as one transaction. Returns how many there were. -/
def applyReview (m : Model) (p : EditProposal) : Option (Model × ℕ) :=
  match m.located p.path with
  | none => some (m, 0)
  | some (i, b) =>
    if p.applicable = [] then some (m, 0)
    else
      (changesetFromHunks p.applicable b.text.length).bind fun changes =>
        (m.transact i changes (.agent p.id)).map fun (m, outcome) =>
          match outcome with
          | .ok () => (m, p.applicable.length)
          | .error e => (m.notify e.toString, 0)

/-- What the human is told of a review. -/
def reviewMessage (accept : Bool) (applied total satisfied : ℕ) : String :=
  if !accept then "rejected " ++ Nat.repr total ++ " edit(s)"
  else if applied = 0 then
    if satisfied = total then "nothing to apply — the buffer already matches what was proposed"
    else "nothing applied — every hunk conflicted"
  else if applied + satisfied = total then
    "applied " ++ Nat.repr applied ++ " edit(s); " ++ Nat.repr satisfied ++ " already present"
  else if applied < total then
    "applied " ++ Nat.repr applied ++ " of " ++ Nat.repr total ++ " edit(s); the rest conflicted"
  else "applied " ++ Nat.repr applied ++ " edit(s)"

/-- Accept or reject the oldest pending proposal. -/
def resolveProposal (h : Host) (m : Model) (accept : Bool) : Option Model :=
  if m.gatedFirst then
    (m.decidePermission h (if accept then .allowOnce else .rejectOnce)).map fun m =>
      m.notify (if accept then "allowed — the agent is making the change"
        else "rejected — the file is untouched")
  else
    match m.agent with
    | none => some (m.notify "no agent session")
    | some agent =>
      match agent.proposals with
      | [] => some (m.notify "nothing to review")
      | p :: rest =>
        let m : Model := { m with agent := some { agent with proposals := rest } }
        (if accept then m.applyReview p else some (m, 0)).map fun (m, applied) =>
          let clear (b : Buffer) : Buffer :=
            { b with decorations := b.decorations.removeProposal p.id }
          let decision := permissionForReview applied p.hunks.length
          let satisfied := (p.hunks.filter (·.state == .satisfied)).length
          ({ m with buffers := m.buffers.map clear }.reply (.permission ⟨p.id.val⟩ decision)).notify
            (reviewMessage accept applied p.hunks.length satisfied)

/-! ## Events -/

/-- A tool call asks for permission: hold it, or reject it when it cannot be shown. -/
def receivePermission (h : Host) (m : Model) (session : SessionId) (request : PermissionRequestId)
    (summary : String) (command : List String) (terminalSpec : Option TerminalSpec)
    (edit : Option ProposedEditDiff) : Option Model :=
  if m.agent.any fun agent => agent.id = session && agent.pendingPermission.isNone then
    let review := match edit with
      | some edit => m.reviewForPermission h request edit summary
      | none => some (m, none, summary)
    review.map fun (m, review, summary) =>
      let pending : PendingPermission :=
        { origin := .agentRequest request terminalSpec, summary, command, review }
      m.modifyAgent fun agent => { agent with pendingPermission := some pending }
  else some (m.reply (.permission request .rejectOnce))

/-- A session opened: the previous one is cancelled, and a turn held for it is sent. -/
def startSession (h : Host) (m : Model) (session : SessionId) : Model :=
  let m := if m.notification = some startingSession then { m with notification := none } else m
  let m := match m.agent with
    | some previous => m.cancelAgentTerminals previous.id "agent session replaced"
    | none => m
  let m : Model := { m with agent := some { id := session } }
  match m.pendingPrompt with
  | some text => { m with pendingPrompt := none }.sendPrompt h session text
  | none => m

/-- What holds of the new session, from what holds once the old one is gone (`R`) and before that
(`P`). -/
theorem startSession_spec {P R Q : Model → Prop} {m : Model} (h : Host) (session : SessionId)
    (hm : P m) (hquiet : P { m with notification := none })
    (hfree : ∀ m₁, P m₁ → m₁.agent = none → R m₁)
    (hcancel : ∀ m₁ (previous : AgentSession), P m₁ → m₁.agent = some previous →
      R (m₁.cancelAgentTerminals previous.id "agent session replaced"))
    (hstart : ∀ m₂, R m₂ → Q { m₂ with agent := some { id := session } })
    (hsend : ∀ m₂ text, R m₂ →
      Q (sendPrompt h { m₂ with agent := some { id := session }, pendingPrompt := none } session
        text)) :
    Q (m.startSession h session) := by
  unfold startSession
  dsimp only
  generalize hm₁ : (if m.notification = some startingSession then { m with notification := none }
    else m) = m₁
  have h₁ : P m₁ := by
    rw [← hm₁]
    split_ifs
    · exact hquiet
    · exact hm
  cases ha : m₁.agent with
  | none =>
    have h₂ := hfree m₁ h₁ ha
    split
    · exact hsend _ _ h₂
    · exact hstart _ h₂
  | some previous =>
    have h₂ := hcancel m₁ previous h₁ ha
    split
    · exact hsend _ _ h₂
    · exact hstart _ h₂

/-- Absorb something the agent produced. -/
def onAgentEvent (h : Host) (m : Model) : AgentEvent → Option Model
  | .ready capabilities => some { m with agentCapabilities := some capabilities }
  | .modesAvailable session current available =>
    some <| m.modifyAgent fun agent =>
      if agent.id = session then { agent with modes := available, currentMode := some current }
      else agent
  | .modeChanged session mode =>
    match m.agent.filter fun agent => agent.id = session with
    | none => some m
    | some agent =>
      let name := ((agent.modes.find? (·.id = mode)).map (·.name)).getD mode
      some ({ m with agent := some { agent with currentMode := some mode } }.notify
        ("agent mode: " ++ name))
  | .sessionStarted session => some (m.startSession h session)
  | .messageChunk _ text => some (m.pushTranscript .agent text)
  | .thoughtChunk _ text => some (m.pushTranscript .thought text)
  | .readFileRequested session request path => some (m.serveRead session request path)
  | .proposedEdit _ proposal path oldText newText => m.receiveProposal h proposal path oldText newText
  | .permissionRequested session request summary command terminalSpec edit =>
    m.receivePermission h session request summary command terminalSpec edit
  | .terminalRequest session request operation =>
    some (m.handleAgentTerminal h session request operation)
  | .terminalAttached session terminal =>
    let owned := m.terminals.any fun t => t.id = terminal && t.owner = .agent session
    some <| m.modifyAgent fun agent =>
      if owned ∧ agent.id = session ∧ terminal ∉ agent.attachedTerminals then
        { agent with attachedTerminals := agent.attachedTerminals ++ [terminal] }
      else agent
  | .turnEnded session reason =>
    let m := m.modifyAgent fun agent => { agent with turnActive := false }
    some (if reason = .cancelled then m.cancelAgentTerminals session "agent session cancelled" else m)
  | .failed session message =>
    let m := m.modifyAgent fun agent => { agent with turnActive := false }
    some ((m.cancelAgentTerminals session "agent session failed").notify ("agent: " ++ message))

end App.Model

end Termesh
