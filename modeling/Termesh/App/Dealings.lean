import Termesh.App.Frames
import Termesh.App.Moves

/-!
# What passes between the model and the agent

`dealings` is what is left of a model when everything but the agent's session, its terminal calls,
the retained terminals and the answers and prompts queued for it are forgotten. Editing, searching,
files and language servers keep the dealings.

* `openFile_dealings`, `queueDueDrafts_dealings`, `applyWorkspaceEdit_dealings`,
  **`onFsEvent_dealings`**, **`onLspEvent_dealings`**;
* `Command.Quiet`, `Event.Quiet`, **`step_dealings`**: a quiet event keeps the dealings.
-/

namespace Termesh

/-- A prompt or an answer to a call, as opposed to contents or an order about a session. -/
def AgentRequest.isDealing : AgentRequest → Bool
  | .prompt .. | .permission .. | .permissionCancelled _ | .terminalResponse .. => true
  | _ => false

namespace App

/-- The commands that are not about the agent's session or a terminal. -/
def Command.Quiet : Command → Prop
  | proposalAccept | proposalReject | agentAllowOnce | agentAllowAlways | agentDeny
  | terminalFocus | terminalNew | terminalNext | terminalPrevious | terminalRestart
  | terminalClose => False
  | _ => True

/-- The events that are not about the agent's session or a terminal. -/
def Event.Quiet : Event → Prop
  | dispatch cmd => cmd.Quiet
  | confirmPrompt prompt =>
    match prompt.kind with
    | .confirmCloseTerminal _ | .terminalRun | .agentPrompt _ => False
    | _ => True
  | restoreSession _ | decidePermission _ | agent _ | pty _ | shutdownTerminals
  | takeAgentRequests => False
  | _ => True

namespace Model

variable {h : Host} {m m' : Model}

/-- The model without documents, files, servers and everything merely seen. -/
def dealings (m : Model) : Model where
  agent := m.agent.map fun a => { a with proposals := a.proposals.map unhunked }
  pendingPrompt := m.pendingPrompt
  pendingTerminalCreates := m.pendingTerminalCreates
  pendingTerminalWaits := m.pendingTerminalWaits
  terminals := m.terminals
  activeTerminal := m.activeTerminal
  nextTerminalId := m.nextTerminalId
  agentOutbox := m.agentOutbox.filter AgentRequest.isDealing

theorem dealings_of_shell (hs : m'.shell = m.shell) : m'.dealings = m.dealings := by
  have key : ∀ m : Model, m.dealings = { m.shell.dealings with agent := m.shell.agent } :=
    fun _ => rfl
  rw [key m', key m, hs]

theorem dealings_of_outline (ho : m'.outline = m.outline) : m'.dealings = m.dealings :=
  dealings_of_shell (shell_of_outline ho)

theorem dealings_of_bare (hb : m'.bare = m.bare) : m'.dealings = m.dealings :=
  dealings_of_shell (shell_of_bare hb)

theorem dealings_foldl {β : Type} {f : Model → β → Model}
    (hf : ∀ m b, (f m b).dealings = m.dealings) (l : List β) (m : Model) :
    (l.foldl f m).dealings = m.dealings := by
  induction l generalizing m with
  | nil => rfl
  | cons b l ih => rw [List.foldl_cons, ih, hf]

@[simp] theorem dealings_appendNotification (m : Model) (s : String) :
    (m.appendNotification s).dealings = m.dealings :=
  dealings_of_outline (outline_appendNotification m s)

@[simp] theorem dealings_restoreActiveBuffer (m : Model) (b : Option BufferId) :
    (m.restoreActiveBuffer b).dealings = m.dealings :=
  dealings_of_shell (shell_restoreActiveBuffer m b)

/-! ## Files -/

theorem openFile_dealings (m : Model) (path : Path) : (m.openFile path).dealings = m.dealings := by
  unfold openFile
  split
  · rfl
  · split_ifs <;> rfl

theorem openFileAt_dealings (m : Model) (path : Path) (line column : ℕ) :
    (m.openFileAt path line column).dealings = m.dealings := by
  have hpos := dealings_of_shell (positionOpenBuffer_shell m path line column)
  unfold openFileAt
  split
  · rename_i m₁ h₁
    rwa [h₁] at hpos
  · rename_i m₁ h₁
    rw [h₁] at hpos
    rw [openFile_dealings]
    exact hpos

theorem openLspLocation_dealings (m : Model) (location : Location) :
    (m.openLspLocation location).dealings = m.dealings := by
  unfold openLspLocation
  split_ifs
  · exact openFileAt_dealings ..
  · rfl

theorem saveActiveBuffer_dealings (m : Model) : m.saveActiveBuffer.dealings = m.dealings := by
  unfold saveActiveBuffer
  split
  · rfl
  · split
    · rfl
    · split_ifs <;> rfl

theorem queueConfigReload_dealings (m : Model) (kind : ConfigReloadKind) (path : Path) :
    (m.queueConfigReload kind path).dealings = m.dealings := rfl

theorem reloadConfig_dealings (h : Host) (m : Model) : (m.reloadConfig h).dealings = m.dealings := by
  unfold reloadConfig
  split
  · split
    · exact (queueConfigReload_dealings _ _ _).trans (queueConfigReload_dealings m _ _)
    · exact queueConfigReload_dealings m _ _
  · split
    · exact queueConfigReload_dealings m _ _
    · rfl

theorem confirmFile_dealings (m : Model) (prompt : Prompt) (name : String) :
    (m.confirmFile prompt name).dealings = m.dealings := by
  unfold confirmFile
  split_ifs
  · rfl
  · rfl
  · split
    · rfl
    · rfl
    · split <;> rfl
    · rfl
    · rfl

theorem discardRecoveryDrafts_dealings (h : Host) (m : Model) :
    (m.discardRecoveryDrafts h).dealings = m.dealings := by
  unfold discardRecoveryDrafts
  split
  · dsimp only
    split
    · rfl
    · refine Eq.trans (dealings_foldl (fun m d => ?_) _ _) ?_
      · rfl
      · rfl
  · rfl

theorem queueDueDrafts_dealings (h : Host) (m : Model) :
    (m.queueDueDrafts h).dealings = m.dealings := by
  unfold queueDueDrafts
  split
  · rfl
  · split_ifs
    · rfl
    · dsimp only
      split
      · rfl
      · split_ifs
        · rfl
        · refine Eq.trans (dealings_foldl (fun m b => ?_) _ _) ?_
          · split
            · exact dealings_appendNotification ..
            · rfl
          · rfl

theorem reloadChangedBuffers_dealings (m : Model) (paths : List Path) :
    (m.reloadChangedBuffers paths).dealings = m.dealings := by
  refine dealings_foldl (fun m path => ?_) paths m
  unfold reloadChanged
  split
  · rfl
  · split_ifs <;> rfl

theorem finishRestoredRead_dealings (m : Model) (buffer : BufferId) :
    (m.finishRestoredRead buffer).dealings = m.dealings := by
  unfold finishRestoredRead
  split <;> rfl

theorem abandonPendingWorkspaceEdit_dealings (m : Model) (s : String) :
    (m.abandonPendingWorkspaceEdit s).dealings = m.dealings := by
  unfold abandonPendingWorkspaceEdit
  split
  · exact (dealings_restoreActiveBuffer { m with pendingWorkspaceEdit := none } _).trans rfl
  · rfl

theorem applyConfig_dealings (h : Host) (m : Model) (kind : ConfigReloadKind) (c : Option Text) :
    (m.applyConfig h kind c).dealings = m.dealings := by
  unfold applyConfig
  split <;> rfl

/-! ## Language servers -/

theorem requestAtCursor_dealings (m : Model) (kind : LspCall) :
    (m.requestAtCursor kind).dealings = m.dealings := by
  unfold requestAtCursor
  split <;> rfl

theorem requestDocument_dealings (m : Model) (kind : LspCall) :
    (m.requestDocument kind).dealings = m.dealings := by
  unfold requestDocument
  split
  · rfl
  · split <;> rfl

theorem requestLspDocumentSymbols_dealings (m : Model) :
    m.requestLspDocumentSymbols.dealings = m.dealings := by
  unfold requestLspDocumentSymbols
  dsimp only
  split <;> exact requestDocument_dealings ..

theorem promptLspRename_dealings (m : Model) : m.promptLspRename.dealings = m.dealings := by
  unfold promptLspRename
  split_ifs <;> rfl

theorem requestLspRename_dealings (m : Model) (name : String) :
    (m.requestLspRename name).dealings = m.dealings := by
  unfold requestLspRename
  split <;> rfl

theorem requestLspCodeActions_dealings (m : Model) :
    m.requestLspCodeActions.dealings = m.dealings := by
  unfold requestLspCodeActions
  split
  · rfl
  · split <;> rfl

theorem restartLanguageServers_dealings (m : Model) :
    m.restartLanguageServers.dealings = m.dealings := by
  unfold restartLanguageServers
  split_ifs <;> rfl

theorem notifyLspWatchedFiles_dealings (m : Model) (paths : List Path) :
    (m.notifyLspWatchedFiles paths).dealings = m.dealings := by
  unfold notifyLspWatchedFiles
  split
  · rfl
  · dsimp only
    split_ifs <;> rfl

theorem queueTargets_dealings (m : Model) (paths : List Path) :
    (m.queueTargets paths).1.dealings = m.dealings := by
  induction paths generalizing m with
  | nil => rfl
  | cons path rest ih =>
    rw [queueTargets]
    split_ifs
    · exact ih m
    · split
      · exact ih m
      · exact (ih _).trans rfl

theorem applyWorkspaceEdit_dealings {edit : WorkspaceEdit}
    (ha : m.applyWorkspaceEdit h edit = some m') : m'.dealings = m.dealings := by
  unfold applyWorkspaceEdit at ha
  split_ifs at ha
  · rw [← Option.some.inj ha]; rfl
  · rw [← Option.some.inj ha]; rfl
  · split at ha
    · rw [← Option.some.inj ha]; rfl
    · dsimp only at ha
      split at ha
      · rw [← Option.some.inj ha]; rfl
      · split at ha
        · rw [← Option.some.inj ha]; rfl
        · exact (dealings_of_shell (finishPendingWorkspaceEdit_shell ha)).trans
            (queueTargets_dealings m _)

theorem acceptCodeAction_dealings {action : CodeAction}
    (ha : m.acceptCodeAction h action = some m') : m'.dealings = m.dealings := by
  unfold acceptCodeAction at ha
  split at ha
  · exact applyWorkspaceEdit_dealings ha
  · rw [← Option.some.inj ha]; rfl

/-- **Language servers are no part of the dealings.** -/
theorem onLspEvent_dealings {server : LspServerId} {event : LspEvent}
    (he : m.onLspEvent h server event = some m') : m'.dealings = m.dealings := by
  rcases onLspEvent_cases he with hb | ⟨lsp, ⟨location, rfl⟩ | ⟨edit, ha⟩ | ⟨edits, ha⟩⟩
  · exact dealings_of_bare hb.1
  · exact (openLspLocation_dealings { m with lsp } location).trans rfl
  · exact (applyWorkspaceEdit_dealings ha).trans rfl
  · exact (dealings_of_outline (applyTextEdits_outline ha)).trans rfl

/-! ## Answers of the worker -/

theorem showLoaded_dealings {buffer : BufferId} {path : Path} {text : Text} {restored : Bool}
    (hs : m.showLoaded h buffer path text restored = some m') : m'.dealings = m.dealings := by
  unfold showLoaded at hs
  obtain ⟨m₁, h₁, hs⟩ := Option.bind_eq_some_iff.mp hs
  have hm₁ : m₁.dealings = m.dealings := by
    refine (dealings_of_outline (syncSyntax_outline h₁)).trans ?_
    split
    · exact (finishRestoredRead_dealings _ buffer).trans rfl
    · rfl
  refine (dealings_of_shell (finishPendingWorkspaceEdit_shell hs)).trans ?_
  change (syncLspDocuments _).dealings = m.dealings
  refine (dealings_of_outline (syncLspDocuments_outline _)).trans ?_
  split
  · rename_i pending line column hp
    split_ifs
    · refine (dealings_of_shell (positionOpenBuffer_shell
        { m₁ with pendingOpenLocation := none } path line column)).trans hm₁
    · exact hm₁
  · exact hm₁

theorem fileLoaded_dealings {buffer : BufferId} {path : Path} {contents : Option Text}
    (hl : m.fileLoaded h buffer path contents = some m') : m'.dealings = m.dealings := by
  unfold fileLoaded at hl
  split at hl
  · rw [← Option.some.inj hl]
    exact (applyConfig_dealings ..).trans rfl
  · split at hl
    · rw [← Option.some.inj hl]
      simp [dealings, reply, AgentRequest.isDealing]
    · dsimp only at hl
      split at hl
      · rw [← Option.some.inj hl]
        unfold refuseLoaded
        dsimp only
        split_ifs
        · exact (dealings_appendNotification ..).trans (finishRestoredRead_dealings ..)
        · exact abandonPendingWorkspaceEdit_dealings ..
        · rfl
      · split at hl
        · unfold reloadBuffer at hl
          obtain ⟨m₁, h₁, hl⟩ := Option.bind_eq_some_iff.mp hl
          refine (dealings_of_shell (finishPendingWorkspaceEdit_shell hl)).trans ?_
          exact (dealings_of_outline (syncAll_outline h₁)).trans rfl
        · exact (showLoaded_dealings hl).trans rfl

theorem fileSaved_dealings (h : Host) (m : Model) (buffer : BufferId) (version : Version) :
    (m.fileSaved h buffer version).dealings = m.dealings := by
  unfold fileSaved
  split
  · rfl
  · split
    · rfl
    · dsimp only
      split
      · rfl
      · split
        · split_ifs <;> rfl
        · rfl

theorem fileFailed_dealings (h : Host) (m : Model) (buffer : BufferId) (error : FsError) :
    (m.fileFailed h buffer error).dealings = m.dealings := by
  unfold fileFailed
  split
  · exact (dealings_appendNotification ..).trans rfl
  · split
    · exact (applyConfig_dealings ..).trans rfl
    · split
      · simp [dealings, reply, AgentRequest.isDealing]
      · dsimp only
        split_ifs
        · exact (dealings_appendNotification ..).trans (finishRestoredRead_dealings ..)
        · exact abandonPendingWorkspaceEdit_dealings ..
        · rfl

/-- **Files are no part of the dealings.** -/
theorem onFsEvent_dealings {e : FsEvent} (he : m.onFsEvent h e = some m') :
    m'.dealings = m.dealings := by
  cases e with
  | fileLoaded => exact fileLoaded_dealings he
  | fileSaved => exact Option.some.inj he ▸ fileSaved_dealings ..
  | fileFailed => exact Option.some.inj he ▸ fileFailed_dealings ..
  | pathResolved =>
    rw [onFsEvent] at he
    split at he
    · exact Option.some.inj he ▸ rfl
    · dsimp only at he
      split at he
      · exact Option.some.inj he ▸ rfl
      · split at he
        · exact Option.some.inj he ▸ openFileAt_dealings { m with pendingProblemNavigation := none } _ _ _
        · exact Option.some.inj he ▸ rfl
  | pathResolveFailed =>
    rw [onFsEvent] at he
    split_ifs at he <;> exact Option.some.inj he ▸ rfl
  | mutationFailed =>
    rw [← Option.some.inj he]
    split_ifs <;> rfl
  | changed paths =>
    rw [← Option.some.inj he]
    split_ifs
    · exact (reloadChangedBuffers_dealings ..).trans (notifyLspWatchedFiles_dealings ..)
    · exact notifyLspWatchedFiles_dealings ..

/-! ## Quiet events -/

theorem dispatch_dealings {cmd : Command} (hq : cmd.Quiet) (hd : m.dispatch h cmd = some m') :
    m'.dealings = m.dealings := by
  obtain ⟨m₁, hm, hs⟩ := Option.bind_eq_some_iff.mp hd
  refine (dealings_of_outline (syncAll_outline hs)).trans
    (Eq.trans (b := dealings { m with notification := none }) ?_ rfl)
  generalize ({ m with notification := none } : Model) = m₀ at hm ⊢
  cases cmd with
  | save => exact Option.some.inj hm ▸ saveActiveBuffer_dealings m₀
  | restoreDrafts => exact dealings_of_outline (applyRecoveryDrafts_outline hm)
  | reloadConfig => exact Option.some.inj hm ▸ reloadConfig_dealings h m₀
  | cursor motion => exact Option.some.inj hm ▸ dealings_of_outline (withBuffer_outline m₀ _)
  | newline | backspace | deleteForward => exact dealings_of_outline (editActive_outline hm)
  | undo | redo => exact dealings_of_outline (replayActive_outline hm)
  | find =>
    rw [← Option.some.inj hm, openFindPrompt]
    split_ifs <;> rfl
  | replace =>
    rw [← Option.some.inj hm]
    unfold openFindPrompt
    split_ifs <;> rfl
  | findNext | findPrev => exact dealings_of_outline (stepMatch_outline hm)
  | nextTab | prevTab => exact Option.some.inj hm ▸ dealings_of_shell (cycleTab_shell m₀ _)
  | closeTab => exact Option.some.inj hm ▸ dealings_of_shell (closeTab_shell m₀)
  | lspAtCursor kind => exact Option.some.inj hm ▸ requestAtCursor_dealings m₀ kind
  | lspDocumentSymbols => exact Option.some.inj hm ▸ requestLspDocumentSymbols_dealings m₀
  | lspWorkspaceSymbols => exact Option.some.inj hm ▸ rfl
  | lspFormat => exact Option.some.inj hm ▸ requestDocument_dealings m₀ _
  | lspRename => exact Option.some.inj hm ▸ promptLspRename_dealings m₀
  | lspCodeAction => exact Option.some.inj hm ▸ requestLspCodeActions_dealings m₀
  | lspRestart => exact Option.some.inj hm ▸ restartLanguageServers_dealings m₀
  | agentSessionNew =>
    rw [← Option.some.inj hm, newAgentSession]
    split
    · simp [dealings, reply, AgentRequest.isDealing]
    · rfl
  | agentPrompt =>
    rw [← Option.some.inj hm, promptAgent]
    split_ifs <;> rfl
  | agentMode =>
    rw [← Option.some.inj hm, openAgentModes]
    split
    · rfl
    · split_ifs <;> rfl
  | terminalRun | focusPane | focusNext | focusPrev | closeOverlay | quit | other =>
    exact Option.some.inj hm ▸ rfl
  | proposalAccept | proposalReject | agentAllowOnce | agentAllowAlways | agentDeny
  | terminalFocus | terminalNew | terminalNext | terminalPrevious | terminalRestart
  | terminalClose => exact hq.elim

theorem confirmPrompt_dealings {prompt : Prompt} (hq : (Event.confirmPrompt prompt).Quiet)
    (hs : m.confirmPrompt h prompt = some m') : m'.dealings = m.dealings := by
  unfold confirmPrompt at hs
  rw [Event.Quiet] at hq
  dsimp only at hs
  split at hs
  · split_ifs at hs
    · exact Option.some.inj hs ▸ dealings_of_outline (clearFind_outline m)
    · exact dealings_of_outline (runFind_outline hs)
  · exact dealings_of_outline (replaceAll_outline hs)
  · exact Option.some.inj hs ▸ dealings_of_shell (discardBuffer_shell m _)
  · rename_i hk
    rw [hk] at hq
    exact hq.elim
  · rename_i hk
    rw [hk] at hq
    exact hq.elim
  · rw [← Option.some.inj hs]
    split_ifs <;> rfl
  · rw [← Option.some.inj hs]
    split_ifs
    · rfl
    · exact requestLspRename_dealings ..
  · rename_i hk
    rw [hk] at hq
    exact hq.elim
  · exact Option.some.inj hs ▸ confirmFile_dealings ..

theorem setAgentMode_dealings (m : Model) (mode : String) :
    (m.setAgentMode mode).dealings = m.dealings := by
  unfold setAgentMode
  split
  · rfl
  · simp [dealings, reply, AgentRequest.isDealing]

/-- **A quiet event keeps the dealings.** -/
theorem step_dealings {ev : Event} (hq : ev.Quiet) (hs : m.step h ev = some m') :
    m'.dealings = m.dealings := by
  cases ev with
  | dispatch cmd => exact dispatch_dealings hq hs
  | typeChar c =>
    obtain ⟨m₁, hm, hs⟩ := Option.bind_eq_some_iff.mp hs
    exact dealings_of_outline ((syncAll_outline hs).trans ((editActive_outline hm).trans rfl))
  | confirmPrompt prompt => exact confirmPrompt_dealings hq hs
  | openFile path => exact Option.some.inj hs ▸ openFile_dealings m path
  | openFileAt => exact Option.some.inj hs ▸ openFileAt_dealings m _ _ _
  | acceptSelectedRecoveryDrafts => exact dealings_of_outline (applyRecoveryDrafts_outline hs)
  | discardRecoveryDrafts => exact Option.some.inj hs ▸ discardRecoveryDrafts_dealings h m
  | acceptCompletion item => exact dealings_of_outline (acceptCompletion_outline hs)
  | acceptCodeAction action => exact acceptCodeAction_dealings hs
  | openLspLocation location => exact Option.some.inj hs ▸ openLspLocation_dealings m location
  | applyTextEdits edits => exact dealings_of_outline (applyTextEdits_outline hs)
  | applyWorkspaceEdit edit => exact applyWorkspaceEdit_dealings hs
  | setAgentMode mode => exact Option.some.inj hs ▸ setAgentMode_dealings m mode
  | typeTerminal bytes =>
    rw [← Option.some.inj hs, typeTerminal]
    split
    · rfl
    · split_ifs <;> rfl
  | setTerminalSize size =>
    rw [← Option.some.inj hs, setTerminalSize]
    dsimp only
    split_ifs <;> rfl
  | fs event => exact onFsEvent_dealings hs
  | lsp server event => exact onLspEvent_dealings hs
  | tick seconds => exact Option.some.inj hs ▸ (queueDueDrafts_dealings h _).trans rfl
  | navigateProblem | openWorkspace | setOverlays | takeFsRequests | takePtyRequests
  | takeLspRequests => exact Option.some.inj hs ▸ rfl
  | restoreSession | decidePermission | agent | pty | shutdownTerminals | takeAgentRequests =>
    exact hq.elim

/-! ## Judgement -/

theorem dealings_reply (hd : m'.dealings = m.dealings) (r : AgentRequest) :
    (m'.reply r).dealings = (m.reply r).dealings := by
  have key : ∀ m : Model, (m.reply r).dealings = { m.dealings with
      agentOutbox := m.dealings.agentOutbox ++ [r].filter AgentRequest.isDealing } := by
    intro m
    simp only [dealings, reply, List.filter_append]
  rw [key m', key m, hd]

theorem rememberPermission_dealings (m : Model) (spec : TerminalSpec) :
    (m.rememberPermission spec).dealings = m.dealings := by
  unfold rememberPermission
  dsimp only
  split <;> rfl

theorem spawnAgentTerminal_dealings (m : Model) (session : SessionId)
    (request : AgentTerminalRequestId) (spec : TerminalSpec) (limit : ℕ) :
    ∃ t : TerminalSession, t.id = ⟨m.nextTerminalId + 1⟩ ∧ t.generation = ⟨1⟩ ∧
      t.status = .starting ∧ t.released = false ∧ t.owner = .agent session ∧
      (m.spawnAgentTerminal session request spec limit).dealings =
        { m.dealings with
          terminals := m.terminals ++ [t]
          activeTerminal :=
            if m.focus = .terminal then m.activeTerminal else some m.terminals.length
          nextTerminalId := m.nextTerminalId + 1
          pendingTerminalCreates := m.pendingTerminalCreates ++ [⟨request, t.id, ⟨1⟩⟩] } := by
  let t : TerminalSession :=
    { id := ⟨m.nextTerminalId + 1⟩, generation := ⟨1⟩, spec, owner := .agent session
      title := "Terminal " ++ Nat.repr (m.nextTerminalId + 1), status := .starting
      captureLimit := limit }
  refine ⟨t, rfl, rfl, rfl, rfl, rfl, ?_⟩
  unfold spawnAgentTerminal createTerminalWithLimit
  dsimp only
  split_ifs <;> rfl

/-- What is left of the proposals once a permission is answered. -/
def ungated (review : Option ProposalId) (ps : List EditProposal) : List EditProposal :=
  match review with
  | none => ps
  | some reviewed => ps.filter fun p => p.id ≠ reviewed

/-- Answering takes the permission away, with the proposal it gates. -/
theorem decidePermission_dealings {decision : PermissionDecision}
    (hd : m.decidePermission h decision = some m') :
    (m' = m ∧ ∀ agent, m.agent = some agent → agent.pendingPermission = none) ∨
      ∃ agent pending, ∃ m₁ : Model, m.agent = some agent ∧ agent.pendingPermission = some pending ∧
      m₁.dealings = dealings { m with agent := some { agent with
        pendingPermission := none, proposals := ungated pending.review agent.proposals } } ∧
      m'.dealings = (m₁.answerPermission pending decision).dealings := by
  unfold decidePermission at hd
  split at hd
  · rename_i ha
    refine .inl ⟨(Option.some.inj hd).symm, fun agent hm => ?_⟩
    rw [ha] at hm
    cases hm
  · rename_i agent ha
    split at hd
    · rename_i hp
      refine .inl ⟨(Option.some.inj hd).symm, fun agent' hm => ?_⟩
      rw [← Option.some.inj (ha.symm.trans hm), hp]
    · rename_i pending hp
      obtain ⟨m₁, hm₁, rfl⟩ := Option.map_eq_some_iff.mp hd
      refine .inr ⟨agent, pending, m₁, ha, hp, ?_, ?_⟩
      · cases hr : pending.review with
        | none =>
          rw [hr] at hm₁
          rw [← Option.some.inj hm₁]
          rfl
        | some reviewed =>
          rw [hr] at hm₁
          exact dealings_of_outline (syncProposals_outline hm₁)
      · dsimp only
        split_ifs <;> rfl

theorem applyReview_outline {p : EditProposal} {n : ℕ} (ha : m.applyReview p = some (m', n)) :
    m'.outline = m.outline := by
  unfold applyReview at ha
  split at ha
  · rw [← (Prod.mk.inj (Option.some.inj ha)).1]
  · split_ifs at ha
    · rw [← (Prod.mk.inj (Option.some.inj ha)).1]
    · obtain ⟨cs, -, ha⟩ := Option.bind_eq_some_iff.mp ha
      obtain ⟨x, hx, ha⟩ := Option.map_eq_some_iff.mp ha
      have hs := transact_outline hx
      dsimp only at ha
      split at ha
      · rw [← (Prod.mk.inj ha).1]
        exact hs
      · rw [← (Prod.mk.inj ha).1]
        exact hs

/-- Judging the oldest proposal answers the permission that gates it, or takes it away and answers
under its own number. -/
theorem resolveProposal_dealings {accept : Bool} (hr : m.resolveProposal h accept = some m') :
    (m.gatedFirst = true ∧ ∃ (m₁ : Model) (decision : PermissionDecision),
      m.decidePermission h decision = some m₁ ∧ m'.dealings = m₁.dealings) ∨
    m'.dealings = m.dealings ∨
    (m.gatedFirst = false ∧ ∃ agent p rest decision, m.agent = some agent ∧
      agent.proposals = p :: rest ∧ m'.dealings =
        (Model.reply { m with agent := some { agent with proposals := rest } }
          (.permission ⟨p.id.val⟩ decision)).dealings) := by
  unfold resolveProposal at hr
  cases hg : m.gatedFirst with
  | true =>
    rw [hg, if_pos rfl] at hr
    obtain ⟨m₁, hm₁, rfl⟩ := Option.map_eq_some_iff.mp hr
    exact .inl ⟨rfl, m₁, _, hm₁, rfl⟩
  | false =>
    rw [hg, if_neg Bool.false_ne_true] at hr
    split at hr
    · rw [← Option.some.inj hr]
      exact .inr (.inl rfl)
    · rename_i agent ha
      split at hr
      · rw [← Option.some.inj hr]
        exact .inr (.inl rfl)
      · rename_i p rest hps
        obtain ⟨⟨m₁, n⟩, hm₁, rfl⟩ := Option.map_eq_some_iff.mp hr
        refine .inr (.inr ⟨rfl, agent, p, rest, permissionForReview n p.hunks.length, ha, hps, ?_⟩)
        have hm₁ : m₁.dealings =
            dealings { m with agent := some { agent with proposals := rest } } := by
          split_ifs at hm₁
          · exact dealings_of_outline (applyReview_outline hm₁)
          · rw [← (Prod.mk.inj (Option.some.inj hm₁)).1]
        have hclear : dealings { m₁ with buffers := m₁.buffers.map fun b =>
            { b with decorations := b.decorations.removeProposal p.id } } = m₁.dealings := rfl
        exact dealings_reply (hclear.trans hm₁) _

theorem new_id {d : LineDiff} {id : ProposalId} {path : Path} {version : Option Version}
    {base new current : Text} {p : EditProposal}
    (hp : EditProposal.new d id path version base new current = some p) : p.id = id := by
  obtain ⟨hunks, -, rfl⟩ := Option.map_eq_some_iff.mp hp
  rfl

/-- An edit is refused, or becomes the newest proposal in place of the one with its id. -/
theorem receiveProposal_dealings {id : ProposalId} {path : Path} {oldText : Option Text}
    {newText : Text} (hr : m.receiveProposal h id path oldText newText = some m') :
    m'.dealings = m.dealings ∨ ∃ p : EditProposal, p.id = id ∧
      m'.dealings = (m.modifyAgent fun agent =>
        { agent with proposals := agent.proposals.filter (·.id ≠ id) ++ [p] }).dealings := by
  unfold receiveProposal at hr
  split_ifs at hr
  · exact .inl (by rw [← Option.some.inj hr])
  · split at hr
    · exact .inl (by rw [← Option.some.inj hr]; rfl)
    · obtain ⟨p, hp, hr⟩ := Option.bind_eq_some_iff.mp hr
      exact .inr ⟨p, new_id hp, dealings_of_outline (syncProposals_outline hr)⟩

theorem reviewForPermission_dealings {request : PermissionRequestId} {edit : ProposedEditDiff}
    {summary text : String} {review : Option ProposalId}
    (hr : m.reviewForPermission h request edit summary = some (m', review, text)) :
    (review = none ∧ m'.dealings = m.dealings) ∨ ∃ p : EditProposal, p.id = ⟨request.val⟩ ∧
      review = some p.id ∧ m'.dealings = (m.modifyAgent fun agent =>
        { agent with proposals := agent.proposals ++ [p] }).dealings := by
  have hnone : ∀ {x : Model × Option ProposalId × String}, some x = some (m', review, text) →
      x.1 = m → x.2.1 = none → review = none ∧ m'.dealings = m.dealings := by
    intro x hx hm hn
    obtain rfl := Option.some.inj hx
    exact ⟨hn, congrArg dealings hm⟩
  unfold reviewForPermission at hr
  dsimp only at hr
  split at hr
  · exact .inl (hnone hr rfl rfl)
  · split at hr
    · exact .inl (hnone hr rfl rfl)
    · exact .inl (hnone hr rfl rfl)
    · obtain ⟨p, hp, hr⟩ := Option.bind_eq_some_iff.mp hr
      obtain ⟨m₂, hm₂, hx⟩ := Option.map_eq_some_iff.mp hr
      obtain ⟨rfl, hreview⟩ := Prod.mk.inj hx
      refine .inr ⟨p, new_id hp, ?_, dealings_of_outline (syncProposals_outline hm₂)⟩
      rw [new_id hp, ← (Prod.mk.inj hreview).1]

/-- A request is rejected, or held, with the proposal that shows its edit. -/
theorem receivePermission_dealings {session : SessionId} {request : PermissionRequestId}
    {summary : String} {command : List String} {spec : Option TerminalSpec}
    {edit : Option ProposedEditDiff}
    (hr : m.receivePermission h session request summary command spec edit = some m') :
    m' = m.reply (.permission request .rejectOnce) ∨
    ∃ agent summary review shown, m.agent = some agent ∧ agent.id = session ∧
      agent.pendingPermission = none ∧
      (review = none ∧ shown = [] ∨
        ∃ p : EditProposal, p.id = ⟨request.val⟩ ∧ review = some p.id ∧ shown = [p]) ∧
      m'.dealings = dealings { m with agent := some { agent with
        proposals := agent.proposals ++ shown
        pendingPermission := some ⟨.agentRequest request spec, summary, command, review⟩ } } := by
  unfold receivePermission at hr
  split_ifs at hr with hany
  · cases ha : m.agent with
    | none =>
      rw [ha] at hany
      cases hany
    | some agent =>
      rw [ha] at hany
      obtain ⟨hid, hfree⟩ : agent.id = session ∧ agent.pendingPermission = none := by
        simpa using hany
      obtain ⟨⟨m₁, review, text⟩, hm₁, rfl⟩ := Option.map_eq_some_iff.mp hr
      have hreview : (review = none ∧ m₁.dealings = m.dealings) ∨ ∃ p : EditProposal,
          p.id = ⟨request.val⟩ ∧ review = some p.id ∧ m₁.dealings = (m.modifyAgent fun agent =>
            { agent with proposals := agent.proposals ++ [p] }).dealings := by
        cases edit with
        | none =>
          obtain ⟨rfl, hx⟩ := Prod.mk.inj (Option.some.inj hm₁)
          exact .inl ⟨(Prod.mk.inj hx).1.symm, rfl⟩
        | some edit => exact reviewForPermission_dealings hm₁
      let held : PendingPermission := ⟨.agentRequest request spec, text, command, review⟩
      have hhold : ∀ shown : List EditProposal,
          m₁.dealings = dealings { m with agent := some { agent with
            proposals := agent.proposals ++ shown } } →
          (m₁.modifyAgent fun agent => { agent with pendingPermission := some held }).dealings =
          dealings { m with agent := some { agent with
            proposals := agent.proposals ++ shown, pendingPermission := some held } } := by
        intro shown hd
        have key : ∀ m : Model,
            (m.modifyAgent fun agent => { agent with pendingPermission := some held }).dealings =
            { m.dealings with agent := m.dealings.agent.map fun agent =>
              { agent with pendingPermission := some held } } := by
          intro m
          simp only [dealings, modifyAgent, Option.map_map]
          rfl
        rw [key, hd]
        rfl
      refine .inr ⟨agent, text, review, ?_⟩
      rcases hreview with ⟨hnone, hd⟩ | ⟨p, hp, hsome, hd⟩
      · refine ⟨[], rfl, hid, hfree, .inl ⟨hnone, rfl⟩, hhold [] ?_⟩
        rw [hd, List.append_nil]
        simp only [dealings, ha]
      · refine ⟨[p], rfl, hid, hfree, .inr ⟨p, hp, hsome, rfl⟩, hhold [p] ?_⟩
        rw [hd, modifyAgent, ha]
        rfl
  · exact .inl (Option.some.inj hr).symm

end Model

end App

end Termesh
