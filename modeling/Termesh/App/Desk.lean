import Termesh.App.Files

/-!
# What terminals and the conversation leave alone

`desk` is a model without its terminals, its conversation, its overlays and its language servers:
what is left are the documents, the proposals and everything that waits for the filesystem worker.
Terminal operations, the agent's terminal calls and every PTY event keep the desk.

* `desk`, `buffers_of_desk`, `proposals_of_desk`, `outbox_of_desk`;
* `cancelAgentTerminals_desk`, `shutdownTerminals_desk`, **`onPtyEvent_desk`**.
-/

namespace Termesh

namespace App.Model

/-- The model without terminals, conversation, overlays and language servers. -/
def desk (m : Model) : Model :=
  { m with
    running := true, focus := .editor, previousNonTerminalFocus := .editor, overlays := []
    notification := none, agentName := none, pendingPrompt := none, agentCapabilities := none
    permissionPolicy := [], pendingTerminalCreates := [], pendingTerminalWaits := []
    terminals := [], activeTerminal := none, nextTerminalId := 0, terminalSize := ⟨24, 80⟩
    terminalOutbox := [], agentOutbox := [], servedReads := [], lsp := {}
    agent := m.agent.map fun a => { id := a.id, proposals := a.proposals } }

theorem buffers_of_desk {m m' : Model} (h : m'.desk = m.desk) : m'.buffers = m.buffers :=
  show m'.desk.buffers = m.desk.buffers by rw [h]

theorem outbox_of_desk {m m' : Model} (h : m'.desk = m.desk) : m'.outbox = m.outbox :=
  show m'.desk.outbox = m.desk.outbox by rw [h]

theorem find_of_desk {m m' : Model} (h : m'.desk = m.desk) : m'.find = m.find :=
  show m'.desk.find = m.desk.find by rw [h]

theorem proposals_of_desk {m m' : Model} (h : m'.desk = m.desk) : m'.proposals = m.proposals := by
  have key : ∀ m : Model, m.proposals = m.desk.proposals := by
    intro m
    simp only [proposals, desk, Option.map_map]
    rfl
  rw [key m', key m, h]

@[simp] theorem desk_notify (m : Model) (s : String) : (m.notify s).desk = m.desk := rfl

@[simp] theorem desk_pushOverlay (m : Model) (o : Overlay) : (m.pushOverlay o).desk = m.desk := rfl

@[simp] theorem desk_reply (m : Model) (r : AgentRequest) : (m.reply r).desk = m.desk := rfl

@[simp] theorem desk_sendPty (m : Model) (r : PtyRequest) : (m.sendPty r).desk = m.desk := rfl

@[simp] theorem desk_respondTerminal (m : Model) (request : AgentTerminalRequestId)
    (response : AgentTerminalResponse) : (m.respondTerminal request response).desk = m.desk := rfl

@[simp] theorem desk_completeTerminalWaits (m : Model) (terminal : TerminalId)
    (response : AgentTerminalResponse) :
    (m.completeTerminalWaits terminal response).desk = m.desk := rfl

@[simp] theorem desk_focusTerminalPane (m : Model) : m.focusTerminalPane.desk = m.desk := rfl

@[simp] theorem desk_appendNotification (m : Model) (s : String) :
    (m.appendNotification s).desk = m.desk := by
  unfold appendNotification
  split
  · split_ifs <;> rfl
  · rfl

theorem desk_modifyAgent (m : Model) {f : AgentSession → AgentSession}
    (hf : ∀ a, (f a).id = a.id ∧ (f a).proposals = a.proposals) :
    (m.modifyAgent f).desk = m.desk := by
  simp only [desk, modifyAgent, Option.map_map]
  congr 2
  funext a
  simp [(hf a).1, (hf a).2]

/-! ## Terminals -/

@[simp] theorem desk_modifyTerminal (m : Model) (terminal : TerminalId)
    (f : TerminalSession → TerminalSession) : (m.modifyTerminal terminal f).desk = m.desk := by
  unfold modifyTerminal
  split <;> rfl

@[simp] theorem desk_completeTerminalCreate (m : Model) (p : PendingTerminalCreate → Bool)
    (response : AgentTerminalResponse) : (m.completeTerminalCreate p response).desk = m.desk := by
  unfold completeTerminalCreate
  split
  · rfl
  · split <;> rfl

@[simp] theorem createTerminalWithLimit_desk (m : Model) (spec : TerminalSpec)
    (owner : TerminalOwner) (limit : ℕ) :
    (m.createTerminalWithLimit spec owner limit).2.desk = m.desk := by
  unfold createTerminalWithLimit
  dsimp only
  rw [desk_sendPty]
  split
  · split_ifs <;> rfl
  · rfl

@[simp] theorem createTerminal_desk (m : Model) (spec : TerminalSpec) (owner : TerminalOwner) :
    (m.createTerminal spec owner).desk = m.desk := createTerminalWithLimit_desk m spec owner _

theorem newShellTerminal_desk (h : Host) (m : Model) : (m.newShellTerminal h).desk = m.desk :=
  createTerminal_desk m _ _

theorem toggleTerminalFocus_desk (h : Host) (m : Model) :
    (m.toggleTerminalFocus h).desk = m.desk := by
  unfold toggleTerminalFocus
  split_ifs
  · rfl
  · exact newShellTerminal_desk h m
  · rfl

theorem cycleTerminal_desk (h : Host) (m : Model) (delta : Int) :
    (m.cycleTerminal h delta).desk = m.desk := by
  unfold cycleTerminal
  split_ifs
  · exact newShellTerminal_desk h m
  · rfl

theorem restartTerminal_desk {h : Host} {m m' : Model} (hr : m.restartTerminal h = some m') :
    m'.desk = m.desk := by
  unfold restartTerminal at hr
  split at hr
  · rw [← Option.some.inj hr]
    exact newShellTerminal_desk h m
  · obtain ⟨t, -, rfl⟩ := Option.map_eq_some_iff.mp hr
    dsimp only
    split_ifs <;> rfl

theorem removeTerminal_desk (m : Model) (terminal : TerminalId) (kill : Bool) :
    (m.removeTerminal terminal kill).desk = m.desk := by
  unfold removeTerminal
  split
  · rfl
  · split
    · rfl
    · exact Eq.trans (b := (m.completeTerminalCreate (·.terminal = terminal)
        (.error "terminal closed")).desk) rfl (desk_completeTerminalCreate ..)

theorem closeTerminal_desk (m : Model) : m.closeTerminal.desk = m.desk := by
  unfold closeTerminal
  split
  · rfl
  · split_ifs
    · rfl
    · exact removeTerminal_desk m _ _

theorem typeTerminal_desk (m : Model) (bytes : List UInt8) : (m.typeTerminal bytes).desk = m.desk := by
  unfold typeTerminal
  split
  · rfl
  · split_ifs <;> rfl

theorem setTerminalSize_desk (m : Model) (size : TerminalSize) :
    (m.setTerminalSize size).desk = m.desk := by
  unfold setTerminalSize
  dsimp only
  split_ifs <;> rfl

/-! ## The agent's calls -/

@[simp] theorem spawnAgentTerminal_desk (m : Model) (session : SessionId)
    (request : AgentTerminalRequestId) (spec : TerminalSpec) (limit : ℕ) :
    (m.spawnAgentTerminal session request spec limit).desk = m.desk :=
  createTerminalWithLimit_desk m spec (.agent session) limit

theorem createForAgent_desk (m : Model) (session : SessionId) (request : AgentTerminalRequestId)
    (spec : TerminalSpec) (limit : ℕ) (preauthorized : Bool) :
    (m.createForAgent session request spec limit preauthorized).desk = m.desk := by
  unfold createForAgent
  split_ifs
  · exact spawnAgentTerminal_desk ..
  · split
    · rfl
    · rename_i agent ha
      split_ifs
      · rfl
      · simp only [desk, ha, Option.map_some]

theorem withAgentTerminal_desk {m : Model} {session : SessionId} {request : AgentTerminalRequestId}
    {terminal : TerminalId} {f : ℕ → TerminalSession → Model} (hf : ∀ i t, (f i t).desk = m.desk) :
    (m.withAgentTerminal session request terminal f).desk = m.desk := by
  unfold withAgentTerminal
  dsimp only
  split
  · rfl
  · exact hf _ _

theorem handleAgentTerminal_desk (h : Host) (m : Model) (session : SessionId)
    (request : AgentTerminalRequestId) (operation : AgentTerminalOperation) :
    (m.handleAgentTerminal h session request operation).desk = m.desk := by
  unfold handleAgentTerminal
  split_ifs
  · rfl
  · cases operation with
    | create => exact createForAgent_desk ..
    | output => exact withAgentTerminal_desk fun _ _ => rfl
    | waitForExit =>
      refine withAgentTerminal_desk fun _ t => ?_
      split <;> rfl
    | kill =>
      refine withAgentTerminal_desk fun _ t => ?_
      rw [desk_respondTerminal, desk_completeTerminalWaits, desk_sendPty]
    | release =>
      refine withAgentTerminal_desk fun _ t => ?_
      dsimp only
      rw [desk_respondTerminal, desk_completeTerminalWaits]
      rfl

@[simp] theorem rejectPendingPermission_desk (m : Model) (session : Option SessionId)
    (reason : String) : (m.rejectPendingPermission session reason).desk = m.desk := by
  unfold rejectPendingPermission
  split
  · rfl
  · rename_i agent ha
    split_ifs
    · split
      · rfl
      · rename_i pending hp
        cases ho : pending.origin <;> simp only [desk, reply, respondTerminal, ha, Option.map_some]
    · rfl

@[simp] theorem releaseEnded_desk (reason : String) (m : Model) (t : TerminalSession) :
    (releaseEnded reason m t).desk = m.desk := by
  unfold releaseEnded
  rw [desk_completeTerminalWaits, desk_modifyTerminal]
  rfl

theorem cancelAgentTerminals_desk (m : Model) (session : SessionId) (reason : String) :
    (m.cancelAgentTerminals session reason).desk = m.desk := by
  have hfold : ∀ (ts : List TerminalSession) (m : Model),
      (ts.foldl (releaseEnded reason) m).desk = m.desk := by
    intro ts
    induction ts with
    | nil => intro m; rfl
    | cons t ts ih => intro m; rw [List.foldl_cons, ih, releaseEnded_desk]
  unfold cancelAgentTerminals
  dsimp only
  rw [hfold]
  exact rejectPendingPermission_desk m (some session) reason

theorem shutdownTerminals_desk (m : Model) : m.shutdownTerminals.desk = m.desk :=
  rejectPendingPermission_desk m none "application shutting down"

theorem absorbPtyEvent_desk (h : Host) (m : Model) (t : TerminalSession) (e : PtyEvent) :
    (m.absorbPtyEvent h t e).desk = m.desk := by
  cases e with
  | spawned => rw [absorbPtyEvent, desk_completeTerminalCreate, desk_modifyTerminal]
  | output =>
    rw [absorbPtyEvent]
    split_ifs
    · rfl
    · exact desk_modifyTerminal ..
  | exited => exact desk_modifyTerminal ..
  | failed =>
    rw [absorbPtyEvent]
    split
    · rfl
    · rw [desk_completeTerminalWaits, desk_completeTerminalCreate, desk_notify, desk_modifyTerminal]

/-- **PTY events are about terminals.** -/
theorem onPtyEvent_desk (h : Host) (m : Model) (e : PtyEvent) : (m.onPtyEvent h e).desk = m.desk := by
  unfold onPtyEvent
  dsimp only
  split
  · rfl
  · split_ifs
    · rfl
    · exact absorbPtyEvent_desk ..

/-! ## Conversation -/

@[simp] theorem rememberPermission_desk (m : Model) (spec : TerminalSpec) :
    (m.rememberPermission spec).desk = m.desk := by
  unfold rememberPermission
  dsimp only
  split <;> rfl

theorem pushTranscript_desk (m : Model) (speaker : Speaker) (text : String) :
    (m.pushTranscript speaker text).desk = m.desk := by
  unfold pushTranscript
  split
  · rfl
  · rename_i agent ha
    simp only [desk, ha, Option.map_some]

@[simp] theorem newAgentSession_desk (m : Model) : m.newAgentSession.desk = m.desk := by
  unfold newAgentSession
  split <;> rfl

theorem promptAgent_desk (m : Model) : m.promptAgent.desk = m.desk := by
  unfold promptAgent
  split_ifs <;> rfl

@[simp] theorem sendPrompt_desk (h : Host) (m : Model) (session : SessionId) (text : String) :
    (m.sendPrompt h session text).desk = m.desk := desk_modifyAgent m fun _ => ⟨rfl, rfl⟩

theorem openAgentModes_desk (m : Model) : m.openAgentModes.desk = m.desk := by
  unfold openAgentModes
  split
  · rfl
  · split_ifs <;> rfl

theorem setAgentMode_desk (m : Model) (mode : String) : (m.setAgentMode mode).desk = m.desk := by
  unfold setAgentMode
  split <;> rfl

@[simp] theorem answerPermission_desk (m : Model) (pending : PendingPermission)
    (decision : PermissionDecision) : (m.answerPermission pending decision).desk = m.desk := by
  unfold answerPermission
  split
  · rw [desk_reply]
    split
    · split_ifs
      · exact rememberPermission_desk ..
      · rfl
    · rfl
  · split_ifs
    · rw [spawnAgentTerminal_desk, rememberPermission_desk]
    · exact spawnAgentTerminal_desk ..
    · rfl

/-- Answering a permission takes the prompt away, with the proposal it gates. -/
theorem decidePermission_cases {h : Host} {m m' : Model} {decision : PermissionDecision}
    (hd : m.decidePermission h decision = some m') :
    m' = m ∨ ∃ agent m₁, m.agent = some agent ∧ m'.desk = m₁.desk ∧
      (m₁ = { m with agent := some { agent with pendingPermission := none } } ∨
        ∃ reviewed, { m with agent := some { agent with
          pendingPermission := none
          proposals := agent.proposals.filter fun p => p.id ≠ reviewed } }.syncProposals h =
            some m₁) := by
  unfold decidePermission at hd
  split at hd
  · exact .inl (Option.some.inj hd).symm
  · rename_i agent ha
    split at hd
    · exact .inl (Option.some.inj hd).symm
    · rename_i pending hp
      obtain ⟨m₁, hm₁, rfl⟩ := Option.map_eq_some_iff.mp hd
      refine .inr ⟨agent, m₁, ha, ?_, ?_⟩
      · dsimp only
        split_ifs <;> simp only [desk_notify, answerPermission_desk]
      · cases hr : pending.review with
        | none =>
          rw [hr] at hm₁
          exact .inl (Option.some.inj hm₁).symm
        | some reviewed =>
          rw [hr] at hm₁
          exact .inr ⟨reviewed, hm₁⟩

end App.Model

end Termesh
