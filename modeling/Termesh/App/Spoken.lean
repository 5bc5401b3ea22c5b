import Termesh.App.Courses
import Termesh.App.Input

/-!
# What the entry points tell the language servers

Most functions leave the state of the language servers alone; the others change it in the ways of
`LspState.Act`.

* `Speaks`: the language servers' state goes through any number of changes, the deeds among them
  in `D`;
* one lemma for each function that says nothing, `…_lsp`;
* `Buffer.news`, `Tells`: what a buffer has to tell of its document, and that all of it is in `D`.
-/

namespace Termesh

/-- What there is to tell of a buffer: its path, its text, and the changes not told yet. -/
def Buffer.news (b : Buffer) : Option Path × Text × List ChangeSet :=
  (b.path, b.text, b.pendingChanges)

namespace App.Model

variable {h : Host} {m m' m₁ : Model} {D : LspState.Deed → Prop}

/-- The state of the language servers goes through any number of changes. -/
def Speaks (D : LspState.Deed → Prop) (m m' : Model) : Prop := m.lsp.Course D m'.lsp

theorem Speaks.of_eq (he : m'.lsp = m.lsp) : Speaks D m m' := by
  rw [Speaks, he]

theorem Speaks.act (ha : m.lsp.Act D m'.lsp) : Speaks D m m' := .single ha

theorem Speaks.trans (hs : Speaks D m m₁) (hs' : Speaks D m₁ m') : Speaks D m m' :=
  Relation.ReflTransGen.trans hs hs'

/-! ## Nothing said -/

@[simp] theorem lsp_notify (m : Model) (s : String) : (m.notify s).lsp = m.lsp := rfl

@[simp] theorem lsp_reply (m : Model) (r : AgentRequest) : (m.reply r).lsp = m.lsp := rfl

@[simp] theorem lsp_send (m : Model) (r : FsRequest) : (m.send r).lsp = m.lsp := rfl

@[simp] theorem lsp_sendPty (m : Model) (r : PtyRequest) : (m.sendPty r).lsp = m.lsp := rfl

@[simp] theorem lsp_pushOverlay (m : Model) (o : Overlay) : (m.pushOverlay o).lsp = m.lsp := rfl

@[simp] theorem lsp_setBuffer (m : Model) (i : ℕ) (b : Buffer) : (m.setBuffer i b).lsp = m.lsp :=
  rfl

@[simp] theorem lsp_modifyAgent (m : Model) (f : AgentSession → AgentSession) :
    (m.modifyAgent f).lsp = m.lsp := rfl

@[simp] theorem lsp_respondTerminal (m : Model) (request : AgentTerminalRequestId)
    (response : AgentTerminalResponse) : (m.respondTerminal request response).lsp = m.lsp := rfl

@[simp] theorem lsp_completeTerminalWaits (m : Model) (terminal : TerminalId)
    (response : AgentTerminalResponse) :
    (m.completeTerminalWaits terminal response).lsp = m.lsp := rfl

@[simp] theorem lsp_focusTerminalPane (m : Model) : m.focusTerminalPane.lsp = m.lsp := rfl

@[simp] theorem lsp_queueRead (m : Model) (path : Path) : (m.queueRead path).2.lsp = m.lsp := rfl

@[simp] theorem lsp_appendNotification (m : Model) (s : String) :
    (m.appendNotification s).lsp = m.lsp := by
  unfold appendNotification
  split
  · split_ifs <;> rfl
  · rfl

theorem lsp_foldl {α : Type*} {f : Model → α → Model} (hf : ∀ m a, (f m a).lsp = m.lsp)
    (l : List α) (m : Model) : (l.foldl f m).lsp = m.lsp := by
  induction l generalizing m with
  | nil => rfl
  | cons a l ih => exact (ih _).trans (hf m a)

/-! ### Terminals -/

@[simp] theorem modifyTerminal_lsp (m : Model) (terminal : TerminalId)
    (f : TerminalSession → TerminalSession) : (m.modifyTerminal terminal f).lsp = m.lsp := by
  unfold modifyTerminal
  split <;> rfl

@[simp] theorem completeTerminalCreate_lsp (m : Model) (p : PendingTerminalCreate → Bool)
    (response : AgentTerminalResponse) : (m.completeTerminalCreate p response).lsp = m.lsp := by
  unfold completeTerminalCreate
  split
  · rfl
  · split <;> rfl

@[simp] theorem createTerminalWithLimit_lsp (m : Model) (spec : TerminalSpec)
    (owner : TerminalOwner) (limit : ℕ) :
    (m.createTerminalWithLimit spec owner limit).2.lsp = m.lsp := by
  unfold createTerminalWithLimit
  dsimp only
  rw [lsp_sendPty]
  split
  · split_ifs <;> rfl
  · rfl

@[simp] theorem createTerminal_lsp (m : Model) (spec : TerminalSpec) (owner : TerminalOwner) :
    (m.createTerminal spec owner).lsp = m.lsp := createTerminalWithLimit_lsp m spec owner _

theorem newShellTerminal_lsp (h : Host) (m : Model) : (m.newShellTerminal h).lsp = m.lsp :=
  createTerminal_lsp m _ _

theorem toggleTerminalFocus_lsp (h : Host) (m : Model) : (m.toggleTerminalFocus h).lsp = m.lsp := by
  unfold toggleTerminalFocus
  split_ifs
  · rfl
  · exact newShellTerminal_lsp h m
  · rfl

theorem cycleTerminal_lsp (h : Host) (m : Model) (delta : Int) :
    (m.cycleTerminal h delta).lsp = m.lsp := by
  unfold cycleTerminal
  split_ifs
  · exact newShellTerminal_lsp h m
  · rfl

theorem restartTerminal_lsp (hr : m.restartTerminal h = some m') : m'.lsp = m.lsp := by
  unfold restartTerminal at hr
  split at hr
  · exact Option.some.inj hr ▸ newShellTerminal_lsp h m
  · obtain ⟨t, -, rfl⟩ := Option.map_eq_some_iff.mp hr
    dsimp only
    split_ifs <;> rfl

theorem removeTerminal_lsp (m : Model) (terminal : TerminalId) (kill : Bool) :
    (m.removeTerminal terminal kill).lsp = m.lsp := by
  unfold removeTerminal
  split
  · rfl
  · split
    · rfl
    · exact completeTerminalCreate_lsp m (·.terminal = terminal) (.error "terminal closed")

theorem closeTerminal_lsp (m : Model) : m.closeTerminal.lsp = m.lsp := by
  unfold closeTerminal
  split
  · rfl
  · split_ifs
    · rfl
    · exact removeTerminal_lsp m _ _

theorem typeTerminal_lsp (m : Model) (bytes : List UInt8) : (m.typeTerminal bytes).lsp = m.lsp := by
  unfold typeTerminal
  split
  · rfl
  · split_ifs <;> rfl

theorem setTerminalSize_lsp (m : Model) (size : TerminalSize) :
    (m.setTerminalSize size).lsp = m.lsp := by
  unfold setTerminalSize
  dsimp only
  split_ifs <;> rfl

@[simp] theorem spawnAgentTerminal_lsp (m : Model) (session : SessionId)
    (request : AgentTerminalRequestId) (spec : TerminalSpec) (limit : ℕ) :
    (m.spawnAgentTerminal session request spec limit).lsp = m.lsp :=
  createTerminalWithLimit_lsp m spec (.agent session) limit

theorem createForAgent_lsp (m : Model) (session : SessionId) (request : AgentTerminalRequestId)
    (spec : TerminalSpec) (limit : ℕ) (preauthorized : Bool) :
    (m.createForAgent session request spec limit preauthorized).lsp = m.lsp := by
  unfold createForAgent
  split_ifs
  · exact spawnAgentTerminal_lsp ..
  · split
    · rfl
    · split_ifs <;> rfl

theorem withAgentTerminal_lsp {session : SessionId} {request : AgentTerminalRequestId}
    {terminal : TerminalId} {f : ℕ → TerminalSession → Model} (hf : ∀ i t, (f i t).lsp = m.lsp) :
    (m.withAgentTerminal session request terminal f).lsp = m.lsp := by
  unfold withAgentTerminal
  dsimp only
  split
  · rfl
  · exact hf _ _

theorem handleAgentTerminal_lsp (h : Host) (m : Model) (session : SessionId)
    (request : AgentTerminalRequestId) (operation : AgentTerminalOperation) :
    (m.handleAgentTerminal h session request operation).lsp = m.lsp := by
  unfold handleAgentTerminal
  split_ifs
  · rfl
  · cases operation with
    | create => exact createForAgent_lsp ..
    | output | kill | release => exact withAgentTerminal_lsp fun _ _ => rfl
    | waitForExit =>
      refine withAgentTerminal_lsp fun _ t => ?_
      split <;> rfl

@[simp] theorem rejectPendingPermission_lsp (m : Model) (session : Option SessionId)
    (reason : String) : (m.rejectPendingPermission session reason).lsp = m.lsp := by
  unfold rejectPendingPermission
  split
  · rfl
  · split_ifs
    · split
      · rfl
      · dsimp only
        split <;> rfl
    · rfl

theorem releaseEnded_lsp (reason : String) (m : Model) (t : TerminalSession) :
    (releaseEnded reason m t).lsp = m.lsp := by
  unfold releaseEnded
  rw [lsp_completeTerminalWaits, modifyTerminal_lsp]

theorem cancelAgentTerminals_lsp (m : Model) (session : SessionId) (reason : String) :
    (m.cancelAgentTerminals session reason).lsp = m.lsp :=
  (lsp_foldl (releaseEnded_lsp reason) _ _).trans (rejectPendingPermission_lsp m (some session) reason)

theorem shutdownTerminals_lsp (m : Model) : m.shutdownTerminals.lsp = m.lsp :=
  rejectPendingPermission_lsp m none "application shutting down"

theorem absorbPtyEvent_lsp (h : Host) (m : Model) (t : TerminalSession) (e : PtyEvent) :
    (m.absorbPtyEvent h t e).lsp = m.lsp := by
  cases e with
  | spawned => rw [absorbPtyEvent, completeTerminalCreate_lsp, modifyTerminal_lsp]
  | output =>
    rw [absorbPtyEvent]
    split_ifs
    · rfl
    · exact modifyTerminal_lsp ..
  | exited => exact modifyTerminal_lsp ..
  | failed =>
    rw [absorbPtyEvent]
    split
    · rfl
    · rw [lsp_completeTerminalWaits, completeTerminalCreate_lsp, lsp_notify, modifyTerminal_lsp]

theorem onPtyEvent_lsp (h : Host) (m : Model) (e : PtyEvent) : (m.onPtyEvent h e).lsp = m.lsp := by
  unfold onPtyEvent
  dsimp only
  split
  · rfl
  · split_ifs
    · rfl
    · exact absorbPtyEvent_lsp ..

/-! ### The agent -/

@[simp] theorem rememberPermission_lsp (m : Model) (spec : TerminalSpec) :
    (m.rememberPermission spec).lsp = m.lsp := by
  unfold rememberPermission
  dsimp only
  split <;> rfl

theorem pushTranscript_lsp (m : Model) (speaker : Speaker) (text : String) :
    (m.pushTranscript speaker text).lsp = m.lsp := by
  unfold pushTranscript
  split <;> rfl

@[simp] theorem newAgentSession_lsp (m : Model) : m.newAgentSession.lsp = m.lsp := by
  unfold newAgentSession
  split <;> rfl

theorem promptAgent_lsp (m : Model) : m.promptAgent.lsp = m.lsp := by
  unfold promptAgent
  split_ifs <;> rfl

@[simp] theorem sendPrompt_lsp (h : Host) (m : Model) (session : SessionId) (text : String) :
    (m.sendPrompt h session text).lsp = m.lsp := rfl

theorem openAgentModes_lsp (m : Model) : m.openAgentModes.lsp = m.lsp := by
  unfold openAgentModes
  split
  · rfl
  · split_ifs <;> rfl

theorem setAgentMode_lsp (m : Model) (mode : String) : (m.setAgentMode mode).lsp = m.lsp := by
  unfold setAgentMode
  split <;> rfl

theorem serveRead_lsp (m : Model) (session : SessionId) (request : ReadRequestId) (path : Path) :
    (m.serveRead session request path).lsp = m.lsp := by
  unfold serveRead
  split
  · rfl
  · split_ifs <;> rfl

theorem syncSyntax_lsp (hs : m.syncSyntax h = some m') : m'.lsp = m.lsp := by
  unfold syncSyntax at hs
  split at hs
  · exact Option.some.inj hs ▸ rfl
  · obtain ⟨b, -, rfl⟩ := Option.map_eq_some_iff.mp hs
    split <;> rfl

theorem syncProposals_lsp (hs : m.syncProposals h = some m') : m'.lsp = m.lsp := by
  unfold syncProposals at hs
  split at hs
  · exact Option.some.inj hs ▸ rfl
  · split_ifs at hs
    · exact Option.some.inj hs ▸ rfl
    · obtain ⟨ps, -, rfl⟩ := Option.map_eq_some_iff.mp hs
      rfl

@[simp] theorem answerPermission_lsp (m : Model) (pending : PendingPermission)
    (decision : PermissionDecision) : (m.answerPermission pending decision).lsp = m.lsp := by
  unfold answerPermission
  split
  · rw [lsp_reply]
    split
    · split_ifs
      · exact rememberPermission_lsp ..
      · rfl
    · rfl
  · split_ifs
    · rw [spawnAgentTerminal_lsp, rememberPermission_lsp]
    · exact spawnAgentTerminal_lsp ..
    · rfl

theorem decidePermission_lsp {decision : PermissionDecision}
    (hd : m.decidePermission h decision = some m') : m'.lsp = m.lsp := by
  unfold decidePermission at hd
  split at hd
  · exact Option.some.inj hd ▸ rfl
  · split at hd
    · exact Option.some.inj hd ▸ rfl
    · rename_i agent ha pending hp
      obtain ⟨m₁, hm₁, rfl⟩ := Option.map_eq_some_iff.mp hd
      have hcleared : m₁.lsp = m.lsp := by
        split at hm₁
        · exact Option.some.inj hm₁ ▸ rfl
        · exact (syncProposals_lsp hm₁).trans rfl
      dsimp only
      split_ifs <;> simp only [lsp_notify, answerPermission_lsp, hcleared]

theorem transact_lsp {i : ℕ} {c : ChangeSet} {s : EditSource} {r : Except EditError Unit}
    (ht : m.transact i c s = some (m', r)) : m'.lsp = m.lsp := by
  obtain ⟨b, -, ht⟩ := Option.bind_eq_some_iff.mp ht
  obtain ⟨⟨b', outcome⟩, -, heq⟩ := Option.map_eq_some_iff.mp ht
  exact (Prod.mk.inj heq).1 ▸ rfl

theorem applyReview_lsp {p : EditProposal} {n : ℕ} (ha : m.applyReview p = some (m', n)) :
    m'.lsp = m.lsp := by
  unfold applyReview at ha
  split at ha
  · exact (Prod.mk.inj (Option.some.inj ha)).1 ▸ rfl
  · split_ifs at ha
    · exact (Prod.mk.inj (Option.some.inj ha)).1 ▸ rfl
    · obtain ⟨changes, -, ha⟩ := Option.bind_eq_some_iff.mp ha
      obtain ⟨⟨m₁, outcome⟩, ht, heq⟩ := Option.map_eq_some_iff.mp ha
      have hm₁ := transact_lsp ht
      dsimp only at heq
      split at heq
      · exact (Prod.mk.inj heq).1 ▸ hm₁
      · exact (Prod.mk.inj heq).1 ▸ hm₁

theorem resolveProposal_lsp {accept : Bool} (hr : m.resolveProposal h accept = some m') :
    m'.lsp = m.lsp := by
  unfold resolveProposal at hr
  by_cases hg : m.gatedFirst = true
  · rw [if_pos hg] at hr
    obtain ⟨m₁, h₁, rfl⟩ := Option.map_eq_some_iff.mp hr
    exact (lsp_notify ..).trans (decidePermission_lsp h₁)
  · rw [if_neg hg] at hr
    split at hr
    · exact Option.some.inj hr ▸ rfl
    · split at hr
      · exact Option.some.inj hr ▸ rfl
      · obtain ⟨⟨m₁, n⟩, h₁, rfl⟩ := Option.map_eq_some_iff.mp hr
        show m₁.lsp = m.lsp
        split_ifs at h₁
        · exact (applyReview_lsp h₁).trans rfl
        · exact (Prod.mk.inj (Option.some.inj h₁)).1 ▸ rfl

theorem receiveProposal_lsp {id : ProposalId} {path : Path} {oldText : Option Text} {newText : Text}
    (hr : m.receiveProposal h id path oldText newText = some m') : m'.lsp = m.lsp := by
  unfold receiveProposal at hr
  split_ifs at hr
  · exact Option.some.inj hr ▸ rfl
  · split at hr
    · exact Option.some.inj hr ▸ rfl
    · obtain ⟨p, -, hr⟩ := Option.bind_eq_some_iff.mp hr
      exact syncProposals_lsp (m := m.modifyAgent _) hr

theorem reviewForPermission_lsp {request : PermissionRequestId} {edit : ProposedEditDiff}
    {summary : String} {review : Option ProposalId} {summary' : String}
    (hr : m.reviewForPermission h request edit summary = some (m', review, summary')) :
    m'.lsp = m.lsp := by
  unfold reviewForPermission at hr
  dsimp only at hr
  split at hr
  · exact (Prod.mk.inj (Option.some.inj hr)).1 ▸ rfl
  · split at hr
    · exact (Prod.mk.inj (Option.some.inj hr)).1 ▸ rfl
    · exact (Prod.mk.inj (Option.some.inj hr)).1 ▸ rfl
    · obtain ⟨p, -, hr⟩ := Option.bind_eq_some_iff.mp hr
      obtain ⟨m₁, h₁, heq⟩ := Option.map_eq_some_iff.mp hr
      rw [← (Prod.mk.inj heq).1]
      exact syncProposals_lsp (m := m.modifyAgent _) h₁

theorem receivePermission_lsp {session : SessionId} {request : PermissionRequestId}
    {summary : String} {command : List String} {spec : Option TerminalSpec}
    {edit : Option ProposedEditDiff}
    (hr : m.receivePermission h session request summary command spec edit = some m') :
    m'.lsp = m.lsp := by
  unfold receivePermission at hr
  split_ifs at hr
  · obtain ⟨⟨m₁, review, summary'⟩, h₁, rfl⟩ := Option.map_eq_some_iff.mp hr
    show m₁.lsp = m.lsp
    cases edit with
    | none => exact (Prod.mk.inj (Option.some.inj h₁)).1 ▸ rfl
    | some edit => exact reviewForPermission_lsp h₁
  · exact Option.some.inj hr ▸ rfl

theorem startSession_lsp (h : Host) (m : Model) (session : SessionId) :
    (m.startSession h session).lsp = m.lsp :=
  startSession_spec (P := fun m' => m'.lsp = m.lsp) (R := fun m' => m'.lsp = m.lsp)
    (Q := fun m' => m'.lsp = m.lsp) h session rfl rfl (fun _ h₁ _ => h₁)
    (fun _ _ h₁ _ => (cancelAgentTerminals_lsp ..).trans h₁) (fun _ h₂ => h₂) fun _ _ h₂ => h₂

theorem onAgentEvent_lsp {e : AgentEvent} (he : m.onAgentEvent h e = some m') :
    m'.lsp = m.lsp := by
  cases e with
  | ready | modesAvailable | terminalAttached => exact Option.some.inj he ▸ rfl
  | modeChanged session mode =>
    rw [onAgentEvent] at he
    split at he <;> exact Option.some.inj he ▸ rfl
  | sessionStarted session => exact Option.some.inj he ▸ startSession_lsp h m session
  | messageChunk | thoughtChunk => exact Option.some.inj he ▸ pushTranscript_lsp ..
  | readFileRequested => exact Option.some.inj he ▸ serveRead_lsp ..
  | proposedEdit => exact receiveProposal_lsp he
  | permissionRequested => exact receivePermission_lsp he
  | terminalRequest => exact Option.some.inj he ▸ handleAgentTerminal_lsp ..
  | turnEnded session reason =>
    rw [← Option.some.inj he]
    split_ifs
    · exact cancelAgentTerminals_lsp ..
    · rfl
  | failed session message => exact Option.some.inj he ▸ cancelAgentTerminals_lsp ..

/-! ## Documents -/

/-- What there is to tell of each buffer. -/
def news (m : Model) : List (Option Path × Text × List ChangeSet) := m.buffers.map Buffer.news

/-- What there is to tell of the documents is in `D`. -/
def Tells (D : LspState.Deed → Prop) (m : Model) : Prop :=
  ∀ path text pending, (some path, text, pending) ∈ m.news → D (.sync path text pending)

theorem news_setBuffer {i : ℕ} {b b' : Buffer} (hb : m.buffers[i]? = some b)
    (hn : b'.news = b.news) : (m.setBuffer i b').news = m.news := by
  rw [news, setBuffer, List.map_set, hn]
  obtain ⟨hi, rfl⟩ := List.getElem?_eq_some_iff.mp hb
  have hlen : i < (m.buffers.map Buffer.news).length := by rwa [List.length_map]
  rw [← List.getElem_map Buffer.news (h := hlen), List.set_getElem_self hlen]
  rfl

theorem syncSyntax_news (hs : m.syncSyntax h = some m') : m'.news = m.news := by
  unfold syncSyntax at hs
  split at hs
  · exact Option.some.inj hs ▸ rfl
  · obtain ⟨b, hb, rfl⟩ := Option.map_eq_some_iff.mp hs
    split
    · rfl
    · exact news_setBuffer hb rfl

theorem syncProposals_news (hs : m.syncProposals h = some m') : m'.news = m.news := by
  unfold syncProposals at hs
  split at hs
  · exact Option.some.inj hs ▸ rfl
  · split_ifs at hs
    · exact Option.some.inj hs ▸ rfl
    · obtain ⟨ps, -, rfl⟩ := Option.map_eq_some_iff.mp hs
      exact List.map_map.trans rfl

theorem drainInto_course (bs : List Buffer) (l : LspState)
    (hD : ∀ path text pending, (some path, text, pending) ∈ bs.map Buffer.news →
      D (.sync path text pending)) : l.Course D (drainInto bs l).2 := by
  induction bs generalizing l with
  | nil => exact .refl
  | cons b bs ih =>
    have hrest := fun l => ih l fun path text pending hmem =>
      hD path text pending (List.mem_cons_of_mem _ hmem)
    unfold drainInto
    dsimp only
    split
    · rename_i path hpath
      have hb : b.news = (some path, b.text, b.pendingChanges) := by rw [Buffer.news, hpath]
      exact .head (.sync _ _ _ (hD _ _ _ (hb ▸ List.mem_cons_self))) (hrest _)
    · exact hrest l

theorem syncLspDocuments_speaks (m : Model) (hD : m.Tells D) : Speaks D m m.syncLspDocuments := by
  rw [Speaks, syncLspDocuments, syncDrafts_lsp]
  exact drainInto_course m.buffers m.lsp hD

theorem syncAll_speaks (hD : m.Tells D) (hs : m.syncAll h = some m') : Speaks D m m' := by
  obtain ⟨m₁, h₁, hs⟩ := Option.bind_eq_some_iff.mp hs
  obtain ⟨m₂, h₂, rfl⟩ := Option.map_eq_some_iff.mp hs
  have hm₂ : m₂.lsp = m.lsp := (syncProposals_lsp h₂).trans (syncSyntax_lsp h₁)
  have hnews : m₂.news = m.news := (syncProposals_news h₂).trans (syncSyntax_news h₁)
  exact (Speaks.of_eq hm₂).trans (syncLspDocuments_speaks m₂ (by rwa [Tells, hnews]))

/-! ### Editing -/

theorem editActive_lsp {f : Buffer → Option (Buffer × Except EditError Unit)}
    (he : m.editActive f = some m') : m'.lsp = m.lsp := by
  unfold editActive at he
  split at he
  · exact Option.some.inj he ▸ rfl
  · obtain ⟨⟨b, outcome⟩, -, rfl⟩ := Option.map_eq_some_iff.mp he
    dsimp only
    split <;> rfl

theorem withBuffer_lsp (m : Model) (f : Buffer → Buffer) : (m.withBuffer f).lsp = m.lsp := by
  unfold withBuffer
  split <;> rfl

theorem replayActive_lsp {f : Buffer → Option (Buffer × Bool)} {nothing : String}
    (hr : m.replayActive f nothing = some m') : m'.lsp = m.lsp := by
  obtain ⟨⟨m₁, moved⟩, h₁, rfl⟩ := Option.map_eq_some_iff.mp hr
  have hm₁ : m₁.lsp = m.lsp := by
    unfold withBufferBool at h₁
    split at h₁
    · exact (Prod.mk.inj (Option.some.inj h₁)).1 ▸ rfl
    · obtain ⟨⟨b, moved'⟩, -, heq⟩ := Option.map_eq_some_iff.mp h₁
      exact (Prod.mk.inj heq).1 ▸ rfl
  dsimp only
  split_ifs
  · exact hm₁
  · exact hm₁

theorem focusMatch_lsp (hf : m.focusMatch = some m') : m'.lsp = m.lsp := by
  unfold focusMatch at hf
  split at hf
  · dsimp only at hf
    split at hf
    · exact Option.some.inj hf ▸ rfl
    · obtain ⟨t, -, rfl⟩ := Option.map_eq_some_iff.mp hf
      rfl
  · exact Option.some.inj hf ▸ rfl

theorem runFind_lsp {query : Text} (hr : m.runFind h query = some m') : m'.lsp = m.lsp := by
  unfold runFind at hr
  split at hr
  · exact Option.some.inj hr ▸ rfl
  · exact (focusMatch_lsp hr).trans rfl

theorem stepMatch_lsp {forward : Bool} (hs : m.stepMatch forward = some m') : m'.lsp = m.lsp := by
  unfold stepMatch at hs
  split at hs
  · exact Option.some.inj hs ▸ rfl
  · split_ifs at hs
    · exact Option.some.inj hs ▸ rfl
    · obtain ⟨current, -, hs⟩ := Option.bind_eq_some_iff.mp hs
      exact (focusMatch_lsp hs).trans rfl

theorem replaceAll_lsp {replacement : Text} (hr : m.replaceAll h replacement = some m') :
    m'.lsp = m.lsp := by
  unfold replaceAll at hr
  split at hr
  · exact Option.some.inj hr ▸ rfl
  · split_ifs at hr
    · exact Option.some.inj hr ▸ rfl
    · split at hr
      · exact Option.some.inj hr ▸ rfl
      · obtain ⟨changes, -, hr⟩ := Option.bind_eq_some_iff.mp hr
        obtain ⟨⟨m₁, outcome⟩, ht, hr⟩ := Option.bind_eq_some_iff.mp hr
        have hm₁ := transact_lsp ht
        dsimp only at hr
        split at hr
        · exact Option.some.inj hr ▸ hm₁
        · exact (syncProposals_lsp hr).trans hm₁

theorem clearFind_lsp (m : Model) : m.clearFind.lsp = m.lsp := by
  unfold clearFind
  dsimp only
  split <;> rfl

theorem cycleTab_lsp (m : Model) (step : Int) : (m.cycleTab step).lsp = m.lsp := by
  unfold cycleTab
  split_ifs
  · rfl
  · split <;> rfl

theorem applyDrafts_lsp {ds : List Draft} (ha : m.applyDrafts ds = some m') : m'.lsp = m.lsp := by
  induction ds generalizing m with
  | nil => exact Option.some.inj ha ▸ rfl
  | cons d ds ih =>
    obtain ⟨m₁, h₁, ha⟩ := Option.bind_eq_some_iff.mp ha
    refine (ih ha).trans ?_
    unfold applyDraft at h₁
    split at h₁
    · exact Option.some.inj h₁ ▸ lsp_appendNotification ..
    · obtain ⟨changes, -, h₁⟩ := Option.bind_eq_some_iff.mp h₁
      obtain ⟨⟨m₂, outcome⟩, ht, rfl⟩ := Option.map_eq_some_iff.mp h₁
      have hm₂ := transact_lsp ht
      dsimp only
      split
      · exact hm₂
      · exact (lsp_appendNotification ..).trans hm₂

theorem applyRecoveryDrafts_lsp {selectedOnly : Bool}
    (ha : m.applyRecoveryDrafts selectedOnly = some m') : m'.lsp = m.lsp := by
  unfold applyRecoveryDrafts at ha
  split at ha
  · exact (applyDrafts_lsp ha).trans rfl
  · exact Option.some.inj ha ▸ rfl

theorem discardRecoveryDrafts_lsp (h : Host) (m : Model) :
    (m.discardRecoveryDrafts h).lsp = m.lsp := by
  unfold discardRecoveryDrafts
  split
  · dsimp only
    split
    · rfl
    · refine (lsp_foldl (fun m d => ?_) _ _).trans ?_
      · rfl
      · rfl
  · rfl

theorem queueDueDrafts_lsp (h : Host) (m : Model) : (m.queueDueDrafts h).lsp = m.lsp := by
  unfold queueDueDrafts
  split
  · rfl
  · split_ifs
    · rfl
    · dsimp only
      split
      · rfl
      · split_ifs
        · rfl
        · refine (lsp_foldl (fun m b => ?_) _ _).trans ?_
          · split
            · exact lsp_appendNotification ..
            · rfl
          · rfl

theorem saveActiveBuffer_lsp (m : Model) : m.saveActiveBuffer.lsp = m.lsp := by
  unfold saveActiveBuffer
  split
  · rfl
  · split
    · rfl
    · split_ifs <;> rfl

/-! ### Opening and closing -/

theorem positionOpenBuffer_lsp (m : Model) (path : Path) (line column : ℕ) :
    (m.positionOpenBuffer path line column).1.lsp = m.lsp := by
  unfold positionOpenBuffer
  split <;> rfl

theorem openFile_lsp (m : Model) (path : Path) : (m.openFile path).lsp = m.lsp := by
  unfold openFile
  split
  · rfl
  · split_ifs <;> rfl

theorem openFileAt_lsp (m : Model) (path : Path) (line column : ℕ) :
    (m.openFileAt path line column).lsp = m.lsp := by
  have hpos := positionOpenBuffer_lsp m path line column
  unfold openFileAt
  split
  · rename_i m₁ heq
    rw [heq] at hpos
    exact hpos
  · rename_i m₁ heq
    rw [heq] at hpos
    exact (openFile_lsp ..).trans hpos

theorem openLspLocation_lsp (m : Model) (location : Location) :
    (m.openLspLocation location).lsp = m.lsp := by
  unfold openLspLocation
  split_ifs
  · exact openFileAt_lsp ..
  · rfl

/-- A buffer with an id has a path. -/
def HasPath (m : Model) (id : BufferId) (path : Path) : Prop :=
  ∃ b ∈ m.buffers, b.id = id ∧ b.path = some path

theorem discardBuffer_speaks (m : Model) (id : BufferId)
    (hD : ∀ path, m.HasPath id path → D (.close path)) : Speaks D m (m.discardBuffer id) := by
  unfold discardBuffer
  split
  · exact .of_eq rfl
  · rename_i index hindex
    unfold Speaks
    dsimp only
    cases hpath : (m.buffers[index]?).bind (·.path) with
    | none => exact .refl
    | some path =>
      obtain ⟨b, hb, hbpath⟩ := Option.bind_eq_some_iff.mp hpath
      obtain ⟨hlt, hid, -⟩ := List.findIdx?_eq_some_iff_getElem.mp hindex
      obtain rfl : m.buffers[index] = b :=
        Option.some.inj ((List.getElem?_eq_getElem hlt).symm.trans hb)
      exact .single (.close path (hD path ⟨_, List.getElem_mem hlt, by simpa using hid, hbpath⟩))

theorem closeTab_speaks (m : Model)
    (hD : ∀ b, m.active = some b → b.isDirty = false → ∀ path, m.HasPath b.id path →
      D (.close path)) : Speaks D m m.closeTab := by
  unfold closeTab
  split
  · exact .of_eq rfl
  · rename_i b hactive
    split_ifs with hdirty
    · exact .of_eq rfl
    · exact discardBuffer_speaks m _ (hD b hactive (Bool.not_eq_true _ ▸ hdirty))

theorem openRestored_lsp (m : Model) (paths : List Path) : (m.openRestored paths).1.lsp = m.lsp := by
  induction paths generalizing m with
  | nil => rfl
  | cons path rest ih => exact (ih _).trans (openFile_lsp m path)

theorem reopen_lsp (h : Host) (m : Model) (w : RestoredWorkspace) :
    (m.reopen h w).lsp = m.lsp := by
  have hread := openRestored_lsp m w.openPaths
  unfold reopen
  dsimp only
  split_ifs
  · exact (lsp_foldl (fun m cwd => createTerminal_lsp ..) _ _).trans hread
  · exact (lsp_foldl (fun m cwd => createTerminal_lsp ..) _ _).trans hread

theorem openWorkspace_speaks (m : Model) (root : Path) (configured : List ConfiguredRecipe)
    (hD : D .reopen) : Speaks D m (m.openWorkspace root configured) := .act (.reopen configured hD)

end App.Model

end Termesh
