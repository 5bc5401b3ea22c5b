import Mathlib.Tactic.Abel
import Termesh.Agent.Accounting
import Termesh.App.Gated

/-!
# The calls the model answers

A permission request or a terminal call is answered at once or held: in the pending permission, as a
create until its process is spawned, or as a wait until its process ends. `ledger` collects the calls
answered so far and those held.

* `answered`, `held`, `ledger`;
* `completeTerminalWaits_ledger`, `rejectPendingPermission_ledger`, `cancelAgentTerminals_ledger`,
  `shutdownTerminals_ledger`, `onPtyEvent_ledger`: answering what is held keeps the ledger;
* `handleAgentTerminal_ledger`, `receivePermission_ledger`: a call taken in is one more entry;
* `step_ledger`: what one event does to the ledger.
-/

namespace Termesh

namespace App

/-- The call a permission answers. -/
def PermissionOrigin.call : PermissionOrigin → CallKey
  | agentRequest request _ => .permission request
  | terminalCreate _ request _ _ => .terminal request

namespace Model

variable {h : Host} {m m' : Model}

/-- The calls of answers. -/
def answersOf (rs : List AgentRequest) : Multiset CallKey :=
  (rs.filter AgentRequest.isDealing).filterMap AgentRequest.answers

/-- The calls answered in the outbox. -/
def answered (m : Model) : Multiset CallKey := answersOf m.agentOutbox

/-- The call the pending permission is about. -/
def pendingCall (m : Model) : Option CallKey :=
  (m.agent.bind (·.pendingPermission)).map (·.origin.call)

def creating (m : Model) : Multiset CallKey :=
  ((m.pendingTerminalCreates.map fun c => CallKey.terminal c.request : List CallKey) :
    Multiset CallKey)

def waitingFor (m : Model) : Multiset CallKey :=
  ((m.pendingTerminalWaits.map fun w => CallKey.terminal w.request : List CallKey) :
    Multiset CallKey)

/-- The calls held for an answer. -/
def held (m : Model) : Multiset CallKey := single m.pendingCall + m.creating + m.waitingFor

/-- The calls answered in the outbox or held. -/
def ledger (m : Model) : Multiset CallKey := m.answered + m.held

theorem answersOf_append (rs rs' : List AgentRequest) :
    answersOf (rs ++ rs') = answersOf rs + answersOf rs' := by
  rw [answersOf, List.filter_append, List.filterMap_append]
  rfl

@[simp] theorem answersOf_nil : answersOf [] = 0 := rfl

theorem answersOf_singleton {r : AgentRequest} (hr : r.isDealing = true) :
    answersOf [r] = single r.answers := by
  rw [answersOf, List.filter_cons_of_pos hr]
  cases hk : r.answers <;> simp [hk]

theorem answersOf_responses {β : Type} (l : List β) (f : β → AgentTerminalRequestId)
    (r : AgentTerminalResponse) :
    answersOf (l.map fun x => .terminalResponse (f x) r) =
      ((l.map fun x => CallKey.terminal (f x) : List CallKey) : Multiset CallKey) := by
  induction l with
  | nil => rfl
  | cons x l ih =>
    rw [List.map_cons, ← List.singleton_append, answersOf_append, ih, answersOf_singleton rfl]
    rfl

theorem ledger_of_dealings (hd : m'.dealings = m.dealings) : m'.ledger = m.ledger := by
  have hanswered : ∀ m : Model, m.answered = m.dealings.answered := by
    intro m
    rw [answered, answered, answersOf, answersOf, dealings, List.filter_filter]
    simp only [Bool.and_self]
  have hpending : ∀ m : Model, m.pendingCall = m.dealings.pendingCall := by
    intro m
    cases ha : m.agent <;> simp [pendingCall, dealings, ha]
  have key : ∀ m : Model, m.ledger = m.dealings.ledger := by
    intro m
    rw [ledger, ledger, held, held, hanswered, hpending]
    rfl
  rw [key m', key m, hd]

theorem ledger_reply (m : Model) {r : AgentRequest} (hr : r.isDealing = true) :
    (m.reply r).ledger = single r.answers + m.ledger := by
  have ha : (m.reply r).answered = m.answered + single r.answers := by
    rw [answered, reply, answersOf_append, answersOf_singleton hr]
    rfl
  rw [ledger, ha, show (m.reply r).held = m.held from rfl, ledger]
  abel

theorem ledger_respondTerminal (m : Model) (request : AgentTerminalRequestId)
    (response : AgentTerminalResponse) :
    (m.respondTerminal request response).ledger = {.terminal request} + m.ledger :=
  ledger_reply m rfl

/-! ## Answering what is held -/

theorem coe_filter_add {α β : Type} (p q : α → Bool) (hq : ∀ a, q a = !p a) (f : α → β) (l : List α) :
    ((((l.filter p).map f : List β) : Multiset β) + (((l.filter q).map f : List β) : Multiset β)) =
      ((l.map f : List β) : Multiset β) := by
  rw [Multiset.coe_add, Multiset.coe_eq_coe, ← List.map_append, funext hq]
  exact (List.filter_append_perm p l).map f

theorem coe_eraseIdx_add {α β : Type} (f : α → β) {l : List α} {i : ℕ} {a : α} (hi : l[i]? = some a) :
    ({f a} : Multiset β) + (((l.eraseIdx i).map f : List β) : Multiset β) =
      ((l.map f : List β) : Multiset β) := by
  rw [← Multiset.coe_singleton, Multiset.coe_add, Multiset.coe_eq_coe]
  induction l generalizing i with
  | nil => simp at hi
  | cons b l ih =>
    cases i with
    | zero =>
      rw [List.getElem?_cons_zero] at hi
      rw [← Option.some.inj hi]
      rfl
    | succ i =>
      rw [List.getElem?_cons_succ] at hi
      rw [List.eraseIdx_cons_succ, List.map_cons, List.map_cons]
      exact (List.Perm.swap _ _ _).trans ((ih hi).cons _)

@[simp] theorem completeTerminalWaits_ledger (m : Model) (terminal : TerminalId)
    (response : AgentTerminalResponse) :
    (m.completeTerminalWaits terminal response).ledger = m.ledger := by
  have ha : (m.completeTerminalWaits terminal response).answered = m.answered +
      (((m.pendingTerminalWaits.filter (·.terminal = terminal)).map fun w =>
        CallKey.terminal w.request : List CallKey) : Multiset CallKey) := by
    rw [answered, completeTerminalWaits, answersOf_append, answersOf_responses]
    rfl
  have hw := coe_filter_add (fun w : PendingTerminalWait => decide (w.terminal = terminal))
    (fun w => decide (w.terminal ≠ terminal)) (fun w => by simp)
    (fun w => CallKey.terminal w.request) m.pendingTerminalWaits
  have hheld : (m.completeTerminalWaits terminal response).held = single m.pendingCall + m.creating +
      (((m.pendingTerminalWaits.filter (·.terminal ≠ terminal)).map fun w =>
        CallKey.terminal w.request : List CallKey) : Multiset CallKey) := rfl
  rw [ledger, ha, hheld, ledger, held, waitingFor, ← hw]
  abel

@[simp] theorem completeTerminalCreate_ledger (m : Model) (p : PendingTerminalCreate → Bool)
    (response : AgentTerminalResponse) : (m.completeTerminalCreate p response).ledger = m.ledger := by
  unfold completeTerminalCreate
  split
  · rfl
  · rename_i i _
    split
    · rfl
    · rename_i pending hi
      have he := coe_eraseIdx_add (fun c : PendingTerminalCreate => CallKey.terminal c.request) hi
      rw [ledger_respondTerminal, ledger, ledger, held, held]
      have hc : creating { m with pendingTerminalCreates := m.pendingTerminalCreates.eraseIdx i } =
          (((m.pendingTerminalCreates.eraseIdx i).map fun c => CallKey.terminal c.request :
            List CallKey) : Multiset CallKey) := rfl
      have hm : m.creating = ((m.pendingTerminalCreates.map fun c => CallKey.terminal c.request :
        List CallKey) : Multiset CallKey) := rfl
      rw [hc, hm, ← he]
      change _ + (m.answered + (single m.pendingCall + _ + m.waitingFor)) = _
      abel

theorem ledger_eq (ho : m'.agentOutbox = m.agentOutbox) (hp : m'.pendingCall = m.pendingCall)
    (hc : m'.pendingTerminalCreates = m.pendingTerminalCreates)
    (hw : m'.pendingTerminalWaits = m.pendingTerminalWaits) : m'.ledger = m.ledger := by
  rw [ledger, ledger, held, held, answered, answered, creating, creating, waitingFor, waitingFor,
    ho, hp, hc, hw]

theorem modifyTerminal_ledger (m : Model) (terminal : TerminalId)
    (f : TerminalSession → TerminalSession) : (m.modifyTerminal terminal f).ledger = m.ledger := by
  unfold modifyTerminal
  split <;> rfl

@[simp] theorem rejectPendingPermission_ledger (m : Model) (session : Option SessionId)
    (reason : String) : (m.rejectPendingPermission session reason).ledger = m.ledger := by
  unfold rejectPendingPermission
  split
  · rfl
  · rename_i agent ha
    split_ifs
    · split
      · rfl
      · rename_i pending hp
        have hclear : single (some pending.origin.call) +
            ledger { m with agent := some { agent with pendingPermission := none } } = m.ledger := by
          have hcall : m.pendingCall = some pending.origin.call := by
            rw [pendingCall, ha, Option.bind_some, hp]
            rfl
          rw [ledger, ledger, held, held, hcall]
          change _ + (m.answered + (0 + m.creating + m.waitingFor)) = _
          abel
        rw [← hclear]
        dsimp only
        split
        · rename_i request spec horigin
          rw [ledger_reply _ rfl, horigin]
          rfl
        · rename_i session request spec limit horigin
          rw [ledger_respondTerminal, horigin]
          rfl
    · rfl

theorem releaseEnded_ledger (reason : String) (m : Model) (t : TerminalSession) :
    (releaseEnded reason m t).ledger = m.ledger := by
  unfold releaseEnded
  rw [completeTerminalWaits_ledger, modifyTerminal_ledger]
  rfl

theorem cancelAgentTerminals_ledger (m : Model) (session : SessionId) (reason : String) :
    (m.cancelAgentTerminals session reason).ledger = m.ledger := by
  have hfold : ∀ (ts : List TerminalSession) (m : Model),
      (ts.foldl (releaseEnded reason) m).ledger = m.ledger := by
    intro ts
    induction ts with
    | nil => intro m; rfl
    | cons t ts ih => intro m; rw [List.foldl_cons, ih, releaseEnded_ledger]
  unfold cancelAgentTerminals
  dsimp only
  rw [hfold, ← rejectPendingPermission_ledger m (some session) reason]
  generalize m.rejectPendingPermission (some session) reason = m₁
  have hs := coe_filter_add (fun c : PendingTerminalCreate =>
      m₁.terminals.any fun t => t.id = c.terminal && t.owner = .agent session)
    (fun c => !(m₁.terminals.any fun t => t.id = c.terminal && t.owner = .agent session))
    (fun c => rfl) (fun c => CallKey.terminal c.request) m₁.pendingTerminalCreates
  rw [ledger, ledger, held, held, answered, answersOf_append, answersOf_responses]
  have hm : m₁.creating = ((m₁.pendingTerminalCreates.map fun c => CallKey.terminal c.request :
    List CallKey) : Multiset CallKey) := rfl
  rw [hm, ← hs]
  change m₁.answered + _ + (single m₁.pendingCall + (((m₁.pendingTerminalCreates.filter _).map _ :
    List CallKey) : Multiset CallKey) + m₁.waitingFor) = _
  abel

theorem cancelAgentTerminals_pendingCall {agent : AgentSession} (ha : m.agent = some agent)
    (reason : String) : (m.cancelAgentTerminals agent.id reason).pendingCall = none := by
  have hfold : ∀ (ts : List TerminalSession) (m : Model),
      (ts.foldl (releaseEnded reason) m).pendingCall = m.pendingCall := by
    intro ts
    induction ts with
    | nil => intro m; rfl
    | cons t ts ih =>
      intro m
      rw [List.foldl_cons, ih, releaseEnded]
      unfold modifyTerminal
      split <;> rfl
  unfold cancelAgentTerminals
  dsimp only
  rw [hfold]
  change (m.rejectPendingPermission (some agent.id) reason).pendingCall = none
  unfold rejectPendingPermission
  rw [ha]
  dsimp only
  rw [if_pos (by simp)]
  split
  · rename_i hp
    rw [pendingCall, ha, Option.bind_some, hp]
    rfl
  · split <;> rfl

theorem shutdownTerminals_ledger (m : Model) : m.shutdownTerminals.ledger = m.ledger := by
  unfold shutdownTerminals
  dsimp only
  rw [← rejectPendingPermission_ledger m none "application shutting down"]
  generalize m.rejectPendingPermission none "application shutting down" = m₁
  rw [ledger, ledger, held, held, answered, answersOf_append, answersOf_append,
    answersOf_responses, answersOf_responses]
  change m₁.answered + m₁.creating + m₁.waitingFor + (single m₁.pendingCall + 0 + 0) = _
  abel

theorem onPtyEvent_ledger (h : Host) (m : Model) (e : PtyEvent) :
    (m.onPtyEvent h e).ledger = m.ledger := by
  unfold onPtyEvent
  dsimp only
  split
  · rfl
  · split_ifs
    · rfl
    · cases e with
      | spawned => rw [absorbPtyEvent, completeTerminalCreate_ledger, modifyTerminal_ledger]
      | output =>
        rw [absorbPtyEvent]
        split_ifs
        · rfl
        · exact modifyTerminal_ledger ..
      | exited => rw [absorbPtyEvent, completeTerminalWaits_ledger, modifyTerminal_ledger]
      | failed =>
        rw [absorbPtyEvent]
        split
        · rfl
        · rw [completeTerminalWaits_ledger, completeTerminalCreate_ledger]
          exact modifyTerminal_ledger ..

theorem createTerminalWithLimit_ledger (m : Model) (spec : TerminalSpec) (owner : TerminalOwner)
    (limit : ℕ) : (m.createTerminalWithLimit spec owner limit).2.ledger = m.ledger := by
  unfold createTerminalWithLimit
  dsimp only
  split
  · split_ifs <;> rfl
  · rfl

theorem newShellTerminal_ledger (h : Host) (m : Model) : (m.newShellTerminal h).ledger = m.ledger :=
  createTerminalWithLimit_ledger m _ _ _

theorem toggleTerminalFocus_ledger (h : Host) (m : Model) :
    (m.toggleTerminalFocus h).ledger = m.ledger := by
  unfold toggleTerminalFocus
  split_ifs
  · rfl
  · exact newShellTerminal_ledger h m
  · rfl

theorem cycleTerminal_ledger (h : Host) (m : Model) (delta : Int) :
    (m.cycleTerminal h delta).ledger = m.ledger := by
  unfold cycleTerminal
  split_ifs
  · exact newShellTerminal_ledger h m
  · rfl

theorem restartTerminal_ledger (hr : m.restartTerminal h = some m') : m'.ledger = m.ledger := by
  unfold restartTerminal at hr
  split at hr
  · exact Option.some.inj hr ▸ newShellTerminal_ledger h m
  · obtain ⟨t, -, rfl⟩ := Option.map_eq_some_iff.mp hr
    dsimp only
    split
    · rfl
    · exact completeTerminalWaits_ledger m t.id _

theorem removeTerminal_ledger (m : Model) (terminal : TerminalId) (kill : Bool) :
    (m.removeTerminal terminal kill).ledger = m.ledger := by
  unfold removeTerminal
  split
  · rfl
  · split
    · rfl
    · exact (completeTerminalWaits_ledger ..).trans (completeTerminalCreate_ledger ..)

theorem closeTerminal_ledger (m : Model) : m.closeTerminal.ledger = m.ledger := by
  unfold closeTerminal
  split
  · rfl
  · split_ifs
    · rfl
    · exact removeTerminal_ledger m _ _

/-! ## Taking a call in -/

theorem spawnAgentTerminal_ledger (m : Model) (session : SessionId)
    (request : AgentTerminalRequestId) (spec : TerminalSpec) (limit : ℕ) :
    (m.spawnAgentTerminal session request spec limit).ledger = {.terminal request} + m.ledger := by
  have hc : (m.spawnAgentTerminal session request spec limit).held =
      m.held + {.terminal request} := by
    have hcreating : (m.spawnAgentTerminal session request spec limit).creating =
        m.creating + {.terminal request} := by
      unfold spawnAgentTerminal createTerminalWithLimit
      dsimp only
      rw [creating, creating, ← Multiset.coe_singleton, Multiset.coe_add]
      split_ifs <;> simp [List.map_append, sendPty]
    have hrest : (m.spawnAgentTerminal session request spec limit).pendingCall = m.pendingCall ∧
        (m.spawnAgentTerminal session request spec limit).waitingFor = m.waitingFor := by
      unfold spawnAgentTerminal createTerminalWithLimit
      dsimp only
      split_ifs <;> exact ⟨rfl, rfl⟩
    rw [held, held, hcreating, hrest.1, hrest.2]
    abel
  have ha : (m.spawnAgentTerminal session request spec limit).answered = m.answered := by
    unfold spawnAgentTerminal createTerminalWithLimit
    dsimp only
    split_ifs <;> rfl
  rw [ledger, ha, hc, ledger]
  abel

theorem ledger_hold {agent : AgentSession} {pending : PendingPermission}
    {proposals : List EditProposal} (ha : m.agent = some agent)
    (hp : agent.pendingPermission = none) :
    ledger { m with agent := some { agent with proposals, pendingPermission := some pending } } =
      {pending.origin.call} + m.ledger := by
  have hcall : m.pendingCall = none := by
    rw [pendingCall, ha, Option.bind_some, hp]
    rfl
  rw [ledger, ledger, held, held, hcall]
  change m.answered + ({pending.origin.call} + m.creating + m.waitingFor) =
    _ + (m.answered + (0 + m.creating + m.waitingFor))
  abel

theorem createForAgent_ledger {agent : AgentSession} (ha : m.agent = some agent)
    (session : SessionId) (request : AgentTerminalRequestId) (spec : TerminalSpec) (limit : ℕ)
    (preauthorized : Bool) :
    (m.createForAgent session request spec limit preauthorized).ledger =
      {.terminal request} + m.ledger := by
  unfold createForAgent
  split_ifs
  · exact spawnAgentTerminal_ledger ..
  · rw [ha]
    dsimp only
    split_ifs with hfree
    · exact ledger_respondTerminal ..
    · exact ledger_hold ha (Option.not_isSome_iff_eq_none.mp hfree)

theorem withAgentTerminal_ledger {session : SessionId} {request : AgentTerminalRequestId}
    {terminal : TerminalId} {f : ℕ → TerminalSession → Model}
    (hf : ∀ i t, (f i t).ledger = {.terminal request} + m.ledger) :
    (m.withAgentTerminal session request terminal f).ledger = {.terminal request} + m.ledger := by
  unfold withAgentTerminal
  dsimp only
  split
  · exact ledger_respondTerminal ..
  · exact hf _ _

theorem handleAgentTerminal_ledger (h : Host) (m : Model) (session : SessionId)
    (request : AgentTerminalRequestId) (operation : AgentTerminalOperation) :
    (m.handleAgentTerminal h session request operation).ledger =
      {.terminal request} + m.ledger := by
  unfold handleAgentTerminal
  split_ifs with hsession
  · exact ledger_respondTerminal ..
  · obtain ⟨agent, ha⟩ : ∃ agent, m.agent = some agent := by
      cases ha : m.agent with
      | none => rw [ha] at hsession; exact absurd rfl hsession
      | some agent => exact ⟨agent, rfl⟩
    cases operation with
    | create => exact createForAgent_ledger ha ..
    | output => exact withAgentTerminal_ledger fun _ _ => ledger_respondTerminal ..
    | waitForExit terminal =>
      refine withAgentTerminal_ledger fun _ t => ?_
      split
      · exact ledger_respondTerminal ..
      · exact ledger_respondTerminal ..
      · rw [ledger, held, waitingFor]
        change m.answered + (single m.pendingCall + m.creating +
          ((List.map _ (m.pendingTerminalWaits ++ [⟨request, terminal⟩]) : List CallKey) :
            Multiset CallKey)) = _
        rw [List.map_append, ← Multiset.coe_add]
        change m.answered + (single m.pendingCall + m.creating +
          (m.waitingFor + {CallKey.terminal request})) = _ + (m.answered + m.held)
        rw [held]
        abel
    | kill =>
      refine withAgentTerminal_ledger fun _ t => ?_
      rw [ledger_respondTerminal, completeTerminalWaits_ledger]
      rfl
    | release =>
      refine withAgentTerminal_ledger fun _ t => ?_
      dsimp only
      rw [ledger_respondTerminal, completeTerminalWaits_ledger]
      rfl

/-! ## Judgement -/

theorem answerPermission_ledger (m : Model) (pending : PendingPermission)
    (decision : PermissionDecision) :
    (m.answerPermission pending decision).ledger = {pending.origin.call} + m.ledger := by
  have hremember : ∀ spec, (m.rememberPermission spec).ledger = m.ledger := fun spec =>
    ledger_of_dealings (rememberPermission_dealings m spec)
  unfold answerPermission
  split
  · rename_i request spec horigin
    rw [ledger_reply _ rfl, horigin]
    refine congrArg (({CallKey.permission request} : Multiset CallKey) + ·) ?_
    split
    · split_ifs
      · exact hremember _
      · rfl
    · rfl
  · rename_i session request spec limit horigin
    rw [horigin]
    dsimp only
    split_ifs
    · rw [spawnAgentTerminal_ledger, hremember]
      rfl
    · exact spawnAgentTerminal_ledger ..
    · exact ledger_respondTerminal ..

theorem decidePermission_ledger {decision : PermissionDecision}
    (hd : m.decidePermission h decision = some m') : m'.ledger = m.ledger := by
  rcases decidePermission_dealings hd with ⟨rfl, -⟩ | ⟨agent, pending, m₁, ha, hp, hm₁, hm'⟩
  · rfl
  · rw [ledger_of_dealings hm', answerPermission_ledger, ledger_of_dealings hm₁]
    have hcall : m.pendingCall = some pending.origin.call := by
      rw [pendingCall, ha, Option.bind_some, hp]
      rfl
    rw [ledger, ledger, held, held, hcall]
    change {pending.origin.call} + (m.answered + (0 + m.creating + m.waitingFor)) =
      m.answered + ({pending.origin.call} + m.creating + m.waitingFor)
    abel

/-- Judging a proposal that no permission gates answers under the proposal's own number. -/
theorem resolveProposal_ledger {accept : Bool} (hr : m.resolveProposal h accept = some m') :
    m'.ledger = m.ledger ∨ (m.gatedFirst = false ∧ ∃ agent p rest, m.agent = some agent ∧
      agent.proposals = p :: rest ∧ m'.ledger = {.permission ⟨p.id.val⟩} + m.ledger) := by
  rcases resolveProposal_dealings hr with
    ⟨-, m₁, decision, hd, hm'⟩ | hm' | ⟨hg, agent, p, rest, decision, ha, hp, hm'⟩
  · rw [ledger_of_dealings hm']
    exact .inl (decidePermission_ledger hd)
  · exact .inl (ledger_of_dealings hm')
  · refine .inr ⟨hg, agent, p, rest, ha, hp, ?_⟩
    have hdrop : ledger { m with agent := some { agent with proposals := rest } } = m.ledger := by
      refine ledger_eq rfl ?_ rfl rfl
      rw [pendingCall, pendingCall, ha]
      rfl
    rw [ledger_of_dealings hm', ledger_reply _ rfl, hdrop]
    rfl

theorem receivePermission_ledger {session : SessionId} {request : PermissionRequestId}
    {summary : String} {command : List String} {spec : Option TerminalSpec}
    {edit : Option ProposedEditDiff}
    (hr : m.receivePermission h session request summary command spec edit = some m') :
    m'.ledger = {.permission request} + m.ledger := by
  rcases receivePermission_dealings hr with rfl | ⟨agent, _, review, shown, ha, -, hp, -, hm'⟩
  · exact ledger_reply m rfl
  · rw [ledger_of_dealings hm']
    exact ledger_hold ha hp

theorem startSession_ledger (h : Host) (m : Model) (session : SessionId) :
    (m.startSession h session).ledger = m.ledger := by
  have hopen : ∀ (m₂ : Model) (pendingPrompt : Option String), m₂.pendingCall = none →
      ledger { m₂ with agent := some { id := session }, pendingPrompt } = m₂.ledger :=
    fun _ _ hfree => ledger_eq rfl hfree.symm rfl rfl
  -- the new session has nothing pending, so nothing may be pending in the old one
  refine startSession_spec (P := fun m' => m'.ledger = m.ledger)
    (R := fun m' => m'.pendingCall = none ∧ m'.ledger = m.ledger)
    (Q := fun m' => m'.ledger = m.ledger) h session rfl rfl (fun m₁ h₁ ha => ⟨?_, h₁⟩)
    (fun m₁ previous h₁ ha => ⟨cancelAgentTerminals_pendingCall ha _,
      (cancelAgentTerminals_ledger m₁ _ _).trans h₁⟩)
    (fun m₂ h₂ => (hopen m₂ m₂.pendingPrompt h₂.1).trans h₂.2) fun m₂ text h₂ => ?_
  · rw [pendingCall, ha]
    rfl
  · refine Eq.trans ?_ h₂.2
    unfold sendPrompt
    rw [ledger_reply _ rfl, ← hopen m₂ none h₂.1]
    exact zero_add _

theorem restoreSession_ledger (h : Host) (m : Model) (w : RestoredWorkspace) :
    (m.restoreSession h w).ledger = m.ledger := by
  have hread : ∀ (paths : List Path) (m : Model), (m.openRestored paths).1.ledger = m.ledger := by
    intro paths
    induction paths with
    | nil => intro m; rfl
    | cons path rest ih =>
      intro m
      exact (ih _).trans (ledger_of_dealings (openFile_dealings m path))
  have hterm : ∀ (ts : List Path) (m : Model), (ts.foldl (fun m cwd =>
      m.createTerminal (h.shell cwd) .humanShell) m).ledger = m.ledger := by
    intro ts
    induction ts with
    | nil => intro m; rfl
    | cons t ts ih => intro m; exact (ih _).trans (createTerminalWithLimit_ledger m _ _ _)
  unfold restoreSession
  dsimp only
  split_ifs
  · exact (hterm _ _).trans ((hread _ _).trans rfl)
  · exact (hterm _ _).trans ((hread w.openPaths (m.openWorkspace w.root w.configured)).trans rfl)

/-! ## Steps -/

/-- The terminal or permission call an event makes. -/
def calls : Event → Multiset CallKey
  | .agent (.terminalRequest _ request _) => {.terminal request}
  | .agent (.permissionRequested _ request _ _ _ _) => {.permission request}
  | _ => 0

/-- The answers an event takes out of the outbox. -/
def collected (m : Model) : Event → Multiset CallKey
  | .takeAgentRequests => m.answered
  | _ => 0

theorem confirmPrompt_ledger {prompt : Prompt} (hs : m.confirmPrompt h prompt = some m') :
    m'.ledger = m.ledger := by
  by_cases hq : (Event.confirmPrompt prompt).Quiet
  · exact ledger_of_dealings (confirmPrompt_dealings hq hs)
  · unfold confirmPrompt at hs
    rw [Event.Quiet] at hq
    dsimp only at hs
    split at hq
    · rename_i terminal hk
      rw [hk] at hs
      exact Option.some.inj hs ▸ removeTerminal_ledger m terminal true
    · rename_i hk
      rw [hk] at hs
      rw [← Option.some.inj hs]
      split_ifs
      · rfl
      · exact createTerminalWithLimit_ledger m _ _ _
    · rename_i session hk
      rw [hk] at hs
      rw [← Option.some.inj hs]
      split_ifs
      · rfl
      · unfold sendPrompt
        rw [ledger_reply _ rfl]
        refine (zero_add _).trans (ledger_eq rfl ?_ rfl rfl)
        cases ha : m.agent <;> simp [pendingCall, modifyAgent, ha]
      · unfold newAgentSession
        dsimp only
        split
        · rename_i cwd _
          exact ledger_of_dealings (m := { m with pendingPrompt := some (trim prompt.input) })
            (by simp [dealings, reply, notify, AgentRequest.isDealing])
        · rfl
    · exact absurd trivial hq

theorem onAgentEvent_ledger {e : AgentEvent} (hs : m.onAgentEvent h e = some m') :
    m'.ledger = calls (.agent e) + m.ledger := by
  have hquiet : ∀ f : AgentSession → AgentSession,
      (∀ a, (f a).pendingPermission = a.pendingPermission) →
      (m.modifyAgent f).ledger = m.ledger := by
    intro f hf
    refine ledger_eq rfl ?_ rfl rfl
    cases ha : m.agent <;> simp [pendingCall, modifyAgent, ha, hf]
  have hcancel : ∀ (session : SessionId) (reason : String),
      ((m.modifyAgent fun agent => { agent with turnActive := false }).cancelAgentTerminals session
        reason).ledger = m.ledger :=
    fun session reason => (cancelAgentTerminals_ledger _ session reason).trans (hquiet _ fun _ => rfl)
  have hkeep : calls (.agent e) = 0 → m'.ledger = m.ledger →
      m'.ledger = calls (.agent e) + m.ledger := by
    intro hc hl
    rw [hc, hl, zero_add]
  cases e with
  | ready => exact hkeep rfl (Option.some.inj hs ▸ rfl)
  | modesAvailable session current available =>
    refine hkeep rfl (Option.some.inj hs ▸ hquiet _ fun a => ?_)
    split_ifs <;> rfl
  | modeChanged session mode =>
    refine hkeep rfl ?_
    rw [onAgentEvent] at hs
    split at hs
    · exact Option.some.inj hs ▸ rfl
    · rename_i a ha
      rw [← Option.some.inj hs]
      refine ledger_eq rfl ?_ rfl rfl
      rw [pendingCall, pendingCall, (Option.filter_eq_some_iff.mp ha).1]
      rfl
  | sessionStarted session => exact hkeep rfl (Option.some.inj hs ▸ startSession_ledger h m session)
  | messageChunk _ text | thoughtChunk _ text =>
    refine hkeep rfl ?_
    rw [← Option.some.inj hs]
    unfold pushTranscript
    split
    · rfl
    · rename_i a ha
      refine ledger_eq rfl ?_ rfl rfl
      rw [pendingCall, pendingCall, ha]
      rfl
  | readFileRequested session request path =>
    refine hkeep rfl ?_
    rw [← Option.some.inj hs]
    unfold serveRead
    split
    · exact ledger_of_dealings (by simp [dealings, reply, AgentRequest.isDealing])
    · split_ifs
      · rfl
      · exact ledger_of_dealings (by simp [dealings, reply, AgentRequest.isDealing])
  | proposedEdit =>
    refine hkeep rfl ?_
    rcases receiveProposal_dealings hs with hm' | ⟨p, -, hm'⟩
    · exact ledger_of_dealings hm'
    · exact (ledger_of_dealings hm').trans (hquiet _ fun _ => rfl)
  | permissionRequested => exact receivePermission_ledger hs
  | terminalRequest => exact Option.some.inj hs ▸ handleAgentTerminal_ledger h m _ _ _
  | terminalAttached session terminal =>
    refine hkeep rfl (Option.some.inj hs ▸ hquiet _ fun a => ?_)
    split_ifs <;> rfl
  | turnEnded session reason =>
    refine hkeep rfl ?_
    rw [← Option.some.inj hs]
    split_ifs
    · exact hcancel session _
    · exact hquiet _ fun _ => rfl
  | failed session message => exact hkeep rfl (Option.some.inj hs ▸ hcancel session _)

/-- **What one event does to the calls.** The call it makes is one more entry; only judging a
proposal that no permission gates answers anything else. -/
theorem step_ledger {ev : Event} (hs : m.step h ev = some m') :
    collected m ev + m'.ledger = calls ev + m.ledger ∨
      (calls ev = 0 ∧ collected m ev = 0 ∧ m.gatedFirst = false ∧ ∃ agent p rest,
        m.agent = some agent ∧ agent.proposals = p :: rest ∧
        m'.ledger = {.permission ⟨p.id.val⟩} + m.ledger) := by
  have hkeep : calls ev = 0 → collected m ev = 0 → m'.ledger = m.ledger →
      collected m ev + m'.ledger = calls ev + m.ledger := by
    intro hc ht hl
    rw [hc, ht, hl]
  by_cases hq : ev.Quiet
  · refine .inl (hkeep ?_ ?_ (ledger_of_dealings (step_dealings hq hs)))
    · cases ev with
      | agent => exact hq.elim
      | _ => rfl
    · cases ev with
      | takeAgentRequests => exact hq.elim
      | _ => rfl
  · cases ev with
    | dispatch cmd =>
      obtain ⟨m₁, hm, hsync⟩ := Option.bind_eq_some_iff.mp hs
      rw [ledger_of_dealings (dealings_of_outline (syncAll_outline hsync))]
      have hkeep : m₁.ledger = m.ledger → collected m (.dispatch cmd) + m₁.ledger =
          calls (.dispatch cmd) + m.ledger := fun hl => congrArg (0 + ·) hl
      have hjudge : ∀ accept, resolveProposal h { m with notification := none } accept = some m₁ →
          m₁.ledger = m.ledger ∨ (m.gatedFirst = false ∧ ∃ agent p rest, m.agent = some agent ∧
            agent.proposals = p :: rest ∧ m₁.ledger = {.permission ⟨p.id.val⟩} + m.ledger) :=
        fun _ hr => resolveProposal_ledger (m := { m with notification := none }) hr
      cases cmd with
      | proposalAccept => exact (hjudge true hm).imp hkeep fun hx => ⟨rfl, rfl, hx⟩
      | proposalReject => exact (hjudge false hm).imp hkeep fun hx => ⟨rfl, rfl, hx⟩
      | agentAllowOnce | agentAllowAlways | agentDeny =>
        exact .inl (hkeep ((decidePermission_ledger hm).trans rfl))
      | terminalFocus =>
        exact .inl (hkeep (Option.some.inj hm ▸ (toggleTerminalFocus_ledger h _).trans rfl))
      | terminalNew => exact .inl (hkeep (Option.some.inj hm ▸ (newShellTerminal_ledger h _).trans rfl))
      | terminalNext | terminalPrevious =>
        exact .inl (hkeep (Option.some.inj hm ▸ (cycleTerminal_ledger h _ _).trans rfl))
      | terminalRestart => exact .inl (hkeep ((restartTerminal_ledger hm).trans rfl))
      | terminalClose => exact .inl (hkeep (Option.some.inj hm ▸ (closeTerminal_ledger _).trans rfl))
      | _ => exact absurd trivial hq
    | confirmPrompt prompt => exact .inl (hkeep rfl rfl (confirmPrompt_ledger hs))
    | restoreSession w =>
      exact .inl (hkeep rfl rfl (Option.some.inj hs ▸ restoreSession_ledger h m w))
    | decidePermission decision => exact .inl (hkeep rfl rfl (decidePermission_ledger hs))
    | agent e => exact .inl ((zero_add _).trans (onAgentEvent_ledger hs))
    | pty e => exact .inl (hkeep rfl rfl (Option.some.inj hs ▸ onPtyEvent_ledger h m e))
    | shutdownTerminals => exact .inl (hkeep rfl rfl (Option.some.inj hs ▸ shutdownTerminals_ledger m))
    | takeAgentRequests =>
      refine .inl ?_
      rw [← Option.some.inj hs]
      change m.answered + (0 + m.held) = 0 + (m.answered + m.held)
      abel
    | _ => exact absurd trivial hq

end Model

end App

end Termesh
