import Termesh.App.Dealings

/-!
# Turns and reviews

Of the dealings between the model and the agent, `parley` keeps whose turn it is: the session with
its turn, the proposal its pending permission gates, the ids of its proposals, and the prompts queued
for it. Terminals keep the parley, and withdrawing a permission withdraws the review only.

* `Talk`, `parley`, `parley_of_dealings`;
* `ParleyStep`, **`step_parley`**: all that an event can do to it.
-/

namespace Termesh

/-- The session a prompt names. -/
def AgentRequest.prompted : AgentRequest → Option SessionId
  | .prompt session _ _ => some session
  | _ => none

namespace App

/-- A session as far as turns and reviews go: whether its turn is active, the proposal its pending
permission gates, and the ids of its proposals. -/
structure Talk where
  id : SessionId
  turnActive : Bool := false
  review : Option ProposalId := none
  proposals : List ProposalId := []
deriving DecidableEq, Repr

/-- Without a permission pending. -/
def Talk.withdraw (t : Talk) : Talk := { t with review := none }

/-- Once the permission is answered: the proposal it gates is gone as well. -/
def Talk.answer (t : Talk) : Talk :=
  { t with
    review := none
    proposals := match t.review with
      | none => t.proposals
      | some reviewed => t.proposals.filter (· ≠ reviewed) }

def talk (a : AgentSession) : Talk :=
  ⟨a.id, a.turnActive, a.pendingPermission.bind (·.review), a.proposals.map (·.id)⟩

namespace Model

variable {h : Host} {m m' : Model}

/-- The prompts queued for the agent. -/
def prompts (m : Model) : List SessionId := m.agentOutbox.filterMap AgentRequest.prompted

/-- The session as `Talk`, and the prompts queued. -/
def parley (m : Model) : Option Talk × List SessionId := (m.agent.map talk, m.prompts)

theorem parley_some {a : AgentSession} (ha : m.agent = some a) :
    m.parley = (some (talk a), m.prompts) := by
  rw [parley, ha]
  rfl

theorem prompted_of_not_dealing {l : List AgentRequest} :
    (l.filter AgentRequest.isDealing).filterMap AgentRequest.prompted =
      l.filterMap AgentRequest.prompted := by
  induction l with
  | nil => rfl
  | cons r l ih =>
    cases r with
    | newSession | setMode | fileContents | cancel | shutdown => exact ih
    | permission | permissionCancelled | terminalResponse => exact ih
    | prompt session text context => exact congrArg (session :: ·) ih

theorem parley_of_dealings (hd : m'.dealings = m.dealings) : m'.parley = m.parley := by
  have key : ∀ m : Model, m.parley = m.dealings.parley := by
    intro m
    refine Prod.ext ?_ prompted_of_not_dealing.symm
    simp only [parley, dealings, Option.map_map]
    congr 1
    funext a
    simp only [Function.comp_apply, talk, List.map_map]
    rfl
  rw [key m', key m, hd]

theorem parley_of_outline (ho : m'.outline = m.outline) : m'.parley = m.parley :=
  parley_of_dealings (dealings_of_outline ho)

theorem parley_reply (m : Model) {r : AgentRequest} (hr : r.prompted = none) :
    (m.reply r).parley = m.parley := by
  simp [parley, prompts, reply, hr]

@[simp] theorem parley_respondTerminal (m : Model) (request : AgentTerminalRequestId)
    (response : AgentTerminalResponse) : (m.respondTerminal request response).parley = m.parley :=
  parley_reply m rfl

theorem prompted_responses {β : Type} (l : List β) (f : β → AgentTerminalRequestId)
    (r : AgentTerminalResponse) :
    (l.map fun x => AgentRequest.terminalResponse (f x) r).filterMap AgentRequest.prompted = [] := by
  rw [List.filterMap_eq_nil_iff]
  intro x hx
  obtain ⟨y, -, rfl⟩ := List.mem_map.mp hx
  rfl

theorem parley_modifyAgent (m : Model) {f : AgentSession → AgentSession} {g : Talk → Talk}
    (hf : ∀ a, talk (f a) = g (talk a)) : (m.modifyAgent f).parley = (m.parley.1.map g, m.prompts) := by
  refine Prod.ext ?_ rfl
  simp only [parley, modifyAgent, Option.map_map]
  congr 1
  funext a
  exact hf a

theorem parley_modifyAgent_self (m : Model) {f : AgentSession → AgentSession}
    (hf : ∀ a, talk (f a) = talk a) : (m.modifyAgent f).parley = m.parley := by
  rw [parley_modifyAgent m (g := id) hf, Option.map_id]
  rfl

/-! ## Terminals -/

@[simp] theorem parley_modifyTerminal (m : Model) (terminal : TerminalId)
    (f : TerminalSession → TerminalSession) : (m.modifyTerminal terminal f).parley = m.parley := by
  unfold modifyTerminal
  split <;> rfl

@[simp] theorem parley_completeTerminalWaits (m : Model) (terminal : TerminalId)
    (response : AgentTerminalResponse) :
    (m.completeTerminalWaits terminal response).parley = m.parley := by
  refine Prod.ext rfl ?_
  rw [parley, parley, prompts, prompts, completeTerminalWaits, List.filterMap_append,
    prompted_responses, List.append_nil]

@[simp] theorem parley_completeTerminalCreate (m : Model) (p : PendingTerminalCreate → Bool)
    (response : AgentTerminalResponse) : (m.completeTerminalCreate p response).parley = m.parley := by
  unfold completeTerminalCreate
  split
  · rfl
  · split
    · rfl
    · exact parley_respondTerminal ..

@[simp] theorem createTerminalWithLimit_parley (m : Model) (spec : TerminalSpec)
    (owner : TerminalOwner) (limit : ℕ) :
    (m.createTerminalWithLimit spec owner limit).2.parley = m.parley := by
  unfold createTerminalWithLimit
  dsimp only
  split
  · split_ifs <;> rfl
  · rfl

theorem newShellTerminal_parley (h : Host) (m : Model) : (m.newShellTerminal h).parley = m.parley :=
  createTerminalWithLimit_parley m _ _ _

theorem toggleTerminalFocus_parley (h : Host) (m : Model) :
    (m.toggleTerminalFocus h).parley = m.parley := by
  unfold toggleTerminalFocus
  split_ifs
  · rfl
  · exact newShellTerminal_parley h m
  · rfl

theorem cycleTerminal_parley (h : Host) (m : Model) (delta : Int) :
    (m.cycleTerminal h delta).parley = m.parley := by
  unfold cycleTerminal
  split_ifs
  · exact newShellTerminal_parley h m
  · rfl

theorem restartTerminal_parley (hr : m.restartTerminal h = some m') : m'.parley = m.parley := by
  unfold restartTerminal at hr
  split at hr
  · exact Option.some.inj hr ▸ newShellTerminal_parley h m
  · obtain ⟨t, -, rfl⟩ := Option.map_eq_some_iff.mp hr
    dsimp only
    split
    · rfl
    · exact parley_completeTerminalWaits m t.id _

theorem removeTerminal_parley (m : Model) (terminal : TerminalId) (kill : Bool) :
    (m.removeTerminal terminal kill).parley = m.parley := by
  unfold removeTerminal
  split
  · rfl
  · split
    · rfl
    · exact (parley_completeTerminalWaits ..).trans (parley_completeTerminalCreate ..)

theorem closeTerminal_parley (m : Model) : m.closeTerminal.parley = m.parley := by
  unfold closeTerminal
  split
  · rfl
  · split_ifs
    · rfl
    · exact removeTerminal_parley m _ _

@[simp] theorem spawnAgentTerminal_parley (m : Model) (session : SessionId)
    (request : AgentTerminalRequestId) (spec : TerminalSpec) (limit : ℕ) :
    (m.spawnAgentTerminal session request spec limit).parley = m.parley :=
  createTerminalWithLimit_parley m spec (.agent session) limit

theorem createForAgent_parley (m : Model) (session : SessionId) (request : AgentTerminalRequestId)
    (spec : TerminalSpec) (limit : ℕ) (preauthorized : Bool) :
    (m.createForAgent session request spec limit preauthorized).parley = m.parley := by
  unfold createForAgent
  split_ifs
  · exact spawnAgentTerminal_parley ..
  · split
    · rfl
    · rename_i agent ha
      split_ifs
      · exact parley_respondTerminal ..
      · rename_i hfree
        rw [parley_some ha]
        refine Prod.ext (congrArg some ?_) rfl
        rw [talk, talk, Option.not_isSome_iff_eq_none.mp hfree]
        rfl

theorem withAgentTerminal_parley {session : SessionId} {request : AgentTerminalRequestId}
    {terminal : TerminalId} {f : ℕ → TerminalSession → Model} (hf : ∀ i t, (f i t).parley = m.parley) :
    (m.withAgentTerminal session request terminal f).parley = m.parley := by
  unfold withAgentTerminal
  dsimp only
  split
  · exact parley_respondTerminal ..
  · exact hf _ _

theorem handleAgentTerminal_parley (h : Host) (m : Model) (session : SessionId)
    (request : AgentTerminalRequestId) (operation : AgentTerminalOperation) :
    (m.handleAgentTerminal h session request operation).parley = m.parley := by
  unfold handleAgentTerminal
  split_ifs
  · exact parley_respondTerminal ..
  · cases operation with
    | create => exact createForAgent_parley ..
    | output => exact withAgentTerminal_parley fun _ _ => parley_respondTerminal ..
    | waitForExit =>
      refine withAgentTerminal_parley fun _ t => ?_
      split
      · exact parley_respondTerminal ..
      · exact parley_respondTerminal ..
      · rfl
    | kill =>
      exact withAgentTerminal_parley fun _ t => (parley_respondTerminal ..).trans
        (parley_completeTerminalWaits (m.sendPty (.kill _ t.generation)) _ _)
    | release =>
      exact withAgentTerminal_parley fun _ t => (parley_respondTerminal ..).trans
        ((parley_completeTerminalWaits _ _ _).trans rfl)

/-- Withdrawing a permission withdraws its review. -/
theorem rejectPendingPermission_parley (m : Model) (session : Option SessionId) (reason : String) :
    (m.rejectPendingPermission session reason).parley =
      (m.parley.1.map fun t => if session.all (t.id = ·) then t.withdraw else t, m.prompts) := by
  unfold rejectPendingPermission
  cases ha : m.agent with
  | none => exact Prod.ext (by simp [parley, ha]) rfl
  | some agent =>
    dsimp only
    by_cases hs : session.all fun s => agent.id = s
    · have hparley : (m.parley.1.map fun t => if session.all (t.id = ·) then t.withdraw else t) =
          some (talk agent).withdraw := by
        rw [parley_some ha]
        exact congrArg some (if_pos hs)
      rw [if_pos hs, hparley]
      cases hp : agent.pendingPermission with
      | none =>
        dsimp only
        rw [parley_some ha]
        refine Prod.ext (congrArg some ?_) rfl
        rw [Talk.withdraw, talk, hp]
        rfl
      | some pending =>
        dsimp only
        split
        · exact (parley_reply _ rfl).trans rfl
        · exact (parley_respondTerminal ..).trans rfl
    · rw [if_neg hs, parley_some ha]
      exact Prod.ext (congrArg some (if_neg hs).symm) rfl

@[simp] theorem releaseEnded_parley (reason : String) (m : Model) (t : TerminalSession) :
    (releaseEnded reason m t).parley = m.parley := by
  unfold releaseEnded
  rw [parley_completeTerminalWaits, parley_modifyTerminal]
  rfl

theorem cancelAgentTerminals_parley (m : Model) (session : SessionId) (reason : String) :
    (m.cancelAgentTerminals session reason).parley =
      (m.parley.1.map fun t => if t.id = session then t.withdraw else t, m.prompts) := by
  have hfold : ∀ (ts : List TerminalSession) (m : Model),
      (ts.foldl (releaseEnded reason) m).parley = m.parley := by
    intro ts
    induction ts with
    | nil => intro m; rfl
    | cons t ts ih => intro m; rw [List.foldl_cons, ih, releaseEnded_parley]
  have hreject := rejectPendingPermission_parley m (some session) reason
  simp only [Option.all_some, decide_eq_true_eq] at hreject
  unfold cancelAgentTerminals
  dsimp only
  rw [hfold, ← hreject]
  refine Prod.ext rfl ?_
  rw [parley, parley, prompts, prompts, List.filterMap_append, prompted_responses, List.append_nil]

theorem shutdownTerminals_parley (m : Model) :
    m.shutdownTerminals.parley = (m.parley.1.map Talk.withdraw, m.prompts) := by
  have hreject := rejectPendingPermission_parley m none "application shutting down"
  simp only [Option.all_none, if_true] at hreject
  unfold shutdownTerminals
  dsimp only
  rw [← hreject]
  refine Prod.ext rfl ?_
  rw [parley, parley, prompts, prompts, List.filterMap_append, List.filterMap_append,
    prompted_responses, prompted_responses, List.append_nil, List.append_nil]

theorem onPtyEvent_parley (h : Host) (m : Model) (e : PtyEvent) :
    (m.onPtyEvent h e).parley = m.parley := by
  unfold onPtyEvent
  dsimp only
  split
  · rfl
  · split_ifs
    · rfl
    · cases e with
      | spawned => rw [absorbPtyEvent, parley_completeTerminalCreate, parley_modifyTerminal]
      | output =>
        rw [absorbPtyEvent]
        split_ifs
        · rfl
        · exact parley_modifyTerminal ..
      | exited => rw [absorbPtyEvent, parley_completeTerminalWaits, parley_modifyTerminal]
      | failed =>
        rw [absorbPtyEvent]
        split
        · rfl
        · rw [parley_completeTerminalWaits, parley_completeTerminalCreate]
          exact parley_modifyTerminal ..

/-! ## Judgement -/

theorem answerPermission_parley (m : Model) (pending : PendingPermission)
    (decision : PermissionDecision) : (m.answerPermission pending decision).parley = m.parley := by
  have hremember : ∀ spec, (m.rememberPermission spec).parley = m.parley := fun spec =>
    parley_of_dealings (rememberPermission_dealings m spec)
  unfold answerPermission
  split
  · refine (parley_reply _ rfl).trans ?_
    split
    · split_ifs
      · exact hremember _
      · rfl
    · rfl
  · dsimp only
    split_ifs
    · rw [spawnAgentTerminal_parley, hremember]
    · exact spawnAgentTerminal_parley ..
    · exact parley_respondTerminal ..

theorem restoreSession_parley (h : Host) (m : Model) (w : RestoredWorkspace) :
    (m.restoreSession h w).parley = m.parley := by
  have hread : ∀ (paths : List Path) (m : Model), (m.openRestored paths).1.parley = m.parley := by
    intro paths
    induction paths with
    | nil => intro m; rfl
    | cons path rest ih =>
      intro m
      exact (ih _).trans (parley_of_dealings (openFile_dealings m path))
  have hterm : ∀ (ts : List Path) (m : Model), (ts.foldl (fun m cwd =>
      m.createTerminal (h.shell cwd) .humanShell) m).parley = m.parley := by
    intro ts
    induction ts with
    | nil => intro m; rfl
    | cons t ts ih => intro m; exact (ih _).trans (createTerminalWithLimit_parley m _ _ _)
  unfold restoreSession
  dsimp only
  split_ifs
  · exact (hterm _ _).trans ((hread _ _).trans rfl)
  · exact (hterm _ _).trans ((hread w.openPaths (m.openWorkspace w.root w.configured)).trans rfl)

/-! ## Steps -/

/-- What an event makes of the parley. -/
inductive ParleyStep (m : Model) : Event → Option Talk × List SessionId → Prop
  | keeps {ev : Event} (he : ∀ e, ev ≠ .agent e) : ParleyStep m ev m.parley
  | hears {e : AgentEvent} (hs : ∀ s, e ≠ .sessionStarted s) (ht : ∀ s r, e ≠ .turnEnded s r)
      (hf : ∀ s t, e ≠ .failed s t) : ParleyStep m (.agent e) m.parley
  | taken : ParleyStep m .takeAgentRequests (m.parley.1, [])
  | asks {prompt : Prompt} {session : SessionId} {a : AgentSession}
      (hk : prompt.kind = .agentPrompt session) (hn : trim prompt.input ≠ "")
      (ha : m.agent = some a) :
      ParleyStep m (.confirmPrompt prompt)
        (some { talk a with turnActive := true }, m.prompts ++ [session])
  | starts {session : SessionId} :
      ParleyStep m (.agent (.sessionStarted session)) (some { id := session }, m.prompts)
  | resumes {session : SessionId} :
      ParleyStep m (.agent (.sessionStarted session))
        (some { id := session, turnActive := true }, m.prompts ++ [session])
  | ends {session : SessionId} {reason : StopReason} (hr : reason ≠ .cancelled) :
      ParleyStep m (.agent (.turnEnded session reason))
        (m.parley.1.map fun t => { t with turnActive := false }, m.prompts)
  | cancels {e : AgentEvent} {session : SessionId}
      (he : e = .turnEnded session .cancelled ∨ ∃ message, e = .failed session message) :
      ParleyStep m (.agent e) (m.parley.1.map fun t =>
        if t.id = session then { t with turnActive := false }.withdraw
        else { t with turnActive := false }, m.prompts)
  | closes : ParleyStep m .shutdownTerminals (m.parley.1.map Talk.withdraw, m.prompts)
  | decides {ev : Event} (he : ∀ e, ev ≠ .agent e) :
      ParleyStep m ev (m.parley.1.map Talk.answer, m.prompts)
  | judges {cmd : Command} {a : AgentSession} {p : EditProposal} {rest : List EditProposal}
      (hc : cmd = .proposalAccept ∨ cmd = .proposalReject) (hg : m.gatedFirst = false)
      (ha : m.agent = some a) (hp : a.proposals = p :: rest) :
      ParleyStep m (.dispatch cmd) (some { talk a with proposals := rest.map (·.id) }, m.prompts)
  | proposes {session : SessionId} {id : ProposalId} {path : Path} {oldText : Option Text}
      {newText : Text} :
      ParleyStep m (.agent (.proposedEdit session id path oldText newText))
        (m.parley.1.map fun t => { t with proposals := t.proposals.filter (· ≠ id) ++ [id] },
          m.prompts)
  | holds {session : SessionId} {request : PermissionRequestId} {summary : String}
      {command : List String} {spec : Option TerminalSpec} {edit : Option ProposedEditDiff}
      {a : AgentSession} {shown : List ProposalId} (ha : m.agent = some a)
      (hp : a.pendingPermission = none) (hshown : shown = [] ∨ shown = [⟨request.val⟩]) :
      ParleyStep m (.agent (.permissionRequested session request summary command spec edit))
        (some { talk a with
          review := shown.head?, proposals := a.proposals.map (·.id) ++ shown }, m.prompts)

theorem ParleyStep.of_eq {ev : Event} (he : ∀ e, ev ≠ .agent e) (ht : m'.parley = m.parley) :
    ParleyStep m ev m'.parley := ht ▸ .keeps he

theorem decidePermission_parley {decision : PermissionDecision}
    (hd : m.decidePermission h decision = some m') :
    (m' = m ∧ ∀ agent, m.agent = some agent → agent.pendingPermission = none) ∨
      m'.parley = (m.parley.1.map Talk.answer, m.prompts) := by
  rcases decidePermission_dealings hd with hm' | ⟨agent, pending, m₁, ha, hp, hm₁, hm'⟩
  · exact .inl hm'
  · right
    rw [parley_of_dealings hm', answerPermission_parley, parley_of_dealings hm₁]
    rw [parley_some ha]
    refine Prod.ext (congrArg some ?_) rfl
    rw [talk, talk, Talk.answer, hp, Option.bind_some]
    cases pending.review with
    | none => rfl
    | some reviewed =>
      simp only [ungated, List.filter_map]
      rfl

theorem resolveProposal_parley {accept : Bool} {cmd : Command}
    (hc : cmd = .proposalAccept ∨ cmd = .proposalReject)
    (hr : m.resolveProposal h accept = some m') : ParleyStep m (.dispatch cmd) m'.parley := by
  rcases resolveProposal_dealings hr with
    ⟨-, m₁, decision, hd, hm'⟩ | hm' | ⟨hg, agent, p, rest, decision, ha, hp, hm'⟩
  · rw [parley_of_dealings hm']
    rcases decidePermission_parley hd with ⟨rfl, -⟩ | ht
    · exact .keeps fun _ => Event.noConfusion
    · rw [ht]
      exact .decides fun _ => Event.noConfusion
  · exact .of_eq (fun _ => Event.noConfusion) (parley_of_dealings hm')
  · rw [parley_of_dealings hm', parley_reply _ rfl]
    exact .judges hc hg ha hp

theorem confirmPrompt_parley {prompt : Prompt} (hs : m.confirmPrompt h prompt = some m') :
    ParleyStep m (.confirmPrompt prompt) m'.parley := by
  have hno : ∀ e, Event.confirmPrompt prompt ≠ .agent e := fun _ => Event.noConfusion
  by_cases hq : (Event.confirmPrompt prompt).Quiet
  · exact .of_eq hno (parley_of_dealings (confirmPrompt_dealings hq hs))
  · unfold confirmPrompt at hs
    rw [Event.Quiet] at hq
    dsimp only at hs
    split at hs
    · rename_i hk
      rw [hk] at hq
      exact absurd trivial hq
    · rename_i hk
      rw [hk] at hq
      exact absurd trivial hq
    · rename_i hk
      rw [hk] at hq
      exact absurd trivial hq
    · exact .of_eq hno (Option.some.inj hs ▸ removeTerminal_parley m _ true)
    · refine .of_eq hno ?_
      rw [← Option.some.inj hs]
      split_ifs
      · rfl
      · exact createTerminalWithLimit_parley m _ _ _
    · rename_i hk
      rw [hk] at hq
      exact absurd trivial hq
    · rename_i hk
      rw [hk] at hq
      exact absurd trivial hq
    · rename_i session hk
      split_ifs at hs with hn hagent
      · exact .of_eq hno (Option.some.inj hs ▸ rfl)
      · obtain ⟨a, ha⟩ := Option.isSome_iff_exists.mp hagent
        have ht : (m.sendPrompt h session (trim prompt.input)).parley =
            (some { talk a with turnActive := true }, m.prompts ++ [session]) := by
          simp [parley, prompts, sendPrompt, modifyAgent, reply, ha, AgentRequest.prompted, talk]
        rw [← Option.some.inj hs, ht]
        exact .asks hk hn ha
      · refine .of_eq hno ?_
        rw [← Option.some.inj hs]
        unfold newAgentSession
        dsimp only
        split
        · exact (parley_reply { m with pendingPrompt := some (trim prompt.input) } rfl).trans rfl
        · rfl
    · rename_i hk₁ hk₂ hk₃ hk₄ hk₅ hk₆ hk₇ hk₈
      refine absurd ?_ hq
      split
      · rename_i hk
        exact hk₄ _ hk
      · rename_i hk
        exact hk₅ hk
      · rename_i hk
        exact hk₈ _ hk
      · trivial

theorem startSession_parley (h : Host) (m : Model) (session : SessionId) :
    ParleyStep m (.agent (.sessionStarted session)) (m.startSession h session).parley := by
  refine startSession_spec (P := fun m' => m'.prompts = m.prompts)
    (R := fun m' => m'.prompts = m.prompts)
    (Q := fun m' => ParleyStep m (.agent (.sessionStarted session)) m'.parley) h session rfl rfl
    (fun _ h₁ _ => h₁) (fun m₁ previous h₁ _ => ?_) (fun m₂ h₂ => ?_) fun m₂ text h₂ => ?_
  · rw [← h₁]
    exact congrArg Prod.snd (cancelAgentTerminals_parley m₁ _ _)
  · have ht : Model.parley { m₂ with agent := some { id := session } } =
        (some { id := session }, m.prompts) := Prod.ext rfl h₂
    rw [ht]
    exact .starts
  · have ht : (sendPrompt h { m₂ with agent := some { id := session }, pendingPrompt := none }
        session text).parley =
        (some { id := session, turnActive := true }, m.prompts ++ [session]) := by
      rw [← h₂]
      simp [parley, prompts, sendPrompt, modifyAgent, reply, AgentRequest.prompted, talk]
    rw [ht]
    exact .resumes

theorem onAgentEvent_parley {e : AgentEvent} (hs : m.onAgentEvent h e = some m') :
    ParleyStep m (.agent e) m'.parley := by
  have hcancel : ∀ (session : SessionId) (reason : String),
      ((m.modifyAgent fun agent => { agent with turnActive := false }).cancelAgentTerminals session
        reason).parley = (m.parley.1.map fun t =>
          if t.id = session then { t with turnActive := false }.withdraw
          else { t with turnActive := false }, m.prompts) := by
    intro session reason
    rw [cancelAgentTerminals_parley, parley_modifyAgent m
      (g := fun t => { t with turnActive := false }) fun _ => rfl]
    refine Prod.ext ?_ rfl
    rw [Option.map_map]
    rfl
  have hkeep : (∀ s, e ≠ .sessionStarted s) → (∀ s r, e ≠ .turnEnded s r) →
      (∀ s t, e ≠ .failed s t) → m'.parley = m.parley → ParleyStep m (.agent e) m'.parley :=
    fun h₁ h₂ h₃ ht => ht ▸ .hears h₁ h₂ h₃
  cases e with
  | ready => exact hkeep nofun nofun nofun (Option.some.inj hs ▸ rfl)
  | modesAvailable session current available =>
    refine hkeep nofun nofun nofun (Option.some.inj hs ▸ parley_modifyAgent_self m fun a => ?_)
    split_ifs <;> rfl
  | modeChanged session mode =>
    refine hkeep nofun nofun nofun ?_
    rw [onAgentEvent] at hs
    split at hs
    · exact Option.some.inj hs ▸ rfl
    · rename_i a ha
      rw [← Option.some.inj hs, parley_some (Option.filter_eq_some_iff.mp ha).1]
      rfl
  | sessionStarted session => exact Option.some.inj hs ▸ startSession_parley h m session
  | messageChunk _ text | thoughtChunk _ text =>
    refine hkeep nofun nofun nofun ?_
    rw [← Option.some.inj hs]
    unfold pushTranscript
    split
    · rfl
    · rename_i a ha
      rw [parley_some ha]
      rfl
  | readFileRequested session request path =>
    refine hkeep nofun nofun nofun ?_
    rw [← Option.some.inj hs]
    unfold serveRead
    split
    · exact (parley_reply { m with servedReads := _ } rfl).trans rfl
    · split_ifs
      · rfl
      · exact parley_reply m rfl
  | proposedEdit =>
    rcases receiveProposal_dealings hs with hm' | ⟨p, hp, hm'⟩
    · exact hkeep nofun nofun nofun (parley_of_dealings hm')
    · have hpush := parley_modifyAgent m (f := fun agent =>
        { agent with proposals := agent.proposals.filter (·.id ≠ p.id) ++ [p] })
        (g := fun t => { t with proposals := t.proposals.filter (· ≠ p.id) ++ [p.id] }) fun a => by
          simp only [talk, List.map_append, List.filter_map]
          rfl
      rw [hp] at hpush
      rw [parley_of_dealings hm', hpush]
      exact .proposes
  | permissionRequested session request =>
    rcases receivePermission_dealings hs with rfl | ⟨agent, _, review, shown, ha, -, hp, hshow, hm'⟩
    · exact hkeep nofun nofun nofun (parley_reply m rfl)
    · have ht : m'.parley = (some { talk agent with
          review := (shown.map (·.id)).head?
          proposals := agent.proposals.map (·.id) ++ shown.map (·.id) }, m.prompts) := by
        rw [parley_of_dealings hm']
        refine Prod.ext ?_ rfl
        refine congrArg some ?_
        rcases hshow with ⟨rfl, rfl⟩ | ⟨p, -, rfl, rfl⟩
        · simp [talk]
        · simp [talk]
      rw [ht]
      refine .holds ha hp ?_
      rcases hshow with ⟨-, rfl⟩ | ⟨p, hid, -, rfl⟩
      · exact .inl rfl
      · exact .inr (by rw [List.map_singleton, hid])
  | terminalRequest =>
    exact hkeep nofun nofun nofun (Option.some.inj hs ▸ handleAgentTerminal_parley h m _ _ _)
  | terminalAttached session terminal =>
    refine hkeep nofun nofun nofun (Option.some.inj hs ▸ parley_modifyAgent_self m fun a => ?_)
    split_ifs <;> rfl
  | turnEnded session reason =>
    rw [← Option.some.inj hs]
    split_ifs with hr
    · rw [hcancel, hr]
      exact .cancels (.inl rfl)
    · rw [parley_modifyAgent m (g := fun t => { t with turnActive := false }) fun _ => rfl]
      exact .ends hr
  | failed session message =>
    rw [← Option.some.inj hs]
    refine Eq.subst (motive := ParleyStep m _) (hcancel session "agent session failed").symm ?_
    exact .cancels (.inr ⟨message, rfl⟩)

theorem ParleyStep.of_notified {ev : Event} {s : Option String}
    {t : Option Talk × List SessionId} (hs : ParleyStep { m with notification := s } ev t) :
    ParleyStep m ev t := by
  cases hs with
  | keeps he => exact .keeps he
  | hears hs ht hf => exact .hears hs ht hf
  | taken => exact .taken
  | asks hk hn ha => exact .asks hk hn ha
  | starts => exact .starts
  | resumes => exact .resumes
  | ends hr => exact .ends hr
  | cancels he => exact .cancels he
  | closes => exact .closes
  | decides he => exact .decides he
  | judges hc hg ha hp => exact .judges hc hg ha hp
  | proposes => exact .proposes
  | holds ha hp hshown => exact .holds ha hp hshown

/-- **All that an event can do to the parley.** -/
theorem step_parley {ev : Event} (hs : m.step h ev = some m') : ParleyStep m ev m'.parley := by
  by_cases hq : ev.Quiet
  · refine .of_eq (fun e he => ?_) (parley_of_dealings (step_dealings hq hs))
    rw [he] at hq
    exact hq
  · have hdecide : ∀ {ev : Event} {m m' : Model} {decision : PermissionDecision},
        (∀ e, ev ≠ .agent e) → m.decidePermission h decision = some m' →
        ParleyStep m ev m'.parley := by
      intro ev m m' decision hno hd
      rcases decidePermission_parley hd with ⟨rfl, -⟩ | ht
      · exact .keeps hno
      · rw [ht]
        exact .decides hno
    cases ev with
    | dispatch cmd =>
      obtain ⟨m₁, hm, hsync⟩ := Option.bind_eq_some_iff.mp hs
      rw [parley_of_outline (syncAll_outline hsync)]
      have hno : ∀ e, Event.dispatch cmd ≠ .agent e := fun _ => Event.noConfusion
      refine ParleyStep.of_notified (s := none) ?_
      generalize ({ m with notification := none } : Model) = m₀ at hm ⊢
      cases cmd with
      | proposalAccept => exact resolveProposal_parley (.inl rfl) hm
      | proposalReject => exact resolveProposal_parley (.inr rfl) hm
      | agentAllowOnce | agentAllowAlways | agentDeny => exact hdecide hno hm
      | terminalFocus => exact .of_eq hno (Option.some.inj hm ▸ toggleTerminalFocus_parley h m₀)
      | terminalNew => exact .of_eq hno (Option.some.inj hm ▸ newShellTerminal_parley h m₀)
      | terminalNext | terminalPrevious =>
        exact .of_eq hno (Option.some.inj hm ▸ cycleTerminal_parley h m₀ _)
      | terminalRestart => exact .of_eq hno (restartTerminal_parley hm)
      | terminalClose => exact .of_eq hno (Option.some.inj hm ▸ closeTerminal_parley m₀)
      | _ => exact absurd trivial hq
    | confirmPrompt prompt => exact confirmPrompt_parley hs
    | restoreSession w =>
      exact .of_eq (fun _ => Event.noConfusion) (Option.some.inj hs ▸ restoreSession_parley h m w)
    | decidePermission decision => exact hdecide (fun _ => Event.noConfusion) hs
    | agent e => exact onAgentEvent_parley hs
    | pty e => exact .of_eq (fun _ => Event.noConfusion) (Option.some.inj hs ▸ onPtyEvent_parley h m e)
    | shutdownTerminals =>
      rw [← Option.some.inj hs, shutdownTerminals_parley]
      exact .closes
    | takeAgentRequests => exact Option.some.inj hs ▸ .taken
    | _ => exact absurd trivial hq

end Model

end App

end Termesh
