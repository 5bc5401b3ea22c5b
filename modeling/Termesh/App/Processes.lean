import Termesh.App.TerminalTabs
import Termesh.Lib.First

/-!
# Processes

Behind every terminal is the process of its current generation. Only the process's own events say
how it stands, and only a restart puts another one in its place: whatever else happens, a process
stays as it is, or goes with its terminal, or is the first one of a new terminal.

* `processes`: the terminals with their generation and status;
* `Settled`: no process but those of new terminals is other than it was;
* **`step_settled`**: every event but a process's own and a restart settles them.
-/

namespace Termesh

namespace App

/-- The process behind a terminal. -/
structure Process where
  terminal : TerminalId
  generation : TerminalGeneration
  status : TerminalStatus
deriving DecidableEq, Repr

def TerminalSession.process (t : TerminalSession) : Process := ⟨t.id, t.generation, t.status⟩

namespace Model

variable {h : Host} {m m' m₁ : Model}

def processes (m : Model) : List Process := m.terminals.map (·.process)

/-- Every process was there, or is the first one of a new terminal. -/
structure Settled (m m' : Model) : Prop where
  next : m.nextTerminalId ≤ m'.nextTerminalId
  kept : ∀ p ∈ m'.processes, p ∈ m.processes ∨
    m.nextTerminalId < p.terminal.val ∧ p.generation = ⟨1⟩ ∧ p.status = .starting

theorem Settled.of_subset (hn : m'.nextTerminalId = m.nextTerminalId)
    (hp : m'.processes ⊆ m.processes) : Settled m m' :=
  ⟨hn.ge, fun _ hm => .inl (hp hm)⟩

theorem Settled.of_processes (hn : m'.nextTerminalId = m.nextTerminalId)
    (hp : m'.processes = m.processes) : Settled m m' :=
  .of_subset hn fun _ hm => hp ▸ hm

theorem Settled.of_eq (hn : m'.nextTerminalId = m.nextTerminalId)
    (ht : m'.terminals = m.terminals) : Settled m m' :=
  .of_processes hn (congrArg (List.map TerminalSession.process) ht)

theorem Settled.refl (m : Model) : Settled m m := .of_eq rfl rfl

theorem Settled.trans (hs : Settled m m₁) (hs' : Settled m₁ m') : Settled m m' where
  next := hs.next.trans hs'.next
  kept p hp := by
    rcases hs'.kept p hp with hp | ⟨hlt, hrest⟩
    · exact hs.kept p hp
    · exact .inr ⟨hs.next.trans_lt hlt, hrest⟩

theorem Settled.of_dealings (hd : m'.dealings = m.dealings) : Settled m m' :=
  .of_eq (congrArg (·.nextTerminalId) hd) (congrArg (·.terminals) hd)

theorem Settled.after (hs : Settled m₁ m') (hn : m₁.nextTerminalId = m.nextTerminalId)
    (ht : m₁.terminals = m.terminals) : Settled m m' :=
  (Settled.of_eq hn ht).trans hs

/-! ## Tabs -/

theorem createTerminalWithLimit_terminals (m : Model) (spec : TerminalSpec) (owner : TerminalOwner)
    (limit : ℕ) : ∃ t, (m.createTerminalWithLimit spec owner limit).2.terminals = m.terminals ++ [t] ∧
      (m.createTerminalWithLimit spec owner limit).2.nextTerminalId = m.nextTerminalId + 1 ∧
      t.process = ⟨⟨m.nextTerminalId + 1⟩, ⟨1⟩, .starting⟩ ∧ t.spec = spec ∧ t.owner = owner := by
  unfold createTerminalWithLimit
  dsimp only
  split
  · split_ifs
    · exact ⟨_, rfl, rfl, rfl, rfl, rfl⟩
    · exact ⟨_, rfl, rfl, rfl, rfl, rfl⟩
  · exact ⟨_, rfl, rfl, rfl, rfl, rfl⟩

theorem createTerminalWithLimit_settled (m : Model) (spec : TerminalSpec) (owner : TerminalOwner)
    (limit : ℕ) : Settled m (m.createTerminalWithLimit spec owner limit).2 := by
  obtain ⟨t, ht, hn, hp, -⟩ := createTerminalWithLimit_terminals m spec owner limit
  refine ⟨by omega, fun p hm => ?_⟩
  rw [processes, ht, List.map_append] at hm
  rcases List.mem_append.mp hm with hm | hm
  · exact .inl hm
  · obtain rfl : p = t.process := List.mem_singleton.mp hm
    rw [hp]
    exact .inr ⟨Nat.lt_succ_self _, rfl, rfl⟩

theorem createTerminal_settled (m : Model) (spec : TerminalSpec) (owner : TerminalOwner) :
    Settled m (m.createTerminal spec owner) := createTerminalWithLimit_settled ..

theorem newShellTerminal_settled (h : Host) (m : Model) : Settled m (m.newShellTerminal h) :=
  createTerminal_settled ..

theorem toggleTerminalFocus_settled (h : Host) (m : Model) :
    Settled m (m.toggleTerminalFocus h) := by
  unfold toggleTerminalFocus
  split_ifs
  · exact .of_eq rfl rfl
  · exact newShellTerminal_settled h m
  · exact .of_eq rfl rfl

theorem cycleTerminal_settled (h : Host) (m : Model) (delta : Int) :
    Settled m (m.cycleTerminal h delta) := by
  unfold cycleTerminal
  split_ifs
  · exact newShellTerminal_settled h m
  · exact .of_eq rfl rfl

theorem restoreSession_settled (h : Host) (m : Model) (w : RestoredWorkspace) :
    Settled m (m.restoreSession h w) := by
  have hread : ∀ (paths : List Path) (m : Model), Settled m (m.openRestored paths).1 := by
    intro paths
    induction paths with
    | nil => exact fun m => .refl m
    | cons path rest ih => exact fun m => (Settled.of_dealings (openFile_dealings m path)).trans (ih _)
  have hterm : ∀ (ts : List Path) (m₁ : Model), Settled m m₁ → Settled m (ts.foldl (fun m cwd =>
      m.createTerminal (h.shell cwd) .humanShell) m₁) := by
    intro ts
    induction ts with
    | nil => exact fun m₁ hm => hm
    | cons t ts ih => exact fun m₁ hm => ih _ (hm.trans (createTerminal_settled m₁ _ _))
  have hopen : Settled m ((m.openWorkspace w.root w.configured).openRestored w.openPaths).1 :=
    (hread w.openPaths (m.openWorkspace w.root w.configured)).after rfl rfl
  unfold restoreSession
  dsimp only
  split_ifs
  · exact (hterm w.terminals _ hopen).trans (.of_eq rfl rfl)
  · refine (hterm w.terminals _ (hopen.trans ?_)).trans (.of_eq rfl rfl)
    exact .of_eq rfl rfl

theorem removeTerminal_settled (m : Model) (terminal : TerminalId) (kill : Bool) :
    Settled m (m.removeTerminal terminal kill) := by
  unfold removeTerminal
  split
  · exact .refl m
  · split
    · exact .refl m
    · rename_i k _ _ _ _
      obtain ⟨ht, hn, -⟩ := completeTerminalCreate_eq m (fun c => decide (c.terminal = terminal))
        (.error "terminal closed")
      refine .of_subset hn fun p hp => ?_
      have hsub : ((m.completeTerminalCreate (fun c => decide (c.terminal = terminal))
          (.error "terminal closed")).terminals.eraseIdx k).Sublist m.terminals := by
        rw [ht]
        exact List.eraseIdx_sublist ..
      exact (hsub.map _).subset hp

theorem closeTerminal_settled (m : Model) : Settled m m.closeTerminal := by
  unfold closeTerminal
  split
  · exact .of_eq rfl rfl
  · split_ifs
    · exact .of_eq rfl rfl
    · exact removeTerminal_settled m _ _

/-! ## Calls of the agent -/

theorem map_process_modify {f : TerminalSession → TerminalSession}
    (hf : ∀ t, (f t).process = t.process) (l : List TerminalSession) (i : ℕ) :
    (l.modify i f).map (·.process) = l.map (·.process) := by
  refine List.ext_getElem? fun j => ?_
  rw [List.getElem?_map, List.getElem?_map, List.getElem?_modify]
  cases l[j]? with
  | none => rfl
  | some t => split_ifs <;> simp [hf]

theorem modifyTerminal_processes (m : Model) (terminal : TerminalId)
    {f : TerminalSession → TerminalSession} (hf : ∀ t, (f t).process = t.process) :
    (m.modifyTerminal terminal f).processes = m.processes := by
  unfold modifyTerminal
  split
  · exact map_process_modify hf m.terminals _
  · rfl

theorem rejectPendingPermission_settled (m : Model) (session : Option SessionId) (reason : String) :
    Settled m (m.rejectPendingPermission session reason) := by
  obtain ⟨ht, hn, -⟩ := rejectPendingPermission_rest m session reason
  exact .of_eq hn ht

theorem cancelAgentTerminals_settled (m : Model) (session : SessionId) (reason : String) :
    Settled m (m.cancelAgentTerminals session reason) := by
  have hfold : ∀ (ts : List TerminalSession) (m : Model),
      Settled m (ts.foldl (releaseEnded reason) m) := by
    intro ts
    induction ts with
    | nil => exact fun m => .refl m
    | cons t ts ih =>
      intro m
      have hprocesses := modifyTerminal_processes
        { m with terminalOutbox := m.terminalOutbox ++ t.releaseRequests t.status.isLive } t.id
        (f := fun t => { t with released := true }) fun _ => rfl
      have hone : Settled m (releaseEnded reason m t) :=
        .of_processes (modifyTerminal_next ..) hprocesses
      exact hone.trans (ih _)
  have hreject := rejectPendingPermission_settled m (some session) reason
  unfold cancelAgentTerminals
  generalize m.rejectPendingPermission (some session) reason = m₁ at hreject
  exact hreject.trans ((hfold _ _).after rfl rfl)

theorem shutdownTerminals_settled (m : Model) : Settled m m.shutdownTerminals := by
  have hreject := rejectPendingPermission_settled m none "application shutting down"
  unfold shutdownTerminals
  dsimp only
  generalize m.rejectPendingPermission none "application shutting down" = m₁ at hreject
  refine hreject.trans (.of_processes rfl ?_)
  rw [processes, List.map_map]
  rfl

theorem spawnAgentTerminal_settled (m : Model) (session : SessionId)
    (request : AgentTerminalRequestId) (spec : TerminalSpec) (limit : ℕ) :
    Settled m (m.spawnAgentTerminal session request spec limit) :=
  (createTerminalWithLimit_settled m spec (.agent session) limit).trans (.of_eq rfl rfl)

theorem answerPermission_settled (m : Model) (pending : PendingPermission)
    (decision : PermissionDecision) : Settled m (m.answerPermission pending decision) := by
  have hremember : ∀ spec, Settled m (m.rememberPermission spec) := fun spec =>
    .of_dealings (rememberPermission_dealings m spec)
  unfold answerPermission
  split
  · split
    · split_ifs
      · exact (hremember _).trans (.of_eq rfl rfl)
      · exact .of_eq rfl rfl
    · exact .of_eq rfl rfl
  · split_ifs
    · exact (hremember _).trans (spawnAgentTerminal_settled ..)
    · exact spawnAgentTerminal_settled ..
    · exact .of_eq rfl rfl

theorem decidePermission_settled {decision : PermissionDecision}
    (hd : m.decidePermission h decision = some m') : Settled m m' := by
  unfold decidePermission at hd
  split at hd
  · exact Option.some.inj hd ▸ .of_eq rfl rfl
  · split at hd
    · exact Option.some.inj hd ▸ .of_eq rfl rfl
    · rename_i pending hpending
      obtain ⟨m₁, hm₁, rfl⟩ := Option.map_eq_some_iff.mp hd
      have hclear : Settled m m₁ := by
        cases hr : pending.review with
        | none =>
          rw [hr] at hm₁
          exact Option.some.inj hm₁ ▸ .of_eq rfl rfl
        | some reviewed =>
          rw [hr] at hm₁
          exact (Settled.of_dealings (dealings_of_outline (syncProposals_outline hm₁))).after rfl rfl
      have hnotify : ∀ (m₂ : Model) (text : String), Settled m m₂ →
          Settled m (if m₂.notification.isNone then m₂.notify text else m₂) := by
        intro m₂ text hm
        split_ifs
        · exact hm.trans (.of_eq rfl rfl)
        · exact hm
      exact hnotify _ _ (hclear.trans (answerPermission_settled m₁ pending decision))

theorem resolveProposal_settled {accept : Bool} (hr : m.resolveProposal h accept = some m') :
    Settled m m' := by
  cases hg : m.gatedFirst with
  | true =>
    unfold resolveProposal at hr
    rw [hg, if_pos rfl] at hr
    obtain ⟨m₁, hd, rfl⟩ := Option.map_eq_some_iff.mp hr
    exact (decidePermission_settled hd).trans (.of_eq rfl rfl)
  | false =>
    rcases resolveProposal_dealings hr with ⟨hg', -⟩ | hd | ⟨-, agent, p, rest, decision, -, -, hd⟩
    · rw [hg] at hg'
      cases hg'
    · exact .of_dealings hd
    · exact (Settled.of_dealings hd).after rfl rfl

theorem createForAgent_settled (m : Model) (session : SessionId) (request : AgentTerminalRequestId)
    (spec : TerminalSpec) (limit : ℕ) (preauthorized : Bool) :
    Settled m (m.createForAgent session request spec limit preauthorized) := by
  unfold createForAgent
  split_ifs
  · exact spawnAgentTerminal_settled ..
  · split
    · exact .refl m
    · split_ifs <;> exact .of_eq rfl rfl

theorem handleAgentTerminal_settled (h : Host) (m : Model) (session : SessionId)
    (request : AgentTerminalRequestId) (operation : AgentTerminalOperation) :
    Settled m (m.handleAgentTerminal h session request operation) := by
  have hserve : ∀ (terminal : TerminalId) (f : ℕ → TerminalSession → Model),
      (∀ i t, Settled m (f i t)) → Settled m (m.withAgentTerminal session request terminal f) := by
    intro terminal f hf
    unfold withAgentTerminal
    dsimp only
    split
    · exact .of_eq rfl rfl
    · exact hf _ _
  unfold handleAgentTerminal
  split_ifs
  · exact .of_eq rfl rfl
  · cases operation with
    | create spec limit preauthorized => exact createForAgent_settled ..
    | output terminal => exact hserve terminal _ fun _ _ => .of_eq rfl rfl
    | waitForExit terminal =>
      refine hserve terminal _ fun i t => ?_
      split <;> exact .of_eq rfl rfl
    | kill terminal => exact hserve terminal _ fun _ _ => .of_eq rfl rfl
    | release terminal =>
      refine hserve terminal _ fun i t => .of_processes rfl ?_
      exact map_process_modify (f := fun t => { t with released := true }) (fun _ => rfl) _ i

theorem startSession_settled (h : Host) (m : Model) (session : SessionId) :
    Settled m (m.startSession h session) :=
  startSession_spec (P := Settled m) (R := Settled m) (Q := Settled m) h session (.of_eq rfl rfl)
    (.of_eq rfl rfl) (fun _ h₁ _ => h₁) (fun _ _ h₁ _ => h₁.trans (cancelAgentTerminals_settled ..))
    (fun _ h₂ => h₂.trans (.of_eq rfl rfl)) fun _ _ h₂ => h₂.trans (.of_eq rfl rfl)

theorem onAgentEvent_settled {e : AgentEvent} (hs : m.onAgentEvent h e = some m') :
    Settled m m' := by
  have hended : ∀ (session : SessionId) (reason : String), Settled m
      ((m.modifyAgent fun agent => { agent with turnActive := false }).cancelAgentTerminals session
        reason) := fun session reason =>
    (cancelAgentTerminals_settled _ session reason).after rfl rfl
  cases e with
  | ready | modesAvailable | terminalAttached => exact Option.some.inj hs ▸ .of_eq rfl rfl
  | modeChanged session mode =>
    rw [onAgentEvent] at hs
    split at hs <;> exact Option.some.inj hs ▸ .of_eq rfl rfl
  | sessionStarted session => exact Option.some.inj hs ▸ startSession_settled h m session
  | messageChunk _ text | thoughtChunk _ text =>
    rw [← Option.some.inj hs]
    unfold pushTranscript
    split <;> exact .of_eq rfl rfl
  | readFileRequested session request path =>
    rw [← Option.some.inj hs]
    unfold serveRead
    split
    · exact .of_eq rfl rfl
    · split_ifs <;> exact .of_eq rfl rfl
  | proposedEdit =>
    rcases receiveProposal_dealings hs with hm' | ⟨p, -, hm'⟩
    · exact .of_dealings hm'
    · exact (Settled.of_dealings hm').after rfl rfl
  | permissionRequested =>
    rcases receivePermission_dealings hs with rfl | ⟨agent, text, review, shown, -, -, -, -, hm'⟩
    · exact .of_eq rfl rfl
    · exact (Settled.of_dealings hm').after rfl rfl
  | terminalRequest session request operation =>
    exact Option.some.inj hs ▸ handleAgentTerminal_settled ..
  | turnEnded session reason =>
    rw [← Option.some.inj hs]
    split_ifs
    · exact hended _ _
    · exact .of_eq rfl rfl
  | failed session message =>
    exact Option.some.inj hs ▸ (hended session _).trans (.of_eq rfl rfl)

/-! ## Steps -/

theorem confirmPrompt_settled {prompt : Prompt} (hs : m.confirmPrompt h prompt = some m') :
    Settled m m' := by
  by_cases hq : (Event.confirmPrompt prompt).Quiet
  · exact .of_dealings (confirmPrompt_dealings hq hs)
  · unfold confirmPrompt at hs
    rw [Event.Quiet] at hq
    dsimp only at hs
    split at hq
    · rename_i terminal hk
      rw [hk] at hs
      exact Option.some.inj hs ▸ removeTerminal_settled m terminal true
    · rename_i hk
      rw [hk] at hs
      rw [← Option.some.inj hs]
      split_ifs
      · exact .of_eq rfl rfl
      · exact createTerminal_settled ..
    · rename_i session hk
      rw [hk] at hs
      rw [← Option.some.inj hs]
      split_ifs
      · exact .of_eq rfl rfl
      · exact .of_eq rfl rfl
      · unfold newAgentSession
        dsimp only
        split <;> exact .of_eq rfl rfl
    · exact absurd trivial hq

/-- **Nothing but its own events and a restart changes a process.** -/
theorem step_settled {ev : Event} (hs : m.step h ev = some m') (hp : ∀ e, ev ≠ .pty e)
    (hr : ev ≠ .dispatch .terminalRestart) : Settled m m' := by
  cases ev with
  | dispatch cmd =>
    obtain ⟨m₁, hm, hsync⟩ := Option.bind_eq_some_iff.mp hs
    have hlast : Settled m₁ m' := .of_dealings (dealings_of_outline (syncAll_outline hsync))
    have hquiet : cmd.Quiet → Settled m m' := fun hq => .of_dealings (dispatch_dealings hq hs)
    have hquieter : Settled m { m with notification := none } := .of_eq rfl rfl
    have hkept : Settled { m with notification := none } m₁ → Settled m m' := fun hk =>
      (hquieter.trans hk).trans hlast
    cases cmd with
    | proposalAccept | proposalReject => exact hkept (resolveProposal_settled hm)
    | agentAllowOnce | agentAllowAlways | agentDeny => exact hkept (decidePermission_settled hm)
    | terminalFocus => exact hkept (Option.some.inj hm ▸ toggleTerminalFocus_settled h _)
    | terminalNew => exact hkept (Option.some.inj hm ▸ newShellTerminal_settled h _)
    | terminalNext | terminalPrevious =>
      exact hkept (Option.some.inj hm ▸ cycleTerminal_settled h _ _)
    | terminalRestart => exact absurd rfl hr
    | terminalClose => exact hkept (Option.some.inj hm ▸ closeTerminal_settled _)
    | save | restoreDrafts | reloadConfig | cursor | newline | backspace | deleteForward | undo
    | redo | find | replace | findNext | findPrev | nextTab | prevTab | closeTab | lspAtCursor
    | lspDocumentSymbols | lspWorkspaceSymbols | lspFormat | lspRename | lspCodeAction | lspRestart
    | agentSessionNew | agentPrompt | agentMode | terminalRun | focusPane | focusNext | focusPrev
    | closeOverlay | quit | other => exact hquiet trivial
  | confirmPrompt prompt => exact confirmPrompt_settled hs
  | restoreSession w => exact Option.some.inj hs ▸ restoreSession_settled h m w
  | decidePermission decision => exact decidePermission_settled hs
  | agent e => exact onAgentEvent_settled hs
  | pty e => exact absurd rfl (hp e)
  | shutdownTerminals => exact Option.some.inj hs ▸ shutdownTerminals_settled m
  | takeAgentRequests => exact Option.some.inj hs ▸ .of_eq rfl rfl
  | typeChar | openFile | openFileAt | navigateProblem | openWorkspace | setOverlays
  | acceptSelectedRecoveryDrafts | discardRecoveryDrafts | acceptCompletion | acceptCodeAction
  | openLspLocation | applyTextEdits | applyWorkspaceEdit | setAgentMode | typeTerminal
  | setTerminalSize | fs | lsp | tick | takeFsRequests | takePtyRequests | takeLspRequests =>
    exact .of_dealings (step_dealings (by trivial) hs)

/-- The terminal whose process a restart would replace. -/
def restarting (m : Model) : Option TerminalSession :=
  m.activeTerminalSession.bind fun t =>
    if m.pendingTerminalCreates.any (·.terminal = t.id) then none else some t

/-- **A restart** replaces the process of the terminal on screen, or none. -/
theorem restart_cases (hs : m.step h (.dispatch .terminalRestart) = some m') :
    m.restarting = none ∧ Settled m m' ∨
    ∃ i t, m.restarting = some t ∧ m.terminals[i]? = some t ∧
      m'.nextTerminalId = m.nextTerminalId ∧
      m'.processes = m.processes.set i ⟨t.id, ⟨t.generation.val + 1⟩, .starting⟩ := by
  obtain ⟨m₁, hm, hsync⟩ := Option.bind_eq_some_iff.mp hs
  have hlast : m'.dealings = m₁.dealings := dealings_of_outline (syncAll_outline hsync)
  change restartTerminal h { m with notification := none } = some m₁ at hm
  unfold restarting activeTerminalSession
  unfold restartTerminal at hm
  split at hm
  · rename_i hnone
    refine .inl ⟨?_, ?_⟩
    · rw [show m.activeTerminal = none from hnone]
      rfl
    · rw [← Option.some.inj hm] at hlast
      exact ((newShellTerminal_settled h _).after rfl rfl).trans (.of_dealings hlast)
  · rename_i index hactive
    obtain ⟨t, ht, rfl⟩ := Option.map_eq_some_iff.mp hm
    have hget : m.terminals[index]? = some t := ht
    rw [show m.activeTerminal = some index from hactive, Option.bind_some, hget, Option.bind_some]
    dsimp only at hlast
    split at hlast
    · rename_i hpending
      exact .inl ⟨if_pos hpending, (Settled.of_dealings hlast).after rfl rfl⟩
    · rename_i hpending
      refine .inr ⟨index, t, if_neg hpending, hget, congrArg (·.nextTerminalId) hlast, ?_⟩
      refine (congrArg (·.processes) hlast).trans ?_
      exact List.map_set ..

/-! ## Its own events -/

variable {terminal : TerminalId} {t : TerminalSession} {e : PtyEvent}

theorem modifyTerminal_first (m : Model) (terminal : TerminalId)
    (f : TerminalSession → TerminalSession) : m.modifyTerminal terminal f =
      { m with terminals := Firsts.modifyFirst (·.id = terminal) f m.terminals } := by
  rw [Firsts.modifyFirst_eq_modify, modifyTerminal]
  cases m.terminals.findIdx? (·.id = terminal) <;> rfl

theorem onPtyEvent_current (ht : m.terminalWithId (eventTerminal e).1 = some t)
    (hg : t.generation = (eventTerminal e).2) (hr : t.released = false) :
    m.onPtyEvent h e = m.absorbPtyEvent h t e := by
  unfold onPtyEvent
  dsimp only
  rw [ht]
  dsimp only
  rw [if_neg (by simp [hg, hr])]

/-- How a process stands after its event. -/
def statusAfter : TerminalStatus → PtyEvent → TerminalStatus
  | _, .spawned _ _ processId => .running processId
  | status, .output _ _ _ => status
  | _, .exited _ _ exit => .exited exit
  | .exited exit, .failed _ _ _ => .exited exit
  | _, .failed _ _ message => .failed message

theorem processes_modifyTerminal (hn : (m.terminals.map (·.id)).Nodup)
    {f : TerminalSession → TerminalSession} {g : Process → Process}
    (hf : ∀ t ∈ m.terminals, t.id = terminal → (f t).process = g t.process) :
    (m.modifyTerminal terminal f).processes =
      m.processes.map fun p => if p.terminal = terminal then g p else p := by
  rw [modifyTerminal_first, processes, processes, Firsts.modifyFirst_eq_map hn, List.map_map,
    List.map_map]
  refine List.map_congr_left fun t ht => ?_
  by_cases hid : t.id = terminal
  · rw [Function.comp_apply, Function.comp_apply, if_pos hid, if_pos (by exact hid), hf t ht hid]
  · rw [Function.comp_apply, Function.comp_apply, if_neg hid, if_neg (by exact hid)]

/-- **A process's event** says how it stands, and changes no other. -/
theorem onPtyEvent_processes (hn : (m.terminals.map (·.id)).Nodup)
    (ht : m.terminalWithId (eventTerminal e).1 = some t) (hg : t.generation = (eventTerminal e).2)
    (hr : t.released = false) : (m.onPtyEvent h e).processes = m.processes.map fun p =>
      if p.terminal = (eventTerminal e).1 then { p with status := statusAfter p.status e } else p := by
  rw [onPtyEvent_current ht hg hr]
  cases e with
  | spawned terminal generation processId =>
    rw [absorbPtyEvent, processes, (completeTerminalCreate_eq ..).1]
    exact processes_modifyTerminal hn fun _ _ _ => rfl
  | output terminal generation bytes =>
    have hkept : (m.processes.map fun p => if p.terminal = terminal then
        { p with status := statusAfter p.status (.output terminal generation bytes) } else p) =
          m.processes := by
      refine (List.map_congr_left fun p _ => ?_).trans (List.map_id _)
      split_ifs <;> rfl
    rw [absorbPtyEvent]
    split_ifs
    · exact hkept.symm
    · exact (modifyTerminal_processes m terminal
        (f := fun t => { t with captured := t.captured ++ bytes }) fun _ => rfl).trans hkept.symm
  | exited terminal generation exit => exact processes_modifyTerminal hn fun _ _ _ => rfl
  | failed terminal generation message =>
    have hone : ∀ t' ∈ m.terminals, t'.id = terminal → t' = t := by
      intro t' hm hid
      have hid' : t.id = terminal :=
        of_decide_eq_true (List.find?_some (p := fun t : TerminalSession => t.id = terminal) ht)
      exact List.inj_on_of_nodup_map hn hm (List.mem_of_find?_eq_some ht) (hid.trans hid'.symm)
    rw [absorbPtyEvent]
    split
    · rename_i exit hexit
      refine ((List.map_congr_left fun p hp => ?_).trans (List.map_id _)).symm
      split_ifs with hid
      · obtain ⟨t', hm, rfl⟩ := List.mem_map.mp hp
        rw [hone t' hm hid]
        simp [TerminalSession.process, statusAfter, hexit]
      · rfl
    · rename_i hne
      refine Eq.trans (congrArg (List.map _) (completeTerminalCreate_eq ..).1) ?_
      refine processes_modifyTerminal hn fun t' hm hid => ?_
      rw [hone t' hm hid]
      cases hs : t.status with
      | exited exit => exact absurd hs (hne exit)
      | starting | running | failed => simp [TerminalSession.process, statusAfter, hs]

end Model

end App

end Termesh
