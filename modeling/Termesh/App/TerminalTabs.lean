import Termesh.App.Serving
import Termesh.Lib.Tabs

/-!
# Terminal tabs

The terminals and the one on screen are a row of tabs. Terminals are numbered when they are created,
so none is there twice, and closing one follows the tab on screen. An agent's terminal is put on
screen only while the human is elsewhere, which in an empty pane is not enough.

* `terminalRow`, `pane`: the row, with the number of the newest terminal;
* `Retains`: no terminal goes; `Numbered`: terminals have numbers of their own;
* `Spawns`, `spawnedPane_eq`: the events that create a terminal for the agent;
* **`step_terminals`**: every other event retains the terminals, or closes one.
-/

namespace Termesh

namespace App.Model

open Tabs

variable {h : Host} {m m' m₁ : Model}

def terminalRow (m : Model) : Row TerminalId := ⟨m.terminals.map (·.id), m.activeTerminal⟩

/-- The terminal tabs, and the number of the newest terminal. -/
def pane (m : Model) : Row TerminalId × ℕ := (m.terminalRow, m.nextTerminalId)

theorem pane_of_dealings (hd : m'.dealings = m.dealings) : m'.pane = m.pane :=
  show m'.dealings.pane = m.dealings.pane by rw [hd]

/-- Terminals have numbers of their own, none above the newest. -/
def Numbered (p : Row TerminalId × ℕ) : Prop := p.1.tabs.Nodup ∧ ∀ id ∈ p.1.tabs, id.val ≤ p.2

/-- No terminal goes, and those that come have new numbers. -/
structure Retains (m m' : Model) : Prop where
  row : m.terminalRow.Keeps m'.terminalRow
  numbered : Numbered m.pane → Numbered m'.pane

theorem Retains.of_pane (hp : m'.pane = m.pane) : Retains m m' := by
  have hrow : m'.terminalRow = m.terminalRow := congrArg Prod.fst hp
  exact ⟨.of_eq hrow, fun hn => hp ▸ hn⟩

theorem Retains.trans (hr : Retains m m₁) (hr' : Retains m₁ m') : Retains m m' :=
  ⟨hr.row.trans hr'.row, fun hn => hr'.numbered (hr.numbered hn)⟩

theorem Numbered.append {r : Row TerminalId} {n : ℕ} (hn : Numbered (r, n)) (active : Option ℕ) :
    Numbered (⟨r.tabs ++ [⟨n + 1⟩], active⟩, n + 1) := by
  constructor
  · refine List.nodup_append.mpr ⟨hn.1, List.nodup_singleton _, ?_⟩
    rintro id hid new hnew rfl
    have hle := hn.2 id hid
    rw [List.mem_singleton.mp hnew] at hle
    exact Nat.not_succ_le_self n hle
  · intro id hid
    rcases List.mem_append.mp hid with hid | hid
    · exact Nat.le_succ_of_le (hn.2 id hid)
    · rw [List.mem_singleton.mp hid]

theorem Numbered.close {r : Row TerminalId} {n : ℕ} (hn : Numbered (r, n)) (k j : ℕ) :
    Numbered (r.close k j, n) :=
  ⟨Row.nodup_close hn.1 k j, fun id hid => hn.2 id (List.mem_of_mem_eraseIdx hid)⟩

/-! ## Opening and selecting -/

theorem Retains.opened (hp : m'.pane = (⟨m.terminalRow.tabs ++ [⟨m.nextTerminalId + 1⟩],
    some m.terminals.length⟩, m.nextTerminalId + 1)) : Retains m m' := by
  constructor
  · rw [show m'.terminalRow = _ from congrArg Prod.fst hp]
    have hopen := Row.keeps_append m.terminalRow ⟨m.nextTerminalId + 1⟩
    rwa [show m.terminalRow.tabs.length = m.terminals.length from List.length_map _] at hopen
  · intro hn
    rw [hp]
    exact hn.append _

theorem createTerminalWithLimit_pane (m : Model) (spec : TerminalSpec) (owner : TerminalOwner)
    (limit : ℕ) :
    (m.createTerminalWithLimit spec owner limit).2.pane =
      (⟨m.terminalRow.tabs ++ [⟨m.nextTerminalId + 1⟩],
        (m.createTerminalWithLimit spec owner limit).2.activeTerminal⟩, m.nextTerminalId + 1) := by
  let t : TerminalSession :=
    { id := ⟨m.nextTerminalId + 1⟩, generation := ⟨1⟩, spec, owner
      title := "Terminal " ++ Nat.repr (m.nextTerminalId + 1), status := .starting
      captureLimit := limit }
  have hids : (m.terminals ++ [t]).map (·.id) =
      m.terminals.map (·.id) ++ [⟨m.nextTerminalId + 1⟩] := List.map_append
  unfold createTerminalWithLimit
  dsimp only
  split
  · split_ifs
    · exact Prod.ext (congrArg (Row.mk · _) hids) rfl
    · exact Prod.ext (congrArg (Row.mk · _) hids) rfl
  · exact Prod.ext (congrArg (Row.mk · _) hids) rfl

theorem createTerminal_retains (m : Model) (spec : TerminalSpec) {owner : TerminalOwner}
    (ho : ∀ session, owner ≠ .agent session) : Retains m (m.createTerminal spec owner) := by
  refine .opened ((createTerminalWithLimit_pane m spec owner defaultCaptureLimit).trans ?_)
  cases owner with
  | agent session => exact absurd rfl (ho session)
  | humanShell | humanCommand => rfl

theorem newShellTerminal_retains (h : Host) (m : Model) : Retains m (m.newShellTerminal h) :=
  createTerminal_retains m _ (by simp)

theorem toggleTerminalFocus_retains (h : Host) (m : Model) :
    Retains m (m.toggleTerminalFocus h) := by
  unfold toggleTerminalFocus
  split_ifs
  · exact .of_pane rfl
  · exact newShellTerminal_retains h m
  · exact .of_pane rfl

theorem cycleTerminal_retains (h : Host) (m : Model) (delta : Int) :
    Retains m (m.cycleTerminal h delta) := by
  unfold cycleTerminal
  split_ifs with hnil
  · exact newShellTerminal_retains h m
  · have hpos : 0 < m.terminals.length := List.length_pos_of_ne_nil hnil
    have hlt : (((m.activeTerminal.getD 0 : ℕ) + delta) % (m.terminals.length : ℤ)).toNat <
        m.terminalRow.tabs.length := by
      rw [show m.terminalRow.tabs.length = m.terminals.length from List.length_map _]
      have hmod := Int.emod_lt_of_pos ((m.activeTerminal.getD 0 : ℕ) + delta)
        (Int.natCast_pos.mpr hpos)
      omega
    exact ⟨Row.keeps_select hlt, id⟩

theorem restartTerminal_retains (hr : m.restartTerminal h = some m') : Retains m m' := by
  unfold restartTerminal at hr
  split at hr
  · exact Option.some.inj hr ▸ newShellTerminal_retains h m
  · rename_i index _
    obtain ⟨s, hs, rfl⟩ := Option.map_eq_some_iff.mp hr
    dsimp only
    split
    · exact .of_pane rfl
    · refine .of_pane (Prod.ext (congrArg (Row.mk · m.activeTerminal) ?_) rfl)
      exact Firsts.map_set_of_eq hs rfl

theorem restoreSession_retains (h : Host) (m : Model) (w : RestoredWorkspace) :
    Retains m (m.restoreSession h w) := by
  have hread : ∀ (paths : List Path) (m : Model), (m.openRestored paths).1.dealings = m.dealings := by
    intro paths
    induction paths with
    | nil => exact fun m => rfl
    | cons path rest ih => exact fun m => (ih _).trans (openFile_dealings m path)
  have hterm : ∀ (ts : List Path) (m₁ : Model), Retains m m₁ → Retains m (ts.foldl (fun m cwd =>
      m.createTerminal (h.shell cwd) .humanShell) m₁) := by
    intro ts
    induction ts with
    | nil => exact fun m₁ hm => hm
    | cons t ts ih => exact fun m₁ hm => ih _ (hm.trans (createTerminal_retains m₁ _ (by simp)))
  have hopen : Retains m ((m.openWorkspace w.root w.configured).openRestored w.openPaths).1 :=
    .of_pane ((pane_of_dealings (hread _ _)).trans rfl)
  unfold restoreSession
  dsimp only
  split_ifs
  · exact (hterm w.terminals _ hopen).trans (.of_pane rfl)
  · refine (hterm w.terminals _ (hopen.trans ?_)).trans (.of_pane rfl)
    exact .of_pane rfl

/-! ## Processes and calls -/

theorem modifyTerminal_pane (m : Model) (terminal : TerminalId)
    {f : TerminalSession → TerminalSession} (hf : ∀ t, (f t).id = t.id) :
    (m.modifyTerminal terminal f).pane = m.pane := by
  have hids := modifyTerminal_ids m terminal hf
  rw [modifyTerminal_eq] at hids ⊢
  exact Prod.ext (congrArg (Row.mk · m.activeTerminal) hids) rfl

theorem completeTerminalCreate_pane (m : Model) (p : PendingTerminalCreate → Bool)
    (response : AgentTerminalResponse) : (m.completeTerminalCreate p response).pane = m.pane := by
  unfold completeTerminalCreate
  split
  · rfl
  · split <;> rfl

theorem rejectPendingPermission_pane (m : Model) (session : Option SessionId) (reason : String) :
    (m.rejectPendingPermission session reason).pane = m.pane := by
  unfold rejectPendingPermission
  split
  · rfl
  · split_ifs
    · split
      · rfl
      · dsimp only
        split <;> rfl
    · rfl

theorem cancelAgentTerminals_pane (m : Model) (session : SessionId) (reason : String) :
    (m.cancelAgentTerminals session reason).pane = m.pane := by
  have hfold : ∀ (ts : List TerminalSession) (m : Model),
      (ts.foldl (releaseEnded reason) m).pane = m.pane := by
    intro ts
    induction ts with
    | nil => exact fun m => rfl
    | cons t ts ih =>
      intro m
      refine (ih _).trans (Eq.trans ?_ (modifyTerminal_pane
        { m with terminalOutbox := m.terminalOutbox ++ t.releaseRequests t.status.isLive } t.id
        (f := fun t => { t with released := true }) fun _ => rfl))
      rfl
  unfold cancelAgentTerminals
  exact (hfold _ _).trans (rejectPendingPermission_pane m (some session) reason)

theorem shutdownTerminals_pane (m : Model) : m.shutdownTerminals.pane = m.pane := by
  have hreject := rejectPendingPermission_pane m none "application shutting down"
  unfold shutdownTerminals
  dsimp only
  generalize m.rejectPendingPermission none "application shutting down" = m₁ at hreject
  rw [← hreject]
  refine Prod.ext (congrArg (Row.mk · m₁.activeTerminal) ?_) rfl
  rw [List.map_map]
  rfl

theorem onPtyEvent_pane (h : Host) (m : Model) (e : PtyEvent) : (m.onPtyEvent h e).pane = m.pane := by
  unfold onPtyEvent
  dsimp only
  split
  · rfl
  · split_ifs
    · rfl
    · cases e with
      | spawned terminal generation processId =>
        exact (completeTerminalCreate_pane ..).trans (modifyTerminal_pane m terminal fun _ => rfl)
      | output terminal generation bytes =>
        rw [absorbPtyEvent]
        split_ifs
        · rfl
        · exact modifyTerminal_pane m terminal
            (f := fun t => { t with captured := t.captured ++ bytes }) fun _ => rfl
      | exited terminal generation exit =>
        exact modifyTerminal_pane m terminal
          (f := fun t => { t with captureFinished := true, status := .exited exit }) fun _ => rfl
      | failed terminal generation message =>
        rw [absorbPtyEvent]
        split
        · rfl
        · refine Eq.trans (completeTerminalCreate_pane ..) ?_
          exact modifyTerminal_pane m terminal
            (f := fun t => { t with captureFinished := true, status := .failed message }) fun _ => rfl

/-! ## Closing -/

theorem tabAfterRemoval_slide {a k last : ℕ} (hne : a ≠ k) :
    tabAfterRemoval (some a) k last = slide k a := by
  rw [tabAfterRemoval, slide, if_neg hne]

theorem tabAfterRemoval_lt {active : Option ℕ} {k n : ℕ} (hk : k < n) (hn : 1 < n)
    (ha : ∀ a, active = some a → a < n) : tabAfterRemoval active k (n - 1 - 1) < n - 1 := by
  unfold tabAfterRemoval
  split
  · rename_i a
    have := ha a rfl
    split_ifs <;> omega
  · omega

theorem removeTerminal_pane (m : Model) (terminal : TerminalId) (kill : Bool) :
    (m.removeTerminal terminal kill).pane = m.pane ∨ ∃ k < m.terminals.length,
      (m.removeTerminal terminal kill).pane =
        (m.terminalRow.close k (tabAfterRemoval m.activeTerminal k (m.terminals.length - 1 - 1)),
          m.nextTerminalId) := by
  unfold removeTerminal
  split
  · exact .inl rfl
  · rename_i k hk
    obtain ⟨hlt, -, -⟩ := List.findIdx?_eq_some_iff_getElem.mp hk
    rw [List.getElem?_eq_getElem hlt]
    refine .inr ⟨k, hlt, ?_⟩
    have hcreate := completeTerminalCreate_pane m (fun c => decide (c.terminal = terminal))
      (.error "terminal closed")
    obtain ⟨ht, hn, -⟩ := completeTerminalCreate_eq m (fun c => decide (c.terminal = terminal))
      (.error "terminal closed")
    dsimp only
    generalize m.completeTerminalCreate (fun c => decide (c.terminal = terminal))
      (.error "terminal closed") = m₁ at hcreate ht hn
    have hactive : m₁.activeTerminal = m.activeTerminal :=
      congrArg (fun p : Row TerminalId × ℕ => p.1.active) hcreate
    have hids : (m.terminals.eraseIdx k).map (·.id) = (m.terminals.map (·.id)).eraseIdx k :=
      (List.eraseIdx_map ..).symm
    have hlen : (m.terminals.eraseIdx k).length = m.terminals.length - 1 :=
      List.length_eraseIdx_of_lt hlt
    have hnil : m.terminals.eraseIdx k = [] ↔ (m.terminals.map (·.id)).eraseIdx k = [] := by
      rw [← hids, List.map_eq_nil_iff]
    refine Prod.ext ?_ hn
    change Row.mk ((m₁.terminals.eraseIdx k).map (·.id)) (if m₁.terminals.eraseIdx k = [] then none
      else some (tabAfterRemoval m₁.activeTerminal k ((m₁.terminals.eraseIdx k).length - 1))) = _
    rw [ht, hactive, hids, hlen]
    unfold Row.close terminalRow
    by_cases he : m.terminals.eraseIdx k = []
    · rw [if_pos he, if_pos (hnil.mp he)]
    · rw [if_neg he, if_neg fun hc => he (hnil.mpr hc)]

/-- **A removed terminal's tab goes, and the one on screen is followed.** -/
theorem removeTerminal_tends (m : Model) (terminal : TerminalId) (kill : Bool) :
    m.terminalRow.Tends (m.removeTerminal terminal kill).terminalRow ∧
      (Numbered m.pane → Numbered (m.removeTerminal terminal kill).pane) := by
  rcases removeTerminal_pane m terminal kill with hp | ⟨k, hk, hp⟩
  · exact ⟨(Retains.of_pane hp).row.tends, (Retains.of_pane hp).numbered⟩
  · have hrow := congrArg Prod.fst hp
    change (m.removeTerminal terminal kill).terminalRow = _ at hrow
    have hlen : m.terminalRow.tabs.length = m.terminals.length := List.length_map _
    refine ⟨?_, fun hn => hp ▸ hn.close k _⟩
    rw [hrow]
    refine ⟨fun hv => Row.valid_close fun hne => ?_, fun hv => Row.follows_close hv ?_⟩
    · have herase := List.length_eraseIdx_of_lt (hlen.symm ▸ hk)
      have hpos := List.length_pos_of_ne_nil hne
      rw [herase, hlen] at hpos ⊢
      exact tabAfterRemoval_lt hk (by omega) fun a ha => hlen ▸ hv.2 a ha
    · intro a ha hne
      rw [show m.activeTerminal = some a from ha, tabAfterRemoval_slide hne]

theorem closeTerminal_tends (m : Model) : m.terminalRow.Tends m.closeTerminal.terminalRow ∧
    (Numbered m.pane → Numbered m.closeTerminal.pane) := by
  unfold closeTerminal
  split
  · exact ⟨(Row.Keeps.refl _).tends, id⟩
  · split_ifs
    · exact ⟨(Row.Keeps.refl _).tends, id⟩
    · exact removeTerminal_tends m _ _

/-! ## Terminals of the agent -/

/-- The pending permission is about a terminal of the agent. -/
def HoldsCreate (m : Model) : Prop :=
  ∃ agent pending session request spec limit, m.agent = some agent ∧
    agent.pendingPermission = some pending ∧
      pending.origin = .terminalCreate session request spec limit

/-- The event creates a terminal for the agent: it may, or the human allows it. -/
def Spawns (m : Model) : Event → Prop
  | .agent (.terminalRequest session _ (.create spec _ preauthorized)) =>
    (∃ agent, m.agent = some agent ∧ agent.id = session) ∧
      (preauthorized || m.root.any fun root => m.permissionPolicy.permits root spec) = true
  | .decidePermission decision => decision.allows = true ∧ m.HoldsCreate
  | .dispatch .agentAllowOnce | .dispatch .agentAllowAlways => m.HoldsCreate
  | .dispatch .proposalAccept => m.gatedFirst = true ∧ m.HoldsCreate
  | _ => False

/-- The tabs once the agent has a new terminal: the human's focus on the pane keeps the one on
screen there, even if there is none. -/
def spawnedPane (m : Model) : Row TerminalId × ℕ :=
  (⟨m.terminalRow.tabs ++ [⟨m.nextTerminalId + 1⟩],
    if m.focus = .terminal then m.activeTerminal else some m.terminals.length⟩,
    m.nextTerminalId + 1)

theorem spawnAgentTerminal_pane (m : Model) (session : SessionId)
    (request : AgentTerminalRequestId) (spec : TerminalSpec) (limit : ℕ) :
    (m.spawnAgentTerminal session request spec limit).pane = m.spawnedPane := by
  refine (createTerminalWithLimit_pane m spec (.agent session) limit).trans ?_
  unfold createTerminalWithLimit spawnedPane
  dsimp only
  split_ifs <;> rfl

theorem spawnedPane_eq (hp : m'.pane = m.pane) (hf : m'.focus = m.focus) :
    m'.spawnedPane = m.spawnedPane := by
  have hlen : ∀ m : Model, m.terminals.length = m.pane.1.tabs.length :=
    fun m => (List.length_map _).symm
  have key : ∀ m : Model, m.spawnedPane = (⟨m.pane.1.tabs ++ [⟨m.pane.2 + 1⟩],
      if m.focus = .terminal then m.pane.1.active else some m.pane.1.tabs.length⟩,
      m.pane.2 + 1) := by
    intro m
    rw [← hlen]
    rfl
  rw [key, key, hp, hf]

theorem syncProposals_focus (hs : m.syncProposals h = some m') : m'.focus = m.focus := by
  unfold syncProposals at hs
  split at hs
  · rw [← Option.some.inj hs]
  · split_ifs at hs
    · rw [← Option.some.inj hs]
    · obtain ⟨ps, -, rfl⟩ := Option.map_eq_some_iff.mp hs
      rfl

theorem rememberPermission_focus (m : Model) (spec : TerminalSpec) :
    (m.rememberPermission spec).focus = m.focus := by
  unfold rememberPermission
  dsimp only
  split <;> rfl

/-- What an answer does: a create that is allowed is a new terminal. -/
theorem answerPermission_pane (m : Model) (pending : PendingPermission)
    (decision : PermissionDecision) :
    (decision.allows = true ∧ (∃ session request spec limit,
        pending.origin = .terminalCreate session request spec limit) ∧
      (m.answerPermission pending decision).pane = m.spawnedPane) ∨
    (¬ (decision.allows = true ∧ ∃ session request spec limit,
        pending.origin = .terminalCreate session request spec limit) ∧
      (m.answerPermission pending decision).pane = m.pane) := by
  have hremember : ∀ spec, (m.rememberPermission spec).pane = m.pane := fun spec =>
    pane_of_dealings (rememberPermission_dealings m spec)
  unfold answerPermission
  split
  · rename_i request spec ho
    refine .inr ⟨?_, ?_⟩
    · rintro ⟨-, _, _, _, _, hc⟩
      rw [ho] at hc
      cases hc
    split
    · split_ifs
      · exact hremember _
      · rfl
    · rfl
  · rename_i session request spec limit ho
    split_ifs with hallows halways
    · refine .inl ⟨hallows, ⟨_, _, _, _, ho⟩, (spawnAgentTerminal_pane ..).trans ?_⟩
      exact spawnedPane_eq (hremember spec) (rememberPermission_focus m spec)
    · exact .inl ⟨hallows, ⟨_, _, _, _, ho⟩, spawnAgentTerminal_pane ..⟩
    · exact .inr ⟨fun hc => hallows hc.1, rfl⟩

/-- **A decision creates a terminal** if it allows one. -/
theorem decidePermission_pane {decision : PermissionDecision}
    (hd : m.decidePermission h decision = some m') :
    (decision.allows = true ∧ m.HoldsCreate ∧ m'.pane = m.spawnedPane) ∨
      (¬ (decision.allows = true ∧ m.HoldsCreate) ∧ m'.pane = m.pane) := by
  unfold decidePermission at hd
  split at hd
  · rename_i ha
    refine .inr ⟨?_, by rw [← Option.some.inj hd]⟩
    rintro ⟨-, agent, _, _, _, _, _, hm, -⟩
    rw [ha] at hm
    cases hm
  · rename_i agent ha
    split at hd
    · rename_i hnone
      refine .inr ⟨?_, by rw [← Option.some.inj hd]⟩
      rintro ⟨-, agent', _, _, _, _, _, hm, hp, -⟩
      rw [← Option.some.inj (ha.symm.trans hm), hnone] at hp
      cases hp
    · rename_i pending hpending
      obtain ⟨m₁, hm₁, rfl⟩ := Option.map_eq_some_iff.mp hd
      have hclear : m₁.pane = m.pane ∧ m₁.focus = m.focus := by
        cases hr : pending.review with
        | none =>
          rw [hr] at hm₁
          exact Option.some.inj hm₁ ▸ ⟨rfl, rfl⟩
        | some reviewed =>
          rw [hr] at hm₁
          have hpane := pane_of_dealings (dealings_of_outline (syncProposals_outline hm₁))
          exact ⟨hpane.trans rfl, (syncProposals_focus hm₁).trans rfl⟩
      have hholds : m.HoldsCreate ↔ ∃ session request spec limit,
          pending.origin = .terminalCreate session request spec limit := by
        constructor
        · rintro ⟨agent', pending', session, request, spec, limit, ha', hp', ho⟩
          obtain rfl := Option.some.inj (ha.symm.trans ha')
          obtain rfl := Option.some.inj (hpending.symm.trans hp')
          exact ⟨session, request, spec, limit, ho⟩
        · rintro ⟨session, request, spec, limit, ho⟩
          exact ⟨agent, pending, session, request, spec, limit, ha, hpending, ho⟩
      have hnotify : ∀ m₂ : Model, (if m₂.notification.isNone then
          m₂.notify ((if decision.allows then "approved: " else "denied: ") ++ pending.summary)
          else m₂).pane = m₂.pane := by
        intro m₂
        split_ifs <;> rfl
      rw [hholds]
      rcases answerPermission_pane m₁ pending decision with ⟨hallows, hc, hp⟩ | ⟨hno, hp⟩
      · refine .inl ⟨hallows, hc, (hnotify _).trans (hp.trans ?_)⟩
        exact spawnedPane_eq hclear.1 hclear.2
      · exact .inr ⟨hno, (hnotify _).trans (hp.trans hclear.1)⟩

theorem resolveProposal_pane {accept : Bool} (hr : m.resolveProposal h accept = some m') :
    (accept = true ∧ m.gatedFirst = true ∧ m.HoldsCreate ∧ m'.pane = m.spawnedPane) ∨
      (¬ (accept = true ∧ m.gatedFirst = true ∧ m.HoldsCreate) ∧ m'.pane = m.pane) := by
  cases hg : m.gatedFirst with
  | true =>
    unfold resolveProposal at hr
    rw [hg, if_pos rfl] at hr
    obtain ⟨m₁, hd, rfl⟩ := Option.map_eq_some_iff.mp hr
    have hallows : (if accept then PermissionDecision.allowOnce else .rejectOnce).allows = true ↔
        accept = true := by cases accept <;> decide
    rcases decidePermission_pane hd with ⟨ha, hc, hp⟩ | ⟨hno, hp⟩
    · exact .inl ⟨hallows.mp ha, rfl, hc, hp⟩
    · exact .inr ⟨fun hc => hno ⟨hallows.mpr hc.1, hc.2.2⟩, hp⟩
  | false =>
    refine .inr ⟨fun hc => Bool.false_ne_true hc.2.1, ?_⟩
    rcases resolveProposal_dealings hr with ⟨hg', -⟩ | hd | ⟨-, agent, p, rest, decision, -, -, hd⟩
    · rw [hg] at hg'
      cases hg'
    · exact pane_of_dealings hd
    · exact (pane_of_dealings hd).trans rfl

theorem createForAgent_pane (m : Model) (session : SessionId) (request : AgentTerminalRequestId)
    (spec : TerminalSpec) (limit : ℕ) (preauthorized : Bool) :
    (m.createForAgent session request spec limit preauthorized).pane =
      if (preauthorized || m.root.any fun root => m.permissionPolicy.permits root spec) = true then
        m.spawnedPane
      else m.pane := by
  unfold createForAgent
  split_ifs
  · exact spawnAgentTerminal_pane ..
  · split
    · rfl
    · split_ifs <;> rfl

theorem handleAgentTerminal_pane (h : Host) (m : Model) (session : SessionId)
    (request : AgentTerminalRequestId) {operation : AgentTerminalOperation}
    (ho : ∀ spec limit preauthorized, operation ≠ .create spec limit preauthorized) :
    (m.handleAgentTerminal h session request operation).pane = m.pane := by
  have hserve : ∀ (terminal : TerminalId) (f : ℕ → TerminalSession → Model),
      (∀ i t, (f i t).pane = m.pane) →
        (m.withAgentTerminal session request terminal f).pane = m.pane := by
    intro terminal f hf
    unfold withAgentTerminal
    dsimp only
    split
    · rfl
    · exact hf _ _
  unfold handleAgentTerminal
  split_ifs
  · rfl
  · cases operation with
    | create spec limit preauthorized => exact absurd rfl (ho spec limit preauthorized)
    | output terminal => exact hserve terminal _ fun _ _ => rfl
    | waitForExit terminal =>
      refine hserve terminal _ fun i t => ?_
      split <;> rfl
    | kill terminal => exact hserve terminal _ fun _ _ => rfl
    | release terminal =>
      refine hserve terminal _ fun i t => Prod.ext (congrArg (Row.mk · m.activeTerminal) ?_) rfl
      exact map_id_modify (f := fun t => { t with released := true }) (fun _ => rfl) m.terminals i

theorem startSession_pane (h : Host) (m : Model) (session : SessionId) :
    (m.startSession h session).pane = m.pane :=
  startSession_spec (P := fun m' => m'.pane = m.pane) (R := fun m' => m'.pane = m.pane)
    (Q := fun m' => m'.pane = m.pane) h session rfl rfl (fun _ h₁ _ => h₁)
    (fun _ _ h₁ _ => (cancelAgentTerminals_pane ..).trans h₁) (fun _ h₂ => h₂) fun _ _ h₂ => h₂

/-- **An agent's event** creates a terminal, or keeps the tabs. -/
theorem onAgentEvent_pane {e : AgentEvent} (hs : m.onAgentEvent h e = some m') :
    (m.Spawns (.agent e) ∧ m'.pane = m.spawnedPane) ∨
      (¬ m.Spawns (.agent e) ∧ m'.pane = m.pane) := by
  have hidle : (m.modifyAgent fun agent => { agent with turnActive := false }).pane = m.pane := rfl
  cases e with
  | ready | modesAvailable | terminalAttached => exact .inr ⟨id, Option.some.inj hs ▸ rfl⟩
  | modeChanged session mode =>
    rw [onAgentEvent] at hs
    split at hs <;> exact .inr ⟨id, Option.some.inj hs ▸ rfl⟩
  | sessionStarted session => exact .inr ⟨id, Option.some.inj hs ▸ startSession_pane h m session⟩
  | messageChunk _ text | thoughtChunk _ text =>
    refine .inr ⟨id, ?_⟩
    rw [← Option.some.inj hs]
    unfold pushTranscript
    split <;> rfl
  | readFileRequested session request path =>
    refine .inr ⟨id, ?_⟩
    rw [← Option.some.inj hs]
    unfold serveRead
    split
    · rfl
    · split_ifs <;> rfl
  | proposedEdit =>
    refine .inr ⟨id, ?_⟩
    rcases receiveProposal_dealings hs with hm' | ⟨p, -, hm'⟩
    · exact pane_of_dealings hm'
    · exact (pane_of_dealings hm').trans rfl
  | permissionRequested =>
    refine .inr ⟨id, ?_⟩
    rcases receivePermission_dealings hs with rfl | ⟨agent, text, review, shown, -, -, -, -, hm'⟩
    · rfl
    · exact (pane_of_dealings hm').trans rfl
  | terminalRequest session request operation =>
    obtain rfl := Option.some.inj hs
    cases operation with
    | create spec limit preauthorized =>
      have hlive : (m.agent.all fun agent => agent.id ≠ session) = true ↔
          ¬ ∃ agent, m.agent = some agent ∧ agent.id = session := by
        cases m.agent <;> simp
      by_cases hany : ∃ agent, m.agent = some agent ∧ agent.id = session
      · have hcreate := createForAgent_pane m session request spec limit preauthorized
        unfold handleAgentTerminal
        rw [if_neg fun hc => hlive.mp hc hany]
        split_ifs at hcreate with hmay
        · exact .inl ⟨⟨hany, hmay⟩, hcreate⟩
        · exact .inr ⟨fun hc => hmay hc.2, hcreate⟩
      · refine .inr ⟨fun hc => hany hc.1, ?_⟩
        unfold handleAgentTerminal
        rw [if_pos (hlive.mpr hany)]
        rfl
    | output | waitForExit | kill | release =>
      exact .inr ⟨id, handleAgentTerminal_pane h m session request (by simp)⟩
  | turnEnded session reason =>
    refine .inr ⟨id, ?_⟩
    rw [← Option.some.inj hs]
    split_ifs
    · exact (cancelAgentTerminals_pane ..).trans hidle
    · exact hidle
  | failed session message =>
    exact .inr ⟨id, Option.some.inj hs ▸ (cancelAgentTerminals_pane ..).trans hidle⟩

/-! ## Steps -/

theorem confirmPrompt_terminals {prompt : Prompt} (hs : m.confirmPrompt h prompt = some m') :
    m.terminalRow.Tends m'.terminalRow ∧ (Numbered m.pane → Numbered m'.pane) := by
  have keep : Retains m m' →
      m.terminalRow.Tends m'.terminalRow ∧ (Numbered m.pane → Numbered m'.pane) :=
    fun hr => ⟨hr.row.tends, hr.numbered⟩
  by_cases hq : (Event.confirmPrompt prompt).Quiet
  · exact keep (.of_pane (pane_of_dealings (confirmPrompt_dealings hq hs)))
  · unfold confirmPrompt at hs
    rw [Event.Quiet] at hq
    dsimp only at hs
    split at hq
    · rename_i terminal hk
      rw [hk] at hs
      exact Option.some.inj hs ▸ removeTerminal_tends m terminal true
    · rename_i hk
      rw [hk] at hs
      refine keep ?_
      rw [← Option.some.inj hs]
      split_ifs
      · exact .of_pane rfl
      · exact createTerminal_retains m _ (by simp)
    · rename_i session hk
      rw [hk] at hs
      refine keep (.of_pane ?_)
      rw [← Option.some.inj hs]
      split_ifs
      · rfl
      · rfl
      · unfold newAgentSession
        dsimp only
        split <;> rfl
    · exact absurd trivial hq

/-- **What an event does to the terminals.** It creates one for the agent; or they are numbered as
before, the row stays valid, and the tab on screen is followed. -/
theorem step_terminals {ev : Event} (hs : m.step h ev = some m') :
    (m.Spawns ev ∧ m'.pane = m.spawnedPane) ∨
      (¬ m.Spawns ev ∧ m.terminalRow.Tends m'.terminalRow ∧
        (Numbered m.pane → Numbered m'.pane)) := by
  have keep : ¬ m.Spawns ev → Retains m m' → (m.Spawns ev ∧ m'.pane = m.spawnedPane) ∨
      (¬ m.Spawns ev ∧ m.terminalRow.Tends m'.terminalRow ∧
        (Numbered m.pane → Numbered m'.pane)) :=
    fun hn hr => .inr ⟨hn, hr.row.tends, hr.numbered⟩
  cases ev with
  | dispatch cmd =>
    obtain ⟨m₁, hm, hsync⟩ := Option.bind_eq_some_iff.mp hs
    have hlast : m'.pane = m₁.pane := pane_of_dealings (dealings_of_outline (syncAll_outline hsync))
    have hquiet : cmd.Quiet → m'.pane = m.pane := fun hq => pane_of_dealings (dispatch_dealings hq hs)
    have hquieter : Retains m { m with notification := none } := .of_pane rfl
    have hkept : Retains { m with notification := none } m₁ → Retains m m' := fun hr =>
      (hquieter.trans hr).trans (.of_pane hlast)
    cases cmd with
    | proposalAccept =>
      rcases resolveProposal_pane hm with ⟨-, hg, hc, hp⟩ | ⟨hno, hp⟩
      · exact .inl ⟨⟨hg, hc⟩, hlast.trans hp⟩
      · exact keep (fun hc => hno ⟨rfl, hc.1, hc.2⟩) (.of_pane (hlast.trans hp))
    | proposalReject =>
      rcases resolveProposal_pane hm with ⟨hc, -⟩ | ⟨-, hp⟩
      · cases hc
      · exact keep id (.of_pane (hlast.trans hp))
    | agentAllowOnce | agentAllowAlways =>
      rcases decidePermission_pane hm with ⟨-, hc, hp⟩ | ⟨hno, hp⟩
      · exact .inl ⟨hc, hlast.trans hp⟩
      · exact keep (fun hc => hno ⟨rfl, hc⟩) (.of_pane (hlast.trans hp))
    | agentDeny =>
      rcases decidePermission_pane hm with ⟨hc, -⟩ | ⟨-, hp⟩
      · cases hc
      · exact keep id (.of_pane (hlast.trans hp))
    | terminalFocus =>
      exact keep id (hkept (Option.some.inj hm ▸ toggleTerminalFocus_retains h _))
    | terminalNew => exact keep id (hkept (Option.some.inj hm ▸ newShellTerminal_retains h _))
    | terminalNext | terminalPrevious =>
      exact keep id (hkept (Option.some.inj hm ▸ cycleTerminal_retains h _ _))
    | terminalRestart => exact keep id (hkept (restartTerminal_retains hm))
    | terminalClose =>
      obtain ⟨htends, hnumbered⟩ := closeTerminal_tends { m with notification := none }
      rw [Option.some.inj hm] at htends hnumbered
      have hrow : m'.terminalRow = m₁.terminalRow := congrArg Prod.fst hlast
      exact .inr ⟨id, hrow ▸ htends, fun hn => hlast ▸ hnumbered hn⟩
    | save | restoreDrafts | reloadConfig | cursor | newline | backspace | deleteForward | undo
    | redo | find | replace | findNext | findPrev | nextTab | prevTab | closeTab | lspAtCursor
    | lspDocumentSymbols | lspWorkspaceSymbols | lspFormat | lspRename | lspCodeAction | lspRestart
    | agentSessionNew | agentPrompt | agentMode | terminalRun | focusPane | focusNext | focusPrev
    | closeOverlay | quit | other => exact keep id (.of_pane (hquiet trivial))
  | confirmPrompt prompt => exact .inr ⟨id, confirmPrompt_terminals hs⟩
  | restoreSession w => exact keep id (Option.some.inj hs ▸ restoreSession_retains h m w)
  | decidePermission decision =>
    rcases decidePermission_pane hs with ⟨hallows, hc, hp⟩ | ⟨hno, hp⟩
    · exact .inl ⟨⟨hallows, hc⟩, hp⟩
    · exact keep hno (.of_pane hp)
  | agent e =>
    rcases onAgentEvent_pane hs with hspawn | ⟨hno, hp⟩
    · exact .inl hspawn
    · exact keep hno (.of_pane hp)
  | pty e => exact keep id (.of_pane (Option.some.inj hs ▸ onPtyEvent_pane h m e))
  | shutdownTerminals => exact keep id (.of_pane (Option.some.inj hs ▸ shutdownTerminals_pane m))
  | takeAgentRequests => exact keep id (.of_pane (Option.some.inj hs ▸ rfl))
  | typeChar | openFile | openFileAt | navigateProblem | openWorkspace | setOverlays
  | acceptSelectedRecoveryDrafts | discardRecoveryDrafts | acceptCompletion | acceptCodeAction
  | openLspLocation | applyTextEdits | applyWorkspaceEdit | setAgentMode | typeTerminal
  | setTerminalSize | fs | lsp | tick | takeFsRequests | takePtyRequests | takeLspRequests =>
    exact keep id (.of_pane (pane_of_dealings (step_dealings (by trivial) hs)))

/-- **When the terminals are tended**: unless a terminal of the agent comes into an empty pane that
has the focus. -/
theorem terminals_tended_iff {ev : Event} (hs : m.step h ev = some m') (hv : m.terminalRow.Valid) :
    m.terminalRow.Tends m'.terminalRow ↔
      ¬ (m.Spawns ev ∧ m.focus = .terminal ∧ m.terminals = []) := by
  rcases step_terminals hs with ⟨hspawn, hp⟩ | ⟨hno, htends, -⟩
  · have hrow : m'.terminalRow = ⟨m.terminalRow.tabs ++ [⟨m.nextTerminalId + 1⟩],
        if m.focus = .terminal then m.activeTerminal else some m.terminals.length⟩ :=
      congrArg Prod.fst hp
    rw [hrow]
    have hnil : m.terminals = [] ↔ m.terminalRow.tabs = [] := List.map_eq_nil_iff.symm
    constructor
    · rintro htends ⟨-, hfocus, hempty⟩
      rw [if_pos hfocus, show m.activeTerminal = none from hv.1.mpr (hnil.mp hempty)] at htends
      simpa using (htends.valid hv).1
    · intro hok
      by_cases hfocus : m.focus = .terminal
      · rw [if_pos hfocus]
        exact (Row.keeps_behind _ _ fun hc => hok ⟨hspawn, hfocus, hnil.mpr hc⟩).tends
      · rw [if_neg hfocus, ← show m.terminalRow.tabs.length = m.terminals.length from
          List.length_map _]
        exact (Row.keeps_append _ _).tends
  · exact ⟨fun _ hc => hno hc.1, fun _ => htends⟩

theorem step_numbered {ev : Event} (hs : m.step h ev = some m') (hn : Numbered m.pane) :
    Numbered m'.pane := by
  rcases step_terminals hs with ⟨-, hp⟩ | ⟨-, -, hnumbered⟩
  · rw [hp]
    exact hn.append _
  · exact hnumbered hn

end App.Model

end Termesh
