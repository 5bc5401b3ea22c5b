import Termesh.App.Aside

/-!
# The debounce of drafts

What the debounce has seen of the dirty buffers, and when it runs out. Few functions write to it:
the refresh of every entry point, a save that is confirmed and drafts that fall due. The others
leave it as it was.

* `Debounce`, `debounce_of_desk`: entry points about something else;
* buffers, drafts, proposals, the conversation, files, language servers: function by function;
* **`dispatchInner_debounce`**: no command writes to it, but for the refresh that follows.
-/

namespace Termesh

open Tables Buffer

namespace App

/-- The bookkeeping of drafts. -/
structure Debounce where
  autosave : Option ℕ
  versions : Table Path Version
  deadline : Option ℕ

namespace Model

def debounce (m : Model) : Debounce := ⟨m.autosave, m.draftVersions, m.draftDeadline⟩

variable {h : Host} {m m' m₁ : Model}

theorem debounce_of_desk (hd : m'.desk = m.desk) : m'.debounce = m.debounce :=
  show m'.desk.debounce = m.desk.debounce by rw [hd]

@[simp] theorem debounce_notify (m : Model) (s : String) : (m.notify s).debounce = m.debounce := rfl

@[simp] theorem debounce_send (m : Model) (r : FsRequest) : (m.send r).debounce = m.debounce := rfl

@[simp] theorem debounce_setBuffer (m : Model) (i : ℕ) (b : Buffer) :
    (m.setBuffer i b).debounce = m.debounce := rfl

@[simp] theorem debounce_appendNotification (m : Model) (s : String) :
    (m.appendNotification s).debounce = m.debounce := debounce_of_desk (desk_appendNotification m s)

@[simp] theorem debounce_restoreActiveBuffer (m : Model) (b : Option BufferId) :
    (m.restoreActiveBuffer b).debounce = m.debounce := by
  unfold restoreActiveBuffer
  split <;> rfl

theorem debounce_foldl {α : Type*} {f : Model → α → Model}
    (hf : ∀ m a, (f m a).debounce = m.debounce)
    (l : List α) (m : Model) : (l.foldl f m).debounce = m.debounce := by
  induction l generalizing m with
  | nil => rfl
  | cons a l ih => rw [List.foldl_cons, ih, hf]

/-! ## Buffers -/

theorem transact_debounce {i : ℕ} {c : ChangeSet} {s : EditSource} {r : Except EditError Unit}
    (ht : m.transact i c s = some (m', r)) : m'.debounce = m.debounce := by
  obtain ⟨b, -, ht⟩ := Option.bind_eq_some_iff.mp ht
  obtain ⟨x, -, hx⟩ := Option.map_eq_some_iff.mp ht
  rw [← (Prod.mk.inj hx).1]
  rfl

theorem editActive_debounce {f : Buffer → Option (Buffer × Except EditError Unit)}
    (he : m.editActive f = some m') : m'.debounce = m.debounce := by
  unfold editActive at he
  split at he
  · rw [← Option.some.inj he]
  · obtain ⟨x, -, hx⟩ := Option.map_eq_some_iff.mp he
    rw [← hx]
    dsimp only
    split <;> rfl

theorem withBuffer_debounce (m : Model) (f : Buffer → Buffer) :
    (m.withBuffer f).debounce = m.debounce := by
  unfold withBuffer
  split <;> rfl

theorem replayActive_debounce {f : Buffer → Option (Buffer × Bool)} {s : String}
    (hr : m.replayActive f s = some m') : m'.debounce = m.debounce := by
  obtain ⟨x, hx, rfl⟩ := Option.map_eq_some_iff.mp hr
  have hs : x.1.debounce = m.debounce := by
    unfold withBufferBool at hx
    split at hx
    · rw [← Option.some.inj hx]
    · obtain ⟨y, -, hy⟩ := Option.map_eq_some_iff.mp hx
      rw [← hy]
      rfl
  dsimp only
  split_ifs
  · exact hs
  · exact hs

theorem focusMatch_debounce (hf : m.focusMatch = some m') : m'.debounce = m.debounce := by
  unfold focusMatch at hf
  split at hf
  · dsimp only at hf
    split at hf
    · rw [← Option.some.inj hf]
      rfl
    · obtain ⟨t, -, ht⟩ := Option.map_eq_some_iff.mp hf
      rw [← ht]
      rfl
  · rw [← Option.some.inj hf]

theorem runFind_debounce {query : Text} (hr : m.runFind h query = some m') :
    m'.debounce = m.debounce := by
  unfold runFind at hr
  split at hr
  · rw [← Option.some.inj hr]
  · exact (focusMatch_debounce hr).trans rfl

theorem stepMatch_debounce {forward : Bool} (hs : m.stepMatch forward = some m') :
    m'.debounce = m.debounce := by
  unfold stepMatch at hs
  split at hs
  · rw [← Option.some.inj hs]
    rfl
  · split_ifs at hs
    · rw [← Option.some.inj hs]
      rfl
    · obtain ⟨current, -, hs⟩ := Option.bind_eq_some_iff.mp hs
      exact (focusMatch_debounce hs).trans rfl

theorem clearFind_debounce (m : Model) : m.clearFind.debounce = m.debounce := by
  unfold clearFind
  dsimp only
  split <;> rfl

theorem cycleTab_debounce (m : Model) (step : Int) : (m.cycleTab step).debounce = m.debounce := by
  unfold cycleTab
  split_ifs
  · rfl
  · split <;> rfl

theorem discardBuffer_debounce (m : Model) (id : BufferId) :
    (m.discardBuffer id).debounce = m.debounce := by
  unfold discardBuffer
  split <;> rfl

theorem closeTab_debounce (m : Model) : m.closeTab.debounce = m.debounce := by
  unfold closeTab
  split
  · rfl
  · split_ifs
    · rfl
    · exact discardBuffer_debounce m _

theorem positionOpenBuffer_debounce (m : Model) (path : Path) (line column : ℕ) :
    (m.positionOpenBuffer path line column).1.debounce = m.debounce := by
  unfold positionOpenBuffer
  split <;> rfl

theorem openFile_debounce (m : Model) (path : Path) : (m.openFile path).debounce = m.debounce := by
  unfold openFile
  split
  · rfl
  · split_ifs <;> rfl

theorem openFileAt_debounce (m : Model) (path : Path) (line column : ℕ) :
    (m.openFileAt path line column).debounce = m.debounce := by
  have hposition := positionOpenBuffer_debounce m path line column
  unfold openFileAt
  split
  · rename_i heq
    rw [heq] at hposition
    exact hposition
  · rename_i heq
    rw [heq] at hposition
    exact (openFile_debounce _ path).trans hposition

theorem openLspLocation_debounce (m : Model) (location : Location) :
    (m.openLspLocation location).debounce = m.debounce := by
  unfold openLspLocation
  split_ifs
  · exact openFileAt_debounce ..
  · rfl

/-! ## Drafts and proposals -/

theorem applyDraft_debounce {d : Draft} (ha : m.applyDraft d = some m') :
    m'.debounce = m.debounce := by
  unfold applyDraft at ha
  split at ha
  · rw [← Option.some.inj ha, debounce_appendNotification]
  · obtain ⟨c, -, ha⟩ := Option.bind_eq_some_iff.mp ha
    obtain ⟨x, hx, rfl⟩ := Option.map_eq_some_iff.mp ha
    have ht := transact_debounce hx
    dsimp only
    split
    · exact ht
    · rw [debounce_appendNotification, ht]

theorem applyDrafts_debounce {ds : List Draft} (ha : m.applyDrafts ds = some m') :
    m'.debounce = m.debounce := by
  induction ds generalizing m with
  | nil => rw [← Option.some.inj ha]
  | cons d ds ih =>
    obtain ⟨m₁, h₁, ha⟩ := Option.bind_eq_some_iff.mp ha
    rw [ih ha, applyDraft_debounce h₁]

theorem applyRecoveryDrafts_debounce {s : Bool} (ha : m.applyRecoveryDrafts s = some m') :
    m'.debounce = m.debounce := by
  unfold applyRecoveryDrafts at ha
  split at ha
  · exact (applyDrafts_debounce ha).trans rfl
  · rw [← Option.some.inj ha]
    rfl

theorem syncSyntax_debounce (hs : m.syncSyntax h = some m') : m'.debounce = m.debounce := by
  unfold syncSyntax at hs
  split at hs
  · rw [← Option.some.inj hs]
  · obtain ⟨b, -, rfl⟩ := Option.map_eq_some_iff.mp hs
    dsimp only
    split <;> rfl

theorem syncProposals_debounce (hs : m.syncProposals h = some m') : m'.debounce = m.debounce := by
  unfold syncProposals at hs
  split at hs
  · rw [← Option.some.inj hs]
  · split_ifs at hs
    · rw [← Option.some.inj hs]
    · obtain ⟨ps, -, rfl⟩ := Option.map_eq_some_iff.mp hs
      rfl

theorem replaceAll_debounce {replacement : Text} (hr : m.replaceAll h replacement = some m') :
    m'.debounce = m.debounce := by
  unfold replaceAll at hr
  split at hr
  · rw [← Option.some.inj hr]
  · split_ifs at hr
    · rw [← Option.some.inj hr]
      rfl
    · split at hr
      · rw [← Option.some.inj hr]
      · obtain ⟨c, -, hr⟩ := Option.bind_eq_some_iff.mp hr
        obtain ⟨⟨m₁, r⟩, ht, hr⟩ := Option.bind_eq_some_iff.mp hr
        have hdebounce := transact_debounce ht
        dsimp only at hr
        split at hr
        · rw [← Option.some.inj hr]
          exact hdebounce
        · exact (syncProposals_debounce hr).trans hdebounce

theorem decidePermission_debounce {decision : PermissionDecision}
    (hd : m.decidePermission h decision = some m') : m'.debounce = m.debounce := by
  rcases decidePermission_cases hd with rfl | ⟨agent, m₁, -, hdesk, hm₁⟩
  · rfl
  · rw [debounce_of_desk hdesk]
    rcases hm₁ with rfl | ⟨reviewed, hs⟩
    · rfl
    · exact (syncProposals_debounce hs).trans rfl

theorem applyReview_debounce {p : EditProposal} {n : ℕ} (ha : m.applyReview p = some (m', n)) :
    m'.debounce = m.debounce := by
  unfold applyReview at ha
  split at ha
  · rw [← (Prod.mk.inj (Option.some.inj ha)).1]
  · split_ifs at ha
    · rw [← (Prod.mk.inj (Option.some.inj ha)).1]
    · obtain ⟨c, -, ha⟩ := Option.bind_eq_some_iff.mp ha
      obtain ⟨⟨m₁, r⟩, ht, hx⟩ := Option.map_eq_some_iff.mp ha
      have hdebounce := transact_debounce ht
      dsimp only at hx
      split at hx
      · rw [← (Prod.mk.inj hx).1, hdebounce]
      · rw [← (Prod.mk.inj hx).1, debounce_notify, hdebounce]

theorem resolveProposal_debounce {accept : Bool} (hr : m.resolveProposal h accept = some m') :
    m'.debounce = m.debounce := by
  unfold resolveProposal at hr
  by_cases hgated : m.gatedFirst = true
  · rw [if_pos hgated] at hr
    obtain ⟨m₁, h₁, rfl⟩ := Option.map_eq_some_iff.mp hr
    exact (debounce_notify m₁ _).trans (decidePermission_debounce h₁)
  · rw [if_neg hgated] at hr
    split at hr
    · rw [← Option.some.inj hr, debounce_notify]
    · split at hr
      · rw [← Option.some.inj hr, debounce_notify]
      · obtain ⟨⟨m₁, n⟩, h₁, rfl⟩ := Option.map_eq_some_iff.mp hr
        have hdebounce : m₁.debounce = m.debounce := by
          split_ifs at h₁
          · exact (applyReview_debounce h₁).trans rfl
          · rw [← (Prod.mk.inj (Option.some.inj h₁)).1]
            rfl
        exact hdebounce

/-! ## The conversation -/

theorem receiveProposal_debounce {id : ProposalId} {path : Path} {oldText : Option Text}
    {newText : Text} (hr : m.receiveProposal h id path oldText newText = some m') :
    m'.debounce = m.debounce := by
  unfold receiveProposal at hr
  split_ifs at hr
  · rw [← Option.some.inj hr]
  · split at hr
    · rw [← Option.some.inj hr, debounce_notify]
    · obtain ⟨p, -, hr⟩ := Option.bind_eq_some_iff.mp hr
      exact (syncProposals_debounce hr).trans rfl

theorem receivePermission_debounce {session : SessionId} {request : PermissionRequestId}
    {summary : String} {command : List String} {spec : Option TerminalSpec}
    {edit : Option ProposedEditDiff}
    (hr : m.receivePermission h session request summary command spec edit = some m') :
    m'.debounce = m.debounce := by
  unfold receivePermission at hr
  split_ifs at hr
  · obtain ⟨⟨m₁, review, summary'⟩, h₁, rfl⟩ := Option.map_eq_some_iff.mp hr
    have hdebounce : m₁.debounce = m.debounce := by
      cases edit with
      | none => rw [← (Prod.mk.inj (Option.some.inj h₁)).1]
      | some edit =>
        dsimp only at h₁
        unfold reviewForPermission at h₁
        dsimp only at h₁
        split at h₁
        · rw [← (Prod.mk.inj (Option.some.inj h₁)).1]
        · split at h₁
          · rw [← (Prod.mk.inj (Option.some.inj h₁)).1]
          · rw [← (Prod.mk.inj (Option.some.inj h₁)).1]
          · obtain ⟨p, -, h₁⟩ := Option.bind_eq_some_iff.mp h₁
            obtain ⟨m₂, h₂, hx⟩ := Option.map_eq_some_iff.mp h₁
            rw [← (Prod.mk.inj hx).1]
            exact (syncProposals_debounce h₂).trans rfl
    exact hdebounce
  · rw [← Option.some.inj hr]
    rfl

theorem serveRead_debounce (m : Model) (session : SessionId) (request : ReadRequestId)
    (path : Path) : (m.serveRead session request path).debounce = m.debounce := by
  unfold serveRead
  split
  · rfl
  · split_ifs <;> rfl

theorem startSession_debounce (h : Host) (m : Model) (session : SessionId) :
    (m.startSession h session).debounce = m.debounce :=
  startSession_spec (P := fun m' => m'.debounce = m.debounce)
    (R := fun m' => m'.debounce = m.debounce) (Q := fun m' => m'.debounce = m.debounce) h session
    rfl rfl (fun _ h₁ _ => h₁)
    (fun _ _ h₁ _ => (debounce_of_desk (cancelAgentTerminals_desk _ _ _)).trans h₁)
    (fun _ h₂ => h₂) fun _ _ h₂ => (debounce_of_desk (sendPrompt_desk ..)).trans h₂

theorem onAgentEvent_debounce {e : AgentEvent} (he : m.onAgentEvent h e = some m') :
    m'.debounce = m.debounce := by
  cases e with
  | sessionStarted session => exact Option.some.inj he ▸ startSession_debounce h m session
  | readFileRequested => exact Option.some.inj he ▸ serveRead_debounce ..
  | proposedEdit => exact receiveProposal_debounce he
  | permissionRequested => exact receivePermission_debounce he
  | ready | modesAvailable | modeChanged | messageChunk | thoughtChunk | terminalRequest
  | terminalAttached | turnEnded | failed => exact debounce_of_desk (onAgentEvent_desk he trivial)

/-! ## Files -/

theorem openRestored_debounce (m : Model) (paths : List Path) :
    (m.openRestored paths).1.debounce = m.debounce := by
  induction paths generalizing m with
  | nil => rfl
  | cons path paths ih => exact (ih (m.openFile path)).trans (openFile_debounce m path)

theorem restoreSession_debounce (h : Host) (m : Model) (w : RestoredWorkspace) :
    (m.restoreSession h w).debounce = m.debounce := by
  have hopen := openRestored_debounce (m.openWorkspace w.root w.configured) w.openPaths
  have hterms : ∀ m₁ : Model, (w.terminals.foldl (fun m cwd =>
      m.createTerminal (h.shell cwd) .humanShell) m₁).debounce = m₁.debounce :=
    debounce_foldl (fun m cwd => debounce_of_desk (createTerminal_desk ..)) w.terminals
  unfold restoreSession
  refine (hterms _).trans (Eq.trans ?_ hopen)
  split_ifs <;> rfl

theorem finishRestoredRead_debounce (m : Model) (buffer : BufferId) :
    (m.finishRestoredRead buffer).debounce = m.debounce := by
  unfold finishRestoredRead
  split <;> rfl

theorem abandonPendingWorkspaceEdit_debounce (m : Model) (message : String) :
    (m.abandonPendingWorkspaceEdit message).debounce = m.debounce := by
  unfold abandonPendingWorkspaceEdit
  split
  · exact debounce_restoreActiveBuffer ..
  · rfl

theorem refuseLoaded_debounce (m : Model) (buffer : BufferId) (path : Path) (restored : Bool) :
    (m.refuseLoaded buffer path restored).debounce = m.debounce := by
  unfold refuseLoaded
  split_ifs
  · exact (debounce_appendNotification ..).trans (finishRestoredRead_debounce m buffer)
  · exact abandonPendingWorkspaceEdit_debounce m _
  · rfl

theorem queueConfigReload_debounce (m : Model) (kind : ConfigReloadKind) (path : Path) :
    (m.queueConfigReload kind path).debounce = m.debounce := rfl

theorem reloadConfig_debounce (h : Host) (m : Model) : (m.reloadConfig h).debounce = m.debounce := by
  unfold reloadConfig
  split
  · split
    · exact (queueConfigReload_debounce _ _ _).trans (queueConfigReload_debounce m _ _)
    · exact queueConfigReload_debounce m _ _
  · split
    · exact queueConfigReload_debounce m _ _
    · rfl

theorem saveActiveBuffer_debounce (m : Model) : m.saveActiveBuffer.debounce = m.debounce := by
  unfold saveActiveBuffer
  split
  · rfl
  · split
    · rfl
    · split_ifs <;> rfl

theorem reloadChangedBuffers_debounce (m : Model) (paths : List Path) :
    (m.reloadChangedBuffers paths).debounce = m.debounce := by
  refine debounce_foldl (fun m path => ?_) paths m
  unfold reloadChanged
  split
  · rfl
  · split_ifs <;> rfl

theorem confirmFile_debounce (m : Model) (prompt : Prompt) (name : String) :
    (m.confirmFile prompt name).debounce = m.debounce := by
  unfold confirmFile
  split_ifs
  · rfl
  · rfl
  · split
    · rfl
    · rfl
    · split <;> rfl
    · rfl
    · rfl

theorem discardRecoveryDrafts_debounce (h : Host) (m : Model) :
    (m.discardRecoveryDrafts h).debounce = m.debounce := by
  unfold discardRecoveryDrafts
  split
  · dsimp only
    split
    · rfl
    · refine (debounce_foldl (fun m d => ?_) _ _).trans rfl
      exact debounce_send ..
  · rfl

/-! ## Language servers -/

theorem notifyLspWatchedFiles_debounce (m : Model) (paths : List Path) :
    (m.notifyLspWatchedFiles paths).debounce = m.debounce := by
  unfold notifyLspWatchedFiles
  split
  · rfl
  · dsimp only
    split_ifs <;> rfl

theorem restartLanguageServers_debounce (m : Model) :
    m.restartLanguageServers.debounce = m.debounce := by
  unfold restartLanguageServers
  split
  · rfl
  · rfl

theorem queueTargets_debounce (m : Model) (paths : List Path) :
    (m.queueTargets paths).1.debounce = m.debounce := by
  induction paths generalizing m with
  | nil => rfl
  | cons path paths ih =>
    unfold queueTargets
    split_ifs
    · exact ih m
    · split
      · exact ih m
      · exact (ih _).trans rfl

theorem applyPrepared_debounce {cs : List (ℕ × ChangeSet)} {r : Except EditError Unit}
    (ha : m.applyPrepared cs = some (m', r)) : m'.debounce = m.debounce := by
  induction cs generalizing m with
  | nil => rw [← (Prod.mk.inj (Option.some.inj ha)).1]
  | cons c cs ih =>
    obtain ⟨⟨m₁, r₁⟩, ht, ha⟩ := Option.bind_eq_some_iff.mp ha
    have hdebounce := transact_debounce ht
    dsimp only at ha
    split at ha
    · rw [← (Prod.mk.inj (Option.some.inj ha)).1, hdebounce]
    · rw [ih ha, hdebounce]

/-! ## Commands -/

/-- **No command writes to the debounce**, but for the refresh that follows. -/
theorem dispatchInner_debounce {cmd : Command} (hd : m.dispatchInner h cmd = some m') :
    m'.debounce = m.debounce := by
  cases cmd with
  | save => exact Option.some.inj hd ▸ saveActiveBuffer_debounce m
  | restoreDrafts => exact applyRecoveryDrafts_debounce hd
  | reloadConfig => exact Option.some.inj hd ▸ reloadConfig_debounce h m
  | cursor motion => exact Option.some.inj hd ▸ withBuffer_debounce m _
  | newline | backspace | deleteForward => exact editActive_debounce hd
  | undo | redo => exact replayActive_debounce hd
  | findNext | findPrev => exact stepMatch_debounce hd
  | nextTab | prevTab => exact Option.some.inj hd ▸ cycleTab_debounce m _
  | closeTab => exact Option.some.inj hd ▸ closeTab_debounce m
  | lspRestart => exact Option.some.inj hd ▸ restartLanguageServers_debounce m
  | proposalAccept | proposalReject => exact resolveProposal_debounce hd
  | agentAllowOnce | agentAllowAlways | agentDeny => exact decidePermission_debounce hd
  | find | replace | lspAtCursor | lspDocumentSymbols | lspWorkspaceSymbols | lspFormat | lspRename
  | lspCodeAction | agentSessionNew | agentPrompt | agentMode | terminalFocus | terminalNew
  | terminalRun | terminalNext | terminalPrevious | terminalRestart | terminalClose | focusPane
  | focusNext | focusPrev | closeOverlay | quit | other =>
    exact debounce_of_desk (dispatchInner_desk hd trivial)

end Model

end App

end Termesh
