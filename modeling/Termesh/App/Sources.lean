import Termesh.App.Debounce
import Termesh.Lib.Run

/-!
# Where buffers come from

What one event can do to the buffers, said once: they are those of before, some of them closed and
all of them in any order, with a file opened, reloaded or saved; and then they are worked on.

* `Source`: the buffers an event works on; `Focuses`: the matches it selects;
* **`step_sources`**: every event works on such buffers;
* **`step_everywhere`**: what every operation keeps of a buffer, and opening, reloading and saving a
  file too, is kept by every event.
-/

namespace Termesh

namespace App

/-- The event that starts a find. -/
def Event.Searches (ev : Event) : Prop := ∃ prompt, ev = .confirmPrompt prompt ∧ prompt.kind = .find

namespace Model

open Buffer Document

variable {T : Prop} {P : Document → Selection → Prop} {h : Host} {m m' : Model}

/-- The answer of the worker is for a buffer, not for a configuration or the agent. -/
def ForBuffer (m : Model) (buffer : BufferId) : Prop :=
  m.pendingConfigReloads.find? (·.buffer = buffer) = none ∧
    m.pendingAgentReads.find? (·.buffer = buffer) = none

/-- The buffers an event works on. -/
inductive Source (m : Model) (ev : Event) : List Buffer → Prop
  | kept {bs : List Buffer} (h : bs.Subperm m.buffers) : Source m ev bs
  | opened {bs : List Buffer} {buffer : BufferId} {path : Path} {text : Text}
      (he : ev = .fs (.fileLoaded buffer path (some text))) (hr : m.ForBuffer buffer)
      (hn : m.buffers.findIdx? (·.id = buffer) = none)
      (h : bs.Perm (m.buffers ++ [fromText buffer (some path) text])) : Source m ev bs
  | reloaded {buffer : BufferId} {path : Path} {text : Text} {i : ℕ} {old : Buffer}
      (he : ev = .fs (.fileLoaded buffer path (some text))) (hr : m.ForBuffer buffer)
      (hi : m.buffers.findIdx? (·.id = buffer) = some i) (hold : m.buffers[i]? = some old) :
      Source m ev (m.buffers.set i (Model.reloaded buffer path text old))
  | saved {buffer : BufferId} {version : Version} {i : ℕ} {old : Buffer}
      (he : ev = .fs (.fileSaved buffer version))
      (hd : m.pendingDraftWrites.find? (·.1 = buffer) = none)
      (hi : m.buffers.findIdx? (·.id = buffer) = some i) (hold : m.buffers[i]? = some old) :
      Source m ev (m.buffers.set i (old.markSaved version))

/-- The match of a search, or of a step of one, that an event selects in a buffer. -/
def Focuses (h : Host) (m : Model) (ev : Event) (b : Buffer) (s : Selection) : Prop :=
  ∃ i k t, m.onScreen = some (i, b) ∧ s = .single ⟨t.1, t.2⟩ ∧
    ((∃ prompt, ev = .confirmPrompt prompt ∧ prompt.kind = .find ∧
      nextFrom (findAll h.folding b.text (trim prompt.input).toList) b.selection.primary.head =
        some k ∧ (findAll h.folding b.text (trim prompt.input).toList)[k]? = some t) ∨
    ∃ find forward, (ev = .dispatch (if forward then .findNext else .findPrev)) ∧
      m.find = some find ∧ Find.step find forward = some (some k) ∧ find.found[k]? = some t)

/-- An event's works. Only a search starts a find. -/
def Steps (P : Document → Selection → Prop) (m : Model) (ev : Event) (m' : Model) : Prop :=
  (∃ bs, m.Source ev bs ∧ List.Forall₂ (Works True P) bs m'.buffers) ∧
    (ev.Searches ∨ Sought m m')

variable {ev : Event}

theorem Worked.steps (hw : Worked True P m m') : Steps P m ev m' :=
  ⟨⟨m.buffers, .kept (List.Subperm.refl _), hw.1⟩, .inr hw.2⟩

theorem Steps.of_desk (hd : m'.desk = m.desk) : Steps P m ev m' := Worked.steps (.of_desk hd)

theorem Steps.of_still (hs : Still m m') : Steps P m ev m' := Worked.steps (.of_still hs)

theorem Steps.of_subperm (hs : m'.buffers.Subperm m.buffers) (hf : m'.find = m.find) :
    Steps P m ev m' :=
  ⟨⟨m'.buffers, .kept hs, List.forall₂_same.mpr fun _ _ => .refl⟩, .inr (.of_eq hf)⟩

theorem Steps.worked {m₁ : Model} (hs : Steps P m ev m₁) (hw : Worked True P m₁ m') :
    Steps P m ev m' := by
  obtain ⟨⟨bs, hsource, hworks⟩, hsought⟩ := hs
  have hbetween : Worked True P { m₁ with buffers := bs } m₁ := ⟨hworks, .of_eq rfl⟩
  exact ⟨⟨bs, hsource, (hbetween.trans hw).1⟩, hsought.imp_right fun hs => hs.trans hw.2⟩

/-! ## Commands and prompts -/

theorem discardBuffer_subperm (m : Model) (id : BufferId) :
    (m.discardBuffer id).buffers.Subperm m.buffers ∧ (m.discardBuffer id).find = m.find := by
  unfold discardBuffer
  split
  · exact ⟨List.Subperm.refl _, rfl⟩
  · exact ⟨(List.eraseIdx_sublist ..).subperm, rfl⟩

theorem closeTab_subperm (m : Model) :
    m.closeTab.buffers.Subperm m.buffers ∧ m.closeTab.find = m.find := by
  unfold closeTab
  split
  · exact ⟨List.Subperm.refl _, rfl⟩
  · split_ifs
    · exact ⟨List.Subperm.refl _, rfl⟩
    · exact discardBuffer_subperm m _

theorem dispatchInner_steps {cmd : Command} (hP : ∀ d s, Stays d s → P d s)
    (hF : ∀ b s, m.Focuses h (.dispatch cmd) b s → P b.document s)
    (hd : m.dispatchInner h cmd = some m') : Steps P m (.dispatch cmd) m' := by
  have hworked : Worked True P m m' → Steps P m (.dispatch cmd) m' := Worked.steps
  have hstep : ∀ forward, cmd = (if forward then .findNext else .findPrev) →
      m.stepMatch forward = some m' → Steps P m (.dispatch cmd) m' := by
    intro forward hcmd hs
    refine hworked (stepMatch_worked (fun find i b k t hf hon hk ht => hF b _ ?_) hs)
    exact ⟨i, k, t, hon, rfl, .inr ⟨find, forward, by rw [hcmd], hf, hk, ht⟩⟩
  cases cmd with
  | save => exact Option.some.inj hd ▸ .of_still (saveActiveBuffer_still m)
  | restoreDrafts => exact hworked (applyRecoveryDrafts_worked hd)
  | reloadConfig => exact Option.some.inj hd ▸ .of_still (reloadConfig_still h m)
  | cursor motion =>
    exact Option.some.inj hd ▸ Worked.steps (withBuffer_worked (motion_works hP motion) m)
  | newline => exact hworked (editActive_worked (fun _ _ _ => insert_works) hd)
  | backspace => exact hworked (editActive_worked (fun _ _ _ => deleteBackward_works) hd)
  | deleteForward => exact hworked (editActive_worked (fun _ _ _ => deleteForward_works) hd)
  | undo => exact hworked (replayActive_worked (fun _ _ _ hu => .single (.undo trivial hu)) hd)
  | redo => exact hworked (replayActive_worked (fun _ _ _ hu => .single (.redo trivial hu)) hd)
  | findNext => exact hstep true rfl hd
  | findPrev => exact hstep false rfl hd
  | nextTab | prevTab =>
    exact Option.some.inj hd ▸ .of_still (cycleTab_still m _)
  | closeTab => exact Option.some.inj hd ▸ .of_subperm (closeTab_subperm m).1 (closeTab_subperm m).2
  | lspRestart =>
    exact Option.some.inj hd ▸ Worked.steps (.of_docs (restartLanguageServers_docs m).1
      (.of_eq (restartLanguageServers_docs m).2))
  | proposalAccept | proposalReject => exact hworked (resolveProposal_worked hd)
  | agentAllowOnce | agentAllowAlways | agentDeny => exact hworked (decidePermission_worked hd)
  | find | replace | lspAtCursor | lspDocumentSymbols | lspWorkspaceSymbols | lspFormat | lspRename
  | lspCodeAction | agentSessionNew | agentPrompt | agentMode | terminalFocus | terminalNew
  | terminalRun | terminalNext | terminalPrevious | terminalRestart | terminalClose | focusPane
  | focusNext | focusPrev | closeOverlay | quit | other =>
    exact .of_desk (dispatchInner_desk hd trivial)

theorem confirmPrompt_steps {prompt : Prompt}
    (hF : ∀ b s, m.Focuses h (.confirmPrompt prompt) b s → P b.document s)
    (hs : m.confirmPrompt h prompt = some m') : Steps P m (.confirmPrompt prompt) m' := by
  have aside : prompt.kind.Aside → Steps P m (.confirmPrompt prompt) m' := fun ha =>
    .of_desk (confirmPrompt_desk hs ha)
  cases hk : prompt.kind with
  | agentPrompt | terminalRun | gitCommit | lspRename | confirmCloseTerminal =>
    exact aside (by rw [hk]; trivial)
  | find =>
    simp only [confirmPrompt, hk] at hs
    split_ifs at hs
    · exact Option.some.inj hs ▸ (clearFind_worked m).steps
    · refine ⟨⟨m.buffers, .kept (List.Subperm.refl _), ?_⟩, .inl ⟨prompt, rfl, hk⟩⟩
      refine runFind_worked (fun i b k t hon hk' ht => hF b _ ?_) hs
      exact ⟨i, k, t, hon, rfl, .inl ⟨prompt, rfl, hk, hk', ht⟩⟩
  | replace =>
    simp only [confirmPrompt, hk] at hs
    exact (replaceAll_worked hs).steps
  | confirmCloseBuffer buffer =>
    simp only [confirmPrompt, hk] at hs
    exact Option.some.inj hs ▸ .of_subperm (discardBuffer_subperm m buffer).1
      (discardBuffer_subperm m buffer).2
  | newFile | newDir | rename | confirmDelete =>
    simp only [confirmPrompt, hk] at hs
    exact Option.some.inj hs ▸ .of_still (confirmFile_still ..)

/-! ## The agent and the worker -/

theorem onAgentEvent_worked {e : AgentEvent} (he : m.onAgentEvent h e = some m') :
    Worked T P m m' := by
  cases e with
  | sessionStarted session =>
    exact Option.some.inj he ▸ .of_buffers (startSession_buffers h m session).1.1
      (startSession_buffers h m session).1.2
  | readFileRequested => exact Option.some.inj he ▸ .of_still (serveRead_still ..)
  | proposedEdit => exact receiveProposal_worked he
  | permissionRequested => exact receivePermission_worked he
  | ready | modesAvailable | modeChanged | messageChunk | thoughtChunk | terminalRequest
  | terminalAttached | turnEnded | failed => exact .of_desk (onAgentEvent_desk he trivial)

theorem finishRestoredRead_perm (m : Model) (buffer : BufferId) :
    (m.finishRestoredRead buffer).buffers.Perm m.buffers := by
  unfold finishRestoredRead
  split
  · exact .refl _
  · exact List.perm_insertionSort _ _

theorem finishRestoredRead_find (m : Model) (buffer : BufferId) :
    (m.finishRestoredRead buffer).find = m.find := by
  unfold finishRestoredRead
  split <;> rfl

theorem stopWaiting_worked {buffer : BufferId}
    (hf : (m.stopWaiting buffer).finishPendingWorkspaceEdit h = some m') : Worked True P m m' := by
  refine Worked.trans ?_ (finishPendingWorkspaceEdit_worked hf)
  exact .of_buffers rfl rfl

theorem reloadBuffer_worked {i : ℕ} {old : Buffer} {buffer : BufferId} {path : Path} {text : Text}
    (hr : m.reloadBuffer h i old buffer path text = some m') :
    Worked True P { m with buffers := m.buffers.set i (reloaded buffer path text old) } m' := by
  unfold reloadBuffer at hr
  obtain ⟨m₁, h₁, hr⟩ := Option.bind_eq_some_iff.mp hr
  have hsync := (syncAll_worked (P := P) h₁).trans (stopWaiting_worked hr)
  exact hsync

/-- What a file that is opened has become by the time the servers are told: a clean buffer among the
others. -/
theorem showLoaded_placed (hP : ∀ d s, Stays d s → P d s) {buffer : BufferId} {path : Path}
    {text : Text} {restored : Bool} (hs : m.showLoaded h buffer path text restored = some m') :
    ∃ bs m₁, bs.Perm (m.buffers ++ [fromText buffer (some path) text]) ∧
      Worked T P { m with buffers := bs } m₁ ∧ m₁.debounce = m.debounce ∧
        (m₁.syncLspDocuments.stopWaiting buffer).finishPendingWorkspaceEdit h = some m' := by
  unfold showLoaded at hs
  obtain ⟨m₁, h₁, hs⟩ := Option.bind_eq_some_iff.mp hs
  obtain ⟨bs, hperm, hm₁⟩ : ∃ bs, bs.Perm (m.buffers ++ [fromText buffer (some path) text]) ∧
      Worked T P { m with buffers := bs } m₁ := by
    have hloaded := Worked.of_bare (T := T) (P := P) (syncSyntax_bare h₁)
    split at hloaded
    · refine ⟨_, finishRestoredRead_perm
        { m with buffers := m.buffers ++ [fromText buffer (some path) text] } buffer, hloaded.1, ?_⟩
      exact (Sought.of_eq (finishRestoredRead_find
        { m with buffers := m.buffers ++ [fromText buffer (some path) text] } buffer)).trans hloaded.2
    · exact ⟨_, .refl _, hloaded⟩
  have hdebounce : m₁.debounce = m.debounce := by
    rw [syncSyntax_debounce h₁]
    split_ifs
    · exact finishRestoredRead_debounce
        { m with buffers := m.buffers ++ [fromText buffer (some path) text] } buffer
    · rfl
    · rfl
  refine ⟨bs, _, hperm, ?_, ?_, hs⟩
  · split
    · split_ifs
      · have hcleared : Worked T P { m with buffers := bs }
            { m₁ with pendingOpenLocation := none } := hm₁
        exact hcleared.trans (positionOpenBuffer_worked hP _ path _ _)
      · exact hm₁
    · exact hm₁
  · split
    · split_ifs
      · exact (positionOpenBuffer_debounce _ path _ _).trans hdebounce
      · exact hdebounce
    · exact hdebounce

theorem showLoaded_worked (hP : ∀ d s, Stays d s → P d s) {buffer : BufferId} {path : Path}
    {text : Text} {restored : Bool} (hs : m.showLoaded h buffer path text restored = some m') :
    ∃ bs, bs.Perm (m.buffers ++ [fromText buffer (some path) text]) ∧
      Worked True P { m with buffers := bs } m' := by
  obtain ⟨bs, m₁, hperm, hplaced, -, hfinish⟩ := showLoaded_placed (T := True) hP hs
  refine ⟨bs, hperm, ?_⟩
  exact hplaced.trans ((Worked.of_bare (syncLspDocuments_bare _)).trans (stopWaiting_worked hfinish))

/-- A file is read for a buffer: it is reloaded in place, or opened. -/
theorem fileLoaded_worked (hP : ∀ d s, Stays d s → P d s) {buffer : BufferId} {path : Path}
    {text : Text} (hr : m.ForBuffer buffer)
    (hs : m.fileLoaded h buffer path (some text) = some m') :
    ∃ bs, ((∃ i old, m.buffers.findIdx? (·.id = buffer) = some i ∧ m.buffers[i]? = some old ∧
        bs = m.buffers.set i (reloaded buffer path text old)) ∨
      m.buffers.findIdx? (·.id = buffer) = none ∧
        bs.Perm (m.buffers ++ [fromText buffer (some path) text])) ∧
      Worked True P { m with buffers := bs } m' := by
  rw [fileLoaded, hr.1, hr.2] at hs
  dsimp only at hs
  split at hs
  · rename_i i old hidx
    obtain ⟨j, hj, hidx⟩ := Option.bind_eq_some_iff.mp hidx
    obtain ⟨b, hb, hx⟩ := Option.map_eq_some_iff.mp hidx
    obtain ⟨rfl, rfl⟩ := Prod.mk.inj hx
    have hworks := reloadBuffer_worked (P := P) hs
    exact ⟨_, .inl ⟨j, b, hj, hb, rfl⟩, hworks⟩
  · rename_i hidx
    obtain ⟨bs, hbs, hworks⟩ := showLoaded_worked hP hs
    refine ⟨bs, .inr ⟨?_, hbs⟩, hworks⟩
    cases hf : m.buffers.findIdx? (·.id = buffer) with
    | none => rfl
    | some i =>
      obtain ⟨hlt, -⟩ := List.findIdx?_eq_some_iff_getElem.mp hf
      rw [hf, Option.bind_some, List.getElem?_eq_getElem hlt] at hidx
      cases hidx

/-- A file that is read for a configuration or for the agent is nothing to the buffers. -/
theorem fileLoaded_still {buffer : BufferId} {path : Path} {contents : Option Text}
    (hr : ¬ m.ForBuffer buffer) (hs : m.fileLoaded h buffer path contents = some m') :
    Still m m' := by
  unfold fileLoaded at hs
  split at hs
  · rename_i pending _
    let rest := m.pendingConfigReloads.eraseP (·.buffer = buffer)
    have hconfig := applyConfig_still h { m with pendingConfigReloads := rest } pending.kind contents
    have hm : ({ m with pendingConfigReloads := rest } : Model).applyConfig h pending.kind contents = m' :=
      Option.some.inj hs
    rw [hm] at hconfig
    exact hconfig
  · rename_i hconfig
    split at hs
    · exact Option.some.inj hs ▸ ⟨rfl, rfl, rfl⟩
    · rename_i hread
      exact absurd ⟨hconfig, hread⟩ hr

theorem onFsEvent_steps {e : FsEvent} (hP : ∀ d s, Stays d s → P d s)
    (hs : m.onFsEvent h e = some m') : Steps P m (.fs e) m' := by
  have hsame : ∀ m₁ : Model, Still m m₁ → Still m₁ m' → Steps P m (.fs e) m' :=
    fun m₁ hb hst => .of_still (hb.trans hst)
  have hperm : ∀ m₁ : Model, m₁.buffers.Perm m.buffers → m₁.find = m.find → Still m₁ m' →
      Steps P m (.fs e) m' :=
    fun m₁ hb hf hst => .of_subperm (by rw [hst.1]; exact hb.subperm) (hst.2.2.trans hf)
  cases e with
  | fileLoaded buffer path contents =>
    by_cases hr : m.ForBuffer buffer
    · cases contents with
      | none =>
        rw [onFsEvent, fileLoaded, hr.1, hr.2] at hs
        have hrefuse := refuseLoaded_spec { m with opening := m.opening.filter (·.1 ≠ buffer) }
          buffer path (m.pendingSessionRestore.any (·.pending.contains buffer))
        rw [Option.some.inj hs] at hrefuse
        rcases hrefuse with hst | hst
        · exact hsame _ ⟨rfl, rfl, rfl⟩ hst
        · exact hperm _ (finishRestoredRead_perm
            { m with opening := m.opening.filter (·.1 ≠ buffer) } buffer)
            (finishRestoredRead_find { m with opening := m.opening.filter (·.1 ≠ buffer) } buffer) hst
      | some text =>
        obtain ⟨bs, hbs, hworks⟩ := fileLoaded_worked hP hr hs
        refine ⟨⟨bs, ?_, hworks.1⟩, .inr hworks.2⟩
        rcases hbs with ⟨i, old, hi, hold, rfl⟩ | ⟨hnone, hbs⟩
        · exact .reloaded rfl hr hi hold
        · exact .opened rfl hr hnone hbs
    · exact .of_still (fileLoaded_still hr hs)
  | fileSaved buffer version =>
    rw [onFsEvent, fileSaved] at hs
    split at hs
    · exact hsame _ ⟨rfl, rfl, rfl⟩ (Option.some.inj hs ▸ ⟨rfl, rfl, rfl⟩)
    · rename_i hdraft
      split at hs
      · exact hsame _ ⟨rfl, rfl, rfl⟩ (Option.some.inj hs ▸ ⟨rfl, rfl, rfl⟩)
      · rename_i i b hidx
        obtain ⟨j, hj, hidx⟩ := Option.bind_eq_some_iff.mp hidx
        obtain ⟨b', hb, hx⟩ := Option.map_eq_some_iff.mp hidx
        obtain ⟨rfl, rfl⟩ := Prod.mk.inj hx
        have hset : m'.buffers = m.buffers.set j (b'.markSaved version) ∧ m'.find = m.find := by
          rw [← Option.some.inj hs]
          dsimp only
          split
          · exact ⟨rfl, rfl⟩
          · split
            · split_ifs <;> exact ⟨rfl, rfl⟩
            · exact ⟨rfl, rfl⟩
        refine ⟨⟨_, .saved rfl hdraft hj hb, ?_⟩, .inr (.of_eq hset.2)⟩
        rw [hset.1]
        exact List.forall₂_same.mpr fun _ _ => .refl
  | fileFailed buffer error =>
    have hfail := fileFailed_spec h m buffer error
    rw [Option.some.inj hs] at hfail
    rcases hfail with hst | ⟨opening, hst⟩
    · exact .of_still hst
    · exact hperm _ (finishRestoredRead_perm { m with opening } buffer)
        (finishRestoredRead_find { m with opening } buffer) hst
  | pathResolved request path =>
    rw [onFsEvent] at hs
    split at hs
    · exact .of_still (Option.some.inj hs ▸ ⟨rfl, rfl, rfl⟩)
    · dsimp only at hs
      split at hs
      · exact .of_still (Option.some.inj hs ▸ ⟨rfl, rfl, rfl⟩)
      · split at hs
        · rw [← Option.some.inj hs]
          exact Worked.steps (openFileAt_worked (m := { m with pendingProblemNavigation := none })
            hP path _ _)
        · exact .of_still (Option.some.inj hs ▸ ⟨rfl, rfl, rfl⟩)
  | pathResolveFailed =>
    rw [onFsEvent] at hs
    split_ifs at hs <;> exact .of_still (Option.some.inj hs ▸ ⟨rfl, rfl, rfl⟩)
  | mutationFailed =>
    rw [← Option.some.inj hs]
    split_ifs <;> exact .of_still ⟨rfl, rfl, rfl⟩
  | changed paths =>
    rw [← Option.some.inj hs]
    have hn := notifyLspWatchedFiles_still m paths
    split_ifs
    · exact .of_still (hn.trans (reloadChangedBuffers_still _ paths))
    · exact .of_still hn

/-! ## Events -/

/-- **What an event does to the buffers.** -/
theorem step_sources (hP : ∀ d s, Stays d s → P d s)
    (hF : ∀ b s, m.Focuses h ev b s → P b.document s) (hs : m.step h ev = some m') :
    Steps P m ev m' := by
  cases ev with
  | dispatch cmd =>
    obtain ⟨m₁, h₁, hs⟩ := Option.bind_eq_some_iff.mp hs
    have h₀ : Steps P { m with notification := none } (.dispatch cmd) m₁ :=
      dispatchInner_steps hP hF h₁
    obtain ⟨⟨bs, hsource, hworks⟩, hsought⟩ := h₀.worked (syncAll_worked hs)
    refine ⟨⟨bs, ?_, hworks⟩, hsought⟩
    cases hsource with
    | kept hsub => exact .kept hsub
    | opened he | reloaded he | saved he => cases he
  | typeChar c =>
    obtain ⟨m₁, h₁, hs⟩ := Option.bind_eq_some_iff.mp hs
    have hedit := editActive_worked (P := P) (fun _ _ _ => insert_works) h₁
    exact Worked.steps (hedit.trans (syncAll_worked hs))
  | confirmPrompt prompt => exact confirmPrompt_steps hF hs
  | openFile path => exact Option.some.inj hs ▸ .of_still (openFile_still m path)
  | openFileAt => exact Option.some.inj hs ▸ Worked.steps (openFileAt_worked hP m _ _ _)
  | restoreSession w => exact Option.some.inj hs ▸ .of_still (restoreSession_still h m w)
  | acceptSelectedRecoveryDrafts => exact Worked.steps (applyRecoveryDrafts_worked hs)
  | discardRecoveryDrafts =>
    exact Option.some.inj hs ▸ .of_still (discardRecoveryDrafts_still h m)
  | acceptCompletion item => exact Worked.steps (acceptCompletion_worked hs)
  | acceptCodeAction action => exact Worked.steps (acceptCodeAction_worked hs)
  | openLspLocation location =>
    exact Option.some.inj hs ▸ Worked.steps (openLspLocation_worked hP m location)
  | applyTextEdits edits => exact Worked.steps (applyTextEdits_worked hs)
  | applyWorkspaceEdit edit => exact Worked.steps (applyWorkspaceEdit_worked hs)
  | decidePermission decision => exact Worked.steps (decidePermission_worked hs)
  | fs event => exact onFsEvent_steps hP hs
  | agent event => exact Worked.steps (onAgentEvent_worked hs)
  | lsp server event => exact Worked.steps (onLspEvent_worked hP hs)
  | tick seconds => exact Option.some.inj hs ▸ .of_still (queueDueDrafts_still h _)
  | navigateProblem | openWorkspace | takeFsRequests =>
    exact Option.some.inj hs ▸ .of_still ⟨rfl, rfl, rfl⟩
  | setOverlays | setAgentMode | typeTerminal | setTerminalSize | pty | shutdownTerminals
  | takeAgentRequests | takePtyRequests | takeLspRequests => exact .of_desk (step_desk hs trivial)

theorem id_of_findIdx {bs : List Buffer} {id : BufferId} {i : ℕ} {b : Buffer}
    (hi : bs.findIdx? (·.id = id) = some i) (hb : bs[i]? = some b) : b.id = id := by
  obtain ⟨hlt, hid, -⟩ := List.findIdx?_eq_some_iff_getElem.mp hi
  rw [List.getElem?_eq_getElem hlt] at hb
  rw [← Option.some.inj hb]
  exact of_decide_eq_true hid

/-- Opening, reloading and saving a file give buffers that satisfy `Q`. -/
structure FilesKeep (Q : Buffer → Prop) (m : Model) (ev : Event) : Prop where
  opened : ∀ buffer path text, ev = .fs (.fileLoaded buffer path (some text)) →
    Q (fromText buffer (some path) text)
  reloaded : ∀ buffer path text old, ev = .fs (.fileLoaded buffer path (some text)) →
    m.ForBuffer buffer → old ∈ m.buffers → old.id = buffer → Q old →
      Q (Model.reloaded buffer path text old)
  saved : ∀ buffer version old, ev = .fs (.fileSaved buffer version) → old ∈ m.buffers →
    old.id = buffer → Q old → Q (old.markSaved version)

/-- **What every operation keeps of a buffer is kept by every event.** -/
theorem step_everywhere {Q : Buffer → Prop} (hP : ∀ d s, Stays d s → P d s)
    (hF : ∀ b s, m.Focuses h ev b s → P b.document s) (hQ : ∀ b b', Work True P b b' → Q b → Q b')
    (hfiles : FilesKeep Q m ev) (hs : m.step h ev = some m') (hi : ∀ b ∈ m.buffers, Q b) :
    ∀ b ∈ m'.buffers, Q b := by
  obtain ⟨⟨bs, hsource, hworks⟩, -⟩ := step_sources hP hF hs
  have hbs : ∀ b ∈ bs, Q b := by
    intro b hb
    cases hsource with
    | kept hsub => exact hi b (hsub.subset hb)
    | opened he _ _ hperm =>
      rcases List.mem_append.mp (hperm.subset hb) with hb | hb
      · exact hi b hb
      · rw [List.mem_singleton.mp hb]
        exact hfiles.opened _ _ _ he
    | reloaded he hr hidx hold =>
      rcases List.mem_or_eq_of_mem_set hb with hb | rfl
      · exact hi b hb
      · have hmem := List.mem_of_getElem? hold
        exact hfiles.reloaded _ _ _ _ he hr hmem (id_of_findIdx hidx hold) (hi _ hmem)
    | saved he _ hidx hold =>
      rcases List.mem_or_eq_of_mem_set hb with hb | rfl
      · exact hi b hb
      · have hmem := List.mem_of_getElem? hold
        exact hfiles.saved _ _ _ he hmem (id_of_findIdx hidx hold) (hi _ hmem)
  intro b' hb'
  have hbetween : Worked True P { m' with buffers := bs } m' := ⟨hworks, .of_eq rfl⟩
  obtain ⟨b, hb, hw⟩ := hbetween.mem hb'
  exact hw.keeps hQ (hbs b hb)

end Model

end App

end Termesh
