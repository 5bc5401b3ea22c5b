import Termesh.App.Spoken

/-!
# What every event tells the language servers

Requests, edits, answers and files, one after the other; then the commands, and with them every
event.

* `onLspEvent_speaks`, `onFsEvent_speaks`, `dispatchInner_speaks`;
* **`step_speaks`**: every event changes the state of the language servers in the ways of
  `LspState.Act`, but that the loop takes what is queued.
-/

namespace Termesh

open Tables

namespace App

/-! ## Settling -/

theorem LspState.Act.show {D : LspState.Deed → Prop} {l : LspState} {server : LspServerId}
    {s s' : LspSessionState} (hs : l.session server = some s) (hsettled : s.Settled s') :
    l.Act D (l.setSession s') :=
  .settle hs hsettled rfl rfl rfl rfl

theorem LspSessionState.Settled.refl (s : LspSessionState) : s.Settled s :=
  ⟨rfl, rfl, rfl, rfl, rfl, rfl, fun _ _ h => h⟩

theorem LspSessionState.settled_load (s : LspSessionState) (load : LspLoadState) :
    s.Settled { s with load } := ⟨rfl, rfl, rfl, rfl, rfl, rfl, fun _ _ h => h⟩

theorem lookup_erase_some {ν : Type*} {t : Table LspCall ν} {k k' : LspCall} {v : ν}
    (hv : (t.erase k).lookup k' = some v) : t.lookup k' = some v := by
  by_cases hk : k' = k
  · rw [hk, AList.lookup_erase] at hv
    cases hv
  · rwa [AList.lookup_erase_ne hk] at hv

theorem LspSessionState.settled_erase (s : LspSessionState) (kind : LspCall) :
    s.Settled { s with active := s.active.erase kind } :=
  ⟨rfl, rfl, rfl, rfl, rfl, rfl, fun _ _ hv => lookup_erase_some hv⟩

theorem lookup_foldl_erase {ν : Type*} {ks : List LspCall} {t : Table LspCall ν} {k : LspCall} {v : ν}
    (hv : (ks.foldl (fun t k => t.erase k) t).lookup k = some v) : t.lookup k = some v := by
  induction ks generalizing t with
  | nil => exact hv
  | cons k' ks ih => exact lookup_erase_some (ih hv)

theorem LspSessionState.settled_clearRequest (s : LspSessionState) (id : LspRequestId) :
    s.Settled (s.clearRequest id).1 :=
  ⟨rfl, rfl, rfl, rfl, rfl, rfl, fun _ _ hv => lookup_foldl_erase hv⟩

theorem setSession_setSession (l : LspState) (s s' : LspSessionState) (hs : s'.server = s.server) :
    (l.setSession s).setSession s' = l.setSession s' := by
  unfold LspState.setSession
  rw [List.map_map]
  congr 1
  refine List.map_congr_left fun t _ => ?_
  by_cases ht : t.server = s.server
  · simp [ht, hs]
  · simp [ht, hs]

/-- The events that no document is told of, opened or closed by. -/
def Event.Mute : Event → Prop
  | openFile _ | openFileAt .. | navigateProblem .. | setOverlays _ | acceptSelectedRecoveryDrafts
  | discardRecoveryDrafts | openLspLocation _ | setAgentMode _ | decidePermission _
  | typeTerminal _ | setTerminalSize _ | agent _ | pty _ | tick _ | shutdownTerminals
  | takeFsRequests | takeAgentRequests | takePtyRequests => True
  | _ => False

namespace Model

variable {h : Host} {m m' m₁ : Model} {D : LspState.Deed → Prop}

/-! ## Requests -/

theorem requestAtCursor_speaks (m : Model) (kind : LspCall) : Speaks D m (m.requestAtCursor kind) := by
  unfold requestAtCursor
  split
  · exact .of_eq rfl
  · exact .act (.request ..)

theorem requestDocument_speaks (m : Model) (kind : LspCall) : Speaks D m (m.requestDocument kind) := by
  unfold requestDocument
  split
  · exact .of_eq rfl
  · split
    · exact .of_eq rfl
    · exact .act (.request ..)

theorem requestLspDocumentSymbols_speaks (m : Model) : Speaks D m m.requestLspDocumentSymbols := by
  unfold requestLspDocumentSymbols
  dsimp only
  refine (requestDocument_speaks m .documentSymbols).trans ?_
  split
  · exact .of_eq rfl
  · rename_i path s heq
    obtain ⟨path', -, heq⟩ := Option.bind_eq_some_iff.mp heq
    obtain ⟨s', hs, heq⟩ := Option.map_eq_some_iff.mp heq
    obtain ⟨rfl, rfl⟩ := Prod.mk.inj heq
    obtain ⟨server, -, hs⟩ := Option.bind_eq_some_iff.mp hs
    exact .act (LspState.Act.show hs ⟨rfl, rfl, rfl, rfl, rfl, rfl, fun _ _ h => h⟩)

theorem promptLspRename_lsp (m : Model) : m.promptLspRename.lsp = m.lsp := by
  unfold promptLspRename
  split_ifs <;> rfl

theorem requestLspRename_speaks (m : Model) (newName : String) :
    Speaks D m (m.requestLspRename newName) := by
  unfold requestLspRename
  split
  · exact .of_eq rfl
  · exact .act (.request ..)

theorem requestLspCodeActions_speaks (m : Model) : Speaks D m m.requestLspCodeActions := by
  unfold requestLspCodeActions
  split
  · exact .of_eq rfl
  · split
    · exact .of_eq rfl
    · exact .act (.request ..)

theorem requestLspWorkspaceSymbols_speaks (m : Model) : Speaks D m m.requestLspWorkspaceSymbols := by
  have hfold : ∀ (ss : List LspSessionState) (l : LspState), l.Course D
      (ss.foldl (fun l s => l.request s.server .workspaceSymbols (.workspace "")) l) := by
    intro ss
    induction ss with
    | nil => exact fun _ => .refl
    | cons s ss ih => exact fun l => .head (.request ..) (ih _)
  exact hfold m.lsp.sessions m.lsp

theorem restartLanguageServers_speaks (m : Model) (hD : D .restart) :
    Speaks D m m.restartLanguageServers := by
  unfold restartLanguageServers
  by_cases hnone : m.lsp.sessions.isEmpty = true
  · rw [if_pos hnone]
    exact .of_eq rfl
  · rw [if_neg hnone]
    exact .act (.restart hD)

/-! ## Edits -/

/-- Any deed. -/
def Any (_ : LspState.Deed) : Prop := True

theorem tells_any (m : Model) : m.Tells Any := fun _ _ _ _ => trivial

theorem applyTextEdits_speaks {edits : List TextEdit}
    (hD : ∀ e ∈ edits, ∀ i b changes m₁ r, m.located e.path = some (i, b) →
      m.transact i changes .lsp = some (m₁, r) → m₁.Tells D)
    (ha : m.applyTextEdits h edits = some m') : Speaks D m m' := by
  unfold applyTextEdits at ha
  split at ha
  · exact .of_eq (Option.some.inj ha ▸ rfl)
  · split_ifs at ha
    · exact .of_eq (Option.some.inj ha ▸ rfl)
    · split at ha
      · exact .of_eq (Option.some.inj ha ▸ rfl)
      · obtain ⟨changes, -, ha⟩ := Option.bind_eq_some_iff.mp ha
        split at ha
        · exact .of_eq (Option.some.inj ha ▸ rfl)
        · obtain ⟨⟨m₁, outcome⟩, ht, ha⟩ := Option.bind_eq_some_iff.mp ha
          have hm₁ := transact_lsp ht
          dsimp only at ha
          split at ha
          · exact .of_eq (Option.some.inj ha ▸ hm₁)
          · exact (Speaks.of_eq hm₁).trans (syncAll_speaks (hD _ List.mem_cons_self _ _ _ _ _ ‹_› ht) ha)

/-- The document that an accepted completion is for. -/
def Completes (m : Model) (item : CompletionItem) (path : Path) : Prop :=
  match item.edit with
  | some edit => edit.path = path
  | none => ∃ b, m.active = some b ∧ b.path = some path

theorem acceptCompletion_speaks {item : CompletionItem}
    (hD : ∀ path, m.Completes item path → ∀ i b changes m₁ r, m.located path = some (i, b) →
      m.transact i changes .lsp = some (m₁, r) → m₁.Tells D)
    (ha : m.acceptCompletion h item = some m') : Speaks D m m' := by
  unfold acceptCompletion at ha
  split at ha
  · rename_i edit hedit
    refine applyTextEdits_speaks (fun e he => hD e.path ?_) ha
    rw [Completes, hedit, List.mem_singleton.mp he]
  · rename_i hedit
    split at ha
    · exact .of_eq (Option.some.inj ha ▸ rfl)
    · rename_i b hactive
      split at ha
      · exact .of_eq (Option.some.inj ha ▸ rfl)
      · rename_i path hpath
        refine applyTextEdits_speaks (fun e he => hD e.path ?_) ha
        rw [Completes, hedit, List.mem_singleton.mp he]
        exact ⟨b, hactive, hpath⟩

@[simp] theorem restoreActiveBuffer_lsp (m : Model) (buffer : Option BufferId) :
    (m.restoreActiveBuffer buffer).lsp = m.lsp := by
  unfold restoreActiveBuffer
  split <;> rfl

theorem abandonPendingWorkspaceEdit_lsp (m : Model) (message : String) :
    (m.abandonPendingWorkspaceEdit message).lsp = m.lsp := by
  unfold abandonPendingWorkspaceEdit
  split
  · exact restoreActiveBuffer_lsp ..
  · rfl

theorem applyPrepared_lsp {cs : List (ℕ × ChangeSet)} {r : Except EditError Unit}
    (ha : m.applyPrepared cs = some (m', r)) : m'.lsp = m.lsp := by
  induction cs generalizing m with
  | nil => exact (Prod.mk.inj (Option.some.inj ha)).1 ▸ rfl
  | cons c cs ih =>
    obtain ⟨⟨m₁, outcome⟩, ht, ha⟩ := Option.bind_eq_some_iff.mp ha
    have hm₁ := transact_lsp ht
    dsimp only at ha
    split at ha
    · exact (Prod.mk.inj (Option.some.inj ha)).1 ▸ hm₁
    · exact (ih ha).trans hm₁

theorem finishPendingWorkspaceEdit_speaks (hf : m.finishPendingWorkspaceEdit h = some m') :
    Speaks Any m m' := by
  unfold finishPendingWorkspaceEdit at hf
  split at hf
  · exact .of_eq (Option.some.inj hf ▸ rfl)
  · split_ifs at hf
    · exact .of_eq (Option.some.inj hf ▸ rfl)
    · obtain ⟨prepared, -, hf⟩ := Option.bind_eq_some_iff.mp hf
      split at hf
      · exact .of_eq (Option.some.inj hf ▸ restoreActiveBuffer_lsp ..)
      · obtain ⟨⟨m₁, outcome⟩, ht, hf⟩ := Option.bind_eq_some_iff.mp hf
        have hm₁ := applyPrepared_lsp ht
        dsimp only at hf
        split at hf
        · exact .of_eq (Option.some.inj hf ▸ hm₁)
        · obtain ⟨m₂, h₂, rfl⟩ := Option.map_eq_some_iff.mp hf
          have hsync : Speaks Any _ m₂ := syncAll_speaks (tells_any _) h₂
          exact Speaks.trans (.of_eq ((restoreActiveBuffer_lsp ..).trans hm₁)) hsync

theorem queueTargets_lsp (m : Model) (paths : List Path) :
    (m.queueTargets paths).1.lsp = m.lsp := by
  induction paths generalizing m with
  | nil => rfl
  | cons path rest ih =>
    unfold queueTargets
    split_ifs
    · exact ih m
    · split
      · exact ih m
      · exact (ih _).trans rfl

theorem applyWorkspaceEdit_speaks {edit : WorkspaceEdit}
    (ha : m.applyWorkspaceEdit h edit = some m') : Speaks Any m m' := by
  unfold applyWorkspaceEdit at ha
  split_ifs at ha
  · exact .of_eq (Option.some.inj ha ▸ rfl)
  · exact .of_eq (Option.some.inj ha ▸ rfl)
  · split at ha
    · exact .of_eq (Option.some.inj ha ▸ rfl)
    · dsimp only at ha
      split at ha
      · exact .of_eq (Option.some.inj ha ▸ rfl)
      · split at ha
        · exact .of_eq (Option.some.inj ha ▸ rfl)
        · have hfinish := finishPendingWorkspaceEdit_speaks ha
          exact (Speaks.of_eq (queueTargets_lsp m _)).trans hfinish

theorem acceptCodeAction_speaks {action : CodeAction}
    (ha : m.acceptCodeAction h action = some m') : Speaks Any m m' := by
  unfold acceptCodeAction at ha
  split at ha
  · exact applyWorkspaceEdit_speaks ha
  · exact .of_eq (Option.some.inj ha ▸ rfl)

/-! ## What servers say -/

@[simp] theorem syncLspDiagnostics_lsp (m : Model) (path : Path) :
    (m.syncLspDiagnostics path).lsp = m.lsp := by
  unfold syncLspDiagnostics
  split <;> rfl

@[simp] theorem lsp_offer (m : Model) (nothing : Bool) (message : String) (overlay : Overlay) :
    (m.offer nothing message overlay).lsp = m.lsp := by
  unfold offer
  split_ifs <;> rfl

theorem takeCall_speaks {server : LspServerId} {s : LspSessionState} {kind : LspCall}
    {id : LspRequestId} (hs : m.lsp.session server = some s)
    (ht : m.takeCall s kind id = some m') : Speaks D m m' := by
  unfold takeCall at ht
  split_ifs at ht
  obtain rfl := Option.some.inj ht
  exact .act (LspState.Act.show hs (s.settled_erase kind))

theorem taken_speaks {server : LspServerId} {s : LspSessionState} {kind : LspCall}
    {id : LspRequestId} {f : Model → Model} (hs : m.lsp.session server = some s)
    (hf : ∀ m₁, m.takeCall s kind id = some m₁ → Speaks D m₁ (f m₁)) :
    Speaks D m (((m.takeCall s kind id).map f).getD m) := by
  cases ht : m.takeCall s kind id with
  | none => exact .of_eq rfl
  | some m₁ => exact (takeCall_speaks hs ht).trans (hf m₁ ht)

theorem symbols_speaks {server : LspServerId} {s : LspSessionState} {id : LspRequestId}
    (hs : m.lsp.session server = some s) (ht : m.takeCall s .documentSymbols id = some m₁)
    (path : Path) (symbols : List TextRange) :
    m.lsp.Act D { m₁.lsp.setSession { s with
      active := s.active.erase .documentSymbols, activeDocumentSymbolPath := none } with
      documentSymbols := m₁.lsp.documentSymbols.insert path symbols } := by
  unfold takeCall at ht
  split_ifs at ht
  obtain rfl := Option.some.inj ht
  have hsettled : s.Settled { s with
      active := s.active.erase .documentSymbols, activeDocumentSymbolPath := none } :=
    ⟨rfl, rfl, rfl, rfl, rfl, rfl, fun _ _ hv => lookup_erase_some hv⟩
  have htwice := congrArg LspState.sessions (setSession_setSession m.lsp
    { s with active := s.active.erase .documentSymbols } _ hsettled.server)
  exact .settle hs hsettled htwice rfl rfl rfl

theorem failed_act {l : LspState} {server : LspServerId} {s s' : LspSessionState}
    (hs : l.session server = some s) (hsettled : s.Settled s') (load : LspLoadState) :
    l.Act D ((l.setSession s').setSession { s' with load }) := by
  rw [setSession_setSession l s' { s' with load } rfl]
  exact LspState.Act.show hs ⟨hsettled.server, hsettled.launch, hsettled.extensions,
    hsettled.openDocs, hsettled.syncedDocs, hsettled.nextDocVersion, hsettled.active⟩

/-- What a server says, renames and formattings set apart. -/
theorem onLspEvent_speaks {server : LspServerId} {event : LspEvent}
    (hrename : ∀ s id edit m₁, event = .rename id edit → m.lsp.session server = some s →
      m.takeCall s .rename id = some m₁ → m₁.applyWorkspaceEdit h edit = some m' →
        Speaks D m₁ m')
    (hformat : ∀ s id edits m₁, event = .formatting id edits → m.lsp.session server = some s →
      m.takeCall s .formatting id = some m₁ → m₁.applyTextEdits h edits = some m' →
        Speaks D m₁ m')
    (he : m.onLspEvent h server event = some m') : Speaks D m m' := by
  unfold onLspEvent at he
  split at he
  · exact .of_eq (Option.some.inj he ▸ rfl)
  · rename_i s hs
    have hload : ∀ load, m.lsp.Act D (m.lsp.setSession { s with load }) := fun load =>
      LspState.Act.show hs (s.settled_load load)
    cases event with
    | started | ready | indexing | unavailable | exited =>
      exact Option.some.inj he ▸ .act (hload _)
    | diagnostics path version items =>
      dsimp only at he
      split_ifs at he
      · exact .of_eq (Option.some.inj he ▸ rfl)
      · rw [← Option.some.inj he, Speaks, syncLspDiagnostics_lsp]
        exact .single (.idle rfl rfl rfl rfl)
    | definition id locations =>
      rw [← Option.some.inj he]
      refine taken_speaks hs fun m₁ _ => ?_
      split
      · exact .of_eq (openLspLocation_lsp ..)
      · exact .of_eq rfl
    | hover | completion | references | codeActions =>
      exact Option.some.inj he ▸ taken_speaks hs fun m₁ _ => .of_eq (lsp_offer ..)
    | documentSymbols id symbols =>
      rw [← Option.some.inj he]
      cases ht : m.takeCall s .documentSymbols id with
      | none => exact .of_eq rfl
      | some m₁ =>
        rw [Option.map_some, Option.getD_some]
        split
        · exact takeCall_speaks hs ht
        · rename_i path _
          rw [Speaks, lsp_offer]
          exact .single (symbols_speaks hs ht path symbols)
    | workspaceSymbols id symbols =>
      rw [← Option.some.inj he]
      refine taken_speaks hs fun m₁ _ => ?_
      split <;> exact .of_eq rfl
    | rename id edit =>
      dsimp only at he
      split at he
      · exact .of_eq (Option.some.inj he ▸ rfl)
      · rename_i m₁ ht
        exact (takeCall_speaks hs ht).trans (hrename s id edit m₁ rfl hs ht he)
    | formatting id edits =>
      dsimp only at he
      split at he
      · exact .of_eq (Option.some.inj he ▸ rfl)
      · rename_i m₁ ht
        exact (takeCall_speaks hs ht).trans (hformat s id edits m₁ rfl hs ht he)
    | failed id failure =>
      cases id with
      | none => exact Option.some.inj he ▸ .act (failed_act hs (.refl s) _)
      | some id =>
        have hcleared := s.settled_clearRequest id
        dsimp only at he
        by_cases hknown : (!(s.clearRequest id).2) = true
        · rw [if_pos hknown] at he
          exact Option.some.inj he ▸ .act (LspState.Act.show hs hcleared)
        · rw [if_neg hknown] at he
          exact Option.some.inj he ▸ .act (failed_act hs hcleared _)

theorem notifyLspWatchedFiles_speaks (m : Model) (paths : List Path) :
    Speaks D m (m.notifyLspWatchedFiles paths) := by
  unfold notifyLspWatchedFiles
  split
  · exact .of_eq rfl
  · dsimp only
    split_ifs
    · exact .of_eq rfl
    · refine .act (.tell _ fun r hr => ?_)
      obtain ⟨s, -, hr⟩ := List.mem_flatMap.mp hr
      rcases List.mem_cons.mp hr with rfl | hr
      · trivial
      · split_ifs at hr
        · exact List.mem_singleton.mp hr ▸ trivial
        · cases hr

/-! ## Files -/

theorem finishRestoredRead_lsp (m : Model) (buffer : BufferId) :
    (m.finishRestoredRead buffer).lsp = m.lsp := by
  unfold finishRestoredRead
  split <;> rfl

theorem applyConfig_lsp (h : Host) (m : Model) (kind : ConfigReloadKind) (contents : Option Text) :
    (m.applyConfig h kind contents).lsp = m.lsp := by
  unfold applyConfig
  split <;> rfl

theorem reloadConfig_lsp (h : Host) (m : Model) : (m.reloadConfig h).lsp = m.lsp := by
  unfold reloadConfig queueConfigReload
  cases h.configFile <;> cases h.keymapFile <;> rfl

theorem refuseLoaded_lsp (m : Model) (buffer : BufferId) (path : Path) (restored : Bool) :
    (m.refuseLoaded buffer path restored).lsp = m.lsp := by
  unfold refuseLoaded
  dsimp only
  split_ifs
  · rw [lsp_appendNotification, finishRestoredRead_lsp]
  · exact abandonPendingWorkspaceEdit_lsp ..
  · rfl

theorem reloadBuffer_speaks {i : ℕ} {old : Buffer} {buffer : BufferId} {path : Path} {text : Text}
    (hr : m.reloadBuffer h i old buffer path text = some m') : Speaks Any m m' := by
  obtain ⟨m₁, h₁, hf⟩ := Option.bind_eq_some_iff.mp hr
  have hsync := syncAll_speaks (tells_any _) h₁
  have hfinish := finishPendingWorkspaceEdit_speaks hf
  refine Relation.ReflTransGen.trans ?_ (Relation.ReflTransGen.trans hsync hfinish)
  dsimp only [setBuffer]
  cases old.path with
  | none => exact .refl
  | some path => exact .single (.close path trivial)

theorem showLoaded_speaks {buffer : BufferId} {path : Path} {text : Text} {restored : Bool}
    (hs : m.showLoaded h buffer path text restored = some m') : Speaks Any m m' := by
  obtain ⟨m₁, h₁, hf⟩ := Option.bind_eq_some_iff.mp hs
  have hm₁ : m₁.lsp = m.lsp := by
    refine (syncSyntax_lsp h₁).trans ?_
    by_cases hr : restored = true
    · rw [if_pos hr]
      exact finishRestoredRead_lsp ..
    · rw [if_neg hr]
  have hshown : ∀ m₂ : Model, m₂.lsp = m.lsp →
      (m₂.syncLspDocuments.stopWaiting buffer).finishPendingWorkspaceEdit h = some m' →
      Speaks Any m m' := by
    intro m₂ h₂ hf
    have hfinish := finishPendingWorkspaceEdit_speaks hf
    exact (Speaks.of_eq h₂).trans
      (Speaks.trans (syncLspDocuments_speaks _ (tells_any _)) hfinish)
  dsimp only at hf
  split at hf
  · split_ifs at hf
    · refine hshown _ ?_ hf
      exact (positionOpenBuffer_lsp ..).trans hm₁
    · exact hshown _ hm₁ hf
  · exact hshown _ hm₁ hf

theorem fileLoaded_speaks {buffer : BufferId} {path : Path} {contents : Option Text}
    (hl : m.fileLoaded h buffer path contents = some m') : Speaks Any m m' := by
  unfold fileLoaded at hl
  split at hl
  · exact .of_eq (Option.some.inj hl ▸ applyConfig_lsp ..)
  · split at hl
    · exact .of_eq (Option.some.inj hl ▸ rfl)
    · dsimp only at hl
      split at hl
      · exact .of_eq (Option.some.inj hl ▸ refuseLoaded_lsp ..)
      · split at hl
        · have hreload := reloadBuffer_speaks hl
          exact hreload
        · have hshow := showLoaded_speaks hl
          exact hshow

theorem didSave_course (lsp : LspState) (path : Path) :
    lsp.Course D (match lsp.serverFor path with
      | some server => lsp.push server (.didSave path)
      | none => lsp) := by
  cases lsp.serverFor path with
  | none => exact .refl
  | some server => exact .single (.tell [_] fun r hr => List.mem_singleton.mp hr ▸ trivial)

theorem fileSaved_speaks (h : Host) (m : Model) (buffer : BufferId) (version : Version) :
    Speaks D m (m.fileSaved h buffer version) := by
  unfold fileSaved
  split
  · exact .of_eq rfl
  · split
    · exact .of_eq rfl
    · rename_i b _
      dsimp only
      cases b.path with
      | none => exact .of_eq rfl
      | some path =>
        have htold := didSave_course (D := D) m.lsp path
        dsimp only
        split
        · split_ifs
          · exact htold
          · exact htold
        · exact htold

theorem fileFailed_lsp (h : Host) (m : Model) (buffer : BufferId) (error : FsError) :
    (m.fileFailed h buffer error).lsp = m.lsp := by
  unfold fileFailed
  split
  · exact lsp_appendNotification ..
  · split
    · exact applyConfig_lsp ..
    · split
      · rfl
      · dsimp only
        split_ifs
        · rw [lsp_appendNotification, finishRestoredRead_lsp]
        · exact abandonPendingWorkspaceEdit_lsp ..
        · rfl

theorem reloadChangedBuffers_lsp (m : Model) (paths : List Path) :
    (m.reloadChangedBuffers paths).lsp = m.lsp := by
  refine lsp_foldl (fun m path => ?_) paths m
  unfold reloadChanged
  split
  · rfl
  · split_ifs <;> rfl

/-- What the filesystem worker says, loaded files set apart. -/
theorem onFsEvent_speaks {e : FsEvent}
    (hloaded : ∀ buffer path contents, e = .fileLoaded buffer path contents →
      m.fileLoaded h buffer path contents = some m' → Speaks D m m')
    (he : m.onFsEvent h e = some m') : Speaks D m m' := by
  cases e with
  | fileLoaded => exact hloaded _ _ _ rfl he
  | fileSaved => exact Option.some.inj he ▸ fileSaved_speaks ..
  | fileFailed => exact .of_eq (Option.some.inj he ▸ fileFailed_lsp ..)
  | pathResolved request path =>
    rw [onFsEvent] at he
    split at he
    · exact .of_eq (Option.some.inj he ▸ rfl)
    · dsimp only at he
      split_ifs at he
      · exact .of_eq (Option.some.inj he ▸ rfl)
      · exact .of_eq (Option.some.inj he ▸ openFileAt_lsp ..)
      · exact .of_eq (Option.some.inj he ▸ rfl)
  | pathResolveFailed =>
    rw [onFsEvent] at he
    split_ifs at he <;> exact .of_eq (Option.some.inj he ▸ rfl)
  | mutationFailed =>
    rw [← Option.some.inj he]
    split_ifs <;> exact .of_eq rfl
  | changed paths =>
    rw [← Option.some.inj he]
    refine (notifyLspWatchedFiles_speaks m paths).trans ?_
    split_ifs
    · exact .of_eq (reloadChangedBuffers_lsp ..)
    · exact .of_eq rfl

/-! ## Commands and prompts -/

theorem openFindPrompt_lsp (m : Model) (kind : PromptKind) (title : String) :
    (m.openFindPrompt kind title).lsp = m.lsp := by
  unfold openFindPrompt
  split_ifs <;> rfl

theorem confirmFile_lsp (m : Model) (prompt : Prompt) (name : String) :
    (m.confirmFile prompt name).lsp = m.lsp := by
  unfold confirmFile
  split_ifs
  · rfl
  · rfl
  · split
    · rfl
    · rfl
    · split <;> rfl
    · rfl
    · rfl

theorem confirmPrompt_speaks {prompt : Prompt}
    (hclose : ∀ id, prompt.kind = .confirmCloseBuffer id → ∀ path, m.HasPath id path →
      D (.close path))
    (hc : m.confirmPrompt h prompt = some m') : Speaks D m m' := by
  unfold confirmPrompt at hc
  dsimp only at hc
  split at hc
  · split_ifs at hc
    · exact .of_eq (Option.some.inj hc ▸ clearFind_lsp m)
    · exact .of_eq (runFind_lsp hc)
  · exact .of_eq (replaceAll_lsp hc)
  · rename_i id hkind
    exact Option.some.inj hc ▸ discardBuffer_speaks m _ (hclose id hkind)
  · exact .of_eq (Option.some.inj hc ▸ removeTerminal_lsp ..)
  · rw [← Option.some.inj hc]
    split_ifs
    · exact .of_eq rfl
    · exact .of_eq (createTerminal_lsp ..)
  · rw [← Option.some.inj hc]
    split_ifs <;> exact .of_eq rfl
  · rw [← Option.some.inj hc]
    split_ifs
    · exact .of_eq rfl
    · exact requestLspRename_speaks ..
  · rw [← Option.some.inj hc]
    split_ifs
    · exact .of_eq rfl
    · exact .of_eq rfl
    · exact .of_eq (newAgentSession_lsp _)
  · exact .of_eq (Option.some.inj hc ▸ confirmFile_lsp ..)

theorem dispatchInner_speaks {cmd : Command}
    (hclose : cmd = .closeTab → ∀ b, m.active = some b → b.isDirty = false →
      ∀ path, m.HasPath b.id path → D (.close path))
    (hrestart : cmd = .lspRestart → D .restart)
    (hd : m.dispatchInner h cmd = some m') : Speaks D m m' := by
  cases cmd with
  | save => exact .of_eq (Option.some.inj hd ▸ saveActiveBuffer_lsp m)
  | restoreDrafts => exact .of_eq (applyRecoveryDrafts_lsp hd)
  | reloadConfig => exact .of_eq (Option.some.inj hd ▸ reloadConfig_lsp h m)
  | cursor motion => exact .of_eq (Option.some.inj hd ▸ withBuffer_lsp ..)
  | newline | backspace | deleteForward => exact .of_eq (editActive_lsp hd)
  | undo | redo => exact .of_eq (replayActive_lsp hd)
  | find => exact .of_eq (Option.some.inj hd ▸ openFindPrompt_lsp ..)
  | replace =>
    rw [← Option.some.inj hd]
    split_ifs
    · exact .of_eq rfl
    · exact .of_eq (openFindPrompt_lsp ..)
  | findNext | findPrev => exact .of_eq (stepMatch_lsp hd)
  | nextTab | prevTab => exact .of_eq (Option.some.inj hd ▸ cycleTab_lsp ..)
  | closeTab => exact Option.some.inj hd ▸ closeTab_speaks m (hclose rfl)
  | lspAtCursor kind => exact Option.some.inj hd ▸ requestAtCursor_speaks m kind
  | lspDocumentSymbols => exact Option.some.inj hd ▸ requestLspDocumentSymbols_speaks m
  | lspWorkspaceSymbols => exact Option.some.inj hd ▸ requestLspWorkspaceSymbols_speaks m
  | lspFormat => exact Option.some.inj hd ▸ requestDocument_speaks m .formatting
  | lspRename => exact .of_eq (Option.some.inj hd ▸ promptLspRename_lsp m)
  | lspCodeAction => exact Option.some.inj hd ▸ requestLspCodeActions_speaks m
  | lspRestart => exact Option.some.inj hd ▸ restartLanguageServers_speaks m (hrestart rfl)
  | agentSessionNew => exact .of_eq (Option.some.inj hd ▸ newAgentSession_lsp m)
  | agentPrompt => exact .of_eq (Option.some.inj hd ▸ promptAgent_lsp m)
  | agentMode => exact .of_eq (Option.some.inj hd ▸ openAgentModes_lsp m)
  | proposalAccept | proposalReject => exact .of_eq (resolveProposal_lsp hd)
  | agentAllowOnce | agentAllowAlways | agentDeny => exact .of_eq (decidePermission_lsp hd)
  | terminalFocus => exact .of_eq (Option.some.inj hd ▸ toggleTerminalFocus_lsp h m)
  | terminalNew => exact .of_eq (Option.some.inj hd ▸ newShellTerminal_lsp h m)
  | terminalNext | terminalPrevious =>
    exact .of_eq (Option.some.inj hd ▸ cycleTerminal_lsp h m _)
  | terminalRestart => exact .of_eq (restartTerminal_lsp hd)
  | terminalClose => exact .of_eq (Option.some.inj hd ▸ closeTerminal_lsp m)
  | terminalRun | focusPane | focusNext | focusPrev | closeOverlay | quit | other =>
    exact .of_eq (Option.some.inj hd ▸ rfl)

/-! ## Every event -/

theorem step_mute {ev : Event} (hq : ev.Mute) (hs : m.step h ev = some m') : m'.lsp = m.lsp := by
  cases ev with
  | openFile => exact Option.some.inj hs ▸ openFile_lsp ..
  | openFileAt => exact Option.some.inj hs ▸ openFileAt_lsp ..
  | acceptSelectedRecoveryDrafts => exact applyRecoveryDrafts_lsp hs
  | discardRecoveryDrafts => exact Option.some.inj hs ▸ discardRecoveryDrafts_lsp h m
  | openLspLocation => exact Option.some.inj hs ▸ openLspLocation_lsp ..
  | setAgentMode => exact Option.some.inj hs ▸ setAgentMode_lsp ..
  | decidePermission => exact decidePermission_lsp hs
  | typeTerminal => exact Option.some.inj hs ▸ typeTerminal_lsp ..
  | setTerminalSize => exact Option.some.inj hs ▸ setTerminalSize_lsp ..
  | agent => exact onAgentEvent_lsp hs
  | pty => exact Option.some.inj hs ▸ onPtyEvent_lsp ..
  | tick => exact Option.some.inj hs ▸ queueDueDrafts_lsp ..
  | shutdownTerminals => exact Option.some.inj hs ▸ shutdownTerminals_lsp m
  | navigateProblem | setOverlays | takeFsRequests | takeAgentRequests | takePtyRequests =>
    exact Option.some.inj hs ▸ rfl
  | dispatch | typeChar | confirmPrompt | openWorkspace | restoreSession | acceptCompletion
  | acceptCodeAction | applyTextEdits | applyWorkspaceEdit | fs | lsp | takeLspRequests =>
    exact hq.elim

/-- **An event tells the servers what it has to in the ways of `LspState.Act`.** -/
theorem step_speaks {ev : Event} (hne : ev ≠ .takeLspRequests) (hs : m.step h ev = some m') :
    Speaks Any m m' := by
  cases ev with
  | dispatch cmd =>
    obtain ⟨m₁, h₁, h₂⟩ := Option.bind_eq_some_iff.mp hs
    have hinner := dispatchInner_speaks (D := Any) (fun _ _ _ _ _ _ => trivial) (fun _ => trivial) h₁
    exact Speaks.trans hinner (syncAll_speaks (tells_any _) h₂)
  | typeChar c =>
    obtain ⟨m₁, h₁, h₂⟩ := Option.bind_eq_some_iff.mp hs
    have hedit := editActive_lsp h₁
    exact (Speaks.of_eq hedit).trans (syncAll_speaks (tells_any _) h₂)
  | confirmPrompt => exact confirmPrompt_speaks (fun _ _ _ _ => trivial) hs
  | openWorkspace => exact Option.some.inj hs ▸ openWorkspace_speaks _ _ _ trivial
  | restoreSession w =>
    rw [← Option.some.inj hs, restoreSession_eq]
    exact (openWorkspace_speaks _ _ _ trivial).trans (.of_eq (reopen_lsp ..))
  | acceptCompletion =>
    exact acceptCompletion_speaks (fun _ _ _ _ _ _ _ _ _ => tells_any _) hs
  | acceptCodeAction => exact acceptCodeAction_speaks hs
  | applyTextEdits => exact applyTextEdits_speaks (fun _ _ _ _ _ _ _ _ _ => tells_any _) hs
  | applyWorkspaceEdit => exact applyWorkspaceEdit_speaks hs
  | fs => exact onFsEvent_speaks (fun _ _ _ _ => fileLoaded_speaks) hs
  | lsp =>
    exact onLspEvent_speaks (fun _ _ _ _ _ _ _ => applyWorkspaceEdit_speaks)
      (fun _ _ _ _ _ _ _ => applyTextEdits_speaks fun _ _ _ _ _ _ _ _ _ => tells_any _) hs
  | takeLspRequests => exact absurd rfl hne
  | openFile | openFileAt | navigateProblem | setOverlays | acceptSelectedRecoveryDrafts
  | discardRecoveryDrafts | openLspLocation | setAgentMode | decidePermission | typeTerminal
  | setTerminalSize | agent | pty | tick | shutdownTerminals | takeFsRequests
  | takeAgentRequests | takePtyRequests =>
    exact .of_eq (step_mute (by trivial) hs)

end Model

end App

end Termesh
