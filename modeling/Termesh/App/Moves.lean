import Termesh.App.Works
import Termesh.Lib.First

/-!
# What the entry points do to buffers

For each function, the works it does on the buffers, or that its buffers or its texts are the same.

* find and replace: `runFind_worked`, `stepMatch_worked`, `replaceAll_worked`;
* drafts: `applyDrafts_worked`;
* server edits: `applyTextEdits_worked`, `finishPendingWorkspaceEdit_worked`, `onLspEvent_worked`;
* proposals: `decidePermission_worked`, `resolveProposal_worked`, `receivePermission_worked`;
* files: `fileSaved_spec`, `textAt_finishRestoredRead`.
-/

namespace Termesh

namespace App.Model

open Document Firsts

variable {T : Prop} {P : Document → Selection → Prop} {m m' : Model}

theorem documents_of_buffers (h : m'.buffers = m.buffers) : m'.documents = m.documents := by
  rw [documents, documents, h]

theorem map_bare_modify {bs : List Buffer} (i : ℕ) {f : Buffer → Buffer}
    (hf : ∀ b, (f b).bare = b.bare) : (bs.modify i f).map Buffer.bare = bs.map Buffer.bare := by
  refine List.ext_getElem? fun j => ?_
  rw [List.getElem?_map, List.getElem?_map, List.getElem?_modify]
  cases bs[j]? with
  | none => rfl
  | some b =>
    show some (if i = j then f b else b).bare = some b.bare
    split_ifs
    · rw [hf]
    · rfl

theorem pages_of_buffers (h : m'.buffers = m.buffers) : m'.pages = m.pages := by
  rw [pages, pages, h]

/-! ## Keeping still -/

/-- The buffers, the agent's session and the find are the same. -/
def Still (m m' : Model) : Prop :=
  m'.buffers = m.buffers ∧ m'.agent = m.agent ∧ m'.find = m.find

theorem Still.trans {m₁ : Model} (h : Still m m₁) (h' : Still m₁ m') : Still m m' :=
  ⟨h'.1.trans h.1, h'.2.1.trans h.2.1, h'.2.2.trans h.2.2⟩

theorem Worked.of_still (hs : Still m m') : Worked T P m m' := .of_buffers hs.1 hs.2.2

theorem still_foldl {α : Type*} {f : Model → α → Model} (hf : ∀ m a, Still m (f m a)) (l : List α)
    (m : Model) : Still m (l.foldl f m) := by
  induction l generalizing m with
  | nil => exact ⟨rfl, rfl, rfl⟩
  | cons a l ih => exact (hf m a).trans (ih _)

theorem still_appendNotification (m : Model) (s : String) : Still m (m.appendNotification s) := by
  unfold appendNotification
  split
  · split_ifs <;> exact ⟨rfl, rfl, rfl⟩
  · exact ⟨rfl, rfl, rfl⟩

/-! ## Find and replace -/

theorem runFind_worked {h : Host} {query : Text}
    (hP : ∀ i b k t, m.onScreen = some (i, b) →
      nextFrom (findAll h.folding b.text query) b.selection.primary.head = some k →
        (findAll h.folding b.text query)[k]? = some t → P b.document (.single ⟨t.1, t.2⟩))
    (hr : m.runFind h query = some m') :
    List.Forall₂ (Buffer.Works T P) m.buffers m'.buffers := by
  unfold runFind at hr
  split at hr
  · rw [← Option.some.inj hr]
    exact List.forall₂_same.mpr fun _ _ => .refl
  · rename_i b hb
    refine (focusMatch_worked ?_ hr).1
    intro find i b' k t hfind hon hk ht
    have hon : m.onScreen = some (i, b') := hon
    obtain ⟨ha, hi⟩ := onScreen_some hon
    have : m.active = some b' := by rw [active, ha]; exact hi
    obtain rfl : b = b' := Option.some.inj (hb.symm.trans this)
    rw [← Option.some.inj hfind] at hk ht
    exact hP i b k t hon hk ht

theorem stepMatch_worked {forward : Bool}
    (hP : ∀ find i b k t, m.find = some find → m.onScreen = some (i, b) →
      Find.step find forward = some (some k) → find.found[k]? = some t →
        P b.document (.single ⟨t.1, t.2⟩))
    (hr : m.stepMatch forward = some m') : Worked T P m m' := by
  unfold stepMatch at hr
  split at hr
  · rw [← Option.some.inj hr]
    exact .of_buffers rfl rfl
  · rename_i find hfind
    split_ifs at hr
    · rw [← Option.some.inj hr]
      exact .of_buffers rfl rfl
    · obtain ⟨current, hc, hr⟩ := Option.bind_eq_some_iff.mp hr
      have hstepped : Worked T P m { m with find := some { find with current } } := by
        refine ⟨List.forall₂_same.mpr fun _ _ => .refl, fun find' hf => ?_⟩
        rw [← Option.some.inj hf]
        exact ⟨find, hfind, rfl, rfl⟩
      refine hstepped.trans (focusMatch_worked ?_ hr)
      intro find' i b k t hf hon hk ht
      rw [← Option.some.inj hf] at hk ht
      exact hP find i b k t hfind hon (hk ▸ hc) ht

theorem transact_refused {i : ℕ} {c : ChangeSet} {s : EditSource} {e : EditError}
    (h : m.transact i c s = some (m', .error e)) :
    m'.documents = m.documents ∧ m'.agent = m.agent := by
  obtain ⟨b, hb, h⟩ := Option.bind_eq_some_iff.mp h
  obtain ⟨⟨b', r'⟩, ha, hx⟩ := Option.map_eq_some_iff.mp h
  obtain ⟨rfl, rfl⟩ := Prod.mk.inj hx
  cases Buffer.applied_of_apply ha with
  | refused => exact ⟨documents_set hb rfl, rfl⟩

theorem replaceAll_worked {h : Host} {replacement : Text}
    (hr : m.replaceAll h replacement = some m') : Worked True P m m' := by
  unfold replaceAll at hr
  split at hr
  · rw [← Option.some.inj hr]
    exact .of_buffers rfl rfl
  · split_ifs at hr
    · rw [← Option.some.inj hr]
      exact .of_buffers rfl rfl
    · split at hr
      · rw [← Option.some.inj hr]
        exact .of_buffers rfl rfl
      · obtain ⟨c, -, hr⟩ := Option.bind_eq_some_iff.mp hr
        obtain ⟨⟨m₁, r⟩, ht, hr⟩ := Option.bind_eq_some_iff.mp hr
        have hm := transact_worked (P := P) ht
        dsimp only at hr
        split at hr
        · rw [← Option.some.inj hr]
          exact hm
        · refine hm.trans (Worked.trans ?_ (syncProposals_worked hr))
          exact .of_docs (map_bare_modify _ fun _ => rfl) (.of_none rfl)

/-! ## Tabs and drafts -/

theorem cycleTab_still (m : Model) (step : Int) : Still m (m.cycleTab step) := by
  unfold cycleTab
  split_ifs
  · exact ⟨rfl, rfl, rfl⟩
  · split <;> exact ⟨rfl, rfl, rfl⟩

theorem documents_appendNotification (m : Model) (s : String) :
    (m.appendNotification s).documents = m.documents :=
  documents_of_buffers (buffers_of_desk (desk_appendNotification m s))

theorem applyDraft_worked {d : Draft} (h : m.applyDraft d = some m') : Worked True P m m' := by
  unfold applyDraft at h
  split at h
  · rw [← Option.some.inj h]
    exact .of_desk (desk_appendNotification ..)
  · obtain ⟨c, -, h⟩ := Option.bind_eq_some_iff.mp h
    obtain ⟨⟨m₁, r⟩, hx, hm⟩ := Option.map_eq_some_iff.mp h
    rw [← hm]
    dsimp only
    split
    · exact transact_worked hx
    · exact (transact_worked hx).trans (.of_desk (desk_appendNotification ..))

theorem applyDrafts_worked {ds : List Draft} (h : m.applyDrafts ds = some m') :
    Worked True P m m' := by
  induction ds generalizing m with
  | nil => cases h; exact .of_buffers rfl rfl
  | cons d ds ih =>
    obtain ⟨m₁, h₁, h⟩ := Option.bind_eq_some_iff.mp h
    exact (applyDraft_worked h₁).trans (ih h)

theorem applyRecoveryDrafts_worked {s : Bool} (h : m.applyRecoveryDrafts s = some m') :
    Worked True P m m' := by
  unfold applyRecoveryDrafts at h
  split at h
  · refine Worked.trans ?_ (applyDrafts_worked h)
    exact .of_buffers rfl rfl
  · rw [← Option.some.inj h]
    exact .of_buffers rfl rfl

/-! ## Server edits -/

theorem applyTextEdits_worked {h : Host} {es : List TextEdit} (ha : m.applyTextEdits h es = some m') :
    Worked True P m m' := by
  unfold applyTextEdits at ha
  split at ha
  · rw [← Option.some.inj ha]
    exact .of_buffers rfl rfl
  · split_ifs at ha
    · rw [← Option.some.inj ha]
      exact .of_buffers rfl rfl
    · split at ha
      · rw [← Option.some.inj ha]
        exact .of_buffers rfl rfl
      · obtain ⟨c, -, ha⟩ := Option.bind_eq_some_iff.mp ha
        cases c with
        | error e => rw [← Option.some.inj ha]; exact .of_buffers rfl rfl
        | ok c =>
          obtain ⟨⟨m₁, r⟩, hx, ha⟩ := Option.bind_eq_some_iff.mp ha
          have hm := transact_worked (P := P) hx
          dsimp only at ha
          split at ha
          · rw [← Option.some.inj ha]
            exact hm
          · exact hm.trans (syncAll_worked ha)

theorem acceptCompletion_worked {h : Host} {item : CompletionItem}
    (ha : m.acceptCompletion h item = some m') : Worked True P m m' := by
  unfold acceptCompletion at ha
  split at ha
  · exact applyTextEdits_worked ha
  · split at ha
    · rw [← Option.some.inj ha]
      exact .of_buffers rfl rfl
    · split at ha
      · rw [← Option.some.inj ha]
        exact .of_buffers rfl rfl
      · exact applyTextEdits_worked ha

theorem applyPrepared_worked {cs : List (ℕ × ChangeSet)} {r : Except EditError Unit}
    (h : m.applyPrepared cs = some (m', r)) : Worked True P m m' := by
  induction cs generalizing m with
  | nil => cases h; exact .of_buffers rfl rfl
  | cons c cs ih =>
    obtain ⟨⟨m₁, r₁⟩, hx, h⟩ := Option.bind_eq_some_iff.mp h
    have hm := transact_worked (P := P) hx
    dsimp only at h
    split at h
    · rw [← (Prod.mk.inj (Option.some.inj h)).1]
      exact hm
    · exact hm.trans (ih h)

theorem restoreActiveBuffer_still (m : Model) (b : Option BufferId) :
    Still m (m.restoreActiveBuffer b) := by
  unfold restoreActiveBuffer
  split <;> exact ⟨rfl, rfl, rfl⟩

theorem finishPendingWorkspaceEdit_worked {h : Host}
    (hf : m.finishPendingWorkspaceEdit h = some m') : Worked True P m m' := by
  unfold finishPendingWorkspaceEdit at hf
  split at hf
  · rw [← Option.some.inj hf]
    exact .of_buffers rfl rfl
  · split_ifs at hf
    · rw [← Option.some.inj hf]
      exact .of_buffers rfl rfl
    · obtain ⟨p, -, hf⟩ := Option.bind_eq_some_iff.mp hf
      cases p with
      | error e =>
        rw [← Option.some.inj hf]
        exact .of_still (restoreActiveBuffer_still ..)
      | ok p =>
        obtain ⟨⟨m₁, r⟩, hx, hf⟩ := Option.bind_eq_some_iff.mp hf
        have hm := applyPrepared_worked (P := P) hx
        dsimp only at hf
        split at hf
        · rw [← Option.some.inj hf]
          exact hm
        · obtain ⟨m₂, h₂, rfl⟩ := Option.map_eq_some_iff.mp hf
          have hm₂ : Worked True P m m₂ := Worked.trans hm (Worked.trans
            (.of_still (restoreActiveBuffer_still ..)) (syncAll_worked h₂))
          exact hm₂

theorem queueTargets_still (m : Model) (paths : List Path) :
    Still m (m.queueTargets paths).1 := by
  induction paths generalizing m with
  | nil => exact ⟨rfl, rfl, rfl⟩
  | cons path rest ih =>
    unfold queueTargets
    split_ifs
    · exact ih m
    · split
      · exact ih m
      · exact ih _

theorem applyWorkspaceEdit_worked {h : Host} {edit : WorkspaceEdit}
    (ha : m.applyWorkspaceEdit h edit = some m') : Worked True P m m' := by
  unfold applyWorkspaceEdit at ha
  split_ifs at ha
  · rw [← Option.some.inj ha]
    exact .of_buffers rfl rfl
  · rw [← Option.some.inj ha]
    exact .of_buffers rfl rfl
  · split at ha
    · rw [← Option.some.inj ha]
      exact .of_buffers rfl rfl
    · dsimp only at ha
      split at ha
      · rw [← Option.some.inj ha]
        exact .of_buffers rfl rfl
      · split at ha
        · rw [← Option.some.inj ha]
          exact .of_buffers rfl rfl
        · refine Worked.trans ?_ (finishPendingWorkspaceEdit_worked ha)
          exact .of_still (queueTargets_still m _)

theorem acceptCodeAction_worked {h : Host} {action : CodeAction}
    (ha : m.acceptCodeAction h action = some m') : Worked True P m m' := by
  unfold acceptCodeAction at ha
  split at ha
  · exact applyWorkspaceEdit_worked ha
  · rw [← Option.some.inj ha]
    exact .of_buffers rfl rfl

theorem lineRange_le (b : Buffer) (line : ℕ) : (b.lineRange line).2 ≤ b.text.length := by
  unfold Buffer.lineRange
  split_ifs
  · exact Nat.le_refl _
  · exact lineEnd_le _ _

theorem positionOpenBuffer_worked (hP : ∀ d s, Stays d s → P d s) (m : Model) (path : Path)
    (line column : ℕ) : Worked T P m (m.positionOpenBuffer path line column).1 := by
  unfold positionOpenBuffer
  split
  · exact .of_buffers rfl rfl
  · rename_i i b hl
    refine worked_set (located_some hl).1 (.single (.select b _ (hP _ _ fun _ => ?_)))
    exact Selection.within_point (Nat.le_trans (Nat.min_le_right _ _) (lineRange_le _ _))

theorem openFile_still (m : Model) (path : Path) : Still m (m.openFile path) := by
  unfold openFile
  split
  · exact ⟨rfl, rfl, rfl⟩
  · split_ifs <;> exact ⟨rfl, rfl, rfl⟩

theorem openFileAt_worked (hP : ∀ d s, Stays d s → P d s) (m : Model) (path : Path)
    (line column : ℕ) : Worked T P m (m.openFileAt path line column) := by
  unfold openFileAt
  have hm := positionOpenBuffer_worked (T := T) hP m path line column
  split
  · rename_i m₁ heq
    rw [heq] at hm
    exact hm
  · rename_i m₁ heq
    rw [heq] at hm
    exact hm.trans (.of_still (openFile_still _ path))

theorem openLspLocation_worked (hP : ∀ d s, Stays d s → P d s) (m : Model) (location : Location) :
    Worked T P m (m.openLspLocation location) := by
  unfold openLspLocation
  split_ifs
  · exact openFileAt_worked hP m _ _ _
  · exact .of_buffers rfl rfl

theorem restartLanguageServers_docs (m : Model) :
    m.restartLanguageServers.docs = m.docs ∧ m.restartLanguageServers.find = m.find := by
  have hclear : (m.buffers.map fun b =>
      { b with decorations := b.decorations.clearDiagnostics }).map Buffer.bare = m.docs := by
    rw [List.map_map]
    rfl
  unfold restartLanguageServers
  split
  · split_ifs <;> exact ⟨rfl, rfl⟩
  · exact ⟨hclear, rfl⟩

/-- Only what is drawn changes, and no hunk. -/
def Redrawn (m m' : Model) : Prop := m'.bare = m.bare ∧ m'.sheets = m.sheets

/-- A step that draws, and tells the human. -/
def Drawn (m m' : Model) : Prop :=
  Redrawn m m' ∧ ∃ buffers lsp overlays notification,
    m' = { m with buffers, lsp, overlays, notification }

theorem hunks_diagnostics {α : Type*} (ds : DecorationSet) (items : List α) (f : α → Decoration)
    (hf : ∀ a, (f a).owner = none) :
    DecorationSet.hunks (ds.clearDiagnostics ++ items.map f) = ds.hunks := by
  have hnone : DecorationSet.hunks (items.map f) = [] :=
    DecorationSet.hunks_eq_nil fun d hd => by
      obtain ⟨a, -, rfl⟩ := List.mem_map.mp hd
      exact hf a
  rw [DecorationSet.hunks_append, DecorationSet.hunks_clearDiagnostics, hnone, List.append_nil]

/-- What a language server's event does: it changes what the servers are told and what is drawn, it
leads somewhere, or it edits. -/
theorem onLspEvent_drawn {h : Host} {server : LspServerId} {event : LspEvent}
    (he : m.onLspEvent h server event = some m') :
    Drawn m m' ∨ ∃ lsp : LspState,
      (∃ location, m' = { m with lsp }.openLspLocation location) ∨
      (∃ edit, { m with lsp }.applyWorkspaceEdit h edit = some m') ∨
      ∃ edits, { m with lsp }.applyTextEdits h edits = some m' := by
  have htake : ∀ {s : LspSessionState} {kind : LspCall} {id : LspRequestId} {m₁ : Model},
      m.takeCall s kind id = some m₁ → ∃ lsp, m₁ = { m with lsp } := by
    intro s kind id m₁ ht
    unfold takeCall at ht
    split_ifs at ht
    exact ⟨_, (Option.some.inj ht).symm⟩
  have hsame : ∀ {m₁ : Model}, some m₁ = some m' → Drawn m m₁ → Drawn m m' := by
    intro m₁ h₁ hb
    rw [← Option.some.inj h₁]
    exact hb
  -- an answer that only draws something
  have hdraw : ∀ {s : LspSessionState} {kind : LspCall} {id : LspRequestId} {f : Model → Model},
      (∀ m₁, Drawn m₁ (f m₁)) → some (((m.takeCall s kind id).map f).getD m) = some m' →
        Drawn m m' := by
    intro s kind id f hf hm
    rw [← Option.some.inj hm]
    cases ht : m.takeCall s kind id with
    | none => exact ⟨⟨rfl, rfl⟩, _, _, _, _, rfl⟩
    | some m₁ =>
      obtain ⟨lsp, rfl⟩ := htake ht
      exact hf _
  have hoffer : ∀ (nothing : Bool) (message : String) (o : Overlay) (m₁ : Model),
      Drawn m₁ (m₁.offer nothing message o) := by
    intro nothing message o m₁
    unfold offer
    split_ifs <;> exact ⟨⟨rfl, rfl⟩, _, _, _, _, rfl⟩
  unfold onLspEvent at he
  split at he
  · exact .inl (hsame he ⟨⟨rfl, rfl⟩, _, _, _, _, rfl⟩)
  · rename_i s hs
    dsimp only at he
    cases event with
    | started | ready | indexing | unavailable | exited =>
      exact .inl (hsame he ⟨⟨rfl, rfl⟩, _, _, _, _, rfl⟩)
    | diagnostics path version items =>
      dsimp only at he
      split_ifs at he
      · exact .inl (hsame he ⟨⟨rfl, rfl⟩, _, _, _, _, rfl⟩)
      · refine .inl ?_
        rw [← Option.some.inj he]
        unfold syncLspDiagnostics
        split
        · exact ⟨⟨rfl, rfl⟩, _, _, _, _, rfl⟩
        · rename_i i b hl
          have hb : m.buffers[i]? = some b := (located_some hl).1
          refine ⟨⟨?_, sheets_set hb rfl (hunks_diagnostics b.decorations _ _ fun _ => rfl)⟩,
            _, _, _, _, rfl⟩
          simp only [bare, setBuffer]
          congr 1
          exact map_bare_set hb rfl
    | definition id locations =>
      dsimp only at he
      cases ht : m.takeCall s .definition id with
      | none =>
        rw [ht] at he
        exact .inl (hsame he ⟨⟨rfl, rfl⟩, _, _, _, _, rfl⟩)
      | some m₁ =>
        rw [ht] at he
        obtain ⟨lsp, rfl⟩ := htake ht
        cases locations with
        | nil => exact .inl (hsame he ⟨⟨rfl, rfl⟩, _, _, _, _, rfl⟩)
        | cons location _ => exact .inr ⟨lsp, .inl ⟨location, (Option.some.inj he).symm⟩⟩
    | hover => exact .inl (hdraw (fun _ => hoffer ..) he)
    | completion => exact .inl (hdraw (fun _ => hoffer ..) he)
    | references => exact .inl (hdraw (fun _ => hoffer ..) he)
    | codeActions => exact .inl (hdraw (fun _ => hoffer ..) he)
    | documentSymbols =>
      refine .inl (hdraw (fun m₁ => ?_) he)
      split
      · exact ⟨⟨rfl, rfl⟩, _, _, _, _, rfl⟩
      · exact hoffer ..
    | workspaceSymbols =>
      refine .inl (hdraw (fun m₁ => ?_) he)
      split <;> exact ⟨⟨rfl, rfl⟩, _, _, _, _, rfl⟩
    | rename id edit =>
      dsimp only at he
      split at he
      · exact .inl (hsame he ⟨⟨rfl, rfl⟩, _, _, _, _, rfl⟩)
      · rename_i m₁ ht
        obtain ⟨lsp, rfl⟩ := htake ht
        exact .inr ⟨lsp, .inr (.inl ⟨edit, he⟩)⟩
    | formatting id edits =>
      dsimp only at he
      split at he
      · exact .inl (hsame he ⟨⟨rfl, rfl⟩, _, _, _, _, rfl⟩)
      · rename_i m₁ ht
        obtain ⟨lsp, rfl⟩ := htake ht
        exact .inr ⟨lsp, .inr (.inr ⟨edits, he⟩)⟩
    | failed id failure =>
      dsimp only at he
      split_ifs at he <;> exact .inl (hsame he ⟨⟨rfl, rfl⟩, _, _, _, _, rfl⟩)

theorem onLspEvent_cases {h : Host} {server : LspServerId} {event : LspEvent}
    (he : m.onLspEvent h server event = some m') :
    Redrawn m m' ∨ ∃ lsp : LspState,
      (∃ location, m' = { m with lsp }.openLspLocation location) ∨
      (∃ edit, { m with lsp }.applyWorkspaceEdit h edit = some m') ∨
      ∃ edits, { m with lsp }.applyTextEdits h edits = some m' :=
  (onLspEvent_drawn he).imp_left And.left

theorem onLspEvent_worked (hP : ∀ d s, Stays d s → P d s) {h : Host} {server : LspServerId}
    {event : LspEvent} (he : m.onLspEvent h server event = some m') : Worked True P m m' := by
  rcases onLspEvent_cases he with hb | ⟨lsp, ⟨location, rfl⟩ | ⟨edit, he⟩ | ⟨edits, he⟩⟩
  · exact .of_bare hb.1
  · exact openLspLocation_worked hP { m with lsp } location
  · exact applyWorkspaceEdit_worked (m := { m with lsp }) he
  · exact applyTextEdits_worked (m := { m with lsp }) he

/-! ## Proposals and the agent -/

theorem decidePermission_worked {h : Host} {decision : PermissionDecision}
    (hd : m.decidePermission h decision = some m') : Worked T P m m' := by
  rcases decidePermission_cases hd with rfl | ⟨agent, m₁, -, hdesk, hm₁⟩
  · exact .of_buffers rfl rfl
  · refine Worked.trans ?_ (.of_desk hdesk)
    rcases hm₁ with rfl | ⟨reviewed, hs⟩
    · exact .of_buffers rfl rfl
    · have hm := syncProposals_worked (T := T) (P := P) hs
      exact hm

theorem decidePermission_documents {h : Host} {decision : PermissionDecision}
    (hd : m.decidePermission h decision = some m') : m'.documents = m.documents :=
  (decidePermission_worked hd).documents

theorem resolveProposal_worked {h : Host} {accept : Bool} (hr : m.resolveProposal h accept = some m') :
    Worked True P m m' := by
  unfold resolveProposal at hr
  by_cases hg : m.gatedFirst = true
  · rw [if_pos hg] at hr
    obtain ⟨m₁, h₁, rfl⟩ := Option.map_eq_some_iff.mp hr
    have hm := decidePermission_worked (T := True) (P := P) h₁
    exact hm
  · rw [if_neg hg] at hr
    split at hr
    · rw [← Option.some.inj hr]
      exact .of_buffers rfl rfl
    · rename_i agent ha
      split at hr
      · rw [← Option.some.inj hr]
        exact .of_buffers rfl rfl
      · rename_i p rest hps
        obtain ⟨⟨m₁, n⟩, h₁, rfl⟩ := Option.map_eq_some_iff.mp hr
        have hm : Worked True P m m₁ := by
          split_ifs at h₁
          · unfold applyReview at h₁
            split at h₁
            · rw [← (Prod.mk.inj (Option.some.inj h₁)).1]
              exact .of_buffers rfl rfl
            · split_ifs at h₁
              · rw [← (Prod.mk.inj (Option.some.inj h₁)).1]
                exact .of_buffers rfl rfl
              · obtain ⟨c, -, h₁⟩ := Option.bind_eq_some_iff.mp h₁
                obtain ⟨⟨m₂, r⟩, ht, hx⟩ := Option.map_eq_some_iff.mp h₁
                have hm := transact_worked (P := P) ht
                dsimp only at hx
                split at hx
                · rw [← (Prod.mk.inj hx).1]
                  exact hm
                · rw [← (Prod.mk.inj hx).1]
                  exact hm
          · rw [← (Prod.mk.inj (Option.some.inj h₁)).1]
            exact .of_buffers rfl rfl
        refine hm.trans (.of_docs ?_ (.of_eq rfl))
        show (m₁.buffers.map _).map Buffer.bare = _
        rw [List.map_map]
        rfl

theorem receiveProposal_worked {h : Host} {id : ProposalId} {path : Path} {oldText : Option Text}
    {newText : Text} (hr : m.receiveProposal h id path oldText newText = some m') :
    Worked T P m m' := by
  unfold receiveProposal at hr
  split_ifs at hr
  · exact Option.some.inj hr ▸ .of_buffers rfl rfl
  · split at hr
    · exact Option.some.inj hr ▸ .of_buffers rfl rfl
    · obtain ⟨p, -, hr⟩ := Option.bind_eq_some_iff.mp hr
      exact syncProposals_worked (m := m.modifyAgent _) hr

theorem receivePermission_worked {h : Host} {session : SessionId} {request : PermissionRequestId}
    {summary : String} {command : List String} {spec : Option TerminalSpec}
    {edit : Option ProposedEditDiff}
    (hr : m.receivePermission h session request summary command spec edit = some m') :
    Worked T P m m' := by
  unfold receivePermission at hr
  split_ifs at hr
  · obtain ⟨⟨m₁, review, summary'⟩, h₁, rfl⟩ := Option.map_eq_some_iff.mp hr
    have hm₁ : Worked T P m m₁ := by
      cases edit with
      | none => exact (Prod.mk.inj (Option.some.inj h₁)).1 ▸ .of_buffers rfl rfl
      | some edit =>
        dsimp only at h₁
        unfold reviewForPermission at h₁
        dsimp only at h₁
        split at h₁
        · exact (Prod.mk.inj (Option.some.inj h₁)).1 ▸ .of_buffers rfl rfl
        · split at h₁
          · exact (Prod.mk.inj (Option.some.inj h₁)).1 ▸ .of_buffers rfl rfl
          · exact (Prod.mk.inj (Option.some.inj h₁)).1 ▸ .of_buffers rfl rfl
          · obtain ⟨p, -, h₁⟩ := Option.bind_eq_some_iff.mp h₁
            obtain ⟨m₂, h₂, hx⟩ := Option.map_eq_some_iff.mp h₁
            rw [← (Prod.mk.inj hx).1]
            exact syncProposals_worked (m := m.modifyAgent _) h₂
    exact hm₁
  · exact Option.some.inj hr ▸ .of_buffers rfl rfl

theorem serveRead_still (m : Model) (session : SessionId) (request : ReadRequestId)
    (path : Path) : Still m (m.serveRead session request path) := by
  unfold serveRead
  split
  · exact ⟨rfl, rfl, rfl⟩
  · split_ifs <;> exact ⟨rfl, rfl, rfl⟩

theorem startSession_buffers (h : Host) (m : Model) (session : SessionId) :
    ((m.startSession h session).buffers = m.buffers ∧ (m.startSession h session).find = m.find) ∧
      (m.startSession h session).proposals = [] := by
  let Same (m' : Model) : Prop := m'.buffers = m.buffers ∧ m'.find = m.find
  refine startSession_spec (P := Same) (R := Same) (Q := fun m' => Same m' ∧ m'.proposals = [])
    h session ⟨rfl, rfl⟩ ⟨rfl, rfl⟩ (fun _ h₁ _ => h₁) (fun m₁ previous h₁ _ => ?_)
    (fun _ h₂ => ⟨h₂, rfl⟩) fun m₂ text h₂ => ?_
  · have hdesk := cancelAgentTerminals_desk m₁ previous.id "agent session replaced"
    exact ⟨(buffers_of_desk hdesk).trans h₁.1, (find_of_desk hdesk).trans h₁.2⟩
  · have hdesk := sendPrompt_desk h
      { m₂ with agent := some { id := session }, pendingPrompt := none } session text
    exact ⟨⟨(buffers_of_desk hdesk).trans h₂.1, (find_of_desk hdesk).trans h₂.2⟩,
      proposals_of_desk hdesk⟩

/-! ## Files -/

theorem textAt_finishRestoredRead (m : Model) (buffer : BufferId) (path : Path) :
    (m.finishRestoredRead buffer).textAt path = m.textAt path := by
  unfold finishRestoredRead
  split
  · rfl
  · rename_i restore hr
    rw [textAt, bufferAt, textAt, bufferAt]
    exact congrArg (Option.map Buffer.text) (find?_insertionSort
      (k := restoreKey restore.order { id := ⟨0⟩, path := some path, text := [] })
      (fun b hb => by
        have hb : b.path = some path := by simpa using hb
        rw [restoreKey, restoreKey, hb]) m.buffers)

theorem finishRestoredRead_agent (m : Model) (buffer : BufferId) :
    (m.finishRestoredRead buffer).agent = m.agent := by
  unfold finishRestoredRead
  split <;> rfl

/-! ## What keeps still -/

theorem saveActiveBuffer_still (m : Model) : Still m m.saveActiveBuffer := by
  unfold saveActiveBuffer
  split
  · exact ⟨rfl, rfl, rfl⟩
  · split
    · exact ⟨rfl, rfl, rfl⟩
    · split_ifs <;> exact ⟨rfl, rfl, rfl⟩

theorem queueConfigReload_still (m : Model) (kind : ConfigReloadKind) (path : Path) :
    Still m (m.queueConfigReload kind path) := ⟨rfl, rfl, rfl⟩

theorem reloadConfig_still (h : Host) (m : Model) : Still m (m.reloadConfig h) := by
  unfold reloadConfig
  split
  · split
    · exact (queueConfigReload_still m _ _).trans (queueConfigReload_still _ _ _)
    · exact queueConfigReload_still m _ _
  · split
    · exact queueConfigReload_still m _ _
    · exact ⟨rfl, rfl, rfl⟩

theorem confirmFile_still (m : Model) (prompt : Prompt) (name : String) :
    Still m (m.confirmFile prompt name) := by
  unfold confirmFile
  split_ifs
  · exact ⟨rfl, rfl, rfl⟩
  · exact ⟨rfl, rfl, rfl⟩
  · split
    · exact ⟨rfl, rfl, rfl⟩
    · exact ⟨rfl, rfl, rfl⟩
    · split <;> exact ⟨rfl, rfl, rfl⟩
    · exact ⟨rfl, rfl, rfl⟩
    · exact ⟨rfl, rfl, rfl⟩

theorem requestLspRename_still (m : Model) (name : String) : Still m (m.requestLspRename name) := by
  unfold requestLspRename
  split <;> exact ⟨rfl, rfl, rfl⟩

theorem discardRecoveryDrafts_still (h : Host) (m : Model) : Still m (m.discardRecoveryDrafts h) := by
  unfold discardRecoveryDrafts
  split
  · dsimp only
    split
    · exact ⟨rfl, rfl, rfl⟩
    · refine Still.trans ?_ (still_foldl (fun m d => ?_) _ _)
      · exact ⟨rfl, rfl, rfl⟩
      · exact ⟨rfl, rfl, rfl⟩
  · exact ⟨rfl, rfl, rfl⟩

theorem queueDueDrafts_still (h : Host) (m : Model) : Still m (m.queueDueDrafts h) := by
  unfold queueDueDrafts
  split
  · exact ⟨rfl, rfl, rfl⟩
  · split_ifs
    · exact ⟨rfl, rfl, rfl⟩
    · dsimp only
      split
      · exact ⟨rfl, rfl, rfl⟩
      · split_ifs
        · exact ⟨rfl, rfl, rfl⟩
        · refine Still.trans ?_ (still_foldl (fun m b => ?_) _ _)
          · exact ⟨rfl, rfl, rfl⟩
          · split
            · exact still_appendNotification ..
            · exact ⟨rfl, rfl, rfl⟩

theorem openRestored_still (m : Model) (paths : List Path) : Still m (m.openRestored paths).1 := by
  induction paths generalizing m with
  | nil => exact ⟨rfl, rfl, rfl⟩
  | cons path rest ih => exact (openFile_still m path).trans (ih _)

theorem createTerminal_still (m : Model) (spec : TerminalSpec) (owner : TerminalOwner) :
    Still m (m.createTerminal spec owner) := by
  refine ⟨buffers_of_desk (createTerminal_desk ..), ?_⟩
  unfold createTerminal createTerminalWithLimit
  dsimp only
  split
  · split_ifs <;> exact ⟨rfl, rfl⟩
  · exact ⟨rfl, rfl⟩

theorem reopen_still (h : Host) (m : Model) (w : RestoredWorkspace) : Still m (m.reopen h w) := by
  have hread := openRestored_still m w.openPaths
  have hterm : ∀ m₁ : Model, Still m m₁ → Still m (w.terminals.foldl (fun m cwd =>
      m.createTerminal (h.shell cwd) .humanShell) m₁) := fun m₁ hm =>
    hm.trans (still_foldl (fun m cwd => createTerminal_still m _ _) _ _)
  unfold reopen
  dsimp only
  split_ifs
  · exact hterm _ hread
  · exact hterm _ (hread.trans ⟨rfl, rfl, rfl⟩)

theorem restoreSession_still (h : Host) (m : Model) (w : RestoredWorkspace) :
    Still m (m.restoreSession h w) := by
  have hopen : Still m (m.openWorkspace w.root w.configured) := ⟨rfl, rfl, rfl⟩
  exact hopen.trans (reopen_still h _ w)

theorem notifyLspWatchedFiles_still (m : Model) (paths : List Path) :
    Still m (m.notifyLspWatchedFiles paths) := by
  unfold notifyLspWatchedFiles
  split
  · exact ⟨rfl, rfl, rfl⟩
  · dsimp only
    split_ifs <;> exact ⟨rfl, rfl, rfl⟩

theorem reloadChanged_still (m : Model) (path : Path) : Still m (m.reloadChanged path) := by
  unfold reloadChanged
  split
  · exact ⟨rfl, rfl, rfl⟩
  · split_ifs <;> exact ⟨rfl, rfl, rfl⟩

theorem reloadChangedBuffers_still (m : Model) (paths : List Path) :
    Still m (m.reloadChangedBuffers paths) := still_foldl reloadChanged_still paths m

theorem applyConfig_still (h : Host) (m : Model) (kind : ConfigReloadKind) (c : Option Text) :
    Still m (m.applyConfig h kind c) := by
  unfold applyConfig
  split <;> exact ⟨rfl, rfl, rfl⟩

theorem abandonPendingWorkspaceEdit_still (m : Model) (s : String) :
    Still m (m.abandonPendingWorkspaceEdit s) := by
  unfold abandonPendingWorkspaceEdit restoreActiveBuffer
  split
  · dsimp only
    split <;> exact ⟨rfl, rfl, rfl⟩
  · exact ⟨rfl, rfl, rfl⟩

/-- A file that could not be opened: the tabs of a restored session may be put in order. -/
theorem refuseLoaded_spec (m : Model) (buffer : BufferId) (path : Path) (restored : Bool) :
    Still m (m.refuseLoaded buffer path restored) ∨
      Still (m.finishRestoredRead buffer) (m.refuseLoaded buffer path restored) := by
  unfold refuseLoaded
  dsimp only
  split_ifs
  · exact .inr (still_appendNotification ..)
  · exact .inl (abandonPendingWorkspaceEdit_still ..)
  · exact .inl ⟨rfl, rfl, rfl⟩

theorem fileFailed_spec (h : Host) (m : Model) (buffer : BufferId) (error : FsError) :
    Still m (m.fileFailed h buffer error) ∨
      ∃ opening, Still ({ m with opening }.finishRestoredRead buffer)
        (m.fileFailed h buffer error) := by
  unfold fileFailed
  split
  · exact .inl (Still.trans ⟨rfl, rfl, rfl⟩ (still_appendNotification ..))
  · split
    · exact .inl (Still.trans ⟨rfl, rfl, rfl⟩ (applyConfig_still ..))
    · split
      · exact .inl ⟨rfl, rfl, rfl⟩
      · dsimp only
        split_ifs
        · exact .inr ⟨_, still_appendNotification ..⟩
        · exact .inl (Still.trans ⟨rfl, rfl, rfl⟩ (abandonPendingWorkspaceEdit_still ..))
        · exact .inl ⟨rfl, rfl, rfl⟩

/-- What a saved file changes: the revision on disk of one buffer, if it is not a draft. -/
theorem fileSaved_spec (h : Host) (m : Model) (buffer : BufferId) (version : Version) :
    (m.fileSaved h buffer version).agent = m.agent ∧
      (m.fileSaved h buffer version).find = m.find ∧
      ((m.fileSaved h buffer version).buffers = m.buffers ∨
        ∃ i b, m.buffers.findIdx? (·.id = buffer) = some i ∧ m.buffers[i]? = some b ∧
          (m.fileSaved h buffer version).buffers = m.buffers.set i (b.markSaved version)) := by
  unfold fileSaved
  split
  · exact ⟨rfl, rfl, .inl rfl⟩
  · split
    · exact ⟨rfl, rfl, .inl rfl⟩
    · rename_i i b hf
      obtain ⟨j, hj, hf⟩ := Option.bind_eq_some_iff.mp hf
      obtain ⟨b', hb, hx⟩ := Option.map_eq_some_iff.mp hf
      obtain ⟨rfl, rfl⟩ := Prod.mk.inj hx
      have hset : ∀ m' : Model, m'.agent = m.agent → m'.find = m.find →
          m'.buffers = m.buffers.set j (b'.markSaved version) → m'.agent = m.agent ∧
            m'.find = m.find ∧ (m'.buffers = m.buffers ∨
              ∃ i b, m.buffers.findIdx? (·.id = buffer) = some i ∧ m.buffers[i]? = some b ∧
                m'.buffers = m.buffers.set i (b.markSaved version)) :=
        fun m' ha hf hs => ⟨ha, hf, .inr ⟨j, b', hj, hb, hs⟩⟩
      dsimp only
      split
      · exact hset _ rfl rfl rfl
      · split
        · split_ifs <;> exact hset _ rfl rfl rfl
        · exact hset _ rfl rfl rfl

end App.Model

end Termesh
