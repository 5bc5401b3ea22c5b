import Termesh.App.Input

/-!
# What the editing functions leave alone

`outline` is a model without the contents of its documents: what is left when the buffers, the find
and the hunks of proposals are forgotten with everything `bare` forgets. Editing, searching, moving
the cursor, syncing and applying server edits keep the outline. `shell` forgets the tab on screen and
the workspace edit that waits, too.

* `outline`, `shell`, `outline_of_bare`, `shell_of_outline`;
* `transact_outline`, `syncAll_outline`, `replaceAll_outline`, `applyDrafts_outline`;
* `applyTextEdits_outline`, `finishPendingWorkspaceEdit_shell`.
-/

namespace Termesh

namespace App

/-- A proposal without its hunks, which are derived. -/
def unhunked (p : EditProposal) : EditProposal := { p with hunks := [] }

namespace Model

/-- The model without its documents. -/
def shell (m : Model) : Model :=
  { m.bare with
    buffers := [], activeBuffer := none, find := none, pendingWorkspaceEdit := none
    pendingOpenLocation := none
    agent := m.agent.map fun a => { a with proposals := a.proposals.map unhunked } }

/-- The model without the contents of its documents. -/
def outline (m : Model) : Model :=
  { m.bare with
    buffers := [], find := none
    agent := m.agent.map fun a => { a with proposals := a.proposals.map unhunked } }

theorem outline_of_bare {m m' : Model} (h : m'.bare = m.bare) : m'.outline = m.outline := by
  have ha : m'.bare.agent = m.bare.agent := by rw [h]
  rw [outline, outline, h, show m'.agent = m.agent from ha]

theorem shell_of_outline {m m' : Model} (h : m'.outline = m.outline) : m'.shell = m.shell := by
  have key : ∀ m : Model, m.shell = { m.outline with
      activeBuffer := none, pendingWorkspaceEdit := none, pendingOpenLocation := none } :=
    fun _ => rfl
  rw [key, key, h]

theorem shell_of_bare {m m' : Model} (h : m'.bare = m.bare) : m'.shell = m.shell :=
  shell_of_outline (outline_of_bare h)

@[simp] theorem outline_notify (m : Model) (s : String) : (m.notify s).outline = m.outline := rfl

@[simp] theorem outline_pushOverlay (m : Model) (o : Overlay) :
    (m.pushOverlay o).outline = m.outline := rfl

@[simp] theorem outline_setBuffer (m : Model) (i : ℕ) (b : Buffer) :
    (m.setBuffer i b).outline = m.outline := rfl

@[simp] theorem outline_appendNotification (m : Model) (s : String) :
    (m.appendNotification s).outline = m.outline := by
  unfold appendNotification
  split
  · split_ifs <;> rfl
  · rfl

@[simp] theorem shell_restoreActiveBuffer (m : Model) (b : Option BufferId) :
    (m.restoreActiveBuffer b).shell = m.shell := by
  unfold restoreActiveBuffer
  split <;> rfl

theorem transact_outline {m m' : Model} {i : ℕ} {c : ChangeSet} {s : EditSource}
    {r : Except EditError Unit} (h : m.transact i c s = some (m', r)) : m'.outline = m.outline := by
  obtain ⟨b, -, h⟩ := Option.bind_eq_some_iff.mp h
  obtain ⟨x, -, hx⟩ := Option.map_eq_some_iff.mp h
  rw [← (Prod.mk.inj hx).1]
  rfl

/-! ## Syncing -/

theorem refreshed_unhunked {d : LineDiff} {bs : List Buffer} {p p' : EditProposal}
    (h : Refreshed d bs p p') : unhunked p' = unhunked p := by
  unfold Refreshed at h
  cases hf : bs.find? fun b => b.path = some p.path with
  | none => rw [hf] at h; rw [h]
  | some b =>
    rw [hf] at h
    obtain ⟨hunks, -, rfl⟩ := Option.map_eq_some_iff.mp h
    rfl

theorem map_unhunked_of_forall₂ {d : LineDiff} {bs : List Buffer} {ps ps' : List EditProposal}
    (h : List.Forall₂ (Refreshed d bs) ps ps') : ps'.map unhunked = ps.map unhunked := by
  induction h with
  | nil => rfl
  | cons h _ ih => rw [List.map_cons, List.map_cons, refreshed_unhunked h, ih]

theorem syncProposals_outline {h : Host} {m m' : Model} (hs : m.syncProposals h = some m') :
    m'.outline = m.outline := by
  obtain ⟨ps, hps, hb⟩ := syncProposals_spec hs
  have ha : m'.bare.agent = m.agent.map fun a => { a with proposals := ps } := by rw [hb]
  rw [outline, outline, hb, show m'.agent = _ from ha]
  cases hm : m.agent with
  | none => rfl
  | some a =>
    have hu := map_unhunked_of_forall₂ hps
    simp only [proposals, hm, Option.map_some, Option.getD_some] at hu
    simp only [Option.map_some, hu]

theorem syncSyntax_outline {h : Host} {m m' : Model} (hs : m.syncSyntax h = some m') :
    m'.outline = m.outline := outline_of_bare (syncSyntax_bare hs)

@[simp] theorem syncLspDocuments_outline (m : Model) : m.syncLspDocuments.outline = m.outline :=
  outline_of_bare m.syncLspDocuments_bare

theorem syncAll_cases {h : Host} {m m' : Model} (hs : m.syncAll h = some m') :
    ∃ m₁ m₂, m.syncSyntax h = some m₁ ∧ m₁.syncProposals h = some m₂ ∧
      m' = m₂.syncLspDocuments := by
  obtain ⟨m₁, h₁, hs⟩ := Option.bind_eq_some_iff.mp hs
  obtain ⟨m₂, h₂, hs⟩ := Option.map_eq_some_iff.mp hs
  exact ⟨m₁, m₂, h₁, h₂, hs.symm⟩

theorem syncAll_docs {h : Host} {m m' : Model} (hs : m.syncAll h = some m') : m'.docs = m.docs := by
  obtain ⟨m₁, m₂, h₁, h₂, rfl⟩ := syncAll_cases hs
  obtain ⟨ps, -, hbare⟩ := syncProposals_spec h₂
  have hproposals : m₂.docs = m₁.docs := congrArg Model.buffers hbare
  rw [docs_of_bare (syncLspDocuments_bare m₂), hproposals, docs_of_bare (syncSyntax_bare h₁)]

theorem syncAll_outline {h : Host} {m m' : Model} (hs : m.syncAll h = some m') :
    m'.outline = m.outline := by
  obtain ⟨m₁, m₂, h₁, h₂, rfl⟩ := syncAll_cases hs
  rw [syncLspDocuments_outline, syncProposals_outline h₂, syncSyntax_outline h₁]

/-! ## The buffer on screen -/

theorem editActive_outline {m m' : Model} {f : Buffer → Option (Buffer × Except EditError Unit)}
    (h : m.editActive f = some m') : m'.outline = m.outline := by
  unfold editActive at h
  split at h
  · rw [← Option.some.inj h]
  · obtain ⟨x, -, hx⟩ := Option.map_eq_some_iff.mp h
    rw [← hx]
    dsimp only
    split <;> rfl

theorem withBuffer_outline (m : Model) (f : Buffer → Buffer) : (m.withBuffer f).outline = m.outline := by
  unfold withBuffer
  split <;> rfl

theorem replayActive_outline {m m' : Model} {f : Buffer → Option (Buffer × Bool)} {s : String}
    (h : m.replayActive f s = some m') : m'.outline = m.outline := by
  obtain ⟨x, hx, rfl⟩ := Option.map_eq_some_iff.mp h
  have hs : x.1.outline = m.outline := by
    unfold withBufferBool at hx
    split at hx
    · rw [← Option.some.inj hx]
    · obtain ⟨y, -, hy⟩ := Option.map_eq_some_iff.mp hx
      rw [← hy]
      rfl
  dsimp only
  split_ifs
  · exact hs
  · exact hs

theorem focusMatch_outline {m m' : Model} (h : m.focusMatch = some m') : m'.outline = m.outline := by
  unfold focusMatch at h
  split at h
  · dsimp only at h
    split at h
    · rw [← Option.some.inj h]
      rfl
    · obtain ⟨t, -, ht⟩ := Option.map_eq_some_iff.mp h
      rw [← ht]
      rfl
  · rw [← Option.some.inj h]

theorem runFind_outline {h : Host} {m m' : Model} {q : Text} (hr : m.runFind h q = some m') :
    m'.outline = m.outline := by
  unfold runFind at hr
  split at hr
  · rw [← Option.some.inj hr]
  · exact (focusMatch_outline hr).trans rfl

theorem stepMatch_outline {m m' : Model} {forward : Bool} (hr : m.stepMatch forward = some m') :
    m'.outline = m.outline := by
  unfold stepMatch at hr
  split at hr
  · rw [← Option.some.inj hr]
    rfl
  · split_ifs at hr
    · rw [← Option.some.inj hr]
      rfl
    · obtain ⟨current, -, hr⟩ := Option.bind_eq_some_iff.mp hr
      exact (focusMatch_outline hr).trans rfl

theorem replaceAll_outline {h : Host} {m m' : Model} {r : Text} (hr : m.replaceAll h r = some m') :
    m'.outline = m.outline := by
  unfold replaceAll at hr
  split at hr
  · rw [← Option.some.inj hr]
  · split_ifs at hr
    · rw [← Option.some.inj hr]
      rfl
    · split at hr
      · rw [← Option.some.inj hr]
      · obtain ⟨c, -, hr⟩ := Option.bind_eq_some_iff.mp hr
        obtain ⟨x, hx, hr⟩ := Option.bind_eq_some_iff.mp hr
        have hs := transact_outline hx
        dsimp only at hr
        split at hr
        · rw [← Option.some.inj hr]
          exact hs
        · rw [syncProposals_outline hr]
          exact hs

theorem clearFind_outline (m : Model) : m.clearFind.outline = m.outline := by
  unfold clearFind
  dsimp only
  split <;> rfl

/-! ## Tabs and drafts -/

theorem cycleTab_shell (m : Model) (step : Int) : (m.cycleTab step).shell = m.shell := by
  unfold cycleTab
  split_ifs
  · rfl
  · split <;> rfl

theorem discardBuffer_shell (m : Model) (id : BufferId) : (m.discardBuffer id).shell = m.shell := by
  unfold discardBuffer
  split <;> rfl

theorem closeTab_shell (m : Model) : m.closeTab.shell = m.shell := by
  unfold closeTab
  split
  · rfl
  · split_ifs
    · rfl
    · exact discardBuffer_shell m _

theorem applyDraft_outline {m m' : Model} {d : Draft} (h : m.applyDraft d = some m') :
    m'.outline = m.outline := by
  unfold applyDraft at h
  split at h
  · rw [← Option.some.inj h, outline_appendNotification]
  · obtain ⟨c, -, h⟩ := Option.bind_eq_some_iff.mp h
    obtain ⟨x, hx, hm⟩ := Option.map_eq_some_iff.mp h
    rw [← hm]
    dsimp only
    split
    · exact transact_outline hx
    · rw [outline_appendNotification]
      exact transact_outline hx

theorem applyDrafts_outline {m m' : Model} {ds : List Draft} (h : m.applyDrafts ds = some m') :
    m'.outline = m.outline := by
  induction ds generalizing m with
  | nil => cases h; rfl
  | cons d ds ih =>
    obtain ⟨m₁, h₁, h⟩ := Option.bind_eq_some_iff.mp h
    rw [ih h, applyDraft_outline h₁]

theorem applyRecoveryDrafts_outline {m m' : Model} {s : Bool} (h : m.applyRecoveryDrafts s = some m') :
    m'.outline = m.outline := by
  unfold applyRecoveryDrafts at h
  split at h
  · exact (applyDrafts_outline h).trans rfl
  · rw [← Option.some.inj h]
    rfl

/-! ## Server edits -/

theorem applyTextEdits_outline {h : Host} {m m' : Model} {es : List TextEdit}
    (ha : m.applyTextEdits h es = some m') : m'.outline = m.outline := by
  unfold applyTextEdits at ha
  split at ha
  · rw [← Option.some.inj ha]
  · split_ifs at ha
    · rw [← Option.some.inj ha]
      rfl
    · split at ha
      · rw [← Option.some.inj ha]
        rfl
      · obtain ⟨c, -, ha⟩ := Option.bind_eq_some_iff.mp ha
        cases c with
        | error e => rw [← Option.some.inj ha]; rfl
        | ok c =>
          obtain ⟨x, hx, ha⟩ := Option.bind_eq_some_iff.mp ha
          have hs := transact_outline hx
          dsimp only at ha
          split at ha
          · rw [← Option.some.inj ha]
            exact hs
          · rw [syncAll_outline ha]
            exact hs

theorem acceptCompletion_outline {h : Host} {m m' : Model} {item : CompletionItem}
    (ha : m.acceptCompletion h item = some m') : m'.outline = m.outline := by
  unfold acceptCompletion at ha
  split at ha
  · exact applyTextEdits_outline ha
  · split at ha
    · rw [← Option.some.inj ha]
    · split at ha
      · rw [← Option.some.inj ha]
      · exact applyTextEdits_outline ha

theorem applyPrepared_outline {m m' : Model} {cs : List (ℕ × ChangeSet)} {r : Except EditError Unit}
    (h : m.applyPrepared cs = some (m', r)) : m'.outline = m.outline := by
  induction cs generalizing m with
  | nil => cases h; rfl
  | cons c cs ih =>
    obtain ⟨x, hx, h⟩ := Option.bind_eq_some_iff.mp h
    have hs := transact_outline hx
    dsimp only at h
    split at h
    · rw [← (Prod.mk.inj (Option.some.inj h)).1]
      exact hs
    · rw [ih h]
      exact hs

/-- What became of a pending workspace edit: it still waits, or it is gone and its changes were tried
before the tab was put back, if it was. -/
theorem finishPendingWorkspaceEdit_cases {h : Host} {m m' : Model}
    (hf : m.finishPendingWorkspaceEdit h = some m') :
    (m' = m ∧ ∀ p, m.pendingWorkspaceEdit = some p → p.waiting ≠ []) ∨
      ∃ changes m₁ r, { m with pendingWorkspaceEdit := none }.applyPrepared changes = some (m₁, r) ∧
        (m'.outline = m₁.outline ∨ ∃ b, m'.outline = (m₁.restoreActiveBuffer b).outline) := by
  unfold finishPendingWorkspaceEdit at hf
  split at hf
  · rename_i hnone
    exact .inl ⟨(Option.some.inj hf).symm, by simp [hnone]⟩
  · rename_i pending hpending
    split_ifs at hf with hwaiting
    · refine .inl ⟨(Option.some.inj hf).symm, fun p hp => ?_⟩
      rw [← Option.some.inj (hpending.symm.trans hp)]
      exact hwaiting
    · refine .inr ?_
      obtain ⟨p, -, hf⟩ := Option.bind_eq_some_iff.mp hf
      cases p with
      | error e =>
        refine ⟨[], _, .ok (), rfl, .inr ⟨pending.previousActive, ?_⟩⟩
        rw [← Option.some.inj hf, outline_notify]
      | ok changes =>
        obtain ⟨⟨m₁, r⟩, hx, hf⟩ := Option.bind_eq_some_iff.mp hf
        refine ⟨changes, m₁, r, hx, ?_⟩
        dsimp only at hf
        split at hf
        · rw [← Option.some.inj hf]
          exact .inl (outline_notify ..)
        · obtain ⟨m₂, h₂, rfl⟩ := Option.map_eq_some_iff.mp hf
          exact .inr ⟨pending.previousActive, (outline_notify ..).trans (syncAll_outline h₂)⟩

theorem finish_waiting {h : Host} {m m' : Model}
    (hw : ∀ p, m.pendingWorkspaceEdit = some p → p.waiting ≠ [])
    (hf : m.finishPendingWorkspaceEdit h = some m') : m' = m := by
  unfold finishPendingWorkspaceEdit at hf
  split at hf
  · exact (Option.some.inj hf).symm
  · rename_i p hp
    rw [if_pos (hw p hp)] at hf
    exact (Option.some.inj hf).symm

theorem finishPendingWorkspaceEdit_shell {h : Host} {m m' : Model}
    (hf : m.finishPendingWorkspaceEdit h = some m') : m'.shell = m.shell := by
  rcases finishPendingWorkspaceEdit_cases hf with ⟨rfl, -⟩ | ⟨changes, m₁, r, hx, hactive⟩
  · rfl
  · have hm₁ : m₁.shell = m.shell :=
      (shell_of_outline (applyPrepared_outline hx)).trans rfl
    rcases hactive with hsame | ⟨b, hback⟩
    · exact (shell_of_outline hsame).trans hm₁
    · exact (shell_of_outline hback).trans ((shell_restoreActiveBuffer m₁ b).trans hm₁)

theorem positionOpenBuffer_shell (m : Model) (path : Path) (line column : ℕ) :
    (m.positionOpenBuffer path line column).1.shell = m.shell := by
  unfold positionOpenBuffer
  split <;> rfl

end Model

end App

end Termesh
