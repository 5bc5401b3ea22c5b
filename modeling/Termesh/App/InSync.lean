import Termesh.App.Moves
import Termesh.Agent.Rebase

/-!
# Proposals and the text under review

Accepting a proposal uses the hunks cached in it. They are right as long as every step that changes
the text of a buffer refreshes them.

* `InSync`: every live proposal over an open file has the hunks a refresh would give;
* **`syncProposals_inSync`**: a refresh brings proposals in sync, whatever they were before;
* `Careful`: the steps that change a text under review without a refresh are left out;
* **`step_inSync`**: careful steps keep proposals in sync.
-/

namespace Termesh

/-! ## Building changes -/

theorem ChangeSetBuilder.lenBefore_of_build {b : ChangeSetBuilder} {cs : ChangeSet}
    (h : b.build = some cs) : cs.lenBefore = b.lenBefore := by
  by_cases hc : b.consumed ≤ b.lenBefore
  · obtain ⟨cs', h', hl, -⟩ := build_some hc
    rw [← hl, Option.some.inj (h.symm.trans h')]
  · rw [build_none hc] at h
    cases h

theorem lenBefore_of_hunkLoop {hs : List Hunk} {pos : ℕ} {b b' : ChangeSetBuilder}
    (h : hunkLoop hs pos b = some b') : b'.lenBefore = b.lenBefore := by
  induction hs generalizing pos b with
  | nil => cases h; rfl
  | cons k hs ih =>
    rw [hunkLoop] at h
    split_ifs at h
    have := ih h
    exact this

theorem App.lenBefore_of_buildLspChanges {b : Buffer} {edits : List TextEdit} {cs : ChangeSet}
    (h : buildLspChanges b edits = some (.ok cs)) : cs.lenBefore = b.text.length := by
  unfold buildLspChanges at h
  dsimp only at h
  split_ifs at h
  · cases h
  · cases h
  · obtain ⟨cs', h', hx⟩ := Option.map_eq_some_iff.mp h
    obtain ⟨b', hb', hbuild⟩ := Option.bind_eq_some_iff.mp h'
    rw [← Except.ok.inj hx, ChangeSetBuilder.lenBefore_of_build hbuild, lenBefore_of_hunkLoop hb']
    rfl

namespace App.Model

open Document Firsts

/-- The hunks of a proposal are what a refresh over its file would give. -/
def Fresh (d : LineDiff) (m : Model) (p : EditProposal) : Prop :=
  ∀ t, m.textAt p.path = some t →
    EditProposal.hunksAgainst d p.baseText p.proposedText t = some p.hunks

/-- Every live proposal is fresh. -/
def InSync (h : Host) (m : Model) : Prop := ∀ p ∈ m.proposals, Fresh h.diff m p

variable {h : Host} {m m' : Model}

theorem InSync.frame (hi : InSync h m) (hp : ∀ p ∈ m'.proposals, p ∈ m.proposals)
    (ht : ∀ p ∈ m'.proposals, ∀ t, m'.textAt p.path = some t → m.textAt p.path = some t) :
    InSync h m' := fun p hm t htext => hi p (hp p hm) t (ht p hm t htext)

theorem proposals_of_agent (ha : m'.agent = m.agent) : m'.proposals = m.proposals := by
  rw [proposals, proposals, ha]

theorem InSync.of_pages (hi : InSync h m) (hp : m'.proposals = m.proposals)
    (ht : m'.pages = m.pages) : InSync h m' :=
  hi.frame (fun p hm => hp ▸ hm) fun p _ t htext => by rwa [← textAt_of_pages ht]

theorem InSync.of_buffers (hi : InSync h m) (hp : m'.proposals = m.proposals)
    (hb : m'.buffers = m.buffers) : InSync h m' := hi.of_pages hp (pages_of_buffers hb)

theorem InSync.of_desk (hi : InSync h m) (hd : m'.desk = m.desk) : InSync h m' :=
  hi.of_buffers (proposals_of_desk hd) (buffers_of_desk hd)

theorem InSync.of_bare (hi : InSync h m) (hb : m'.bare = m.bare) : InSync h m' :=
  hi.of_pages (proposals_of_agent (show m'.bare.agent = m.bare.agent by rw [hb]))
    (pages_of_documents (documents_of_bare hb))

theorem InSync.opening (hi : InSync h m) (opening : List (BufferId × Path)) :
    InSync h { m with opening } := hi

theorem InSync.of_nil (hp : m'.proposals = []) : InSync h m' := by
  intro p hm
  rw [hp] at hm
  cases hm

/-! ## Refreshing -/

/-- **A refresh brings proposals in sync.** -/
theorem syncProposals_inSync (hs : m.syncProposals h = some m') : InSync h m' := by
  obtain ⟨ps, hps, hb⟩ := syncProposals_spec hs
  have hpages : m'.pages = m.pages := pages_of_documents (syncProposals_documents hs)
  have hagent : m'.agent = m.agent.map fun a => { a with proposals := ps } :=
    show m'.bare.agent = _ by rw [hb]
  have hfresh : ∀ qs qs' : List EditProposal, List.Forall₂ (Refreshed h.diff m.buffers) qs qs' →
      ∀ p ∈ qs', Fresh h.diff m p := by
    intro qs qs' hq
    induction hq with
    | nil => intro p hp; cases hp
    | @cons q p _ _ hr _ ih =>
      intro p' hp
      rcases List.mem_cons.mp hp with rfl | hp
      · intro t ht
        have hpath : p'.path = q.path :=
          show (unhunked p').path = (unhunked q).path by rw [refreshed_unhunked hr]
        obtain ⟨b, hb, rfl⟩ := Option.map_eq_some_iff.mp ht
        rw [hpath] at hb
        unfold Refreshed at hr
        rw [show (m.buffers.find? fun b => b.path = some q.path) = some b from hb] at hr
        obtain ⟨hunks, hh, rfl⟩ := Option.map_eq_some_iff.mp hr
        exact hh
      · exact ih p' hp
  intro p hp t ht
  rw [textAt_of_pages hpages] at ht
  refine hfresh _ _ hps p ?_ t ht
  rw [proposals, hagent] at hp
  cases ha : m.agent with
  | none => rw [ha] at hp; cases hp
  | some a =>
    rw [ha] at hp
    exact hp

theorem syncAll_inSync (hs : m.syncAll h = some m') : InSync h m' := by
  obtain ⟨m₁, m₂, -, h₂, rfl⟩ := syncAll_cases hs
  exact (syncProposals_inSync h₂).of_bare m₂.syncLspDocuments_bare

/-! ## Editing -/

theorem applyTextEdits_inSync {edits : List TextEdit} (hi : InSync h m)
    (ha : m.applyTextEdits h edits = some m') : InSync h m' := by
  unfold applyTextEdits at ha
  split at ha
  · exact Option.some.inj ha ▸ hi
  · split_ifs at ha
    · exact Option.some.inj ha ▸ hi
    · split at ha
      · exact Option.some.inj ha ▸ hi
      · obtain ⟨c, -, ha⟩ := Option.bind_eq_some_iff.mp ha
        cases c with
        | error e => exact Option.some.inj ha ▸ hi
        | ok c =>
          obtain ⟨⟨m₁, r⟩, hx, ha⟩ := Option.bind_eq_some_iff.mp ha
          cases r with
          | error e =>
            obtain ⟨hd, hag⟩ := transact_refused hx
            have := hi.of_pages (proposals_of_agent hag) (pages_of_documents hd)
            exact Option.some.inj ha ▸ this
          | ok u => exact syncAll_inSync ha

theorem acceptCompletion_inSync {item : CompletionItem} (hi : InSync h m)
    (ha : m.acceptCompletion h item = some m') : InSync h m' := by
  unfold acceptCompletion at ha
  split at ha
  · exact applyTextEdits_inSync hi ha
  · split at ha
    · exact Option.some.inj ha ▸ hi
    · split at ha
      · exact Option.some.inj ha ▸ hi
      · exact applyTextEdits_inSync hi ha

/-- Prepared changes are each for a file of their own, of its present length. -/
theorem prepareEdits_ok {groups : List (Path × List TextEdit)} {cs : List (ℕ × ChangeSet)}
    (hp : m.prepareEdits groups = some (.ok cs)) (hnd : (groups.map Prod.fst).Nodup) :
    (cs.map Prod.fst).Nodup ∧ ∀ c ∈ cs, ∃ path ∈ groups.map Prod.fst, ∃ b,
      m.located path = some (c.1, b) ∧ c.2.lenBefore = b.text.length := by
  induction groups generalizing cs with
  | nil =>
    obtain rfl : [] = cs := Except.ok.inj (Option.some.inj hp)
    simp
  | cons g groups ih =>
    obtain ⟨path, edits⟩ := g
    obtain ⟨hnot, hnd⟩ := List.nodup_cons.mp hnd
    rw [prepareEdits] at hp
    split at hp
    · cases Option.some.inj hp
    · rename_i i b hl
      obtain ⟨c, hc, hp⟩ := Option.bind_eq_some_iff.mp hp
      cases c with
      | error e => cases Option.some.inj hp
      | ok c =>
        obtain ⟨r, hr, hp⟩ := Option.map_eq_some_iff.mp hp
        cases r with
        | error e => cases hp
        | ok cs₀ =>
          obtain rfl : (i, c) :: cs₀ = cs := Except.ok.inj hp
          obtain ⟨h1, h2⟩ := ih hr hnd
          refine ⟨List.nodup_cons.mpr ⟨?_, h1⟩, ?_⟩
          · -- another path is found at another index
            rintro hm
            obtain ⟨c', hc', he⟩ := List.mem_map.mp hm
            obtain ⟨path', hpath', b', hl', -⟩ := h2 c' hc'
            have hb := (located_some hl).1
            have hb' := (located_some hl').1
            simp only at he
            rw [he, hb] at hb'
            obtain rfl := Option.some.inj hb'
            have := (located_some hl).2.1.symm.trans (located_some hl').2.1
            obtain rfl := Option.some.inj this
            exact hnot hpath'
          · intro c' hc'
            rcases List.mem_cons.mp hc' with rfl | hc'
            · exact ⟨path, List.mem_cons_self, b, hl, lenBefore_of_buildLspChanges hc⟩
            · obtain ⟨path', hm, hrest⟩ := h2 c' hc'
              exact ⟨path', List.mem_cons_of_mem _ hm, hrest⟩

theorem applyPrepared_ok {cs : List (ℕ × ChangeSet)} (hnd : (cs.map Prod.fst).Nodup)
    (hc : ∀ c ∈ cs, ∃ b, m.buffers[c.1]? = some b ∧ c.2.lenBefore = b.text.length) :
    ∃ m', m.applyPrepared cs = some (m', .ok ()) := by
  induction cs generalizing m with
  | nil => exact ⟨m, rfl⟩
  | cons c cs ih =>
    obtain ⟨i, changes⟩ := c
    obtain ⟨hnot, hnd⟩ := List.nodup_cons.mp hnd
    obtain ⟨b, hb, hlen⟩ := hc _ List.mem_cons_self
    obtain ⟨b', ha, -⟩ := Buffer.apply_ok (b := (b.transaction changes .lsp).1)
      (t := (b.transaction changes .lsp).2) rfl hlen
    have ht : m.transact i changes .lsp = some (m.setBuffer i b', .ok ()) := by
      rw [transact, hb, Option.bind_some]
      exact congrArg (Option.map _) ha
    obtain ⟨m', hm'⟩ := @ih (m.setBuffer i b') hnd fun c hm => by
      obtain ⟨b₁, hb₁, hl₁⟩ := hc c (List.mem_cons_of_mem _ hm)
      have hne : i ≠ c.1 := fun he => hnot (List.mem_map.mpr ⟨c, hm, he.symm⟩)
      exact ⟨b₁, by rw [setBuffer, List.getElem?_set_ne hne]; exact hb₁, hl₁⟩
    exact ⟨m', by rw [applyPrepared, ht]; exact hm'⟩

theorem nodup_groupEdits (edits : List TextEdit) : ((groupEdits edits).map Prod.fst).Nodup := by
  rw [groupEdits, List.map_map]
  show ((sortPaths (edits.map (·.path))).map fun path => path).Nodup
  rw [List.map_id', sortPaths, (List.perm_insertionSort _ _).nodup_iff]
  exact List.nodup_dedup _

theorem finishPendingWorkspaceEdit_inSync (hi : InSync h m)
    (hf : m.finishPendingWorkspaceEdit h = some m') : InSync h m' := by
  unfold finishPendingWorkspaceEdit at hf
  split at hf
  · exact Option.some.inj hf ▸ hi
  · rename_i pending hpend
    split_ifs at hf
    · exact Option.some.inj hf ▸ hi
    · obtain ⟨prepared, hp, hf⟩ := Option.bind_eq_some_iff.mp hf
      cases prepared with
      | error e =>
        rw [← Option.some.inj hf]
        have hst := restoreActiveBuffer_still { m with pendingWorkspaceEdit := none } pending.previousActive
        exact hi.of_buffers (proposals_of_agent hst.2.1) hst.1
      | ok prepared =>
        obtain ⟨hnd, hc⟩ := prepareEdits_ok hp (nodup_groupEdits _)
        obtain ⟨m₁, hm₁⟩ := applyPrepared_ok hnd fun c hm => by
          obtain ⟨path, -, b, hl, hlen⟩ := hc c hm
          exact ⟨b, (located_some hl).1, hlen⟩
        dsimp only at hf
        rw [hm₁, Option.bind_some] at hf
        obtain ⟨m₂, h₂, rfl⟩ := Option.map_eq_some_iff.mp hf
        exact (syncAll_inSync h₂).of_bare rfl

theorem applyWorkspaceEdit_inSync {edit : WorkspaceEdit} (hi : InSync h m)
    (ha : m.applyWorkspaceEdit h edit = some m') : InSync h m' := by
  unfold applyWorkspaceEdit at ha
  split_ifs at ha
  · exact Option.some.inj ha ▸ hi
  · exact Option.some.inj ha ▸ hi
  · split at ha
    · exact Option.some.inj ha ▸ hi
    · dsimp only at ha
      split at ha
      · exact Option.some.inj ha ▸ hi
      · split at ha
        · exact Option.some.inj ha ▸ hi
        · refine finishPendingWorkspaceEdit_inSync ?_ ha
          obtain ⟨hb, hag, -⟩ := queueTargets_still m (sortPaths (edit.edits.map (·.path)))
          exact hi.of_buffers (proposals_of_agent hag) hb

theorem openFileAt_agent (m : Model) (path : Path) (line column : ℕ) :
    (m.openFileAt path line column).agent = m.agent := by
  have hpos : (m.positionOpenBuffer path line column).1.agent = m.agent := by
    unfold positionOpenBuffer
    split <;> rfl
  unfold openFileAt
  split
  · rename_i m₁ heq
    rw [heq] at hpos
    exact hpos
  · rename_i m₁ heq
    rw [heq] at hpos
    exact (openFile_still _ path).2.1.trans hpos

theorem openFileAt_inSync (hi : InSync h m) (path : Path) (line column : ℕ) :
    InSync h (m.openFileAt path line column) :=
  hi.of_pages (proposals_of_agent (openFileAt_agent ..))
    (openFileAt_worked (T := False) (P := fun _ _ => True) (fun _ _ _ => trivial) ..).pages

theorem openLspLocation_inSync (hi : InSync h m) (location : Location) :
    InSync h (m.openLspLocation location) := by
  unfold openLspLocation
  split_ifs
  · exact openFileAt_inSync hi _ _ _
  · exact hi

theorem onLspEvent_inSync {server : LspServerId} {event : LspEvent} (hi : InSync h m)
    (he : m.onLspEvent h server event = some m') : InSync h m' := by
  rcases onLspEvent_cases he with hb | ⟨lsp, ⟨location, rfl⟩ | ⟨edit, he⟩ | ⟨edits, he⟩⟩
  · exact hi.of_bare hb.1
  · exact openLspLocation_inSync (m := { m with lsp }) hi location
  · exact applyWorkspaceEdit_inSync (m := { m with lsp }) hi he
  · exact applyTextEdits_inSync (m := { m with lsp }) hi he

/-! ## Find, tabs and drafts -/

theorem focusMatch_agent (hf : m.focusMatch = some m') : m'.agent = m.agent := by
  unfold focusMatch at hf
  split at hf
  · dsimp only at hf
    split at hf
    · rw [← Option.some.inj hf]
      rfl
    · obtain ⟨t, -, rfl⟩ := Option.map_eq_some_iff.mp hf
      rfl
  · rw [← Option.some.inj hf]

theorem runFind_inSync {query : Text} (hi : InSync h m) (hr : m.runFind h query = some m') :
    InSync h m' := by
  have hworks : List.Forall₂ (Buffer.Works False fun _ _ => True) m.buffers m'.buffers :=
    runFind_worked (fun _ _ _ _ _ _ _ => trivial) hr
  have hw : Worked False (fun _ _ => True) { m' with buffers := m.buffers } m' :=
    ⟨hworks, .of_eq rfl⟩
  refine hi.of_pages (proposals_of_agent ?_) hw.pages
  unfold runFind at hr
  split at hr
  · rw [← Option.some.inj hr]
  · exact (focusMatch_agent hr).trans rfl

theorem clearFind_inSync (hi : InSync h m) : InSync h m.clearFind := by
  refine hi.of_pages (proposals_of_agent ?_) (pages_of_documents (clearFind_worked m).documents)
  unfold clearFind
  dsimp only
  split <;> rfl

theorem replaceAll_inSync {replacement : Text} (hi : InSync h m)
    (hr : m.replaceAll h replacement = some m') : InSync h m' := by
  unfold replaceAll at hr
  split at hr
  · exact Option.some.inj hr ▸ hi
  · split_ifs at hr
    · exact Option.some.inj hr ▸ hi
    · split at hr
      · exact Option.some.inj hr ▸ hi
      · obtain ⟨c, -, hr⟩ := Option.bind_eq_some_iff.mp hr
        obtain ⟨⟨m₁, r⟩, hx, hr⟩ := Option.bind_eq_some_iff.mp hr
        cases r with
        | error e =>
          obtain ⟨hd, hag⟩ := transact_refused hx
          have := hi.of_pages (proposals_of_agent hag) (pages_of_documents hd)
          exact Option.some.inj hr ▸ this
        | ok u => exact syncProposals_inSync hr

/-- The buffer that is closed is the only one with its path, if it is the one under review. -/
def ClosesAlone (m : Model) (id : BufferId) : Prop :=
  ∀ p ∈ m.proposals, (m.indexOf p.path).isSome →
    m.indexOf p.path = m.buffers.findIdx? (·.id = id) →
      (m.buffers.filter fun b => b.path = some p.path).length = 1

theorem discardBuffer_inSync {id : BufferId} (hi : InSync h m) (hc : m.ClosesAlone id) :
    InSync h (m.discardBuffer id) := by
  unfold discardBuffer
  split
  · exact hi
  · rename_i index hidx
    refine hi.frame (fun p hp => hp) fun p hp t ht => ?_
    have ht : ((m.buffers.eraseIdx index).find? fun b => b.path = some p.path).map Buffer.text =
      some t := ht
    by_cases he : m.indexOf p.path = some index
    · -- the file under review is closed
      have := hc p hp (by rw [he]; rfl) (he.trans hidx.symm)
      rw [find?_eraseIdx_only he this] at ht
      cases ht
    · rw [find?_eraseIdx he] at ht
      exact ht

theorem appendNotification_agent (m : Model) (s : String) :
    (m.appendNotification s).agent = m.agent := by
  unfold appendNotification
  split
  · split_ifs <;> rfl
  · rfl

theorem applyDraft_agent {d : Draft} (ha : m.applyDraft d = some m') : m'.agent = m.agent := by
  unfold applyDraft at ha
  split at ha
  · rw [← Option.some.inj ha]
    exact appendNotification_agent ..
  · rename_i i b hl
    obtain ⟨c, -, ha⟩ := Option.bind_eq_some_iff.mp ha
    obtain ⟨⟨m₁, r⟩, hx, hm⟩ := Option.map_eq_some_iff.mp ha
    obtain ⟨b', rfl, -, -⟩ := transact_located hl hx
    rw [← hm]
    cases r with
    | ok u => rfl
    | error e => exact appendNotification_agent ..

theorem applyDraft_textAt {d : Draft} {path : Path}
    (hp : path ≠ d.path ∨ m.textAt d.path = none) (ha : m.applyDraft d = some m') :
    m'.textAt path = m.textAt path := by
  have hnote : ∀ (m : Model) s, (m.appendNotification s).textAt path = m.textAt path :=
    fun m s => textAt_of_pages (pages_of_documents (documents_appendNotification m s)) path
  unfold applyDraft at ha
  split at ha
  · rw [← Option.some.inj ha, hnote]
  · rename_i i b hl
    obtain ⟨c, -, ha⟩ := Option.bind_eq_some_iff.mp ha
    obtain ⟨⟨m₁, r⟩, hx, hm⟩ := Option.map_eq_some_iff.mp ha
    have hne : path ≠ d.path := by
      refine hp.resolve_right fun hn => ?_
      rw [textAt, (located_some hl).2.2.1] at hn
      cases hn
    obtain ⟨b', rfl, hb', -⟩ := transact_located hl hx
    have hother : ∀ b : Buffer, b.path = some d.path → decide (b.path = some path) = false := by
      intro b hb
      rw [hb]
      simpa using Ne.symm hne
    have htext : (m.setBuffer i b').textAt path = m.textAt path :=
      congrArg (Option.map Buffer.text) (find?_set (located_some hl).1
        (hother b (located_some hl).2.1) (hother b' (by simpa using List.find?_some hb')))
    rw [← hm]
    cases r with
    | ok u => exact htext
    | error e => exact (hnote _ _).trans htext

/-- No chosen draft replaces a text under review. -/
def DraftsApart (m : Model) (drafts : List Draft) : Prop :=
  ∀ d ∈ drafts, ∀ p ∈ m.proposals, p.path = d.path → m.textAt d.path = none

theorem applyDrafts_inSync {drafts : List Draft} (hi : InSync h m) (hd : m.DraftsApart drafts)
    (ha : m.applyDrafts drafts = some m') : InSync h m' := by
  induction drafts generalizing m with
  | nil => exact Option.some.inj ha ▸ hi
  | cons d drafts ih =>
    obtain ⟨m₁, h₁, ha⟩ := Option.bind_eq_some_iff.mp ha
    have hkeep : ∀ p ∈ m.proposals, m₁.textAt p.path = m.textAt p.path := fun p hp =>
      applyDraft_textAt (by
        by_cases he : p.path = d.path
        · exact .inr (hd d List.mem_cons_self p hp he)
        · exact .inl he) h₁
    have hp : m₁.proposals = m.proposals := proposals_of_agent (applyDraft_agent h₁)
    refine ih (hi.frame (fun p hm => hp ▸ hm) fun p hm t ht => ?_) ?_ ha
    · rwa [hkeep p (hp ▸ hm)] at ht
    · intro d' hd' p hm he
      rw [hp] at hm
      have := hd d' (List.mem_cons_of_mem _ hd') p hm he
      rw [← he] at this ⊢
      rw [hkeep p hm]
      exact this

theorem acceptSelectedRecoveryDrafts_inSync (hi : InSync h m)
    (hd : ∀ drafts focus, m.overlays.getLast? = some (.draftRecovery drafts focus) →
      m.DraftsApart ((drafts.filter (·.2)).map Prod.fst))
    (ha : m.acceptSelectedRecoveryDrafts = some m') : InSync h m' := by
  unfold acceptSelectedRecoveryDrafts applyRecoveryDrafts at ha
  split at ha
  · rename_i drafts focus hl
    have hd := hd _ _ hl
    dsimp only at ha
    simp only [Bool.not_true, Bool.false_or] at ha
    exact applyDrafts_inSync (m := { m with overlays := m.overlays.dropLast, focus := focus }) hi hd ha
  · exact Option.some.inj ha ▸ hi

/-! ## The agent -/

theorem InSync.of_still (hi : InSync h m) (hs : Still m m') : InSync h m' :=
  hi.of_buffers (proposals_of_agent hs.2.1) hs.1

theorem decidePermission_inSync {decision : PermissionDecision} (hi : InSync h m)
    (hd : m.decidePermission h decision = some m') : InSync h m' := by
  rcases decidePermission_cases hd with rfl | ⟨agent, m₁, ha, hdesk, hm₁⟩
  · exact hi
  · refine InSync.of_desk ?_ hdesk
    rcases hm₁ with rfl | ⟨reviewed, hs⟩
    · refine hi.of_buffers ?_ rfl
      simp only [proposals, ha, Option.map_some]
    · exact syncProposals_inSync hs

theorem receiveProposal_inSync {id : ProposalId} {path : Path} {oldText : Option Text}
    {newText : Text} (hi : InSync h m)
    (hr : m.receiveProposal h id path oldText newText = some m') : InSync h m' := by
  unfold receiveProposal at hr
  split_ifs at hr
  · exact Option.some.inj hr ▸ hi
  · split at hr
    · exact Option.some.inj hr ▸ hi
    · obtain ⟨p, -, hr⟩ := Option.bind_eq_some_iff.mp hr
      exact syncProposals_inSync hr

theorem receivePermission_inSync {session : SessionId} {request : PermissionRequestId}
    {summary : String} {command : List String} {spec : Option TerminalSpec}
    {edit : Option ProposedEditDiff} (hi : InSync h m)
    (hr : m.receivePermission h session request summary command spec edit = some m') :
    InSync h m' := by
  unfold receivePermission at hr
  split_ifs at hr
  · obtain ⟨⟨m₁, review, summary'⟩, h₁, rfl⟩ := Option.map_eq_some_iff.mp hr
    have hm₁ : InSync h m₁ := by
      cases edit with
      | none => exact (Prod.mk.inj (Option.some.inj h₁)).1 ▸ hi
      | some edit =>
        dsimp only at h₁
        unfold reviewForPermission at h₁
        dsimp only at h₁
        split at h₁
        · exact (Prod.mk.inj (Option.some.inj h₁)).1 ▸ hi
        · split at h₁
          · exact (Prod.mk.inj (Option.some.inj h₁)).1 ▸ hi
          · exact (Prod.mk.inj (Option.some.inj h₁)).1 ▸ hi
          · obtain ⟨p, -, h₁⟩ := Option.bind_eq_some_iff.mp h₁
            obtain ⟨m₂, h₂, hx⟩ := Option.map_eq_some_iff.mp h₁
            exact (Prod.mk.inj hx).1 ▸ syncProposals_inSync h₂
    exact hm₁.of_desk (desk_modifyAgent m₁ fun _ => ⟨rfl, rfl⟩)
  · exact Option.some.inj hr ▸ hi

theorem onAgentEvent_inSync {e : AgentEvent} (hi : InSync h m)
    (he : m.onAgentEvent h e = some m') : InSync h m' := by
  cases e with
  | ready => rw [← Option.some.inj he]; exact hi
  | modesAvailable session current available =>
    rw [← Option.some.inj he]
    exact hi.of_desk (desk_modifyAgent m fun a => by split_ifs <;> exact ⟨rfl, rfl⟩)
  | modeChanged session mode =>
    rw [onAgentEvent] at he
    split at he
    · rw [← Option.some.inj he]
      exact hi
    · rename_i agent ha
      have ha := (Option.filter_eq_some_iff.mp ha).1
      rw [← Option.some.inj he]
      refine hi.of_buffers ?_ rfl
      simp only [proposals, notify, ha, Option.map_some]
  | sessionStarted session =>
    rw [← Option.some.inj he]
    exact .of_nil (startSession_buffers h m session).2
  | messageChunk | thoughtChunk =>
    rw [← Option.some.inj he]
    exact hi.of_desk (pushTranscript_desk ..)
  | readFileRequested =>
    rw [← Option.some.inj he]
    exact hi.of_still (serveRead_still ..)
  | proposedEdit => exact receiveProposal_inSync hi he
  | permissionRequested => exact receivePermission_inSync hi he
  | terminalRequest =>
    rw [← Option.some.inj he]
    exact hi.of_desk (handleAgentTerminal_desk ..)
  | terminalAttached =>
    rw [← Option.some.inj he]
    exact hi.of_desk (desk_modifyAgent m fun a => by split_ifs <;> exact ⟨rfl, rfl⟩)
  | turnEnded session reason =>
    rw [← Option.some.inj he]
    have hm : InSync h (m.modifyAgent fun agent => { agent with turnActive := false }) :=
      hi.of_desk (desk_modifyAgent m fun _ => ⟨rfl, rfl⟩)
    split_ifs
    · exact hm.of_desk (cancelAgentTerminals_desk ..)
    · exact hm
  | failed session message =>
    rw [← Option.some.inj he]
    have hm : InSync h (m.modifyAgent fun agent => { agent with turnActive := false }) :=
      hi.of_desk (desk_modifyAgent m fun _ => ⟨rfl, rfl⟩)
    exact (hm.of_desk (cancelAgentTerminals_desk ..)).of_desk (desk_notify ..)

/-! ## Files -/

theorem finishRestoredRead_inSync (hi : InSync h m) (buffer : BufferId) :
    InSync h (m.finishRestoredRead buffer) :=
  hi.frame (fun p hp => by rwa [proposals_of_agent (finishRestoredRead_agent m buffer)] at hp)
    fun p _ t ht => by rwa [textAt_finishRestoredRead] at ht

/-- A file opened behind the others is not under review, unless its path is open already. -/
def OpensApart (m : Model) (path : Path) : Prop :=
  ∀ p ∈ m.proposals, p.path = path → (m.bufferAt path).isSome

theorem showLoaded_inSync {buffer : BufferId} {path : Path} {text : Text} {restored : Bool}
    (hi : InSync h m) (ho : m.OpensApart path)
    (hs : m.showLoaded h buffer path text restored = some m') : InSync h m' := by
  have hpush : InSync h { m with
      buffers := m.buffers ++ [Buffer.fromText buffer (some path) text] } := by
    refine hi.frame (fun p hp => hp) fun p hp t ht => ?_
    have ht : ((m.buffers ++ [Buffer.fromText buffer (some path) text]).find?
        fun b => b.path = some p.path).map Buffer.text = some t := ht
    rw [List.find?_append] at ht
    by_cases he : p.path = path
    · obtain ⟨b, hb⟩ := Option.isSome_iff_exists.mp (ho p hp he)
      rw [← he] at hb
      rw [show m.buffers.find? (fun b => b.path = some p.path) = some b from hb] at ht
      rw [textAt, hb]
      exact ht
    · have hnone : [Buffer.fromText buffer (some path) text].find?
          (fun b => b.path = some p.path) = none := by
        refine List.find?_eq_none.mpr fun b hb => ?_
        obtain rfl := List.mem_singleton.mp hb
        simpa [Buffer.fromText] using Ne.symm he
      rw [hnone, Option.or_none] at ht
      exact ht
  unfold showLoaded at hs
  obtain ⟨m₁, h₁, hs⟩ := Option.bind_eq_some_iff.mp hs
  have hm₁ : InSync h m₁ := by
    refine InSync.of_bare ?_ (syncSyntax_bare h₁)
    split
    · exact finishRestoredRead_inSync hpush buffer
    · exact hpush
  have hrest : ∀ m₂ : Model, InSync h m₂ → InSync h (m₂.syncLspDocuments.stopWaiting buffer) :=
    fun m₂ hi => InSync.of_buffers (hi.of_bare (syncLspDocuments_bare m₂)) rfl rfl
  refine finishPendingWorkspaceEdit_inSync (hrest _ ?_) hs
  split
  · rename_i pending line column hp
    split_ifs
    · refine InSync.of_pages (m := { m₁ with pendingOpenLocation := none }) hm₁
        (proposals_of_agent ?_) (positionOpenBuffer_worked (T := False) (P := fun _ _ => True)
          (fun _ _ _ => trivial) ..).pages
      unfold positionOpenBuffer
      split <;> rfl
    · exact hm₁
  · exact hm₁

theorem fileLoaded_inSync {buffer : BufferId} {path : Path} {contents : Option Text}
    (hi : InSync h m)
    (ho : contents.isSome → m.pendingConfigReloads.find? (·.buffer = buffer) = none →
      m.pendingAgentReads.find? (·.buffer = buffer) = none →
      m.buffers.findIdx? (·.id = buffer) = none → m.OpensApart path)
    (hl : m.fileLoaded h buffer path contents = some m') : InSync h m' := by
  unfold fileLoaded at hl
  split at hl
  · rw [← Option.some.inj hl]
    exact (hi.of_still ⟨rfl, rfl, rfl⟩).of_still (applyConfig_still ..)
  · rename_i hconfig
    split at hl
    · rw [← Option.some.inj hl]
      exact hi
    · rename_i hread
      dsimp only at hl
      have hi := hi.opening (m.opening.filter (·.1 ≠ buffer))
      split at hl
      · rw [← Option.some.inj hl]
        rcases refuseLoaded_spec _ buffer path _ with hs | hs
        · exact hi.of_still hs
        · exact (finishRestoredRead_inSync hi buffer).of_still hs
      · split at hl
        · unfold reloadBuffer at hl
          obtain ⟨m₁, h₁, hl⟩ := Option.bind_eq_some_iff.mp hl
          have hi₁ : InSync h (m₁.stopWaiting buffer) :=
            InSync.of_buffers (syncAll_inSync h₁) rfl rfl
          exact finishPendingWorkspaceEdit_inSync hi₁ hl
        · rename_i hidx
          refine showLoaded_inSync hi (ho rfl hconfig hread ?_) hl
          cases hf : m.buffers.findIdx? (·.id = buffer) with
          | none => rfl
          | some i =>
            obtain ⟨hlt, -⟩ := List.findIdx?_eq_some_iff_getElem.mp hf
            rw [hf, Option.bind_some, List.getElem?_eq_getElem hlt] at hidx
            cases hidx

/-! ## Runs -/

/-- The steps that refresh what they change: a file is not opened, closed or replaced by a draft
while a proposal for it is live and it would change under that proposal. -/
def Careful (m : Model) : Event → Prop
  | .fs (.fileLoaded buffer path contents) =>
    contents.isSome → m.pendingConfigReloads.find? (·.buffer = buffer) = none →
      m.pendingAgentReads.find? (·.buffer = buffer) = none →
      m.buffers.findIdx? (·.id = buffer) = none → m.OpensApart path
  | .acceptSelectedRecoveryDrafts =>
    ∀ drafts focus, m.overlays.getLast? = some (.draftRecovery drafts focus) →
      m.DraftsApart ((drafts.filter (·.2)).map Prod.fst)
  | .confirmPrompt prompt => ∀ id, prompt.kind = .confirmCloseBuffer id → m.ClosesAlone id
  | _ => True

theorem confirmPrompt_inSync {prompt : Prompt} (hi : InSync h m)
    (hc : ∀ id, prompt.kind = .confirmCloseBuffer id → m.ClosesAlone id)
    (hs : m.confirmPrompt h prompt = some m') : InSync h m' := by
  unfold confirmPrompt at hs
  dsimp only at hs
  split at hs
  · split_ifs at hs
    · exact Option.some.inj hs ▸ clearFind_inSync hi
    · exact runFind_inSync hi hs
  · exact replaceAll_inSync hi hs
  · rename_i id hk
    exact Option.some.inj hs ▸ discardBuffer_inSync hi (hc id hk)
  · exact Option.some.inj hs ▸ hi.of_desk (removeTerminal_desk ..)
  · rw [← Option.some.inj hs]
    split_ifs
    · exact hi
    · exact hi.of_desk (createTerminal_desk ..)
  · rw [← Option.some.inj hs]
    split_ifs <;> exact hi
  · rw [← Option.some.inj hs]
    split_ifs
    · exact hi
    · exact hi.of_still (requestLspRename_still ..)
  · rw [← Option.some.inj hs]
    split_ifs
    · exact hi
    · exact hi.of_desk (sendPrompt_desk ..)
    · exact InSync.of_desk (m := { m with pendingPrompt := some (trim prompt.input) }) hi
        ((desk_notify ..).trans (newAgentSession_desk _))
  · exact Option.some.inj hs ▸ hi.of_still (confirmFile_still ..)

theorem onFsEvent_inSync {e : FsEvent} (hi : InSync h m) (hc : Careful m (.fs e))
    (hs : m.onFsEvent h e = some m') : InSync h m' := by
  cases e with
  | fileLoaded buffer path contents => exact fileLoaded_inSync hi hc hs
  | fileSaved buffer version =>
    rw [← Option.some.inj hs]
    obtain ⟨ha, hf, hb | ⟨i, b, -, hb, hset⟩⟩ := fileSaved_spec h m buffer version
    · exact hi.of_still ⟨hb, ha, hf⟩
    · refine hi.of_pages (proposals_of_agent ha) ?_
      refine (pages_of_buffers (m := m.setBuffer i (b.markSaved version)) hset).trans ?_
      exact pages_set hb rfl rfl
  | fileFailed buffer error =>
    rw [← Option.some.inj hs]
    rcases fileFailed_spec h m buffer error with hst | ⟨opening, hst⟩
    · exact hi.of_still hst
    · exact (finishRestoredRead_inSync (hi.opening opening) buffer).of_still hst
  | pathResolved request path =>
    rw [onFsEvent] at hs
    split at hs
    · exact Option.some.inj hs ▸ hi
    · dsimp only at hs
      split at hs
      · exact Option.some.inj hs ▸ hi
      · split at hs
        · rw [← Option.some.inj hs]
          exact openFileAt_inSync (m := { m with pendingProblemNavigation := none }) hi _ _ _
        · exact Option.some.inj hs ▸ hi
  | pathResolveFailed =>
    rw [onFsEvent] at hs
    split_ifs at hs <;> exact Option.some.inj hs ▸ hi
  | mutationFailed =>
    rw [← Option.some.inj hs]
    split_ifs <;> exact hi
  | changed paths =>
    rw [← Option.some.inj hs]
    have hn := hi.of_still (notifyLspWatchedFiles_still m paths)
    split_ifs
    · exact hn.of_still (reloadChangedBuffers_still _ paths)
    · exact hn

/-- **Careful steps keep proposals in sync.** -/
theorem step_inSync {ev : Event} (hi : InSync h m) (hc : Careful m ev)
    (hs : m.step h ev = some m') : InSync h m' := by
  cases ev with
  | dispatch cmd =>
    obtain ⟨m₁, -, hs⟩ := Option.bind_eq_some_iff.mp hs
    exact syncAll_inSync hs
  | typeChar c =>
    obtain ⟨m₁, -, hs⟩ := Option.bind_eq_some_iff.mp hs
    exact syncAll_inSync hs
  | confirmPrompt prompt => exact confirmPrompt_inSync hi hc hs
  | openFile path => exact Option.some.inj hs ▸ hi.of_still (openFile_still m path)
  | openFileAt => exact Option.some.inj hs ▸ openFileAt_inSync hi _ _ _
  | restoreSession w => exact Option.some.inj hs ▸ hi.of_still (restoreSession_still h m w)
  | acceptSelectedRecoveryDrafts => exact acceptSelectedRecoveryDrafts_inSync hi hc hs
  | discardRecoveryDrafts => exact Option.some.inj hs ▸ hi.of_still (discardRecoveryDrafts_still h m)
  | acceptCompletion item => exact acceptCompletion_inSync hi hs
  | acceptCodeAction action =>
    rw [step] at hs
    unfold acceptCodeAction at hs
    split at hs
    · exact applyWorkspaceEdit_inSync hi hs
    · exact Option.some.inj hs ▸ hi
  | openLspLocation location => exact Option.some.inj hs ▸ openLspLocation_inSync hi location
  | applyTextEdits edits => exact applyTextEdits_inSync hi hs
  | applyWorkspaceEdit edit => exact applyWorkspaceEdit_inSync hi hs
  | setAgentMode mode => exact Option.some.inj hs ▸ hi.of_desk (setAgentMode_desk m mode)
  | decidePermission decision => exact decidePermission_inSync hi hs
  | typeTerminal bytes => exact Option.some.inj hs ▸ hi.of_desk (typeTerminal_desk m bytes)
  | setTerminalSize size => exact Option.some.inj hs ▸ hi.of_desk (setTerminalSize_desk m size)
  | fs event => exact onFsEvent_inSync hi hc hs
  | agent event => exact onAgentEvent_inSync hi hs
  | pty event => exact Option.some.inj hs ▸ hi.of_desk (onPtyEvent_desk h m event)
  | lsp server event => exact onLspEvent_inSync hi hs
  | tick seconds =>
    exact Option.some.inj hs ▸ (hi.of_still ⟨rfl, rfl, rfl⟩).of_still (queueDueDrafts_still h _)
  | shutdownTerminals => exact Option.some.inj hs ▸ hi.of_desk (shutdownTerminals_desk m)
  | navigateProblem | openWorkspace | setOverlays | takeFsRequests | takeAgentRequests
  | takePtyRequests | takeLspRequests => exact Option.some.inj hs ▸ hi

end App.Model

end Termesh
