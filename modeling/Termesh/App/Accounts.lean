import Termesh.App.ServerEdits
import Termesh.App.Worker

/-!
# Accounting for edits

Every entry point that may change a dirty buffer refreshes the debounce at its end. A refresh that
sets no deadline found the versions it had on record, so nothing changed since.

* `Grows`, `Idles`: where the buffers of a step come from;
* `Accounts`: a step that leaves no deadline leaves every dirty buffer as it was;
* **`step_accounts`**: every event does that neither confirms a save nor writes drafts, but for two
  that edit without a refresh.
-/

namespace Termesh

open Tables Buffer

/-! ## Buffers -/

namespace Buffer

variable {b b' : Buffer}

/-- A buffer after any works, under the path it had. -/
structure Grown (b b' : Buffer) : Prop extends Later b b' where
  path : b'.path = b.path

theorem Works.grown {T : Prop} {P : Document → Selection → Prop} (h : Works T P b b') :
    Grown b b' := ⟨h.later, h.moves.keeps.2.1⟩

theorem grown_of_document (h : b'.document = b.document) : Grown b b' :=
  ⟨later_of_document h, congrArg Document.path h⟩

theorem Works.version_eq {P : Document → Selection → Prop} (h : Works False P b b') :
    b'.version = b.version := h.moves.still.2

theorem Grown.trans {b₁ : Buffer} (h : Grown b b₁) (h' : Grown b₁ b') : Grown b b' where
  id := h'.id.trans h.id
  lineEnding := h'.lineEnding.trans h.lineEnding
  savedVersion := h'.savedVersion.trans h.savedVersion
  version := h.version.trans h'.version
  text := fun hv => by
    have hle : b₁.version ≤ b.version := hv ▸ h'.version
    have hsame : b₁.version = b.version := Nat.le_antisymm hle h.version
    rw [h'.text (hv.trans hsame.symm), h.text hsame]
  path := h'.path.trans h.path

end Buffer

namespace App.Model

variable {h : Host} {m m' m₁ : Model}

/-! ## Bringing the debounce up to date -/

theorem syncDrafts_eq (m : Model) (seconds : ℕ) (ha : m.autosave = some seconds) :
    m.syncDrafts.draftVersions = ((m.buffers.filter (·.isDirty)).filterMap fun b =>
      b.path.map fun p => (p, b.version)).foldl (fun t e => t.insert e.1 e.2) ∅ := by
  rw [List.foldl_filterMap]
  unfold syncDrafts
  rw [ha]
  dsimp only
  congr 1
  funext t b
  cases b.path <;> rfl

theorem mem_versions {p : Path} {v : Version} :
    (p, v) ∈ ((m.buffers.filter (·.isDirty)).filterMap fun b => b.path.map fun p => (p, b.version)) ↔
      ∃ b ∈ m.buffers, b.isDirty = true ∧ b.path = some p ∧ b.version = v := by
  simp [List.mem_filterMap, and_assoc]

/-- What is on record is the version of a dirty buffer. -/
theorem syncDrafts_recorded (ha : m.autosave.isSome = true) {p : Path} {v : Version}
    (hv : m.syncDrafts.draftVersions.lookup p = some v) :
    ∃ b ∈ m.buffers, b.isDirty = true ∧ b.path = some p ∧ b.version = v := by
  obtain ⟨seconds, ha⟩ := Option.isSome_iff_exists.mp ha
  rw [syncDrafts_eq m seconds ha] at hv
  rcases Table.lookup_inserts ((m.buffers.filter (·.isDirty)).filterMap fun b =>
      b.path.map fun p => (p, b.version)) ∅ p with ⟨w, hw, hlookup⟩ | ⟨-, hlookup⟩
  · rw [hlookup] at hv
    rw [← Option.some.inj hv]
    exact mem_versions.mp hw
  · rw [hlookup] at hv
    cases hv

/-- **Without a deadline nothing changed**: the dirty buffers were on record. -/
theorem syncDrafts_due (ha : m.autosave.isSome = true) (hd : m.syncDrafts.draftDeadline = none)
    {b : Buffer} (hb : b ∈ m.buffers) (hdirty : b.isDirty = true) {p : Path} (hp : b.path = some p) :
    m.draftDeadline = none ∧ ∃ v, m.draftVersions.lookup p = some v ∧
      m.syncDrafts.draftVersions.lookup p = some v := by
  obtain ⟨seconds, ha⟩ := Option.isSome_iff_exists.mp ha
  obtain ⟨v, hv⟩ : ∃ v, m.syncDrafts.draftVersions.lookup p = some v := by
    rw [syncDrafts_eq m seconds ha]
    rcases Table.lookup_inserts ((m.buffers.filter (·.isDirty)).filterMap fun b =>
        b.path.map fun p => (p, b.version)) ∅ p with ⟨w, -, hlookup⟩ | ⟨hno, -⟩
    · exact ⟨w, hlookup⟩
    · exact absurd (List.mem_map.mpr ⟨_, mem_versions.mpr ⟨b, hb, hdirty, hp, rfl⟩, rfl⟩) hno
  have hentry : (⟨p, v⟩ : Sigma fun _ : Path => Version) ∈ m.syncDrafts.draftVersions.entries :=
    AList.mem_lookup_iff.mp hv
  have hdeadline : m.syncDrafts.draftDeadline =
      if m.syncDrafts.draftVersions.entries.isEmpty then none
      else if (m.syncDrafts.draftVersions.entries.any fun e =>
        m.draftVersions.lookup e.1 != some e.2) = true then some (m.clock + seconds)
      else m.draftDeadline := by
    unfold syncDrafts
    rw [ha]
  rw [hd] at hdeadline
  rw [if_neg (by simpa using List.ne_nil_of_mem hentry)] at hdeadline
  split_ifs at hdeadline with hchanged
  refine ⟨hdeadline.symm, v, ?_, hv⟩
  by_contra hne
  exact hchanged (List.any_eq_true.mpr ⟨_, hentry, by simpa using hne⟩)

/-- What is left is the debounce of a refresh, and the documents are those before it. -/
def Synced (m m' : Model) : Prop :=
  ∃ m₁ : Model, m₁.debounce = m.debounce ∧ m₁.documents = m.documents ∧
    m'.debounce = m₁.syncDrafts.debounce ∧ m'.documents = m₁.documents

theorem syncLspDocuments_synced (m : Model) : Synced m m.syncLspDocuments := by
  have hdocs := syncLspDocuments_documents m
  refine ⟨{ m with buffers := (drainInto m.buffers m.lsp).1, lsp := (drainInto m.buffers m.lsp).2 },
    rfl, ?_, rfl, ?_⟩
  · rw [← hdocs]
    exact (documents_of_bare (syncDrafts_bare _)).symm
  · exact documents_of_bare (syncDrafts_bare _)

theorem syncAll_synced (hs : m.syncAll h = some m') : Synced m m' := by
  obtain ⟨m₁, m₂, h₁, h₂, rfl⟩ := syncAll_cases hs
  obtain ⟨m₃, hdebounce, hdocs, hrest⟩ := syncLspDocuments_synced m₂
  refine ⟨m₃, ?_, ?_, hrest⟩
  · rw [hdebounce, syncProposals_debounce h₂, syncSyntax_debounce h₁]
  · rw [hdocs, syncProposals_documents h₂, syncSyntax_documents h₁]

theorem Synced.autosave (hs : Synced m m') : m'.autosave = m.autosave := by
  obtain ⟨m₁, hdebounce, -, hdebounce', -⟩ := hs
  have hkept : m₁.syncDrafts.autosave = m₁.autosave :=
    show m₁.syncDrafts.bare.autosave = m₁.autosave by rw [syncDrafts_bare]; rfl
  calc m'.autosave = m₁.syncDrafts.autosave := congrArg Debounce.autosave hdebounce'
    _ = m₁.autosave := hkept
    _ = m.autosave := congrArg Debounce.autosave hdebounce

/-! ## Where buffers come from -/

/-- Every buffer has grown from one there was. -/
def Grows (m m' : Model) : Prop := ∀ b' ∈ m'.buffers, ∃ b ∈ m.buffers, Grown b b'

/-- No buffer was edited. -/
def Idles (m m' : Model) : Prop :=
  ∀ b' ∈ m'.buffers, ∃ b ∈ m.buffers, Grown b b' ∧ b'.version = b.version

theorem Worked.grows {T : Prop} {P : Document → Selection → Prop} (hw : Worked T P m m') :
    Grows m m' := by
  intro b' hb'
  obtain ⟨b, hb, hworks⟩ := hw.mem hb'
  exact ⟨b, hb, hworks.grown⟩

theorem Worked.idles {P : Document → Selection → Prop} (hw : Worked False P m m') : Idles m m' := by
  intro b' hb'
  obtain ⟨b, hb, hworks⟩ := hw.mem hb'
  exact ⟨b, hb, hworks.grown, hworks.version_eq⟩

theorem idles_of_subset (hs : m'.buffers ⊆ m.buffers) : Idles m m' := fun b hb =>
  ⟨b, hs hb, grown_of_document rfl, rfl⟩

theorem idles_of_documents (hd : m'.documents = m.documents) : Idles m m' := by
  intro b' hb'
  have hmem : b'.document ∈ m.documents := hd ▸ List.mem_map_of_mem hb'
  obtain ⟨b, hb, heq⟩ := List.mem_map.mp hmem
  exact ⟨b, hb, grown_of_document heq.symm, (congrArg Document.version heq).symm⟩

theorem Idles.grows (hi : Idles m m') : Grows m m' := fun b' hb' =>
  let ⟨b, hb, hgrown, _⟩ := hi b' hb'
  ⟨b, hb, hgrown⟩

theorem Worked.ids {T : Prop} {P : Document → Selection → Prop} (hw : Worked T P m m') :
    m'.buffers.map (·.id) = m.buffers.map (·.id) := map_id_later (forall₂_later hw.1)

/-- No other buffer has the path of a dirty one. -/
def Sole (bs : List Buffer) : Prop :=
  ∀ b ∈ bs, b.isDirty = true → ∀ c ∈ bs, ∀ p, b.path = some p → c.path = some p → b.id = c.id

theorem sole_of_idles (hi : Idles m m') (hs : Sole m.buffers) : Sole m'.buffers := by
  intro b' hb' hdirty c' hc' p hbp hcp
  obtain ⟨b, hb, hgrown, hversion⟩ := hi b' hb'
  obtain ⟨c, hc, hgrown', -⟩ := hi c' hc'
  rw [hgrown.isDirty hversion] at hdirty
  rw [hgrown.id, hgrown'.id]
  exact hs b hb hdirty c hc p (hgrown.path ▸ hbp) (hgrown'.path ▸ hcp)

/-! ## Accounting -/

/-- Nothing is on record that a buffer has not reached. -/
def Recorded (m : Model) : Prop :=
  ∀ p v, m.draftVersions.lookup p = some v → ∀ b ∈ m.buffers, b.path = some p → v ≤ b.version

/-- Without a deadline every dirty buffer is as it was, and there was none before. -/
def Inherits (m m' : Model) : Prop :=
  m'.draftDeadline = none → ∀ b' ∈ m'.buffers, b'.isDirty = true → ∀ p, b'.path = some p →
    m.draftDeadline = none ∧ ∃ b ∈ m.buffers, b.isDirty = true ∧ b.path = some p ∧
      b.version = b'.version ∧ b.toDiskString = b'.toDiskString

/-- The step accounts for its edits, as long as autosave is on and every dirty buffer has its path to
itself. -/
def Accounts (m m' : Model) : Prop :=
  m.autosave.isSome = true → Sole m.buffers → (m'.buffers.map (·.id)).Nodup → m.Recorded →
    (Sole m'.buffers → m'.Recorded) ∧ Inherits m m'

theorem inherited {b b' : Buffer} {p : Path} (hg : Grown b b') (hv : b'.version = b.version)
    (hdirty : b'.isDirty = true) (hp : b'.path = some p) :
    b.isDirty = true ∧ b.path = some p ∧ b.version = b'.version ∧ b.toDiskString = b'.toDiskString :=
  ⟨by rw [← hg.isDirty hv, hdirty], by rw [← hg.path, hp], hv.symm, (hg.toDiskString hv).symm⟩

theorem recorded_of_grows (hv : m'.draftVersions = m.draftVersions) (hg : Grows m m')
    (hr : m.Recorded) : m'.Recorded := by
  intro p v hlookup b' hb' hp
  obtain ⟨b, hb, hgrown⟩ := hg b' hb'
  rw [hv] at hlookup
  exact (hr p v hlookup b hb (hgrown.path ▸ hp)).trans hgrown.version

theorem accounts_of_idles (hv : m'.draftVersions = m.draftVersions)
    (hd : m'.draftDeadline = m.draftDeadline) (hi : Idles m m') : Accounts m m' := by
  refine fun _ _ _ hr => ⟨fun _ => recorded_of_grows hv hi.grows hr, ?_⟩
  intro hnone b' hb' hdirty p hp
  obtain ⟨b, hb, hgrown, hversion⟩ := hi b' hb'
  exact ⟨hd ▸ hnone, b, hb, inherited hgrown hversion hdirty hp⟩

theorem accounts_of_debounce (hl : m'.debounce = m.debounce) (hi : Idles m m') : Accounts m m' :=
  accounts_of_idles (congrArg Debounce.versions hl) (congrArg Debounce.deadline hl) hi

theorem accounts_of_desk (hd : m'.desk = m.desk) : Accounts m m' :=
  accounts_of_debounce (debounce_of_desk hd)
    (idles_of_subset (buffers_of_desk hd ▸ List.Subset.refl _))

theorem accounts_waiting (hl : m'.debounce = m.debounce) (hg : Grows m m')
    (hd : m.draftDeadline.isSome = true) : Accounts m m' := by
  refine fun _ _ _ hr => ⟨fun _ => recorded_of_grows (congrArg Debounce.versions hl) hg hr,
    fun hnone => ?_⟩
  have hdeadline : m'.draftDeadline = m.draftDeadline := congrArg Debounce.deadline hl
  rw [← hdeadline, hnone] at hd
  cases hd

/-- **A step that ends in a refresh.** -/
theorem accounts_refresh (hs : Synced m₁ m') (hl : m₁.debounce = m.debounce)
    (hg : ∀ b₁ ∈ m₁.buffers, b₁.isDirty = true → ∃ b ∈ m.buffers, Grown b b₁) :
    Accounts m m' := by
  obtain ⟨m₂, hdebounce, hdocs, hdebounce', hdocs'⟩ := hs
  rw [hl] at hdebounce
  intro hauto hsole hids hr
  have hauto₂ : m₂.autosave.isSome = true := by
    rw [show m₂.autosave = m.autosave from congrArg Debounce.autosave hdebounce, hauto]
  have hversions : m'.draftVersions = m₂.syncDrafts.draftVersions :=
    congrArg Debounce.versions hdebounce'
  -- what is on record is the version of a dirty buffer
  have hdirtied : ∀ p v, m'.draftVersions.lookup p = some v →
      ∃ c ∈ m'.buffers, c.isDirty = true ∧ c.path = some p ∧ c.version = v := by
    intro p v hv
    rw [hversions] at hv
    obtain ⟨c₂, hc₂, hd, hp, rfl⟩ := syncDrafts_recorded hauto₂ hv
    obtain ⟨c, hc, hgrown, hversion⟩ := idles_of_documents hdocs'.symm c₂ hc₂
    obtain ⟨hd, hp, hv, -⟩ := inherited hgrown hversion hd hp
    exact ⟨c, hc, hd, hp, hv⟩
  refine ⟨fun hsole' p v hv b hb hp => ?_, fun hnone b' hb' hdirty p hp => ?_⟩
  · obtain ⟨c, hc, hd, hcp, rfl⟩ := hdirtied p v hv
    have hid := hsole' c hc hd b hb p hcp hp
    rw [List.inj_on_of_nodup_map hids hc hb hid]
  -- every dirty buffer was there before
  have hback : ∀ b' ∈ m'.buffers, b'.isDirty = true → ∀ p, b'.path = some p →
      ∃ b ∈ m.buffers, Grown b b' ∧ b.path = some p := by
    intro b' hb' hdirty p hp
    obtain ⟨b₁, hb₁, hgrown₁, hversion₁⟩ := idles_of_documents (hdocs'.trans hdocs) b' hb'
    obtain ⟨hdirty₁, hp₁, -⟩ := inherited hgrown₁ hversion₁ hdirty hp
    obtain ⟨b, hb, hgrown⟩ := hg b₁ hb₁ hdirty₁
    exact ⟨b, hb, hgrown.trans hgrown₁, hgrown.path ▸ hp₁⟩
  have hdeadline : m₂.syncDrafts.draftDeadline = none := by
    rw [← hnone]
    exact (congrArg Debounce.deadline hdebounce').symm
  obtain ⟨b₂, hb₂, hgrown₂, hversion₂⟩ := idles_of_documents hdocs' b' hb'
  obtain ⟨hdirty₂, hp₂, -⟩ := inherited hgrown₂ hversion₂ hdirty hp
  obtain ⟨hwas, v, hbefore, hafter⟩ := syncDrafts_due hauto₂ hdeadline hb₂ hdirty₂ hp₂
  have hbefore : m.draftVersions.lookup p = some v := by
    rw [← hbefore, show m₂.draftVersions = m.draftVersions from congrArg Debounce.versions hdebounce]
  -- the buffer of the version on record has not changed, so it is this one
  obtain ⟨c', hc', hcd', hcp', hcv'⟩ := hdirtied p v (hversions ▸ hafter)
  obtain ⟨c, hc, hcgrown, hcp⟩ := hback c' hc' hcd' p hcp'
  have hcv : c'.version = c.version :=
    Nat.le_antisymm (hcv' ▸ hr p v hbefore c hc hcp) hcgrown.version
  obtain ⟨b, hb, hgrown, hbp⟩ := hback b' hb' hdirty p hp
  have hid := hsole c hc (inherited hcgrown hcv hcd' hcp').1 b hb p hcp hbp
  obtain rfl : c' = b' := List.inj_on_of_nodup_map hids hc' hb'
    (hcgrown.id.trans (hid.trans hgrown.id.symm))
  have hbv : c'.version = b.version :=
    Nat.le_antisymm (hcv' ▸ hr p v hbefore b hb hbp) hgrown.version
  refine ⟨?_, b, hb, inherited hgrown hbv hdirty hp⟩
  rw [← hwas]
  exact (congrArg Debounce.deadline hdebounce).symm

theorem Accounts.trans (ha : Accounts m m₁) (ha' : Accounts m₁ m')
    (hauto : m₁.autosave = m.autosave) (hsole : Sole m.buffers → Sole m₁.buffers)
    (hsame : m'.buffers.map (·.id) = m₁.buffers.map (·.id)) : Accounts m m' := by
  intro hsome hs hids hr
  obtain ⟨hr₁, hi₁⟩ := ha hsome hs (hsame ▸ hids) hr
  obtain ⟨hr', hi'⟩ := ha' (hauto ▸ hsome) (hsole hs) hids (hr₁ (hsole hs))
  refine ⟨hr', fun hnone b' hb' hdirty p hpath => ?_⟩
  obtain ⟨hnone₁, b₁, hb₁, hdirty₁, hpath₁, hversion₁, htext₁⟩ := hi' hnone b' hb' hdirty p hpath
  obtain ⟨hwas, b, hb, hd, hbp, hversion, htext⟩ := hi₁ hnone₁ b₁ hb₁ hdirty₁ p hpath₁
  exact ⟨hwas, b, hb, hd, hbp, hversion.trans hversion₁, htext.trans htext₁⟩

/-! ## Edits by servers and files -/

theorem accounts_of_worked {P : Document → Selection → Prop} (hl : m'.debounce = m.debounce)
    (hw : Worked False P m m') : Accounts m m' := accounts_of_debounce hl hw.idles

theorem accounts_of_still (hl : m'.debounce = m.debounce) (hs : Still m m') : Accounts m m' :=
  accounts_of_debounce hl (idles_of_subset (hs.1 ▸ List.Subset.refl _))

theorem accounts_refl (m : Model) : Accounts m m := accounts_of_desk rfl

theorem applyTextEdits_accounts {edits : List TextEdit} (ha : m.applyTextEdits h edits = some m') :
    Accounts m m' := by
  unfold applyTextEdits at ha
  split at ha
  · exact Option.some.inj ha ▸ accounts_refl m
  · split_ifs at ha
    · exact Option.some.inj ha ▸ accounts_of_desk rfl
    · split at ha
      · exact Option.some.inj ha ▸ accounts_of_desk rfl
      · obtain ⟨c, -, ha⟩ := Option.bind_eq_some_iff.mp ha
        cases c with
        | error message => exact Option.some.inj ha ▸ accounts_of_desk rfl
        | ok c =>
          obtain ⟨⟨m₁, r⟩, ht, ha⟩ := Option.bind_eq_some_iff.mp ha
          have hdebounce := transact_debounce ht
          dsimp only at ha
          split at ha
          · rw [← Option.some.inj ha]
            have hkept := idles_of_documents (transact_refused ht).1
            have haccounts : Accounts m m₁ := accounts_of_debounce hdebounce hkept
            exact haccounts
          · have hgrows := (transact_worked (P := fun _ _ => True) ht).grows
            exact accounts_refresh (syncAll_synced ha) hdebounce fun b hb _ => hgrows b hb

theorem acceptCompletion_accounts {item : CompletionItem}
    (ha : m.acceptCompletion h item = some m') : Accounts m m' := by
  unfold acceptCompletion at ha
  split at ha
  · exact applyTextEdits_accounts ha
  · split at ha
    · exact Option.some.inj ha ▸ accounts_refl m
    · split at ha
      · exact Option.some.inj ha ▸ accounts_refl m
      · exact applyTextEdits_accounts ha

/-- A workspace edit is refused before its first change, or refreshes behind its last. -/
theorem finish_accounts (hf : m.finishPendingWorkspaceEdit h = some m') : Accounts m m' := by
  unfold finishPendingWorkspaceEdit at hf
  split at hf
  · exact Option.some.inj hf ▸ accounts_refl m
  · rename_i pending _
    split_ifs at hf
    · exact Option.some.inj hf ▸ accounts_refl m
    · obtain ⟨prepared, hp, hf⟩ := Option.bind_eq_some_iff.mp hf
      cases prepared with
      | error message =>
        rw [← Option.some.inj hf]
        exact accounts_of_still (debounce_restoreActiveBuffer ..)
          (restoreActiveBuffer_still { m with pendingWorkspaceEdit := none } pending.previousActive)
      | ok prepared =>
        obtain ⟨hnd, hc⟩ := prepareEdits_ok hp (nodup_groupEdits _)
        obtain ⟨m₁, hm₁⟩ := applyPrepared_ok hnd fun c hm => by
          obtain ⟨path, -, b, hl, hlen⟩ := hc c hm
          exact ⟨b, (located_some hl).1, hlen⟩
        dsimp only at hf
        rw [hm₁, Option.bind_some] at hf
        obtain ⟨m₂, h₂, rfl⟩ := Option.map_eq_some_iff.mp hf
        have hdebounce := applyPrepared_debounce hm₁
        have hgrows := (applyPrepared_worked (P := fun _ _ => True) hm₁).grows
        have hback := restoreActiveBuffer_still m₁ pending.previousActive
        have hdebounce' := (debounce_restoreActiveBuffer m₁ pending.previousActive).trans hdebounce
        have haccounts := accounts_refresh (syncAll_synced h₂) hdebounce' fun b hb _ =>
          hgrows b (hback.1 ▸ hb)
        exact haccounts

theorem applyWorkspaceEdit_accounts {edit : WorkspaceEdit}
    (ha : m.applyWorkspaceEdit h edit = some m') : Accounts m m' := by
  unfold applyWorkspaceEdit at ha
  split_ifs at ha
  · exact Option.some.inj ha ▸ accounts_of_desk rfl
  · exact Option.some.inj ha ▸ accounts_of_desk rfl
  · split at ha
    · exact Option.some.inj ha ▸ accounts_of_desk rfl
    · dsimp only at ha
      split at ha
      · exact Option.some.inj ha ▸ accounts_of_desk rfl
      · split at ha
        · exact Option.some.inj ha ▸ accounts_of_desk rfl
        · have hdebounce := queueTargets_debounce m (sortPaths (edit.edits.map (·.path)))
          have hstill := queueTargets_still m (sortPaths (edit.edits.map (·.path)))
          have hfinish := finish_accounts ha
          have hids := (finishPendingWorkspaceEdit_worked (P := fun _ _ => True) ha).ids
          exact (accounts_of_still hdebounce hstill).trans hfinish
            (congrArg Debounce.autosave hdebounce) (fun hs => hstill.1 ▸ hs) hids

theorem onLspEvent_accounts {server : LspServerId} {event : LspEvent}
    (he : m.onLspEvent h server event = some m') : Accounts m m' := by
  rcases onLspEvent_drawn he with ⟨hdrawn, _, _, _, _, rfl⟩ | ⟨lsp, hcase⟩
  · exact accounts_of_debounce rfl (idles_of_documents (documents_of_bare hdrawn.1))
  · rcases hcase with ⟨location, rfl⟩ | ⟨edit, he⟩ | ⟨edits, he⟩
    · exact accounts_of_worked (P := fun _ _ => True)
        (openLspLocation_debounce { m with lsp } location)
        (openLspLocation_worked (fun _ _ _ => trivial) { m with lsp } location)
    · exact applyWorkspaceEdit_accounts (m := { m with lsp }) he
    · exact applyTextEdits_accounts (m := { m with lsp }) he

theorem isDirty_reloaded (buffer : BufferId) (path : Path) (text : Text) (old : Buffer) :
    (reloaded buffer path text old).isDirty = false := rfl

theorem isDirty_fromText (buffer : BufferId) (path : Path) (text : Text) :
    (fromText buffer (some path) text).isDirty = false := rfl

/-- No dirty buffer but the one it is for has the path of a file that arrives. -/
def Welcome (m : Model) (buffer : BufferId) (path : Path) : Prop :=
  ∀ b ∈ m.buffers, b.isDirty = true → b.path = some path → b.id = buffer

theorem sole_clean {bs : List Buffer} {buffer : BufferId} {path : Path} {new : Buffer}
    (hw : m.Welcome buffer path) (hs : Sole m.buffers) (hnew : new.isDirty = false)
    (hid : new.id = buffer) (hpath : new.path = some path)
    (hbs : ∀ b ∈ bs, b ∈ m.buffers ∨ b = new) : Sole bs := by
  intro b hb hdirty c hc p hbp hcp
  rcases hbs b hb with hb | rfl
  · rcases hbs c hc with hc | rfl
    · exact hs b hb hdirty c hc p hbp hcp
    · rw [hid]
      refine hw b hb hdirty ?_
      rw [hbp, ← hcp, hpath]
  · rw [hnew] at hdirty
    cases hdirty

theorem reloadBuffer_accounts {i : ℕ} {old : Buffer} {buffer : BufferId} {path : Path} {text : Text}
    (hw : m.Welcome buffer path) (hr : m.reloadBuffer h i old buffer path text = some m') :
    Accounts m m' := by
  unfold reloadBuffer at hr
  obtain ⟨m₁, hs, hf⟩ := Option.bind_eq_some_iff.mp hr
  have hsynced := syncAll_synced hs
  have hmem : ∀ b ∈ m.buffers.set i (reloaded buffer path text old),
      b ∈ m.buffers ∨ b = reloaded buffer path text old := fun _ hb => List.mem_or_eq_of_mem_set hb
  have hreload : Accounts m m₁ := by
    refine accounts_refresh hsynced rfl fun b hb hdirty => ?_
    rcases hmem b hb with hb | rfl
    · exact ⟨b, hb, grown_of_document rfl⟩
    · rw [isDirty_reloaded] at hdirty
      cases hdirty
  have hfinish := finish_accounts hf
  refine hreload.trans hfinish hsynced.autosave (fun hsole => ?_)
    (stopWaiting_worked (P := fun _ _ => True) hf).ids
  exact sole_of_idles (idles_of_documents (syncAll_documents hs))
    (sole_clean hw hsole (isDirty_reloaded buffer path text old) rfl rfl hmem)

theorem showLoaded_accounts {buffer : BufferId} {path : Path} {text : Text} {restored : Bool}
    (hw : m.Welcome buffer path) (hs : m.showLoaded h buffer path text restored = some m') :
    Accounts m m' := by
  obtain ⟨bs, m₁, hperm, hplaced, hdebounce, hf⟩ :=
    showLoaded_placed (T := False) (P := fun _ _ => True) (fun _ _ _ => trivial) hs
  have hsynced := syncLspDocuments_synced m₁
  have hmem : ∀ b ∈ bs, b ∈ m.buffers ∨ b = fromText buffer (some path) text := fun b hb =>
    (List.mem_append.mp (hperm.subset hb)).imp_right List.mem_singleton.mp
  have hshow : Accounts m m₁.syncLspDocuments := by
    refine accounts_refresh hsynced hdebounce fun b hb hdirty => ?_
    obtain ⟨b₀, hb₀, hgrown, hversion⟩ := hplaced.idles b hb
    rw [hgrown.isDirty hversion] at hdirty
    rcases hmem b₀ hb₀ with hb₀ | rfl
    · exact ⟨b₀, hb₀, hgrown⟩
    · rw [isDirty_fromText] at hdirty
      cases hdirty
  have hfinish := finish_accounts hf
  refine hshow.trans hfinish (hsynced.autosave.trans (congrArg Debounce.autosave hdebounce))
    (fun hsole => ?_) (stopWaiting_worked (P := fun _ _ => True) hf).ids
  refine sole_of_idles (idles_of_documents (syncLspDocuments_documents m₁)) ?_
  exact sole_of_idles hplaced.idles
    (sole_clean hw hsole (isDirty_fromText buffer path text) rfl rfl hmem)

theorem applyConfig_versions (h : Host) (m : Model) (kind : ConfigReloadKind)
    (contents : Option Text) : (m.applyConfig h kind contents).draftVersions = m.draftVersions ∧
      (m.applyConfig h kind contents).draftDeadline = m.draftDeadline := by
  unfold applyConfig
  split <;> exact ⟨rfl, rfl⟩

theorem applyConfig_accounts (h : Host) (m : Model) (kind : ConfigReloadKind)
    (contents : Option Text) : Accounts m (m.applyConfig h kind contents) :=
  accounts_of_idles (applyConfig_versions h m kind contents).1
    (applyConfig_versions h m kind contents).2
    (idles_of_subset ((applyConfig_still h m kind contents).1 ▸ List.Subset.refl _))

theorem refuseLoaded_accounts (m : Model) (buffer : BufferId) (path : Path) (restored : Bool) :
    Accounts m (m.refuseLoaded buffer path restored) := by
  refine accounts_of_debounce (refuseLoaded_debounce m buffer path restored) (idles_of_subset ?_)
  rcases refuseLoaded_spec m buffer path restored with hs | hs
  · exact hs.1 ▸ List.Subset.refl _
  · exact hs.1 ▸ (finishRestoredRead_perm m buffer).subset

theorem fileLoaded_accounts {buffer : BufferId} {path : Path} {contents : Option Text}
    (hw : m.ForBuffer buffer → contents.isSome = true → m.Welcome buffer path)
    (hs : m.fileLoaded h buffer path contents = some m') : Accounts m m' := by
  unfold fileLoaded at hs
  split at hs
  · rw [← Option.some.inj hs]
    exact applyConfig_accounts h { m with
      pendingConfigReloads := m.pendingConfigReloads.eraseP (·.buffer = buffer) } _ contents
  · rename_i hconfig
    split at hs
    · exact Option.some.inj hs ▸ accounts_of_still (m := m) rfl ⟨rfl, rfl, rfl⟩
    · rename_i hread
      dsimp only at hs
      split at hs
      · let m₁ : Model := { m with opening := m.opening.filter (·.1 ≠ buffer) }
        rw [← Option.some.inj hs]
        exact refuseLoaded_accounts m₁ buffer path _
      · have hwelcome := hw ⟨hconfig, hread⟩ rfl
        split at hs
        · exact reloadBuffer_accounts (m := { m with opening := m.opening.filter (·.1 ≠ buffer) })
            hwelcome hs
        · exact showLoaded_accounts (m := { m with opening := m.opening.filter (·.1 ≠ buffer) })
            hwelcome hs

theorem fileFailed_accounts (h : Host) (m : Model) (buffer : BufferId) (error : FsError) :
    Accounts m (m.fileFailed h buffer error) := by
  have hfailed := fileFailed_spec h m buffer error
  have hidles : Idles m (m.fileFailed h buffer error) := by
    refine idles_of_subset ?_
    rcases hfailed with hs | ⟨opening, hs⟩
    · exact hs.1 ▸ List.Subset.refl _
    · exact hs.1 ▸ (finishRestoredRead_perm { m with opening } buffer).subset
  have hdebounce : (m.fileFailed h buffer error).draftVersions = m.draftVersions ∧
      (m.fileFailed h buffer error).draftDeadline = m.draftDeadline := by
    have hof : ∀ {m₁ : Model}, m₁.debounce = m.debounce →
        m₁.draftVersions = m.draftVersions ∧ m₁.draftDeadline = m.draftDeadline := fun hl =>
      ⟨congrArg Debounce.versions hl, congrArg Debounce.deadline hl⟩
    unfold fileFailed
    split
    · exact hof (debounce_appendNotification ..)
    · split
      · exact applyConfig_versions h { m with
          pendingConfigReloads := m.pendingConfigReloads.eraseP (·.buffer = buffer) } _ _
      · split
        · exact ⟨rfl, rfl⟩
        · dsimp only
          split_ifs
          · exact hof ((debounce_appendNotification ..).trans (finishRestoredRead_debounce
              { m with opening := m.opening.filter (·.1 ≠ buffer) } buffer))
          · exact hof (abandonPendingWorkspaceEdit_debounce
              { m with opening := m.opening.filter (·.1 ≠ buffer) } _)
          · exact ⟨rfl, rfl⟩
  exact accounts_of_idles hdebounce.1 hdebounce.2 hidles

theorem onFsEvent_accounts {e : FsEvent} (hs : m.onFsEvent h e = some m')
    (hsaved : ∀ buffer version, e ≠ .fileSaved buffer version)
    (hload : ∀ buffer path text, e = .fileLoaded buffer path (some text) → m.ForBuffer buffer →
      m.Welcome buffer path) : Accounts m m' := by
  have hjump : ∀ (path : Path) (line column : ℕ),
      Accounts m ({ m with pendingProblemNavigation := none }.openFileAt path line column) :=
    fun path line column => accounts_of_worked (P := fun _ _ => True)
      (openFileAt_debounce { m with pendingProblemNavigation := none } path line column)
      (openFileAt_worked (fun _ _ _ => trivial) { m with pendingProblemNavigation := none } ..)
  have hquiet : ∀ {m₁ : Model}, m₁.buffers = m.buffers → m₁.debounce = m.debounce → Accounts m m₁ :=
    fun hb hl => accounts_of_debounce hl (idles_of_subset (hb ▸ List.Subset.refl _))
  cases e with
  | fileLoaded buffer path contents =>
    refine fileLoaded_accounts (fun hr hsome => ?_) hs
    obtain ⟨text, rfl⟩ := Option.isSome_iff_exists.mp hsome
    exact hload buffer path text rfl hr
  | fileSaved => exact absurd rfl (hsaved _ _)
  | fileFailed buffer error => exact Option.some.inj hs ▸ fileFailed_accounts h m buffer error
  | pathResolved request path =>
    rw [onFsEvent] at hs
    split at hs
    · exact Option.some.inj hs ▸ accounts_refl m
    · dsimp only at hs
      split at hs
      · exact Option.some.inj hs ▸ accounts_refl m
      · split at hs
        · exact Option.some.inj hs ▸ hjump path _ _
        · exact Option.some.inj hs ▸ hquiet rfl rfl
  | pathResolveFailed =>
    rw [onFsEvent] at hs
    split_ifs at hs <;> exact Option.some.inj hs ▸ hquiet rfl rfl
  | mutationFailed =>
    rw [← Option.some.inj hs]
    split_ifs <;> exact hquiet rfl rfl
  | changed paths =>
    have htold := notifyLspWatchedFiles_debounce m paths
    have hstill := notifyLspWatchedFiles_still m paths
    rw [← Option.some.inj hs]
    split_ifs
    · exact accounts_of_still ((reloadChangedBuffers_debounce _ paths).trans htold)
        (hstill.trans (reloadChangedBuffers_still _ paths))
    · exact accounts_of_still htold hstill

/-! ## Edits without a refresh -/

/-- The event edits a buffer and makes no refresh: a replacement from its prompt, or a draft that is
accepted from the list. -/
def slips (m : Model) : Event → Bool
  | .confirmPrompt prompt =>
    decide (prompt.kind = .replace) && m.onScreen.isSome &&
      m.find.any fun find => !find.found.isEmpty
  | .acceptSelectedRecoveryDrafts =>
    match m.overlays.getLast? with
    | some (.draftRecovery drafts _) => drafts.any fun d => d.2 && m.buffers.any fun b =>
        decide (b.path = some d.1.path) && !(b.text.isEmpty && d.1.text.isEmpty)
    | _ => false
  | _ => false

/-- A draft that is empty, of an empty file, is no edit; nor is a draft of a file that is not open. -/
theorem applyDraft_documents {d : Draft}
    (hd : ∀ b ∈ m.buffers, b.path = some d.path → b.text = [] ∧ d.text = [])
    (ha : m.applyDraft d = some m') : m'.documents = m.documents := by
  unfold applyDraft at ha
  split at ha
  · rw [← Option.some.inj ha]
    exact documents_appendNotification m _
  · rename_i i b hl
    obtain ⟨hat, hpath, -⟩ := located_some hl
    obtain ⟨htext, hempty⟩ := hd b (List.mem_of_getElem? hat) hpath
    obtain ⟨c, hc, ha⟩ := Option.bind_eq_some_iff.mp ha
    obtain ⟨⟨m₁, r⟩, ht, rfl⟩ := Option.map_eq_some_iff.mp ha
    rw [htext, hempty] at hc
    have hid : c.isIdentity = true ∧ c.lenBefore = 0 := by
      have hbuilt : (ChangeSet.replace 0 0 0 []).map (fun c => (c.isIdentity, c.lenBefore)) =
          some (true, 0) := by decide
      rw [show ChangeSet.replace 0 0 0 [] = some c from hc] at hbuilt
      exact Prod.mk.inj (Option.some.inj hbuilt)
    obtain ⟨rfl, hsame, -⟩ := transact_versions hat (by rw [hid.2, htext]; rfl) ht
    exact hsame hid.1

theorem applyDrafts_documents {ds : List Draft}
    (hd : ∀ d ∈ ds, ∀ b ∈ m.buffers, b.path = some d.path → b.text = [] ∧ d.text = [])
    (ha : m.applyDrafts ds = some m') : m'.documents = m.documents := by
  induction ds generalizing m with
  | nil => rw [← Option.some.inj ha]
  | cons d ds ih =>
    obtain ⟨m₁, h₁, ha⟩ := Option.bind_eq_some_iff.mp ha
    have hdocs := applyDraft_documents (hd d List.mem_cons_self) h₁
    refine (ih (fun d' hd' b₁ hb₁ hp => ?_) ha).trans hdocs
    obtain ⟨b, hb, heq⟩ := List.mem_map.mp
      (show b₁.document ∈ m.documents from hdocs ▸ List.mem_map_of_mem hb₁)
    rw [← show b.text = b₁.text from congrArg Document.text heq]
    refine hd d' (List.mem_cons_of_mem _ hd') b hb ?_
    rw [← hp]
    exact congrArg Document.path heq

theorem acceptSelectedRecoveryDrafts_accounts
    (hslip : m.draftDeadline = none → m.slips .acceptSelectedRecoveryDrafts = false)
    (ha : m.acceptSelectedRecoveryDrafts = some m') : Accounts m m' := by
  have hdebounce := applyRecoveryDrafts_debounce ha
  cases hdeadline : m.draftDeadline with
  | some deadline =>
    exact accounts_waiting hdebounce (applyRecoveryDrafts_worked (P := fun _ _ => True) ha).grows
      (by rw [hdeadline]; rfl)
  | none =>
    refine accounts_of_debounce hdebounce (idles_of_documents ?_)
    unfold acceptSelectedRecoveryDrafts applyRecoveryDrafts at ha
    split at ha
    · rename_i drafts focus hlast
      refine (applyDrafts_documents (fun d hd b hb hp => ?_) ha).trans rfl
      obtain ⟨⟨d, chosen⟩, hmem, rfl⟩ := List.mem_map.mp hd
      obtain ⟨hmem, hchosen⟩ := List.mem_filter.mp hmem
      have hnone := hslip hdeadline
      rw [slips, hlast] at hnone
      have hdraft := List.any_eq_false.mp hnone _ hmem
      by_contra hne
      refine hdraft (Bool.and_eq_true_iff.mpr ⟨by simpa using hchosen, ?_⟩)
      refine List.any_eq_true.mpr ⟨b, hb, ?_⟩
      simpa [hp] using not_and_or.mp hne
    · rw [← Option.some.inj ha]
      rfl

theorem replaceAll_accounts {replacement : Text}
    (hslip : m.draftDeadline = none →
      (m.onScreen.isSome && m.find.any fun find => !find.found.isEmpty) = false)
    (hr : m.replaceAll h replacement = some m') : Accounts m m' := by
  have hdebounce := replaceAll_debounce hr
  cases hdeadline : m.draftDeadline with
  | some deadline =>
    exact accounts_waiting hdebounce (replaceAll_worked (P := fun _ _ => True) hr).grows
      (by rw [hdeadline]; rfl)
  | none =>
    have hno := hslip hdeadline
    unfold replaceAll at hr
    split at hr
    · exact Option.some.inj hr ▸ accounts_refl m
    · rename_i find hfind
      split_ifs at hr with hfound
      · exact Option.some.inj hr ▸ accounts_of_desk rfl
      · split at hr
        · exact Option.some.inj hr ▸ accounts_refl m
        · rename_i i b hon
          simp [hon, hfind, hfound] at hno

/-! ## Events -/

theorem dispatch_accounts {cmd : Command} (hd : m.dispatch h cmd = some m') : Accounts m m' := by
  obtain ⟨m₁, h₁, hs⟩ := Option.bind_eq_some_iff.mp hd
  have hdebounce : m₁.debounce = m.debounce := (dispatchInner_debounce h₁).trans rfl
  obtain ⟨⟨bs, hsource, hworks⟩, -⟩ := dispatchInner_steps (P := fun _ _ => True)
    (fun _ _ _ => trivial) (fun _ _ _ => trivial) h₁
  refine accounts_refresh (syncAll_synced hs) hdebounce fun b₁ hb₁ _ => ?_
  have hbetween : Worked True (fun _ _ => True) { m₁ with buffers := bs } m₁ := ⟨hworks, .of_eq rfl⟩
  obtain ⟨b, hb, hgrown⟩ := hbetween.grows b₁ hb₁
  cases hsource with
  | kept hsub => exact ⟨b, hsub.subset hb, hgrown⟩
  | opened he | reloaded he | saved he => cases he

theorem confirmPrompt_accounts {prompt : Prompt}
    (hslip : m.draftDeadline = none → m.slips (.confirmPrompt prompt) = false)
    (hs : m.confirmPrompt h prompt = some m') : Accounts m m' := by
  have aside : prompt.kind.Aside → Accounts m m' :=
    fun ha => accounts_of_desk (confirmPrompt_desk hs ha)
  cases hk : prompt.kind with
  | agentPrompt | terminalRun | gitCommit | lspRename | confirmCloseTerminal =>
    exact aside (by rw [hk]; trivial)
  | find =>
    simp only [confirmPrompt, hk] at hs
    split_ifs at hs
    · exact Option.some.inj hs ▸ accounts_of_worked (P := fun _ _ => True) (clearFind_debounce m)
        (clearFind_worked m)
    · have hworks := runFind_worked (T := False) (P := fun _ _ => True)
        (fun _ _ _ _ _ _ _ => trivial) hs
      have hworked : Worked False (fun _ _ => True) { m' with buffers := m.buffers } m' :=
        ⟨hworks, .of_eq rfl⟩
      exact accounts_of_debounce (runFind_debounce hs) hworked.idles
  | replace =>
    simp only [confirmPrompt, hk] at hs
    refine replaceAll_accounts (fun hnone => ?_) hs
    simpa [slips, hk] using hslip hnone
  | confirmCloseBuffer buffer =>
    simp only [confirmPrompt, hk] at hs
    exact Option.some.inj hs ▸ accounts_of_debounce (discardBuffer_debounce m buffer)
      (idles_of_subset (discardBuffer_subperm m buffer).1.subset)
  | newFile | newDir | rename | confirmDelete =>
    simp only [confirmPrompt, hk] at hs
    exact Option.some.inj hs ▸ accounts_of_still (confirmFile_debounce ..) (confirmFile_still ..)

/-- **Every event accounts for its edits**, if it neither confirms a save nor writes drafts that are
due, and does not slip. -/
theorem step_accounts {ev : Event} (hs : m.step h ev = some m')
    (hsaved : ∀ buffer version, ev ≠ .fs (.fileSaved buffer version))
    (htick : ∀ seconds, ev ≠ .tick seconds)
    (hload : ∀ buffer path text, ev = .fs (.fileLoaded buffer path (some text)) →
      m.ForBuffer buffer → m.Welcome buffer path)
    (hslip : m.draftDeadline = none → m.slips ev = false) : Accounts m m' := by
  cases ev with
  | dispatch cmd => exact dispatch_accounts hs
  | typeChar c =>
    obtain ⟨m₁, h₁, hs⟩ := Option.bind_eq_some_iff.mp hs
    have hgrows := (editActive_worked (P := fun _ _ => True) (fun _ _ _ => insert_works) h₁).grows
    exact accounts_refresh (syncAll_synced hs) ((editActive_debounce h₁).trans rfl) fun b hb _ =>
      hgrows b hb
  | confirmPrompt prompt => exact confirmPrompt_accounts hslip hs
  | openFile path =>
    exact Option.some.inj hs ▸ accounts_of_still (openFile_debounce m path) (openFile_still m path)
  | openFileAt =>
    exact Option.some.inj hs ▸ accounts_of_worked (P := fun _ _ => True)
      (openFileAt_debounce m _ _ _) (openFileAt_worked (fun _ _ _ => trivial) m _ _ _)
  | restoreSession w =>
    exact Option.some.inj hs ▸ accounts_of_still (restoreSession_debounce h m w)
      (restoreSession_still h m w)
  | acceptSelectedRecoveryDrafts => exact acceptSelectedRecoveryDrafts_accounts hslip hs
  | discardRecoveryDrafts =>
    exact Option.some.inj hs ▸ accounts_of_still (discardRecoveryDrafts_debounce h m)
      (discardRecoveryDrafts_still h m)
  | acceptCompletion item => exact acceptCompletion_accounts hs
  | acceptCodeAction action =>
    unfold step acceptCodeAction at hs
    dsimp only at hs
    split at hs
    · exact applyWorkspaceEdit_accounts hs
    · exact Option.some.inj hs ▸ accounts_of_desk rfl
  | openLspLocation location =>
    exact Option.some.inj hs ▸ accounts_of_worked (P := fun _ _ => True)
      (openLspLocation_debounce m location) (openLspLocation_worked (fun _ _ _ => trivial) m location)
  | applyTextEdits edits => exact applyTextEdits_accounts hs
  | applyWorkspaceEdit edit => exact applyWorkspaceEdit_accounts hs
  | decidePermission decision =>
    exact accounts_of_worked (P := fun _ _ => True) (decidePermission_debounce hs)
      (decidePermission_worked hs)
  | fs event =>
    exact onFsEvent_accounts hs (fun buffer version he => hsaved buffer version (by rw [he]))
      fun buffer path text he => hload buffer path text (by rw [he])
  | agent event =>
    exact accounts_of_worked (P := fun _ _ => True) (onAgentEvent_debounce hs)
      (onAgentEvent_worked hs)
  | lsp server event => exact onLspEvent_accounts hs
  | tick seconds => exact absurd rfl (htick seconds)
  | navigateProblem | openWorkspace | takeFsRequests =>
    exact Option.some.inj hs ▸ accounts_of_still rfl ⟨rfl, rfl, rfl⟩
  | setOverlays | setAgentMode | typeTerminal | setTerminalSize | pty | shutdownTerminals
  | takeAgentRequests | takePtyRequests | takeLspRequests =>
    exact accounts_of_desk (step_desk hs trivial)

end App.Model

end Termesh
