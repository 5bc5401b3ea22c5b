import Termesh.App.Confine
import Termesh.App.Sessions
import Termesh.App.Splicing
import Termesh.Lsp.Shapes

/-!
# Malformed server edits

A server's answer is parsed into edits, and what does not parse is left out before the model sees
it. So what becomes of a malformed answer is what becomes of its well-formed rest.

* `Inert`, `Barred`: edits that nothing comes of, and workspace edits that are turned away;
* `Answer.Spent`: what the answer, its request and its files have to be like for that;
* **`malformed_unchanged_iff`**: when a malformed answer changes no document.
-/

namespace Termesh

namespace App.Model

open Lsp

variable {m m' : Model}

/-- The versions of all documents, added up. -/
def versions (m : Model) : ℕ := (m.documents.map (·.version)).sum

theorem versions_set {i : ℕ} {b b' : Buffer} (hb : m.buffers[i]? = some b)
    (hv : b'.version = b.version + 1) : (m.setBuffer i b').versions = m.versions + 1 := by
  have hv : b'.document.version = b.document.version + 1 := hv
  have hsplit : ∀ (bs : List Buffer) (i : ℕ), bs[i]? = some b →
      ((bs.set i b').map fun b => b.document.version).sum =
        (bs.map fun b => b.document.version).sum + 1 := by
    intro bs
    induction bs with
    | nil => intro i h; cases h
    | cons b₀ bs ih =>
      intro i h
      cases i with
      | zero =>
        cases h
        rw [List.set_cons_zero, List.map_cons, List.map_cons, List.sum_cons, List.sum_cons, hv]
        exact Nat.add_right_comm _ _ _
      | succ i =>
        rw [List.set_cons_succ, List.map_cons, List.map_cons, List.sum_cons, List.sum_cons, ih i h]
        exact (Nat.add_assoc _ _ _).symm
  have := hsplit m.buffers i hb
  simpa [versions, documents, setBuffer, Function.comp_def] using this

/-- **An applied transaction raises a version, unless it is empty.** -/
theorem transact_versions {i : ℕ} {b : Buffer} {c : ChangeSet} {s : EditSource}
    {r : Except EditError Unit} (hb : m.buffers[i]? = some b) (hl : c.lenBefore = b.text.length)
    (h : m.transact i c s = some (m', r)) :
    r = .ok () ∧ (c.isIdentity = true → m'.documents = m.documents) ∧
      (c.isIdentity = false → m'.versions = m.versions + 1) := by
  obtain ⟨b', ha, hap⟩ := Buffer.apply_ok (b := (b.transaction c s).1)
    (t := (b.transaction c s).2) rfl hl
  have ht : m.transact i c s = some (m.setBuffer i b', .ok ()) := by
    rw [transact, hb, Option.bind_some]
    exact congrArg (Option.map _) ha
  rw [ht] at h
  cases h
  refine ⟨rfl, fun hc => ?_, fun hc => ?_⟩
  · cases hap with
    | empty => exact documents_set hb rfl
    | changed _ _ hne =>
      have : c.isIdentity = false := hne
      rw [hc] at this
      cases this
  · cases hap with
    | empty _ _ he =>
      have : c.isIdentity = true := he
      rw [hc] at this
      cases this
    | changed => exact versions_set hb rfl

theorem applyPrepared_versions {cs : List (ℕ × ChangeSet)} (hnd : (cs.map Prod.fst).Nodup)
    (hc : ∀ c ∈ cs, ∃ b, m.buffers[c.1]? = some b ∧ c.2.lenBefore = b.text.length)
    {r : Except EditError Unit} (h : m.applyPrepared cs = some (m', r)) :
    r = .ok () ∧ ((∀ c ∈ cs, c.2.isIdentity = true) → m'.documents = m.documents) ∧
      m.versions ≤ m'.versions ∧
      ((∃ c ∈ cs, c.2.isIdentity = false) → m.versions < m'.versions) := by
  induction cs generalizing m with
  | nil =>
    cases h
    simp
  | cons c cs ih =>
    obtain ⟨i, changes⟩ := c
    obtain ⟨hnot, hnd⟩ := List.nodup_cons.mp hnd
    obtain ⟨b, hb, hl⟩ := hc _ List.mem_cons_self
    rw [applyPrepared] at h
    obtain ⟨⟨m₁, r₁⟩, ht, h⟩ := Option.bind_eq_some_iff.mp h
    obtain ⟨rfl, hsame, hmore⟩ := transact_versions hb hl ht
    have hset : ∃ b₁, m₁ = m.setBuffer i b₁ := by
      obtain ⟨b₀, -, ht⟩ := Option.bind_eq_some_iff.mp ht
      obtain ⟨⟨b₁, r₁⟩, -, hx⟩ := Option.map_eq_some_iff.mp ht
      exact ⟨b₁, (Prod.mk.inj hx).1.symm⟩
    obtain ⟨b₁, rfl⟩ := hset
    have hrest : ∀ c ∈ cs, ∃ b, (m.setBuffer i b₁).buffers[c.1]? = some b ∧
        c.2.lenBefore = b.text.length := by
      intro c hm
      obtain ⟨b₂, hb₂, hl₂⟩ := hc c (List.mem_cons_of_mem _ hm)
      have hne : i ≠ c.1 := fun he => hnot (List.mem_map.2 ⟨c, hm, he.symm⟩)
      exact ⟨b₂, by rw [setBuffer, List.getElem?_set_ne hne]; exact hb₂, hl₂⟩
    obtain ⟨hr, hid, hle, hlt⟩ := ih hnd hrest h
    refine ⟨hr, fun hall => ?_, ?_, fun hex => ?_⟩
    · rw [hid fun c hm => hall c (List.mem_cons_of_mem _ hm)]
      exact hsame (hall _ List.mem_cons_self)
    · cases hi : changes.isIdentity with
      | true =>
        rw [versions, ← hsame hi]
        exact hle
      | false => rw [hmore hi] at hle; omega
    · cases hi : changes.isIdentity with
      | true =>
        obtain ⟨c, hm, hcf⟩ := hex
        rcases List.mem_cons.1 hm with rfl | hm
        · rw [hi] at hcf; cases hcf
        · have := hlt ⟨c, hm, hcf⟩
          rw [versions, hsame hi] at this
          exact this
      | false => rw [hmore hi] at hle; omega

/-! ## When an edit changes nothing -/

/-- The edits of some file clash, or the file is not open. -/
def Refuses (m : Model) (groups : List (Path × List TextEdit)) : Prop :=
  ∃ group ∈ groups, m.located group.1 = none ∨ ∃ i b, m.located group.1 = some (i, b) ∧
    Clashing (group.2.map (convertEdit b.text))

/-- Every edit replaces nothing by nothing. -/
def Blank (m : Model) (groups : List (Path × List TextEdit)) : Prop :=
  ∀ group ∈ groups, ∀ i b, m.located group.1 = some (i, b) →
    ∀ e ∈ group.2, (convertEdit b.text e).IsBlank

/-- **A workspace edit is refused as a whole, or prepared for every file.** -/
theorem prepareEdits_cases {groups : List (Path × List TextEdit)}
    {r : Except String (List (ℕ × ChangeSet))} (h : m.prepareEdits groups = some r) :
    ((∃ message, r = .error message) ∧ m.Refuses groups) ∨
      ∃ cs, r = .ok cs ∧ ¬m.Refuses groups ∧
        ((∀ c ∈ cs, c.2.isIdentity = true) ↔ m.Blank groups) := by
  induction groups generalizing r with
  | nil =>
    cases h
    exact .inr ⟨[], rfl, by simp [Refuses], by simp [Blank]⟩
  | cons group groups ih =>
    obtain ⟨path, edits⟩ := group
    rw [prepareEdits] at h
    split at h
    · cases h
      exact .inl ⟨⟨_, rfl⟩, _, List.mem_cons_self, .inl ‹_›⟩
    · rename_i i b hl
      obtain ⟨built, hb, h⟩ := Option.bind_eq_some_iff.mp h
      cases built with
      | error message =>
        cases h
        exact .inl ⟨⟨_, rfl⟩, _, List.mem_cons_self, .inr ⟨i, b, hl, clashing_of_build hb⟩⟩
      | ok changes =>
        obtain ⟨rest, hrest, rfl⟩ := Option.map_eq_some_iff.mp h
        obtain ⟨hnot, hid⟩ := isIdentity_of_build hb
        rcases ih hrest with ⟨⟨message, rfl⟩, hr⟩ | ⟨cs, rfl, hr, hblank⟩
        · obtain ⟨group, hm, hg⟩ := hr
          exact .inl ⟨⟨message, rfl⟩, group, List.mem_cons_of_mem _ hm, hg⟩
        · refine .inr ⟨(i, changes) :: cs, rfl, ?_, ?_⟩
          · rintro ⟨group, hm, hg⟩
            rcases List.mem_cons.1 hm with rfl | hm
            · rcases hg with hg | ⟨i', b', hl', hclash⟩
              · rw [hl] at hg; cases hg
              · obtain ⟨rfl, rfl⟩ := Prod.mk.inj (Option.some.inj (hl.symm.trans hl'))
                exact hnot hclash
            · exact hr ⟨group, hm, hg⟩
          · rw [List.forall_mem_cons, hblank]
            unfold Blank
            rw [List.forall_mem_cons, hid]
            refine and_congr_left fun _ => ⟨fun hall i' b' hl' => ?_, fun hall => hall i b hl⟩
            obtain ⟨rfl, rfl⟩ := Prod.mk.inj (Option.some.inj (hl.symm.trans hl'))
            exact hall

/-- Nothing comes of the edits: one of their files is not open, the edits of a file clash, or every
edit replaces nothing by nothing. -/
inductive Inert (m : Model) (edits : List TextEdit) : Prop
  | closed {e : TextEdit} (he : e ∈ edits) (hl : m.located e.path = none)
  | clashing {e : TextEdit} {i : ℕ} {b : Buffer} (he : e ∈ edits)
      (hl : m.located e.path = some (i, b))
      (hc : Clashing ((edits.filter (·.path = e.path)).map (convertEdit b.text)))
  | blank (hb : ∀ e ∈ edits, ∀ i b, m.located e.path = some (i, b) →
      (convertEdit b.text e).IsBlank)

theorem Inert.congr {edits : List TextEdit} (hi : m.Inert edits)
    (hl : ∀ path, m'.located path = m.located path) : m'.Inert edits := by
  cases hi with
  | closed he hnone => exact .closed he ((hl _).trans hnone)
  | clashing he hsome hc => exact .clashing he ((hl _).trans hsome) hc
  | blank hb => exact .blank fun e he i b hsome => hb e he i b ((hl _).symm.trans hsome)

theorem inert_congr {edits : List TextEdit} (hl : ∀ path, m'.located path = m.located path) :
    m'.Inert edits ↔ m.Inert edits :=
  ⟨fun hi => hi.congr fun path => (hl path).symm, fun hi => hi.congr hl⟩

theorem mem_groupEdits {edits : List TextEdit} {group : Path × List TextEdit} :
    group ∈ groupEdits edits ↔
      ∃ e ∈ edits, group = (e.path, edits.filter (·.path = e.path)) := by
  rw [groupEdits, List.mem_map]
  constructor
  · rintro ⟨path, hpath, rfl⟩
    obtain ⟨e, he, rfl⟩ := List.mem_map.mp (mem_sortPaths.mp hpath)
    exact ⟨e, he, rfl⟩
  · rintro ⟨e, he, rfl⟩
    exact ⟨e.path, mem_sortPaths.mpr (List.mem_map_of_mem he), rfl⟩

/-- **Edits nothing comes of**, file by file. -/
theorem inert_iff {edits : List TextEdit} :
    m.Inert edits ↔ m.Refuses (groupEdits edits) ∨ m.Blank (groupEdits edits) := by
  constructor
  · intro hs
    cases hs with
    | closed he hl => exact .inl ⟨_, mem_groupEdits.mpr ⟨_, he, rfl⟩, .inl hl⟩
    | clashing he hl hc => exact .inl ⟨_, mem_groupEdits.mpr ⟨_, he, rfl⟩, .inr ⟨_, _, hl, hc⟩⟩
    | blank hb =>
      refine .inr fun group hgroup i b hl e he => ?_
      obtain ⟨e', -, rfl⟩ := mem_groupEdits.mp hgroup
      obtain ⟨he, hpath⟩ := List.mem_filter.mp he
      refine hb e he i b ?_
      rw [of_decide_eq_true hpath]
      exact hl
  · rintro (⟨group, hgroup, hg⟩ | hb)
    · obtain ⟨e, he, rfl⟩ := mem_groupEdits.mp hgroup
      rcases hg with hl | ⟨i, b, hl, hc⟩
      · exact .closed he hl
      · exact .clashing he hl hc
    · refine .blank fun e he i b hl => hb _ (mem_groupEdits.mpr ⟨e, he, rfl⟩) i b hl e ?_
      exact List.mem_filter.mpr ⟨he, decide_eq_true rfl⟩

theorem inert_single_iff {edits : List TextEdit} {path : Path} (hne : edits ≠ [])
    (hp : ∀ e ∈ edits, e.path = path) :
    m.Inert edits ↔ m.Refuses [(path, edits)] ∨ m.Blank [(path, edits)] := by
  have hgroups : ∀ group, group ∈ groupEdits edits ↔ group ∈ [(path, edits)] := by
    intro group
    have hall : edits.filter (fun e => decide (e.path = path)) = edits :=
      List.filter_eq_self.mpr fun e he => decide_eq_true (hp e he)
    rw [mem_groupEdits, List.mem_singleton]
    constructor
    · rintro ⟨e, he, rfl⟩
      rw [hp e he, hall]
    · rintro rfl
      obtain ⟨e, he⟩ := List.exists_mem_of_ne_nil _ hne
      exact ⟨e, he, by rw [hp e he, hall]⟩
  rw [inert_iff, Refuses, Refuses, Blank, Blank]
  simp only [hgroups]

theorem applyTextEdits_iff {h : Host} {edits : List TextEdit} {path : Path}
    (hp : ∀ e ∈ edits, e.path = path) (ha : m.applyTextEdits h edits = some m') :
    m'.documents = m.documents ↔ m.Inert edits := by
  cases edits with
  | nil =>
    cases ha
    exact iff_of_true rfl (.blank fun e he => nomatch he)
  | cons e es =>
    have he : e.path = path := hp e List.mem_cons_self
    have hany : ((e :: es).any fun e' => e'.path ≠ e.path) = false := by
      rw [List.any_eq_false]
      intro e' hm
      simp [hp e' hm, he]
    unfold applyTextEdits at ha
    dsimp only at ha
    rw [if_neg (by rw [hany]; simp), he] at ha
    rw [inert_single_iff (List.cons_ne_nil _ _) hp]
    have hone : ∀ i b changes, m.located path = some (i, b) →
        buildLspChanges b (e :: es) = some (.ok changes) →
        (m.Refuses [(path, e :: es)] ∨ m.Blank [(path, e :: es)] ↔ changes.isIdentity = true) := by
      intro i b changes hl hb
      obtain ⟨hnot, hid⟩ := isIdentity_of_build hb
      rw [hid]
      constructor
      · rintro (⟨group, hm, hg⟩ | hblank)
        · obtain rfl := List.mem_singleton.1 hm
          rcases hg with hg | ⟨i', b', hl', hclash⟩
          · rw [hl] at hg; cases hg
          · obtain ⟨rfl, rfl⟩ := Prod.mk.inj (Option.some.inj (hl.symm.trans hl'))
            exact absurd hclash hnot
        · exact hblank _ (List.mem_singleton_self _) i b hl
      · refine fun hall => .inr fun group hm i' b' hl' => ?_
        obtain rfl := List.mem_singleton.1 hm
        obtain ⟨rfl, rfl⟩ := Prod.mk.inj (Option.some.inj (hl.symm.trans hl'))
        exact hall
    split at ha
    · rename_i hl
      cases ha
      exact iff_of_true rfl (.inl ⟨_, List.mem_singleton_self _, .inl hl⟩)
    · rename_i i b hl
      obtain ⟨built, hb, ha⟩ := Option.bind_eq_some_iff.mp ha
      cases built with
      | error message =>
        cases ha
        exact iff_of_true rfl
          (.inl ⟨_, List.mem_singleton_self _, .inr ⟨i, b, hl, clashing_of_build hb⟩⟩)
      | ok changes =>
        obtain ⟨⟨m₁, r⟩, ht, ha⟩ := Option.bind_eq_some_iff.mp ha
        obtain ⟨rfl, hsame, hmore⟩ :=
          transact_versions (located_some hl).1 (lenBefore_of_buildLspChanges hb) ht
        have hdocs : m'.documents = m₁.documents := syncAll_documents ha
        rw [hdocs, hone i b changes hl hb]
        refine ⟨fun hd => ?_, hsame⟩
        by_contra hne
        have hv := hmore (by simpa using hne)
        rw [versions, hd] at hv
        exact absurd hv (by rw [versions]; omega)

/-- Finishing an edit whose files are all there. -/
theorem finish_iff {h : Host} {pending : PendingWorkspaceEdit}
    (hp : m.pendingWorkspaceEdit = some pending) (hw : pending.waiting = [])
    (hf : m.finishPendingWorkspaceEdit h = some m') :
    m'.documents = m.documents ↔ m.Inert pending.edit.edits := by
  rw [inert_iff]
  unfold finishPendingWorkspaceEdit at hf
  rw [hp] at hf
  dsimp only at hf
  rw [if_neg (by simp [hw])] at hf
  obtain ⟨r, hprep, hf⟩ := Option.bind_eq_some_iff.mp hf
  rcases prepareEdits_cases hprep with ⟨⟨message, rfl⟩, hr⟩ | ⟨cs, rfl, hr, hblank⟩
  · cases hf
    have hdocs := documents_of_buffers (restoreActiveBuffer_still
      { m with pendingWorkspaceEdit := none } pending.previousActive).1
    exact ⟨fun _ => .inl hr, fun _ => hdocs⟩
  · obtain ⟨⟨m₁, r⟩, happly, hf⟩ := Option.bind_eq_some_iff.mp hf
    obtain ⟨hnd, hc⟩ := prepareEdits_ok hprep (nodup_groupEdits _)
    obtain ⟨rfl, hsame, -, hmore⟩ := applyPrepared_versions hnd
      (fun c hm => by
        obtain ⟨path, -, b, hl, hlen⟩ := hc c hm
        exact ⟨b, (located_some hl).1, hlen⟩) happly
    obtain ⟨m₂, hs, rfl⟩ := Option.map_eq_some_iff.mp hf
    have hdocs : m₂.documents = m₁.documents :=
      (syncAll_documents hs).trans
        (documents_of_buffers (restoreActiveBuffer_still m₁ pending.previousActive).1)
    show m₂.documents = m.documents ↔ _
    rw [hdocs]
    constructor
    · intro hd
      refine .inr (hblank.1 fun c hm => ?_)
      by_contra hne
      have hv := hmore ⟨c, hm, by simpa using hne⟩
      rw [versions, versions, hd] at hv
      exact absurd hv (lt_irrefl _)
    · rintro (hr' | hb)
      · exact absurd hr' hr
      · exact hsame (hblank.2 hb)

theorem queueTargets_nil {paths : List Path} :
    ((m.queueTargets paths).2 = [] → ∀ path ∈ paths, (m.indexOf path).isSome) ∧
      ((∀ path ∈ paths, (m.indexOf path).isSome) → m.queueTargets paths = (m, [])) := by
  induction paths with
  | nil => exact ⟨by simp, fun _ => rfl⟩
  | cons path paths ih =>
    rw [queueTargets]
    by_cases hopen : (m.indexOf path).isSome
    · rw [if_pos hopen]
      refine ⟨fun h p hp => ?_, fun h => ih.2 fun p hp => h p (List.mem_cons_of_mem _ hp)⟩
      rcases List.mem_cons.1 hp with rfl | hp
      · exact hopen
      · exact ih.1 h p hp
    · rw [if_neg hopen]
      refine ⟨fun h => ?_, fun h => absurd (h path List.mem_cons_self) hopen⟩
      split at h <;> cases h

/-- The version the server that claims a path knows of it. -/
def known (m : Model) (path : Path) : Option ℕ :=
  ((m.lsp.serverFor path).bind m.lsp.session).bind (·.openDocs.lookup path)

/-- What a workspace edit is turned away for, before its files are looked at. -/
inductive Barred (m : Model) (edit : WorkspaceEdit) : Prop
  | busy (hp : m.pendingWorkspaceEdit.isSome)
  | empty (hn : edit.edits = [])
  | rootless (hr : m.root = none)
  | outside {root : Path} {e : TextEdit} (hr : m.root = some root) (he : e ∈ edit.edits)
      (hout : e.path.startsWith root = false)
  | version {path : Path} {version : ℕ} (hv : (path, version) ∈ edit.versions)
      (hk : m.known path ≠ some version)

theorem Barred.congr {edit edit' : WorkspaceEdit} (hb : m.Barred edit)
    (he : edit.edits = edit'.edits) (hv : ∀ v, v ∈ edit.versions ↔ v ∈ edit'.versions)
    (hr : m'.root = m.root) (hp : m'.pendingWorkspaceEdit = m.pendingWorkspaceEdit)
    (hk : ∀ path, m'.known path = m.known path) : m'.Barred edit' := by
  cases hb with
  | busy hsome => exact .busy (hp ▸ hsome)
  | empty hn => exact .empty (he ▸ hn)
  | rootless hnone => exact .rootless (hr.trans hnone)
  | outside hroot hmem hout => exact .outside (hr.trans hroot) (he ▸ hmem) hout
  | version hmem hne => exact .version ((hv _).mp hmem) ((hk _).symm ▸ hne)

theorem mem_sortPaths_edits {edits : List TextEdit} {p : Path} :
    p ∈ sortPaths (edits.map (·.path)) ↔ ∃ e ∈ edits, e.path = p := by
  rw [mem_sortPaths, List.mem_map]

theorem inert_of_unopened {edits : List TextEdit}
    (hn : ¬∀ path ∈ sortPaths (edits.map (·.path)), (m.indexOf path).isSome) : m.Inert edits := by
  push Not at hn
  obtain ⟨path, hpath, hnone⟩ := hn
  obtain ⟨e, he, rfl⟩ := mem_sortPaths_edits.mp hpath
  have hclosed : m.indexOf e.path = none := Option.not_isSome_iff_eq_none.mp hnone
  refine .closed he ?_
  rw [located, hclosed, Option.bind_none]

theorem applyWorkspaceEdit_iff {h : Host} {edit : WorkspaceEdit}
    (ha : m.applyWorkspaceEdit h edit = some m') :
    m'.documents = m.documents ↔ m.Barred edit ∨ m.Inert edit.edits := by
  unfold applyWorkspaceEdit at ha
  split_ifs at ha with hpend hnil
  · cases ha
    exact iff_of_true rfl (.inl (.busy hpend))
  · cases ha
    exact iff_of_true rfl (.inl (.empty hnil))
  · split at ha
    · rename_i hroot
      cases ha
      exact iff_of_true rfl (.inl (.rootless hroot))
    · rename_i root hroot
      dsimp only at ha
      split at ha
      · rename_i path hout
        cases ha
        obtain ⟨e, he, rfl⟩ := mem_sortPaths_edits.1 (List.mem_of_find?_eq_some hout)
        exact iff_of_true rfl (.inl (.outside hroot he (by simpa using List.find?_some hout)))
      · split at ha
        · rename_i v hv
          cases ha
          refine iff_of_true rfl (.inl (.version (List.mem_of_find?_eq_some hv) ?_))
          have hne := List.find?_some hv
          exact of_decide_eq_true hne
        · rename_i hin _ hver
          have hpass : ¬m.Barred edit := by
            intro hb
            cases hb with
            | busy hsome => exact hpend hsome
            | empty hn => exact hnil hn
            | rootless hnone =>
              rw [hroot] at hnone
              cases hnone
            | outside hr he hout =>
              obtain rfl := Option.some.inj (hroot.symm.trans hr)
              have := List.find?_eq_none.1 hin _ (mem_sortPaths_edits.2 ⟨_, he, rfl⟩)
              rw [hout] at this
              exact this rfl
            | version hmem hne =>
              exact List.find?_eq_none.1 hver _ hmem (decide_eq_true hne)
          rw [or_iff_right hpass]
          by_cases hopen : ∀ path ∈ sortPaths (edit.edits.map (·.path)), (m.indexOf path).isSome
          · rw [queueTargets_nil.2 hopen] at ha
            have hiff := finish_iff
              (m := { m with pendingWorkspaceEdit := some ⟨edit, [], m.active.map (·.id)⟩ })
              rfl rfl ha
            exact hiff.trans (inert_congr fun _ => rfl)
          · have hwait : (m.queueTargets (sortPaths (edit.edits.map (·.path)))).2 ≠ [] :=
              fun hn => hopen (queueTargets_nil.1 hn)
            have hdocs := documents_of_buffers
              (queueTargets_still m (sortPaths (edit.edits.map (·.path)))).1
            unfold finishPendingWorkspaceEdit at ha
            dsimp only at ha
            rw [if_pos hwait] at ha
            cases ha
            exact iff_of_true hdocs (inert_of_unopened hopen)

/-! ## Answers of a server -/

/-- An answer that carries edits, at the moment the model turns to it. -/
inductive Answer where
  /-- The answer to `textDocument/formatting` for a document. -/
  | formatting (server : LspServerId) (id : LspRequestId) (path : Path) (v : Value)
  /-- The answer to `textDocument/rename`. -/
  | rename (server : LspServerId) (id : LspRequestId) (v : Value)
  /-- An accepted code action. -/
  | codeAction (v : Value)
  /-- The pending edit of a rename or a code action, once its files are loaded. -/
  | loaded (v : Value) (waiting : List (BufferId × Path)) (previousActive : Option BufferId)

/-- The model turns to the answer. -/
def Answer.handle (h : Host) (m : Model) : Answer → Option Model
  | .formatting server id path v => m.onLspEvent h server (.formatting id (textEdits v path))
  | .rename server id v => m.onLspEvent h server (.rename id (workspaceEdit v))
  | .codeAction v =>
    match Lsp.codeAction v with
    | none => some m
    | some action => m.acceptCodeAction h action
  | .loaded v waiting previousActive =>
    { m with pendingWorkspaceEdit := some ⟨workspaceEdit v, waiting, previousActive⟩ }
      |>.finishPendingWorkspaceEdit h

/-- Some part of the answer is malformed. -/
def Answer.Malformed : Answer → Prop
  | .formatting _ _ _ v => BadEdits v
  | .rename _ _ v | .loaded v _ _ => BadWorkspaceEdit v
  | .codeAction v => ∃ edit, v.get "edit" = some edit ∧ BadWorkspaceEdit edit

/-- Whether the newest request of a kind has this id. -/
def newest (m : Model) (server : LspServerId) (kind : LspCall) (id : LspRequestId) : Bool :=
  (m.lsp.session server).bind (·.active.lookup kind) = some id

/-- Nothing comes of what is left of the answer without its malformed parts: a newer request has
taken the place of its request, the rest is turned away, or its edits leave the documents as they
are. -/
def Answer.Spent (m : Model) : Answer → Prop
  | .formatting server id path v =>
    m.newest server .formatting id = false ∨ ∃ edits, Leaves (slotsOf path v) edits ∧ m.Inert edits
  | .rename server id v =>
    m.newest server .rename id = false ∨
      ∃ edit, Spells v edit ∧ (m.Barred edit ∨ m.Inert edit.edits)
  | .codeAction v => v.getStr "title" = none ∨ v.get "edit" = none ∨
      ∃ carried edit, v.get "edit" = some carried ∧ Spells carried edit ∧
        (m.Barred edit ∨ m.Inert edit.edits)
  | .loaded v waiting _ => waiting ≠ [] ∨ ∃ edit, Spells v edit ∧ m.Inert edit.edits

theorem path_textEdits {v : Value} {path : Path} : ∀ e ∈ textEdits v path, e.path = path := by
  intro e he
  obtain ⟨edit, -, hedit⟩ := List.mem_filterMap.1 he
  simp only [textEdit, Option.bind_eq_some_iff, Option.map_eq_some_iff] at hedit
  obtain ⟨range, -, text, -, rfl⟩ := hedit
  rfl

theorem known_setSession (hservers : (m.lsp.sessions.map (·.server)).Nodup)
    {s s' : LspSessionState} (hs : s ∈ m.lsp.sessions) (hserver : s'.server = s.server)
    (hext : s'.extensions = s.extensions) (hopen : s'.openDocs = s.openDocs) (path : Path) :
    ({ m with lsp := m.lsp.setSession s' } : Model).known path = m.known path := by
  have hsession := LspState.session_of_mem hservers hs
  unfold known
  dsimp only
  rw [LspState.serverFor_setSession hservers hs hserver hext]
  cases m.lsp.serverFor path with
  | none => rfl
  | some owner =>
    rw [Option.bind_some, Option.bind_some, LspState.session_setSession hsession hserver]
    split_ifs with howner
    · rw [howner, hsession, Option.bind_some, Option.bind_some, hopen]
    · rfl

theorem known_takeCall {server : LspServerId} {s : LspSessionState} {kind : LspCall}
    {id : LspRequestId} {m₁ : Model} (hservers : (m.lsp.sessions.map (·.server)).Nodup)
    (hs : m.lsp.session server = some s) (ht : m.takeCall s kind id = some m₁) (path : Path) :
    m₁.known path = m.known path := by
  unfold takeCall at ht
  split_ifs at ht
  obtain rfl := Option.some.inj ht
  refine known_setSession hservers (session_spec hs).1 ?_ ?_ ?_ path <;> rfl

/-- An answer to the newest request of its kind is acted upon, and any other one is dropped. -/
theorem answer_cases {h : Host} {server : LspServerId} (kind : LspCall) (id : LspRequestId)
    {event : LspEvent} (act : Model → Option Model)
    (he : ∀ s, m.lsp.session server = some s →
      m.onLspEvent h server event = (m.takeCall s kind id).elim (some m) act)
    (hr : m.onLspEvent h server event = some m') :
    (m.newest server kind id = false ∧ m' = m) ∨
      m.newest server kind id = true ∧ ∃ s m₁, m.lsp.session server = some s ∧
        m.takeCall s kind id = some m₁ ∧ act m₁ = some m' := by
  cases hs : m.lsp.session server with
  | none =>
    refine .inl ⟨?_, ?_⟩
    · rw [newest, hs, Option.bind_none]
      rfl
    · unfold onLspEvent at hr
      rw [hs] at hr
      exact (Option.some.inj hr).symm
  | some s =>
    rw [he s hs] at hr
    rw [newest, hs, Option.bind_some]
    cases ht : m.takeCall s kind id with
    | none =>
      rw [ht] at hr
      refine .inl ⟨decide_eq_false fun hactive => ?_, (Option.some.inj hr).symm⟩
      rw [takeCall, if_pos hactive] at ht
      cases ht
    | some m₁ =>
      rw [ht] at hr
      refine .inr ⟨decide_eq_true ?_, s, m₁, rfl, ht, hr⟩
      by_contra hactive
      rw [takeCall, if_neg hactive] at ht
      cases ht

theorem formatting_cases {h : Host} {server : LspServerId} {id : LspRequestId}
    {edits : List TextEdit} (hr : m.onLspEvent h server (.formatting id edits) = some m') :
    (m.newest server .formatting id = false ∧ m' = m) ∨
      m.newest server .formatting id = true ∧ ∃ s m₁, m.lsp.session server = some s ∧
        m.takeCall s .formatting id = some m₁ ∧ m₁.applyTextEdits h edits = some m' := by
  refine answer_cases .formatting id (fun m => m.applyTextEdits h edits) (fun s hs => ?_) hr
  unfold onLspEvent
  rw [hs]
  cases ht : m.takeCall s .formatting id <;> simp only [ht, Option.elim]

theorem rename_cases {h : Host} {server : LspServerId} {id : LspRequestId} {edit : WorkspaceEdit}
    (hr : m.onLspEvent h server (.rename id edit) = some m') :
    (m.newest server .rename id = false ∧ m' = m) ∨
      m.newest server .rename id = true ∧ ∃ s m₁, m.lsp.session server = some s ∧
        m.takeCall s .rename id = some m₁ ∧ m₁.applyWorkspaceEdit h edit = some m' := by
  refine answer_cases .rename id (fun m => m.applyWorkspaceEdit h edit) (fun s hs => ?_) hr
  unfold onLspEvent
  rw [hs]
  cases ht : m.takeCall s .rename id <;> simp only [ht, Option.elim]

theorem exists_spells_iff {v : Value} {P : WorkspaceEdit → Prop}
    (hP : ∀ edit edit', edit.edits = edit'.edits →
      (∀ d, d ∈ edit.versions ↔ d ∈ edit'.versions) → P edit → P edit') :
    (∃ edit, Spells v edit ∧ P edit) ↔ P (workspaceEdit v) :=
  ⟨fun ⟨_, hs, h⟩ => hP _ _ hs.edits_eq (fun _ => hs.mem_versions) h,
    fun h => ⟨_, spells_workspaceEdit v, h⟩⟩

theorem spent_edit_iff {v : Value} :
    (∃ edit, Spells v edit ∧ (m.Barred edit ∨ m.Inert edit.edits)) ↔
      m.Barred (workspaceEdit v) ∨ m.Inert (workspaceEdit v).edits :=
  exists_spells_iff fun _ _ he hv hP =>
    hP.imp (fun hb => hb.congr he hv rfl rfl fun _ => rfl) fun hs => he ▸ hs

/-- **An answer changes no document exactly when nothing comes of what is left of it.** -/
theorem documents_handle_iff {h : Host} {a : Answer}
    (hservers : (m.lsp.sessions.map (·.server)).Nodup) (hr : a.handle h m = some m') :
    m'.documents = m.documents ↔ a.Spent m := by
  cases a with
  | formatting server id path v =>
    have hleft : (∃ edits, Leaves (slotsOf path v) edits ∧ m.Inert edits) ↔
        m.Inert (textEdits v path) := by
      simp only [leaves_textEdits, exists_eq_left]
    obtain ⟨hold, rfl⟩ | ⟨hnew, s, m₁, hs, ht, ha⟩ := formatting_cases hr
    · exact iff_of_true rfl (.inl hold)
    · have hiff := applyTextEdits_iff path_textEdits ha
      unfold takeCall at ht
      split_ifs at ht
      obtain rfl := Option.some.inj ht
      refine hiff.trans (Iff.trans ?_ (or_iff_right fun hold => ?_).symm)
      · rw [hleft]
        exact inert_congr fun _ => rfl
      · rw [hnew] at hold
        cases hold
  | rename server id v =>
    obtain ⟨hold, rfl⟩ | ⟨hnew, s, m₁, hs, ht, ha⟩ := rename_cases hr
    · exact iff_of_true rfl (.inl hold)
    · have hiff := applyWorkspaceEdit_iff ha
      have hknown := known_takeCall hservers hs ht
      unfold takeCall at ht
      split_ifs at ht
      obtain rfl := Option.some.inj ht
      refine hiff.trans (Iff.trans ?_ (or_iff_right fun hold => ?_).symm)
      · rw [spent_edit_iff]
        refine or_congr ⟨fun hb => ?_, fun hb => ?_⟩ (inert_congr fun _ => rfl)
        · exact hb.congr rfl (fun _ => Iff.rfl) rfl rfl fun path => (hknown path).symm
        · exact hb.congr rfl (fun _ => Iff.rfl) rfl rfl hknown
      · rw [hnew] at hold
        cases hold
  | codeAction v =>
    unfold Answer.handle Lsp.codeAction at hr
    dsimp only at hr
    cases htitle : v.getStr "title" with
    | none =>
      rw [htitle] at hr
      cases hr
      exact iff_of_true rfl (.inl htitle)
    | some title =>
      rw [htitle] at hr
      simp only [Option.map_some, acceptCodeAction] at hr
      cases hedit : v.get "edit" with
      | none =>
        rw [hedit] at hr
        cases hr
        exact iff_of_true rfl (.inr (.inl hedit))
      | some carried =>
        rw [hedit] at hr
        rw [applyWorkspaceEdit_iff hr, ← spent_edit_iff]
        simp [Answer.Spent, htitle, hedit]
  | loaded v waiting previousActive =>
    have hleft : (∃ edit, Spells v edit ∧ m.Inert edit.edits) ↔ m.Inert (workspaceEdit v).edits :=
      exists_spells_iff fun _ _ he _ hs => he ▸ hs
    by_cases hw : waiting = []
    · have hiff := finish_iff
        (m := { m with pendingWorkspaceEdit := some ⟨workspaceEdit v, waiting, previousActive⟩ })
        rfl hw hr
      refine hiff.trans (Iff.trans ?_ (or_iff_right (not_not.mpr hw)).symm)
      rw [hleft]
      exact inert_congr fun _ => rfl
    · unfold Answer.handle finishPendingWorkspaceEdit at hr
      dsimp only at hr
      rw [if_pos hw] at hr
      cases hr
      exact iff_of_true rfl (.inl hw)

/-- **A malformed answer changes no document exactly when nothing comes of what is left of it.** -/
theorem malformed_unchanged_iff (h : Host) (m m' : Model) (a : Answer)
    (hservers : (m.lsp.sessions.map (·.server)).Nodup) (hr : a.handle h m = some m') :
    (a.Malformed → m'.documents = m.documents) ↔ (a.Malformed → a.Spent m) := by
  rw [documents_handle_iff hservers hr]

/-- A workspace with one file open. -/
def noteByItself : Model where
  root := some [.rootDir, .normal "w"]
  buffers := [Buffer.fromText ⟨1⟩ (some [.rootDir, .normal "w", .normal "n.md"]) ['a', 'b']]
  activeBuffer := some 0
  nextBufferId := 1

/-- A text edit at the start of the document, and one that lacks its text. -/
def insertion : Value :=
  .object [("newText", .string "x"), ("range", rangeJson ⟨⟨0, 0⟩, ⟨0, 0⟩⟩)]

def torn : Value := .object [("range", rangeJson ⟨⟨0, 1⟩, ⟨0, 1⟩⟩)]

/-- A code action that edits the open file. -/
def actionOf (edits : List Value) : Value :=
  .object [("edit", .object [("changes", .object [("file:///w/n.md", .array edits)])]),
    ("title", .string "Rename n")]

theorem torn_spells_nothing (e : TextEdit) : ¬SpellsEdit torn e := fun he => by
  obtain ⟨s, hs, -⟩ := he.newText
  cases hs

theorem malformed_actionOf (edits : List Value) (h : torn ∈ edits) :
    (Answer.codeAction (actionOf edits)).Malformed :=
  ⟨_, rfl, .inl ⟨_, List.mem_singleton.2 rfl, .inr ⟨torn, h, torn_spells_nothing⟩⟩⟩

/-- The model once it has turned to the action. -/
def tornAlone : Model :=
  ((Answer.codeAction (actionOf [torn])).handle Host.plain noteByItself).get (by decide)

def tornHalf : Model :=
  ((Answer.codeAction (actionOf [insertion, torn])).handle Host.plain noteByItself).get (by decide)

theorem malformed_unchanged_torn : tornAlone.documents = noteByItself.documents :=
  (malformed_unchanged_iff Host.plain noteByItself tornAlone (.codeAction (actionOf [torn]))
    List.nodup_nil (Option.some_get _).symm).2
    (fun _ => .inr (.inr ⟨_, ⟨[], []⟩, rfl,
      ⟨.lost (.inr torn_spells_nothing) .nil, fun _ _ => ⟨fun hv => (nomatch hv), fun hd => by
        obtain ⟨change, hchange, -⟩ := hd
        cases hchange⟩⟩, .inl (.empty rfl)⟩))
    (malformed_actionOf [torn] (by simp))

/-- **Half of an edit is applied**: the edit without a text is left out, and the other one goes in. -/
theorem half_applied :
    (Answer.codeAction (actionOf [insertion, torn])).Malformed ∧
      (Answer.codeAction (actionOf [insertion, torn])).handle Host.plain noteByItself = some tornHalf ∧
      noteByItself.documents.map (·.text) = [['a', 'b']] ∧
      tornHalf.documents.map (·.text) = [['x', 'a', 'b']] :=
  ⟨malformed_actionOf _ (by simp), (Option.some_get _).symm, rfl, by decide⟩

end App.Model

end Termesh
