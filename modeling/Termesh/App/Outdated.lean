import Termesh.App.Accepting
import Termesh.App.Declared
import Termesh.App.Replaced

/-!
# Results for a text that has changed

A server computes an edit for the text it knows. A `Docket` follows the model along a run, and
remembers of every request which documents the server knew when it was sent and which of them have
changed since; so it can tell, when a result is handled or accepted, whether it is outdated. Nothing
compares the texts then: such a result is stopped by a newer request of its kind, by the versions it
declares, or by something else that is wrong with it.

* `Model.Void`, **`Lands.pages_iff`**: edits that leave every text as it is;
* **`applyTextEdits_kept_iff`**, **`applyWorkspaceEdit_kept_iff`**: when applying edits changes no
  text and leaves nothing to be applied later;
* `Model.Unapplied`, `Model.Declined`: edits and workspace edits that are stopped;
* `Docket`, `Docket.outdated`: the requests sent, and the results that come too late;
* **`outdated_results_kept`**: runs in which every outdated result is stopped;
* **`formatted_outdated`**: a document is typed into while the server formats it.
-/

namespace Termesh

namespace App

namespace Model

open Lsp

variable {h : Host} {m m' m₁ : Model}

/-! ## Edits without an effect -/

/-- The edits of some file are refused, or those of every file are spliced in without an effect. -/
def Void (m : Model) (groups : List (Path × List TextEdit)) : Prop :=
  m.Refuses groups ∨ ∀ group ∈ groups, ∀ i b, m.located group.1 = some (i, b) →
    spliced (group.2.map (convertEdit b.text)) b.text = b.text

theorem pages_getElem? (m : Model) (i : ℕ) :
    m.pages[i]? = (m.docs[i]?).map fun b => (b.path, b.text) := by
  rw [pages, docs, List.getElem?_map, List.getElem?_map, Option.map_map]
  rfl

theorem pages_of_docs (hd : m'.docs = m.docs) : m'.pages = m.pages := by
  refine List.ext_getElem? fun i => ?_
  rw [pages_getElem?, pages_getElem?, hd]

theorem page_of_apply {b b' : Buffer} {changes : ChangeSet} (hlen : changes.lenBefore = b.text.length)
    (ha : (b.transaction changes .lsp).1.apply (b.transaction changes .lsp).2 =
      some (b', .ok ())) : b'.path = b.path ∧ b'.text = changes.apply b.text := by
  cases Buffer.applied_of_apply ha with
  | empty _ _ hid =>
    exact ⟨rfl, (changes.apply_of_isIdentity hid b.text hlen.symm).symm⟩
  | changed => exact ⟨rfl, rfl⟩

/-- **An edit that lands** leaves the texts as they are when its parts do. -/
theorem Lands.pages_iff {edit : WorkspaceEdit} (hl : Lands edit m m') :
    m'.pages = m.pages ↔ ∀ group ∈ groupEdits edit.edits, ∀ i b, m.located group.1 = some (i, b) →
      spliced (group.2.map (convertEdit b.text)) b.text = b.text := by
  have hreceived : ∀ group ∈ groupEdits edit.edits, ∀ i b, m.located group.1 = some (i, b) →
      m'.pages[i]? = some (b.path, spliced (group.2.map (convertEdit b.text)) b.text) := by
    intro group hgroup i b hloc
    obtain ⟨i', b', changes, b'', hloc', hbuilt, happly, hget⟩ := hl.targets group hgroup
    obtain ⟨rfl, rfl⟩ := Prod.mk.inj (Option.some.inj (hloc'.symm.trans hloc))
    obtain ⟨-, hlen, hspliced⟩ := spliced_of_build hbuilt
    obtain ⟨hpath, htext⟩ := page_of_apply hlen happly
    rw [pages_getElem?, hget, Option.map_some, Buffer.bare_path, Buffer.bare_text, hpath, htext,
      hspliced]
  have hbefore : ∀ {path : Path} {i : ℕ} {b : Buffer}, m.located path = some (i, b) →
      m.pages[i]? = some (b.path, b.text) := by
    intro path i b hloc
    rw [pages, List.getElem?_map, (located_some hloc).1]
    rfl
  constructor
  · intro hsame group hgroup i b hloc
    have hafter := hreceived group hgroup i b hloc
    rw [hsame, hbefore hloc] at hafter
    exact (Prod.mk.inj (Option.some.inj hafter)).2.symm
  · intro hvoid
    refine List.ext_getElem? fun i => ?_
    by_cases hi : ∃ group ∈ groupEdits edit.edits, (m.located group.1).map Prod.fst = some i
    · obtain ⟨group, hgroup, hfst⟩ := hi
      obtain ⟨⟨i', b⟩, hloc, rfl⟩ := Option.map_eq_some_iff.mp hfst
      rw [hreceived group hgroup i' b hloc, hvoid group hgroup i' b hloc, hbefore hloc]
    · rw [pages_getElem?, pages_getElem?, hl.others i fun group hgroup heq => hi ⟨group, hgroup, heq⟩]

/-- Every text is what it was, and no edit was left to be applied later. -/
def Kept (m m' : Model) : Prop :=
  m'.pages = m.pages ∧ (m.pendingWorkspaceEdit = none → m'.pendingWorkspaceEdit = none)

theorem kept_notify (m : Model) (message : String) : Kept m (m.notify message) := ⟨rfl, id⟩

theorem finish_pages {p : PendingWorkspaceEdit} (hp : m.pendingWorkspaceEdit = some p)
    (hw : p.waiting = []) (hf : m.finishPendingWorkspaceEdit h = some m') :
    m'.pendingWorkspaceEdit = none ∧ (m'.pages = m.pages ↔ m.Void (groupEdits p.edit.edits)) := by
  obtain ⟨hnone, hcases⟩ := finish_cases hp hw hf
  refine ⟨hnone, ?_⟩
  obtain ⟨hrefuses, hdocs⟩ | ⟨hnot, hlands⟩ := hcases
  · exact iff_of_true (pages_of_docs hdocs) (.inl hrefuses)
  · exact hlands.pages_iff.trans (or_iff_right hnot).symm

/-- The model that has accepted an edit and asked for the files that are not open. -/
def accepted (m : Model) (edit : WorkspaceEdit) : Model :=
  let queued := m.queueTargets (sortPaths (edit.edits.map (·.path)))
  { queued.1 with pendingWorkspaceEdit := some ⟨edit, queued.2, m.active.map (·.id)⟩ }

theorem accept_cases (m : Model) (edit : WorkspaceEdit) :
    (¬m.Barred edit ∧ m.accept edit = some (m.accepted edit)) ∨
      m.Barred edit ∧ m.accept edit = none := by
  unfold accept
  by_cases hp : m.pendingWorkspaceEdit.isSome
  · rw [if_pos hp]
    exact .inr ⟨.busy hp, rfl⟩
  rw [if_neg hp]
  by_cases hn : edit.edits = []
  · rw [if_pos hn]
    exact .inr ⟨.empty hn, rfl⟩
  rw [if_neg hn]
  cases hroot : m.root with
  | none => exact .inr ⟨.rootless hroot, rfl⟩
  | some root =>
    dsimp only
    cases hout : (sortPaths (edit.edits.map (·.path))).find? fun path => !path.startsWith root with
    | some path =>
      obtain ⟨e, he, rfl⟩ := mem_sortPaths_edits.mp (List.mem_of_find?_eq_some hout)
      exact .inr ⟨.outside hroot he (by simpa using List.find?_some hout), rfl⟩
    | none =>
      dsimp only
      cases hold : edit.versions.find? fun v =>
          ((m.lsp.serverFor v.1).bind m.lsp.session).bind (·.openDocs.lookup v.1) ≠ some v.2 with
      | some v =>
        have hne := List.find?_some hold
        exact .inr ⟨.version (List.mem_of_find?_eq_some hold) (of_decide_eq_true hne), rfl⟩
      | none =>
        refine .inl ⟨fun hb => ?_, rfl⟩
        cases hb with
        | busy hsome => exact hp hsome
        | empty hnil => exact hn hnil
        | rootless hnone =>
          rw [hroot] at hnone
          cases hnone
        | outside hr he hfalse =>
          obtain rfl := Option.some.inj (hroot.symm.trans hr)
          have hinside := List.find?_eq_none.mp hout _ (mem_sortPaths_edits.mpr ⟨_, he, rfl⟩)
          rw [hfalse] at hinside
          exact hinside rfl
        | version hv hne => exact List.find?_eq_none.mp hold _ hv (decide_eq_true hne)

/-- The files of an edit are all open, and the edit has no effect on them. -/
def Harmless (m : Model) (edit : WorkspaceEdit) : Prop :=
  (∀ e ∈ edit.edits, (m.indexOf e.path).isSome) ∧ m.Void (groupEdits edit.edits)

/-- **When a workspace edit changes no text**, and is not left to be applied later: when it is
turned away, or has no effect on files that are all open. -/
theorem applyWorkspaceEdit_kept_iff {edit : WorkspaceEdit}
    (ha : m.applyWorkspaceEdit h edit = some m') :
    Kept m m' ↔ m.Barred edit ∨ m.Harmless edit := by
  obtain ⟨hnot, haccept⟩ | ⟨hbarred, haccept⟩ := m.accept_cases edit
  · have hlook : m.applyWorkspaceEdit h edit =
        (m.accepted edit).finishPendingWorkspaceEdit h := by
      obtain ⟨m₂, haccept', hlook⟩ | ⟨hnone, -⟩ := applyWorkspaceEdit_accept (h := h) m edit
      · rw [haccept] at haccept'
        obtain rfl := Option.some.inj haccept'
        exact hlook
      · rw [haccept] at hnone
        cases hnone
    rw [hlook] at ha
    rw [or_iff_right hnot]
    by_cases hopen : ∀ path ∈ sortPaths (edit.edits.map (·.path)), (m.indexOf path).isSome
    · rw [accepted, queueTargets_nil.2 hopen] at ha
      obtain ⟨hnone, hpages⟩ := finish_pages rfl rfl ha
      have hopen' : ∀ e ∈ edit.edits, (m.indexOf e.path).isSome := fun e he =>
        hopen _ (mem_sortPaths_edits.mpr ⟨e, he, rfl⟩)
      exact (and_iff_left fun _ => hnone).trans (hpages.trans (and_iff_right hopen').symm)
    · have hwait : (m.queueTargets (sortPaths (edit.edits.map (·.path)))).2 ≠ [] :=
        fun hn => hopen (queueTargets_nil.1 hn)
      unfold accepted finishPendingWorkspaceEdit at ha
      dsimp only at ha
      rw [if_pos hwait] at ha
      obtain rfl := Option.some.inj ha
      have hfree : m.pendingWorkspaceEdit = none :=
        Option.not_isSome_iff_eq_none.mp fun hbusy => hnot (.busy hbusy)
      refine iff_of_false (fun hk => ?_) fun hh => hopen fun path hpath => ?_
      · cases hk.2 hfree
      · obtain ⟨e, he, rfl⟩ := mem_sortPaths_edits.mp hpath
        exact hh.1 e he
  · obtain ⟨m₂, haccept', -⟩ | ⟨-, message, hnotify⟩ := applyWorkspaceEdit_accept (h := h) m edit
    · rw [haccept] at haccept'
      cases haccept'
    · rw [hnotify] at ha
      obtain rfl := Option.some.inj ha
      exact iff_of_true (kept_notify m message) (.inl hbarred)

theorem pages_set_iff {path : Path} {i : ℕ} {b : Buffer} (hloc : m.located path = some (i, b))
    (t : Text) : m.pages.set i (some path, t) = m.pages ↔ t = b.text := by
  obtain ⟨hb, hpath, -⟩ := located_some hloc
  have hbefore : m.pages[i]? = some (some path, b.text) := by
    rw [pages, List.getElem?_map, hb, Option.map_some, hpath]
  obtain ⟨hlt, hget⟩ := List.getElem?_eq_some_iff.mp hbefore
  constructor
  · intro heq
    have hafter : (m.pages.set i (some path, t))[i]? = some (some path, t) :=
      List.getElem?_set_self hlt
    rw [heq, hbefore] at hafter
    exact (Prod.mk.inj (Option.some.inj hafter)).2.symm
  · intro heq
    rw [heq, ← hget]
    exact List.set_getElem_self hlt

theorem void_singleton {path : Path} {i : ℕ} {b : Buffer} {edits : List TextEdit}
    (hloc : m.located path = some (i, b)) (hnot : ¬ Clashing (edits.map (convertEdit b.text))) :
    m.Void [(path, edits)] ↔ spliced (edits.map (convertEdit b.text)) b.text = b.text := by
  constructor
  · rintro (⟨group, hgroup, hg⟩ | hall)
    · obtain rfl := List.mem_singleton.mp hgroup
      obtain hnone | ⟨i', b', hloc', hclash⟩ := hg
      · rw [hloc] at hnone
        cases hnone
      · obtain ⟨rfl, rfl⟩ := Prod.mk.inj (Option.some.inj (hloc.symm.trans hloc'))
        exact absurd hclash hnot
    · exact hall _ (List.mem_singleton_self _) i b hloc
  · intro heq
    refine .inr fun group hgroup i' b' hloc' => ?_
    obtain rfl := List.mem_singleton.mp hgroup
    obtain ⟨rfl, rfl⟩ := Prod.mk.inj (Option.some.inj (hloc.symm.trans hloc'))
    exact heq

/-- **When the edits of one file change no text.** -/
theorem applyTextEdits_kept_iff {edits : List TextEdit} (ha : m.applyTextEdits h edits = some m') :
    Kept m m' ↔ ∀ path, edits ≠ [] → (∀ e ∈ edits, e.path = path) → m.Void [(path, edits)] := by
  cases edits with
  | nil =>
    obtain rfl := Option.some.inj ha
    exact iff_of_true ⟨rfl, id⟩ fun path hne => absurd rfl hne
  | cons e es =>
    unfold applyTextEdits at ha
    dsimp only at ha
    split_ifs at ha with hany
    · obtain rfl := Option.some.inj ha
      refine iff_of_true (kept_notify m _) fun path _ hpath => ?_
      obtain ⟨e', he', hne⟩ := List.any_eq_true.mp hany
      have hone : e'.path = e.path := (hpath e' he').trans (hpath e List.mem_cons_self).symm
      exact absurd hone (of_decide_eq_true hne)
    · have hone : ∀ e' ∈ e :: es, e'.path = e.path := by
        intro e' he'
        by_contra hne
        exact hany (List.any_eq_true.mpr ⟨e', he', decide_eq_true hne⟩)
      have hvoid : (∀ path, e :: es ≠ [] → (∀ e' ∈ e :: es, e'.path = path) →
          m.Void [(path, e :: es)]) ↔ m.Void [(e.path, e :: es)] := by
        constructor
        · exact fun hh => hh e.path (List.cons_ne_nil _ _) hone
        · intro hh path _ hpath
          rwa [← hpath e List.mem_cons_self]
      rw [hvoid]
      cases hloc : m.located e.path with
      | none =>
        rw [hloc] at ha
        obtain rfl := Option.some.inj ha
        exact iff_of_true (kept_notify m _) (.inl ⟨_, List.mem_singleton_self _, .inl hloc⟩)
      | some found =>
        obtain ⟨i, b⟩ := found
        rw [hloc] at ha
        dsimp only at ha
        obtain ⟨built, hbuilt, ha⟩ := Option.bind_eq_some_iff.mp ha
        cases built with
        | error message =>
          obtain rfl := Option.some.inj ha
          exact iff_of_true (kept_notify m _) (.inl
            ⟨_, List.mem_singleton_self _, .inr ⟨i, b, hloc, clashing_of_build hbuilt⟩⟩)
        | ok c =>
          obtain ⟨hnot, hlen, hspliced⟩ := spliced_of_build hbuilt
          obtain ⟨m₂, htransact, hpages⟩ := transact_pages (s := .lsp) hloc hlen
          dsimp only at ha
          rw [htransact, Option.bind_some] at ha
          have hpending : m'.pendingWorkspaceEdit = m.pendingWorkspaceEdit :=
            (Rests.of_outline (syncAll_outline ha)).edit.trans
              (Rests.of_outline (transact_outline htransact)).edit
          have hsynced : m'.pages = m.pages.set i (some e.path, c.apply b.text) :=
            (pages_of_docs (syncAll_docs ha)).trans hpages
          rw [void_singleton hloc hnot, ← hspliced, ← pages_set_iff hloc, Kept, hsynced, hpending]
          exact and_iff_left id

/-! ## What stops an edit -/

/-- Edits of one file that are not applied, or write what stands there. -/
inductive Unapplied (m : Model) (edits : List TextEdit) : Prop
  | mixed {e e' : TextEdit} (he : e ∈ edits) (he' : e' ∈ edits) (hne : e.path ≠ e'.path)
  | closed {e : TextEdit} (he : e ∈ edits) (hclosed : m.located e.path = none)
  | clashing {e : TextEdit} {i : ℕ} {b : Buffer} (he : e ∈ edits)
      (hloc : m.located e.path = some (i, b)) (hc : Clashing (edits.map (convertEdit b.text)))
  | repeats (hr : ∀ e ∈ edits, ∃ i b, m.located e.path = some (i, b) ∧
      (convertEdit b.text e).Repeats b.text)

/-- Workspace edits that are not applied, or write what stands there. -/
inductive Declined (m : Model) (edit : WorkspaceEdit) : Prop
  | barred (hb : m.Barred edit)
  | clashing {e : TextEdit} {i : ℕ} {b : Buffer}
      (hopen : ∀ e ∈ edit.edits, (m.indexOf e.path).isSome) (he : e ∈ edit.edits)
      (hloc : m.located e.path = some (i, b))
      (hc : Clashing ((edit.edits.filter (·.path = e.path)).map (convertEdit b.text)))
  | repeats (hr : ∀ e ∈ edit.edits, ∃ i b, m.located e.path = some (i, b) ∧
      (convertEdit b.text e).Repeats b.text)

theorem indexOf_of_located {path : Path} {i : ℕ} {b : Buffer}
    (hloc : m.located path = some (i, b)) : (m.indexOf path).isSome := by
  obtain ⟨j, hj, -⟩ := Option.bind_eq_some_iff.mp hloc
  rw [hj]
  rfl

theorem void_of_repeats {groups : List (Path × List TextEdit)}
    (hrepeats : ∀ group ∈ groups, ∀ i b, m.located group.1 = some (i, b) →
      ∀ e ∈ group.2, (convertEdit b.text e).Repeats b.text) : m.Void groups := by
  by_cases hclash : ∃ group ∈ groups, ∃ i b, m.located group.1 = some (i, b) ∧
      Clashing (group.2.map (convertEdit b.text))
  · obtain ⟨group, hgroup, hg⟩ := hclash
    exact .inl ⟨group, hgroup, .inr hg⟩
  · refine .inr fun group hgroup i b hloc => spliced_repeats (fun hc => ?_) convertEdit_stop_le ?_
    · exact hclash ⟨group, hgroup, i, b, hloc, hc⟩
    · intro k hk
      obtain ⟨e, he, rfl⟩ := List.mem_map.mp hk
      exact hrepeats group hgroup i b hloc e he

theorem Unapplied.void {edits : List TextEdit} (hu : m.Unapplied edits) {path : Path}
    (hpath : ∀ e ∈ edits, e.path = path) : m.Void [(path, edits)] := by
  cases hu with
  | mixed he he' hne => exact absurd ((hpath _ he).trans (hpath _ he').symm) hne
  | closed he hclosed =>
    rw [hpath _ he] at hclosed
    exact .inl ⟨_, List.mem_singleton_self _, .inl hclosed⟩
  | clashing he hloc hc =>
    rw [hpath _ he] at hloc
    exact .inl ⟨_, List.mem_singleton_self _, .inr ⟨_, _, hloc, hc⟩⟩
  | repeats hr =>
    refine void_of_repeats fun group hgroup i b hloc e he => ?_
    obtain rfl := List.mem_singleton.mp hgroup
    obtain ⟨i', b', hloc', hrepeats⟩ := hr e he
    rw [hpath e he, hloc] at hloc'
    obtain ⟨-, rfl⟩ := Prod.mk.inj (Option.some.inj hloc')
    exact hrepeats

theorem Declined.harmless {edit : WorkspaceEdit} (hd : m.Declined edit) :
    m.Barred edit ∨ m.Harmless edit := by
  cases hd with
  | barred hb => exact .inl hb
  | clashing hopen he hloc hc =>
    exact .inr ⟨hopen, .inl ⟨_, mem_groupEdits.mpr ⟨_, he, rfl⟩, .inr ⟨_, _, hloc, hc⟩⟩⟩
  | repeats hr =>
    refine .inr ⟨fun e he => ?_, void_of_repeats fun group hgroup i b hloc e he => ?_⟩
    · obtain ⟨i, b, hloc, -⟩ := hr e he
      exact indexOf_of_located hloc
    · obtain ⟨e', -, rfl⟩ := mem_groupEdits.mp hgroup
      obtain ⟨he, hpath⟩ := List.mem_filter.mp he
      obtain ⟨i', b', hloc', hrepeats⟩ := hr e he
      rw [of_decide_eq_true hpath, hloc] at hloc'
      obtain ⟨-, rfl⟩ := Prod.mk.inj (Option.some.inj hloc')
      exact hrepeats

/-! ## Results -/

/-- The result an event carries is stopped: a newer request of its kind has been sent since, or its
edits are not applied. -/
def Stopped (m : Model) : Event → Prop
  | .lsp server (.formatting id edits) =>
    m.newest server .formatting id = false ∨ m.Unapplied edits
  | .lsp server (.rename id edit) => m.newest server .rename id = false ∨ m.Declined edit
  | .acceptCodeAction action => ∀ edit, action.edit = some edit → m.Declined edit
  | .acceptCompletion item => ∀ edit, item.edit = some edit → m.Unapplied [edit]
  | _ => True

theorem kept_of_takeCall {s : LspSessionState} {kind : LspCall} {id : LspRequestId}
    (ht : m.takeCall s kind id = some m₁) (hk : Kept m₁ m') : Kept m m' := by
  unfold takeCall at ht
  split_ifs at ht
  obtain rfl := Option.some.inj ht
  exact hk

theorem formatting_kept {server : LspServerId} {id : LspRequestId} {edits : List TextEdit}
    (hstop : m.Stopped (.lsp server (.formatting id edits)))
    (hs : m.step h (.lsp server (.formatting id edits)) = some m') : Kept m m' := by
  have hs : m.onLspEvent h server (.formatting id edits) = some m' := hs
  obtain ⟨-, rfl⟩ | ⟨hnew, s, m₁, -, ht, ha⟩ := formatting_cases hs
  · exact ⟨rfl, fun hn => hn⟩
  · have hu : m.Unapplied edits :=
      hstop.resolve_left fun hold => Bool.false_ne_true (hold.symm.trans hnew)
    refine kept_of_takeCall ht ((applyTextEdits_kept_iff ha).mpr fun path _ hpath => ?_)
    unfold takeCall at ht
    split_ifs at ht
    obtain rfl := Option.some.inj ht
    exact hu.void hpath

theorem rename_kept {server : LspServerId} {id : LspRequestId} {edit : WorkspaceEdit}
    (hsane : m.lsp.Sane) (hstop : m.Stopped (.lsp server (.rename id edit)))
    (hs : m.step h (.lsp server (.rename id edit)) = some m') : Kept m m' := by
  have hs : m.onLspEvent h server (.rename id edit) = some m' := hs
  obtain ⟨-, rfl⟩ | ⟨hnew, s, m₁, hsession, ht, ha⟩ := rename_cases hs
  · exact ⟨rfl, fun hn => hn⟩
  · have hd : m.Declined edit :=
      hstop.resolve_left fun hold => Bool.false_ne_true (hold.symm.trans hnew)
    refine kept_of_takeCall ht ((applyWorkspaceEdit_kept_iff ha).mpr ?_)
    have hknown := known_takeCall hsane.nodup hsession ht
    unfold takeCall at ht
    split_ifs at ht
    obtain rfl := Option.some.inj ht
    exact hd.harmless.imp (fun hb => hb.congr rfl (fun _ => Iff.rfl) rfl rfl hknown) fun hh => hh

theorem codeAction_kept {action : CodeAction} (hstop : m.Stopped (.acceptCodeAction action))
    (hs : m.step h (.acceptCodeAction action) = some m') : Kept m m' := by
  have hs : m.acceptCodeAction h action = some m' := hs
  unfold acceptCodeAction at hs
  cases hedit : action.edit with
  | none =>
    rw [hedit] at hs
    obtain rfl := Option.some.inj hs
    exact kept_notify m _
  | some edit =>
    rw [hedit] at hs
    exact (applyWorkspaceEdit_kept_iff hs).mpr (hstop edit hedit).harmless

theorem completion_kept {item : CompletionItem} {edit : TextEdit} (hedit : item.edit = some edit)
    (hstop : m.Stopped (.acceptCompletion item))
    (hs : m.step h (.acceptCompletion item) = some m') : Kept m m' := by
  have hs : m.acceptCompletion h item = some m' := hs
  unfold acceptCompletion at hs
  rw [hedit] at hs
  exact (applyTextEdits_kept_iff hs).mpr fun path _ hpath => (hstop edit hedit).void hpath

end Model

/-! ## What is known of the requests -/

/-- A request that was sent, the documents that its server knew then, and those of them whose text
has changed since. -/
structure Asked where
  server : LspServerId
  id : LspRequestId
  knew : List Path
  touched : List Path
deriving DecidableEq

/-- The requests that a step sends. -/
def sent (m m' : Model) : List Asked :=
  m'.lsp.outbox.filterMap fun
    | (server, .call _ id _) =>
      if m.lsp.nextRequestId < id.val then
        some ⟨server, id, (m'.lsp.session server).elim [] fun s => s.syncedDocs.keys, []⟩
      else none
    | _ => none

/-- A request after a step. -/
def Asked.follow (m m' : Model) (a : Asked) : Asked :=
  { a with touched := a.touched ++ a.knew.filter fun path => m'.textAt path ≠ m.textAt path }

/-- The model, the requests sent, the completions and the code actions last shown with the requests
they answer, and whether an outdated result has changed a text or is left to. -/
structure Docket where
  model : Model
  asked : List Asked
  completions : Option (LspServerId × LspRequestId × List CompletionItem)
  actions : Option (LspServerId × LspRequestId × List CodeAction)
  spoiled : Bool

namespace Docket

/-- A model whose requests are followed from now on. -/
def following (m : Model) : Docket :=
  { model := m, asked := [], completions := none, actions := none, spoiled := false }

/-- The request an event brings the result of, and the files that the result is about. A completion
or a code action is accepted from those last shown. -/
def result (w : Docket) : Event → Option (LspServerId × LspRequestId × List Path)
  | .lsp server (.formatting id edits) => some (server, id, edits.map (·.path))
  | .lsp server (.rename id edit) => some (server, id, edit.edits.map (·.path))
  | .acceptCompletion item =>
    match w.completions, item.edit with
    | some (server, id, items), some edit =>
      if item ∈ items then some (server, id, [edit.path]) else none
    | _, _ => none
  | .acceptCodeAction action =>
    match w.actions, action.edit with
    | some (server, id, actions), some edit =>
      if action ∈ actions then some (server, id, edit.edits.map (·.path)) else none
    | _, _ => none
  | _ => none

/-- The event brings a result for a file that has changed since the request. -/
def outdated (w : Docket) (e : Event) : Bool :=
  match w.result e with
  | none => false
  | some (server, id, paths) =>
    w.asked.any fun a => a.server = server ∧ a.id = id ∧ ∃ path ∈ paths, path ∈ a.touched

/-- An event, and what it means for the requests. -/
def step (h : Host) (w : Docket) (e : Event) : Option Docket :=
  (w.model.step h e).map fun m =>
    { model := m
      asked := w.asked.map (Asked.follow w.model m) ++ sent w.model m
      completions := match e with
        | .lsp server (.completion id items) =>
          if w.model.newest server .completion id then some (server, id, items) else w.completions
        | _ => w.completions
      actions := match e with
        | .lsp server (.codeActions id actions) =>
          if w.model.newest server .codeActions id then some (server, id, actions) else w.actions
        | _ => w.actions
      spoiled := w.spoiled || (w.outdated e && (m.pages ≠ w.model.pages ||
        w.model.pendingWorkspaceEdit.isNone && m.pendingWorkspaceEdit.isSome)) }

/-- The sessions have ids and books of their own, and nothing was asked for yet. -/
def Opening (w : Docket) : Prop := ∃ m : Model, m.lsp.Sane ∧ w = following m

/-- An outdated result is stopped. -/
def Stops (w : Docket) (e : Event) : Prop := w.outdated e = true → w.model.Stopped e

theorem outdated_kept {h : Host} {w : Docket} {e : Event} {m : Model} (hsane : w.model.lsp.Sane)
    (hstops : w.Stops e) (hout : w.outdated e = true) (hs : w.model.step h e = some m) :
    w.model.Kept m := by
  have hstop := hstops hout
  cases hres : w.result e with
  | none =>
    rw [outdated, hres] at hout
    cases hout
  | some found =>
    unfold result at hres
    split at hres
    · exact Model.formatting_kept hstop hs
    · exact Model.rename_kept hsane hstop hs
    · split at hres
      · rename_i hedit
        exact Model.completion_kept hedit hstop hs
      · cases hres
    · exact Model.codeAction_kept hstop hs
    · cases hres

theorem step_unspoiled {h : Host} {w w' : Docket} {e : Event} (hsane : w.model.lsp.Sane)
    (hdown : w.spoiled = false) (hstops : w.Stops e) (hs : w.step h e = some w') :
    w'.spoiled = false := by
  obtain ⟨m, hm, rfl⟩ := Option.map_eq_some_iff.mp hs
  dsimp only
  rw [hdown, Bool.false_or]
  cases hout : w.outdated e with
  | false => rfl
  | true =>
    obtain ⟨hpages, hpending⟩ := outdated_kept hsane hstops hout hm
    rw [Bool.true_and, Bool.or_eq_false_iff]
    refine ⟨decide_eq_false (not_not.mpr hpages), ?_⟩
    cases hp : w.model.pendingWorkspaceEdit with
    | none =>
      rw [hpending hp]
      rfl
    | some p => rfl

end Docket

namespace Docket

/-- A document is open, and its server is asked to format it. -/
def askedToFormat : List Event :=
  [.openWorkspace Model.crate
      [⟨"rust", ["rs"], ⟨Model.crate, ["rust-analyzer"], none⟩, .idle⟩],
    .openFile Model.library, .fs (.fileLoaded ⟨1⟩ Model.library (some ['x'])), .dispatch .lspFormat]

/-- The server writes `z` for the first character. -/
def formatted : Event :=
  .lsp ⟨1⟩ (.formatting ⟨1⟩ [⟨Model.library, ⟨⟨0, 0⟩, ⟨0, 1⟩⟩, ['z']⟩])

/-- The document is typed into, and the answer comes. -/
def typedInto : Docket :=
  (Runs.run (step Host.plain) (.following {})
    (askedToFormat ++ [.typeChar 'y', formatted])).get (by decide +kernel)

/-- No outdated result comes, or one that a newer request has taken the place of. -/
def superseded (w : Docket) (e : Event) : Bool :=
  !w.outdated e ||
    match e with
    | .lsp server (.formatting id _) => !w.model.newest server .formatting id
    | _ => false

theorem stops_of_superseded (w : Docket) (e : Event) (hs : w.superseded e = true) : w.Stops e := by
  intro hout
  unfold superseded at hs
  rw [hout, Bool.not_true, Bool.false_or] at hs
  split at hs
  · exact .inl (by simpa using hs)
  · cases hs

/-- The document is typed into, and formatted again before the first answer is there. -/
def askedAgain : Docket :=
  (Runs.checkedRun (step Host.plain) superseded (.following {})
    (askedToFormat ++ [.typeChar 'y', .dispatch .lspFormat, formatted])).get (by decide +kernel)

end Docket

end App

end Termesh
