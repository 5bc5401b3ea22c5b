import Termesh.App.State
import Termesh.Lib.First

/-!
# Derived state

What every entry point brings up to date after it may have changed a buffer: highlighting, the
hunks of live proposals with their decorations, and the documents of the language servers.

* `syncSyntax`, `syncProposals`, `syncLspDocuments`, `syncDrafts`;
* `Buffer.bare`, `Model.bare`: a buffer without its overlays, and a model without what the human
  merely sees and what the servers are told;
* **`syncSyntax_bare`**, **`syncProposals_spec`**, **`syncLspDocuments_bare`**: what syncing changes.
-/

namespace Termesh

open Tables Firsts

/-- The document without its overlays and its outbox. -/
def Buffer.bare (b : Buffer) : Buffer := { b with decorations := [], pendingChanges := [] }

@[simp] theorem Buffer.bare_id (b : Buffer) : b.bare.id = b.id := rfl

@[simp] theorem Buffer.bare_path (b : Buffer) : b.bare.path = b.path := rfl

@[simp] theorem Buffer.bare_text (b : Buffer) : b.bare.text = b.text := rfl

@[simp] theorem Buffer.bare_version (b : Buffer) : b.bare.version = b.version := rfl

@[simp] theorem Buffer.bare_selection (b : Buffer) : b.bare.selection = b.selection := rfl

@[simp] theorem Buffer.bare_isDirty (b : Buffer) : b.bare.isDirty = b.isDirty := rfl

@[simp] theorem Buffer.bare_toDiskString (b : Buffer) : b.bare.toDiskString = b.toDiskString := rfl

namespace App.Model

/-- Re-highlight the active buffer. `none` is an index out of bounds. -/
def syncSyntax (h : Host) (m : Model) : Option Model :=
  match m.activeBuffer with
  | none => some m
  | some i =>
    (m.buffers[i]?).map fun b =>
      match b.path.bind fun path => h.highlight path b.text with
      | none => m
      | some spans =>
        let spans := spans.map fun s => Decoration.mk s.1 s.2.1 (.syntaxSpan s.2.2)
        m.setBuffer i { b with decorations := b.decorations.clearSyntax ++ spans }

/-- Re-derive each proposal from its immutable original against the live text. -/
def refreshAll (d : LineDiff) (buffers : List Buffer) : List EditProposal → Option (List EditProposal)
  | [] => some []
  | p :: ps =>
    let refreshed :=
      match buffers.find? fun b => b.path = some p.path with
      | some b => p.refresh d b.text
      | none => some p
    refreshed.bind fun p => (refreshAll d buffers ps).map (p :: ·)

/-- How a hunk is drawn. -/
def hunkDecoration (proposal : ProposalId) (k : Hunk) : Decoration :=
  ⟨k.start, k.stop, .hunk proposal (if k.start = k.stop then .added else .removed) k.state⟩

/-- Discard the decorations of every live proposal, then draw their hunks again. -/
def repaint (proposals : List EditProposal) (b : Buffer) : Buffer :=
  let cleared := proposals.foldl (fun ds p => ds.removeProposal p.id) b.decorations
  let drawn := (proposals.filter fun p => b.path = some p.path).flatMap fun p =>
    p.hunks.map (hunkDecoration p.id)
  { b with decorations := cleared ++ drawn }

/-- Re-anchor every live proposal to its buffer and redraw its hunks. -/
def syncProposals (h : Host) (m : Model) : Option Model :=
  match m.agent with
  | none => some m
  | some agent =>
    if agent.proposals = [] then some m
    else
      (refreshAll h.diff m.buffers agent.proposals).map fun proposals =>
        { m with
          agent := some { agent with proposals }
          buffers := m.buffers.map (repaint proposals) }

/-- `sync_drafts_at` now. -/
def syncDrafts (m : Model) : Model :=
  match m.autosave with
  | none => { m with draftVersions := ∅, draftDeadline := none }
  | some seconds =>
    let dirty := m.buffers.filter (·.isDirty)
    let current : Table Path Version :=
      dirty.foldl (fun t b => match b.path with | some p => t.insert p b.version | none => t) ∅
    let changed := current.entries.any fun e => m.draftVersions.lookup e.1 != some e.2
    { m with
      draftVersions := current
      draftDeadline :=
        if current.entries.isEmpty then none
        else if changed then some (m.clock + seconds)
        else m.draftDeadline }

/-- Drain the transaction outbox of every buffer into the session that claims it. -/
def drainInto : List Buffer → LspState → List Buffer × LspState
  | [], l => ([], l)
  | b :: bs, l =>
    let (drained, pending) := b.takePendingChanges
    let drained :=
      if pending.isEmpty then drained
      else { drained with decorations := drained.decorations.clearDiagnostics }
    let l := match b.path with
      | some path => l.syncDocument path b.text pending
      | none => l
    let (bs, l) := drainInto bs l
    (drained :: bs, l)

/-- Synchronise every open buffer with its language server. -/
def syncLspDocuments (m : Model) : Model :=
  let (buffers, lsp) := drainInto m.buffers m.lsp
  syncDrafts { m with buffers, lsp }

/-- The three refreshes in the order every entry point makes them. -/
def syncAll (h : Host) (m : Model) : Option Model :=
  (m.syncSyntax h).bind fun m => (m.syncProposals h).map syncLspDocuments

/-! ## What syncing changes -/

/-- The model without what the human merely sees and what the servers are told. -/
def bare (m : Model) : Model :=
  { m with
    focus := .editor, previousNonTerminalFocus := .editor, overlays := [], notification := none
    clock := 0, buffers := m.buffers.map Buffer.bare, draftVersions := ∅, draftDeadline := none
    lsp := {} }

/-- The documents, without their overlays. -/
def docs (m : Model) : List Buffer := m.buffers.map Buffer.bare

@[simp] theorem bare_buffers (m : Model) : m.bare.buffers = m.docs := rfl

theorem docs_of_bare {m m' : Model} (h : m'.bare = m.bare) : m'.docs = m.docs :=
  congrArg Model.buffers h

theorem map_bare_set {bs : List Buffer} {i : ℕ} {b b' : Buffer} (hi : bs[i]? = some b)
    (hb : b'.bare = b.bare) : (bs.set i b').map Buffer.bare = bs.map Buffer.bare :=
  map_set_of_eq hi hb

/-- **Highlighting changes overlays only.** -/
theorem syncSyntax_bare {h : Host} {m m' : Model} (hs : m.syncSyntax h = some m') :
    m'.bare = m.bare := by
  unfold syncSyntax at hs
  cases ha : m.activeBuffer with
  | none => rw [ha] at hs; exact congrArg bare (Option.some.inj hs).symm
  | some i =>
    rw [ha] at hs
    obtain ⟨b, hb, rfl⟩ := Option.map_eq_some_iff.mp hs
    dsimp only
    split
    · rfl
    · simp only [bare, setBuffer]
      congr 1
      exact map_bare_set hb rfl

/-- What refreshing one proposal leaves. -/
def Refreshed (d : LineDiff) (buffers : List Buffer) (p p' : EditProposal) : Prop :=
  match buffers.find? fun b => b.path = some p.path with
  | some b => p.refresh d b.text = some p'
  | none => p' = p

theorem refreshAll_spec {d : LineDiff} {bs : List Buffer} {ps ps' : List EditProposal}
    (h : refreshAll d bs ps = some ps') : List.Forall₂ (Refreshed d bs) ps ps' := by
  induction ps generalizing ps' with
  | nil => cases h; exact .nil
  | cons p ps ih =>
    obtain ⟨p', hp, h⟩ := Option.bind_eq_some_iff.mp h
    obtain ⟨ps'', hps, rfl⟩ := Option.map_eq_some_iff.mp h
    refine .cons ?_ (ih hps)
    unfold Refreshed
    cases hf : bs.find? fun b => b.path = some p.path with
    | none => rw [hf] at hp; exact (Option.some.inj hp).symm
    | some b => rw [hf] at hp; exact hp

/-- **Syncing proposals changes overlays and hunks.** -/
theorem syncProposals_spec {h : Host} {m m' : Model} (hs : m.syncProposals h = some m') :
    ∃ ps, List.Forall₂ (Refreshed h.diff m.buffers) m.proposals ps ∧
      m'.bare = { m.bare with agent := m.agent.map fun a => { a with proposals := ps } } := by
  unfold syncProposals at hs
  cases ha : m.agent with
  | none =>
    rw [ha] at hs
    refine ⟨[], by simp [proposals, ha], ?_⟩
    rw [← Option.some.inj hs]
    simp only [bare, ha]
    rfl
  | some agent =>
    rw [ha] at hs
    dsimp only at hs
    split_ifs at hs with hnil
    · refine ⟨[], by simp [proposals, ha, hnil], ?_⟩
      rw [← Option.some.inj hs]
      simp only [bare, ha, Option.map_some]
      rw [← hnil]
    · obtain ⟨ps, hps, rfl⟩ := Option.map_eq_some_iff.mp hs
      refine ⟨ps, by simpa [proposals, ha] using refreshAll_spec hps, ?_⟩
      simp only [bare, Option.map_some, List.map_map]
      congr 1

theorem drainInto_fst (bs : List Buffer) (l : LspState) :
    (drainInto bs l).1.map Buffer.bare = bs.map Buffer.bare := by
  induction bs generalizing l with
  | nil => rfl
  | cons b bs ih =>
    simp only [drainInto, List.map_cons, ih]
    congr 1
    split_ifs <;> rfl

theorem syncDrafts_bare (m : Model) : m.syncDrafts.bare = m.bare := by
  unfold syncDrafts
  split <;> rfl

theorem syncDrafts_lsp (m : Model) : m.syncDrafts.lsp = m.lsp := by
  unfold syncDrafts
  split <;> rfl

/-- **Language servers read documents only.** -/
theorem syncLspDocuments_bare (m : Model) : m.syncLspDocuments.bare = m.bare := by
  rw [syncLspDocuments, syncDrafts_bare]
  simp only [bare]
  congr 1
  exact drainInto_fst m.buffers m.lsp

end App.Model

end Termesh
