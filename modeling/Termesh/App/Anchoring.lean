import Termesh.App.Documents

/-!
# What a written file is anchored to

The agent reads a file, the human edits its buffer, and the agent writes the whole file back. The
write carries no old text, so its proposal is anchored to the text the human left.

* `humanEdits`: transactions of the human, with the marks of what they inserted;
* `Turn`, `Survives`: the proposal is the next to be resolved, and accepting it keeps the marked
  characters;
* `Pairs`: the line diff keeps every line that holds a marked character;
* **`survives_iff_pairs`**: the marked characters survive exactly when the diff pairs their lines.
-/

namespace Termesh

open EditScript

/-- The marks of a text after a change: inserted characters are marked. -/
def ChangeSet.marks (cs : ChangeSet) (g : List Bool) : List Bool := app (mark cs.toks) g

theorem ChangeSet.length_marks (cs : ChangeSet) {g : List Bool} (h : g.length = cs.lenBefore) :
    (cs.marks g).length = cs.lenAfter := by
  rw [marks, length_app _ _ (by simp [h]), post_mark, cs.post_toks]

namespace App.Model

/-- The human edits the file at `path`, each transaction followed by the refreshes of every key.
The marks tell which characters of the text the human inserted. -/
def humanEdits (h : Host) (path : Path) :
    List (ChangeSet × EditSource) → Model → List Bool → Option (Model × List Bool)
  | [], m, g => some (m, g)
  | (changes, source) :: edits, m, g =>
    (m.located path).bind fun (i, _) =>
      (m.transact i changes source).bind fun (m, outcome) =>
        (m.syncAll h).bind fun m =>
          let g := match outcome with
            | .ok () => changes.marks g
            | .error _ => g
          humanEdits h path edits m g

/-- It is the turn of a proposal, over the text `t`. -/
def Turn (p : EditProposal) (t : Text) (m : Model) : Prop :=
  m.gatedFirst = false ∧ m.proposals.head? = some p ∧ (m.bufferAt p.path).map (·.text) = some t

/-- What a step applied to the buffer at `path`. -/
def appliedAt (path : Path) (m m' : Model) : List ChangeSet :=
  (((m'.bufferAt path).map (·.pendingChanges)).getD []).drop
    (((m.bufferAt path).map (·.pendingChanges)).getD []).length

/-- No marked character outside the conflicting hunks is deleted by what the step applied. -/
def Survives (p : EditProposal) (g : List Bool) (m m' : Model) : Prop :=
  ∀ i, g[i]? = some true →
    (∀ k ∈ p.hunks, ∀ r, k.state = .conflicted r → ¬ (k.start ≤ i ∧ i < k.stop)) →
      ∀ cs ∈ appliedAt p.path m m', dropAt cs.toks i = false

/-- The diff takes out no line that holds a marked character. -/
def Pairs (d : LineDiff) (old new : Text) (g : List Bool) : Prop :=
  ∀ op ∈ d.ops old new, op.tag ≠ .equal → ∀ i, g[i]? = some true →
    ¬ (lineOffset (splitInclusive old) op.oldStart ≤ i ∧
      i < lineOffset (splitInclusive old) op.oldStop)

theorem transact_marks {m m' : Model} {path : Path} {i : ℕ} {b : Buffer} {c : ChangeSet}
    {s : EditSource} {r : Except EditError Unit} {g : List Bool}
    (hl : m.located path = some (i, b)) (h : m.transact i c s = some (m', r))
    (hg : g.length = b.text.length) :
    ∃ b', m'.bufferAt path = some b' ∧
      (match r with | .ok () => c.marks g | .error _ => g).length = b'.text.length := by
  obtain ⟨b', -, hb', ha⟩ := transact_located hl h
  refine ⟨b', hb', ?_⟩
  cases ha with
  | refused => exact hg
  | empty hv hlen hid =>
    -- an identity writes as many characters as it reads
    have hlen : g.length = c.lenBefore := hg.trans hlen
    have := congrArg post (ChangeSet.toks_of_isIdentity c hid)
    rw [c.post_toks, post_keeps] at this
    show (c.marks g).length = b.text.length
    rw [c.length_marks hlen, this, ← hlen, hg]
  | changed hv hlen =>
    show (c.marks g).length = (c.apply b.text).length
    rw [c.length_marks (hg.trans hlen), c.length_apply b.text hlen]

theorem humanEdits_marks {h : Host} {path : Path} {edits : List (ChangeSet × EditSource)}
    {m m' : Model} {g g' : List Bool} {b : Buffer} (hb : m.bufferAt path = some b)
    (hg : g.length = b.text.length) (he : humanEdits h path edits m g = some (m', g')) :
    ∃ b', m'.bufferAt path = some b' ∧ g'.length = b'.text.length := by
  induction edits generalizing m g b with
  | nil =>
    obtain ⟨rfl, rfl⟩ := Prod.mk.inj (Option.some.inj he)
    exact ⟨b, hb, hg⟩
  | cons e edits ih =>
    obtain ⟨changes, source⟩ := e
    obtain ⟨⟨i, b₀⟩, hl, he⟩ := Option.bind_eq_some_iff.mp he
    obtain rfl : b₀ = b := Option.some.inj ((located_some hl).2.2.1.symm.trans hb)
    obtain ⟨⟨m₁, r⟩, ht, he⟩ := Option.bind_eq_some_iff.mp he
    obtain ⟨m₂, hs, he⟩ := Option.bind_eq_some_iff.mp he
    obtain ⟨b₁, hb₁, hg₁⟩ := transact_marks hl ht hg
    have htext := textAt_of_pages (pages_of_documents (syncAll_documents hs)) path
    rw [textAt, textAt, hb₁, Option.map_some] at htext
    obtain ⟨b₂, hb₂, hx⟩ := Option.map_eq_some_iff.mp htext
    exact ih hb₂ (hx ▸ hg₁) he

/-! ## The proposal of a write -/

theorem hunksAgainst_base (d : LineDiff) (base proposed : Text) :
    EditProposal.hunksAgainst d base proposed base = hunksFromDiff d base proposed := by
  rw [EditProposal.hunksAgainst]
  simp [rebaseHunks]

/-- **A write without old text** becomes a proposal anchored to the text of the buffer. -/
theorem receiveProposal_unread {h : Host} {m m' : Model} {id : ProposalId} {path : Path}
    {new : Text} {t : Text} {p : EditProposal} (ht : m.textAt path = some t)
    (hfresh : ∀ q ∈ m.proposals, q.id ≠ id)
    (hr : m.receiveProposal h id path none new = some m') (hp : p ∈ m'.proposals)
    (hid : p.id = id) :
    p.path = path ∧ p.baseText = t ∧ p.proposedText = new ∧
      hunksFromDiff h.diff t new = some p.hunks := by
  unfold receiveProposal at hr
  obtain ⟨b, hb, rfl⟩ := Option.map_eq_some_iff.mp ht
  split_ifs at hr with hgate
  · rw [← Option.some.inj hr] at hp
    exact absurd hid (hfresh p hp)
  · rw [hb] at hr
    dsimp only [Option.getD_none] at hr
    obtain ⟨q, hq, hr⟩ := Option.bind_eq_some_iff.mp hr
    obtain ⟨hunks, hh, rfl⟩ := Option.map_eq_some_iff.mp hq
    rw [hunksAgainst_base] at hh
    obtain ⟨ps, hps, hbare⟩ := syncProposals_spec hr
    have hagent := congrArg Model.agent hbare
    simp only [bare, modifyAgent, Option.map_map] at hagent
    cases ha : m.agent with
    | none =>
      rw [ha] at hagent
      rw [proposals, hagent] at hp
      simp at hp
    | some a =>
      simp only [proposals, modifyAgent, ha, Option.map_some, Option.getD_some] at hps
      rw [proposals, hagent, ha] at hp
      -- the refreshed proposal comes from one that was there, and only the new one has the id
      have key : ∀ (qs qs' : List EditProposal), List.Forall₂ (Refreshed h.diff m.buffers) qs qs' →
          p ∈ qs' → ∃ q ∈ qs, Refreshed h.diff m.buffers q p := by
        intro qs qs' hf
        induction hf with
        | nil => intro h; simp at h
        | cons hr _ ih =>
          intro h
          rcases List.mem_cons.mp h with rfl | h
          · exact ⟨_, List.mem_cons_self, hr⟩
          · obtain ⟨q, hq, hr⟩ := ih h
            exact ⟨q, List.mem_cons_of_mem _ hq, hr⟩
      obtain ⟨q, hq, href⟩ := key _ _ hps hp
      have hqid : q.id = id := by
        rw [← hid]
        exact (congrArg EditProposal.id (refreshed_unhunked href)).symm
      rcases List.mem_append.mp hq with hq | hq
      · exact absurd hqid (by simpa using (List.mem_filter.mp hq).2)
      · obtain rfl := List.mem_singleton.mp hq
        unfold Refreshed at href
        rw [show (m.buffers.find? fun b => b.path = some path) = some b from hb] at href
        obtain ⟨hunks', hh', rfl⟩ := Option.map_eq_some_iff.mp href
        rw [hunksAgainst_base] at hh'
        exact ⟨rfl, rfl, rfl, hh'⟩

/-! ## Accepting it -/

theorem hunksFromDiff_clean {d : LineDiff} {old new : Text} {hs : List Hunk}
    (h : hunksFromDiff d old new = some hs) : ∀ k ∈ hs, k.state = .clean := by
  intro k hk
  obtain ⟨op, -, -, hop⟩ := (mem_hunksOf h k).mp hk
  exact (hunkOf_some hop).2.2

/-- The clean hunks of a proposal, in order in the text of its buffer, are applied as they are:
what is dropped is what they cover. -/
theorem applyReview_some {m : Model} {p : EditProposal} {b : Buffer}
    (hb : m.bufferAt p.path = some b) (hin : InOrder 0 p.hunks b.text.length)
    (hclean : ∀ k ∈ p.hunks, k.state = .clean) :
    ∃ m' n b' new, m.applyReview p = some (m', n) ∧ m'.bufferAt p.path = some b' ∧
      b'.pendingChanges = b.pendingChanges ++ new ∧
      ∀ i, (∀ cs ∈ new, dropAt cs.toks i = false) ↔
        ¬ ∃ k ∈ p.hunks, k.start ≤ i ∧ i < k.stop := by
  obtain ⟨i, hl⟩ := located_of_bufferAt hb
  have happ : p.applicable = p.hunks :=
    List.filter_eq_self.mpr fun k hk => by rw [hclean k hk]; rfl
  unfold applyReview
  rw [hl, happ]
  dsimp only
  by_cases hnil : p.hunks = []
  · rw [if_pos hnil]
    exact ⟨m, 0, b, [], rfl, hb, (List.append_nil _).symm, fun i => by simp [hnil]⟩
  · rw [if_neg hnil]
    have hinside : ∀ k ∈ p.hunks, k.Inside b.text.length := fun k hk => (hin.mem hk).2
    obtain ⟨cs, hcs, hlen, htoks⟩ := changesetFromHunks_spec hin.disjoint hinside
    have hdrop : ∀ j, dropAt cs.toks j = true ↔ ∃ k ∈ p.hunks, k.start ≤ j ∧ j < k.stop := by
      intro j
      have hperm := List.perm_insertionSort Hunk.keyLe p.hunks
      rw [htoks, dropAt_nf, dropAt_hunkScript (inOrder_sortHunks hin.disjoint hinside),
        Nat.zero_add]
      exact exists_congr fun k => and_congr_left fun _ => hperm.mem_iff
    obtain ⟨b', ha, hspec⟩ := Buffer.apply_ok (b := (b.transaction cs (.agent p.id)).1)
      (t := (b.transaction cs (.agent p.id)).2) rfl hlen
    have ht : m.transact i cs (.agent p.id) = some (m.setBuffer i b', .ok ()) := by
      rw [transact, (located_some hl).1, Option.bind_some]
      exact congrArg (Option.map _) ha
    obtain ⟨b₁, -, hb₁, -⟩ := transact_located hl ht
    obtain rfl : b₁ = b' := by
      have hp := (located_some hl).2.2.2 b' (by cases hspec <;> exact (located_some hl).2.1)
      exact Option.some.inj (hb₁.symm.trans hp)
    rw [hcs, Option.bind_some, ht, Option.map_some]
    cases hspec with
    | empty hv hlen hid =>
      -- hunks that change nothing cover nothing
      refine ⟨_, _, _, [], rfl, hb₁, (List.append_nil _).symm, fun j => ?_⟩
      have hid := ChangeSet.toks_of_isIdentity cs hid
      rw [← hdrop, hid]
      simp
    | changed hv hlen =>
      refine ⟨_, _, _, [cs], rfl, hb₁, rfl, fun j => ?_⟩
      rw [← hdrop]
      simp

/-- **What accepting a proposal deletes** is what the hunks of the diff cover. -/
theorem resolveProposal_accept {h : Host} {m : Model} {p : EditProposal} {t new : Text}
    (hturn : Turn p t m) (hh : hunksFromDiff h.diff t new = some p.hunks) :
    ∃ m', m.resolveProposal h true = some m' ∧
      ∀ i, (∀ cs ∈ appliedAt p.path m m', dropAt cs.toks i = false) ↔
        ¬ ∃ k ∈ p.hunks, k.start ≤ i ∧ i < k.stop := by
  obtain ⟨hgate, hhead, htext⟩ := hturn
  obtain ⟨b, hb, rfl⟩ := Option.map_eq_some_iff.mp htext
  cases ha : m.agent with
  | none => rw [proposals, ha] at hhead; simp at hhead
  | some agent =>
    rw [proposals, ha] at hhead
    cases hps : agent.proposals with
    | nil => simp [hps] at hhead
    | cons q rest =>
      obtain rfl : q = p := by simpa [hps] using hhead
      obtain ⟨m₁, n, b₁, new, hr, hb₁, hpend, hdrop⟩ := applyReview_some
        (m := { m with agent := some { agent with proposals := rest } }) hb
        (hunksFromDiff_inOrder hh) (hunksFromDiff_clean hh)
      unfold resolveProposal
      rw [hgate, ha]
      dsimp only
      rw [hps]
      dsimp only
      rw [if_neg Bool.false_ne_true, if_pos rfl, hr]
      have happlied : ∀ m' : Model, (m'.buffers = m₁.buffers.map fun b =>
          { b with decorations := b.decorations.removeProposal q.id }) →
          appliedAt q.path m m' = new := by
        intro m' hm'
        rw [appliedAt, bufferAt_map hm' (fun _ => rfl), hb₁, hb]
        simp [hpend]
      refine ⟨_, rfl, fun i => ?_⟩
      rw [← hdrop i, happlied _ rfl]

/-- The marked characters survive the acceptance of the hunks of a diff exactly when the diff pairs
their lines. -/
theorem survives_iff {h : Host} {m : Model} {p : EditProposal} {t new : Text} (g : List Bool)
    (hturn : Turn p t m) (hh : hunksFromDiff h.diff t new = some p.hunks) :
    ∃ m', m.resolveProposal h true = some m' ∧ (Survives p g m m' ↔ Pairs h.diff t new g) := by
  obtain ⟨m', hm, hdel⟩ := resolveProposal_accept hturn hh
  refine ⟨m', hm, ?_⟩
  have hclean := hunksFromDiff_clean hh
  constructor
  · intro hs op ho ht i hi hcov
    refine (hdel i).mp (hs i hi fun k hk r hr => ?_) ((covered_iff hh i).mpr ⟨op, ho, ht, hcov⟩)
    rw [hclean k hk] at hr
    cases hr
  · intro hpairs i hi _
    refine (hdel i).mpr fun hcov => ?_
    obtain ⟨op, ho, ht, hcov⟩ := (covered_iff hh i).mp hcov
    exact hpairs op ho ht i hi hcov

/-- **A write is anchored to what the human left**, so accepting it keeps the characters the human
inserted after the read exactly when the diff of that text pairs every line that holds one. -/
theorem survives_iff_pairs (h : Host) {m m₂ m₃ m₄ : Model} {path : Path} {session : SessionId}
    {request : ReadRequestId} {id : ProposalId} {new read left : Text}
    {edits : List (ChangeSet × EditSource)} {g : List Bool} {p : EditProposal}
    (hopen : m.textAt path = some read)
    (hedits : humanEdits h path edits (m.serveRead session request path)
      (List.replicate read.length false) = some (m₂, g))
    (hleft : m₂.textAt path = some left) (hfresh : ∀ q ∈ m₂.proposals, q.id ≠ id)
    (hwrite : m₂.onAgentEvent h (.proposedEdit session id path none new) = some m₃)
    (hp : p ∈ m₃.proposals) (hid : p.id = id) (hturn : Turn p left m₄) :
    g.length = left.length ∧ p.baseText = left ∧
      ∃ m₅, m₄.resolveProposal h true = some m₅ ∧
        (Survives p g m₄ m₅ ↔ Pairs h.diff left new g) := by
  obtain ⟨b, hb, rfl⟩ := Option.map_eq_some_iff.mp hopen
  have hserve : (m.serveRead session request path).bufferAt path = some b := by
    unfold serveRead
    rw [hb]
    exact hb
  obtain ⟨b₂, hb₂, hg⟩ := humanEdits_marks hserve (List.length_replicate ..) hedits
  rw [textAt, hb₂] at hleft
  obtain rfl : b₂.text = left := Option.some.inj hleft
  obtain ⟨-, hbase, -, hh⟩ := receiveProposal_unread (by rw [textAt, hb₂]; rfl) hfresh hwrite hp hid
  exact ⟨hg, hbase, survives_iff g hturn hh⟩

/-! ## A line lost -/

/-- The file of the run below. -/
def note : Path := [.rootDir, .normal "note"]

/-- A buffer with one line, and an agent session. -/
def noteOpen : Model where
  buffers := [Buffer.fromText ⟨1⟩ (some note) ['a', '\n']]
  agent := some { id := ⟨0⟩ }

/-- The line the human adds. -/
def noteInsert : ChangeSet := (ChangeSet.replace 2 2 2 ['x', '\n']).get (by decide)

/-- The agent reads the line, and the human adds another one. -/
def noteEdited : Model × List Bool :=
  (humanEdits Host.plain note [(noteInsert, .keyboard)] (noteOpen.serveRead ⟨0⟩ ⟨1⟩ note)
    (List.replicate 2 false)).get (by decide)

/-- The agent writes the file back with its one line changed. -/
def noteWritten : Model :=
  (noteEdited.1.onAgentEvent Host.plain (.proposedEdit ⟨0⟩ ⟨2⟩ note none ['A', '\n'])).get
    (by decide)

/-- The proposal that makes. -/
def noteProposal : EditProposal := noteWritten.proposals.head (by decide)

theorem noteProposal_turn : Turn noteProposal ['a', '\n', 'x', '\n'] noteWritten :=
  ⟨by decide, List.head?_eq_some_head _, by decide⟩

theorem survives_iff_pairs_note :
    noteEdited.2.length = 4 ∧ noteProposal.baseText = ['a', '\n', 'x', '\n'] ∧
      ∃ m₅, noteWritten.resolveProposal Host.plain true = some m₅ ∧
        (Survives noteProposal noteEdited.2 noteWritten m₅ ↔
          Pairs Host.plain.diff ['a', '\n', 'x', '\n'] ['A', '\n'] noteEdited.2) := by
  have hopen : noteOpen.textAt note = some ['a', '\n'] := by decide
  have hedits : humanEdits Host.plain note [(noteInsert, .keyboard)]
      (noteOpen.serveRead ⟨0⟩ ⟨1⟩ note) (List.replicate 2 false) =
        some (noteEdited.1, noteEdited.2) := Option.eq_some_of_isSome (by decide)
  have hwrite : noteEdited.1.onAgentEvent Host.plain
      (.proposedEdit ⟨0⟩ ⟨2⟩ note none ['A', '\n']) = some noteWritten :=
    Option.eq_some_of_isSome (by decide)
  exact survives_iff_pairs Host.plain hopen hedits (by decide) (by decide) hwrite
    (List.head_mem _) (by decide) noteProposal_turn

/-- **A line lost.** The human's line is gone once the agent's write is accepted. -/
theorem not_survives_note :
    ∃ m₅, noteWritten.resolveProposal Host.plain true = some m₅ ∧
      ¬ Survives noteProposal noteEdited.2 noteWritten m₅ := by
  have hh : hunksFromDiff Host.plain.diff ['a', '\n', 'x', '\n'] ['A', '\n'] =
      some noteProposal.hunks := by decide
  obtain ⟨m₅, hm, hiff⟩ := survives_iff noteEdited.2 noteProposal_turn hh
  refine ⟨m₅, hm, fun hs => ?_⟩
  refine hiff.mp hs ⟨.replace, 0, 2, 0, 1⟩ (by decide) (by decide) 2 (by decide) ?_
  decide

end App.Model

end Termesh
