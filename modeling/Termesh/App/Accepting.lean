import Termesh.App.Anchoring
import Termesh.App.InSync
import Termesh.Lib.Run

/-!
# Accepting acts on the text under review

`resolveProposal` applies the hunks cached in the oldest proposal. While proposals are in sync these
are the hunks of the text its file has now.

* **`accepts_current`**: proposals are in sync, and accepting is that, after every careful run;
* **`not_inSync_reopened`**: a file closed and opened again is reviewed by its old hunks.
-/

namespace Termesh

open EditScript

theorem apply_of_no_hunks {cs : ChangeSet} {t : Text} (h : changesetFromHunks [] t.length = some cs) :
    cs.apply t = t := by
  have hinside : ∀ k ∈ ([] : List Hunk), k.Inside t.length := fun k hk => absurd hk List.not_mem_nil
  obtain ⟨cs', h', hlen, htoks⟩ := changesetFromHunks_spec .nil hinside
  obtain rfl : cs' = cs := Option.some.inj (h'.symm.trans h)
  have hs : hunkScript 0 (sortHunks []) t.length = keeps t.length := rfl
  rw [cs'.apply_eq t hlen.symm, htoks, hs, app_nf _ _ (by simp)]
  have := app_keeps [] t ([] : Text)
  simpa [app] using this

/-- **The clean hunks against a text are apart and inside it.** -/
theorem hunksAgainst_clean {d : LineDiff} {base proposed current : Text} {hs : List Hunk}
    (hb : LinesAgree base) (hp : LinesAgree proposed) (hc : LinesAgree current)
    (h : EditProposal.hunksAgainst d base proposed current = some hs) :
    (hs.filter (·.state.isApplicable)).Pairwise Hunk.Disjoint ∧
      ∀ k ∈ hs.filter (·.state.isApplicable), k.Inside current.length := by
  obtain ⟨agent, hagent, hr⟩ := Option.bind_eq_some_iff.mp h
  unfold rebaseHunks at hr
  split_ifs at hr with heq
  · subst heq
    rw [← Option.some.inj hr]
    have hin := hunksFromDiff_inOrder hagent
    refine ⟨hin.disjoint.filter _, fun k hk => ?_⟩
    exact (hin.mem (List.mem_filter.mp hk).1).2
  · obtain ⟨human, hhuman, hr⟩ := Option.bind_eq_some_iff.mp hr
    obtain ⟨catchup, hcatchup, rfl⟩ := Option.map_eq_some_iff.mp hr
    obtain ⟨human', catchup', hspec⟩ := catchup_exists d hb hc
    obtain rfl : human' = human := Option.some.inj (hspec.human_eq.symm.trans hhuman)
    obtain rfl : catchup' = catchup := Option.some.inj (hspec.change_eq.symm.trans hcatchup)
    obtain ⟨agent', hagent', hsep, -⟩ := hunksFromDiff_spec d hb hp
    obtain rfl : agent' = agent := Option.some.inj (hagent'.symm.trans hagent)
    exact hspec.clean_disjoint hsep

namespace App.Model

variable {h : Host} {m m' : Model}

/-- What is known of a buffer after a transaction on it: only its own page changed. -/
theorem transact_pages {path : Path} {i : ℕ} {b : Buffer} {cs : ChangeSet} {s : EditSource}
    (hl : m.located path = some (i, b)) (hlen : cs.lenBefore = b.text.length) :
    ∃ m', m.transact i cs s = some (m', .ok ()) ∧
      m'.pages = m.pages.set i (some path, cs.apply b.text) := by
  obtain ⟨hb, hp, -, -⟩ := located_some hl
  obtain ⟨b', ha, hspec⟩ := Buffer.apply_ok (b := (b.transaction cs s).1)
    (t := (b.transaction cs s).2) rfl hlen
  refine ⟨m.setBuffer i b', ?_, ?_⟩
  · rw [transact, hb, Option.bind_some]
    exact congrArg (Option.map _) ha
  · have htext : b'.text = cs.apply b.text ∧ b'.path = some path := by
      cases hspec with
      | empty _ _ hid =>
        refine ⟨?_, hp⟩
        have hid := ChangeSet.toks_of_isIdentity cs hid
        change b.text = _
        rw [cs.apply_eq _ hlen.symm, hid, hlen]
        simpa [app] using (app_keeps [] b.text ([] : Text)).symm
      | changed => exact ⟨rfl, hp⟩
    rw [Model.pages, Model.pages, setBuffer, List.map_set, htext.1, htext.2]

/-- **Accepting applies the clean hunks of the current text**, and changes no other file. -/
theorem resolveProposal_applies {agent : AgentSession} {p : EditProposal} {rest : List EditProposal}
    {i : ℕ} {b : Buffer} (hi : InSync h m) (ha : m.agent = some agent)
    (hps : agent.proposals = p :: rest) (hgate : m.gatedFirst = false)
    (hl : m.located p.path = some (i, b)) (hbase : LinesAgree p.baseText)
    (hprop : LinesAgree p.proposedText) (htext : LinesAgree b.text) :
    ∃ hunks cs m', EditProposal.hunksAgainst h.diff p.baseText p.proposedText b.text = some hunks ∧
      changesetFromHunks (hunks.filter (·.state.isApplicable)) b.text.length = some cs ∧
      m.resolveProposal h true = some m' ∧
      m'.pages = m.pages.set i (some p.path, cs.apply b.text) := by
  obtain ⟨hb, hp, hat, -⟩ := located_some hl
  have hmem : p ∈ m.proposals := by
    rw [proposals, ha, Option.map_some, Option.getD_some, hps]
    exact List.mem_cons_self
  have hfresh := hi p hmem b.text (by rw [textAt, hat]; rfl)
  obtain ⟨hdis, hin⟩ := hunksAgainst_clean hbase hprop htext hfresh
  obtain ⟨cs, hcs, hlen, -⟩ := changesetFromHunks_spec hdis hin
  have hreview : ∃ m₁ n, applyReview { m with agent := some { agent with proposals := rest } } p =
      some (m₁, n) ∧ m₁.pages = m.pages.set i (some p.path, cs.apply b.text) := by
    unfold applyReview
    rw [show located { m with agent := some { agent with proposals := rest } } p.path = some (i, b)
      from hl]
    dsimp only
    by_cases hnil : p.applicable = []
    · rw [if_pos hnil]
      refine ⟨_, _, rfl, ?_⟩
      rw [show p.hunks.filter (·.state.isApplicable) = [] from hnil] at hcs
      rw [apply_of_no_hunks hcs]
      refine (List.ext_getElem? fun j => ?_).symm
      rw [List.getElem?_set]
      split_ifs with h1 h2
      · subst h1
        change _ = (m.buffers.map fun b => (b.path, b.text))[i]?
        rw [List.getElem?_map, hb, Option.map_some, hp]
      · subst h1
        exact (List.getElem?_eq_none (by simpa [Model.pages] using h2)).symm
      · rfl
    · rw [if_neg hnil]
      obtain ⟨m₁, ht, hpages⟩ := transact_pages (s := .agent p.id)
        (m := { m with agent := some { agent with proposals := rest } }) hl hlen
      rw [show changesetFromHunks p.applicable b.text.length = some cs from hcs, Option.bind_some,
        ht, Option.map_some]
      exact ⟨_, _, rfl, hpages⟩
  obtain ⟨m₁, n, hr, hpages⟩ := hreview
  refine ⟨p.hunks, cs, ?_⟩
  unfold resolveProposal
  rw [hgate, ha]
  dsimp only
  rw [hps]
  dsimp only
  rw [if_neg Bool.false_ne_true, if_pos rfl, hr]
  refine ⟨_, hfresh, hcs, rfl, ?_⟩
  rw [← hpages, Model.pages, Model.pages]
  exact List.map_map

/-- **After every careful run** proposals are in sync with the files under review, so accepting
applies exactly the clean hunks of the text as it stands. -/
theorem accepts_current (h : Host) {m : Model}
    (hr : Runs.Reach (step h) Careful (fun m => m.proposals = []) m) :
    InSync h m ∧ ∀ agent p rest i b, m.agent = some agent → agent.proposals = p :: rest →
      m.gatedFirst = false → m.located p.path = some (i, b) →
      LinesAgree p.baseText → LinesAgree p.proposedText → LinesAgree b.text →
      ∃ hunks cs m',
        EditProposal.hunksAgainst h.diff p.baseText p.proposedText b.text = some hunks ∧
        changesetFromHunks (hunks.filter (·.state.isApplicable)) b.text.length = some cs ∧
        m.resolveProposal h true = some m' ∧
        m'.pages = m.pages.set i (some p.path, cs.apply b.text) := by
  have hi : InSync h m :=
    hr.inv (fun s hs => InSync.of_nil hs) fun s ev s' hi hc hs => step_inSync hi hc hs
  exact ⟨hi, fun agent p rest i b ha hps hgate hl hbase hprop htext =>
    resolveProposal_applies hi ha hps hgate hl hbase hprop htext⟩

/-- The note on screen, under review once the agent has proposed a change of its line. -/
def noteShown : Model := { noteOpen with activeBuffer := some 0 }

def noteEdit : Event := .agent (.proposedEdit ⟨0⟩ ⟨2⟩ note none ['A', '\n'])

def noteReviewed : Model := (noteShown.step Host.plain noteEdit).get (by decide)

/-- The proposal under review. -/
def noteChange : EditProposal :=
  ⟨⟨2⟩, note, none, ['a', '\n'], ['A', '\n'], [⟨0, 2, ['A', '\n'], .clean⟩]⟩

/-- The buffer under review. -/
def noteBuffer : ℕ × Buffer := (noteReviewed.located note).get (by decide)

theorem accepts_current_note :
    InSync Host.plain noteReviewed ∧ ∃ cs m', changesetFromHunks noteChange.hunks 2 = some cs ∧
      noteReviewed.resolveProposal Host.plain true = some m' ∧
      m'.pages = [(some note, cs.apply ['a', '\n'])] := by
  have hstep : noteShown.step Host.plain noteEdit = some noteReviewed := (Option.some_get _).symm
  have hcareful : Careful noteShown noteEdit := trivial
  have hlocated : noteReviewed.located noteChange.path = some (noteBuffer.1, noteBuffer.2) :=
    Option.eq_some_of_isSome (by decide)
  obtain ⟨hi, haccept⟩ :=
    accepts_current Host.plain (.next (.start (s := noteShown) rfl) hcareful hstep)
  refine ⟨hi, ?_⟩
  obtain ⟨hunks, cs, m', hh, hcs, hres, hpages⟩ := haccept
    (noteReviewed.agent.get (by decide)) noteChange [] _ _ (Option.some_get _).symm (by decide)
    (by decide) hlocated (by decide) (by decide) (by decide)
  have hclean : hunks.filter (·.state.isApplicable) = noteChange.hunks := by
    rw [Option.some.inj (hh.symm.trans (show _ = some noteChange.hunks by decide))]
    decide
  rw [hclean] at hcs
  exact ⟨cs, m', hcs, hres, hpages⟩

/-- The tab is closed, and the file, which has a new first line by now, is opened again. -/
def noteReopening : List Event :=
  [noteEdit, .dispatch .closeTab, .openFile note,
    .fs (.fileLoaded ⟨1⟩ note (some ['b', '\n', 'a', '\n']))]

def noteReopened : Model := (Runs.run (step Host.plain) noteShown noteReopening).get (by decide)

/-- **Hunks of an older text.** The file opened again is under review by the hunks of the text it
was closed with, and accepting them replaces the wrong line. -/
theorem not_inSync_reopened :
    Runs.run (step Host.plain) noteShown noteReopening = some noteReopened ∧
      ¬ InSync Host.plain noteReopened ∧
      (noteReopened.resolveProposal Host.plain true).map (·.pages) =
        some [(some note, ['A', '\n', 'a', '\n'])] := by
  refine ⟨(Option.some_get _).symm, fun hi => ?_, by decide⟩
  have hstale := hi noteChange (by decide) ['b', '\n', 'a', '\n'] (by decide)
  revert hstale
  decide

end App.Model

end Termesh
