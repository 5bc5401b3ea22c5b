import Termesh.Agent.Proposal
import Termesh.App.Inside
import Termesh.Editor.Grouping
import Termesh.Editor.Search

/-!
# Find and replace

A find keeps the matches of the text it searched. They are the matches of the text on screen as long
as that text stays, and as long as folding case does not change how long it is.

* `substitute`: a text with its matches replaced;
* **`build_findAll`**: replacing the matches of a text that folds evenly builds a change that does it;
* `Searched`: the matches of a live find are those of the text on screen;
* `Drifts`: the steps that change the text on screen under a live find;
* **`step_searched`**, **`replaces_current`**: every other step keeps finds current;
* **`not_current_typed`**: typing does not.
-/

namespace Termesh

open EditScript

/-- Folding case keeps the length of the text, or is not asked for. -/
def Folding.Even (f : Folding) (query text : Text) : Prop :=
  query.any f.isUppercase = true ∨ (f.toLowercase text).length = text.length

/-- The text from offset `pos` on with its matches replaced. -/
def substitute (replacement text : Text) : ℕ → List Match → Text
  | pos, [] => text.drop pos
  | pos, t :: ts =>
    (text.drop pos).take (t.1 - pos) ++ (replacement ++ substitute replacement text t.2 ts)

/-- The hunks that replace matches. -/
def pieces (replacement : Text) (ts : List Match) : List Hunk :=
  ts.map fun t => ⟨t.1, t.2, replacement, .clean⟩

theorem app_pieces (replacement text : Text) {pos : ℕ} {ts : List Match}
    (h : InOrder pos (pieces replacement ts) text.length) :
    app (hunkScript pos (pieces replacement ts) text.length) (text.drop pos) =
      substitute replacement text pos ts := by
  induction ts generalizing pos with
  | nil => exact app_hunkScript_nil text pos
  | cons t ts ih =>
    obtain ⟨h1, h2, h3⟩ := h
    have happ := app_hunkScript_cons h1 h2 h3.le (pieces replacement ts)
    rw [ih h3] at happ
    exact happ

theorem matchIndices_inOrder (replacement needle : Text) {len : ℕ} (t : Text) {from_ pos skip : ℕ}
    (hs : skip ≤ t.length) (hf : from_ ≤ pos + skip) (hl : pos + t.length ≤ len) :
    InOrder from_ (pieces replacement ((matchIndices needle t pos skip).map fun start =>
      (start, start + needle.length))) len := by
  induction t generalizing from_ pos skip with
  | nil =>
    show from_ ≤ len
    simp only [List.length_nil] at hs hl
    omega
  | cons c t ih =>
    simp only [List.length_cons] at hs hl
    cases skip with
    | succ skip => exact ih (by omega) (by omega) (by omega)
    | zero =>
      rw [matchIndices]
      split_ifs with hp
      · have hn := (List.isPrefixOf_iff_prefix.mp hp).length_le
        rw [List.length_cons] at hn
        exact ⟨by simpa using hf, Nat.le_add_right _ _, ih (by omega) (by dsimp only; omega) (by omega)⟩
      · exact ih (by omega) (by omega) (by omega)

theorem findAll_inOrder {f : Folding} {text query : Text} (h : f.Even query text)
    (replacement : Text) :
    InOrder 0 (pieces replacement (findAll f text query)) text.length := by
  have hlen : (CaseMode.smart.folded f query text).length = text.length := CaseMode.length_folded h
  rw [findAll, findAllIn]
  by_cases hq : query = []
  · rw [if_pos hq]
    exact Nat.zero_le _
  · rw [if_neg hq]
    exact matchIndices_inOrder _ _ _ (Nat.zero_le _) (Nat.zero_le _) (by omega)

/-- **Replacing the matches of a text that folds evenly** does not panic, and does that. -/
theorem build_findAll {f : Folding} {text query : Text} (h : f.Even query text)
    (replacement : Text) :
    ∃ changes, (hunkLoop (pieces replacement (findAll f text query)) 0
        (ChangeSet.builder text.length)).bind ChangeSetBuilder.build = some changes ∧
      changes.lenBefore = text.length ∧
      changes.apply text = substitute replacement text 0 (findAll f text query) := by
  have hin := findAll_inOrder h replacement
  obtain ⟨b, hb, hl, hc, hn⟩ := hunkLoop_spec _ 0 text.length (ChangeSet.builder text.length) hin
    rfl rfl
  obtain ⟨changes, hcs, hcl, ht⟩ := ChangeSetBuilder.build_some (b := b) (by rw [hl]; exact hc)
  have hlen : text.length = changes.lenBefore := (hcl.trans hl).symm
  refine ⟨changes, by rw [hb]; exact hcs, hlen.symm, ?_⟩
  have htoks : changes.toks = nf (hunkScript 0 (pieces replacement (findAll f text query))
      text.length) := by
    show toks changes.ops = _
    rw [ht, hl, hn]
    rfl
  rw [changes.apply_eq text hlen, htoks, app_nf _ _ (by rw [pre_hunkScript hin]; omega)]
  have happ := app_pieces replacement text hin
  rwa [List.drop_zero] at happ

/-! ## One undo step -/

namespace Buffer

/-- **Every operation keeps the groups below the counter.** -/
theorem work_grouped {T : Prop} {P : Document → Selection → Prop} {b b' : Buffer}
    (hw : Work T P b b') (hb : b.history.Grouped) : b'.history.Grouped := by
  cases hw with
  | draw | goal | select => exact hb
  | edit _ changes source h =>
    obtain ⟨hg, hle⟩ := hb.groupFor source
    cases applied_of_apply h with
    | refused | empty => exact hg
    | changed => exact hg.push hle _
  | undo _ h =>
    obtain ⟨⟨h', c⟩, hu, hr⟩ := Option.bind_eq_some_iff.mp h
    exact grouped_replayed (hb.undo hu) hr
  | redo _ h =>
    obtain ⟨⟨h', c⟩, hu, hr⟩ := Option.bind_eq_some_iff.mp h
    exact grouped_replayed (hb.redo hu) hr

/-- **A replacement is one undo step**: undoing what it recorded restores the text it replaced. -/
theorem undo_replacement {b b' : Buffer} {changes inverse : ChangeSet}
    (hb : b.history.Grouped) (hl : b.text.length = changes.lenBefore)
    (hi : changes.invert b.text = some inverse) (hne : changes.isIdentity = false)
    (ht : b'.text = changes.apply b.text)
    (hh : b'.history = (b.history.groupFor .replace).1.push
      (b.transaction changes .replace).2 inverse) :
    ∃ b'', b'.undo = some (b'', true) ∧ b''.text = b.text := by
  have hgroup : b.history.groupFor .replace =
      ({ b.history with nextGroup := b.history.nextGroup + 1 }, b.history.nextGroup + 1) := by
    unfold History.groupFor
    split
    · rw [if_neg (by simp [EditSource.coalesces])]
    · rfl
  have hhist : b'.history = { b.history with
      nextGroup := b.history.nextGroup + 1, undone := [], groupBroken := false
      lastSource := some .replace
      applied := ⟨b.history.nextGroup + 1, changes, inverse⟩ :: b.history.applied } := by
    rw [hh, hgroup]
    unfold History.push EditTransaction.isEmpty
    rw [if_neg (by show ¬ changes.isIdentity = true; simp [hne])]
    unfold transaction
    rw [hgroup]
  -- no older entry belongs to the new group
  have hpass : History.shiftGroup Entry.inverse (b.history.nextGroup + 1)
      (⟨b.history.nextGroup + 1, changes, inverse⟩ :: b.history.applied) [] none =
        some (b.history.applied, [⟨b.history.nextGroup + 1, changes, inverse⟩], some inverse) := by
    rw [History.shiftGroup, if_pos rfl]
    show History.shiftGroup _ _ _ _ (some inverse) = _
    cases happ : b.history.applied with
    | nil => rfl
    | cons e es =>
      have hle := hb.1 e (by rw [happ]; exact List.mem_cons_self)
      rw [History.shiftGroup, if_neg (Nat.ne_of_lt (Nat.lt_succ_of_le hle))]
  obtain ⟨c, hc, hcl, -⟩ := changes.invert_some b.text hl
  obtain rfl : inverse = c := Option.some.inj (hi.symm.trans hc)
  have hlen : inverse.lenBefore = b'.text.length := by
    rw [ht, hcl, changes.length_apply _ hl]
  have hundo : ∃ history, b'.history.undo = some (history, some inverse) := by
    rw [hhist]
    unfold History.undo
    dsimp only
    rw [hpass]
    exact ⟨_, rfl⟩
  obtain ⟨history, hundo⟩ := hundo
  refine ⟨{ b' with
    history, text := inverse.apply b'.text, version := b'.version + 1
    selection := b'.selection.map inverse
    decorations := b'.decorations.map inverse
    pendingChanges := b'.pendingChanges ++ [inverse] }, ?_, ?_⟩
  · rw [undo, hundo, Option.bind_some, replayed, replay, if_neg (not_not.mpr hlen)]
    rfl
  · show inverse.apply b'.text = b.text
    rw [ht]
    exact changes.invert_apply inverse b.text hl hi

end Buffer

/-! ## A live find -/

namespace App.Model

open Buffer Document

variable {h : Host} {m m' : Model} {ev : Event}

/-- The text on screen. -/
def shown (m : Model) : Option Text := m.active.map (·.text)

/-- The matches of a live find are those of the text on screen, and it folds evenly. -/
def Searched (h : Host) (m : Model) : Prop :=
  ∀ find b, m.find = some find → m.active = some b →
    find.found = findAll h.folding b.text find.query ∧ h.folding.Even find.query b.text

/-- The steps that leave a live find behind: a search of a text that does not fold evenly, and any
other step that puts a different text on screen. -/
def Drifts (h : Host) (m : Model) (ev : Event) : Prop :=
  ∃ m' find text, m.step h ev = some m' ∧ m'.find = some find ∧ m'.shown = some text ∧
    ((ev.Searches ∧ ¬ h.folding.Even find.query text) ∨ (¬ ev.Searches ∧ m.shown ≠ some text))

theorem active_of_onScreen {i : ℕ} {b : Buffer} (h : m.onScreen = some (i, b)) :
    m.active = some b := by
  obtain ⟨ha, hb⟩ := onScreen_some h
  rw [active, ha]
  exact hb

theorem active_set {i : ℕ} {b b' : Buffer} (h : m.onScreen = some (i, b)) :
    (m.setBuffer i b').active = some b' := by
  obtain ⟨ha, hb⟩ := onScreen_some h
  obtain ⟨hlt, -⟩ := List.getElem?_eq_some_iff.mp hb
  show m.activeBuffer.bind (fun j => (m.buffers.set i b')[j]?) = some b'
  rw [ha]
  exact List.getElem?_set_self hlt

theorem focusMatch_shown (hf : m.focusMatch = some m') :
    m'.find = m.find ∧ m'.shown = m.shown := by
  unfold focusMatch at hf
  split at hf
  · rename_i find i b hfind hon
    have hset : ∀ b' : Buffer, b'.text = b.text →
        (m.setBuffer i b').find = m.find ∧ (m.setBuffer i b').shown = m.shown := by
      intro b' ht
      refine ⟨rfl, ?_⟩
      rw [shown, shown, active_set hon, active_of_onScreen hon]
      exact congrArg some ht
    dsimp only at hf
    split at hf
    · exact Option.some.inj hf ▸ hset _ rfl
    · obtain ⟨t, -, hx⟩ := Option.map_eq_some_iff.mp hf
      exact hx ▸ hset _ rfl
  · exact Option.some.inj hf ▸ ⟨rfl, rfl⟩

theorem clearFind_find (m : Model) : m.clearFind.find = none := by
  unfold clearFind
  dsimp only
  split <;> rfl

theorem runFind_found {query : Text} (hr : m.runFind h query = some m') :
    m' = m ∨ ∃ b current, m.active = some b ∧ m'.shown = m.shown ∧
      m'.find = some { query, found := findAll h.folding b.text query, current } := by
  unfold runFind at hr
  split at hr
  · exact .inl (Option.some.inj hr).symm
  · rename_i b hb
    obtain ⟨hfind, hshown⟩ := focusMatch_shown hr
    exact .inr ⟨b, _, hb, hshown, hfind⟩

/-- **Every step that leaves no live find behind keeps finds current.** -/
theorem step_searched (hi : m.Searched h) (hn : ¬ m.Drifts h ev) (hs : m.step h ev = some m') :
    m'.Searched h := by
  intro find' b' hf' hb'
  have hshown' : m'.shown = some b'.text := by rw [shown, hb']; rfl
  by_cases hsearch : ev.Searches
  · obtain ⟨prompt, rfl, hk⟩ := hsearch
    have hsearch : (Event.confirmPrompt prompt).Searches := ⟨prompt, rfl, hk⟩
    have heven : h.folding.Even find'.query b'.text := by
      by_contra hodd
      exact hn ⟨m', find', b'.text, hs, hf', hshown', .inl ⟨hsearch, hodd⟩⟩
    simp only [step, confirmPrompt, hk] at hs
    split_ifs at hs
    · rw [← Option.some.inj hs, clearFind_find] at hf'
      cases hf'
    · rcases runFind_found hs with rfl | ⟨b, current, hb, hshown, hfind⟩
      · exact hi find' b' hf' hb'
      · have htext : b.text = b'.text := by
          rw [hshown', shown, hb] at hshown
          exact (Option.some.inj hshown).symm
        rw [hf'] at hfind
        rw [Option.some.inj hfind] at heven ⊢
        exact ⟨by rw [htext], heven⟩
  · have hshown : m.shown = some b'.text := by
      by_contra hother
      exact hn ⟨m', find', b'.text, hs, hf', hshown', .inr ⟨hsearch, hother⟩⟩
    obtain ⟨-, hsought⟩ := step_sources (P := fun _ _ => True) (fun _ _ _ => trivial)
      (fun _ _ _ => trivial) hs
    obtain ⟨find, hf, hquery, hfound⟩ := hsought.resolve_left hsearch find' hf'
    obtain ⟨b, hb, htext⟩ := Option.map_eq_some_iff.mp hshown
    rw [hquery, hfound, ← htext]
    exact hi find b hf hb

theorem step_grouped (hi : ∀ b ∈ m.buffers, b.history.Grouped) (hs : m.step h ev = some m') :
    ∀ b ∈ m'.buffers, b.history.Grouped := by
  have hempty : History.Grouped {} := ⟨fun _ he => (by cases he), fun _ he => (by cases he)⟩
  refine step_everywhere (P := fun _ _ => True) (fun _ _ _ => trivial) (fun _ _ _ => trivial)
    (fun _ _ => work_grouped) ⟨?_, ?_, ?_⟩ hs hi
  · exact fun _ _ _ _ => hempty
  · exact fun _ _ _ _ _ _ _ _ _ => hempty
  · exact fun _ _ _ _ _ _ hb => hb

/-! ## Replacing all -/

/-- In the buffer on screen, exactly the matches of the query are replaced, as one undo step. -/
def Replaces (h : Host) (m m' : Model) (query replacement : Text) : Prop :=
  ∃ i b b' b'', m.onScreen = some (i, b) ∧ m'.buffers[i]? = some b' ∧
    m'.pages = m.pages.set i
      (b.path, substitute replacement b.text 0 (findAll h.folding b.text query)) ∧
    b'.undo = some (b'', true) ∧ b''.text = b.text

/-- **A current find replaces what matches now.** -/
theorem replaceAll_replaces (hi : m.Searched h) (hg : ∀ b ∈ m.buffers, b.history.Grouped)
    {find : Find} (hf : m.find = some find) {replacement : Text}
    (hr : m.replaceAll h replacement = some m') :
    m'.documents = m.documents ∨ Replaces h m m' find.query replacement := by
  unfold replaceAll at hr
  rw [hf] at hr
  dsimp only at hr
  split_ifs at hr
  · exact .inl (Option.some.inj hr ▸ rfl)
  · split at hr
    · exact .inl (Option.some.inj hr ▸ rfl)
    · rename_i i b hon
      obtain ⟨hfound, heven⟩ := hi find b hf (active_of_onScreen hon)
      obtain ⟨changes, hbuild, hlen, hsubst⟩ := build_findAll heven replacement
      rw [← hfound] at hbuild
      unfold pieces at hbuild
      rw [hbuild, Option.bind_some] at hr
      have hb := (onScreen_some hon).2
      have hlt : i < m.buffers.length := (List.getElem?_eq_some_iff.mp hb).1
      obtain ⟨b₁, happly, happlied⟩ := apply_ok (b := (b.transaction changes .replace).1)
        (t := (b.transaction changes .replace).2) rfl hlen
      have htransact : m.transact i changes .replace = some (m.setBuffer i b₁, .ok ()) := by
        rw [transact, hb, Option.bind_some]
        dsimp only
        rw [happly]
        rfl
      rw [htransact, Option.bind_some] at hr
      dsimp only at hr
      -- what follows the transaction only draws
      have hdocs : m'.docs = (m.setBuffer i b₁).docs := by
        obtain ⟨ps, -, hbare⟩ := syncProposals_spec hr
        have h₁ : m'.bare.buffers = _ := congrArg Model.buffers hbare
        refine h₁.trans ?_
        have hdrawn : ∀ bs : List Buffer, (bs.modify i fun b =>
            { b with decorations := b.decorations.clearMatches }).map Buffer.bare =
              bs.map Buffer.bare := fun bs => map_bare_modify i fun _ => rfl
        exact hdrawn (m.setBuffer i b₁).buffers
      cases happlied with
      | empty => exact .inl ((documents_of_docs hdocs).trans (documents_set hb rfl))
      | @changed inverse hv hl hne hinv =>
        have hat : m'.docs[i]? = some ((b.transaction changes .replace).1.applied
            (b.transaction changes .replace).2 inverse).bare := by
          rw [hdocs, docs, List.getElem?_map, setBuffer, List.getElem?_set_self hlt]
          rfl
        rw [docs, List.getElem?_map] at hat
        obtain ⟨b', hb', hbare⟩ := Option.map_eq_some_iff.mp hat
        have htext : b'.text = changes.apply b.text := congrArg Buffer.text hbare
        have hhist : b'.history = (b.history.groupFor .replace).1.push
            (b.transaction changes .replace).2 inverse := congrArg Buffer.history hbare
        obtain ⟨b'', hundo, hback⟩ := undo_replacement (hg b (List.mem_of_getElem? hb)) hl hinv hne
          htext hhist
        refine .inr ⟨i, b, b', b'', hon, hb',
          (pages_of_documents (documents_of_docs hdocs)).trans ?_, hundo, hback⟩
        rw [pages, pages, setBuffer, List.map_set, ← hsubst]
        rfl

/-- **A step to a match of a current find** stays inside the text on screen. -/
theorem stepMatch_inside (hi : m.Searched h) {forward : Bool} (hs : m.stepMatch forward = some m') :
    Worked False (fun d s => s.Within d.text.length) m m' := by
  refine stepMatch_worked (fun find i b k t hf hon _ ht => ?_) hs
  obtain ⟨hfound, heven⟩ := hi find b hf (active_of_onScreen hon)
  rw [hfound] at ht
  have hin := findAll_inside heven t (List.mem_of_getElem? ht)
  intro r hr
  rw [List.mem_singleton.mp hr]
  exact hin

/-- **After every run that leaves no live find behind**, replacing all replaces what matches now, as
one undo step, and does not panic; and stepping selects nothing outside the text on screen. -/
theorem replaces_current (h : Host) {m : Model}
    (hr : Runs.Reach (step h) (fun m ev => ¬ m.Drifts h ev)
      (fun m => m.buffers = [] ∧ m.find = none) m) {find : Find} (hf : m.find = some find) :
    (∀ replacement m', m.replaceAll h replacement = some m' →
        m'.documents = m.documents ∨ Replaces h m m' find.query replacement) ∧
      (∀ i b replacement, m.onScreen = some (i, b) →
        ((hunkLoop (pieces replacement find.found) 0 (ChangeSet.builder b.text.length)).bind
          ChangeSetBuilder.build).isSome) ∧
      ∀ forward m', m.stepMatch forward = some m' →
        Worked False (fun d s => s.Within d.text.length) m m' := by
  have hi : m.Searched h ∧ ∀ b ∈ m.buffers, b.history.Grouped := by
    refine Runs.Reach.inv (I := fun m => m.Searched h ∧ ∀ b ∈ m.buffers, b.history.Grouped)
      (fun s hs => ⟨?_, ?_⟩) (fun s ev s' hi hn hs =>
        ⟨step_searched hi.1 hn hs, step_grouped hi.2 hs⟩) hr
    · intro find b hfind
      rw [hs.2] at hfind
      cases hfind
    · intro b hb
      rw [hs.1] at hb
      cases hb
  refine ⟨fun replacement m' => replaceAll_replaces hi.1 hi.2 hf, fun i b replacement hon => ?_,
    fun forward m' => stepMatch_inside hi.1⟩
  obtain ⟨hfound, heven⟩ := hi.1 find b hf (active_of_onScreen hon)
  obtain ⟨changes, hbuild, -⟩ := build_findAll heven replacement
  rw [hfound, hbuild]
  rfl

/-- Search the note for `b`. -/
def searchNote : Event := .confirmPrompt { title := "Find", input := "b", kind := .find }

def noteSearched : Model := (noteShort.step Host.plain searchNote).get (by decide)

def noteFind : Find := noteSearched.find.get (by decide)

theorem replaces_current_note :
    (∀ replacement m', noteSearched.replaceAll Host.plain replacement = some m' →
        m'.documents = noteSearched.documents ∨
          Replaces Host.plain noteSearched m' noteFind.query replacement) ∧
      (∀ i b replacement, noteSearched.onScreen = some (i, b) →
        ((hunkLoop (pieces replacement noteFind.found) 0 (ChangeSet.builder b.text.length)).bind
          ChangeSetBuilder.build).isSome) ∧
      ∀ forward m', noteSearched.stepMatch forward = some m' →
        Worked False (fun d s => s.Within d.text.length) noteSearched m' := by
  have hopen : ({} : Model).step Host.plain (.openFile shortNote) = some noteWanted := rfl
  have hread : noteWanted.step Host.plain noteRead = some noteShort :=
    Option.eq_some_of_isSome (by decide)
  have hsearch : noteShort.step Host.plain searchNote = some noteSearched :=
    Option.eq_some_of_isSome (by decide)
  have hlost : ∀ {m m' : Model} {ev}, m.step Host.plain ev = some m' → m'.find = none →
      ¬ m.Drifts Host.plain ev := by
    rintro m m' ev hs hnone ⟨m₁, find, text, hs₁, hfind, -⟩
    rw [Option.some.inj (hs₁.symm.trans hs), hnone] at hfind
    cases hfind
  have heven : ¬ noteShort.Drifts Host.plain searchNote := by
    rintro ⟨m₁, find, text, -, -, -, ⟨-, hodd⟩ | ⟨hother, -⟩⟩
    · exact hodd (.inr (by simp [Host.plain]))
    · exact hother ⟨_, rfl, rfl⟩
  exact replaces_current Host.plain
    (.next (.next (.next (.start ⟨rfl, rfl⟩) (hlost hopen rfl) hopen)
      (hlost hread (by decide)) hread) heven hsearch)
    (Option.eq_some_of_isSome (by decide))

/-- The note is searched for `b`, and a character is typed in front of the match. -/
def noteTyped : List Event :=
  [.openFile shortNote, noteRead, searchNote, .dispatch (.cursor .lineStart), .typeChar 'z']

/-- **A find left behind.** Replacing all replaces the `a` that stands now where `b` stood. -/
theorem not_current_typed :
    ∃ m m', Runs.run (step Host.plain) {} noteTyped = some m ∧
      m.replaceAll Host.plain ['X'] = some m' ∧
      m.find.map (·.query) = some ['b'] ∧
      m.buffers.map (·.text) = [['z', 'a', 'b', '\n']] ∧
      m'.buffers.map (·.text) = [['z', 'X', 'b', '\n']] := by
  have hview : ((Runs.run (step Host.plain) {} noteTyped).bind fun m =>
      (m.replaceAll Host.plain ['X']).map fun m' =>
        (m.find.map (·.query), m.buffers.map (·.text), m'.buffers.map (·.text))) =
          some (some ['b'], [['z', 'a', 'b', '\n']], [['z', 'X', 'b', '\n']]) := by decide
  obtain ⟨m, hm, hview⟩ := Option.bind_eq_some_iff.mp hview
  obtain ⟨m', hm', hx⟩ := Option.map_eq_some_iff.mp hview
  obtain ⟨hquery, hpages⟩ := Prod.mk.inj hx
  exact ⟨m, m', hm, hm', hquery, (Prod.mk.inj hpages).1, (Prod.mk.inj hpages).2⟩

end App.Model

end Termesh
