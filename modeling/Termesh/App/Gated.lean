import Termesh.App.Accepting
import Termesh.App.Parley

/-!
# Edits the agent makes itself

A permission request may show the edit it is about as a proposal. The agent makes that edit once it
is allowed, so the proposal is never applied: judging it answers the permission, and takes both away.
`Docket` follows a run together with the numbers announced and those given to such proposals.

* `Withdraws`: a permission under review is withdrawn without an answer of the human;
* `Docket.Gated`, `step_gated`: a proposal that shows a permission is the one that is pending;
* **`gated_never_applied`**: after every run that withdraws no review, judging such a proposal changes
  no document, and the proposal goes with the permission;
* **`gated_applied_after_failure`**: a review withdrawn stays as an ordinary proposal.
-/

namespace Termesh

namespace App.Model

variable {h : Host} {m m' : Model}

/-- The numbers an event announces for proposals and permission requests. -/
def announced : Event → List ℕ
  | .agent (.permissionRequested _ request _ _ _ _) => [request.val]
  | .agent (.proposedEdit _ id _ _ _) => [id.val]
  | _ => []

/-- The number an event reserves for the proposal that shows a permission. -/
def reserved : Event → List ProposalId
  | .agent (.permissionRequested _ request _ _ _ _) => [⟨request.val⟩]
  | _ => []

/-- A run of the model, with the numbers announced and those that show a permission. -/
structure Docket where
  model : Model
  named : List ℕ := []
  gated : List ProposalId := []

/-- One event. -/
def Docket.step (h : Host) (c : Docket) (ev : Event) : Option Docket :=
  (c.model.step h ev).map fun m =>
    { model := m, named := c.named ++ announced ev, gated := c.gated ++ reserved ev }

/-- The session whose permission an event withdraws, `none` for any. -/
def withdrawn : Event → Option (Option SessionId)
  | .agent (.turnEnded session .cancelled) | .agent (.failed session _) => some (some session)
  | .shutdownTerminals => some none
  | _ => none

/-- The event withdraws a permission that is under review. -/
def Withdraws (m : Model) (ev : Event) : Prop :=
  ∃ session a, withdrawn ev = some session ∧ m.agent = some a ∧
    (session.all fun s => a.id = s) = true ∧ (a.pendingPermission.bind (·.review)).isSome

/-- Announced numbers are new, and no permission under review is withdrawn. -/
def Docket.Orderly (c : Docket) (ev : Event) : Prop :=
  (∀ n ∈ announced ev, n ∉ c.named) ∧ ¬ Withdraws c.model ev

/-- A proposal that shows a permission is shown by the one that is pending. -/
structure Docket.Gated (c : Docket) : Prop where
  pending : ∀ t, c.model.parley.1 = some t → ∀ id ∈ t.proposals, id ∈ c.gated → t.review = some id
  named : ∀ t, c.model.parley.1 = some t → ∀ id ∈ t.proposals, id.val ∈ c.named
  reserved : ∀ id ∈ c.gated, id.val ∈ c.named

/-- **Orderly steps keep reviews with their permission.** -/
theorem step_gated {c c' : Docket} {ev : Event} (hi : c.Gated) (ho : c.Orderly ev)
    (hs : c.step h ev = some c') : c'.Gated := by
  obtain ⟨m', hm, rfl⟩ := Option.map_eq_some_iff.mp hs
  -- what the parley becomes, with the numbers of the event
  have key : ∀ t, ParleyStep c.model ev t → ∀ x, t.1 = some x →
      (∀ id ∈ x.proposals, id ∈ c.gated ++ reserved ev → x.review = some id) ∧
        ∀ id ∈ x.proposals, id.val ∈ c.named ++ announced ev := by
    intro t ht x hx
    -- the numbers of the event are new
    have hold : ∀ id, id.val ∈ c.named → id ∈ c.gated ++ reserved ev → id ∈ c.gated := by
      intro id hnamed hg
      rcases List.mem_append.mp hg with hg | hg
      · exact hg
      · refine absurd hnamed (ho.1 _ ?_)
        unfold reserved at hg
        split at hg
        · rw [List.mem_singleton.mp hg]
          exact List.mem_singleton.mpr rfl
        · cases hg
    -- a part of the proposals, whose review stays or is gone with its proposal
    have hpart : ∀ y, c.model.parley.1 = some y → (∀ id ∈ x.proposals, id ∈ y.proposals) →
        (x.review = y.review ∨ ∀ id ∈ x.proposals, y.review ≠ some id) →
        (∀ id ∈ x.proposals, id ∈ c.gated ++ reserved ev → x.review = some id) ∧
          ∀ id ∈ x.proposals, id.val ∈ c.named ++ announced ev := by
      intro y hy hsub hreview
      refine ⟨fun id hid hg => ?_, fun id hid =>
        List.mem_append_left _ (hi.named y hy id (hsub id hid))⟩
      have hpend := hi.pending y hy id (hsub id hid) (hold id (hi.named y hy id (hsub id hid)) hg)
      rcases hreview with heq | hgone
      · rw [heq, hpend]
      · exact absurd hpend (hgone id hid)
    have hsame : c.model.parley.1 = some x →
        (∀ id ∈ x.proposals, id ∈ c.gated ++ reserved ev → x.review = some id) ∧
          ∀ id ∈ x.proposals, id.val ∈ c.named ++ announced ev :=
      fun hx => hpart x hx (fun _ hid => hid) (.inl rfl)
    have hwithdraw : ∀ session y, withdrawn ev = some session → c.model.parley.1 = some y →
        (session.all fun s => y.id = s) = true → y.review = none := by
      intro session y hw hy hall
      obtain ⟨a, ha, rfl⟩ := Option.map_eq_some_iff.mp hy
      cases hr : (talk a).review with
      | none => rfl
      | some r =>
        refine absurd ⟨session, a, hw, ha, hall, ?_⟩ ho.2
        exact Option.isSome_iff_exists.mpr ⟨r, hr⟩
    cases ht with
    | keeps | hears | taken => exact hsame hx
    | @asks _ _ a _ _ ha =>
      cases hx
      exact hpart (talk a) (by rw [parley_some ha]) (fun _ hid => hid) (.inl rfl)
    | starts | resumes =>
      cases hx
      exact ⟨fun id hid => absurd hid List.not_mem_nil, fun id hid => absurd hid List.not_mem_nil⟩
    | ends =>
      obtain ⟨y, hy, rfl⟩ := Option.map_eq_some_iff.mp hx
      exact hpart y hy (fun _ hid => hid) (.inl rfl)
    | @cancels e session he =>
      obtain ⟨y, hy, rfl⟩ := Option.map_eq_some_iff.mp hx
      have hw : withdrawn (.agent e) = some (some session) := by
        rcases he with rfl | ⟨message, rfl⟩ <;> rfl
      refine hpart y hy (fun id hid => ?_) (.inl ?_)
      · split_ifs at hid <;> exact hid
      · split_ifs with hid
        · exact (hwithdraw _ y hw hy (by simpa using hid)).symm
        · rfl
    | closes =>
      obtain ⟨y, hy, rfl⟩ := Option.map_eq_some_iff.mp hx
      exact hpart y hy (fun _ hid => hid) (.inl (hwithdraw none y rfl hy rfl).symm)
    | decides =>
      obtain ⟨y, hy, rfl⟩ := Option.map_eq_some_iff.mp hx
      cases hr : y.review with
      | none => exact hpart y hy (by simp [Talk.answer, hr]) (.inl hr.symm)
      | some reviewed =>
        refine hpart y hy (fun id hid => ?_) (.inr fun id hid => ?_)
        · rw [Talk.answer, hr] at hid
          exact (List.mem_filter.mp hid).1
        · rw [Talk.answer, hr] at hid
          rw [hr]
          simpa using Ne.symm (by simpa using (List.mem_filter.mp hid).2)
    | @judges _ a p rest _ _ ha hp =>
      cases hx
      refine hpart (talk a) (by rw [parley_some ha]) (fun id hid => ?_) (.inl rfl)
      rw [talk, hp]
      exact List.mem_cons_of_mem _ hid
    | @proposes session id path oldText newText =>
      obtain ⟨y, hy, rfl⟩ := Option.map_eq_some_iff.mp hx
      have hnew : id.val ∉ c.named := ho.1 _ (List.mem_singleton.mpr rfl)
      refine ⟨fun k hk hg => ?_, fun k hk => ?_⟩
      · rcases List.mem_append.mp hk with hk | hk
        · have hmem := (List.mem_filter.mp hk).1
          exact hi.pending y hy k hmem (hold k (hi.named y hy k hmem) hg)
        · rw [List.mem_singleton.mp hk, show reserved _ = [] from rfl, List.append_nil] at hg
          exact absurd (hi.reserved id hg) hnew
      · rcases List.mem_append.mp hk with hk | hk
        · exact List.mem_append_left _ (hi.named y hy k (List.mem_filter.mp hk).1)
        · rw [List.mem_singleton.mp hk]
          exact List.mem_append_right _ (List.mem_singleton.mpr rfl)
    | @holds session request _ _ _ _ a shown ha hp hshown =>
      cases hx
      have hy : c.model.parley.1 = some (talk a) := by rw [parley_some ha]
      have hfree : (talk a).review = none := by rw [talk, hp]; rfl
      refine ⟨fun k hk hg => ?_, fun k hk => ?_⟩
      · rcases List.mem_append.mp hk with hk | hk
        · have hpend := hi.pending _ hy k hk (hold k (hi.named _ hy k hk) hg)
          rw [hfree] at hpend
          cases hpend
        · rcases hshown with rfl | rfl
          · cases hk
          · rw [List.mem_singleton.mp hk]
            rfl
      · rcases List.mem_append.mp hk with hk | hk
        · exact List.mem_append_left _ (hi.named _ hy k hk)
        · rcases hshown with rfl | rfl
          · cases hk
          · rw [List.mem_singleton.mp hk]
            exact List.mem_append_right _ (List.mem_singleton.mpr rfl)
  constructor
  · intro t ht
    exact (key m'.parley (step_parley hm) t ht).1
  · intro t ht
    exact (key m'.parley (step_parley hm) t ht).2
  · intro id hid
    rcases List.mem_append.mp hid with hid | hid
    · exact List.mem_append_left _ (hi.reserved id hid)
    · refine List.mem_append_right _ ?_
      unfold reserved at hid
      split at hid
      · rw [List.mem_singleton.mp hid]
        exact List.mem_singleton.mpr rfl
      · cases hid

/-- Judging the oldest proposal while it shows the pending permission changes no document, and takes
it away with the permission. -/
theorem resolveProposal_gated {a : AgentSession} {p : EditProposal} {rest : List EditProposal}
    {accept : Bool} (ha : m.agent = some a) (hp : a.proposals = p :: rest)
    (hpend : a.pendingPermission.bind (·.review) = some p.id)
    (hr : m.resolveProposal h accept = some m') :
    m'.documents = m.documents ∧ ∀ a', m'.agent = some a' →
      a'.pendingPermission.bind (·.review) = none ∧ ∀ q ∈ a'.proposals, q.id ≠ p.id := by
  have hgate : m.gatedFirst = true := by
    rw [gatedFirst, ha]
    dsimp only
    rw [hpend, hp]
    exact decide_eq_true rfl
  unfold resolveProposal at hr
  rw [if_pos hgate] at hr
  obtain ⟨m₁, hm₁, rfl⟩ := Option.map_eq_some_iff.mp hr
  refine ⟨(decidePermission_documents hm₁ : m₁.documents = _), fun a' ha' => ?_⟩
  have hanswer : m₁.parley = (m.parley.1.map Talk.answer, m.prompts) := by
    rcases decidePermission_parley hm₁ with ⟨-, hnone⟩ | ht
    · -- a permission is pending, so it was answered
      rw [hnone a ha] at hpend
      cases hpend
    · exact ht
  have htalk : talk a' = (talk a).answer := by
    have := congrArg Prod.fst hanswer
    rw [parley_some (show m₁.agent = some a' from ha'), parley_some ha] at this
    exact Option.some.inj this
  have hreview : (talk a).review = some p.id := hpend
  refine ⟨?_, fun q hq => ?_⟩
  · rw [show a'.pendingPermission.bind (·.review) = (talk a').review from rfl, htalk]
    rfl
  · have hmem : q.id ∈ (talk a').proposals := List.mem_map_of_mem hq
    rw [htalk, Talk.answer, hreview] at hmem
    simpa using (List.mem_filter.mp hmem).2

/-- **An edit the agent makes itself is never applied.** After every orderly run the proposal that
shows a permission is there only while that permission is pending, and judging it changes no document
and takes it away with the permission. -/
theorem gated_never_applied (h : Host) {c : Docket}
    (hr : Runs.Reach (Docket.step h) Docket.Orderly
      (fun c => c.model.agent = none ∧ c.gated = []) c) :
    (∀ a p, c.model.agent = some a → p ∈ a.proposals → p.id ∈ c.gated →
      a.pendingPermission.bind (·.review) = some p.id) ∧
    ∀ a p rest accept m', c.model.agent = some a → a.proposals = p :: rest → p.id ∈ c.gated →
      c.model.resolveProposal h accept = some m' → m'.documents = c.model.documents ∧
        ∀ a', m'.agent = some a' →
          a'.pendingPermission.bind (·.review) = none ∧ ∀ q ∈ a'.proposals, q.id ≠ p.id := by
  have hi : c.Gated := by
    refine hr.inv (fun s hs => ?_) fun s ev s' hi ho hs => step_gated hi ho hs
    have hnone : s.model.parley.1 = none := by rw [parley, hs.1]; rfl
    refine ⟨fun t ht => ?_, fun t ht => ?_, fun id hid => ?_⟩
    · rw [hnone] at ht
      cases ht
    · rw [hnone] at ht
      cases ht
    · rw [hs.2] at hid
      cases hid
  have hpend : ∀ a p, c.model.agent = some a → p ∈ a.proposals → p.id ∈ c.gated →
      a.pendingPermission.bind (·.review) = some p.id := fun a p ha hp hg =>
    hi.pending (talk a) (by rw [parley_some ha]) p.id (List.mem_map_of_mem hp) hg
  refine ⟨hpend, fun a p rest accept m' ha hp hg hres => ?_⟩
  exact resolveProposal_gated ha hp (hpend a p ha (by rw [hp]; exact List.mem_cons_self) hg) hres

/-- The note on screen, and no agent yet. -/
def noteAlone : Model := { noteShown with agent := none }

/-- The agent asks to make the edit of the note itself. -/
def noteAsked : Event :=
  .agent (.permissionRequested ⟨1⟩ ⟨3⟩ "edit note" [] none (some ⟨note, ['a', '\n'], ['A', '\n']⟩))

def noteStarted : Docket :=
  (Docket.step Host.plain ⟨noteAlone, [], []⟩ (.agent (.sessionStarted ⟨1⟩))).get (by decide)

def noteGated : Docket := (Docket.step Host.plain noteStarted noteAsked).get (by decide)

theorem gated_never_applied_note :
    ∃ m', noteGated.model.resolveProposal Host.plain true = some m' ∧
      m'.documents = noteGated.model.documents := by
  have hstart : Docket.step Host.plain ⟨noteAlone, [], []⟩ (.agent (.sessionStarted ⟨1⟩)) =
      some noteStarted := Option.eq_some_of_isSome (by decide)
  have hask : Docket.step Host.plain noteStarted noteAsked = some noteGated :=
    Option.eq_some_of_isSome (by decide)
  have hfirst : Docket.Orderly ⟨noteAlone, [], []⟩ (.agent (.sessionStarted ⟨1⟩)) :=
    ⟨by decide, fun ⟨_, _, hw, _⟩ => nomatch hw⟩
  have hsecond : Docket.Orderly noteStarted noteAsked := ⟨by decide, fun ⟨_, _, hw, _⟩ => nomatch hw⟩
  obtain ⟨a, ha⟩ : ∃ a, noteGated.model.agent = some a := Option.isSome_iff_exists.mp (by decide)
  obtain ⟨m', hm'⟩ : ∃ m', noteGated.model.resolveProposal Host.plain true = some m' :=
    Option.isSome_iff_exists.mp (by decide)
  have hids : a.proposals.map (·.id) = [⟨3⟩] := by
    have ht : noteGated.model.parley.1.map Talk.proposals = some [⟨3⟩] := by decide
    rw [parley_some ha] at ht
    exact Option.some.inj ht
  refine ⟨m', hm', ?_⟩
  have hall := (gated_never_applied Host.plain
    (.next (.next (.start (s := ⟨noteAlone, [], []⟩) ⟨rfl, rfl⟩) hfirst hstart) hsecond hask)).2
  cases hp : a.proposals with
  | nil => simp [hp] at hids
  | cons p rest =>
    rw [hp, List.map_cons] at hids
    have hid : p.id = ⟨3⟩ := (List.cons.inj hids).1
    exact (hall a p rest true m' ha hp (by rw [hid]; decide) hm').1

/-- **Applied after all.** The session fails while the edit is under review; the permission is
withdrawn, and accepting what is left of the review changes the file. -/
theorem gated_applied_after_failure :
    noteAlone.pages = [(some note, ['a', '\n'])] ∧
      (Runs.run (step Host.plain) noteAlone [.agent (.sessionStarted ⟨1⟩), noteAsked,
        .agent (.failed ⟨1⟩ "gone"), .dispatch .proposalAccept]).map (·.pages) =
          some [(some note, ['A', '\n'])] :=
  ⟨rfl, by decide⟩

end App.Model

end Termesh
