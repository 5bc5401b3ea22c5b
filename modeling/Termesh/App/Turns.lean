import Termesh.App.Parley
import Termesh.Lib.Run

/-!
# Turns

A prompt is sent for the session captured when its overlay was opened, and the turn of whatever
session is current is marked active. `Course` follows a run together with the sessions that have a
prompt in flight.

* `Current`: a prompt is confirmed for the session it was opened for;
* **`turn_in_flight`**: after every run of such steps prompts name the current session, and an active
  turn has a prompt in flight;
* **`not_in_flight_early`**: an overlay opened before the session sends a prompt for no session.
-/

namespace Termesh

namespace App.Model

variable {h : Host} {m m' : Model}

/-- The session whose turn an event ends. -/
def ended : Event → Option SessionId
  | .agent (.turnEnded session _) | .agent (.failed session _) => some session
  | _ => none

/-- A run of the model, with the sessions that have a prompt in flight. -/
structure Course where
  model : Model
  inFlight : List SessionId := []

/-- The prompts a step queued. -/
def promptsSince (m m' : Model) : List SessionId := m'.prompts.drop m.prompts.length

/-- One event. -/
def Course.step (h : Host) (c : Course) (ev : Event) : Option Course :=
  (c.model.step h ev).map fun m =>
    { model := m
      inFlight := c.inFlight.filter (fun s => some s ≠ ended ev) ++ promptsSince c.model m }

/-- A prompt confirmed while a session is live was opened for that session. -/
def Current (m : Model) : Event → Prop
  | .confirmPrompt prompt => ∀ session a, prompt.kind = .agentPrompt session →
    trim prompt.input ≠ "" → m.agent = some a → a.id = session
  | _ => True

/-- An active turn has a prompt in flight. -/
def Course.InFlight (c : Course) : Prop :=
  ∀ a, c.model.agent = some a → a.turnActive = true → a.id ∈ c.inFlight

/-- **Prompts are queued for the session that is current then.** -/
theorem step_prompts {ev : Event} (hs : m.step h ev = some m') (hc : Current m ev) :
    ∀ s ∈ promptsSince m m', m'.agent.map (·.id) = some s := by
  have key : ∀ t, ParleyStep m ev t → ∀ s ∈ t.2.drop m.prompts.length,
      t.1.map Talk.id = some s := by
    intro t ht s hps
    cases ht with
    | keeps | hears | starts | ends | cancels | closes | decides | judges | proposes | holds =>
      have hnil : s ∈ m.prompts.drop m.prompts.length := hps
      rw [List.drop_length] at hnil
      cases hnil
    | taken =>
      rw [List.drop_nil] at hps
      cases hps
    | @asks prompt session a hk hn ha =>
      rw [List.drop_left, List.mem_singleton] at hps
      rw [hps, ← hc session a hk hn ha]
      rfl
    | resumes =>
      rw [List.drop_left, List.mem_singleton] at hps
      rw [hps]
      rfl
  intro s hps
  have ht := key m'.parley (step_parley hs) s hps
  rwa [parley, Option.map_map] at ht

/-- **An active turn keeps its prompt in flight.** -/
theorem step_inFlight {c c' : Course} {ev : Event} (hi : c.InFlight) (hc : Current c.model ev)
    (hs : c.step h ev = some c') : c'.InFlight := by
  obtain ⟨m', hm, rfl⟩ := Option.map_eq_some_iff.mp hs
  -- an active turn was active before, and its session is not the one whose turn ends, or it is new
  have key : ∀ t, ParleyStep c.model ev t → ∀ x, t.1 = some x → x.turnActive = true →
      (∃ a, c.model.agent = some a ∧ a.turnActive = true ∧ a.id = x.id ∧ ended ev = none) ∨
        x.id ∈ t.2.drop c.model.prompts.length := by
    intro t ht x hx hactive
    have hkept : ∀ g : Talk → Talk, (∀ t, (g t).id = t.id ∧ (g t).turnActive = t.turnActive) →
        c.model.parley.1.map g = some x → ended ev = none →
        ∃ a, c.model.agent = some a ∧ a.turnActive = true ∧ a.id = x.id ∧ ended ev = none := by
      intro g hg hgx he
      obtain ⟨t, ht, rfl⟩ := Option.map_eq_some_iff.mp hgx
      obtain ⟨a, ha, rfl⟩ := Option.map_eq_some_iff.mp ht
      exact ⟨a, ha, (hg (talk a)).2.symm.trans hactive, (hg (talk a)).1.symm, he⟩
    have hidle : ∀ g : Talk → Talk, (∀ t, (g t).turnActive = false) →
        c.model.parley.1.map g ≠ some x := by
      intro g hg hgx
      obtain ⟨t, -, rfl⟩ := Option.map_eq_some_iff.mp hgx
      rw [hg] at hactive
      cases hactive
    have hnone : (∀ s r, ev ≠ .agent (.turnEnded s r)) → (∀ s t, ev ≠ .agent (.failed s t)) →
        ended ev = none := by
      intro h₁ h₂
      unfold ended
      split
      · exact absurd rfl (h₁ _ _)
      · exact absurd rfl (h₂ _ _)
      · rfl
    have hself : c.model.parley.1 = some x → c.model.parley.1.map id = some x := by
      rw [Option.map_id]
      exact id
    cases ht with
    | keeps he =>
      exact .inl (hkept id (fun _ => ⟨rfl, rfl⟩) (hself hx)
        (hnone (fun _ _ => he _) fun _ _ => he _))
    | hears hs ht hf =>
      refine .inl (hkept id (fun _ => ⟨rfl, rfl⟩) (hself hx) (hnone (fun s r he => ?_) fun s t he => ?_))
      · exact ht s r (Event.agent.inj he)
      · exact hf s t (Event.agent.inj he)
    | taken => exact .inl (hkept id (fun _ => ⟨rfl, rfl⟩) (hself hx) rfl)
    | @asks prompt session a hk hn ha =>
      right
      rw [List.drop_left, List.mem_singleton, ← Option.some.inj hx]
      exact hc session a hk hn ha
    | starts =>
      rw [← Option.some.inj hx] at hactive
      cases hactive
    | resumes =>
      right
      rw [List.drop_left, List.mem_singleton, ← Option.some.inj hx]
    | ends => exact absurd hx (hidle _ fun _ => rfl)
    | cancels =>
      refine absurd hx (hidle _ fun t => ?_)
      split_ifs <;> rfl
    | closes => exact .inl (hkept Talk.withdraw (fun _ => ⟨rfl, rfl⟩) hx rfl)
    | decides he =>
      exact .inl (hkept Talk.answer (fun _ => ⟨rfl, rfl⟩) hx
        (hnone (fun _ _ => he _) fun _ _ => he _))
    | @judges cmd a p rest hcmd hg ha hp =>
      refine .inl ⟨a, ha, ?_, ?_, rfl⟩
      · rw [← Option.some.inj hx] at hactive
        exact hactive
      · rw [← Option.some.inj hx]
        rfl
    | @proposes _ id =>
      exact .inl (hkept (fun t => { t with proposals := t.proposals.filter (· ≠ id) ++ [id] })
        (fun _ => ⟨rfl, rfl⟩) hx rfl)
    | @holds _ _ _ _ _ _ a shown ha hp hshown =>
      refine .inl ⟨a, ha, ?_, ?_, rfl⟩
      · rw [← Option.some.inj hx] at hactive
        exact hactive
      · rw [← Option.some.inj hx]
        rfl
  intro a ha hactive
  refine List.mem_append.mpr ?_
  rcases key m'.parley (step_parley hm) (talk a) (by rw [parley_some ha]) hactive with
    ⟨b, hb, hbactive, hid, hended⟩ | hnew
  · refine .inl (List.mem_filter.mpr ⟨?_, by rw [hended]; simp⟩)
    rw [← show b.id = a.id from hid]
    exact hi b hb hbactive
  · exact .inr hnew

/-- **Turns are in flight.** After every run whose prompts are confirmed for the session they were
opened for, an active turn has a prompt in flight, and what the next such step queues names the
session that is current then. -/
theorem turn_in_flight (h : Host) {c : Course}
    (hr : Runs.Reach (Course.step h) (fun c ev => Current c.model ev)
      (fun c => c.model.agent = none) c) :
    c.InFlight ∧ ∀ ev c', Current c.model ev → c.step h ev = some c' →
      ∀ s ∈ promptsSince c.model c'.model, c'.model.agent.map (·.id) = some s := by
  constructor
  · refine hr.inv (fun s hs a ha => ?_) fun s ev s' hi hc hs => step_inFlight hi hc hs
    rw [hs] at ha
    cases ha
  · intro ev c' hc hs
    obtain ⟨m', hm, rfl⟩ := Option.map_eq_some_iff.mp hs
    exact step_prompts hm hc

/-- The question asked in the runs below. -/
def question (session : SessionId) : Event :=
  .confirmPrompt { title := "Ask the agent", input := "hi", kind := .agentPrompt session }

/-- A session starts, and a question is asked in an overlay opened for it. -/
def asked : Course :=
  (Runs.run (Course.step Host.plain) ⟨{}, []⟩ [.agent (.sessionStarted ⟨1⟩), question ⟨1⟩]).get
    (by decide)

/-- The same question, in an overlay opened before the session started. -/
def askedEarly : Course :=
  (Runs.run (Course.step Host.plain) ⟨{}, []⟩ [.agent (.sessionStarted ⟨1⟩), question ⟨0⟩]).get
    (by decide)

theorem turn_in_flight_asked : asked.InFlight := by
  have hstart : Course.step Host.plain ⟨{}, []⟩ (.agent (.sessionStarted ⟨1⟩)) =
      some ⟨startSession Host.plain {} ⟨1⟩, []⟩ := rfl
  have hask : Course.step Host.plain ⟨startSession Host.plain {} ⟨1⟩, []⟩ (question ⟨1⟩) =
      some asked := Option.eq_some_of_isSome (by decide)
  refine (turn_in_flight Host.plain (.next (.next (.start (s := ⟨{}, []⟩) rfl) ?_ hstart) ?_ hask)).1
  · exact trivial
  · intro session a hk _ ha
    rw [← PromptKind.agentPrompt.inj hk, ← Option.some.inj ha]

/-- **A turn that nobody runs.** The prompt names no session, and the turn of the session that
started in the meantime is active. -/
theorem not_in_flight_early :
    Runs.run (Course.step Host.plain) ⟨{}, []⟩ [.agent (.sessionStarted ⟨1⟩), question ⟨0⟩] =
      some askedEarly ∧ askedEarly.model.parley = (some { id := ⟨1⟩, turnActive := true }, [⟨0⟩]) ∧
      ¬ askedEarly.InFlight := by
  refine ⟨Option.eq_some_of_isSome (by decide), by decide, fun hi => ?_⟩
  obtain ⟨a, ha⟩ : ∃ a, askedEarly.model.agent = some a := Option.isSome_iff_exists.mp (by decide)
  have hactive : a.turnActive = true := by
    have ht : askedEarly.model.agent.map (·.turnActive) = some true := by decide
    rw [ha] at ht
    exact Option.some.inj ht
  have hid : a.id = ⟨1⟩ := by
    have ht : askedEarly.model.agent.map (·.id) = some ⟨1⟩ := by decide
    rw [ha] at ht
    exact Option.some.inj ht
  have hmem := hi a ha hactive
  rw [hid] at hmem
  revert hmem
  decide

end App.Model

end Termesh
