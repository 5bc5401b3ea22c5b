import Termesh.App.InSync

/-!
# Events of another session

The model holds one session and hears of several: the one it replaced may still stream. `Untouched`
says what a session keeps, and `Spares` which events of another session leave it alone.

* `owns`, `createsOf`, `waitsOf`: the terminal calls a session waits for;
* **`onAgentEvent_untouched_iff`**: an event of another session leaves the session untouched exactly
  when it is one of those that `Spares` lists.
-/

namespace Termesh

/-- The session an event carries. -/
def AgentEvent.session : AgentEvent → Option SessionId
  | .ready _ => none
  | .sessionStarted s | .modesAvailable s _ _ | .modeChanged s _ | .messageChunk s _
  | .thoughtChunk s _ | .readFileRequested s _ _ | .proposedEdit s _ _ _ _
  | .permissionRequested s _ _ _ _ _ | .terminalRequest s _ _ | .terminalAttached s _
  | .turnEnded s _ | .failed s _ => some s

namespace App.Model

variable {h : Host} {m m' : Model}

/-! ## What a session waits for -/

/-- Who holds which terminal. -/
def owners (m : Model) : List (TerminalId × TerminalOwner) := m.terminals.map fun t => (t.id, t.owner)

/-- A retained terminal of a session, and of no other owner. -/
def owns (m : Model) (session : SessionId) (terminal : TerminalId) : Bool :=
  (m.owners.any (·.1 = terminal)) && m.owners.all fun o => o.1 ≠ terminal || o.2 = .agent session

def createsOf (m : Model) (session : SessionId) : List PendingTerminalCreate :=
  m.pendingTerminalCreates.filter fun c => m.owns session c.terminal

def waitsOf (m : Model) (session : SessionId) : List PendingTerminalWait :=
  m.pendingTerminalWaits.filter fun w => m.owns session w.terminal

theorem owns_of_owners (ho : m'.owners = m.owners) (session : SessionId) :
    m'.owns session = m.owns session := by
  funext terminal
  rw [owns, owns, ho]

theorem owns_eq_false {session other : SessionId} {terminal : TerminalId} (hne : other ≠ session)
    (ho : (terminal, TerminalOwner.agent other) ∈ m.owners) : m.owns session terminal = false := by
  rw [owns, Bool.and_eq_false_iff]
  refine .inr (List.all_eq_false.mpr ⟨_, ho, ?_⟩)
  simpa using hne

/-- What a session keeps: its conversation, and the terminal calls it waits for. -/
structure Untouched (a : AgentSession) (m m' : Model) : Prop where
  agent : ∃ a', m'.agent = some a' ∧ a'.id = a.id ∧ a'.transcript = a.transcript ∧
    a'.proposals = a.proposals ∧ a'.pendingPermission = a.pendingPermission ∧
    a'.turnActive = a.turnActive ∧ a'.modes = a.modes
  creates : m'.createsOf a.id = m.createsOf a.id
  waits : m'.waitsOf a.id = m.waitsOf a.id

theorem Untouched.of_eq {a : AgentSession} (ha : m.agent = some a) (hagent : m'.agent = m.agent)
    (ht : m'.terminals = m.terminals) (hc : m'.pendingTerminalCreates = m.pendingTerminalCreates)
    (hw : m'.pendingTerminalWaits = m.pendingTerminalWaits) : Untouched a m m' := by
  have howners : m'.owners = m.owners := by rw [owners, owners, ht]
  have ho := owns_of_owners howners a.id
  refine ⟨⟨a, by rw [hagent, ha], rfl, rfl, rfl, rfl, rfl, rfl⟩, ?_, ?_⟩
  · rw [createsOf, createsOf, hc, ho]
  · rw [waitsOf, waitsOf, hw, ho]

/-! ## Ending a session -/

/-- What ending one session leaves of another: the conversation and its calls. -/
structure Apart (session : SessionId) (m m' : Model) : Prop where
  agent : m'.agent = m.agent
  owners : m'.owners = m.owners
  creates : m'.createsOf session = m.createsOf session
  waits : m'.waitsOf session = m.waitsOf session

theorem Apart.refl {session : SessionId} : Apart session m m := ⟨rfl, rfl, rfl, rfl⟩

theorem Apart.trans {session : SessionId} {m₁ m₂ m₃ : Model} (h₁ : Apart session m₁ m₂)
    (h₂ : Apart session m₂ m₃) : Apart session m₁ m₃ :=
  ⟨h₂.agent.trans h₁.agent, h₂.owners.trans h₁.owners, h₂.creates.trans h₁.creates,
    h₂.waits.trans h₁.waits⟩

theorem owners_modifyTerminal (m : Model) (terminal : TerminalId)
    {f : TerminalSession → TerminalSession} (hf : ∀ t, (f t).id = t.id ∧ (f t).owner = t.owner) :
    (m.modifyTerminal terminal f).owners = m.owners := by
  unfold modifyTerminal
  split
  · rename_i i hi
    refine List.ext_getElem? fun j => ?_
    simp only [owners, List.getElem?_map, List.getElem?_modify]
    split_ifs
    · cases m.terminals[j]? with
      | none => rfl
      | some t => simp [hf t]
    · simp
  · rfl

theorem releaseEnded_apart {session other : SessionId} (hne : other ≠ session) (reason : String)
    {t : TerminalSession} (ht : (t.id, TerminalOwner.agent other) ∈ m.owners) :
    Apart session m (releaseEnded reason m t) := by
  have ho : (releaseEnded reason m t).owners = m.owners :=
    owners_modifyTerminal { m with
      terminalOutbox := m.terminalOutbox ++ t.releaseRequests t.status.isLive } t.id
        (f := fun t => { t with released := true }) fun _ => ⟨rfl, rfl⟩
  have hmod : ∀ m : Model, (m.modifyTerminal t.id fun t => { t with released := true }).agent =
      m.agent ∧ (m.modifyTerminal t.id fun t => { t with released := true }).pendingTerminalCreates =
      m.pendingTerminalCreates ∧
      (m.modifyTerminal t.id fun t => { t with released := true }).pendingTerminalWaits =
      m.pendingTerminalWaits := by
    intro m
    unfold modifyTerminal
    split <;> exact ⟨rfl, rfl, rfl⟩
  obtain ⟨ha, hc, hw⟩ := hmod { m with
    terminalOutbox := m.terminalOutbox ++ t.releaseRequests t.status.isLive }
  refine ⟨ha, ho, ?_, ?_⟩
  · rw [createsOf, createsOf, owns_of_owners ho]
    exact congrArg _ hc
  · rw [waitsOf, waitsOf, owns_of_owners ho]
    have hkept : (releaseEnded reason m t).pendingTerminalWaits =
        m.pendingTerminalWaits.filter (·.terminal ≠ t.id) :=
      congrArg (List.filter _) hw
    rw [hkept, List.filter_filter]
    refine List.filter_congr fun w _ => ?_
    by_cases hw : w.terminal = t.id
    · rw [hw, owns_eq_false hne ht, Bool.false_and]
    · simp [hw]

/-- **Ending one session answers no call of another.** -/
theorem cancelAgentTerminals_apart {session other : SessionId} (hne : other ≠ session)
    (ha : ∀ a, m.agent = some a → a.id = session) (reason : String) :
    Apart session m (m.cancelAgentTerminals other reason) := by
  have hreject : m.rejectPendingPermission (some other) reason = m := by
    unfold rejectPendingPermission
    split
    · rfl
    · rename_i a hm
      rw [if_neg]
      simpa [ha a hm] using hne.symm
  have hfold : ∀ (ts : List TerminalSession) (m : Model),
      (∀ t ∈ ts, (t.id, TerminalOwner.agent other) ∈ m.owners) →
      Apart session m (ts.foldl (releaseEnded reason) m) := by
    intro ts
    induction ts with
    | nil => intro m _; exact .refl
    | cons t ts ih =>
      intro m hts
      have hone := releaseEnded_apart hne reason (hts t List.mem_cons_self)
      refine hone.trans (ih _ fun x hx => ?_)
      rw [hone.owners]
      exact hts x (List.mem_cons_of_mem t hx)
  unfold cancelAgentTerminals
  rw [hreject]
  refine Apart.trans ?_ (hfold _ _ fun t ht => ?_)
  · refine ⟨rfl, rfl, ?_, rfl⟩
    change List.filter (fun c : PendingTerminalCreate => m.owns session c.terminal) (List.filter _ _) = _
    rw [List.filter_filter]
    refine List.filter_congr fun c _ => ?_
    beta_reduce
    cases hany : m.terminals.any fun t => t.id = c.terminal && t.owner = .agent other with
    | false => rw [Bool.not_false, Bool.and_true]
    | true =>
      obtain ⟨t, ht, hto⟩ := List.any_eq_true.mp hany
      simp only [Bool.and_eq_true, decide_eq_true_eq] at hto
      have hmem : (c.terminal, TerminalOwner.agent other) ∈ m.owners :=
        List.mem_map.mpr ⟨t, ht, by rw [hto.1, hto.2]⟩
      rw [owns_eq_false hne hmem, Bool.false_and]
  · obtain ⟨hmem, hheld⟩ := List.mem_filter.mp ht
    simp only [Bool.and_eq_true, decide_eq_true_eq] at hheld
    exact List.mem_map.mpr ⟨t, hmem, by rw [hheld.1]⟩

/-! ## Messages and edits -/

/-- The conversation after a fragment. -/
def said (transcript : List TranscriptLine) (speaker : Speaker) (text : String) :
    List TranscriptLine :=
  let transcript := match transcript.getLast? with
    | some last =>
      if last.speaker = speaker then transcript.dropLast ++ [{ last with text := last.text ++ text }]
      else transcript ++ [⟨speaker, text⟩]
    | none => transcript ++ [⟨speaker, text⟩]
  if transcriptLimit < transcript.length then transcript.tail else transcript

theorem pushTranscript_said {a : AgentSession} (ha : m.agent = some a) (speaker : Speaker)
    (text : String) : m.pushTranscript speaker text =
      { m with agent := some { a with transcript := said a.transcript speaker text } } := by
  unfold pushTranscript
  rw [ha]
  rfl

/-- An empty fragment of a speaker who has the floor. -/
def Silent (transcript : List TranscriptLine) (speaker : Speaker) (text : String) : Prop :=
  (∃ last, transcript.getLast? = some last ∧ last.speaker = speaker) ∧ text = "" ∧
    transcript.length ≤ transcriptLimit

/-- **A fragment changes nothing exactly when it is silent.** -/
theorem said_eq_iff (transcript : List TranscriptLine) (speaker : Speaker) (text : String) :
    said transcript speaker text = transcript ↔ Silent transcript speaker text := by
  unfold said Silent
  cases hl : transcript.getLast? with
  | none =>
    obtain rfl := List.getLast?_eq_none_iff.mp hl
    simp [transcriptLimit]
  | some last =>
    obtain ⟨init, rfl⟩ := List.getLast?_eq_some_iff.mp hl
    dsimp only
    by_cases hspeaker : last.speaker = speaker
    · rw [if_pos hspeaker, List.dropLast_concat, List.length_append, List.length_append,
        List.length_singleton, List.length_singleton]
      constructor
      · intro he
        by_cases hlong : transcriptLimit < init.length + 1
        · rw [if_pos hlong] at he
          have hlen := congrArg List.length he
          simp at hlen
        · rw [if_neg hlong] at he
          have hline := List.singleton_inj.mp (List.append_cancel_left he)
          have hlen := congrArg String.length (congrArg TranscriptLine.text hline)
          rw [String.length_append] at hlen
          exact ⟨⟨last, rfl, hspeaker⟩, String.length_eq_zero_iff.mp (by omega), by omega⟩
      · rintro ⟨-, rfl, hlong⟩
        rw [if_neg (by omega), String.append_empty]
    · rw [if_neg hspeaker]
      constructor
      · intro he
        have hlast : ∀ l : List TranscriptLine, l ++ [⟨speaker, text⟩] ≠ init ++ [last] := by
          intro l hc
          have hx := List.singleton_inj.mp (List.append_inj' hc rfl).2
          exact hspeaker (by rw [← hx])
        split_ifs at he
        · rw [List.tail_append_of_ne_nil (by simp)] at he
          exact absurd he (hlast _)
        · exact absurd he (hlast _)
      · rintro ⟨⟨last', hl', hs⟩, -⟩
        exact absurd (Option.some.inj hl' ▸ hs) hspeaker

theorem refreshAll_iff {d : LineDiff} {bs : List Buffer} {ps ps' : List EditProposal} :
    refreshAll d bs ps = some ps' ↔ List.Forall₂ (Refreshed d bs) ps ps' := by
  refine ⟨refreshAll_spec, fun hf => ?_⟩
  induction hf with
  | nil => rfl
  | @cons p p' ps ps' hp _ ih =>
    rw [refreshAll]
    refine Option.bind_eq_some_iff.mpr ⟨p', ?_, by rw [ih]; rfl⟩
    unfold Refreshed at hp
    cases hf : bs.find? fun b => b.path = some p.path with
    | none => rw [hf] at hp; exact congrArg some hp.symm
    | some b => rw [hf] at hp; exact hp

/-- The revision of the newest text served for a path that reads `oldText`. -/
def servedVersion (m : Model) (path : Path) (oldText : Text) : Option Version :=
  (m.servedReads.reverse.find? fun r => r.path = path && r.text = oldText).map (·.version)

/-- The newest proposal is what the edit would make, no other has its id, and the others are
fresh. -/
def Announced (h : Host) (m : Model) (a : AgentSession) (id : ProposalId) (path : Path)
    (oldText : Option Text) (newText : Text) : Prop :=
  ∃ b p rest, m.bufferAt path = some b ∧ a.proposals = rest ++ [p] ∧
    EditProposal.new h.diff id path (m.servedVersion path (oldText.getD b.text))
      (oldText.getD b.text) newText b.text = some p ∧
    ∀ q ∈ rest, q.id ≠ id ∧ Fresh h.diff m q

theorem refreshed_self_iff {q : EditProposal} :
    Refreshed h.diff m.buffers q q ↔ Fresh h.diff m q := by
  unfold Refreshed Fresh textAt bufferAt
  cases hf : m.buffers.find? fun b => b.path = some q.path with
  | none => simp
  | some b =>
    simp only [Option.map_some, Option.some.injEq, forall_eq', EditProposal.refresh,
      Option.map_eq_some_iff]
    constructor
    · rintro ⟨hunks, hh, hq⟩
      rw [hh, ← congrArg EditProposal.hunks hq]
    · exact fun hh => ⟨_, hh, rfl⟩

theorem refreshed_new {id : ProposalId} {path : Path} {version : Option Version} {base new : Text}
    {b : Buffer} {p p' : EditProposal} (hb : m.bufferAt path = some b)
    (hp : EditProposal.new h.diff id path version base new b.text = some p) :
    Refreshed h.diff m.buffers p p' ↔ p' = p := by
  obtain ⟨hunks, hh, rfl⟩ := Option.map_eq_some_iff.mp hp
  unfold Refreshed
  dsimp only
  rw [show (m.buffers.find? fun b => b.path = some path) = some b from hb]
  dsimp only
  rw [EditProposal.refresh]
  dsimp only
  rw [show EditProposal.hunksAgainst h.diff base new b.text = some hunks from hh, Option.map_some,
    Option.some.injEq]
  exact eq_comm

/-- **An edit of an open file changes nothing exactly when it is announced already.** -/
theorem receiveProposal_iff {a : AgentSession} {id : ProposalId} {path : Path}
    {oldText : Option Text} {newText : Text} {b : Buffer} (ha : m.agent = some a)
    (hgate : m.gatedHere path = false) (hb : m.bufferAt path = some b) :
    (∃ m', m.receiveProposal h id path oldText newText = some m' ∧ Untouched a m m') ↔
      m.Announced h a id path oldText newText := by
  unfold receiveProposal
  rw [hgate, hb]
  dsimp only
  rw [if_neg Bool.false_ne_true]
  have hsync : ∀ p : EditProposal, (m.modifyAgent fun agent =>
      { agent with proposals := agent.proposals.filter (·.id ≠ id) ++ [p] }).syncProposals h =
      (refreshAll h.diff m.buffers (a.proposals.filter (·.id ≠ id) ++ [p])).map fun ps =>
        { m with
          agent := some { a with proposals := ps }
          buffers := m.buffers.map (repaint ps) } := by
    intro p
    rw [modifyAgent, ha, Option.map_some, syncProposals]
    dsimp only
    rw [if_neg (by simp)]
  constructor
  · rintro ⟨m', hm, hu⟩
    obtain ⟨p, hp, hm⟩ := Option.bind_eq_some_iff.mp hm
    rw [hsync] at hm
    obtain ⟨ps, hps, rfl⟩ := Option.map_eq_some_iff.mp hm
    obtain ⟨a', ha', -, -, hsame, -⟩ := hu.agent
    rw [← Option.some.inj ha'] at hsame
    obtain rfl : ps = a.proposals := hsame
    obtain ⟨rest, last, hrest, hlast, hall⟩ : ∃ rest last, List.Forall₂ (Refreshed h.diff m.buffers)
        (a.proposals.filter (·.id ≠ id)) rest ∧ Refreshed h.diff m.buffers p last ∧
        a.proposals = rest ++ [last] := by
      have hf := refreshAll_spec hps
      obtain ⟨us, hus⟩ : ∃ us, us = a.proposals.filter (·.id ≠ id) := ⟨_, rfl⟩
      rw [← hus] at hf ⊢
      generalize a.proposals = qs at hf
      clear hus hps
      induction us generalizing qs with
      | nil =>
        cases hf with
        | cons hp hn => cases hn; exact ⟨[], _, .nil, hp, rfl⟩
      | cons u us ih =>
        cases hf with
        | cons hu hf =>
          obtain ⟨rest, last, hr, hl, rfl⟩ := ih _ hf
          exact ⟨_ :: rest, last, .cons hu hr, hl, rfl⟩
    have hlast : last = p := (refreshed_new hb hp).mp hlast
    subst hlast
    have hid : last.id = id := by
      obtain ⟨hunks, -, rfl⟩ := Option.map_eq_some_iff.mp hp
      rfl
    have hids : ∀ q ∈ rest, q.id ≠ id := by
      intro q hq
      have hmem : q.id ∈ rest.map (·.id) := List.mem_map_of_mem hq
      have hmap := congrArg (List.map (·.id)) (map_unhunked_of_forall₂ hrest)
      rw [List.map_map, List.map_map] at hmap
      rw [show rest.map (·.id) = (a.proposals.filter (·.id ≠ id)).map (·.id) from hmap] at hmem
      obtain ⟨q', hq', heq⟩ := List.mem_map.mp hmem
      rw [← heq]
      simpa using (List.mem_filter.mp hq').2
    have hfilter : a.proposals.filter (·.id ≠ id) = rest := by
      rw [hall, List.filter_append, List.filter_eq_self.mpr fun q hq => by simpa using hids q hq]
      simp [hid]
    rw [hfilter] at hrest
    refine ⟨b, last, rest, hb, hall, hp, fun q hq => ⟨hids q hq, refreshed_self_iff.mp ?_⟩⟩
    obtain ⟨i, hi, rfl⟩ := List.getElem_of_mem hq
    exact hrest.get hi hi
  · rintro ⟨b', p, rest, hb', hall, hp, hrest⟩
    obtain rfl : b = b' := Option.some.inj (hb.symm.trans hb')
    have hid : p.id = id := by
      obtain ⟨hunks, -, rfl⟩ := Option.map_eq_some_iff.mp hp
      rfl
    have hfilter : a.proposals.filter (·.id ≠ id) = rest := by
      rw [hall, List.filter_append,
        List.filter_eq_self.mpr fun q hq => by simpa using (hrest q hq).1]
      simp [hid]
    have hrefresh : refreshAll h.diff m.buffers (rest ++ [p]) = some (rest ++ [p]) := by
      refine refreshAll_iff.mpr (List.forall₂_same.mpr fun q hq => ?_)
      rcases List.mem_append.mp hq with hq | hq
      · exact refreshed_self_iff.mpr (hrest q hq).2
      · rw [List.mem_singleton.mp hq]
        exact (refreshed_new hb hp).mpr rfl
    refine ⟨{ m with
      agent := some { a with proposals := rest ++ [p] }
      buffers := m.buffers.map (repaint (rest ++ [p])) },
      Option.bind_eq_some_iff.mpr ⟨p, hp, ?_⟩, ?_⟩
    · rw [hsync, hfilter, hrefresh]
      rfl
    · refine Untouched.of_eq ha ?_ rfl rfl rfl
      rw [← hall, ha]

/-! ## Every event -/

/-- The events of another session that leave a session alone. -/
def Spares (h : Host) (m : Model) (a : AgentSession) : AgentEvent → Prop
  | .sessionStarted _ => False
  | .messageChunk _ text => Silent a.transcript .agent text
  | .thoughtChunk _ text => Silent a.transcript .thought text
  | .proposedEdit _ id path oldText newText =>
    m.gatedHere path = true ∨ m.bufferAt path = none ∨ m.Announced h a id path oldText newText
  | .turnEnded _ _ | .failed _ _ => a.turnActive = false
  | _ => True

/-- **Events of another session** are handled, and leave the session untouched, exactly when they
are spared. -/
theorem onAgentEvent_untouched_iff (h : Host) (m : Model) {a : AgentSession} {e : AgentEvent}
    {other : SessionId} (ha : m.agent = some a) (he : e.session = some other) (hne : other ≠ a.id) :
    (∃ m', m.onAgentEvent h e = some m' ∧ Untouched a m m') ↔ Spares h m a e := by
  have hkeep : ∀ m' : Model, m'.agent = m.agent → m'.terminals = m.terminals →
      m'.pendingTerminalCreates = m.pendingTerminalCreates →
      m'.pendingTerminalWaits = m.pendingTerminalWaits → Untouched a m m' :=
    fun m' h₁ h₂ h₃ h₄ => Untouched.of_eq ha h₁ h₂ h₃ h₄
  -- a step that only speaks
  have hsay : ∀ speaker text, (∃ m', some (m.pushTranscript speaker text) = some m' ∧
      Untouched a m m') ↔ Silent a.transcript speaker text := by
    intro speaker text
    rw [← said_eq_iff, pushTranscript_said ha]
    constructor
    · rintro ⟨m', hm, hu⟩
      obtain ⟨a', ha', -, hsaid, -⟩ := hu.agent
      rw [← Option.some.inj hm] at ha'
      rwa [← Option.some.inj ha'] at hsaid
    · intro hsaid
      exact ⟨_, rfl, hkeep _ (by rw [hsaid, ha]) rfl rfl rfl⟩
  -- a step that ends a turn
  have hend : ∀ m₁ m₂ : Model,
      m₁ = m.modifyAgent (fun agent => { agent with turnActive := false }) →
      Apart a.id m₁ m₂ → (Untouched a m m₂ ↔ a.turnActive = false) := by
    rintro m₁ m₂ rfl hap
    have hagent : m₂.agent = some { a with turnActive := false } := by
      rw [hap.agent, modifyAgent, ha]
      rfl
    constructor
    · intro hu
      obtain ⟨a', ha', -, -, -, -, hturn, -⟩ := hu.agent
      rw [← Option.some.inj (hagent.symm.trans ha')] at hturn
      exact hturn.symm
    · intro hturn
      exact ⟨⟨_, hagent, rfl, rfl, rfl, rfl, hturn.symm, rfl⟩, hap.creates, hap.waits⟩
  have hfilter : m.agent.filter (fun agent => agent.id = other) = none := by
    rw [ha, Option.filter_some, if_neg]
    simpa using hne.symm
  cases e with
  | ready => cases he
  | sessionStarted session =>
    obtain rfl : session = other := Option.some.inj he
    refine iff_of_false ?_ not_false
    rintro ⟨m', hm, hu⟩
    obtain ⟨a', ha', hsame, -⟩ := hu.agent
    have hstart : m'.agent.map (·.id) = some session := by
      rw [← Option.some.inj hm, startSession]
      dsimp only
      split <;> rfl
    rw [ha', Option.map_some, hsame] at hstart
    exact hne (Option.some.inj hstart).symm
  | modesAvailable session current available =>
    obtain rfl : session = other := Option.some.inj he
    refine iff_of_true ⟨_, rfl, hkeep _ ?_ rfl rfl rfl⟩ trivial
    rw [modifyAgent, ha, Option.map_some, if_neg (Ne.symm hne)]
  | modeChanged session mode =>
    obtain rfl : session = other := Option.some.inj he
    refine iff_of_true ⟨m, ?_, hkeep _ rfl rfl rfl rfl⟩ trivial
    rw [onAgentEvent, hfilter]
  | messageChunk session text => exact hsay .agent text
  | thoughtChunk session text => exact hsay .thought text
  | readFileRequested session request path =>
    refine iff_of_true ⟨_, rfl, ?_⟩ trivial
    unfold serveRead
    split
    · exact hkeep _ rfl rfl rfl rfl
    · split_ifs <;> exact hkeep _ rfl rfl rfl rfl
  | proposedEdit session id path oldText newText =>
    cases hgate : m.gatedHere path with
    | true =>
      refine iff_of_true ⟨m, ?_, hkeep _ rfl rfl rfl rfl⟩ (.inl hgate)
      rw [onAgentEvent, receiveProposal, if_pos hgate]
    | false =>
      cases hb : m.bufferAt path with
      | none =>
        refine iff_of_true ⟨m.notify ("agent proposed edits to " ++ displayName path ++
          "; open it to review"), ?_, hkeep _ rfl rfl rfl rfl⟩ (.inr (.inl hb))
        rw [onAgentEvent, receiveProposal, hgate, hb, if_neg Bool.false_ne_true]
      | some b =>
        refine (receiveProposal_iff ha hgate hb).trans ⟨fun h => .inr (.inr h), ?_⟩
        rintro (hg | hn | h)
        · rw [hgate] at hg
          cases hg
        · rw [hb] at hn
          cases hn
        · exact h
  | permissionRequested session request summary command spec edit =>
    obtain rfl : session = other := Option.some.inj he
    refine iff_of_true ⟨_, ?_, hkeep (m.reply (.permission request .rejectOnce)) rfl rfl rfl rfl⟩
      trivial
    rw [onAgentEvent]
    unfold receivePermission
    rw [ha, if_neg]
    simp [hne.symm]
  | terminalRequest session request operation =>
    obtain rfl : session = other := Option.some.inj he
    refine iff_of_true ⟨_, ?_, hkeep (m.respondTerminal request (.error "unknown agent session"))
      rfl rfl rfl rfl⟩ trivial
    rw [onAgentEvent]
    unfold handleAgentTerminal
    rw [ha, if_pos]
    simpa using hne.symm
  | terminalAttached session terminal =>
    obtain rfl : session = other := Option.some.inj he
    refine iff_of_true ⟨_, rfl, hkeep _ ?_ rfl rfl rfl⟩ trivial
    rw [modifyAgent, ha, Option.map_some, if_neg]
    exact fun hc => hne hc.2.1.symm
  | turnEnded session reason =>
    obtain rfl : session = other := Option.some.inj he
    have hids : ∀ x, (m.modifyAgent fun agent => { agent with turnActive := false }).agent = some x →
        x.id = a.id := by
      intro x hx
      rw [modifyAgent, ha] at hx
      rw [← Option.some.inj hx]
    by_cases hr : reason = .cancelled
    · have hap := cancelAgentTerminals_apart hne hids "agent session cancelled"
      rw [Spares, ← hend _ _ rfl hap, onAgentEvent, if_pos hr]
      simp only [Option.some.injEq, exists_eq_left']
    · rw [Spares, ← hend _ _ rfl .refl, onAgentEvent, if_neg hr]
      simp only [Option.some.injEq, exists_eq_left']
  | failed session message =>
    obtain rfl : session = other := Option.some.inj he
    have hids : ∀ x, (m.modifyAgent fun agent => { agent with turnActive := false }).agent = some x →
        x.id = a.id := by
      intro x hx
      rw [modifyAgent, ha] at hx
      rw [← Option.some.inj hx]
    have hap := cancelAgentTerminals_apart hne hids "agent session failed"
    rw [Spares, ← hend _ (((m.modifyAgent fun agent =>
      { agent with turnActive := false }).cancelAgentTerminals session "agent session failed").notify
        ("agent: " ++ message)) rfl ⟨hap.agent, hap.owners, hap.creates, hap.waits⟩, onAgentEvent]
    simp only [Option.some.injEq, exists_eq_left']

/-- A session at work, which replaced session 1. -/
def working : AgentSession := { id := ⟨2⟩, turnActive := true }

def atWork : Model := { agent := some working }

theorem onAgentEvent_untouched_iff_modes :
    ∃ m', atWork.onAgentEvent Host.plain (.modesAvailable ⟨1⟩ "ask" []) = some m' ∧
      Untouched working atWork m' :=
  (onAgentEvent_untouched_iff Host.plain atWork (a := working) rfl rfl (by decide)).mpr trivial

/-- **The turn of another session ends**, and the session at work is taken to be idle. -/
theorem not_untouched_turnEnded :
    ¬ ∃ m', atWork.onAgentEvent Host.plain (.turnEnded ⟨1⟩ .endTurn) = some m' ∧
      Untouched working atWork m' := by
  rintro ⟨m', hm, hu⟩
  obtain ⟨a', ha', -, -, -, -, hturn, -⟩ := hu.agent
  rw [← Option.some.inj hm] at ha'
  rw [← Option.some.inj ha'] at hturn
  cases hturn

end App.Model

end Termesh
