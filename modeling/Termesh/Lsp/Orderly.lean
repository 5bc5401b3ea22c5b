import Termesh.Lsp.Session
import Termesh.Lsp.Stream

/-!
# The document stream of a process

What a session writes to a process is what it was asked, in order, behind `initialized`. So whatever
the replay of the requests that wait says of them, it says of the messages written.

* `requests`, `WellFormed`: the requests written, and the rules of the stream;
* `Process.Orderly`: nothing is asked before `initialized`;
* `Session.backlog`: all that the process will have been asked;
* `Session.Kept`: what becomes of the documents at the end of the backlog;
* **`step_orderly`**: a session stays orderly, if what it kept for the next process can be replayed.
-/

namespace Termesh

namespace Lsp

/-- The message that ends the handshake. -/
def initialized : Message := .notification "initialized" (.object [])

/-- The requests that were written, one for each message. -/
def requests (sent : List (Option LspRequest × Message)) : List LspRequest := sent.filterMap Prod.fst

/-- A document is changed or closed only behind `initialized`, and only if it was opened behind it
and not closed since. -/
def WellFormed (sent : List (Option LspRequest × Message)) : Prop :=
  ∀ before after r message path, sent = before ++ (some r, message) :: after →
    touched r = some path → ∃ greeting told, before = greeting ++ (none, initialized) :: told ∧
      OpenIn path (requests told)

/-- Nothing is asked of a process before `initialized`. -/
structure Process.Orderly (p : Process) : Prop where
  waiting : p.translator.state ≠ .ready → requests p.sent = []
  greeted : p.translator.state = .ready → p.translator.queued = [] ∧
    ∃ greeting told, p.sent = greeting ++ (none, initialized) :: told ∧ requests greeting = []

/-- All that the process will have been asked, once what waits for it is written; while there is
none, what the one that went away would have been asked. -/
def Session.backlog (s : Session) : Option (List LspRequest) :=
  match s.stage with
  | .spawned => some s.inbox
  | .running p => some (requests p.sent ++ p.translator.queued ++ s.inbox)
  | .down =>
    some ((s.past.getLast?.elim [] fun p => requests p.sent ++ p.translator.queued) ++ s.inbox)
  | .ended => none

/-- What is written and what waits can be replayed. -/
structure Session.Orderly (s : Session) : Prop where
  past : ∀ p ∈ s.past, WellFormed p.sent
  running : ∀ p, s.stage = .running p → p.Orderly
  sound : ∀ rs, s.backlog = some rs → (Docs.nothing.replay rs).isSome

/-! ## Well-formed streams -/

theorem requests_append (sent sent' : List (Option LspRequest × Message)) :
    requests (sent ++ sent') = requests sent ++ requests sent' := List.filterMap_append

@[simp] theorem requests_none (messages : List Message) :
    requests (messages.map (none, ·)) = [] := by
  induction messages with
  | nil => rfl
  | cons m ms ih => exact ih

@[simp] theorem requests_some (r : LspRequest) (messages : List Message) :
    requests (messages.map (some r, ·)) = List.replicate messages.length r := by
  induction messages with
  | nil => rfl
  | cons m ms ih => exact congrArg (r :: ·) ih

/-- **What is orderly and can be replayed is well formed.** -/
theorem Process.Orderly.wellFormed {p : Process} (h : p.Orderly)
    (hr : (Docs.nothing.replay (requests p.sent)).isSome) : WellFormed p.sent := by
  intro before after r message path hsent hpath
  have hreqs : requests p.sent = requests before ++ r :: requests after := by
    rw [hsent, requests_append]
    rfl
  have hready : p.translator.state = .ready := by
    by_contra hstate
    have hnil := h.waiting hstate
    rw [hreqs] at hnil
    simp at hnil
  obtain ⟨-, greeting, told, hgreet, hnone⟩ := h.greeted hready
  -- the request was written behind `initialized`
  have hprefix : greeting ++ [(none, initialized)] <+: before := by
    have h1 : greeting ++ [(none, initialized)] <+: p.sent := ⟨told, by rw [hgreet]; simp⟩
    have h2 : before <+: p.sent := ⟨_, hsent.symm⟩
    rcases List.prefix_or_prefix_of_prefix h1 h2 with hp | ⟨more, hmore⟩
    · exact hp
    · rcases List.eq_nil_or_concat more with rfl | ⟨more, last, rfl⟩
      · rw [List.append_nil] at hmore
        rw [hmore]
      · rw [List.concat_eq_append, ← List.append_assoc] at hmore
        have hbefore : before <+: greeting := ⟨more, (List.append_inj' hmore rfl).1⟩
        obtain ⟨tail, rfl⟩ := hbefore
        -- it would stand in the greeting, where nothing is asked
        rw [hgreet, List.append_assoc] at hsent
        have htail := List.append_cancel_left hsent
        cases tail with
        | nil => cases htail
        | cons letter tail =>
          have hletter : letter = (some r, message) := (List.cons.inj htail).1
          rw [requests_append, hletter] at hnone
          simp [requests] at hnone
  obtain ⟨told', htold⟩ := hprefix
  refine ⟨greeting, told', by rw [← htold]; simp, ?_⟩
  have hopen := openIn_of_replay (hreqs ▸ hr) hpath
  have hbefore : requests before = requests told' := by
    rw [← htold, requests_append, requests_append, hnone]
    rfl
  rwa [hbefore] at hopen

/-! ## What the translator does with a request -/

section Translator

variable (t : Translator) (r : LspRequest)

theorem encodeRequest_state : (t.encodeRequest r).1.state = t.state ∧
    (t.encodeRequest r).1.queued = t.queued := by
  cases r with
  | cancel id =>
    rw [Translator.encodeRequest]
    split
    · exact ⟨rfl, rfl⟩
    · exact ⟨rfl, rfl⟩
  | _ => exact ⟨rfl, rfl⟩

theorem outgoing_waiting (h : t.state ≠ .ready) :
    t.outgoing r = ({ t with queued := t.queued ++ [r] }, []) := if_pos h

theorem outgoing_ready (h : t.state = .ready) :
    (t.outgoing r).1.state = .ready ∧ (t.outgoing r).1.queued = t.queued := by
  unfold Translator.outgoing
  rw [if_neg (not_not.mpr h)]
  cases r with
  | reloadProject paths => exact ⟨h, rfl⟩
  | _ => exact ⟨(encodeRequest_state t _).1.trans h, (encodeRequest_state t _).2⟩

/-- A request about a document is one message, and any other says nothing of documents. -/
theorem replay_outgoing (h : t.state = .ready) (d : Docs) :
    d.replay (List.replicate (t.outgoing r).2.length r) = d.tell r := by
  have hidle : ∀ n, (∀ d : Docs, d.tell r = some d) →
      d.replay (List.replicate n r) = some d := by
    intro n hr
    induction n with
    | zero => rfl
    | succ n ih => rw [List.replicate_succ, Docs.replay_cons, hr d]; exact ih
  unfold Translator.outgoing
  rw [if_neg (not_not.mpr h)]
  cases r with
  | didOpen | didChange | didClose =>
    simp [Translator.encodeRequest, Docs.replay_cons]
  | _ => exact hidle _ fun _ => rfl

theorem replay_flush (h : t.state = .ready) (rs : List LspRequest) (d : Docs) :
    (t.flush rs).1.state = .ready ∧ (t.flush rs).1.queued = t.queued ∧
      d.replay (requests ((rs.zip (t.flush rs).2).flatMap fun e => e.2.map (some e.1, ·))) =
        d.replay rs := by
  induction rs generalizing t d with
  | nil => exact ⟨h, rfl, rfl⟩
  | cons r rs ih =>
    obtain ⟨hstate, hqueued⟩ := outgoing_ready t r h
    have hrest := ih (t.outgoing r).1 hstate
    refine ⟨(hrest d).1, (hrest d).2.1.trans hqueued, ?_⟩
    show d.replay (requests (((r, (t.outgoing r).2) ::
      rs.zip ((t.outgoing r).1.flush rs).2).flatMap _)) = _
    rw [List.flatMap_cons, requests_append, Docs.replay_append, requests_some,
      replay_outgoing t r h, Docs.replay_cons]
    exact Option.bind_congr fun d _ => (hrest d).2.2

/-- A message of the server either ends the handshake and sets free what is queued, or leaves both
alone, but for a handshake given up. -/
theorem incoming_state (j : Json) (message : Message) :
    (∃ id result, message = .response id result ∧ t.state = .initializing id) ∨
    t.released message = [] ∧ (t.incoming j message).1.queued = t.queued ∧
      ((t.incoming j message).1.state = .ready ↔ t.state = .ready) := by
  rcases incoming_cases j t message with hready | ⟨id, pending, answer, ha, hs, -, heq⟩ | ⟨hr, ha⟩
  · exact .inl hready
  · obtain ⟨-, -, -, -, hstate, hqueued⟩ := tables_answered t pending id answer
    refine .inr ⟨?_, ?_, ?_⟩
    · cases message with
      | response id' result =>
        obtain rfl := Option.some.inj ha
        exact if_neg hs
      | _ => rfl
    · rw [heq]
      exact hqueued
    · rw [heq]
      exact iff_of_eq (by rw [hstate])
  · exact .inr ⟨hr, ha.queued, ha.ready⟩

/-- The translator when the handshake ends, before what is queued is sent. -/
def Translator.opened (t : Translator) : Translator := { t with state := .ready, queued := [] }

/-- The messages that what is queued becomes, each with its request. -/
def Translator.freed (t : Translator) : List (Option LspRequest × Message) :=
  (t.queued.zip (t.opened.flush t.queued).2).flatMap fun e => e.2.map (some e.1, ·)

/-- The messages that end the handshake: `initialized`, and then what was queued. -/
theorem incoming_initialized (j : Json) {id : ℕ} (result : Value) (h : t.state = .initializing id) :
    (t.incoming j (.response id result)).1 = (t.opened.flush t.queued).1 ∧
      (t.incoming j (.response id result)).2.2 =
        initialized :: (t.opened.flush t.queued).2.flatten ∧
      t.released (.response id result) = t.queued.zip (t.opened.flush t.queued).2 := by
  refine ⟨?_, ?_, if_pos h⟩
  · rw [Translator.incoming, Translator.response, if_pos h]
    rfl
  · rw [Translator.incoming, Translator.response, if_pos h]
    rfl

theorem ready_flush_opened : (t.opened.flush t.queued).1.state = .ready ∧
    (t.opened.flush t.queued).1.queued = [] :=
  ⟨(replay_flush t.opened rfl t.queued Docs.nothing).1,
    (replay_flush t.opened rfl t.queued Docs.nothing).2.1⟩

theorem replay_freed (d : Docs) : d.replay (requests t.freed) = d.replay t.queued :=
  (replay_flush t.opened rfl t.queued d).2.2

theorem length_flush (rs : List LspRequest) : (t.flush rs).2.length = rs.length := by
  induction rs generalizing t with
  | nil => rfl
  | cons r rs ih => exact congrArg (· + 1) (ih (t.outgoing r).1)

theorem letters_initialized (j : Json) {id : ℕ} (result : Value)
    (h : t.state = .initializing id) :
    t.letters (.response id result) (t.incoming j (.response id result)).2.2 =
      (none, initialized) :: t.freed := by
  obtain ⟨-, hreplies, hreleased⟩ := incoming_initialized t j result h
  have hlength : ∀ (rs : List LspRequest) (ms : List (List Message)), ms.length = rs.length →
      ((rs.zip ms).flatMap fun e => e.2.map (some e.1, ·)).length = ms.flatten.length := by
    intro rs
    induction rs with
    | nil =>
      intro ms hms
      obtain rfl := List.length_eq_zero_iff.mp hms
      rfl
    | cons r rs ih =>
      intro ms hms
      cases ms with
      | nil => rfl
      | cons m ms => simp [ih ms (Nat.succ.inj hms)]
  have hone := hlength t.queued _ (length_flush t.opened t.queued)
  rw [Translator.letters, hreleased, hreplies]
  rw [hone, List.length_cons, Nat.add_sub_cancel_left]
  rfl

theorem letters_quiet {message : Message} (h : t.released message = []) (replies : List Message) :
    t.letters message replies = replies.map (none, ·) := by
  simp [Translator.letters, h]

end Translator

/-! ## Processes -/

section Process

variable {p : Process}

/-- What the process will hold in the end, if `rest` follows what is queued. -/
def Process.after (p : Process) (rest : List LspRequest) : Option Docs :=
  Docs.nothing.replay (requests p.sent ++ p.translator.queued ++ rest)

theorem Process.Orderly.tell (h : p.Orderly) (message : Message) :
    Process.Orderly { p with sent := p.sent ++ [(none, message)] } where
  waiting hs := by
    rw [requests_append, h.waiting hs]
    rfl
  greeted hs := by
    obtain ⟨hq, greeting, told, hsent, hg⟩ := h.greeted hs
    exact ⟨hq, greeting, told ++ [(none, message)], by rw [hsent]; simp, hg⟩

/-- A request is written or queued. -/
def Process.asked (p : Process) (r : LspRequest) : Process where
  translator := (p.translator.outgoing r).1
  sent := p.sent ++ (p.translator.outgoing r).2.map (some r, ·)

theorem Process.Orderly.asked (h : p.Orderly) (r : LspRequest) : (p.asked r).Orderly := by
  by_cases hready : p.translator.state = .ready
  · obtain ⟨hstate, hqueued⟩ := outgoing_ready p.translator r hready
    obtain ⟨hq, greeting, told, hsent, hg⟩ := h.greeted hready
    refine ⟨fun hs => absurd hstate hs, fun _ => ⟨hqueued.trans hq, greeting,
      told ++ (p.translator.outgoing r).2.map (some r, ·), ?_, hg⟩⟩
    show p.sent ++ _ = _
    rw [hsent]
    simp
  · refine ⟨fun _ => ?_, fun hs => ?_⟩
    · show requests (p.sent ++ _) = []
      rw [outgoing_waiting _ _ hready, List.map_nil, List.append_nil, h.waiting hready]
    · have hs : (p.translator.outgoing r).1.state = .ready := hs
      rw [outgoing_waiting _ _ hready] at hs
      exact absurd hs hready

theorem Process.Orderly.after_asked (h : p.Orderly) (r : LspRequest) (rest : List LspRequest) :
    (p.asked r).after rest = p.after (r :: rest) := by
  unfold Process.after Process.asked
  by_cases hready : p.translator.state = .ready
  · have hq := (h.greeted hready).1
    rw [(outgoing_ready p.translator r hready).2, hq, requests_append, requests_some,
      List.append_nil, List.append_nil, List.append_assoc, Docs.replay_append, Docs.replay_append]
    refine Option.bind_congr fun d _ => ?_
    rw [Docs.replay_append, replay_outgoing _ _ hready, Docs.replay_cons]
  · rw [outgoing_waiting _ _ hready]
    simp

/-- A message of the server is answered, or sets free what is queued. -/
def Process.heard (j : Json) (p : Process) (message : Message) : Process where
  translator := (p.translator.incoming j message).1
  sent := p.sent ++ p.translator.letters message (p.translator.incoming j message).2.2

theorem Process.Orderly.heard (j : Json) (h : p.Orderly) (message : Message) :
    (p.heard j message).Orderly := by
  rcases incoming_state p.translator j message with ⟨id, result, rfl, hs⟩ | ⟨hr, hqueued, hstate⟩
  · have hnot : p.translator.state ≠ .ready := by rw [hs]; exact fun h => nomatch h
    obtain ⟨htrans, -, -⟩ := incoming_initialized p.translator j result hs
    obtain ⟨hready, hqueued⟩ := ready_flush_opened p.translator
    refine ⟨fun hn => absurd ?_ hn,
      fun _ => ⟨?_, p.sent, p.translator.freed, ?_, h.waiting hnot⟩⟩
    · show (p.translator.incoming j _).1.state = .ready
      rw [htrans]
      exact hready
    · show (p.translator.incoming j _).1.queued = []
      rw [htrans]
      exact hqueued
    · show p.sent ++ _ = _
      rw [letters_initialized p.translator j result hs]
  · refine ⟨fun hn => ?_, fun hready => ?_⟩
    · show requests (p.sent ++ _) = []
      rw [letters_quiet _ hr, requests_append, requests_none,
        h.waiting fun hready => hn (hstate.mpr hready)]
      rfl
    · obtain ⟨hq, greeting, told, hsent, hg⟩ := h.greeted (hstate.mp hready)
      refine ⟨hqueued.trans hq, greeting,
        told ++ (p.translator.incoming j message).2.2.map (none, ·), ?_, hg⟩
      show p.sent ++ _ = _
      rw [letters_quiet _ hr, hsent]
      simp

theorem Process.Orderly.after_heard (j : Json) (h : p.Orderly) (message : Message)
    (rest : List LspRequest) : (p.heard j message).after rest = p.after rest := by
  unfold Process.after Process.heard
  rcases incoming_state p.translator j message with ⟨id, result, rfl, hs⟩ | ⟨hr, hqueued, -⟩
  · have hnot : p.translator.state ≠ .ready := by rw [hs]; exact fun h => nomatch h
    obtain ⟨htrans, -, -⟩ := incoming_initialized p.translator j result hs
    have htold : requests ((none, initialized) :: p.translator.freed) =
        requests p.translator.freed := rfl
    rw [htrans, (ready_flush_opened p.translator).2, letters_initialized p.translator j result hs,
      requests_append, htold, h.waiting hnot, List.nil_append, List.nil_append, List.append_nil,
      Docs.replay_append, replay_freed, Docs.replay_append]
  · rw [letters_quiet _ hr, requests_append, requests_none, hqueued, List.append_nil]

/-- What was written of an orderly process can be replayed when all that follows can. -/
theorem Process.Orderly.written (h : p.Orderly) {rest : List LspRequest}
    (hr : (p.after rest).isSome) : WellFormed p.sent := by
  refine h.wellFormed ?_
  obtain ⟨d, hd⟩ := Option.isSome_iff_exists.mp hr
  unfold Process.after at hd
  rw [List.append_assoc] at hd
  obtain ⟨d₁, h₁, -⟩ := Docs.replay_prefix hd
  rw [h₁]
  rfl

end Process

/-! ## Sessions -/

section Session

variable {s s' : Session} {p : Process} {j : Json} {events : List LspEvent}

/-- Where the documents at the end of the backlog go: with the process, or nowhere; another process
is owed what is in the inbox. -/
def Session.Kept (s s' : Session) : Prop :=
  s'.backlog = none ∨
  (∃ rs rs', s.backlog = some rs ∧ s'.backlog = some rs' ∧
    Docs.nothing.replay rs' = Docs.nothing.replay rs) ∨
  s.stage = .down ∧ s'.stage = .spawned ∧ s'.inbox = s.inbox

theorem Session.Orderly.gone (hpast : ∀ q ∈ s.past, WellFormed q.sent) (hp : WellFormed p.sent) :
    ∀ q ∈ s.past ++ [p], WellFormed q.sent := by
  intro q hq
  rcases List.mem_append.mp hq with hq | hq
  · exact hpast q hq
  · exact List.mem_singleton.mp hq ▸ hp

theorem Session.Orderly.finish (hpast : ∀ q ∈ s.past, WellFormed q.sent) (hp : WellFormed p.sent) :
    (s.finish p).Orderly where
  past := Session.Orderly.gone hpast hp
  running q hq := by cases hq
  sound rs hrs := by cases hrs

/-- A process is lost, and the documents it would have held are kept in mind or not. -/
theorem Session.Orderly.lose (hpast : ∀ q ∈ s.past, WellFormed q.sent) (hp : WellFormed p.sent)
    (ha : (p.after s.inbox).isSome) (code : Option Int) :
    (s.lose p code).1.Orderly ∧ ((s.lose p code).1.backlog = none ∨
      (s.lose p code).1.backlog = some (requests p.sent ++ p.translator.queued ++ s.inbox)) := by
  unfold Session.lose
  split_ifs
  · exact ⟨Session.Orderly.finish hpast hp, .inl rfl⟩
  · have hlast : Session.backlog { s with stage := .down, past := s.past ++ [p] } =
        some (requests p.sent ++ p.translator.queued ++ s.inbox) := by
      simp [Session.backlog]
    refine ⟨⟨Session.Orderly.gone hpast hp, (fun q hq => nomatch hq), fun rs hrs => ?_⟩, .inr hlast⟩
    obtain rfl := Option.some.inj (hlast.symm.trans hrs)
    exact ha

theorem Session.Orderly.run (hpast : ∀ q ∈ s.past, WellFormed q.sent) (hp : p.Orderly)
    (ha : (p.after s.inbox).isSome) : Session.Orderly { s with stage := .running p } where
  past := hpast
  running q hq := by
    obtain rfl := Stage.running.inj hq
    exact hp
  sound rs hrs := by
    obtain rfl := Option.some.inj hrs
    exact ha

theorem backlog_running (hs : s.stage = .running p) :
    s.backlog = some (requests p.sent ++ p.translator.queued ++ s.inbox) := by
  rw [Session.backlog, hs]

theorem Session.Orderly.after (h : s.Orderly) (hs : s.stage = .running p) :
    (p.after s.inbox).isSome :=
  h.sound _ (backlog_running hs)

theorem Session.Kept.lose {rs : List LspRequest} (t : Session) (q : Process)
    (hs : s.backlog = some rs) (hr : q.after t.inbox = Docs.nothing.replay rs) {code : Option Int}
    (hlost : (t.lose q code).1.backlog = none ∨
      (t.lose q code).1.backlog = some (requests q.sent ++ q.translator.queued ++ t.inbox)) :
    s.Kept (t.lose q code).1 := by
  rcases hlost with hnone | hsome
  · exact .inl hnone
  · exact .inr (.inl ⟨_, _, hs, hsome, hr⟩)

theorem Session.Orderly.goes {q : Process} {inbox : List LspRequest} (h : s.Orderly)
    (hs : s.stage = .running p) (hq : q.Orderly) (ha : q.after inbox = p.after s.inbox) :
    (Session.Orderly { s with inbox, stage := .running q } ∧
      s.Kept { s with inbox, stage := .running q }) ∧ WellFormed q.sent := by
  have hafter : (q.after inbox).isSome := ha ▸ h.after hs
  exact ⟨⟨Session.Orderly.run (s := { s with inbox }) h.past hq hafter,
    .inr (.inl ⟨_, _, backlog_running hs, rfl, ha⟩)⟩, hq.written hafter⟩

/-- Only a process that is started again follows one that went away. -/
theorem respawn_of_down {d : Deed} (hs : s.step j d = some (s', events)) (hdown : s.stage = .down)
    (hspawned : s'.stage = .spawned) : d = .respawn none := by
  cases d with
  | respawn error =>
    cases error with
    | none => rfl
    | some error =>
      rw [Session.step, hdown] at hs
      have hended : Stage.ended = s'.stage :=
        congrArg Session.stage (congrArg Prod.fst (Option.some.inj hs))
      rw [hspawned] at hended
      cases hended
  | request =>
    rw [Session.step, hdown] at hs
    cases hs
  | connect | message | disconnected =>
    rw [Session.step, hdown] at hs
    cases hs

/-- **A deed keeps the session orderly**, if what the next process is owed can be replayed. -/
theorem step_orderly {d : Deed} (h : s.Orderly)
    (hrespawn : d = .respawn none → (Docs.nothing.replay s.inbox).isSome)
    (hs : s.step j d = some (s', events)) : s'.Orderly ∧ s.Kept s' := by
  cases d with
  | connect written code =>
    rw [Session.step] at hs
    split at hs
    · rename_i hstage
      have hs := Option.some.inj hs
      have hbacklog : s.backlog = some s.inbox := by rw [Session.backlog, hstage]
      have hinbox := h.sound _ hbacklog
      unfold Session.connect at hs
      cases hinit : Translator.initializeWith j {} s.root s.initializationOptions with
      | error failure =>
        simp only [hinit] at hs
        obtain ⟨rfl, -⟩ := Prod.mk.inj hs
        refine ⟨⟨h.past, fun q hq => ?_, fun rs hrs => ?_⟩, .inl rfl⟩
        · cases hq
        · cases hrs
      | ok opening =>
        obtain ⟨t, message⟩ := opening
        have ht : t.state ≠ .ready ∧ t.queued = [] := by
          unfold Translator.initializeWith at hinit
          split at hinit
          · cases hinit
          · rw [← (Prod.mk.inj (Except.ok.inj hinit)).1]
            exact ⟨(fun h => nomatch h), rfl⟩
        have hp : Process.Orderly { translator := t, sent := [(none, message)] } :=
          ⟨fun _ => rfl, fun hready => absurd hready ht.1⟩
        have hafter : Process.after { translator := t, sent := [(none, message)] } s.inbox =
            Docs.nothing.replay s.inbox := by
          rw [Process.after, ht.2]
          rfl
        have hsome := hafter ▸ hinbox
        simp only [hinit] at hs
        cases written with
        | true =>
          obtain ⟨rfl, -⟩ := Prod.mk.inj hs
          exact ⟨Session.Orderly.run h.past hp hsome, .inr (.inl ⟨_, _, hbacklog, rfl, hafter⟩)⟩
        | false =>
          obtain ⟨rfl, -⟩ := Prod.mk.inj hs
          obtain ⟨hord, hlost⟩ := Session.Orderly.lose h.past (hp.written hsome) hsome code
          exact ⟨hord, .lose s _ hbacklog hafter hlost⟩
    · cases hs
  | request written code =>
    rw [Session.step] at hs
    split at hs
    · rename_i p r inbox hstage hin
      have hs := Option.some.inj hs
      have hp := h.running p hstage
      have hasked := hp.after_asked r inbox
      rw [← hin] at hasked
      obtain ⟨⟨hord, hkept⟩, hwritten⟩ := h.goes hstage (hp.asked r) hasked
      have hs : (if r = .shutdown then
          (Session.finish { s with inbox } { p.asked r with
            sent := (p.asked r).sent ++ [(none, .notification "exit" .null)] }, [])
        else if written || (p.translator.outgoing r).2.isEmpty then
          ({ s with inbox, stage := .running (p.asked r) }, [])
        else
          ((Session.lose { s with inbox } (p.asked r) code).1,
            transportFailure "language server stopped listening" ::
              (Session.lose { s with inbox } (p.asked r) code).2)) = (s', events) := hs
      split_ifs at hs
      · obtain ⟨rfl, -⟩ := Prod.mk.inj hs
        have hexit : WellFormed ((p.asked r).sent ++ [(none, .notification "exit" .null)]) := by
          have ha : Process.after { p.asked r with
              sent := (p.asked r).sent ++ [(none, .notification "exit" .null)] } inbox =
                (p.asked r).after inbox := by
            rw [Process.after, requests_append]
            show Docs.nothing.replay (requests (p.asked r).sent ++ [] ++ _ ++ _) = _
            rw [List.append_nil]
            rfl
          have hsome := h.after hstage
          rw [← hasked, ← ha] at hsome
          exact ((hp.asked r).tell _).written hsome
        exact ⟨Session.Orderly.finish (s := { s with inbox }) h.past hexit, .inl rfl⟩
      · obtain ⟨rfl, -⟩ := Prod.mk.inj hs
        exact ⟨hord, hkept⟩
      · obtain ⟨rfl, -⟩ := Prod.mk.inj hs
        have hsome : ((p.asked r).after inbox).isSome := hasked ▸ h.after hstage
        obtain ⟨hord, hlost⟩ :=
          Session.Orderly.lose (s := { s with inbox }) h.past hwritten hsome code
        exact ⟨hord, .lose { s with inbox } _ (backlog_running hstage) hasked hlost⟩
    · cases hs
  | message message written code =>
    rw [Session.step] at hs
    split at hs
    · rename_i p hstage
      have hs := Option.some.inj hs
      have hp := h.running p hstage
      obtain ⟨⟨hord, hkept⟩, hwritten⟩ := h.goes hstage (hp.heard j message)
        (hp.after_heard j message s.inbox)
      have hs : (if written || (p.translator.incoming j message).2.2.isEmpty then
          (if (p.translator.incoming j message).2.1.any isHandshakeFailure then
            s.finish (p.heard j message) else { s with stage := .running (p.heard j message) },
            (p.translator.incoming j message).2.1)
        else
          ((s.lose (p.heard j message) code).1, (p.translator.incoming j message).2.1 ++
            transportFailure "language server stopped listening" ::
              (s.lose (p.heard j message) code).2)) = (s', events) := hs
      split_ifs at hs
      · obtain ⟨rfl, -⟩ := Prod.mk.inj hs
        exact ⟨Session.Orderly.finish h.past hwritten, .inl rfl⟩
      · obtain ⟨rfl, -⟩ := Prod.mk.inj hs
        exact ⟨hord, hkept⟩
      · obtain ⟨rfl, -⟩ := Prod.mk.inj hs
        have hheard := hp.after_heard j message s.inbox
        obtain ⟨hord, hlost⟩ :=
          Session.Orderly.lose h.past hwritten (hheard ▸ h.after hstage) code
        exact ⟨hord, .lose s _ (backlog_running hstage) hheard hlost⟩
    · cases hs
  | disconnected code =>
    rw [Session.step] at hs
    split at hs
    · rename_i p hstage
      obtain rfl := congrArg Prod.fst (Option.some.inj hs)
      obtain ⟨hord, hlost⟩ := Session.Orderly.lose h.past
        ((h.running p hstage).written (h.after hstage)) (h.after hstage) code
      exact ⟨hord, .lose s p (backlog_running hstage) rfl hlost⟩
    · cases hs
  | respawn error =>
    rw [Session.step] at hs
    split at hs
    · rename_i hstage
      obtain rfl := congrArg Prod.fst (Option.some.inj hs)
      cases error with
      | none =>
        refine ⟨⟨h.past, fun q hq => ?_, fun rs hrs => ?_⟩, .inr (.inr ⟨hstage, rfl, rfl⟩)⟩
        · cases hq
        · obtain rfl := Option.some.inj hrs
          exact hrespawn rfl
      | some error =>
        refine ⟨⟨h.past, fun q hq => ?_, fun rs hrs => ?_⟩, .inl rfl⟩
        · cases hq
        · cases hrs
    · cases hs

end Session

end Lsp

end Termesh
