import Mathlib.Data.List.Basic
import Termesh.Core.Search
import Termesh.Lib.Run

/-!
# The search worker

Searches are asked for on one thread and run on another. A request takes the place of the one before
it, whose flag it raises; the worker waits for typing to stop, runs the service, and cuts what the
service emits to the limit and into batches. Each step below is what one thread does between two
looks at what they share, and the two threads take their steps in any order.

* `chunks`, `boundedSink`, `lastEvent`: what becomes of the events of the service;
* `Caller`, `Phase`, `State`, `Act`, `step`: the two threads;
* `Bracketed`: the events of one search;
* `Invariant`, **`Invariant.step`**: what every step keeps;
* **`well_bracketed`**: the searches accepted and their events, whatever the threads do.
-/

namespace Termesh

namespace Search

/-- `MAX_BATCH`. -/
def maxBatch : ℕ := 64

/-- `slice::chunks`: pieces of `n` elements, the last one shorter. -/
def chunks {α : Type*} (n : ℕ) : List α → List (List α)
  | [] => []
  | a :: l => (a :: l.take (n - 1)) :: chunks n (l.drop (n - 1))
termination_by l => l.length
decreasing_by
  rw [List.length_drop, List.length_cons]
  omega

/-- The matches that the events of a service hold for an id. -/
def foundFor (id : SearchRequestId) (emitted : List SearchEvent) : List SearchMatch :=
  emitted.flatMap fun
    | .batch i found => if i = id then found else []
    | _ => []

/-- What the bounded sink forwards of an event, when `forwarded` matches went before it. -/
def boundedSink (request : SearchRequest) (forwarded : ℕ) : SearchEvent → List (List SearchMatch)
  | .batch id found =>
    if id ≠ request.id then []
    else chunks maxBatch (found.take (request.limit - forwarded))
  | _ => []

/-- The event after a search that was not cancelled. -/
def lastEvent (request : SearchRequest) (forwarded : ℕ) : Except String Unit → SearchEvent
  | .error message => .failed request.id message (0 < forwarded)
  | .ok () => .finished request.id (request.limit ≤ forwarded)

/-! ## The two threads -/

/-- A cancellation flag. -/
abbrev Token := ℕ

inductive WorkerRequest where
  | search (request : SearchRequest) (cancelled : Token)
  | shutdown
deriving DecidableEq

/-- The searches in a queue. -/
def WorkerRequest.searches (queue : List WorkerRequest) : List SearchRequest :=
  queue.filterMap fun
    | .search request _ => some request
    | .shutdown => none

/-- Where the thread that asks for searches stands: between two calls, or inside one. -/
inductive Caller where
  | idle
  | sending (request : SearchRequest) (cancelled : Token)
  | cancelling (active : Token)
  | dropping
  | dropped
deriving DecidableEq

/-- Where the worker stands. -/
inductive Phase where
  | receiving
  | debouncing (request : SearchRequest) (cancelled : Token)
  | starting (request : SearchRequest) (cancelled : Token)
  | searching (request : SearchRequest) (cancelled : Token) (forwarded : ℕ)
      (emitted : List SearchEvent)
  | returned (request : SearchRequest) (cancelled : Token) (forwarded : ℕ)
      (emitted : List SearchEvent) (result : Except String Unit)
  | clearing (cancelled : Token)
  /-- Shut down, with the search that was waiting for typing to stop, if one was. -/
  | stopped (pending : Option SearchRequest)

/-- What the threads share, where each stands, and what has come of it: the events handed to the
sink, the requests accepted, and what the service emitted in each call of it. -/
structure State where
  /-- The flags raised. -/
  raised : List Token
  /-- The next flag to be made. -/
  fresh : Token
  active : Option Token
  queue : List WorkerRequest
  caller : Caller
  phase : Phase
  out : List SearchEvent
  accepted : List SearchRequest
  calls : List (SearchRequest × List SearchEvent)

/-- What a thread does between two looks at what they share. -/
inductive Act where
  /-- `request`: the new flag takes the active one's place and raises it. -/
  | request (request : SearchRequest)
  /-- `request`: the request is sent. -/
  | send
  /-- `cancel`: the active flag is looked up. -/
  | cancel
  /-- `cancel`: that flag is raised. -/
  | raise_
  /-- `drop`: the active flag is taken and raised. -/
  | drop
  /-- `drop`: shutdown is sent. -/
  | shutdown
  /-- `worker_loop`: the next message. -/
  | receive
  /-- `debounce_request`: another message while it waits. -/
  | replace
  /-- `debounce_request`: typing has stopped. -/
  | timeout
  /-- `run_request`: the first look at the flag. -/
  | begin_
  /-- The service hands an event to the bounded sink. -/
  | emit (event : SearchEvent)
  /-- The service returns. -/
  | return_ (result : Except String Unit)
  /-- `run_request`: the last look at the flag. -/
  | report
  /-- `worker_loop`: the active flag is cleared. -/
  | clear

/-- The worker's own acts. -/
def Act.ofWorker : Act → Bool
  | request _ | send | cancel | raise_ | drop | shutdown => false
  | _ => true

/-- The flags raised, with that of an active search. -/
def raiseActive (raised : List Token) : Option Token → List Token
  | none => raised
  | some token => token :: raised

/-- A search that was received: it waits for typing to stop, unless there is nothing to wait for. -/
def received (debounce : Bool) (request : SearchRequest) (cancelled : Token) : Phase :=
  if request.mode ≠ .text ∨ debounce = false then .starting request cancelled
  else .debouncing request cancelled

/-- A search that took another's place while that waited. -/
def replaced (request : SearchRequest) (cancelled : Token) : Phase :=
  if request.mode ≠ .text then .starting request cancelled else .debouncing request cancelled

/-- One step of either thread; `none` where it is not that thread's turn to take it. -/
def step (debounce : Bool) (s : State) : Act → Option State
  | .request request =>
    match s.caller with
    | .idle => some { s with
        raised := raiseActive s.raised s.active, active := some s.fresh, fresh := s.fresh + 1,
        caller := .sending request s.fresh }
    | _ => none
  | .send =>
    match s.caller with
    | .sending request cancelled =>
      match s.phase with
      -- the receiver is gone
      | .stopped _ => some { s with raised := cancelled :: s.raised, caller := .idle }
      | _ => some { s with
          queue := s.queue ++ [.search request cancelled], accepted := s.accepted ++ [request],
          caller := .idle }
    | _ => none
  | .cancel =>
    match s.caller with
    | .idle => some { s with caller := (s.active.map .cancelling).getD .idle }
    | _ => none
  | .raise_ =>
    match s.caller with
    | .cancelling active => some { s with raised := active :: s.raised, caller := .idle }
    | _ => none
  | .drop =>
    match s.caller with
    | .idle => some { s with
        raised := raiseActive s.raised s.active, active := none, caller := .dropping }
    | _ => none
  | .shutdown =>
    match s.caller with
    | .dropping =>
      match s.phase with
      | .stopped _ => some { s with caller := .dropped }
      | _ => some { s with queue := s.queue ++ [.shutdown], caller := .dropped }
    | _ => none
  | .receive =>
    match s.phase, s.queue with
    | .receiving, .search request cancelled :: queue =>
      some { s with queue, phase := received debounce request cancelled }
    | .receiving, .shutdown :: queue => some { s with queue, phase := .stopped none }
    | _, _ => none
  | .replace =>
    match s.phase, s.queue with
    | .debouncing waiting _, .search request cancelled :: queue =>
      some { s with
        queue, out := s.out ++ [.cancelled waiting.id], phase := replaced request cancelled }
    | .debouncing waiting _, .shutdown :: queue =>
      some { s with queue, phase := .stopped (some waiting) }
    | _, _ => none
  | .timeout =>
    match s.phase with
    | .debouncing request cancelled => some { s with phase := .starting request cancelled }
    | _ => none
  | .begin_ =>
    match s.phase with
    | .starting request cancelled =>
      if cancelled ∈ s.raised then
        some { s with out := s.out ++ [.cancelled request.id], phase := .clearing cancelled }
      else
        some { s with
          out := s.out ++ [.started request.id], phase := .searching request cancelled 0 [] }
    | _ => none
  | .emit event =>
    match s.phase with
    | .searching request cancelled forwarded emitted =>
      let batches := boundedSink request forwarded event
      some { s with
        out := s.out ++ batches.map (.batch request.id),
        phase := .searching request cancelled (forwarded + batches.flatten.length)
          (emitted ++ [event]) }
    | _ => none
  | .return_ result =>
    match s.phase with
    | .searching request cancelled forwarded emitted =>
      some { s with phase := .returned request cancelled forwarded emitted result }
    | _ => none
  | .report =>
    match s.phase with
    | .returned request cancelled forwarded emitted result =>
      let last := if cancelled ∈ s.raised then .cancelled request.id
        else lastEvent request forwarded result
      some { s with
        out := s.out ++ [last], calls := s.calls ++ [(request, emitted)],
        phase := .clearing cancelled }
    | _ => none
  | .clear =>
    match s.phase with
    | .clearing cancelled =>
      some { s with
        active := if s.active = some cancelled then none else s.active, phase := .receiving }
    | _ => none

/-- A worker just spawned. -/
def initial : State :=
  { raised := [], fresh := 0, active := none, queue := [], caller := .idle, phase := .receiving,
    out := [], accepted := [], calls := [] }

/-! ## The events of a search -/

/-- A search that has come to its end, with what the service emitted for it, if it was called. -/
structure Done where
  request : SearchRequest
  call : Option (List SearchEvent)
  events : List SearchEvent

/-- The batches forwarded of what the service emitted: small enough, and its first matches up to the
limit. -/
structure Forwarding (request : SearchRequest) (emitted : List SearchEvent)
    (batches : List (List SearchMatch)) : Prop where
  size : ∀ batch ∈ batches, batch.length ≤ maxBatch
  prefix_ : batches.flatten = (foundFor request.id emitted).take request.limit

/-- The events of one search: cancelled before it started, or a start, batches and one end. -/
inductive Bracketed : Done → Prop
  | skipped (request : SearchRequest) : Bracketed ⟨request, none, [.cancelled request.id]⟩
  | ran {request : SearchRequest} {emitted : List SearchEvent} {batches : List (List SearchMatch)}
      {last : SearchEvent} (hb : Forwarding request emitted batches)
      (hlast : last.Terminal request.id) :
      Bracketed ⟨request, some emitted,
        .started request.id :: (batches.map (.batch request.id) ++ [last])⟩

theorem length_le_of_mem_chunks {α : Type*} {n : ℕ} (hn : 0 < n) (l : List α) :
    ∀ piece ∈ chunks n l, piece.length ≤ n := by
  induction l using chunks.induct n with
  | case1 => simp [chunks]
  | case2 a l ih =>
    rw [chunks]
    intro piece hp
    rcases List.mem_cons.mp hp with rfl | hp
    · rw [List.length_cons, List.length_take]
      omega
    · exact ih piece hp

theorem flatten_chunks {α : Type*} (n : ℕ) (l : List α) : (chunks n l).flatten = l := by
  induction l using chunks.induct n with
  | case1 => simp [chunks]
  | case2 a l ih =>
    rw [chunks, List.flatten_cons, ih, List.cons_append, List.take_append_drop]

theorem foundFor_append (id : SearchRequestId) (es fs : List SearchEvent) :
    foundFor id (es ++ fs) = foundFor id es ++ foundFor id fs := List.flatMap_append

/-- **The bounded sink** forwards the next matches, up to the limit. -/
theorem Forwarding.emit {request : SearchRequest} {emitted : List SearchEvent}
    {batches : List (List SearchMatch)} (h : Forwarding request emitted batches)
    (event : SearchEvent) :
    Forwarding request (emitted ++ [event])
      (batches ++ boundedSink request batches.flatten.length event) := by
  have hnone : foundFor request.id [event] = [] →
      boundedSink request batches.flatten.length event = [] →
      Forwarding request (emitted ++ [event])
        (batches ++ boundedSink request batches.flatten.length event) := by
    intro hfound hsink
    rw [hsink, List.append_nil]
    exact ⟨h.size, by rw [foundFor_append, hfound, List.append_nil, h.prefix_]⟩
  cases event with
  | batch id found =>
    by_cases hid : id = request.id
    · have hfound : foundFor request.id [.batch id found] = found := by simp [foundFor, hid]
      have hsink : boundedSink request batches.flatten.length (.batch id found) =
          chunks maxBatch (found.take (request.limit - batches.flatten.length)) :=
        if_neg (not_not_intro hid)
      rw [hsink]
      refine ⟨fun batch hb => ?_, ?_⟩
      · rcases List.mem_append.mp hb with hb | hb
        · exact h.size batch hb
        · exact length_le_of_mem_chunks (by decide) _ batch hb
      · -- what is left of the limit is what the matches before leave of it
        have hleft : request.limit - batches.flatten.length =
            request.limit - (foundFor request.id emitted).length := by
          rw [h.prefix_, List.length_take]
          omega
        rw [List.flatten_append, flatten_chunks, hleft, h.prefix_, foundFor_append, hfound,
          List.take_append]
    · exact hnone (by simp [foundFor, hid]) (if_pos hid)
  | started | finished | cancelled | failed => exact hnone rfl rfl

theorem lastEvent_terminal (request : SearchRequest) (forwarded : ℕ) (result : Except String Unit) :
    (lastEvent request forwarded result).Terminal request.id := by
  cases result <;> rfl

/-! ## What every step keeps -/

/-- The searches that the worker has taken from the queue and not brought to an end. -/
def Phase.requests : Phase → List SearchRequest
  | .receiving | .clearing _ => []
  | .debouncing request _ | .starting request _ | .searching request _ _ _
  | .returned request _ _ _ _ => [request]
  | .stopped pending => pending.toList

/-- The events so far of the search under way. -/
def Phase.Opened : Phase → List SearchEvent → Prop
  | .searching request _ forwarded emitted, es | .returned request _ forwarded emitted _, es =>
    ∃ batches, Forwarding request emitted batches ∧ forwarded = batches.flatten.length ∧
      es = .started request.id :: batches.map (.batch request.id)
  | _, es => es = []

/-- The events handed to the sink and the requests accepted, search by search: those that are done,
the one under way, and those in the queue. -/
structure Ledger (s : State) (done : List Done) (opened : List SearchEvent) : Prop where
  out : s.out = done.flatMap (·.events) ++ opened
  opened : s.phase.Opened opened
  accepted : s.accepted =
    done.map (·.request) ++ (s.phase.requests ++ WorkerRequest.searches s.queue)
  bracketed : ∀ d ∈ done, Bracketed d
  calls : s.calls = done.filterMap fun d => d.call.map (d.request, ·)

variable {debounce : Bool} {s s' : State} {done : List Done} {opened : List SearchEvent}

theorem Ledger.finish {d : Done} {request : SearchRequest} (h : Ledger s done opened)
    (hout : s'.out = done.flatMap (·.events) ++ d.events) (hopened : s'.phase.Opened [])
    (hrequest : d.request = request)
    (hphase : s.phase.requests ++ WorkerRequest.searches s.queue =
      request :: (s'.phase.requests ++ WorkerRequest.searches s'.queue))
    (haccepted : s'.accepted = s.accepted) (hd : Bracketed d)
    (hcalls : s'.calls = s.calls ++ (d.call.map (d.request, ·)).toList) :
    Ledger s' (done ++ [d]) [] where
  out := by rw [hout]; simp
  opened := hopened
  accepted := by rw [haccepted, h.accepted, hphase]; simp [hrequest]
  bracketed e he := by
    rcases List.mem_append.mp he with he | he
    · exact h.bracketed e he
    · rw [List.mem_singleton.mp he]
      exact hd
  calls := by
    rw [hcalls, h.calls, List.filterMap_append]
    cases hcall : d.call <;> simp [hcall]

theorem Ledger.same (h : Ledger s done opened) (hout : s'.out = s.out) (hphase : s'.phase = s.phase)
    (haccepted : s'.accepted = s.accepted)
    (hqueue : WorkerRequest.searches s'.queue = WorkerRequest.searches s.queue)
    (hcalls : s'.calls = s.calls) : Ledger s' done opened where
  out := hout.trans h.out
  opened := hphase ▸ h.opened
  accepted := by rw [haccepted, hphase, hqueue, h.accepted]
  bracketed := h.bracketed
  calls := hcalls.trans h.calls

theorem searches_append (q r : List WorkerRequest) : WorkerRequest.searches (q ++ r) =
    WorkerRequest.searches q ++ WorkerRequest.searches r := List.filterMap_append

/-- A search that is received waits or starts, and has no events yet. -/
theorem received_spec (debounce : Bool) (request : SearchRequest) (cancelled : Token) :
    (received debounce request cancelled).requests = [request] ∧
      (received debounce request cancelled).Opened [] := by
  rw [received]
  split_ifs <;> exact ⟨rfl, rfl⟩

theorem replaced_spec (request : SearchRequest) (cancelled : Token) :
    (replaced request cancelled).requests = [request] ∧ (replaced request cancelled).Opened [] := by
  rw [replaced]
  split_ifs <;> exact ⟨rfl, rfl⟩

/-- **What a step does to the ledger**: the search under way goes on, or comes to its end. -/
theorem Ledger.step (h : Ledger s done opened) {a : Act} (hs : Search.step debounce s a = some s') :
    ∃ done' opened', Ledger s' done' opened' := by
  obtain ⟨raised, fresh, active, queue, caller, phase, out, accepted, calls⟩ := s
  have hout := h.out
  have hopened := h.opened
  have haccepted := h.accepted
  cases a with
  | request r =>
    cases caller <;> cases hs
    exact ⟨done, opened, h.same rfl rfl rfl rfl rfl⟩
  | send =>
    cases caller with
    | sending r cancelled =>
      have hsent : Ledger ⟨raised, fresh, active, queue ++ [.search r cancelled], .idle, phase, out,
          accepted ++ [r], calls⟩ done opened :=
        { h with
          accepted := by
            dsimp only at haccepted ⊢
            rw [haccepted, searches_append]
            simp [WorkerRequest.searches] }
      cases phase with
      | stopped pending =>
        cases hs
        exact ⟨done, opened, h.same rfl rfl rfl rfl rfl⟩
      | _ =>
        cases hs
        exact ⟨done, opened, hsent⟩
    | _ => cases hs
  | cancel =>
    cases caller <;> cases hs
    exact ⟨done, opened, h.same rfl rfl rfl rfl rfl⟩
  | raise_ =>
    cases caller <;> cases hs
    exact ⟨done, opened, h.same rfl rfl rfl rfl rfl⟩
  | drop =>
    cases caller <;> cases hs
    exact ⟨done, opened, h.same rfl rfl rfl rfl rfl⟩
  | shutdown =>
    have hqueue : WorkerRequest.searches (queue ++ [.shutdown]) =
        WorkerRequest.searches queue := by
      rw [searches_append]
      exact List.append_nil _
    cases caller with
    | dropping =>
      cases phase with
      | stopped pending =>
        cases hs
        exact ⟨done, opened, h.same rfl rfl rfl rfl rfl⟩
      | _ =>
        cases hs
        exact ⟨done, opened, h.same rfl rfl rfl hqueue rfl⟩
    | _ => cases hs
  | receive =>
    cases phase with
    | receiving =>
      obtain rfl : opened = [] := hopened
      cases queue with
      | nil => cases hs
      | cons message queue =>
        cases message with
        | search r cancelled =>
          cases hs
          obtain ⟨hrequests, hnew⟩ := received_spec debounce r cancelled
          refine ⟨done, [], { h with opened := hnew, accepted := ?_ }⟩
          dsimp only at haccepted ⊢
          rw [haccepted, hrequests]
          rfl
        | shutdown =>
          cases hs
          exact ⟨done, [], { h with opened := rfl }⟩
    | _ => cases hs
  | replace =>
    cases phase with
    | debouncing waiting token =>
      obtain rfl : opened = [] := hopened
      cases queue with
      | nil => cases hs
      | cons message queue =>
        cases message with
        | search r cancelled =>
          cases hs
          obtain ⟨hrequests, hnew⟩ := replaced_spec r cancelled
          refine ⟨_, [], h.finish (d := ⟨waiting, none, [.cancelled waiting.id]⟩) ?_ hnew rfl ?_ rfl
            (.skipped waiting) (List.append_nil _).symm⟩
          · dsimp only at hout ⊢
            rw [hout, List.append_nil]
          · dsimp only
            rw [hrequests]
            rfl
        | shutdown =>
          cases hs
          exact ⟨done, [], { h with opened := rfl }⟩
    | _ => cases hs
  | timeout =>
    cases phase <;> cases hs
    exact ⟨done, opened, { h with }⟩
  | begin_ =>
    cases phase with
    | starting r cancelled =>
      obtain rfl : opened = [] := hopened
      rw [Search.step] at hs
      dsimp only at hs
      split_ifs at hs with hraised
      · cases hs
        refine ⟨_, [], h.finish (d := ⟨r, none, [.cancelled r.id]⟩) ?_ rfl rfl rfl rfl (.skipped r)
          (List.append_nil _).symm⟩
        dsimp only at hout ⊢
        rw [hout, List.append_nil]
      · cases hs
        refine ⟨done, [.started r.id],
          { h with out := ?_, opened := ⟨[], ⟨?_, List.take_nil.symm⟩, rfl, rfl⟩ }⟩
        · dsimp only at hout ⊢
          rw [hout, List.append_nil]
        · exact fun _ hb => nomatch hb
    | _ => cases hs
  | emit event =>
    cases phase with
    | searching r cancelled forwarded emitted =>
      cases hs
      obtain ⟨batches, hb, rfl, rfl⟩ := hopened
      refine ⟨done, _, { h with out := ?_, opened := ⟨_, hb.emit event, ?_, rfl⟩ }⟩
      · dsimp only at hout ⊢
        rw [hout, List.append_assoc, List.map_append, List.cons_append]
      · rw [List.flatten_append, List.length_append]
    | _ => cases hs
  | return_ result =>
    cases phase <;> cases hs
    exact ⟨done, opened, { h with }⟩
  | report =>
    cases phase with
    | returned r cancelled forwarded emitted result =>
      cases hs
      obtain ⟨batches, hb, rfl, rfl⟩ := hopened
      have hlast : (if cancelled ∈ raised then SearchEvent.cancelled r.id
          else lastEvent r batches.flatten.length result).Terminal r.id := by
        split_ifs
        · rfl
        · exact lastEvent_terminal r _ result
      refine ⟨_, [], h.finish (d := ⟨r, some emitted, _⟩) ?_ rfl rfl rfl rfl (.ran hb hlast) rfl⟩
      dsimp only at hout ⊢
      rw [hout, List.append_assoc, List.cons_append]
    | _ => cases hs
  | clear =>
    cases phase <;> cases hs
    exact ⟨done, opened, { h with }⟩

/-- Shutdown is sent last, and the worker stops when it gets to it. -/
structure Closing (s : State) : Prop where
  before : s.caller ≠ .dropped → .shutdown ∉ s.queue ∧ ∀ p, s.phase ≠ .stopped p
  after : s.caller = .dropped →
    (∃ q, .shutdown ∉ q ∧ s.queue = q ++ [.shutdown] ∧ ∀ p, s.phase ≠ .stopped p) ∨
      (s.queue = [] ∧ ∃ p, s.phase = .stopped p)

theorem Closing.of_phase (h : Closing s) (hcaller : s'.caller = s.caller)
    (hqueue : s'.queue = s.queue) (hs : ∀ p, s.phase ≠ .stopped p)
    (hs' : ∀ p, s'.phase ≠ .stopped p) : Closing s' where
  before hc := by
    rw [hqueue]
    exact ⟨(h.before (hcaller ▸ hc)).1, hs'⟩
  after hc := by
    rcases h.after (hcaller ▸ hc) with ⟨q, hq, hsq, -⟩ | ⟨-, p, hp⟩
    · exact .inl ⟨q, hq, hqueue.trans hsq, hs'⟩
    · exact absurd hp (hs p)

theorem Closing.of_search (h : Closing s) {r : SearchRequest} {cancelled : Token}
    (hcaller : s'.caller = s.caller) (hqueue : s.queue = .search r cancelled :: s'.queue)
    (hs' : ∀ p, s'.phase ≠ .stopped p) : Closing s' where
  before hc := by
    have hq := (h.before (hcaller ▸ hc)).1
    rw [hqueue] at hq
    exact ⟨fun hm => hq (List.mem_cons_of_mem _ hm), hs'⟩
  after hc := by
    rcases h.after (hcaller ▸ hc) with ⟨q, hq, hsq, -⟩ | ⟨hnil, -⟩
    · rw [hqueue] at hsq
      cases q with
      | nil => cases (List.cons.inj hsq).1
      | cons m q =>
        exact .inl ⟨q, fun hm => hq (List.mem_cons_of_mem _ hm), (List.cons.inj hsq).2, hs'⟩
    · rw [hqueue] at hnil
      cases hnil

theorem Closing.of_shutdown (h : Closing s) {p : Option SearchRequest}
    (hcaller : s'.caller = s.caller) (hqueue : s.queue = .shutdown :: s'.queue)
    (hs' : s'.phase = .stopped p) : Closing s' where
  before hc := by
    have hq := (h.before (hcaller ▸ hc)).1
    rw [hqueue] at hq
    exact absurd List.mem_cons_self hq
  after hc := by
    rcases h.after (hcaller ▸ hc) with ⟨q, hq, hsq, -⟩ | ⟨hnil, -⟩
    · rw [hqueue] at hsq
      cases q with
      | nil => exact .inr ⟨(List.cons.inj hsq).2, p, hs'⟩
      | cons m q =>
        rw [← (List.cons.inj hsq).1] at hq
        exact absurd List.mem_cons_self hq
    · rw [hqueue] at hnil
      cases hnil

theorem received_ne_stopped (debounce : Bool) (request : SearchRequest) (cancelled : Token)
    (p : Option SearchRequest) : received debounce request cancelled ≠ .stopped p := by
  rw [received]
  split_ifs <;> exact nofun

theorem replaced_ne_stopped (request : SearchRequest) (cancelled : Token)
    (p : Option SearchRequest) : replaced request cancelled ≠ .stopped p := by
  rw [replaced]
  split_ifs <;> exact nofun

theorem Closing.step (h : Closing s) {a : Act} (hs : Search.step debounce s a = some s') :
    Closing s' := by
  obtain ⟨raised, fresh, active, queue, caller, phase, out, accepted, calls⟩ := s
  have hbefore := h.before
  cases a with
  | request r =>
    cases caller <;> cases hs
    exact ⟨fun _ => hbefore nofun, nofun⟩
  | send =>
    cases caller with
    | sending r cancelled =>
      obtain ⟨hq, hp⟩ := hbefore nofun
      have hq' : .shutdown ∉ queue ++ [.search r cancelled] := by simpa using hq
      cases phase with
      | stopped pending => exact absurd rfl (hp pending)
      | _ =>
        cases hs
        exact ⟨fun _ => ⟨hq', hp⟩, nofun⟩
    | _ => cases hs
  | cancel =>
    cases caller <;> cases hs
    refine ⟨fun _ => hbefore nofun, fun hc => ?_⟩
    cases active <;> cases hc
  | raise_ | drop =>
    cases caller <;> cases hs
    exact ⟨fun _ => hbefore nofun, nofun⟩
  | shutdown =>
    cases caller with
    | dropping =>
      obtain ⟨hq, hp⟩ := hbefore nofun
      cases phase with
      | stopped pending => exact absurd rfl (hp pending)
      | _ =>
        cases hs
        exact ⟨fun hc => absurd rfl hc, fun _ => .inl ⟨queue, hq, rfl, hp⟩⟩
    | _ => cases hs
  | receive =>
    cases phase with
    | receiving =>
      cases queue with
      | nil => cases hs
      | cons message queue =>
        cases message with
        | search r cancelled =>
          cases hs
          exact h.of_search rfl rfl (received_ne_stopped debounce r cancelled)
        | shutdown =>
          cases hs
          exact h.of_shutdown rfl rfl rfl
    | _ => cases hs
  | replace =>
    cases phase with
    | debouncing waiting token =>
      cases queue with
      | nil => cases hs
      | cons message queue =>
        cases message with
        | search r cancelled =>
          cases hs
          exact h.of_search rfl rfl (replaced_ne_stopped r cancelled)
        | shutdown =>
          cases hs
          exact h.of_shutdown rfl rfl rfl
    | _ => cases hs
  | begin_ =>
    cases phase with
    | starting r cancelled =>
      rw [Search.step] at hs
      dsimp only at hs
      split_ifs at hs <;>
        · cases hs
          exact h.of_phase rfl rfl nofun nofun
    | _ => cases hs
  | timeout | emit | return_ | report | clear =>
    cases phase <;> cases hs
    exact h.of_phase rfl rfl nofun nofun

/-- What holds of the threads at all times. -/
structure Invariant (s : State) : Prop where
  ledger : ∃ done opened, Ledger s done opened
  closing : Closing s

theorem Invariant.initial : Invariant initial where
  ledger := ⟨[], [], rfl, rfl, rfl, fun _ hd => (nomatch hd), rfl⟩
  closing := ⟨fun _ => ⟨nofun, nofun⟩, nofun⟩

theorem Invariant.step (h : Invariant s) {a : Act} (hs : Search.step debounce s a = some s') :
    Invariant s' := by
  obtain ⟨⟨done, opened, hl⟩, hc⟩ := h
  exact ⟨hl.step hs, hc.step hs⟩

/-! ## Coming to rest -/

/-- How many steps a phase is from the next message at most. -/
def Phase.work : Phase → ℕ
  | .receiving | .stopped _ => 0
  | .clearing _ => 1
  | .returned .. => 2
  | .searching .. => 3
  | .starting .. => 4
  | .debouncing .. => 5

/-- How many steps the worker can take at most, besides what the service emits. -/
def State.work (s : State) : ℕ := s.phase.work + 6 * s.queue.length

theorem work_mk (raised : List Token) (fresh : Token) (active : Option Token)
    (queue : List WorkerRequest) (caller : Caller) (phase : Phase) (out : List SearchEvent)
    (accepted : List SearchRequest) (calls : List (SearchRequest × List SearchEvent)) :
    State.work ⟨raised, fresh, active, queue, caller, phase, out, accepted, calls⟩ =
      phase.work + 6 * queue.length := rfl

theorem work_receiving : Phase.receiving.work = 0 := rfl

theorem work_debouncing (request : SearchRequest) (cancelled : Token) :
    (Phase.debouncing request cancelled).work = 5 := rfl

def Act.emits : Act → Bool
  | emit _ => true
  | _ => false

theorem work_step {a : Act} (ha : a.ofWorker = true) (hs : step debounce s a = some s') :
    s'.work + 1 ≤ s.work + if a.emits then 1 else 0 := by
  have hreceived : ∀ r cancelled, (received debounce r cancelled).work ≤ 5 := by
    intro r cancelled
    rw [received]
    split_ifs <;> simp [Phase.work]
  have hreplaced : ∀ r cancelled, (replaced r cancelled).work ≤ 5 := by
    intro r cancelled
    rw [replaced]
    split_ifs <;> simp [Phase.work]
  obtain ⟨raised, fresh, active, queue, caller, phase, out, accepted, calls⟩ := s
  cases a with
  | request | send | cancel | raise_ | drop | shutdown => cases ha
  | receive =>
    cases phase with
    | receiving =>
      cases queue with
      | nil => cases hs
      | cons message queue =>
        cases message with
        | search r cancelled =>
          cases hs
          have := hreceived r cancelled
          simp only [work_mk, List.length_cons, work_receiving]
          omega
        | shutdown =>
          cases hs
          simp only [State.work, Phase.work, Act.emits, List.length_cons]
          omega
    | _ => cases hs
  | replace =>
    cases phase with
    | debouncing waiting token =>
      cases queue with
      | nil => cases hs
      | cons message queue =>
        cases message with
        | search r cancelled =>
          cases hs
          have := hreplaced r cancelled
          simp only [work_mk, List.length_cons, work_debouncing]
          omega
        | shutdown =>
          cases hs
          simp only [State.work, Phase.work, Act.emits, List.length_cons]
          omega
    | _ => cases hs
  | begin_ =>
    cases phase with
    | starting r cancelled =>
      rw [Search.step] at hs
      dsimp only at hs
      split_ifs at hs <;>
        · cases hs
          simp only [work_mk, Phase.work]
          omega
    | _ => cases hs
  | timeout | emit | return_ | report | clear =>
    cases phase <;> cases hs
    simp only [work_mk, Phase.work, Act.emits, if_true]
    omega

theorem work_run {acts : List Act} (ha : ∀ a ∈ acts, a.ofWorker = true)
    (hr : Runs.run (step debounce) s acts = some s') :
    acts.length ≤ s.work + (acts.filter Act.emits).length := by
  induction acts generalizing s with
  | nil => exact Nat.zero_le _
  | cons a acts ih =>
    obtain ⟨t, ht, hr⟩ := Option.bind_eq_some_iff.mp hr
    have hstep := work_step (ha a List.mem_cons_self) ht
    have hrest := ih (fun b hb => ha b (List.mem_cons_of_mem _ hb)) hr
    by_cases he : a.emits = true
    · rw [if_pos he] at hstep
      rw [List.length_cons, List.filter_cons_of_pos he, List.length_cons]
      omega
    · rw [if_neg he] at hstep
      rw [List.length_cons, List.filter_cons_of_neg he]
      omega

/-- The worker can do nothing until it is sent something. -/
def Resting (debounce : Bool) (s : State) : Prop :=
  ∀ a : Act, a.ofWorker = true → step debounce s a = none

theorem Resting.phase (h : Resting debounce s) :
    (s.phase = .receiving ∧ s.queue = []) ∨ ∃ p, s.phase = .stopped p := by
  obtain ⟨raised, fresh, active, queue, caller, phase, out, accepted, calls⟩ := s
  cases phase with
  | receiving =>
    cases queue with
    | nil => exact .inl ⟨rfl, rfl⟩
    | cons message queue => cases message <;> cases h .receive rfl
  | stopped p => exact .inr ⟨p, rfl⟩
  | debouncing => cases h .timeout rfl
  | starting r cancelled =>
    have hbegin := h .begin_ rfl
    rw [Search.step] at hbegin
    dsimp only at hbegin
    split_ifs at hbegin
  | searching => cases h (.return_ (.ok ())) rfl
  | returned => cases h .report rfl
  | clearing => cases h .clear rfl

/-- **Search events are well bracketed**, however the calls fall between the worker's steps and
whatever the service emits: the events of the searches accepted stand one search after the other, in
order. The worker comes to rest once the service has emitted all it will, and then every search
accepted has its end, but for one that shutdown found waiting. -/
theorem well_bracketed (h : Runs.Reach (step debounce) (fun _ _ => True) (· = initial) s) :
    ∃ done opened, Ledger s done opened ∧
      (∀ acts s', (∀ a ∈ acts, a.ofWorker = true) → Runs.run (step debounce) s acts = some s' →
        acts.length ≤ s.work + (acts.filter Act.emits).length) ∧
      (Resting debounce s → opened = [] ∧ (s.accepted = done.map (·.request) ∨
        ∃ cut, s.phase = .stopped (some cut) ∧ s.accepted = done.map (·.request) ++ [cut])) := by
  have hinv : Invariant s := by
    refine h.inv (fun s hs => ?_) fun s a s' hi _ hs => hi.step hs
    subst hs
    exact .initial
  obtain ⟨⟨done, opened, hl⟩, hc⟩ := hinv
  refine ⟨done, opened, hl, fun acts s' => work_run, fun hrest => ?_⟩
  have haccepted := hl.accepted
  have hopened := hl.opened
  rcases hrest.phase with ⟨hphase, hqueue⟩ | ⟨p, hphase⟩
  · rw [hphase] at haccepted hopened
    rw [hqueue] at haccepted
    exact ⟨hopened, .inl (haccepted.trans (List.append_nil _))⟩
  · -- nothing is behind the shutdown
    have hdropped : s.caller = .dropped := by
      by_contra hne
      exact (hc.before hne).2 p hphase
    have hqueue : s.queue = [] := by
      rcases hc.after hdropped with ⟨-, -, -, hp⟩ | ⟨hq, -⟩
      · exact absurd hphase (hp p)
      · exact hq
    rw [hphase] at haccepted hopened
    rw [hqueue] at haccepted
    refine ⟨hopened, ?_⟩
    cases p with
    | none => exact .inl (haccepted.trans (List.append_nil _))
    | some cut => exact .inr ⟨cut, hphase, haccepted⟩

/-- One character typed after another, and the second search runs. -/
theorem well_bracketed_typed :
    let search (id : ℕ) (query : String) : SearchRequest :=
      { id := ⟨id⟩, root := [], mode := .text, query, limit := 1 }
    let found : SearchMatch := { path := [], line := some 1, column := some 1, text := none }
    let s : State :=
      { raised := [0], fresh := 2, active := none, queue := [], caller := .idle,
        phase := .receiving,
        out := [.cancelled ⟨1⟩, .started ⟨2⟩, .batch ⟨2⟩ [found], .finished ⟨2⟩ true],
        accepted := [search 1 "a", search 2 "ab"],
        calls := [(search 2 "ab", [.batch ⟨2⟩ [found, found]])] }
    ∃ done opened, Ledger s done opened ∧
      (∀ acts s', (∀ a ∈ acts, a.ofWorker = true) → Runs.run (step true) s acts = some s' →
        acts.length ≤ s.work + (acts.filter Act.emits).length) ∧
      (Resting true s → opened = [] ∧ (s.accepted = done.map (·.request) ∨
        ∃ cut, s.phase = .stopped (some cut) ∧ s.accepted = done.map (·.request) ++ [cut])) := by
  intro search found s
  have hbatch : boundedSink (search 2 "ab") 0 (.batch ⟨2⟩ [found, found]) = [[found]] := by
    simp [boundedSink, chunks, maxBatch, search]
  let before : State :=
    { raised := [0], fresh := 2, active := some 1, queue := [], caller := .idle,
      phase := .searching (search 2 "ab") 1 0 [], out := [.cancelled ⟨1⟩, .started ⟨2⟩],
      accepted := [search 1 "a", search 2 "ab"], calls := [] }
  let after : State :=
    { before with
      phase := .searching (search 2 "ab") 1 1 [.batch ⟨2⟩ [found, found]]
      out := before.out ++ [.batch ⟨2⟩ [found]] }
  have hbegun : Runs.run (step true) initial [.request (search 1 "a"), .send, .receive,
      .request (search 2 "ab"), .send, .replace, .timeout, .begin_] = some before := rfl
  have hemit : step true before (.emit (.batch ⟨2⟩ [found, found])) = some after := by
    rw [step]
    dsimp only [before]
    rw [hbatch]
    rfl
  have hended : Runs.run (step true) after [.return_ (.ok ()), .report, .clear] = some s := rfl
  have hreach : Runs.Reach (step true) (fun _ _ => True) (· = initial) before :=
    .of_run (fun _ _ => trivial) _ (.start rfl) hbegun
  exact well_bracketed (.of_run (fun _ _ => trivial) _ (.next hreach trivial hemit) hended)

end Search

end Termesh
