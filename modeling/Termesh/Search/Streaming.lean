import Mathlib.Data.List.Basic
import Termesh.Search.Protocol
import Termesh.Search.Worker

/-!
# Streaming a ripgrep process

* `streamChild`: the loop that reads the lines of the process, and what it makes of its end. A
  `Tick` is what one round of the loop finds;
* `patience`, `Undisturbed`: the lines that the loop waits for, and what must not happen meanwhile;
* `Holding`: the matches handed out and held back between two rounds;
* **`stream_delivers_iff`**: when every match of every record that is UTF-8 is delivered;
* **`not_utf8_ends_search`**: a path that is not UTF-8 costs the paths behind it.
-/

namespace Termesh

namespace Search

open Utf8

/-! ## The code -/

/-- What one round of the loop finds: the flag raised; the next line, or the end of the output;
or no line in time, and the child running, gone or not to be asked after. -/
inductive Tick where
  | cancelled
  | next
  | waiting
  | exited
  | failed (error : String)

/-- A round that takes from the channel. -/
def Tick.receives : Tick → Bool
  | next => true
  | _ => false

/-- The matches not yet emitted, how many there were, and the events emitted. -/
structure Stream where
  batch : List SearchMatch
  count : ℕ
  out : List SearchEvent

/-- How the loop ends: by a `break`, or by returning an error. -/
inductive Exit where
  | broke (cancelled stoppedAtLimit : Bool) (streamError : Option SearchError)
  | returned (error : SearchError)

/-- An exit status: its code, unless a signal ended the process, and how it is shown. -/
structure ExitStatus where
  code : Option ℤ
  shown : String

/-- What comes behind the loop: what `wait` says of a process that was killed or not, the flag, and
what the process wrote to its error output. -/
structure Ending where
  wait : Bool → Except String ExitStatus
  cancelled : Bool
  stderr : String

/-- `emit_batch`. -/
def Stream.emitBatch (request : SearchRequest) (s : Stream) : Stream :=
  if s.batch = [] then s
  else { s with out := s.out ++ [.batch request.id s.batch], batch := [] }

/-- One match more. -/
def Stream.push (request : SearchRequest) (s : Stream) (one : SearchMatch) : Stream :=
  let s := { s with batch := s.batch ++ [one], count := s.count + 1 }
  if s.batch.length = maxBatch then s.emitBatch request else s

/-- The matches of a line, up to the limit, and whether one was left over. -/
def takeFound (request : SearchRequest) : Stream → List SearchMatch → Stream × Bool
  | s, [] => (s, false)
  | s, one :: found =>
    if request.limit ≤ s.count then (s, true) else takeFound request (s.push request one) found

/-- The loop, unless the rounds run out before it ends. -/
def streamLoop (parse : String → Except String Value) (request : SearchRequest) :
    List Tick → List (Except String String) → Stream → Option (Stream × Exit)
  | [], _, _ => none
  | .cancelled :: _, _, s => some (s, .broke true false none)
  | .waiting :: ticks, lines, s => streamLoop parse request ticks lines s
  | .exited :: _, _, s => some (s, .broke false false none)
  | .failed error :: _, _, s => some (s, .returned (.process error))
  | .next :: _, [], s => some (s, .broke false false none)
  | .next :: _, .error error :: _, s => some (s, .broke false false (some (.process error)))
  | .next :: ticks, .ok line :: lines, s =>
    match matchesFromLine parse request line with
    | .error error => some (s, .broke false false (some error))
    | .ok found =>
      match takeFound request s found with
      | (s, true) => some (s, .broke false true none)
      | (s, false) => streamLoop parse request ticks lines s

/-- What the end of the process comes to. The loop kills the process whenever it breaks for another
reason than that there is nothing more to read. -/
def Ending.result (ending : Ending) (cancelled stoppedAtLimit : Bool)
    (streamError : Option SearchError) : Except SearchError Unit :=
  match ending.wait (cancelled || stoppedAtLimit || streamError.isSome) with
  | .error error => .error (.process error)
  | .ok status =>
    match streamError with
    | some error => .error error
    | none =>
      if cancelled || ending.cancelled || stoppedAtLimit then .ok ()
      else if status.code = some 0 ∨ status.code = some 1 then .ok ()
      else if ending.stderr = "" then .error (.process ("ripgrep exited with " ++ status.shown))
      else .error (.process ending.stderr)

/-- `stream_child`, on the lines of a process: the events emitted, and the result. -/
def streamChild (parse : String → Except String Value) (request : SearchRequest)
    (ticks : List Tick) (lines : List (Except String String)) (ending : Ending) :
    Option (List SearchEvent × Except SearchError Unit) :=
  (streamLoop parse request ticks lines { batch := [], count := 0, out := [] }).map
    fun (s, exit) =>
      match exit with
      | .returned error => (s.out, .error error)
      | .broke cancelled stoppedAtLimit streamError =>
        ((s.emitBatch request).out, ending.result cancelled stoppedAtLimit streamError)

/-! ## What a search should deliver -/

/-- The matches of the records that are UTF-8. -/
def matchesOf (root : Path) (records : List Record) : List SearchMatch :=
  records.flatMap fun record => (record.found root).getD []

/-- The process ends with status 0 or 1, unless it is killed. -/
structure Ending.Clean (ending : Ending) : Prop where
  exits : ∃ status, ending.wait false = .ok status ∧ (status.code = some 0 ∨ status.code = some 1)
  killed : ∃ status, ending.wait true = .ok status

/-- The rounds that receive something, before the loop gives up by itself. -/
def patience : List Tick → ℕ
  | .next :: ticks => patience ticks + 1
  | .waiting :: ticks => patience ticks
  | _ => 0

/-- The loop gives up because it cannot ask after the process. -/
def pollFails : List Tick → Bool
  | .next :: ticks => pollFails ticks
  | .waiting :: ticks => pollFails ticks
  | .failed _ :: _ => true
  | _ => false

/-- Nothing comes between a search with room for so many matches and its records. -/
structure Undisturbed (room : ℕ) (root : Path) (ticks : List Tick) (records : List Record) :
    Prop where
  /-- A record that is not UTF-8 comes behind more matches than there is room for. -/
  readable : ∀ pre record post, records.take (patience ticks) = pre ++ record :: post →
    record.found root = none → room < (matchesOf root pre).length
  /-- The process can be asked after as long as the search needs it. -/
  polled : pollFails ticks = true → records.length < patience ticks ∨
    room < (matchesOf root (records.take (patience ticks))).length
  /-- The records that the loop does not wait for hold no match that there is room for. -/
  received : matchesOf root (records.drop (patience ticks)) = [] ∨
    room ≤ (matchesOf root (records.take (patience ticks))).length

/-! ## Between two rounds -/

/-- The matches so far are emitted or wait to be. -/
structure Holding (request : SearchRequest) (s : Stream) (had : List SearchMatch) : Prop where
  found : foundFor request.id s.out ++ s.batch = had
  count : s.count = had.length
  within : had.length ≤ request.limit

variable {parse : String → Except String Value} {request : SearchRequest} {s s' : Stream}
  {had found : List SearchMatch} {ticks : List Tick} {record : Record} {records : List Record}
  {line : List UInt8} {lines : List (List UInt8)} {lines' : List (Except String String)}
  {exit : Exit}

theorem foundFor_emitBatch (request : SearchRequest) (s : Stream) :
    foundFor request.id (s.emitBatch request).out = foundFor request.id s.out ++ s.batch := by
  by_cases hb : s.batch = []
  · simp [Stream.emitBatch, hb]
  · rw [Stream.emitBatch, if_neg hb, foundFor_append]
    simp [foundFor]

theorem Holding.emitBatch (h : Holding request s had) :
    Holding request (s.emitBatch request) had := by
  by_cases hb : s.batch = []
  · rwa [Stream.emitBatch, if_pos hb]
  · have hfound := foundFor_emitBatch request s
    rw [Stream.emitBatch, if_neg hb] at hfound ⊢
    exact ⟨by rw [List.append_nil, hfound, h.found], h.count, h.within⟩

theorem Holding.push (h : Holding request s had) (one : SearchMatch)
    (hroom : had.length < request.limit) : Holding request (s.push request one) (had ++ [one]) := by
  have hnext : Holding request { s with batch := s.batch ++ [one], count := s.count + 1 }
      (had ++ [one]) := by
    refine ⟨?_, ?_, ?_⟩
    · rw [← List.append_assoc, h.found]
    · rw [List.length_append, List.length_singleton, h.count]
    · rw [List.length_append, List.length_singleton]
      omega
  by_cases hfull : (s.batch ++ [one]).length = maxBatch
  · rw [Stream.push, if_pos hfull]
    exact hnext.emitBatch
  · rw [Stream.push, if_neg hfull]
    exact hnext

theorem Holding.takeFound (h : Holding request s had) (found : List SearchMatch) :
    Holding request (takeFound request s found).1 ((had ++ found).take request.limit) ∧
      ((Search.takeFound request s found).2 = true ↔
        request.limit - had.length < found.length) := by
  induction found generalizing s had with
  | nil =>
    rw [List.append_nil, List.take_of_length_le h.within]
    exact ⟨h, by simp [Search.takeFound]⟩
  | cons one found ih =>
    have hwithin := h.within
    by_cases hfull : request.limit ≤ s.count
    · have hlen : had.length = request.limit := by rw [← h.count] at *; omega
      rw [Search.takeFound, if_pos hfull, ← hlen, List.take_left]
      exact ⟨h, by simp⟩
    · have hroom : had.length < request.limit := by rw [← h.count]; omega
      have hrest := ih (h.push one hroom)
      rw [List.append_assoc, List.singleton_append, List.length_append,
        List.length_singleton] at hrest
      rw [Search.takeFound, if_neg hfull]
      refine ⟨hrest.1, hrest.2.trans ?_⟩
      rw [List.length_cons]
      omega

/-! ## What a round does to the condition -/

@[simp] theorem matchesOf_nil (root : Path) : matchesOf root [] = [] := rfl

theorem matchesOf_cons {root : Path} (h : record.found root = some found)
    (records : List Record) :
    matchesOf root (record :: records) = found ++ matchesOf root records := by
  simp [matchesOf, h]

theorem undisturbed_silent {room : ℕ} {root : Path} (hn : patience ticks = 0)
    (hp : pollFails ticks = false) :
    Undisturbed room root ticks records ↔ matchesOf root records = [] ∨ room = 0 := by
  constructor
  · intro h
    have hreceived := h.received
    rw [hn, List.drop_zero, List.take_zero] at hreceived
    simpa using hreceived
  · intro h
    refine ⟨fun pre record post hsplit => ?_, fun hfails => ?_, ?_⟩
    · rw [hn, List.take_zero] at hsplit
      exact absurd hsplit.symm (by simp)
    · rw [hp] at hfails
      cases hfails
    · rw [hn, List.drop_zero, List.take_zero]
      simpa using h

theorem undisturbed_finished {room : ℕ} {root : Path} (ticks : List Tick) :
    Undisturbed room root (.next :: ticks) [] where
  readable pre record post hsplit := by
    rw [List.take_nil] at hsplit
    exact absurd hsplit.symm (by simp)
  polled _ := .inl (by simp [patience])
  received := .inl (by rw [List.drop_nil, matchesOf_nil])

theorem not_undisturbed_of_none {room : ℕ} {root : Path} (h : record.found root = none) :
    ¬ Undisturbed room root (.next :: ticks) (record :: records) := fun hu => by
  have hlt := hu.readable [] record (records.take (patience ticks)) rfl h
  exact absurd hlt (Nat.not_lt_zero _)

theorem undisturbed_full {room : ℕ} {root : Path} (h : record.found root = some found)
    (hfull : room < found.length) : Undisturbed room root (.next :: ticks) (record :: records) := by
  have hlen (l : List Record) : room < (matchesOf root (record :: l)).length := by
    rw [matchesOf_cons h, List.length_append]
    omega
  refine ⟨fun pre bad post hsplit hbad => ?_, fun _ => .inr (hlen _), .inr (hlen _).le⟩
  cases pre with
  | nil =>
    have heq : record = bad := (List.cons.inj hsplit).1
    rw [heq, hbad] at h
    cases h
  | cons first pre =>
    have heq : record = first := (List.cons.inj hsplit).1
    rw [← heq]
    exact hlen pre

theorem undisturbed_cons {room : ℕ} {root : Path} (h : record.found root = some found)
    (hroom : found.length ≤ room) :
    Undisturbed room root (.next :: ticks) (record :: records) ↔
      Undisturbed (room - found.length) root ticks records := by
  have hlen (l : List Record) : (matchesOf root (record :: l)).length =
      found.length + (matchesOf root l).length := by
    rw [matchesOf_cons h, List.length_append]
  have htake : (record :: records).take (patience (.next :: ticks)) =
      record :: records.take (patience ticks) := rfl
  have hdrop : (record :: records).drop (patience (.next :: ticks)) =
      records.drop (patience ticks) := rfl
  constructor
  · intro hu
    refine ⟨fun pre bad post hsplit hbad => ?_, fun hfails => ?_, ?_⟩
    · have hlt := hu.readable (record :: pre) bad post (by rw [htake, hsplit]; rfl) hbad
      rw [hlen] at hlt
      omega
    · have hp := hu.polled hfails
      rw [htake, hlen, List.length_cons, patience] at hp
      omega
    · have hr := hu.received
      rw [htake, hdrop, hlen] at hr
      exact hr.imp_right fun hle => by omega
  · intro hu
    refine ⟨fun pre bad post hsplit hbad => ?_, fun hfails => ?_, ?_⟩
    · rw [htake] at hsplit
      cases pre with
      | nil =>
        have heq : record = bad := (List.cons.inj hsplit).1
        rw [heq, hbad] at h
        cases h
      | cons first pre =>
        obtain ⟨heq, hrest⟩ := List.cons.inj hsplit
        have hlt := hu.readable pre bad post hrest hbad
        rw [← heq, hlen]
        omega
    · have hp := hu.polled hfails
      rw [htake, hlen, List.length_cons, patience]
      omega
    · have hr := hu.received
      rw [htake, hdrop, hlen]
      exact hr.imp_right fun hle => by omega

/-! ## The loop -/

/-- The loop ends without an error of its own. -/
def Exit.Fine : Exit → Prop
  | broke _ _ streamError => streamError = none
  | returned _ => False

/-- What is at hand is all there is room for exactly when nothing more was to come, or could. -/
theorem take_eq_self_iff {limit : ℕ} (had rest : List SearchMatch) (h : had.length ≤ limit) :
    had = (had ++ rest).take limit ↔ rest = [] ∨ limit - had.length = 0 := by
  rw [List.take_append, List.take_of_length_le h, List.self_eq_append_right,
    List.take_eq_nil_iff]
  exact or_comm

theorem Holding.silent_iff (h : Holding request s had) {root : Path} (hn : patience ticks = 0)
    (hp : pollFails ticks = false) :
    foundFor request.id (s.emitBatch request).out =
        (had ++ matchesOf root records).take request.limit ↔
      Undisturbed (request.limit - had.length) root ticks records := by
  rw [foundFor_emitBatch, h.found, take_eq_self_iff _ _ h.within, undisturbed_silent hn hp]

theorem streamLoop_next (hp : Prints parse request.mode line record) (ticks : List Tick)
    (lines : List (List UInt8)) (s : Stream) :
    (record.found request.root = none ∧ ∃ error, streamLoop parse request (.next :: ticks)
      ((line :: lines).map readLine) s = some (s, .broke false false (some error))) ∨
    (∃ found s', record.found request.root = some found ∧ takeFound request s found = (s', true) ∧
      streamLoop parse request (.next :: ticks) ((line :: lines).map readLine) s =
        some (s', .broke false true none)) ∨
    ∃ found s', record.found request.root = some found ∧ takeFound request s found = (s', false) ∧
      streamLoop parse request (.next :: ticks) ((line :: lines).map readLine) s =
        streamLoop parse request ticks (lines.map readLine) s' := by
  have hline := line_found hp
  rw [lineMatches] at hline
  cases hread : readLine line with
  | error error =>
    rw [hread] at hline
    cases hfound : record.found request.root with
    | none => exact .inl ⟨rfl, .process error, by rw [List.map_cons, hread]; rfl⟩
    | some found =>
      rw [hfound] at hline
      cases hline
  | ok text =>
    rw [hread] at hline
    have hloop : streamLoop parse request (.next :: ticks) ((line :: lines).map readLine) s =
        match matchesFromLine parse request text with
        | .error error => some (s, .broke false false (some error))
        | .ok found =>
          match takeFound request s found with
          | (s, true) => some (s, .broke false true none)
          | (s, false) => streamLoop parse request ticks (lines.map readLine) s := by
      rw [List.map_cons, hread]
      rfl
    cases hfound : record.found request.root with
    | none =>
      rw [hfound] at hline
      obtain ⟨error, herror⟩ := hline
      exact .inl ⟨rfl, error, by rw [hloop]; simp only [herror]⟩
    | some found =>
      rw [hfound] at hline
      have hmatches : matchesFromLine parse request text = .ok found := hline
      rw [hmatches] at hloop
      cases htake : takeFound request s found with
      | mk s' stopped =>
        simp only [htake] at hloop
        cases stopped with
        | true => exact .inr (.inl ⟨found, s', rfl, htake, hloop⟩)
        | false => exact .inr (.inr ⟨found, s', rfl, htake, hloop⟩)

/-- **The loop**: it ends well, with all that it should have at hand, exactly when nothing comes
between. -/
theorem streamLoop_iff (hw : List.Forall₂ (Prints parse request.mode) lines records)
    (h : Holding request s had)
    (hrun : streamLoop parse request ticks (lines.map readLine) s = some (s', exit)) :
    (exit.Fine ∧ foundFor request.id (s'.emitBatch request).out =
        (had ++ matchesOf request.root records).take request.limit) ↔
      Undisturbed (request.limit - had.length) request.root ticks records := by
  induction ticks generalizing lines records s had with
  | nil => cases hrun
  | cons tick ticks ih =>
    cases tick with
    | cancelled =>
      obtain ⟨rfl, rfl⟩ := Prod.mk.inj (Option.some.inj hrun)
      exact (and_iff_right rfl).trans (h.silent_iff rfl rfl)
    | exited =>
      obtain ⟨rfl, rfl⟩ := Prod.mk.inj (Option.some.inj hrun)
      exact (and_iff_right rfl).trans (h.silent_iff rfl rfl)
    | failed error =>
      obtain ⟨rfl, rfl⟩ := Prod.mk.inj (Option.some.inj hrun)
      refine iff_of_false (fun hfine => hfine.1) fun hu => ?_
      have hp := hu.polled rfl
      simp [patience] at hp
    | waiting =>
      have hrest := ih hw h hrun
      exact hrest.trans ⟨fun hu => ⟨hu.readable, hu.polled, hu.received⟩,
        fun hu => ⟨hu.readable, hu.polled, hu.received⟩⟩
    | next =>
      cases hw with
      | nil =>
        obtain ⟨rfl, rfl⟩ := Prod.mk.inj (Option.some.inj hrun)
        refine iff_of_true ⟨rfl, ?_⟩ (undisturbed_finished ticks)
        rw [foundFor_emitBatch, h.found, matchesOf_nil, List.append_nil,
          List.take_of_length_le h.within]
      | @cons line record lines records hp hw =>
        obtain ⟨hnone, error, hloop⟩ | ⟨found, t, hfound, htake, hloop⟩ |
          ⟨found, t, hfound, htake, hloop⟩ := streamLoop_next hp ticks lines s
        · -- the record is not UTF-8
          rw [hloop] at hrun
          obtain ⟨rfl, rfl⟩ := Prod.mk.inj (Option.some.inj hrun)
          exact iff_of_false (fun hfine => nomatch hfine.1) (not_undisturbed_of_none hnone)
        · -- the limit is reached, with a match left over
          rw [hloop] at hrun
          obtain ⟨rfl, rfl⟩ := Prod.mk.inj (Option.some.inj hrun)
          obtain ⟨hheld, hstopped⟩ := h.takeFound found
          rw [htake] at hheld hstopped
          have hfull := hstopped.mp rfl
          refine iff_of_true ⟨rfl, ?_⟩ (undisturbed_full hfound hfull)
          have hwithin := h.within
          have hover : request.limit ≤ (had ++ found).length := by
            rw [List.length_append]
            omega
          rw [foundFor_emitBatch, hheld.found, matchesOf_cons hfound, ← List.append_assoc,
            List.take_append_of_le_length hover]
        · -- the loop goes on
          obtain ⟨hheld, hstopped⟩ := h.takeFound found
          rw [htake] at hheld hstopped
          have hroom : found.length ≤ request.limit - had.length :=
            not_lt.mp fun hlt => by cases hstopped.mpr hlt
          have hwithin := h.within
          have hall : (had ++ found).take request.limit = had ++ found := by
            refine List.take_of_length_le ?_
            rw [List.length_append]
            omega
          rw [hall] at hheld
          rw [hloop] at hrun
          have hrest := ih hw hheld hrun
          rw [List.length_append, ← Nat.sub_sub] at hrest
          rw [undisturbed_cons hfound hroom, matchesOf_cons hfound, ← List.append_assoc]
          exact hrest

/-! ## The whole search -/

theorem Ending.Clean.result_iff {ending : Ending} (h : ending.Clean)
    (cancelled stoppedAtLimit : Bool) (streamError : Option SearchError) :
    ending.result cancelled stoppedAtLimit streamError = .ok () ↔ streamError = none := by
  obtain ⟨killed, hkilled⟩ := h.killed
  obtain ⟨status, hexits, hcode⟩ := h.exits
  cases streamError with
  | some error =>
    simp [Ending.result, hkilled]
  | none =>
    refine iff_of_true ?_ rfl
    rw [Ending.result, Option.isSome_none, Bool.or_false]
    cases hstop : cancelled || stoppedAtLimit with
    | true =>
      have hquiet : (cancelled || ending.cancelled || stoppedAtLimit) = true := by
        rw [Bool.or_right_comm, hstop, Bool.true_or]
      simp only [hkilled, hquiet, if_true]
    | false =>
      rw [hexits]
      by_cases hquiet : (cancelled || ending.cancelled || stoppedAtLimit) = true
      · simp only [hquiet, if_true]
      · simp only [hquiet, if_pos hcode]
        rfl

/-- Rounds enough to receive every line, and the end of the output, let the loop end. -/
theorem streamLoop_isSome (hrounds : lines'.length < ticks.countP Tick.receives) (s : Stream) :
    (streamLoop parse request ticks lines' s).isSome := by
  induction ticks generalizing lines' s with
  | nil => simp at hrounds
  | cons tick ticks ih =>
    cases tick with
    | cancelled | exited | failed error => rfl
    | waiting => exact ih hrounds s
    | next =>
      cases lines' with
      | nil => rfl
      | cons line lines' =>
        have hrest : lines'.length < ticks.countP Tick.receives := by
          rw [List.length_cons, List.countP_cons_of_pos rfl] at hrounds
          omega
        cases line with
        | error error => rfl
        | ok text =>
          rw [streamLoop]
          split
          · rfl
          · split
            · rfl
            · exact ih hrest _

/-- **When a search delivers**: it returns, and it returns without an error, with every match of
every record that is UTF-8 up to the limit, exactly when a record that is not UTF-8 comes only
behind more matches than the limit and the loop does not give up before it has received the rest. -/
theorem stream_delivers_iff (parse : String → Except String Value) (request : SearchRequest)
    {lines : List (List UInt8)} {records : List Record}
    (hw : List.Forall₂ (Prints parse request.mode) lines records) (ticks : List Tick)
    {ending : Ending} (hend : ending.Clean) :
    (records.length < ticks.countP Tick.receives →
      (streamChild parse request ticks (lines.map readLine) ending).isSome) ∧
    ∀ out result, streamChild parse request ticks (lines.map readLine) ending =
        some (out, result) →
      ((result = .ok () ∧ foundFor request.id out =
          (matchesOf request.root records).take request.limit) ↔
        Undisturbed request.limit request.root ticks records) := by
  refine ⟨fun hrounds => ?_, fun out result hrun => ?_⟩
  · rw [streamChild, Option.isSome_map]
    refine streamLoop_isSome ?_ _
    rwa [List.length_map, hw.length_eq]
  · rw [streamChild, Option.map_eq_some_iff] at hrun
    obtain ⟨⟨s, exit⟩, hloop, hout⟩ := hrun
    have hstart : Holding request { batch := [], count := 0, out := [] } [] :=
      ⟨rfl, rfl, Nat.zero_le _⟩
    have hiff := streamLoop_iff hw hstart hloop
    rw [List.nil_append, List.length_nil, Nat.sub_zero] at hiff
    rw [← hiff]
    cases exit with
    | returned error =>
      obtain ⟨-, rfl⟩ := Prod.mk.inj hout
      exact iff_of_false (fun h => nomatch h.1) fun h => h.1
    | broke cancelled stoppedAtLimit streamError =>
      obtain ⟨rfl, rfl⟩ := Prod.mk.inj hout
      rw [hend.result_iff]
      rfl

/-- A process that ends with status 0. -/
def endsWell : Ending where
  wait _ := .ok { code := some 0, shown := "exit status: 0" }
  cancelled := false
  stderr := ""

theorem endsWell_clean : endsWell.Clean :=
  ⟨⟨_, rfl, .inl rfl⟩, _, rfl⟩

/-- A line with one hit that is not UTF-8, as ripgrep prints it. -/
def rawHit : String :=
  "\x7b\"type\":\"match\",\"data\":\x7b\"path\":\x7b\"text\":\"a\"\x7d," ++
    "\"lines\":\x7b\"bytes\":\"/w==\"\x7d,\"line_number\":1," ++
    "\"submatches\":[\x7b\"start\":0\x7d]\x7d\x7d"

/-- That line, parsed. -/
def hitValue : Value :=
  .object [("type", .string "match"), ("data", .object [("path", .object [("text", .string "a")]),
    ("lines", .object [("bytes", .string "/w==")]), ("line_number", .number (.posInt 1)),
    ("submatches", .array [.object [("start", .number (.posInt 0))]])])]

/-- A parser, as far as that line. -/
def parseHit (raw : String) : Except String Value :=
  if raw = rawHit then .ok hitValue else .error "expected value at line 1 column 1"

theorem hitValue_prints :
    PrintsHit hitValue (.text ['a']) 1 (.bytes "/w==") [0] where
  type := by simp [hitValue, Value.getStr, Value.get, Value.asStr]
  fields := by
    refine ⟨_, _, _, _, rfl, rfl, ?_, rfl, ?_, rfl, rfl, .cons rfl .nil⟩
    · simp [Printed.Holds, Value.getStr, Value.get, Value.asStr]
    · simp [Printed.Holds, Value.getStr, Value.get, Value.asStr]
  hits := by simp
  within := trivial

/-- A search of the files or of the text under `/r`. -/
def searchIn (mode : SearchMode) : SearchRequest :=
  { id := ⟨1⟩, root := [.rootDir, .normal "r"], mode, query := "a", limit := 10 }

/-- The file `/r/a`. -/
def fileA : SearchMatch :=
  { path := [.rootDir, .normal "r", .normal "a"], line := none, column := none, text := none }

/-- A search whose only hit is on a line that is not UTF-8. -/
theorem stream_delivers_hit :
    (1 < [Tick.next, .waiting, .next].countP Tick.receives →
      (streamChild parseHit (searchIn .text) [.next, .waiting, .next]
        ([utf8 rawHit.toList].map readLine) endsWell).isSome) ∧
    ∀ out result, streamChild parseHit (searchIn .text) [.next, .waiting, .next]
        ([utf8 rawHit.toList].map readLine) endsWell = some (out, result) →
      ((result = .ok () ∧ foundFor ⟨1⟩ out = (matchesOf [.rootDir, .normal "r"]
          [.hit (.text ['a']) 1 (.bytes "/w==") [0]]).take 10) ↔
        Undisturbed 10 [.rootDir, .normal "r"] [.next, .waiting, .next]
          [.hit (.text ['a']) 1 (.bytes "/w==") [0]]) :=
  stream_delivers_iff parseHit (searchIn .text)
    (.cons (.hit (if_pos rfl) hitValue_prints) .nil) _ endsWell_clean

/-- **A path that is not UTF-8 ends the search**: of three files the first is delivered, and the
search fails. -/
theorem not_utf8_ends_search :
    (¬ ∀ (parse : String → Except String Value) (request : SearchRequest)
        (lines : List (List UInt8)) (records : List Record),
      List.Forall₂ (Prints parse request.mode) lines records →
        ∃ out, streamChild parse request (List.replicate (lines.length + 1) .next)
            (lines.map readLine) endsWell = some (out, .ok ()) ∧
          foundFor request.id out = (matchesOf request.root records).take request.limit) ∧
      streamChild parseHit (searchIn .files) [.next, .next, .next, .next]
          ([[97], [255], [98]].map readLine) endsWell =
        some ([.batch ⟨1⟩ [fileA]],
          .error (.process "stream did not contain valid UTF-8")) := by
  have hrun : streamChild parseHit (searchIn .files) [.next, .next, .next, .next]
      ([[97], [255], [98]].map readLine) endsWell =
        some ([.batch ⟨1⟩ [fileA]],
          .error (.process "stream did not contain valid UTF-8")) := by
    rfl
  refine ⟨fun hall => ?_, hrun⟩
  obtain ⟨out, hout, -⟩ := hall parseHit (searchIn .files) [[97], [255], [98]]
    [.file [97], .file [255], .file [98]] (.cons (.file _) (.cons (.file _) (.cons (.file _) .nil)))
  have heq := hrun.symm.trans hout
  cases (Prod.mk.inj (Option.some.inj heq)).2

end Search

end Termesh
