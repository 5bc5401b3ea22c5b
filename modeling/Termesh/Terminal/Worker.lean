import Termesh.Lib.Table
import Termesh.Terminal.Threads

/-!
# The terminal worker

One thread owns all terminals and serves the requests of the application, one after the other. It
starts the threads of a process and raises their flags; a request that fails is told under the
terminal and the generation that it named.

* `Service`, `Phase`, `dispatch`: the worker and what a request does;
* `Deed`, `step`: its steps, and those of all the threads;
* `Log`, `Holding`: what is told, and which processes are held;
* `refusal`, **`Whole.run_told`**: the requests that fail, and that all of them are told;
* `Silent`, `Silenced`: what a release leaves;
* **`worker_ordered`**: the processes and their events in every run.

The answers of the system come with the steps. What a spawn leaves behind that fails once its
process was started is left out, and so is the end of the worker.
-/

namespace Termesh

namespace Terminal

open Runs Tables

/-- `PtyError::AlreadyExists` and `UnknownTerminal` as they are shown. -/
def alreadyExists (terminal : TerminalId) : String :=
  "terminal already exists: TerminalId(" ++ Nat.repr terminal.val ++ ")"

def unknownTerminal (terminal : TerminalId) : String :=
  "unknown terminal: TerminalId(" ++ Nat.repr terminal.val ++ ")"

/-- What the worker is at. -/
inductive Phase where
  | idle
  /-- In a spawn: the process was announced, and its threads are still to be started. -/
  | startingReader (i : ℕ)
  | startingWaiter (i : ℕ)
  /-- In a release: the process is no longer held. -/
  | releasing (i : ℕ) (request : PtyRequest)
  | muting (i : ℕ) (request : PtyRequest)
  | terminating (i : ℕ) (request : PtyRequest)
deriving DecidableEq

/-- What the system answers to a request. -/
structure Outcome where
  /-- A process and its group, or what went wrong with a spawn. -/
  spawn : Except String (Option ℕ × Option Int)
  /-- A write or a resize. -/
  io : Except String Unit
  signals : Answers
  kill : Except String Unit

/-- The worker, its queue and its processes. -/
structure Service where
  queue : List PtyRequest := []
  /-- The requests that were taken from the queue. -/
  served : List PtyRequest := []
  /-- Every process there ever was. -/
  ptys : List Pty := []
  live : Table TerminalId ℕ := ∅
  phase : Phase := .idle
  /-- What was told, and of which process; failed requests are told by the worker. -/
  log : List (Option ℕ × PtyEvent) := []

namespace Service

/-- `request_terminal` and `request_generation`. -/
def requestTerminal : PtyRequest → TerminalId
  | .spawn terminal .. | .write terminal .. | .resize terminal .. | .kill terminal ..
  | .release terminal .. => terminal

def requestGeneration : PtyRequest → TerminalGeneration
  | .spawn _ generation .. | .write _ generation .. | .resize _ generation .. | .kill _ generation
  | .release _ generation => generation

/-- The result of a request, which is told if it is an error. -/
def report (s : Service) (request : PtyRequest) : Except String Unit → Service
  | .ok () => s
  | .error message => { s with
      log := s.log ++
        [(none, .failed (requestTerminal request) (requestGeneration request) message)] }

/-- A step of a process, with what it tells. -/
def act (s : Service) (i : ℕ) (a : Act) : Option Service :=
  s.ptys[i]?.bind fun p => (Terminal.step p a).map fun p' =>
    { s with
      ptys := s.ptys.set i p'
      log := s.log ++ (p'.said.drop p.said.length).map (some i, ·) }

/-- `terminate` of a process that is held: its result, and what it leaves. -/
def terminate (s : Service) (i : ℕ) (os : Answers) (kill : Except String Unit) :
    Option (Except String Unit × Service) :=
  s.ptys[i]?.bind fun p => (s.act i (.terminate os kill)).map fun s' =>
    ((p.terminate os kill).1, s')

/-- `dispatch`, or the first part of it where threads may step in between. -/
def dispatch (s : Service) (o : Outcome) (request : PtyRequest) : Option Service :=
  match request with
  | .spawn terminal generation spec _ =>
    if terminal ∈ s.live then some (s.report request (.error (alreadyExists terminal)))
    else if spec.program = "" then
      some (s.report request (.error (backendError "spawn" "program is empty")))
    else
      match o.spawn with
      | .error message => some (s.report request (.error message))
      | .ok (processId, processGroup) =>
        let p := Pty.start terminal generation processId processGroup
        some { s with
          ptys := s.ptys ++ [p]
          live := s.live.insert terminal s.ptys.length
          phase := .startingReader s.ptys.length
          log := s.log ++ [(some s.ptys.length, p.spawned)] }
  | .write terminal .. | .resize terminal .. =>
    match s.live.lookup terminal with
    | none => some (s.report request (.error (unknownTerminal terminal)))
    | some _ => some (s.report request o.io)
  | .kill terminal _ =>
    match s.live.lookup terminal with
    | none => some s
    | some i => (s.terminate i o.signals o.kill).map fun r => r.2.report request r.1
  | .release terminal _ =>
    match s.live.lookup terminal with
    | none => some s
    | some i => some { s with live := s.live.erase terminal, phase := .releasing i request }

end Service

/-- What happens next, on any thread. -/
inductive Deed where
  /-- The application asks. -/
  | request (request : PtyRequest)
  /-- The worker takes the next request. -/
  | serve (outcome : Outcome)
  /-- The worker goes on with it. -/
  | goOn (os : Answers) (kill : Except String Unit)
  /-- A thread of a process, or the process. -/
  | thread (i : ℕ) (act : Act)

/-- The acts that are not the worker's. -/
def Act.ofOthers : Act → Bool
  | startReader | startWaiter | terminate .. | markReleased | markInactive => false
  | _ => true

/-- One deed. -/
def Service.step (s : Service) : Deed → Option Service
  | .request request => some { s with queue := s.queue ++ [request] }
  | .serve outcome =>
    match s.phase, s.queue with
    | .idle, request :: queue =>
      ({ s with queue, served := s.served ++ [request] } : Service).dispatch outcome request
    | _, _ => none
  | .goOn os kill =>
    match s.phase with
    | .idle => none
    | .startingReader i => ({ s with phase := .startingWaiter i } : Service).act i .startReader
    | .startingWaiter i => ({ s with phase := .idle } : Service).act i .startWaiter
    | .releasing i request =>
      ({ s with phase := .muting i request } : Service).act i .markReleased
    | .muting i request =>
      ({ s with phase := .terminating i request } : Service).act i .markInactive
    | .terminating i request =>
      (({ s with phase := .idle } : Service).terminate i os kill).map fun r =>
        r.2.report request r.1
  | .thread i a => if a.ofOthers then s.act i a else none

/-! ## What is told -/

namespace Service

/-- What was told of a process, or by the worker. -/
def told (s : Service) (of : Option ℕ) : List PtyEvent :=
  (s.log.filter (·.1 = of)).map Prod.snd

variable {s s' : Service} {i : ℕ} {p : Pty} {a : Act}

theorem act_eq (h : s.act i a = some s') : ∃ p p' more, s.ptys[i]? = some p ∧
    Terminal.step p a = some p' ∧ p'.said = p.said ++ more ∧
    s' = { s with ptys := s.ptys.set i p', log := s.log ++ more.map (some i, ·) } := by
  obtain ⟨p, hp, h⟩ := Option.bind_eq_some_iff.mp h
  obtain ⟨p', hstep, rfl⟩ := Option.map_eq_some_iff.mp h
  obtain ⟨more, hmore⟩ := (step_said hstep).2.2
  refine ⟨p, p', more, hp, hstep, hmore.symm, ?_⟩
  rw [← hmore, List.drop_left]

theorem terminate_eq {os : Answers} {kill : Except String Unit} {r : Except String Unit × Service}
    (h : s.terminate i os kill = some r) : s.act i (.terminate os kill) = some r.2 := by
  obtain ⟨p, -, h⟩ := Option.bind_eq_some_iff.mp h
  obtain ⟨s', hact, rfl⟩ := Option.map_eq_some_iff.mp h
  exact hact

/-- The log tells of every process what it said. -/
structure Log (s : Service) : Prop where
  kept : ∀ (i : ℕ) (p : Pty), s.ptys[i]? = some p → Kept p
  said : ∀ (i : ℕ) (p : Pty), s.ptys[i]? = some p → s.told (some i) = p.said
  known : ∀ i, s.ptys.length ≤ i → s.told (some i) = []

theorem told_log {s s' : Service} {of : Option ℕ} {more : List PtyEvent}
    (h : s'.log = s.log ++ more.map (of, ·)) (of' : Option ℕ) :
    s'.told of' = s.told of' ++ if of = of' then more else [] := by
  have hmore : ((more.map (of, ·)).filter (·.1 = of')).map Prod.snd =
      if of = of' then more else [] := by
    split_ifs with heq
    · rw [List.filter_eq_self.mpr (by simp [heq]), List.map_map]
      exact List.map_id more
    · rw [List.filter_eq_nil_iff.mpr (by simp [heq])]
      rfl
  rw [told, told, h, List.filter_append, List.map_append, hmore]

theorem told_apart {s s' : Service} {of of' : Option ℕ} {more : List PtyEvent}
    (h : s'.log = s.log ++ more.map (of, ·)) (hne : of ≠ of') : s'.told of' = s.told of' := by
  rw [told_log h, if_neg hne, List.append_nil]

theorem get_push {q : Pty} {j : ℕ} (h : (s.ptys ++ [p])[j]? = some q) :
    s.ptys[j]? = some q ∨ j = s.ptys.length ∧ q = p := by
  rw [List.getElem?_append] at h
  split_ifs at h with hlt
  · exact .inl h
  · obtain ⟨hj, rfl⟩ := List.getElem?_eq_some_iff.mp h
    simp only [List.length_singleton] at hj
    exact .inr ⟨by omega, by simp⟩

theorem Log.same (h : Log s) (hp : s'.ptys = s.ptys)
    (htold : ∀ i, s'.told (some i) = s.told (some i)) : Log s' where
  kept i p hi := h.kept i p (hp ▸ hi)
  said i p hi := (htold i).trans (h.said i p (hp ▸ hi))
  known i hi := (htold i).trans (h.known i (hp ▸ hi))

theorem Log.act (h : Log s) (ha : s.act i a = some s') : Log s' := by
  obtain ⟨p, p', more, hp, hstep, hsaid, heq⟩ := act_eq ha
  have hptys : s'.ptys = s.ptys.set i p' := by rw [heq]
  have hlog : s'.log = s.log ++ more.map (some i, ·) := by rw [heq]
  have hlt := (List.getElem?_eq_some_iff.mp hp).1
  constructor
  case kept =>
    intro j q hq
    rw [hptys, List.getElem?_set] at hq
    split_ifs at hq with hij
    · exact Option.some.inj hq ▸ (h.kept i p hp).step hstep
    · exact h.kept j q hq
  case said =>
    intro j q hq
    rw [hptys, List.getElem?_set] at hq
    split_ifs at hq with hij
    · subst hij
      rw [told_log hlog, if_pos rfl, h.said i p hp, ← hsaid, Option.some.inj hq]
    · rw [told_apart hlog (by simpa using hij), h.said j q hq]
  case known =>
    intro j hj
    rw [hptys, List.length_set] at hj
    have hij : i ≠ j := by omega
    rw [told_apart hlog (by simpa using hij), h.known j hj]

theorem Log.push (h : Log s) (hp : Kept p) (hptys : s'.ptys = s.ptys ++ [p])
    (hlog : s'.log = s.log ++ p.said.map (some s.ptys.length, ·)) : Log s' := by
  constructor
  case kept =>
    intro j q hq
    rw [hptys] at hq
    rcases get_push hq with hq | ⟨-, rfl⟩
    · exact h.kept j q hq
    · exact hp
  case said =>
    intro j q hq
    rw [hptys] at hq
    rcases get_push hq with hq | ⟨rfl, rfl⟩
    · have hne : s.ptys.length ≠ j := (List.getElem?_eq_some_iff.mp hq).1.ne'
      rw [told_apart hlog (by simpa using hne), h.said j q hq]
    · rw [told_log hlog, if_pos rfl, h.known _ (Nat.le_refl _), List.nil_append]
  case known =>
    intro j hj
    rw [hptys, List.length_append, List.length_singleton] at hj
    have hne : s.ptys.length ≠ j := by omega
    rw [told_apart hlog (by simpa using hne), h.known j (by omega)]

theorem told_report (s : Service) (request : PtyRequest) (result : Except String Unit) (i : ℕ) :
    (s.report request result).told (some i) = s.told (some i) := by
  cases result with
  | ok => rfl
  | error message =>
    exact @told_apart s (s.report request (.error message)) none (some i) [_] rfl (by simp)

theorem ptys_report (s : Service) (request : PtyRequest) (result : Except String Unit) :
    (s.report request result).ptys = s.ptys := by
  cases result <;> rfl

theorem live_report (s : Service) (request : PtyRequest) (result : Except String Unit) :
    (s.report request result).live = s.live := by
  cases result <;> rfl

theorem phase_report (s : Service) (request : PtyRequest) (result : Except String Unit) :
    (s.report request result).phase = s.phase := by
  cases result <;> rfl

/-! ## Failed requests -/

/-- The request that is being served. -/
def pending : Phase → List PtyRequest
  | .releasing _ request | .muting _ request | .terminating _ request => [request]
  | _ => []

/-- The event tells of the request. -/
def TellsOf (request : PtyRequest) (event : PtyEvent) : Prop :=
  ∃ message, event = .failed (requestTerminal request) (requestGeneration request) message

/-- The worker told of some of the requests that it is done with, in their order; `rest` is still
being served. -/
def Failures (rest : List PtyRequest) (s : Service) : Prop :=
  ∃ done failed, s.served = done ++ rest ∧ failed.Sublist done ∧
    List.Forall₂ TellsOf failed (s.told none)

variable {rest : List PtyRequest} {request : PtyRequest}

theorem Failures.same (h : Failures rest s) (hserved : s'.served = s.served)
    (htold : s'.told none = s.told none) : Failures rest s' := by
  obtain ⟨done, failed, hdone, hsub, htells⟩ := h
  exact ⟨done, failed, hserved.trans hdone, hsub, htold ▸ htells⟩

theorem Failures.take (h : Failures [] s) (hserved : s'.served = s.served ++ [request])
    (htold : s'.told none = s.told none) : Failures [request] s' := by
  obtain ⟨done, failed, hdone, hsub, htells⟩ := h
  rw [List.append_nil] at hdone
  exact ⟨done, failed, hdone ▸ hserved, hsub, htold ▸ htells⟩

theorem Failures.report (h : Failures [request] s) (result : Except String Unit) :
    Failures [] (s.report request result) := by
  obtain ⟨done, failed, hdone, hsub, htells⟩ := h
  cases result with
  | ok =>
    exact ⟨done ++ [request], failed, by simp [Service.report, hdone],
      hsub.trans (List.sublist_append_left _ _), htells⟩
  | error message =>
    refine ⟨done ++ [request], failed ++ [request], by simp [Service.report, hdone],
      hsub.append (List.Sublist.refl _), ?_⟩
    rw [@told_log s (s.report request (.error message)) none [_] rfl, if_pos rfl]
    exact List.rel_append htells (.cons ⟨message, rfl⟩ .nil)

theorem told_act (ha : s.act i a = some s') :
    s'.served = s.served ∧ s'.told none = s.told none := by
  obtain ⟨p, p', more, -, -, -, rfl⟩ := act_eq ha
  exact ⟨rfl, @told_apart s _ (some i) none more rfl (by simp)⟩

/-! ## Who is held -/

/-- The process that a release has just taken out. -/
def leaving : Phase → Option ℕ
  | .releasing i _ => some i
  | _ => none

/-- The processes that are held are those that are not released. -/
structure Holding (s : Service) : Prop where
  live : ∀ terminal i, s.live.lookup terminal = some i →
    ∃ p, s.ptys[i]? = some p ∧ p.terminal = terminal ∧ p.released = false
  held : ∀ (i : ℕ) (p : Pty), s.ptys[i]? = some p → p.released = false →
    s.live.lookup p.terminal = some i ∨ leaving s.phase = some i

/-- What the worker goes on with is there. -/
def Ready (s : Service) : Phase → Prop
  | .idle => True
  | .startingReader i => ∃ p, s.ptys[i]? = some p ∧ p.reader = .waiting ∧ p.waiter = .waiting
  | .startingWaiter i => ∃ p, s.ptys[i]? = some p ∧ p.waiter = .waiting
  | .releasing i _ => ∃ p, s.ptys[i]? = some p ∧ s.live.lookup p.terminal = none
  | .muting i _ => ∃ p, s.ptys[i]? = some p ∧ p.released = true
  | .terminating i _ => ∃ p, s.ptys[i]? = some p

theorem act_frame (ha : s.act i a = some s') : s'.live = s.live ∧ s'.phase = s.phase ∧
    (∀ (j : ℕ) (q : Pty), s.ptys[j]? = some q → ∃ q', s'.ptys[j]? = some q' ∧
      (j = i ∧ Terminal.step q a = some q' ∨ j ≠ i ∧ q' = q)) ∧
    ∀ (j : ℕ) (q' : Pty), s'.ptys[j]? = some q' → ∃ q, s.ptys[j]? = some q ∧
      (j = i ∧ Terminal.step q a = some q' ∨ j ≠ i ∧ q' = q) := by
  obtain ⟨p, p', more, hp, hstep, -, rfl⟩ := act_eq ha
  have hlt := (List.getElem?_eq_some_iff.mp hp).1
  refine ⟨rfl, rfl, fun j q hq => ?_, fun j q' hq => ?_⟩
  · by_cases hj : j = i
    · subst hj
      obtain rfl := Option.some.inj (hp.symm.trans hq)
      exact ⟨p', by simp [hlt], .inl ⟨rfl, hstep⟩⟩
    · exact ⟨q, by simp [Ne.symm hj, hq], .inr ⟨hj, rfl⟩⟩
  · rw [List.getElem?_set] at hq
    split_ifs at hq with hij
    · subst hij
      obtain rfl := Option.some.inj hq
      exact ⟨p, hp, .inl ⟨rfl, hstep⟩⟩
    · exact ⟨q', hq, .inr ⟨fun he => hij he.symm, rfl⟩⟩

/-- What the worker relies on, and the other threads leave as it is. -/
theorem step_others {p' : Pty} (hs : Terminal.step p a = some p') :
    (a ≠ .markReleased → p'.released = p.released) ∧
      (a ≠ .startReader → p.reader = .waiting → p'.reader = .waiting) ∧
      (a ≠ .startWaiter → p.waiter = .waiting → p'.waiter = .waiting) := by
  cases step_next hs
  all_goals grind -linarith

theorem Holding.same (h : Holding s) (hptys : s'.ptys = s.ptys) (hlive : s'.live = s.live)
    (hphase : leaving s'.phase = leaving s.phase) : Holding s' where
  live := by
    rw [hptys, hlive]
    exact h.live
  held := by
    rw [hptys, hlive, hphase]
    exact h.held

theorem Holding.act (h : Holding s) (ha : s.act i a = some s') (hne : a ≠ .markReleased) :
    Holding s' := by
  obtain ⟨hlive, hphase, hto, hof⟩ := act_frame ha
  constructor
  case live =>
    intro terminal j hj
    rw [hlive] at hj
    obtain ⟨q, hq, hterminal, hreleased⟩ := h.live terminal j hj
    obtain ⟨q', hq', ⟨-, hstep⟩ | ⟨-, rfl⟩⟩ := hto j q hq
    · exact ⟨q', hq', (step_said hstep).1.trans hterminal,
        ((step_others hstep).1 hne).trans hreleased⟩
    · exact ⟨q', hq', hterminal, hreleased⟩
  case held =>
    intro j q' hq' hreleased
    rw [hlive, hphase]
    obtain ⟨q, hq, ⟨-, hstep⟩ | ⟨-, rfl⟩⟩ := hof j q' hq'
    · rw [(step_said hstep).1]
      exact h.held j q hq (((step_others hstep).1 hne).symm.trans hreleased)
    · exact h.held j q' hq hreleased

theorem Holding.release {phase : Phase} (h : Holding s) (hi : leaving s.phase = some i)
    (hp : s.ptys[i]? = some p) (hgone : s.live.lookup p.terminal = none)
    (ha : ({ s with phase } : Service).act i .markReleased = some s') : Holding s' := by
  obtain ⟨hlive, hphase', hto, hof⟩ := act_frame ha
  constructor
  case live =>
    intro terminal j hj
    rw [hlive] at hj
    obtain ⟨q, hq, hterminal, hreleased⟩ := h.live terminal j hj
    obtain ⟨q', hq', ⟨rfl, -⟩ | ⟨-, rfl⟩⟩ := hto j q hq
    · obtain rfl := Option.some.inj (hp.symm.trans hq)
      rw [hterminal] at hgone
      exact absurd (hgone.symm.trans hj) (by simp)
    · exact ⟨q', hq', hterminal, hreleased⟩
  case held =>
    intro j q' hq' hreleased
    rw [hlive]
    obtain ⟨q, hq, ⟨-, hstep⟩ | ⟨hne, rfl⟩⟩ := hof j q' hq'
    · obtain rfl := Option.some.inj hstep
      exact absurd hreleased (by simp)
    · rcases h.held j q' hq hreleased with hheld | hleaving
      · exact .inl hheld
      · exact absurd (Option.some.inj (hleaving.symm.trans hi)) hne

theorem Holding.erase {terminal : TerminalId} (h : Holding s) (hidle : s.phase = .idle)
    (hi : s.live.lookup terminal = some i) : Holding
      { s with live := s.live.erase terminal, phase := .releasing i request } := by
  obtain ⟨p, hp, rfl, -⟩ := h.live terminal i hi
  constructor
  case live =>
    intro terminal' j hj
    have hne : terminal' ≠ p.terminal := by
      rintro rfl
      rw [AList.lookup_erase] at hj
      cases hj
    rw [AList.lookup_erase_ne hne] at hj
    exact h.live terminal' j hj
  case held =>
    intro j q hq hreleased
    rcases h.held j q hq hreleased with hheld | hleaving
    · by_cases hterminal : q.terminal = p.terminal
      · rw [hterminal, hi] at hheld
        exact .inr hheld
      · exact .inl ((AList.lookup_erase_ne hterminal).trans hheld)
    · rw [hidle] at hleaving
      cases hleaving

theorem Holding.push {phase : Phase} {log : List (Option ℕ × PtyEvent)} (h : Holding s)
    (hidle : s.phase = .idle) (hfree : p.terminal ∉ s.live) (hp : p.released = false) : Holding
      { s with
        ptys := s.ptys ++ [p]
        live := s.live.insert p.terminal s.ptys.length
        phase
        log } := by
  constructor
  case live =>
    intro terminal j hj
    by_cases hterminal : terminal = p.terminal
    · subst hterminal
      rw [AList.lookup_insert] at hj
      obtain rfl := Option.some.inj hj
      exact ⟨p, by simp, rfl, hp⟩
    · rw [AList.lookup_insert_ne hterminal] at hj
      obtain ⟨q, hq, hof⟩ := h.live terminal j hj
      have hlt := (List.getElem?_eq_some_iff.mp hq).1
      exact ⟨q, (List.getElem?_append_left hlt).trans hq, hof⟩
  case held =>
    intro j q hq hreleased
    refine .inl ?_
    rcases get_push hq with hq | ⟨rfl, rfl⟩
    · rcases h.held j q hq hreleased with hheld | hleaving
      · have hne : q.terminal ≠ p.terminal := by
          intro heq
          rw [heq] at hheld
          exact hfree (Table.mem_of_lookup hheld)
        exact (AList.lookup_insert_ne hne).trans hheld
      · rw [hidle] at hleaving
        cases hleaving
    · exact AList.lookup_insert s.live

/-! ## Every run -/

/-- What holds between two steps, with the requests that are being served. -/
structure Intact (rest : List PtyRequest) (s : Service) : Prop where
  log : Log s
  failures : Failures rest s
  holding : Holding s

theorem Intact.report (h : Intact [request] s) (result : Except String Unit) :
    Intact [] (s.report request result) where
  log := h.log.same (ptys_report s request result) (told_report s request result)
  failures := h.failures.report result
  holding := h.holding.same (ptys_report s request result) (live_report s request result)
    (by rw [phase_report])

theorem Intact.act (h : Intact rest s) (ha : s.act i a = some s') (hne : a ≠ .markReleased) :
    Intact rest s' where
  log := h.log.act ha
  failures := h.failures.same (told_act ha).1 (told_act ha).2
  holding := h.holding.act ha hne

theorem Intact.turn {phase : Phase} (h : Intact rest s) (hphase : leaving phase = leaving s.phase) :
    Intact rest { s with phase } where
  log := h.log.same rfl fun _ => rfl
  failures := h.failures.same rfl rfl
  holding := h.holding.same rfl rfl hphase

theorem Ready.act {phase : Phase} (h : Ready s phase) (ha : s.act i a = some s')
    (hothers : a.ofOthers = true) : Ready s' phase := by
  obtain ⟨hlive, -, hto, -⟩ := act_frame ha
  have hkept : ∀ (j : ℕ) (q : Pty), s.ptys[j]? = some q → ∃ q', s'.ptys[j]? = some q' ∧
      q'.terminal = q.terminal ∧ q'.released = q.released ∧
      (q.reader = .waiting → q'.reader = .waiting) ∧
      (q.waiter = .waiting → q'.waiter = .waiting) := by
    intro j q hq
    obtain ⟨q', hq', ⟨-, hstep⟩ | ⟨-, rfl⟩⟩ := hto j q hq
    · obtain ⟨hreleased, hreader, hwaiter⟩ := step_others hstep
      exact ⟨q', hq', (step_said hstep).1, hreleased (by rintro rfl; cases hothers),
        hreader (by rintro rfl; cases hothers), hwaiter (by rintro rfl; cases hothers)⟩
    · exact ⟨q', hq', rfl, rfl, id, id⟩
  cases phase with
  | idle => trivial
  | startingReader j =>
    obtain ⟨q, hq, hreader, hwaiter⟩ := h
    obtain ⟨q', hq', -, -, hr, hw⟩ := hkept j q hq
    exact ⟨q', hq', hr hreader, hw hwaiter⟩
  | startingWaiter j =>
    obtain ⟨q, hq, hwaiter⟩ := h
    obtain ⟨q', hq', -, -, -, hw⟩ := hkept j q hq
    exact ⟨q', hq', hw hwaiter⟩
  | releasing j request =>
    obtain ⟨q, hq, hgone⟩ := h
    obtain ⟨q', hq', hterminal, -⟩ := hkept j q hq
    exact ⟨q', hq', by rw [hlive, hterminal, hgone]⟩
  | muting j request =>
    obtain ⟨q, hq, hreleased⟩ := h
    obtain ⟨q', hq', -, hr, -⟩ := hkept j q hq
    exact ⟨q', hq', hr.trans hreleased⟩
  | terminating j request =>
    obtain ⟨q, hq⟩ := h
    obtain ⟨q', hq', -⟩ := hkept j q hq
    exact ⟨q', hq'⟩

/-- What holds of the worker in every state. -/
structure Whole (s : Service) : Prop where
  intact : Intact (pending s.phase) s
  ready : Ready s s.phase

theorem Whole.reported (h : Intact [request] s) (hidle : s.phase = .idle)
    (result : Except String Unit) : Whole (s.report request result) := by
  have hphase : (s.report request result).phase = .idle :=
    (phase_report s request result).trans hidle
  constructor
  · rw [hphase]
    exact h.report result
  · rw [hphase]
    trivial

theorem Whole.dispatch {o : Outcome} (h : Intact [request] s) (hidle : s.phase = .idle)
    (hs : s.dispatch o request = some s') : Whole s' := by
  cases request with
  | spawn terminal generation spec size =>
    simp only [Service.dispatch] at hs
    split_ifs at hs with hlive hprogram
    · exact Option.some.inj hs ▸ .reported h hidle _
    · exact Option.some.inj hs ▸ .reported h hidle _
    · split at hs
      · exact Option.some.inj hs ▸ .reported h hidle _
      · rename_i processId processGroup hspawn
        obtain rfl := Option.some.inj hs
        have hkept := Kept.start terminal generation processId processGroup
        refine ⟨⟨h.log.push hkept rfl rfl, ?_, h.holding.push hidle hlive rfl⟩, ?_⟩
        · exact (h.failures.report (.ok ())).same rfl
            (@told_apart s _ (some s.ptys.length) none
              [.spawned terminal generation processId] rfl (by simp))
        · exact ⟨.start terminal generation processId processGroup, by simp, rfl, rfl⟩
  | write terminal generation bytes =>
    simp only [Service.dispatch] at hs
    split at hs
    all_goals exact Option.some.inj hs ▸ .reported h hidle _
  | resize terminal generation size =>
    simp only [Service.dispatch] at hs
    split at hs
    all_goals exact Option.some.inj hs ▸ .reported h hidle _
  | kill terminal generation =>
    simp only [Service.dispatch] at hs
    split at hs
    · exact Option.some.inj hs ▸ .reported h hidle (.ok ())
    · obtain ⟨r, hr, rfl⟩ := Option.map_eq_some_iff.mp hs
      have hact := terminate_eq hr
      exact .reported (h.act hact (by simp)) ((act_frame hact).2.1.trans hidle) _
  | release terminal generation =>
    simp only [Service.dispatch] at hs
    split at hs
    · exact Option.some.inj hs ▸ .reported h hidle (.ok ())
    · rename_i i hi
      obtain rfl := Option.some.inj hs
      obtain ⟨p, hp, rfl, -⟩ := h.holding.live terminal i hi
      exact ⟨⟨h.log.same rfl fun _ => rfl, h.failures.same rfl rfl, h.holding.erase hidle hi⟩,
        p, hp, AList.lookup_erase p.terminal s.live⟩

theorem Whole.turned {phase : Phase} (h : Intact rest s)
    (ha : ({ s with phase } : Service).act i a = some s') (hne : a ≠ .markReleased)
    (hpending : pending phase = rest) (hleaving : leaving phase = leaving s.phase)
    (hready : Ready s' phase) : Whole s' := by
  have hphase : s'.phase = phase := (act_frame ha).2.1
  constructor
  · rw [hphase, hpending]
    exact (h.turn hleaving).act ha hne
  · rw [hphase]
    exact hready

theorem Whole.goOn {os : Answers} {kill : Except String Unit} (h : Whole s)
    (hs : s.step (.goOn os kill) = some s') : Whole s' := by
  obtain ⟨hintact, hready⟩ := h
  simp only [Service.step] at hs
  split at hs
  · cases hs
  · rename_i i hphase
    rw [hphase] at hintact hready
    obtain ⟨p, hp, -, hwaiter⟩ := hready
    obtain ⟨p', hp', ⟨-, hstep⟩ | ⟨hne, -⟩⟩ := (act_frame hs).2.2.1 i p hp
    · exact .turned hintact hs (by simp) rfl (by rw [hphase]; rfl)
        ⟨p', hp', (step_others hstep).2.2 (by simp) hwaiter⟩
    · exact absurd rfl hne
  · rename_i i hphase
    rw [hphase] at hintact
    exact .turned hintact hs (by simp) rfl (by rw [hphase]; rfl) trivial
  · rename_i i request hphase
    rw [hphase] at hintact hready
    obtain ⟨p, hp, hgone⟩ := hready
    obtain ⟨-, hphase', hto, -⟩ := act_frame hs
    refine ⟨⟨?_, ?_, ?_⟩, ?_⟩
    · have hlog : Log ({ s with phase := .muting i request } : Service) :=
        hintact.log.same rfl fun _ => rfl
      exact hlog.act hs
    · rw [hphase']
      exact (hintact.failures.same rfl rfl).same (told_act hs).1 (told_act hs).2
    · exact hintact.holding.release (by rw [hphase]; rfl) hp hgone hs
    · rw [hphase']
      obtain ⟨p', hp', ⟨-, hstep⟩ | ⟨hne, -⟩⟩ := hto i p hp
      · exact ⟨p', hp', Option.some.inj hstep ▸ rfl⟩
      · exact absurd rfl hne
  · rename_i i request hphase
    rw [hphase] at hintact hready
    obtain ⟨p, hp, -⟩ := hready
    obtain ⟨p', hp', -⟩ := (act_frame hs).2.2.1 i p hp
    exact .turned hintact hs (by simp) rfl (by rw [hphase]; rfl) ⟨p', hp'⟩
  · rename_i i request hphase
    rw [hphase] at hintact
    obtain ⟨r, hr, rfl⟩ := Option.map_eq_some_iff.mp hs
    have hact := terminate_eq hr
    exact .reported ((hintact.turn (by rw [hphase]; rfl)).act hact (by simp))
      (act_frame hact).2.1 _

theorem Whole.step {deed : Deed} (h : Whole s) (hs : s.step deed = some s') : Whole s' := by
  cases deed with
  | request request =>
    obtain rfl := Option.some.inj hs
    exact ⟨⟨h.intact.log.same rfl fun _ => rfl, h.intact.failures.same rfl rfl,
      h.intact.holding.same rfl rfl rfl⟩, h.ready⟩
  | serve outcome =>
    simp only [Service.step] at hs
    split at hs
    · rename_i request queue hidle hqueue
      have hintact := h.intact
      rw [hidle] at hintact
      have htaken : Intact [request]
          ({ s with queue, served := s.served ++ [request] } : Service) :=
        ⟨hintact.log.same rfl fun _ => rfl, hintact.failures.take rfl rfl,
          hintact.holding.same rfl rfl rfl⟩
      exact .dispatch htaken hidle hs
    · cases hs
  | goOn os kill => exact h.goOn hs
  | thread i a =>
    simp only [Service.step] at hs
    split_ifs at hs with hothers
    have hphase := (act_frame hs).2.1
    refine ⟨?_, ?_⟩
    · rw [hphase]
      exact h.intact.act hs (by rintro rfl; cases hothers)
    · rw [hphase]
      exact h.ready.act hs hothers

theorem Whole.leaves (h : Whole s) (hi : leaving s.phase = some i) (hp : s.ptys[i]? = some p) :
    s.live.lookup p.terminal = none := by
  have hready := h.ready
  cases hphase : s.phase with
  | releasing j request =>
    rw [hphase] at hi hready
    obtain rfl := Option.some.inj hi
    obtain ⟨q, hq, hgone⟩ := hready
    obtain rfl := Option.some.inj (hp.symm.trans hq)
    exact hgone
  | _ =>
    rw [hphase] at hi
    cases hi

theorem Whole.initial : Whole {} := by
  refine ⟨⟨⟨?_, ?_, fun i _ => rfl⟩, ⟨[], [], rfl, .slnil, .nil⟩, ⟨?_, ?_⟩⟩, trivial⟩
  all_goals simp

/-! ## What is refused -/

/-- The unreleased process of a terminal. -/
def unreleased (s : Service) (terminal : TerminalId) : Option Pty :=
  s.ptys.find? fun p => p.terminal = terminal && !p.released

/-- The message of a result that is an error. -/
def failing : Except String Unit → Option String
  | .ok () => none
  | .error message => some message

/-- Why a request fails at once, if it does: there is a process already or there is none, there is
no program to run, or the system says so. -/
def refusalOf (s : Service) (o : Outcome) : PtyRequest → Option String
  | .spawn terminal _ spec _ =>
    if (s.unreleased terminal).isSome then some (alreadyExists terminal)
    else if spec.program = "" then some (backendError "spawn" "program is empty")
    else
      match o.spawn with
      | .error message => some message
      | .ok _ => none
  | .write terminal .. | .resize terminal .. =>
    if (s.unreleased terminal).isNone then some (unknownTerminal terminal) else failing o.io
  | .kill terminal _ =>
    (s.unreleased terminal).bind fun p => failing (p.terminate o.signals o.kill).1
  | .release .. => none

/-- What the worker has to tell of a request that fails in this step. -/
def refusal (s : Service) : Deed → Option PtyEvent
  | .serve outcome =>
    if s.phase = .idle then
      s.queue.head?.bind fun request => (s.refusalOf outcome request).map
        (.failed (requestTerminal request) (requestGeneration request))
    else none
  | .goOn os kill =>
    match s.phase with
    | .terminating i request =>
      s.ptys[i]?.bind fun p => (failing (p.terminate os kill).1).map
        (.failed (requestTerminal request) (requestGeneration request))
    | _ => none
  | _ => none

/-- The same for all steps of a run. -/
def refusals : Service → List Deed → List PtyEvent
  | _, [] => []
  | s, deed :: deeds =>
    (s.refusal deed).toList ++ ((s.step deed).map fun s' => refusals s' deeds).getD []

/-- The unreleased process of a terminal is the one that is held for it. -/
theorem Whole.unreleased_eq (h : Whole s) (hidle : s.phase = .idle) (terminal : TerminalId) :
    s.unreleased terminal = (s.live.lookup terminal).bind (s.ptys[·]?) := by
  have hheld : ∀ (j : ℕ) (q : Pty), s.ptys[j]? = some q → q.terminal = terminal →
      q.released = false → s.live.lookup terminal = some j := by
    rintro j q hq rfl hreleased
    rcases h.intact.holding.held j q hq hreleased with hj | hj
    · exact hj
    · rw [hidle] at hj
      cases hj
  cases hlive : s.live.lookup terminal with
  | none =>
    refine List.find?_eq_none.mpr fun q hq => ?_
    obtain ⟨j, hj⟩ := List.mem_iff_getElem?.mp hq
    intro hboth
    simp only [Bool.and_eq_true, decide_eq_true_eq, Bool.not_eq_true'] at hboth
    exact absurd (hlive.symm.trans (hheld j q hj hboth.1 hboth.2)) (by simp)
  | some i =>
    obtain ⟨p, hp, hterminal, hreleased⟩ := h.intact.holding.live terminal i hlive
    rw [Option.bind_some, hp]
    cases hfind : s.unreleased terminal with
    | none =>
      have hno := List.find?_eq_none.mp hfind p (List.mem_of_getElem? hp)
      simp [hterminal, hreleased] at hno
    | some q =>
      have hq := List.find?_some hfind
      simp only [Bool.and_eq_true, decide_eq_true_eq, Bool.not_eq_true'] at hq
      obtain ⟨j, hj⟩ := List.mem_iff_getElem?.mp (List.mem_of_find?_eq_some hfind)
      obtain rfl := Option.some.inj (hlive.symm.trans (hheld j q hj hq.1 hq.2))
      exact hj.symm.trans hp

theorem told_refused (s : Service) (request : PtyRequest) (result : Except String Unit) :
    (s.report request result).told none = s.told none ++ ((failing result).map
      (PtyEvent.failed (requestTerminal request) (requestGeneration request))).toList := by
  cases result with
  | ok => exact (List.append_nil _).symm
  | error message =>
    rw [@told_log s (s.report request (.error message)) none [_] rfl, if_pos rfl]
    rfl

theorem terminate_spec {os : Answers} {kill : Except String Unit}
    {r : Except String Unit × Service} (h : s.terminate i os kill = some r)
    (hp : s.ptys[i]? = some p) :
    r.1 = (p.terminate os kill).1 ∧ r.2.told none = s.told none := by
  refine ⟨?_, (told_act (terminate_eq h)).2⟩
  rw [Service.terminate, hp, Option.bind_some] at h
  obtain ⟨s', -, rfl⟩ := Option.map_eq_some_iff.mp h
  rfl

theorem Whole.dispatch_told {o : Outcome} (h : Whole s) (hidle : s.phase = .idle)
    {queue served : List PtyRequest}
    (hs : ({ s with queue, served } : Service).dispatch o request = some s') :
    s'.told none = s.told none ++ ((s.refusalOf o request).map
      (PtyEvent.failed (requestTerminal request) (requestGeneration request))).toList := by
  have hheld := h.unreleased_eq hidle
  have hreport : ∀ result, (({ s with queue, served } : Service).report request result).told none =
      s.told none ++ ((failing result).map
        (PtyEvent.failed (requestTerminal request) (requestGeneration request))).toList :=
    fun result => told_refused _ request result
  have hfound : ∀ terminal i, s.live.lookup terminal = some i →
      ∃ p, s.ptys[i]? = some p ∧ s.unreleased terminal = some p := by
    intro terminal i hi
    obtain ⟨p, hp, -⟩ := h.intact.holding.live terminal i hi
    exact ⟨p, hp, by rw [hheld, hi, Option.bind_some, hp]⟩
  cases request with
  | spawn terminal generation spec size =>
    have hmem : terminal ∈ s.live ↔ (s.unreleased terminal).isSome = true := by
      rw [hheld, ← AList.lookup_isSome]
      cases hi : s.live.lookup terminal with
      | none => simp
      | some i =>
        obtain ⟨p, hp, -⟩ := hfound terminal i hi
        simp [hp]
    simp only [Service.dispatch, hmem] at hs
    rw [refusalOf]
    split_ifs at hs ⊢ with hlive hprogram
    · exact Option.some.inj hs ▸ hreport _
    · exact Option.some.inj hs ▸ hreport _
    · cases hspawn : o.spawn with
      | error message =>
        rw [hspawn] at hs
        exact Option.some.inj hs ▸ hreport _
      | ok process =>
        rw [hspawn] at hs
        obtain rfl := Option.some.inj hs
        rw [@told_apart s _ (some s.ptys.length) none
          [.spawned terminal generation process.1] rfl (by simp)]
        exact (List.append_nil _).symm
  | write terminal | resize terminal =>
    simp only [Service.dispatch] at hs
    rw [refusalOf]
    cases hi : s.live.lookup terminal with
    | none =>
      rw [hi] at hs
      rw [hheld, hi]
      exact Option.some.inj hs ▸ hreport _
    | some i =>
      rw [hi] at hs
      obtain ⟨p, -, hp⟩ := hfound terminal i hi
      rw [hp]
      exact Option.some.inj hs ▸ hreport _
  | kill terminal generation =>
    simp only [Service.dispatch] at hs
    rw [refusalOf]
    cases hi : s.live.lookup terminal with
    | none =>
      rw [hi] at hs
      rw [hheld, hi]
      exact Option.some.inj hs ▸ (List.append_nil _).symm
    | some i =>
      rw [hi] at hs
      obtain ⟨p, hp, hfree⟩ := hfound terminal i hi
      obtain ⟨r, hr, rfl⟩ := Option.map_eq_some_iff.mp hs
      obtain ⟨hresult, htold⟩ := terminate_spec hr hp
      rw [told_refused, htold, hresult, hfree]
      rfl
  | release terminal generation =>
    simp only [Service.dispatch] at hs
    cases hi : s.live.lookup terminal <;> rw [hi] at hs
    all_goals exact Option.some.inj hs ▸ (List.append_nil _).symm

/-- **A step tells of the request that fails in it**, and of no other. -/
theorem Whole.step_told {deed : Deed} (h : Whole s) (hs : s.step deed = some s') :
    s'.told none = s.told none ++ (s.refusal deed).toList := by
  cases deed with
  | request request =>
    obtain rfl := Option.some.inj hs
    exact (List.append_nil _).symm
  | serve outcome =>
    simp only [Service.step] at hs
    split at hs
    · rename_i request queue hidle hqueue
      rw [refusal, if_pos hidle, hqueue, List.head?_cons, Option.bind_some]
      exact h.dispatch_told hidle hs
    · cases hs
  | goOn os kill =>
    simp only [Service.step] at hs
    simp only [refusal]
    cases hphase : s.phase with
    | terminating i request =>
      rw [hphase] at hs
      obtain ⟨r, hr, rfl⟩ := Option.map_eq_some_iff.mp hs
      have hready := h.ready
      rw [hphase] at hready
      obtain ⟨p, hp⟩ := hready
      obtain ⟨hresult, htold⟩ := terminate_spec hr hp
      simp only [hp, Option.bind_some]
      rw [told_refused, htold, hresult]
      rfl
    | idle =>
      rw [hphase] at hs
      cases hs
    | startingReader | startingWaiter | releasing | muting =>
      rw [hphase] at hs
      exact (told_act hs).2.trans (List.append_nil _).symm
  | thread i a =>
    simp only [Service.step] at hs
    split_ifs at hs
    exact (told_act hs).2.trans (List.append_nil _).symm

/-- **All failed requests of a run are told, each once and in their order.** -/
theorem Whole.run_told {deeds : List Deed} (h : Whole s)
    (hr : Runs.run Service.step s deeds = some s') :
    s'.told none = s.told none ++ s.refusals deeds := by
  induction deeds generalizing s with
  | nil =>
    obtain rfl := Option.some.inj hr
    exact (List.append_nil _).symm
  | cons deed deeds ih =>
    obtain ⟨t, ht, hr⟩ := Option.bind_eq_some_iff.mp hr
    rw [ih (h.step ht) hr, h.step_told ht, refusals, ht, List.append_assoc]
    rfl

/-! ## What a release leaves -/

/-- A process that publishes nothing more, and whose group was signalled. -/
def Silent (p : Pty) : Prop :=
  p.active = false ∧ (p.processGroup.isSome = true → p.cleaned = true)

/-- A process that is released is silent, unless the release is under way. -/
def Silenced (s : Service) : Prop :=
  ∀ (i : ℕ) (p : Pty), s.ptys[i]? = some p → p.released = true →
    Silent p ∨ (∃ request, s.phase = .muting i request) ∨
      p.active = false ∧ ∃ request, s.phase = .terminating i request

theorem inactive_step {p' : Pty} (h : p.active = false) (hs : Terminal.step p a = some p') :
    p'.active = false := by
  cases step_next hs
  all_goals grind -linarith

theorem Silent.step {p' : Pty} (h : Silent p) (hs : Terminal.step p a = some p') : Silent p' := by
  refine ⟨inactive_step h.1 hs, ?_⟩
  have hcleaned := h.2
  cases step_next hs with
  | terminate hgroup | waitCleans _ _ hgroup =>
    rcases hgroup with ⟨rfl, -⟩ | ⟨-, rfl, -⟩
    · exact hcleaned
    · exact fun _ => rfl
  | _ => exact hcleaned

theorem silent_terminate {os : Answers} {kill : Except String Unit} (h : p.active = false) :
    Silent (p.terminate os kill).2 := by
  rw [p.terminate_eq, Pty.signalGroup]
  cases hgroup : p.processGroup with
  | none => exact ⟨h, by simp [hgroup]⟩
  | some group => exact ⟨h, fun _ => rfl⟩

theorem Silenced.all (h : Silenced s) (hmuting : ∀ i request, s.phase ≠ .muting i request)
    (hterminating : ∀ i request, s.phase ≠ .terminating i request) (hp : s.ptys[i]? = some p)
    (hreleased : p.released = true) : Silent p := by
  rcases h i p hp hreleased with hsilent | ⟨request, hphase⟩ | ⟨-, request, hphase⟩
  · exact hsilent
  · exact absurd hphase (hmuting i request)
  · exact absurd hphase (hterminating i request)

/-- A step of a process that does not release it, while all others that are released are silent. -/
theorem Silenced.act {phase : Phase} (ha : ({ s with phase } : Service).act i a = some s')
    (hne : a ≠ .markReleased)
    (h : ∀ (j : ℕ) (q : Pty), s.ptys[j]? = some q → q.released = true → Silent q) :
    Silenced s' := by
  intro j q' hq' hreleased
  obtain ⟨q, hq, ⟨-, hstep⟩ | ⟨-, rfl⟩⟩ := (act_frame ha).2.2.2 j q' hq'
  · exact .inl ((h j q hq (((step_others hstep).1 hne).symm.trans hreleased)).step hstep)
  · exact .inl (h j q' hq hreleased)

theorem Silenced.report (h : Silenced s) (request : PtyRequest) (result : Except String Unit) :
    Silenced (s.report request result) := by
  intro i p hp
  rw [ptys_report] at hp
  rw [phase_report]
  exact h i p hp

theorem Silenced.dispatch {o : Outcome} (h : Silenced s) (hidle : s.phase = .idle)
    (hs : s.dispatch o request = some s') : Silenced s' := by
  have hall : ∀ (j : ℕ) (q : Pty), s.ptys[j]? = some q → q.released = true → Silent q :=
    fun j q hq => h.all (by simp [hidle]) (by simp [hidle]) hq
  cases request with
  | spawn terminal generation spec size =>
    simp only [Service.dispatch] at hs
    split_ifs at hs with hlive hprogram
    · exact Option.some.inj hs ▸ h.report _ _
    · exact Option.some.inj hs ▸ h.report _ _
    · split at hs
      · exact Option.some.inj hs ▸ h.report _ _
      · obtain rfl := Option.some.inj hs
        intro j q hq hreleased
        rcases get_push hq with hq | ⟨-, rfl⟩
        · exact .inl (hall j q hq hreleased)
        · cases hreleased
  | write | resize =>
    simp only [Service.dispatch] at hs
    split at hs
    all_goals exact Option.some.inj hs ▸ h.report _ _
  | kill terminal generation =>
    simp only [Service.dispatch] at hs
    split at hs
    · exact Option.some.inj hs ▸ h
    · obtain ⟨r, hr, rfl⟩ := Option.map_eq_some_iff.mp hs
      have hact : ({ s with phase := s.phase } : Service).act _ _ = some r.2 := terminate_eq hr
      exact (Silenced.act hact (by simp) hall).report _ _
  | release terminal generation =>
    simp only [Service.dispatch] at hs
    split at hs
    · exact Option.some.inj hs ▸ h
    · obtain rfl := Option.some.inj hs
      exact fun j q hq hreleased => .inl (hall j q hq hreleased)

theorem Silenced.goOn {os : Answers} {kill : Except String Unit} (h : Silenced s)
    (hs : s.step (.goOn os kill) = some s') : Silenced s' := by
  simp only [Service.step] at hs
  split at hs
  · cases hs
  · rename_i i hphase
    exact .act hs (by simp) fun j q hq => h.all (by simp [hphase]) (by simp [hphase]) hq
  · rename_i i hphase
    exact .act hs (by simp) fun j q hq => h.all (by simp [hphase]) (by simp [hphase]) hq
  · rename_i i request hphase
    obtain ⟨-, hphase', -, hof⟩ := act_frame hs
    intro j q' hq' hreleased
    obtain ⟨q, hq, ⟨rfl, -⟩ | ⟨-, rfl⟩⟩ := hof j q' hq'
    · exact .inr (.inl ⟨request, hphase'⟩)
    · exact .inl (h.all (by simp [hphase]) (by simp [hphase]) hq hreleased)
  · rename_i i request hphase
    obtain ⟨-, hphase', -, hof⟩ := act_frame hs
    intro j q' hq' hreleased
    obtain ⟨q, hq, ⟨rfl, hstep⟩ | ⟨hne, rfl⟩⟩ := hof j q' hq'
    · refine .inr (.inr ⟨?_, request, hphase'⟩)
      cases step_next hstep
      rfl
    · rcases h j q' hq hreleased with hsilent | ⟨r, hj⟩ | ⟨-, r, hj⟩
      · exact .inl hsilent
      · rw [hphase] at hj
        cases hj
        exact absurd rfl hne
      · rw [hphase] at hj
        cases hj
  · rename_i i request hphase
    obtain ⟨r, hr, rfl⟩ := Option.map_eq_some_iff.mp hs
    obtain ⟨-, -, -, hof⟩ := act_frame (terminate_eq hr)
    refine Silenced.report ?_ _ _
    intro j q' hq' hreleased
    obtain ⟨q, hq, ⟨rfl, hstep⟩ | ⟨hne, rfl⟩⟩ := hof j q' hq'
    · have hbefore := ((step_others hstep).1 (by simp)).symm.trans hreleased
      obtain rfl : (q.terminate os kill).2 = q' := Option.some.inj hstep
      rcases h j q hq hbefore with hsilent | ⟨r, hj⟩ | ⟨hinactive, -⟩
      · exact .inl (silent_terminate hsilent.1)
      · rw [hphase] at hj
        cases hj
      · exact .inl (silent_terminate hinactive)
    · rcases h j q' hq hreleased with hsilent | ⟨r, hj⟩ | ⟨-, r, hj⟩
      · exact .inl hsilent
      · rw [hphase] at hj
        cases hj
      · rw [hphase] at hj
        cases hj
        exact absurd rfl hne

theorem Silenced.step {deed : Deed} (h : Silenced s) (hs : s.step deed = some s') :
    Silenced s' := by
  cases deed with
  | request request =>
    obtain rfl := Option.some.inj hs
    exact h
  | serve outcome =>
    simp only [Service.step] at hs
    split at hs
    · rename_i request queue hidle hqueue
      have htaken : Silenced ({ s with queue, served := s.served ++ [request] } : Service) := h
      exact htaken.dispatch hidle hs
    · cases hs
  | goOn os kill => exact h.goOn hs
  | thread i a =>
    simp only [Service.step] at hs
    split_ifs at hs with hothers
    obtain ⟨-, hphase, -, hof⟩ := act_frame hs
    intro j q' hq' hreleased
    rw [hphase]
    obtain ⟨q, hq, ⟨rfl, hstep⟩ | ⟨-, rfl⟩⟩ := hof j q' hq'
    · have hbefore : q.released = true :=
        ((step_others hstep).1 (by rintro rfl; cases hothers)).symm.trans hreleased
      rcases h j q hq hbefore with hsilent | hmuting | ⟨hinactive, hterminating⟩
      · exact .inl (hsilent.step hstep)
      · exact .inr (.inl hmuting)
      · exact .inr (.inr ⟨inactive_step hinactive hstep, hterminating⟩)
    · exact h j q' hq hreleased

/-! ## The worker goes on -/

theorem act_isSome (hp : s.ptys[i]? = some p) (hstep : (Terminal.step p a).isSome = true) :
    ∃ s', s.act i a = some s' := by
  obtain ⟨p', hp'⟩ := Option.isSome_iff_exists.mp hstep
  rw [Service.act, hp, Option.bind_some, hp']
  exact ⟨_, rfl⟩

theorem terminate_isSome (os : Answers) (kill : Except String Unit) (hp : s.ptys[i]? = some p) :
    ∃ r, s.terminate i os kill = some r := by
  obtain ⟨s', hs'⟩ := act_isSome (a := .terminate os kill) hp rfl
  rw [Service.terminate, hp, Option.bind_some, hs']
  exact ⟨_, rfl⟩

theorem Whole.goes (h : Whole s) (hphase : s.phase ≠ .idle) (os : Answers)
    (kill : Except String Unit) : ∃ s', s.step (.goOn os kill) = some s' := by
  have hready := h.ready
  cases hp : s.phase with
  | idle => exact absurd hp hphase
  | startingReader i =>
    rw [hp] at hready
    obtain ⟨p, hi, hreader, -⟩ := hready
    simp only [Service.step, hp]
    exact act_isSome hi (by simp [Terminal.step, hreader])
  | startingWaiter i =>
    rw [hp] at hready
    obtain ⟨p, hi, hwaiter⟩ := hready
    simp only [Service.step, hp]
    exact act_isSome hi (by simp [Terminal.step, hwaiter])
  | releasing i request =>
    rw [hp] at hready
    obtain ⟨p, hi, -⟩ := hready
    simp only [Service.step, hp]
    exact act_isSome hi rfl
  | muting i request =>
    rw [hp] at hready
    obtain ⟨p, hi, hreleased⟩ := hready
    simp only [Service.step, hp]
    exact act_isSome hi (by simp [Terminal.step, hreleased])
  | terminating i request =>
    rw [hp] at hready
    obtain ⟨p, hi⟩ := hready
    obtain ⟨r, hr⟩ := terminate_isSome (s := { s with phase := .idle }) os kill hi
    simp only [Service.step, hp, hr]
    exact ⟨_, rfl⟩

theorem Whole.serves (h : Whole s) (hidle : s.phase = .idle) {queue : List PtyRequest}
    (hqueue : s.queue = request :: queue) (outcome : Outcome) :
    ∃ s', s.step (.serve outcome) = some s' := by
  simp only [Service.step, hidle, hqueue]
  cases request with
  | spawn terminal generation spec size =>
    simp only [Service.dispatch]
    split_ifs
    · exact ⟨_, rfl⟩
    · exact ⟨_, rfl⟩
    · split
      all_goals exact ⟨_, rfl⟩
  | write | resize | release =>
    simp only [Service.dispatch]
    split
    all_goals exact ⟨_, rfl⟩
  | kill terminal generation =>
    simp only [Service.dispatch]
    split
    · exact ⟨_, rfl⟩
    · rename_i i hi
      obtain ⟨p, hp, -⟩ := h.intact.holding.live terminal i hi
      obtain ⟨r, hr⟩ := terminate_isSome (s := { s with
        queue, served := s.served ++ [.kill terminal generation], phase := .idle })
        outcome.signals outcome.kill hp
      exact ⟨_, by rw [hr]; rfl⟩

end Service

/-- What the application can rely on behind a run. -/
structure Orderly (deeds : List Deed) (s : Service) : Prop where
  /-- The events of each process are told in their order. -/
  events : ∀ (i : ℕ) (p : Pty), s.ptys[i]? = some p → Ordered p ∧ s.told (some i) = p.said
  /-- What the worker tells itself is of requests that it served, in their order, each once. -/
  failures : ∃ failed : List PtyRequest, failed.Sublist s.served ∧
    List.Forall₂ Service.TellsOf failed (s.told none)
  /-- It tells of every request that fails, with the reason. -/
  refused : s.told none = Service.refusals {} deeds
  /-- A release ends in a process that publishes nothing more, and its group was signalled. -/
  silent : s.phase = .idle → ∀ (i : ℕ) (p : Pty), s.ptys[i]? = some p → p.released = true →
    p.active = false ∧ (p.processGroup.isSome = true → p.signals ≠ [])
  /-- A terminal has one process that is not released. -/
  single : ∀ (i j : ℕ) (p q : Pty), s.ptys[i]? = some p → s.ptys[j]? = some q →
    p.released = false → q.released = false → p.terminal = q.terminal → i = j
  /-- Between requests, the worker holds what is not released. -/
  held : s.phase = .idle → ∀ (i : ℕ) (p : Pty), s.ptys[i]? = some p →
    (p.released = false ↔ s.live.lookup p.terminal = some i)
  /-- Whatever the system answers, the worker ends every request and serves the next one. -/
  goes : ∀ os kill, s.phase ≠ .idle → ∃ s', s.step (.goOn os kill) = some s'
  serves : ∀ outcome, s.phase = .idle → s.queue ≠ [] → ∃ s', s.step (.serve outcome) = some s'

/-- **The worker and its terminals**, in every run: whatever is requested and answered, and
whichever thread steps next. -/
theorem worker_ordered {deeds : List Deed} {s : Service}
    (h : run Service.step {} deeds = some s) : Orderly deeds s := by
  have hreach : Reach Service.step (fun _ _ => True) (· = {}) s :=
    .of_run (fun _ _ => trivial) deeds (.start rfl) h
  have hwhole : s.Whole :=
    hreach.inv (by rintro _ rfl; exact .initial) fun _ _ _ h _ hs => h.step hs
  have hsilenced : s.Silenced :=
    hreach.inv (by rintro _ rfl; intro i p hp; cases hp) fun _ _ _ h _ hs => h.step hs
  obtain ⟨hlog, hfailures, hholding⟩ := hwhole.intact
  constructor
  case events => exact fun i p hp => ⟨(hlog.kept i p hp).ordered, hlog.said i p hp⟩
  case failures =>
    obtain ⟨done, failed, hserved, hsub, htells⟩ := hfailures
    exact ⟨failed, hserved ▸ hsub.trans (List.sublist_append_left _ _), htells⟩
  case refused => exact Service.Whole.initial.run_told h
  case silent =>
    intro hidle i p hp hreleased
    obtain ⟨hinactive, hcleaned⟩ := hsilenced.all (by simp [hidle]) (by simp [hidle]) hp hreleased
    exact ⟨hinactive, fun hgroup => (hlog.kept i p hp).clean.sounded (hcleaned hgroup)⟩
  case single =>
    intro i j p q hp hq hpr hqr hterminal
    rcases hholding.held i p hp hpr with hi | hi <;> rcases hholding.held j q hq hqr with hj | hj
    · rw [hterminal, hj] at hi
      exact (Option.some.inj hi).symm
    · rw [hterminal, hwhole.leaves hj hq] at hi
      cases hi
    · rw [← hterminal, hwhole.leaves hi hp] at hj
      cases hj
    · exact Option.some.inj (hi.symm.trans hj)
  case held =>
    intro hidle i p hp
    constructor
    · intro hreleased
      rcases hholding.held i p hp hreleased with hi | hi
      · exact hi
      · rw [hidle] at hi
        cases hi
    · intro hi
      obtain ⟨q, hq, -, hreleased⟩ := hholding.live p.terminal i hi
      obtain rfl := Option.some.inj (hp.symm.trans hq)
      exact hreleased
  case goes => exact fun os kill hphase => hwhole.goes hphase os kill
  case serves =>
    intro outcome hidle hqueue
    obtain ⟨request, queue, hq⟩ := List.exists_cons_of_ne_nil hqueue
    exact hwhole.serves hidle hq outcome

/-- A process that is released while it writes. -/
def releasedWriter : List Deed :=
  let os : Answers := ⟨.ok (), fun _ => .error .esrch, .error .esrch⟩
  [.request (.spawn ⟨1⟩ ⟨1⟩ ⟨"sh", [], [.rootDir], []⟩ ⟨24, 80⟩),
    .serve ⟨.ok (some 7, some 7), .ok (), os, .ok ()⟩, .goOn os (.ok ()), .goOn os (.ok ()),
    .thread 0 (.write [104]), .thread 0 .read, .thread 0 .readLocks, .thread 0 .readChecks,
    .request (.release ⟨1⟩ ⟨1⟩), .serve ⟨.error "", .ok (), os, .ok ()⟩, .goOn os (.ok ()),
    .goOn os (.ok ()), .thread 0 .readPublishes, .goOn os (.ok ())]

theorem worker_ordered_release : ∃ s, run Service.step {} releasedWriter = some s ∧
    s.told (some 0) = [.spawned ⟨1⟩ ⟨1⟩ (some 7), .output ⟨1⟩ ⟨1⟩ [104]] ∧
    Orderly releasedWriter s := by
  have hrun : (run Service.step {} releasedWriter).map (fun s => s.told (some 0)) =
      some [.spawned ⟨1⟩ ⟨1⟩ (some 7), .output ⟨1⟩ ⟨1⟩ [104]] := by
    decide +kernel
  obtain ⟨s, hs, htold⟩ := Option.map_eq_some_iff.mp hrun
  exact ⟨s, hs, htold, worker_ordered hs⟩

end Terminal

end Termesh
