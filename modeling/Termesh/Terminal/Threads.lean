import Mathlib.Data.List.Basic
import Termesh.Core.Terminal
import Termesh.Lib.Run

/-!
# The threads of a terminal

A process in a terminal is watched by two threads. One reads what the process writes, the other
waits for its exit; both publish under one lock. The thread that serves requests started them and
may raise their flags at any time. Each step below is what one thread does between two looks at what
they share, and the threads take their steps in any order.

* `terminateProcessGroup`, **`Round.terminate`**: a process group is signalled in one round;
* `Reader`, `Waiter`, `Pty`, `Act`, `step`: the threads and their steps;
* `Next`, `Control`, `Books`, **`Kept.step`**: what a step can be, and what every step keeps;
* `finish`, `drain`, **`finish_both`**: both threads can always come to their end;
* `Ordered`, **`Kept.ordered`**: the events of a process, whatever the threads do.

The flags and the lock are those of one process. A process group is the one of Unix, and callbacks
return.
-/

namespace Termesh

namespace Terminal

open Runs

/-! ## Signals -/

/-- What the system says of a signal that could not be sent. -/
inductive Errno where
  | esrch
  | eperm
  | other (text : String)
deriving DecidableEq, Repr

/-- The text of an error. -/
def Errno.display : Errno → String
  | esrch => "ESRCH: No such process"
  | eperm => "EPERM: Operation not permitted"
  | other text => text

/-- The signals a group is sent. -/
inductive Signal where
  | hup
  /-- Signal 0: a look whether the group is there. -/
  | probe
  | kill
deriving DecidableEq, Repr

/-- The answers of the system to the signals of one round. -/
structure Answers where
  hup : Except Errno Unit
  probe : ℕ → Except Errno Unit
  kill : Except Errno Unit

/-- `PtyError::Backend` as it is shown. -/
def backendError (operation message : String) : String :=
  "PTY " ++ operation ++ " failed: " ++ message

/-- The probes that are left: whether the group is gone, and how many were sent. -/
def probeGroup (os : Answers) (sent : ℕ) : ℕ → Option (Except String Unit) × ℕ
  | 0 => (none, sent)
  | left + 1 =>
    match os.probe sent with
    | .ok () | .error .eperm => probeGroup os (sent + 1) left
    | .error .esrch => (some (.ok ()), sent + 1)
    | .error error => (some (.error (backendError "probe process group" error.display)), sent + 1)

/-- The last signal, if the group is still there. -/
def killGroup (os : Answers) : Except String Unit :=
  match os.kill with
  | .ok () | .error .esrch => .ok ()
  | .error killError =>
    match os.hup with
    | .error hupError => .error (backendError "kill"
        ("SIGHUP failed: " ++ hupError.display ++ "; SIGKILL failed: " ++ killError.display))
    | .ok () => .error (backendError "kill" killError.display)

/-- `terminate_process_group`, which leaves the group cleaned: its result and the signals sent. -/
def terminateProcessGroup (os : Answers) (cleaned : Bool) : Except String Unit × List Signal :=
  if cleaned then (.ok (), [])
  else if os.hup = .error .esrch then (.ok (), [.hup])
  else
    match probeGroup os 0 5 with
    | (some result, sent) => (result, .hup :: List.replicate sent .probe)
    | (none, sent) => (killGroup os, .hup :: List.replicate sent .probe ++ [.kill])

/-- One round of signals, or none. -/
def Round (signals : List Signal) : Prop :=
  signals = [] ∨ ∃ sent ≤ 5, ∃ last, signals = .hup :: List.replicate sent .probe ++ last ∧
    (last = [] ∨ last = [.kill] ∧ sent = 5)

theorem probeGroup_sent (os : Answers) (sent left : ℕ) :
    (probeGroup os sent left).2 ≤ sent + left ∧
      ((probeGroup os sent left).1 = none → (probeGroup os sent left).2 = sent + left) := by
  induction left generalizing sent with
  | zero => exact ⟨Nat.le_refl _, fun _ => rfl⟩
  | succ left ih =>
    have hnext := ih (sent + 1)
    rw [probeGroup]
    split
    · exact ⟨by omega, fun h => by rw [hnext.2 h]; omega⟩
    · exact ⟨by omega, fun h => by rw [hnext.2 h]; omega⟩
    · exact ⟨by simp, fun h => by cases h⟩
    · exact ⟨by simp, fun h => by cases h⟩

/-- **A group that was not cleaned is signalled in one round.** -/
theorem Round.terminate (os : Answers) :
    Round (terminateProcessGroup os false).2 ∧ (terminateProcessGroup os false).2 ≠ [] := by
  rw [terminateProcessGroup, if_neg Bool.false_ne_true]
  split_ifs
  · exact ⟨.inr ⟨0, by decide, [], rfl, .inl rfl⟩, List.cons_ne_nil _ _⟩
  · obtain ⟨hle, hall⟩ := probeGroup_sent os 0 5
    cases hprobe : (probeGroup os 0 5).1 with
    | some result =>
      have heq : probeGroup os 0 5 = (some result, (probeGroup os 0 5).2) := by rw [← hprobe]
      rw [heq]
      exact ⟨.inr ⟨_, hle, [], by simp, .inl rfl⟩, List.cons_ne_nil _ _⟩
    | none =>
      have heq : probeGroup os 0 5 = (none, (probeGroup os 0 5).2) := by rw [← hprobe]
      rw [heq]
      exact ⟨.inr ⟨_, hle, [.kill], rfl, .inr ⟨rfl, hall hprobe⟩⟩, by simp⟩

/-! ## The threads -/

/-- How far the reader is. -/
inductive Reader where
  | waiting
  | reading
  /-- A chunk was read, and the lock is not taken yet. -/
  | holding (chunk : List UInt8)
  /-- The lock is taken, and the flag not looked at yet. -/
  | locked (chunk : List UInt8)
  /-- In the callback. -/
  | publishing (chunk : List UInt8)
  /-- The stream came to its end, or could not be read. -/
  | ended
  /-- The waiter was told so. -/
  | done
deriving DecidableEq, Repr

/-- How far the waiter is, with the event that it will publish. -/
inductive Waiter where
  | waiting
  | child
  | returned (event : PtyEvent)
  | flagged (event : PtyEvent)
  /-- Waiting for the reader. -/
  | draining (event : PtyEvent)
  /-- The reader took too long. -/
  | expired (event : PtyEvent)
  /-- No output will be published any more, and the lock is not taken yet. -/
  | announcing (event : PtyEvent)
  | locked (event : PtyEvent)
  | publishing (event : PtyEvent)
  | done
deriving DecidableEq, Repr

/-- The lock is held. -/
@[grind] def Reader.inside : Reader → Bool
  | locked _ | publishing _ => true
  | _ => false

/-- The waiter holds the lock. -/
@[grind] def Waiter.inside : Waiter → Bool
  | locked _ | publishing _ => true
  | _ => false

/-- What was read and is not published. -/
@[grind] def Reader.inHand : Reader → List (List UInt8)
  | holding chunk | locked chunk | publishing chunk => [chunk]
  | _ => []

/-- The event the waiter has to tell. -/
@[grind] def Waiter.event? : Waiter → Option PtyEvent
  | returned event | flagged event | draining event | expired event | announcing event
  | locked event | publishing event => some event
  | waiting | child | done => none

/-- Behind the wait for the reader. -/
@[grind] def Waiter.settled : Waiter → Bool
  | announcing _ | locked _ | publishing _ | done => true
  | _ => false

/-- How a process ended: its code and the signal that ended it. -/
structure ExitStatus where
  exitCode : ℕ
  signal : Option String
deriving DecidableEq, Repr

/-- A process in a terminal, with its threads. -/
structure Pty where
  terminal : TerminalId
  generation : TerminalGeneration
  processId : Option ℕ
  processGroup : Option Int
  reader : Reader := .waiting
  waiter : Waiter := .waiting
  active : Bool := true
  released : Bool := false
  processExited : Bool := false
  /-- `group_cleanup`. -/
  cleaned : Bool := false
  /-- What the process wrote and was not read. -/
  unread : List (List UInt8) := []
  /-- Nobody can write any more. -/
  closed : Bool := false
  /-- What was read so far. -/
  taken : List (List UInt8) := []
  /-- The stream could not be read to its end. -/
  broken : Bool := false
  /-- The reader took too long. -/
  expired : Bool := false
  /-- What `wait` returned. -/
  status : Option (Except String ExitStatus) := none
  signals : List Signal := []
  said : List PtyEvent

namespace Pty

/-- The start of the process. -/
def spawned (p : Pty) : PtyEvent := .spawned p.terminal p.generation p.processId

/-- A piece of its output. -/
def output (p : Pty) (chunk : List UInt8) : PtyEvent := .output p.terminal p.generation chunk

/-- An error about it. -/
def failed (p : Pty) (message : String) : PtyEvent := .failed p.terminal p.generation message

/-- The event of what `wait` returned. -/
def exitEvent (p : Pty) : Except String ExitStatus → PtyEvent
  | .ok status => .exited p.terminal p.generation
      ⟨if status.signal.isNone then some status.exitCode else none, status.signal⟩
  | .error error => p.failed (backendError "wait" error)

/-- A process that was just announced. -/
def start (terminal : TerminalId) (generation : TerminalGeneration) (processId : Option ℕ)
    (processGroup : Option Int) : Pty where
  terminal
  generation
  processId
  processGroup
  said := [.spawned terminal generation processId]

/-- The group is signalled, if there is one. -/
def signalGroup (p : Pty) (os : Answers) : Except String Unit × Pty :=
  match p.processGroup with
  | none => (.ok (), p)
  | some _ =>
    let (result, signals) := terminateProcessGroup os p.cleaned
    (result, { p with cleaned := true, signals := p.signals ++ signals })

/-- `terminate`: without a group, `kill` is the answer of the killer. -/
def terminate (p : Pty) (os : Answers) (kill : Except String Unit) : Except String Unit × Pty :=
  match p.processGroup with
  | none => (if p.processExited then .ok () else kill.mapError (backendError "kill"), p)
  | some _ => p.signalGroup os

/-- The publication lock is free. -/
def free (p : Pty) : Bool := !p.reader.inside && !p.waiter.inside

end Pty

/-- What a thread does between two looks at what the threads share. -/
inductive Act where
  /-- The process, or one that it left behind, writes. -/
  | write (chunk : List UInt8)
  | close
  /-- `spawn`: the threads are started. -/
  | startReader
  | startWaiter
  /-- `kill` and `release`. -/
  | terminate (os : Answers) (kill : Except String Unit)
  /-- `release`: its flags. -/
  | markReleased
  | markInactive
  /-- The reader. -/
  | read
  | readEnds (broken : Bool)
  | readLocks
  | readChecks
  | readPublishes
  | readSignals
  /-- The waiter. -/
  | waitReturns (status : Except String ExitStatus)
  | waitFlags
  | waitCleans (os : Answers)
  | waitDrains
  | waitMutes
  | waitLocks
  | waitChecks
  | waitPublishes

/-- One step of a thread; `none` where it is not that thread's turn to take it. -/
def step (p : Pty) : Act → Option Pty
  | .write chunk => if p.closed then none else some { p with unread := p.unread ++ [chunk] }
  | .close => some { p with closed := true }
  | .startReader => if p.reader = .waiting then some { p with reader := .reading } else none
  | .startWaiter => if p.waiter = .waiting then some { p with waiter := .child } else none
  | .terminate os kill => some (p.terminate os kill).2
  | .markReleased => some { p with released := true }
  | .markInactive => if p.released then some { p with active := false } else none
  | .read =>
    match p.reader, p.unread with
    | .reading, chunk :: unread =>
      some { p with reader := .holding chunk, unread, taken := p.taken ++ [chunk] }
    | _, _ => none
  | .readEnds broken =>
    if p.reader = .reading ∧ (broken = true ∨ p.unread = [] ∧ p.closed = true) then
      some { p with reader := .ended, broken }
    else none
  | .readLocks =>
    match p.reader with
    | .holding chunk => if p.free then some { p with reader := .locked chunk } else none
    | _ => none
  | .readChecks =>
    match p.reader with
    | .locked chunk => some { p with reader := if p.active then .publishing chunk else .reading }
    | _ => none
  | .readPublishes =>
    match p.reader with
    | .publishing chunk => some { p with reader := .reading, said := p.said ++ [p.output chunk] }
    | _ => none
  | .readSignals => if p.reader = .ended then some { p with reader := .done } else none
  | .waitReturns status =>
    if p.waiter = .child then
      some { p with waiter := .returned (p.exitEvent status), status := some status }
    else none
  | .waitFlags =>
    match p.waiter with
    | .returned event => some { p with waiter := .flagged event, processExited := true }
    | _ => none
  | .waitCleans os =>
    match p.waiter with
    | .flagged event =>
      match p.signalGroup os with
      | (.ok (), p) => some { p with waiter := .draining event }
      | (.error message, p) => some { p with waiter := .draining (p.failed message) }
    | _ => none
  | .waitDrains =>
    match p.waiter with
    | .draining event =>
      if p.reader = .done then some { p with waiter := .announcing event }
      else some { p with waiter := .expired event, expired := true }
    | _ => none
  | .waitMutes =>
    match p.waiter with
    | .expired event => some { p with waiter := .announcing event, active := false }
    | _ => none
  | .waitLocks =>
    match p.waiter with
    | .announcing event => if p.free then some { p with waiter := .locked event } else none
    | _ => none
  | .waitChecks =>
    match p.waiter with
    | .locked event => some { p with waiter := if p.released then .done else .publishing event }
    | _ => none
  | .waitPublishes =>
    match p.waiter with
    | .publishing event => some { p with waiter := .done, said := p.said ++ [event] }
    | _ => none

/-! ## What every step keeps -/

/-- What becomes of the flag of a group, and of its signals: nothing, or a first round. -/
def Signalled (p : Pty) (cleaned : Bool) (signals : List Signal) : Prop :=
  cleaned = p.cleaned ∧ signals = p.signals ∨
    p.cleaned = false ∧ cleaned = true ∧
      ∃ round, Round round ∧ round ≠ [] ∧ signals = p.signals ++ round

/-- What one step can be. -/
inductive Next (p : Pty) : Act → Pty → Prop
  | write {chunk : List UInt8} (h : p.closed = false) :
      Next p (.write chunk) { p with unread := p.unread ++ [chunk] }
  | close : Next p .close { p with closed := true }
  | startReader (h : p.reader = .waiting) : Next p .startReader { p with reader := .reading }
  | startWaiter (h : p.waiter = .waiting) : Next p .startWaiter { p with waiter := .child }
  | terminate {os : Answers} {kill : Except String Unit} {cleaned : Bool} {signals : List Signal}
      (hgroup : Signalled p cleaned signals) :
      Next p (.terminate os kill) { p with cleaned, signals }
  | markReleased : Next p .markReleased { p with released := true }
  | markInactive (h : p.released = true) : Next p .markInactive { p with active := false }
  | read {chunk : List UInt8} {unread : List (List UInt8)} (h : p.reader = .reading)
      (hu : p.unread = chunk :: unread) :
      Next p .read { p with reader := .holding chunk, unread, taken := p.taken ++ [chunk] }
  | readEnds {broken : Bool} (h : p.reader = .reading)
      (hend : broken = true ∨ p.unread = [] ∧ p.closed = true) :
      Next p (.readEnds broken) { p with reader := .ended, broken }
  | readLocks {chunk : List UInt8} (h : p.reader = .holding chunk)
      (hfree : p.waiter.inside = false) : Next p .readLocks { p with reader := .locked chunk }
  | readPasses {chunk : List UInt8} (h : p.reader = .locked chunk) (hactive : p.active = true) :
      Next p .readChecks { p with reader := .publishing chunk }
  | readSkips {chunk : List UInt8} (h : p.reader = .locked chunk) (hactive : p.active = false) :
      Next p .readChecks { p with reader := .reading }
  | readPublishes {chunk : List UInt8} (h : p.reader = .publishing chunk) :
      Next p .readPublishes { p with reader := .reading, said := p.said ++ [p.output chunk] }
  | readSignals (h : p.reader = .ended) : Next p .readSignals { p with reader := .done }
  | waitReturns {status : Except String ExitStatus} (h : p.waiter = .child) :
      Next p (.waitReturns status)
        { p with waiter := .returned (p.exitEvent status), status := some status }
  | waitFlags {event : PtyEvent} (h : p.waiter = .returned event) :
      Next p .waitFlags { p with waiter := .flagged event, processExited := true }
  | waitCleans {os : Answers} {event next : PtyEvent} {cleaned : Bool} {signals : List Signal}
      (h : p.waiter = .flagged event) (hnext : next = event ∨ ∃ message, next = p.failed message)
      (hgroup : Signalled p cleaned signals) :
      Next p (.waitCleans os) { p with waiter := .draining next, cleaned, signals }
  | waitDrains {event : PtyEvent} (h : p.waiter = .draining event) (hr : p.reader = .done) :
      Next p .waitDrains { p with waiter := .announcing event }
  | waitExpires {event : PtyEvent} (h : p.waiter = .draining event) (hr : p.reader ≠ .done) :
      Next p .waitDrains { p with waiter := .expired event, expired := true }
  | waitMutes {event : PtyEvent} (h : p.waiter = .expired event) :
      Next p .waitMutes { p with waiter := .announcing event, active := false }
  | waitLocks {event : PtyEvent} (h : p.waiter = .announcing event)
      (hfree : p.reader.inside = false) : Next p .waitLocks { p with waiter := .locked event }
  | waitLeaves {event : PtyEvent} (h : p.waiter = .locked event) (hr : p.released = true) :
      Next p .waitChecks { p with waiter := .done }
  | waitPasses {event : PtyEvent} (h : p.waiter = .locked event) (hr : p.released = false) :
      Next p .waitChecks { p with waiter := .publishing event }
  | waitPublishes {event : PtyEvent} (h : p.waiter = .publishing event) :
      Next p .waitPublishes { p with waiter := .done, said := p.said ++ [event] }

variable {p p' : Pty} {act : Act}

theorem Pty.signalGroup_eq (p : Pty) (os : Answers) :
    ∃ cleaned signals, (p.signalGroup os).2 = { p with cleaned, signals } ∧
      Signalled p cleaned signals := by
  unfold Pty.signalGroup
  split
  · exact ⟨p.cleaned, p.signals, rfl, .inl ⟨rfl, rfl⟩⟩
  · refine ⟨true, _, rfl, ?_⟩
    cases hc : p.cleaned with
    | true => exact .inl ⟨hc.symm, List.append_nil _⟩
    | false => exact .inr ⟨hc, rfl, _, (Round.terminate os).1, (Round.terminate os).2, rfl⟩

theorem Pty.terminate_eq (p : Pty) (os : Answers) (kill : Except String Unit) :
    (p.terminate os kill).2 = (p.signalGroup os).2 := by
  unfold Pty.terminate Pty.signalGroup
  split <;> rfl

theorem step_next (hs : step p act = some p') : Next p act p' := by
  cases act with
  | write chunk =>
    simp only [step] at hs
    split_ifs at hs with hc
    exact Option.some.inj hs ▸ .write (by simpa using hc)
  | close => exact Option.some.inj hs ▸ .close
  | startReader =>
    simp only [step] at hs
    split_ifs at hs with hr
    exact Option.some.inj hs ▸ .startReader hr
  | startWaiter =>
    simp only [step] at hs
    split_ifs at hs with hw
    exact Option.some.inj hs ▸ .startWaiter hw
  | terminate os kill =>
    obtain ⟨cleaned, signals, heq, hgroup⟩ := p.signalGroup_eq os
    obtain rfl := Option.some.inj hs
    rw [p.terminate_eq, heq]
    exact .terminate hgroup
  | markReleased => exact Option.some.inj hs ▸ .markReleased
  | markInactive =>
    simp only [step] at hs
    split_ifs at hs with hr
    exact Option.some.inj hs ▸ .markInactive hr
  | read =>
    simp only [step] at hs
    split at hs
    · rename_i chunk unread hr hu
      exact Option.some.inj hs ▸ .read hr hu
    · cases hs
  | readEnds broken =>
    simp only [step] at hs
    split_ifs at hs with hc
    exact Option.some.inj hs ▸ .readEnds hc.1 hc.2
  | readLocks =>
    simp only [step] at hs
    split at hs
    · rename_i chunk hr
      split_ifs at hs with hfree
      exact Option.some.inj hs ▸ .readLocks hr (by simpa [Pty.free, hr, Reader.inside] using hfree)
    · cases hs
  | readChecks =>
    simp only [step] at hs
    split at hs
    · rename_i chunk hr
      by_cases ha : p.active = true
      · rw [if_pos ha] at hs
        exact Option.some.inj hs ▸ .readPasses hr ha
      · rw [if_neg ha] at hs
        exact Option.some.inj hs ▸ .readSkips hr (by simpa using ha)
    · cases hs
  | readPublishes =>
    simp only [step] at hs
    split at hs
    · rename_i chunk hr
      exact Option.some.inj hs ▸ .readPublishes hr
    · cases hs
  | readSignals =>
    simp only [step] at hs
    split_ifs at hs with hr
    exact Option.some.inj hs ▸ .readSignals hr
  | waitReturns status =>
    simp only [step] at hs
    split_ifs at hs with hw
    exact Option.some.inj hs ▸ .waitReturns hw
  | waitFlags =>
    simp only [step] at hs
    split at hs
    · rename_i event hw
      exact Option.some.inj hs ▸ .waitFlags hw
    · cases hs
  | waitCleans os =>
    simp only [step] at hs
    split at hs
    · rename_i event hw
      obtain ⟨cleaned, signals, heq, hgroup⟩ := p.signalGroup_eq os
      split at hs
      · rename_i q hq
        obtain rfl : q = { p with cleaned, signals } := by rw [← heq, hq]
        exact Option.some.inj hs ▸ .waitCleans hw (.inl rfl) hgroup
      · rename_i message q hq
        obtain rfl : q = { p with cleaned, signals } := by rw [← heq, hq]
        exact Option.some.inj hs ▸ .waitCleans hw (.inr ⟨message, rfl⟩) hgroup
    · cases hs
  | waitDrains =>
    simp only [step] at hs
    split at hs
    · rename_i event hw
      split_ifs at hs with hr
      · exact Option.some.inj hs ▸ .waitDrains hw hr
      · exact Option.some.inj hs ▸ .waitExpires hw hr
    · cases hs
  | waitMutes =>
    simp only [step] at hs
    split at hs
    · rename_i event hw
      exact Option.some.inj hs ▸ .waitMutes hw
    · cases hs
  | waitLocks =>
    simp only [step] at hs
    split at hs
    · rename_i event hw
      split_ifs at hs with hfree
      exact Option.some.inj hs ▸ .waitLocks hw (by simpa [Pty.free, hw, Waiter.inside] using hfree)
    · cases hs
  | waitChecks =>
    simp only [step] at hs
    split at hs
    · rename_i event hw
      by_cases hr : p.released = true
      · rw [if_pos hr] at hs
        exact Option.some.inj hs ▸ .waitLeaves hw hr
      · rw [if_neg hr] at hs
        exact Option.some.inj hs ▸ .waitPasses hw (by simpa using hr)
    · cases hs
  | waitPublishes =>
    simp only [step] at hs
    split at hs
    · rename_i event hw
      exact Option.some.inj hs ▸ .waitPublishes hw
    · cases hs

/-- How the threads stand to each other. -/
structure Control (p : Pty) : Prop where
  muted : p.active = false → p.released = true ∨ p.expired = true
  /-- The lock keeps the threads apart. -/
  apart : p.reader.inside = true → p.waiter.inside = false
  early : p.waiter.settled = false → (p.expired = true ↔ ∃ event, p.waiter = .expired event)
  /-- The reader has come to its end, or it will not publish any more. -/
  settled : p.waiter.settled = true →
    p.expired = true ∧ p.active = false ∨ p.expired = false ∧ p.reader = .done
  quiet : p.waiter = .done → ∀ chunk, p.reader ≠ .publishing chunk
  drained : p.reader = .ended ∨ p.reader = .done →
    p.broken = true ∨ p.unread = [] ∧ p.closed = true

/-- What was published: `heard` of what was read, and `ending` behind it. -/
structure Books (p : Pty) (heard : List (List UInt8)) (ending : List PtyEvent) : Prop where
  said : p.said = p.spawned :: heard.map p.output ++ ending
  part : heard <+: p.taken
  hand : p.active = true → p.taken = heard ++ p.reader.inHand
  passing : ∀ chunk, p.reader = .publishing chunk → p.taken = heard ++ [chunk]
  open_ : p.waiter ≠ .done → ending = []
  gone : p.waiter = .done → p.released = true ∧ ending = [] ∨ ∃ event, ending = [event]
  whole : (∃ event, p.waiter = .publishing event) ∨ ending ≠ [] → p.expired = false →
    heard = p.taken
  /-- What ends the events is told of the process that was waited for. -/
  origin : ∀ event, p.waiter.event? = some event ∨ event ∈ ending → ∃ status,
    p.status = some status ∧ (event = p.exitEvent status ∨ ∃ message, event = p.failed message)

variable {heard : List (List UInt8)} {ending : List PtyEvent}

theorem Control.step (h : Control p) (hs : step p act = some p') : Control p' := by
  obtain ⟨hmuted, hapart, hearly, hsettled, hquiet, hdrained⟩ := h
  cases step_next hs with
  | write | close | terminate =>
    exact ⟨hmuted, hapart, hearly, hsettled, hquiet, by grind -linarith⟩
  | startReader | startWaiter | markReleased | markInactive => constructor <;> grind -linarith
  | read | readEnds | readLocks | readPasses | readSkips | readPublishes | readSignals =>
    constructor <;> grind -linarith
  | waitReturns | waitFlags | waitCleans | waitDrains | waitExpires | waitMutes | waitLocks
  | waitLeaves | waitPasses | waitPublishes => constructor <;> grind -linarith

theorem Books.step (h : Books p heard ending) (hc : Control p) (hs : step p act = some p') :
    ∃ heard' ending', Books p' heard' ending' := by
  obtain ⟨hsaid, hpart, hhand, hpassing, hopen, hgone, hwhole, horigin⟩ := h
  have hmuted := hc.muted
  have hsettled := hc.settled
  cases step_next hs with
  | write | close | terminate =>
    exact ⟨heard, ending, hsaid, hpart, hhand, hpassing, hopen, hgone, hwhole, horigin⟩
  | startReader | startWaiter | markReleased | markInactive =>
    refine ⟨heard, ending, hsaid, hpart, ?_, ?_, ?_, ?_, ?_, fun e he => horigin e ?_⟩
    all_goals grind -linarith
  | @read chunk unread hr hu =>
    refine ⟨heard, ending, hsaid, hpart.trans (List.prefix_append _ _), fun ha => ?_, ?_, hopen,
      hgone, fun hend he => ?_, horigin⟩
    · have htaken := hhand ha
      rw [hr] at htaken
      simpa [Reader.inHand] using htaken
    · grind -linarith
    · -- behind the wait for it, the reader does not read
      grind -linarith
  | readEnds | readLocks | readPasses | readSkips | readSignals =>
    refine ⟨heard, ending, hsaid, hpart, ?_, ?_, ?_, ?_, ?_, horigin⟩
    all_goals grind -linarith
  | @readPublishes chunk hr =>
    have hw : p.waiter ≠ .done := fun hw => hc.quiet hw chunk hr
    have htaken := hpassing chunk hr
    refine ⟨heard ++ [chunk], ending, ?_, htaken ▸ List.prefix_refl _, ?_, ?_, hopen, hgone, ?_,
      horigin⟩
    · rw [hopen hw, List.append_nil] at hsaid ⊢
      rw [hsaid, List.map_append]
      rfl
    all_goals grind -linarith
  | @waitReturns status hw =>
    refine ⟨heard, ending, hsaid, hpart, hhand, hpassing, ?_, ?_, ?_, fun e he => ?_⟩
    · grind -linarith
    · grind -linarith
    · grind -linarith
    · refine ⟨status, rfl, .inl ?_⟩
      have hnil := hopen (by rw [hw]; exact Waiter.noConfusion)
      have hevent : some (p.exitEvent status) = some e := by simpa [hnil, Waiter.event?] using he
      exact (Option.some.inj hevent).symm
  | @waitCleans os event next cleaned signals hw hnext hgroup =>
    refine ⟨heard, ending, hsaid, hpart, hhand, hpassing, ?_, ?_, ?_, fun e he => ?_⟩
    · grind -linarith
    · grind -linarith
    · grind -linarith
    · have hnil := hopen (by rw [hw]; exact Waiter.noConfusion)
      obtain rfl : next = e := by simpa [hnil, Waiter.event?] using he
      obtain ⟨status, hstatus, horigin⟩ := horigin event (.inl (by rw [hw]; rfl))
      refine ⟨status, hstatus, ?_⟩
      rcases hnext with rfl | hfailed
      · exact horigin
      · exact .inr hfailed
  | waitFlags | waitDrains | waitExpires | waitMutes | waitLocks | waitLeaves | waitPasses =>
    refine ⟨heard, ending, hsaid, hpart, ?_, ?_, ?_, ?_, ?_, fun e he => horigin e ?_⟩
    all_goals grind -linarith
  | @waitPublishes event hw =>
    have hnil := hopen (by rw [hw]; exact Waiter.noConfusion)
    refine ⟨heard, [event], ?_, hpart, hhand, hpassing, fun hne => absurd rfl hne,
      fun _ => .inr ⟨event, rfl⟩, fun _ he => hwhole (.inl ⟨event, hw⟩) he,
      fun e he => horigin e ?_⟩
    · rw [hsaid, hnil, List.append_nil]
      rfl
    · grind -linarith

/-- A group is signalled in one round at most, and then it counts as cleaned. -/
structure Clean (p : Pty) : Prop where
  quiet : p.cleaned = false → p.signals = []
  sounded : p.cleaned = true → p.signals ≠ []
  round : Round p.signals

theorem Clean.step (h : Clean p) (hs : step p act = some p') : Clean p' := by
  have hgroup : ∀ cleaned signals, Signalled p cleaned signals →
      (cleaned = false → signals = []) ∧ (cleaned = true → signals ≠ []) ∧ Round signals := by
    rintro cleaned signals (⟨rfl, rfl⟩ | ⟨hc, rfl, round, hround, hne, rfl⟩)
    · exact ⟨h.quiet, h.sounded, h.round⟩
    · rw [h.quiet hc]
      exact ⟨fun hfalse => absurd hfalse (by decide), fun _ => hne, hround⟩
  cases step_next hs with
  | terminate hsignalled | waitCleans _ _ hsignalled =>
    obtain ⟨hquiet, hsounded, hround⟩ := hgroup _ _ hsignalled
    exact ⟨hquiet, hsounded, hround⟩
  | _ => exact ⟨h.quiet, h.sounded, h.round⟩

/-! ## Behind the exit, and behind a release -/

/-- Nothing is published once the waiter is done. -/
theorem done_step (hc : Control p) (hw : p.waiter = .done) (hs : step p act = some p') :
    p'.waiter = .done ∧ p'.said = p.said := by
  have hquiet := hc.quiet hw
  cases step_next hs with
  | readPublishes hr => exact absurd hr (hquiet _)
  | _ => grind -linarith

/-- The callbacks that are running. -/
def Pty.inFlight (p : Pty) : ℕ :=
  (match p.reader with | .publishing _ => 1 | _ => 0) +
    match p.waiter with | .publishing _ => 1 | _ => 0

theorem inFlight_le (hc : Control p) : p.inFlight ≤ 1 := by
  have hapart := hc.apart
  unfold Pty.inFlight
  grind -linarith

/-- Behind a release, only the callback that was running is still to come. -/
theorem inFlight_step (hr : p.released = true) (ha : p.active = false)
    (hs : step p act = some p') :
    p'.released = true ∧ p'.active = false ∧
      ∃ last, p'.said = p.said ++ last ∧ last.length + p'.inFlight ≤ p.inFlight := by
  cases step_next hs with
  | readPublishes hp => exact ⟨hr, ha, [_], rfl, by simp [Pty.inFlight, hp]⟩
  | waitPublishes hp => exact ⟨hr, ha, [_], rfl, by grind -linarith [Pty.inFlight]⟩
  | _ => exact ⟨by grind -linarith, by grind -linarith, [], by grind -linarith [Pty.inFlight]⟩

theorem done_run (hc : Control p) (hw : p.waiter = .done) {acts : List Act}
    (hr : run step p acts = some p') : p'.said = p.said := by
  induction acts generalizing p with
  | nil => exact congrArg Pty.said (Option.some.inj hr).symm
  | cons act acts ih =>
    obtain ⟨q, hs, hr⟩ := Option.bind_eq_some_iff.mp hr
    obtain ⟨hdone, hsaid⟩ := done_step hc hw hs
    exact (ih (hc.step hs) hdone hr).trans hsaid

theorem inFlight_run (hr : p.released = true) (ha : p.active = false) {acts : List Act}
    (hrun : run step p acts = some p') :
    ∃ last, p'.said = p.said ++ last ∧ last.length ≤ p.inFlight := by
  induction acts generalizing p with
  | nil =>
    obtain rfl := Option.some.inj hrun
    exact ⟨[], (List.append_nil _).symm, Nat.zero_le _⟩
  | cons act acts ih =>
    obtain ⟨q, hs, hrun⟩ := Option.bind_eq_some_iff.mp hrun
    obtain ⟨hr', ha', last, hsaid, hle⟩ := inFlight_step hr ha hs
    obtain ⟨more, hmore, hle'⟩ := ih hr' ha' hrun
    refine ⟨last ++ more, by rw [hmore, hsaid, List.append_assoc], ?_⟩
    rw [List.length_append]
    omega

/-! ## The threads come to their end -/

/-- The acts of the two threads when reading does not fail, the end of the process among them. -/
def Act.ofThreads : Act → Bool
  | readEnds broken => !broken
  | read | readLocks | readChecks | readPublishes | readSignals | waitReturns _
  | waitFlags | waitCleans _ | waitDrains | waitMutes | waitLocks | waitChecks
  | waitPublishes => true
  | _ => false

/-- How many steps the waiter is from its end at most. -/
def Waiter.left : Waiter → ℕ
  | done => 0
  | publishing _ => 1
  | locked _ => 2
  | announcing _ => 3
  | expired _ => 4
  | draining _ => 5
  | flagged _ => 6
  | returned _ => 7
  | child => 8
  | waiting => 9

theorem unlock (p : Pty) : ∃ acts p', run step p acts = some p' ∧
    (∀ act ∈ acts, act.ofThreads = true) ∧ p'.reader.inside = false ∧ p'.waiter = p.waiter := by
  have hpublish : ∀ (q : Pty) (chunk : List UInt8), q.reader = .publishing chunk →
      run step q [.readPublishes] =
        some { q with reader := .reading, said := q.said ++ [q.output chunk] } :=
    fun q chunk hq => run_one (by simp only [step, hq])
  cases hr : p.reader with
  | publishing chunk =>
    exact ⟨_, { p with reader := .reading, said := p.said ++ [p.output chunk] },
      hpublish p chunk hr, by decide, rfl, rfl⟩
  | locked chunk =>
    cases ha : p.active with
    | true =>
      have hcheck : step p .readChecks = some { p with reader := .publishing chunk } := by
        simp only [step, hr]
        rw [if_pos ha]
      exact ⟨[.readChecks, .readPublishes], { p with
        reader := .reading, said := p.said ++ [p.output chunk] },
        run_append (run_one hcheck) (hpublish { p with reader := .publishing chunk } chunk rfl),
        by decide, rfl, rfl⟩
    | false =>
      have hcheck : step p .readChecks = some { p with reader := .reading } := by
        simp only [step, hr]
        rw [if_neg (by simp [ha])]
      exact ⟨[.readChecks], { p with reader := .reading }, run_one hcheck, by decide, rfl, rfl⟩
  | _ => exact ⟨[], p, rfl, by decide, by rw [hr]; rfl, rfl⟩

theorem advance (hw : p.waiter ≠ .waiting) (hdone : p.waiter ≠ .done) :
    ∃ acts p', run step p acts = some p' ∧ (∀ act ∈ acts, act.ofThreads = true) ∧
      p'.waiter.left < p.waiter.left := by
  have hone : ∀ act q, step p act = some q → act.ofThreads = true →
      q.waiter.left < p.waiter.left → ∃ acts p', run step p acts = some p' ∧
        (∀ act ∈ acts, act.ofThreads = true) ∧ p'.waiter.left < p.waiter.left :=
    fun act q hs hact hlt => ⟨[act], q, run_one hs, by simpa using hact, hlt⟩
  cases hwaiter : p.waiter with
  | waiting => exact absurd hwaiter hw
  | done => exact absurd hwaiter hdone
  | child =>
    rw [hwaiter] at hone
    exact hone (.waitReturns (.ok ⟨0, none⟩)) _ (if_pos hwaiter) rfl (by simp [Waiter.left])
  | returned event =>
    rw [hwaiter] at hone
    exact hone .waitFlags { p with waiter := .flagged event, processExited := true }
      (by simp only [step, hwaiter]) rfl (by simp [Waiter.left])
  | flagged event =>
    rw [hwaiter] at hone
    let os : Answers := ⟨.error .esrch, fun _ => .error .esrch, .error .esrch⟩
    have hclean : ∃ q next, step p (.waitCleans os) = some q ∧ q.waiter = .draining next := by
      simp only [step, hwaiter]
      split
      · exact ⟨_, _, rfl, rfl⟩
      · exact ⟨_, _, rfl, rfl⟩
    obtain ⟨q, next, hs, hq⟩ := hclean
    exact hone _ q hs rfl (by simp [hq, Waiter.left])
  | draining event =>
    rw [hwaiter] at hone
    by_cases hr : p.reader = .done
    · exact hone .waitDrains { p with waiter := .announcing event }
        (by simp only [step, hwaiter]; exact if_pos hr) rfl (by simp [Waiter.left])
    · exact hone .waitDrains { p with waiter := .expired event, expired := true }
        (by simp only [step, hwaiter]; exact if_neg hr) rfl (by simp [Waiter.left])
  | expired event =>
    rw [hwaiter] at hone
    exact hone .waitMutes { p with waiter := .announcing event, active := false }
      (by simp only [step, hwaiter]) rfl (by simp [Waiter.left])
  | announcing event =>
    obtain ⟨acts, q, hrun, hacts, hinside, hq⟩ := unlock p
    rw [hwaiter] at hq
    have hfree : q.free = true := by simp [Pty.free, hinside, hq, Waiter.inside]
    have hlock : step q .waitLocks = some { q with waiter := .locked event } := by
      simp only [step, hq]
      rw [if_pos hfree]
    refine ⟨acts ++ [.waitLocks], { q with waiter := .locked event },
      run_append hrun (run_one hlock), ?_, by simp [Waiter.left]⟩
    exact List.forall_mem_append.mpr ⟨hacts, by simp [Act.ofThreads]⟩
  | locked event =>
    rw [hwaiter] at hone
    by_cases hr : p.released = true
    · exact hone .waitChecks { p with waiter := .done }
        (by simp only [step, hwaiter]; rw [if_pos hr]) rfl (by simp [Waiter.left])
    · exact hone .waitChecks { p with waiter := .publishing event }
        (by simp only [step, hwaiter]; rw [if_neg hr]) rfl (by simp [Waiter.left])
  | publishing event =>
    rw [hwaiter] at hone
    exact hone .waitPublishes { p with waiter := .done, said := p.said ++ [event] }
      (by simp only [step, hwaiter]) rfl (by simp [Waiter.left])

/-- **The exit can always be announced**, by the two threads alone. -/
theorem finish (hw : p.waiter ≠ .waiting) :
    ∃ acts p', run step p acts = some p' ∧ (∀ act ∈ acts, act.ofThreads = true) ∧
      p'.waiter = .done := by
  induction hleft : p.waiter.left using Nat.strongRecOn generalizing p with
  | _ n ih =>
    by_cases hdone : p.waiter = .done
    · exact ⟨[], p, rfl, by simp, hdone⟩
    · obtain ⟨acts, q, hrun, hacts, hlt⟩ := advance hw hdone
      have hq : q.waiter ≠ .waiting := by
        intro hq
        rw [hq] at hlt
        exact absurd hlt (by cases p.waiter <;> simp [Waiter.left])
      obtain ⟨more, p', hrun', hmore, hend⟩ := ih _ (hleft ▸ hlt) hq rfl
      exact ⟨acts ++ more, p', run_append hrun hrun', List.forall_mem_append.mpr ⟨hacts, hmore⟩,
        hend⟩

/-- How many steps the reader is from its end at most, if nothing more is written. -/
def Pty.unheard (p : Pty) : ℕ :=
  4 * p.unread.length +
    match p.reader with
    | .done => 0
    | .ended => 1
    | .reading => 2
    | .publishing _ => 3
    | .locked _ => 4
    | .holding _ => 5
    | .waiting => 6

/-- The reader goes on, when the waiter is gone and nobody can write. -/
theorem hear (hw : p.waiter = .done) (hclosed : p.closed = true) (hr : p.reader ≠ .waiting)
    (hdone : p.reader ≠ .done) : ∃ act p', step p act = some p' ∧ act.ofThreads = true ∧
      p'.unheard < p.unheard ∧ p'.waiter = .done ∧ p'.closed = true ∧ p'.reader ≠ .waiting := by
  cases hreader : p.reader with
  | waiting => exact absurd hreader hr
  | done => exact absurd hreader hdone
  | ended =>
    exact ⟨.readSignals, { p with reader := .done }, if_pos hreader, rfl,
      by simp [Pty.unheard, hreader], hw, hclosed, by simp⟩
  | reading =>
    cases hunread : p.unread with
    | nil =>
      exact ⟨.readEnds false, { p with reader := .ended, broken := false },
        if_pos ⟨hreader, .inr ⟨hunread, hclosed⟩⟩, rfl,
        by simp [Pty.unheard, hreader, hunread], hw, hclosed, by simp⟩
    | cons chunk unread =>
      refine ⟨.read, { p with reader := .holding chunk, unread, taken := p.taken ++ [chunk] },
        by simp only [step, hreader, hunread], rfl, ?_, hw, hclosed, by simp⟩
      simp only [Pty.unheard, hreader, hunread, List.length_cons]
      omega
  | publishing chunk =>
    exact ⟨.readPublishes, { p with reader := .reading, said := p.said ++ [p.output chunk] },
      by simp only [step, hreader], rfl, by simp [Pty.unheard, hreader], hw, hclosed, by simp⟩
  | locked chunk =>
    refine ⟨.readChecks, { p with reader := if p.active then .publishing chunk else .reading },
      by simp only [step, hreader], rfl, ?_, hw, hclosed, ?_⟩
    · cases p.active <;> simp [Pty.unheard, hreader]
    · cases p.active <;> simp
  | holding chunk =>
    have hfree : p.free = true := by simp [Pty.free, hreader, hw, Reader.inside, Waiter.inside]
    exact ⟨.readLocks, { p with reader := .locked chunk },
      by simp only [step, hreader]; exact if_pos hfree, rfl, by simp [Pty.unheard, hreader], hw,
      hclosed, by simp⟩

/-- **The reader comes to its end** behind the waiter, once nobody can write. -/
theorem drain (hw : p.waiter = .done) (hclosed : p.closed = true) (hr : p.reader ≠ .waiting) :
    ∃ acts p', run step p acts = some p' ∧ (∀ act ∈ acts, act.ofThreads = true) ∧
      p'.reader = .done ∧ p'.waiter = .done := by
  induction hleft : p.unheard using Nat.strongRecOn generalizing p with
  | _ n ih =>
    by_cases hdone : p.reader = .done
    · exact ⟨[], p, rfl, by simp, hdone, hw⟩
    · obtain ⟨act, q, hs, hact, hlt, hqw, hqclosed, hqr⟩ := hear hw hclosed hr hdone
      obtain ⟨acts, p', hrun, hacts, hends⟩ := ih _ (hleft ▸ hlt) hqw hqclosed hqr rfl
      exact ⟨act :: acts, p', run_append (run_one hs) hrun, List.forall_mem_cons.mpr ⟨hact, hacts⟩,
        hends⟩

theorem opened_run {acts : List Act} (hclosed : p.closed = true) (hr : p.reader ≠ .waiting)
    (hrun : run step p acts = some p') : p'.closed = true ∧ p'.reader ≠ .waiting := by
  induction acts generalizing p with
  | nil =>
    obtain rfl := Option.some.inj hrun
    exact ⟨hclosed, hr⟩
  | cons act acts ih =>
    obtain ⟨q, hs, hrun⟩ := Option.bind_eq_some_iff.mp hrun
    have hq : q.closed = true ∧ q.reader ≠ .waiting := by
      cases step_next hs
      all_goals grind -linarith
    exact ih hq.1 hq.2 hrun

/-- **Both threads can always come to their end**: the waiter whatever the reader does, and the
reader once nobody can write. -/
theorem finish_both (hw : p.waiter ≠ .waiting) :
    ∃ acts p', run step p acts = some p' ∧ (∀ act ∈ acts, act.ofThreads = true) ∧
      p'.waiter = .done ∧ (p.closed = true → p.reader ≠ .waiting → p'.reader = .done) := by
  obtain ⟨acts, q, hrun, hacts, hq⟩ := finish hw
  by_cases hends : p.closed = true ∧ p.reader ≠ .waiting
  · obtain ⟨hclosed, hr⟩ := opened_run hends.1 hends.2 hrun
    obtain ⟨more, p', hrun', hmore, hreader, hwaiter⟩ := drain hq hclosed hr
    exact ⟨acts ++ more, p', run_append hrun hrun', List.forall_mem_append.mpr ⟨hacts, hmore⟩,
      hwaiter, fun _ _ => hreader⟩
  · exact ⟨acts, q, hrun, hacts, hq, fun hclosed hr => absurd ⟨hclosed, hr⟩ hends⟩

/-! ## The events of a process -/

/-- What is told of a process, now and later. -/
structure Ordered (p : Pty) : Prop where
  /-- A start, the first chunks read of its output, and one end, behind which nothing is told. -/
  bracketed : ∃ heard ending, p.said = p.spawned :: heard.map p.output ++ ending ∧
    heard <+: p.taken ∧
    (ending = [] ∨ ∃ event status, ending = [event] ∧ p.status = some status ∧
      (event = p.exitEvent status ∨ ∃ message, event = p.failed message) ∧
      ∀ acts p', run step p acts = some p' → p'.said = p.said) ∧
    -- all of the output, unless the reader took too long
    (ending ≠ [] → p.expired = false →
      heard = p.taken ∧ (p.broken = true ∨ p.unread = [] ∧ p.closed = true)) ∧
    (p.waiter = .done → p.released = true ∨ ending ≠ [])
  /-- A release lets one callback through at most. -/
  muted : p.released = true → p.active = false → ∀ acts p', run step p acts = some p' →
    ∃ last, p'.said = p.said ++ last ∧ last.length ≤ 1
  /-- The threads cannot keep each other from the end, and the reader gets there once nobody can
  write. -/
  ends : p.waiter ≠ .waiting → ∃ acts p', run step p acts = some p' ∧
    (∀ act ∈ acts, act.ofThreads = true) ∧ p'.waiter = .done ∧
    (p.closed = true → p.reader ≠ .waiting → p'.reader = .done)
  signals : Round p.signals

theorem Ordered.of_books (hc : Control p) (hb : Books p heard ending) (hs : Clean p) :
    Ordered p where
  bracketed := by
    refine ⟨heard, ending, hb.said, hb.part, ?_, fun hne he => ?_, fun hw => ?_⟩
    · by_cases hnil : ending = []
      · exact .inl hnil
      · have hw : p.waiter = .done := by
          by_contra hw
          exact hnil (hb.open_ hw)
        rcases hb.gone hw with ⟨-, hnil'⟩ | ⟨event, rfl⟩
        · exact absurd hnil' hnil
        · obtain ⟨status, hstatus, horigin⟩ := hb.origin event (.inr List.mem_cons_self)
          exact .inr ⟨event, status, rfl, hstatus, horigin, fun acts p' => done_run hc hw⟩
    · have hw : p.waiter = .done := by
        by_contra hw
        exact hne (hb.open_ hw)
      refine ⟨hb.whole (.inr hne) he, hc.drained (.inr ?_)⟩
      have hsettled := hc.settled (by rw [hw]; rfl)
      simpa [he] using hsettled
    · rcases hb.gone hw with ⟨hr, -⟩ | ⟨event, rfl⟩
      · exact .inl hr
      · exact .inr (List.cons_ne_nil _ _)
  muted := fun hr ha acts p' hrun => by
    obtain ⟨last, hsaid, hle⟩ := inFlight_run hr ha hrun
    exact ⟨last, hsaid, Nat.le_trans hle (inFlight_le hc)⟩
  ends := finish_both
  signals := hs.round

/-- What holds of a process in every state. -/
structure Kept (p : Pty) : Prop where
  control : Control p
  books : ∃ heard ending, Books p heard ending
  clean : Clean p

theorem Kept.start (terminal : TerminalId) (generation : TerminalGeneration)
    (processId : Option ℕ) (processGroup : Option Int) :
    Kept (.start terminal generation processId processGroup) := by
  refine ⟨?_, ⟨[], [], ?_⟩, ?_⟩
  · constructor <;> simp [Pty.start, Reader.inside, Waiter.settled]
  · constructor <;> simp [Pty.start, Pty.spawned, Reader.inHand, Waiter.event?]
  · exact ⟨fun _ => rfl, fun hc => absurd hc Bool.false_ne_true, .inl rfl⟩

theorem Kept.step (h : Kept p) (hs : step p act = some p') : Kept p' := by
  obtain ⟨heard, ending, hbooks⟩ := h.books
  exact ⟨h.control.step hs, hbooks.step h.control hs, h.clean.step hs⟩

/-- **The events of a process**, whatever the threads do. -/
theorem Kept.ordered (h : Kept p) : Ordered p := by
  obtain ⟨heard, ending, hbooks⟩ := h.books
  exact .of_books h.control hbooks h.clean

theorem step_said (hs : Terminal.step p act = some p') :
    p'.terminal = p.terminal ∧ p'.generation = p.generation ∧ p.said <+: p'.said := by
  cases step_next hs with
  | readPublishes | waitPublishes => exact ⟨rfl, rfl, List.prefix_append _ _⟩
  | _ => exact ⟨rfl, rfl, List.prefix_refl _⟩

end Terminal

end Termesh
