import Termesh.Lsp.Correlation

/-!
# A language-server session

The thread behind one server: it starts a process, connects to it through a translator of its own,
and starts another when the process goes away. Requests wait in one inbox for whichever process is
there.

* `Process`, `Stage`, `Session`: the process there is, those there were, and the inbox;
* `connect`, `request`, `message`: the arms of `run_connection`;
* `lose`, `respawn`: what `supervise` does behind it;
* `Session.step`: one deed of the thread, with the events it publishes.

Bytes come as the messages they decode to, at any time; those of a process that is gone are dropped.
The server's log is left out.
-/

namespace Termesh

namespace Lsp

/-- A process, as the session sees it. -/
structure Process where
  translator : Translator
  /-- What was written to it, with the request each message stands for. -/
  sent : List (Option LspRequest × Message)

/-- How far a session is with its process. -/
inductive Stage where
  /-- There is a process, and no connection to it yet. -/
  | spawned
  | running (p : Process)
  /-- The process went away, and another is to be started. -/
  | down
  | ended

structure Session where
  root : Path
  initializationOptions : Option String
  inbox : List LspRequest := []
  stage : Stage := .spawned
  restarts : ℕ := 0
  /-- The processes that went away, as they were left. -/
  past : List Process := []

def maxRestarts : ℕ := 3

/-- A failure that belongs to no request. -/
def transportFailure (message : String) : LspEvent := .failed none ⟨.transport, message⟩

/-- What makes a session give up its process. -/
def isHandshakeFailure : LspEvent → Bool
  | .failed _ failure => failure.kind = .handshake
  | _ => false

/-- The messages a server's message is met with, each with its request; those the session writes on
its own come first. -/
def Translator.letters (t : Translator) (message : Message) (replies : List Message) :
    List (Option LspRequest × Message) :=
  let told := (t.released message).flatMap fun e => e.2.map (some e.1, ·)
  (replies.take (replies.length - told.length)).map (none, ·) ++ told

namespace Session

/-- The end of a connection that is not to be followed by another. -/
def finish (s : Session) (p : Process) : Session := { s with stage := .ended, past := s.past ++ [p] }

/-- The process went away. -/
def lose (s : Session) (p : Process) (code : Option Int) : Session × List LspEvent :=
  if maxRestarts ≤ s.restarts then
    (s.finish p, [.exited code,
      .unavailable "language server exited repeatedly; automatic restart stopped"])
  else ({ s with stage := .down, past := s.past ++ [p] }, [.exited code])

/-- Begin a connection. `written` says whether the process took the message. -/
def connect (j : Json) (s : Session) (written : Bool) (code : Option Int) :
    Session × List LspEvent :=
  match Translator.initializeWith j {} s.root s.initializationOptions with
  | .error failure => ({ s with stage := .ended }, [.started, .failed none failure])
  | .ok (translator, message) =>
    let p : Process := { translator, sent := [(none, message)] }
    if written then ({ s with stage := .running p }, [.started])
    else
      let (s, events) := s.lose p code
      (s, [.started, transportFailure "could not reach language server"] ++ events)

/-- Take the next request of the inbox to the process. -/
def request (s : Session) (p : Process) (r : LspRequest) (written : Bool) (code : Option Int) :
    Session × List LspEvent :=
  let (translator, messages) := p.translator.outgoing r
  let p : Process := { translator, sent := p.sent ++ messages.map (some r, ·) }
  if r = .shutdown then
    (s.finish { p with sent := p.sent ++ [(none, .notification "exit" .null)] }, [])
  else if written || messages.isEmpty then ({ s with stage := .running p }, [])
  else
    let (s, events) := s.lose p code
    (s, transportFailure "language server stopped listening" :: events)

/-- Absorb a message of the process. -/
def message (j : Json) (s : Session) (p : Process) (message : Message) (written : Bool)
    (code : Option Int) : Session × List LspEvent :=
  let (translator, events, replies) := p.translator.incoming j message
  let p : Process := { translator, sent := p.sent ++ p.translator.letters message replies }
  if written || replies.isEmpty then
    (if events.any isHandshakeFailure then s.finish p else { s with stage := .running p }, events)
  else
    let (s, lost) := s.lose p code
    (s, events ++ transportFailure "language server stopped listening" :: lost)

/-- Start another process, or say why there is none. -/
def respawn (s : Session) (error : Option String) : Session × List LspEvent :=
  match error with
  | none => ({ s with stage := .spawned, restarts := s.restarts + 1 }, [])
  | some error =>
    ({ s with stage := .ended, restarts := s.restarts + 1 },
      [transportFailure ("could not restart server: " ++ error)])

end Session

/-- What a session's thread comes to next. `code` is the status of a process found gone. -/
inductive Deed where
  | connect (written : Bool) (code : Option Int)
  | request (written : Bool) (code : Option Int)
  | message (message : Message) (written : Bool) (code : Option Int)
  | disconnected (code : Option Int)
  | respawn (error : Option String)

/-- One deed, with the events it publishes. `none` where the thread is not that far. -/
def Session.step (j : Json) (s : Session) : Deed → Option (Session × List LspEvent)
  | .connect written code =>
    match s.stage with
    | .spawned => some (s.connect j written code)
    | _ => none
  | .request written code =>
    match s.stage, s.inbox with
    | .running p, r :: inbox => some ({ s with inbox }.request p r written code)
    | _, _ => none
  | .message message written code =>
    match s.stage with
    | .running p => some (s.message j p message written code)
    | _ => none
  | .disconnected code =>
    match s.stage with
    | .running p => some (s.lose p code)
    | _ => none
  | .respawn error =>
    match s.stage with
    | .down => some (s.respawn error)
    | _ => none

end Lsp

end Termesh
