import Termesh.Core.Ids
import Termesh.Core.Path

/-!
# Terminal vocabulary

What the model exchanges with the PTY worker and, through it, with an agent that asked for a
terminal.
-/

namespace Termesh

/-- A structured command. -/
structure TerminalSpec where
  program : String
  args : List String
  cwd : Path
  env : List (String × String)
deriving DecidableEq, Repr

/-- The size of a terminal in cells. -/
structure TerminalSize where
  rows : ℕ
  cols : ℕ
deriving DecidableEq, Repr

/-- Who a terminal was started for. -/
inductive TerminalOwner where
  | humanShell
  | humanCommand
  | agent (session : SessionId)
deriving DecidableEq, Repr

/-- How a process ended: by a code or by a signal. -/
structure TerminalExit where
  code : Option ℕ
  signal : Option String
deriving DecidableEq, Repr

/-- The life of a terminal's process, as far as the model knows. -/
inductive TerminalStatus where
  | starting
  | running (processId : Option ℕ)
  | exited (exit : TerminalExit)
  | failed (message : String)
deriving DecidableEq, Repr

/-- What the model asks of the PTY worker. -/
inductive PtyRequest where
  | spawn (terminal : TerminalId) (generation : TerminalGeneration) (spec : TerminalSpec)
      (size : TerminalSize)
  | write (terminal : TerminalId) (generation : TerminalGeneration) (bytes : List UInt8)
  | resize (terminal : TerminalId) (generation : TerminalGeneration) (size : TerminalSize)
  | kill (terminal : TerminalId) (generation : TerminalGeneration)
  | release (terminal : TerminalId) (generation : TerminalGeneration)
deriving DecidableEq, Repr

/-- What the PTY worker tells the model. -/
inductive PtyEvent where
  | spawned (terminal : TerminalId) (generation : TerminalGeneration) (processId : Option ℕ)
  | output (terminal : TerminalId) (generation : TerminalGeneration) (bytes : List UInt8)
  | exited (terminal : TerminalId) (generation : TerminalGeneration) (exit : TerminalExit)
  | failed (terminal : TerminalId) (generation : TerminalGeneration) (message : String)
deriving DecidableEq, Repr

/-- What an agent asks of its terminals. -/
inductive AgentTerminalOperation where
  | create (spec : TerminalSpec) (outputByteLimit : ℕ) (preauthorized : Bool)
  | output (terminal : TerminalId)
  | waitForExit (terminal : TerminalId)
  | kill (terminal : TerminalId)
  | release (terminal : TerminalId)
deriving DecidableEq, Repr

/-- What an agent is answered about its terminals. -/
inductive AgentTerminalResponse where
  | created (terminal : TerminalId)
  | output (output : String) (truncated : Bool) (exit : Option TerminalExit)
  | exited (exit : TerminalExit)
  | acknowledged
  | error (message : String)
deriving DecidableEq, Repr

end Termesh
