import Mathlib.Tactic.Common

/-!
# Identifiers

Typed identifiers around a counter, one type for each kind of thing named. Counters are unbounded
here; the source's are 64-bit.
-/

namespace Termesh

/-- An open document. -/
structure BufferId where
  val : ℕ
deriving DecidableEq, Repr

/-- An edit awaiting review. -/
structure ProposalId where
  val : ℕ
deriving DecidableEq, Repr

/-- A conversation with the agent. `0` is reserved for a session that could not be resolved. -/
structure SessionId where
  val : ℕ
deriving DecidableEq, Repr

/-- A `session/request_permission` call awaiting its answer. -/
structure PermissionRequestId where
  val : ℕ
deriving DecidableEq, Repr

/-- A `terminal/*` call awaiting its answer. -/
structure AgentTerminalRequestId where
  val : ℕ
deriving DecidableEq, Repr

/-- A `fs/read_text_file` call awaiting its answer. -/
structure ReadRequestId where
  val : ℕ
deriving DecidableEq, Repr

/-- A retained terminal tab. -/
structure TerminalId where
  val : ℕ
deriving DecidableEq, Repr

/-- One process of a terminal tab; a restart starts the next generation. -/
structure TerminalGeneration where
  val : ℕ
deriving DecidableEq, Repr

/-- A node of the explorer's tree. -/
structure NodeId where
  val : ℕ
deriving DecidableEq, Repr

end Termesh
