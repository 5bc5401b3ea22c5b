import Termesh.Core.Path
import Termesh.Core.Ids

/-!
# Task vocabulary

A task is a command with a name of its own, and its output is decoded for problems.
-/

namespace Termesh

/-- A task, its program and its directory. -/
structure TaskSpec where
  id : String
  label : String
  program : String
  args : List String
  cwd : Path
deriving DecidableEq, Repr

/-- Who ran the task. -/
inductive TaskOrigin where
  | human
  | agent (session : SessionId)
deriving DecidableEq, Repr

/-- How far a run of a task is. -/
inductive TaskStatus where
  | starting
  | running
  | succeeded
  | failed
  | cancelled
deriving DecidableEq, Repr

/-- The task's process may still be there. -/
def TaskStatus.isActive : TaskStatus → Bool
  | .starting | .running => true
  | _ => false

/-- How severe a problem is. -/
inductive ProblemSeverity where
  | error
  | warning
deriving DecidableEq, Repr

/-- A problem that a tool reported, at a place in a file. -/
structure Problem where
  path : Path
  line : ℕ
  column : ℕ
  severity : ProblemSeverity
  message : String
deriving DecidableEq, Repr

/-- What is shown of an output, and the problems in it. -/
structure DecodedTaskOutput where
  display : List UInt8 := []
  problems : List Problem := []
deriving DecidableEq, Repr

/-- The adapters: which decoder a task has, and what a decoder makes of its output. `δ` is the state
of a decoder, with the bytes it has not decoded yet. -/
structure TaskService (δ : Type) where
  decoder : TaskSpec → Option δ
  push : δ → List UInt8 → δ × DecodedTaskOutput
  finish : δ → δ × DecodedTaskOutput

/-- Decode what a process wrote, or its end. Without a decoder everything is shown as it is. -/
def TaskService.decode {δ : Type} (σ : TaskService δ) :
    Option δ → Option (List UInt8) → Option δ × DecodedTaskOutput
  | none, bytes => (none, { display := bytes.getD [] })
  | some decoder, some bytes => ((σ.push decoder bytes).map some id)
  | some decoder, none => ((σ.finish decoder).map some id)

end Termesh
