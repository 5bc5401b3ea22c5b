import Termesh.Core.Ids
import Termesh.Editor.Selection

/-!
# Transactions

A change to one buffer, stamped with the revision it was authored against, the undo group it
belongs to and where it came from.
-/

namespace Termesh

/-- Monotonic buffer revision. -/
abbrev Version := ℕ

/-- Transactions that undo together. -/
abbrev UndoGroupId := ℕ

/-- Where an edit came from. -/
inductive EditSource where
  | keyboard
  | paste
  | formatter
  | lsp
  | agent (proposal : ProposalId)
  | replace
deriving DecidableEq, Repr

/-- Only free-running typing merges into one undo step. -/
def EditSource.coalesces (s : EditSource) : Bool := s == .keyboard

structure EditTransaction where
  buffer : BufferId
  baseVersion : Version
  changes : ChangeSet
  source : EditSource
  undoGroup : UndoGroupId
  /-- Where the cursor should end up; `none` maps the current selection. -/
  selection : Option Selection
deriving DecidableEq

/-- Whether this transaction changes nothing. -/
def EditTransaction.isEmpty (t : EditTransaction) : Bool := t.changes.isIdentity

end Termesh
