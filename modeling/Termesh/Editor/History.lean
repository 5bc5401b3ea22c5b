import Termesh.Editor.Transaction

/-!
# The undo log

Two stacks of recorded edits, both kept newest first: `applied`, and `undone`, whose head is the
next edit to redo. `undo` and `redo` move a whole group from one stack to the other and hand back
one composed change set; they are one loop that reads different halves of an entry.
-/

namespace Termesh

/-- A recorded edit with the inverse computed when it was applied. -/
structure Entry where
  group : UndoGroupId
  forward : ChangeSet
  inverse : ChangeSet
deriving DecidableEq

/-- The linear undo log. -/
structure History where
  applied : List Entry := []
  undone : List Entry := []
  nextGroup : ℕ := 0
  lastSource : Option EditSource := none
  groupBroken : Bool := false
deriving DecidableEq

namespace History

/-- The undo group a new edit from `source` belongs to. -/
def groupFor (h : History) (source : EditSource) : History × UndoGroupId :=
  match h.applied with
  | e :: _ =>
    if !h.groupBroken && source.coalesces && h.lastSource == some source then (h, e.group)
    else ({ h with nextGroup := h.nextGroup + 1 }, h.nextGroup + 1)
  | [] => ({ h with nextGroup := h.nextGroup + 1 }, h.nextGroup + 1)

/-- End the current undo group. -/
def breakGroup (h : History) : History := { h with groupBroken := true }

/-- Record a transaction that has just been applied. -/
def push (h : History) (t : EditTransaction) (inverse : ChangeSet) : History :=
  if t.isEmpty then h
  else
    { h with
      undone := []
      groupBroken := false
      lastSource := some t.source
      applied := ⟨t.undoGroup, t.changes, inverse⟩ :: h.applied }

def canUndo (h : History) : Bool := !h.applied.isEmpty

def canRedo (h : History) : Bool := !h.undone.isEmpty

/-- Fold one more change into an accumulated one. -/
def accumulate (acc : Option ChangeSet) (c : ChangeSet) : Option ChangeSet :=
  match acc with
  | none => some c
  | some a => a.compose c

/-- The loop of `undo` and `redo`: while the head of `src` belongs to `group`, move it to `dst` and
compose `pick` of it onto `acc`. `none` is a panic in `compose`. -/
def shiftGroup (pick : Entry → ChangeSet) (group : UndoGroupId) :
    List Entry → List Entry → Option ChangeSet →
      Option (List Entry × List Entry × Option ChangeSet)
  | [], dst, acc => some ([], dst, acc)
  | e :: src, dst, acc =>
    if e.group = group then
      (accumulate acc (pick e)).bind fun c => shiftGroup pick group src (e :: dst) (some c)
    else some (e :: src, dst, acc)

/-- The change that undoes the most recent group. The inner `none` is the start of history. -/
def undo (h : History) : Option (History × Option ChangeSet) :=
  match h.applied with
  | [] => some (h, none)
  | e :: _ =>
    (shiftGroup Entry.inverse e.group h.applied h.undone none).map fun (applied, undone, c) =>
      ({ h with applied, undone, groupBroken := true, lastSource := none }, c)

/-- The change that reapplies the most recently undone group. -/
def redo (h : History) : Option (History × Option ChangeSet) :=
  match h.undone with
  | [] => some (h, none)
  | e :: _ =>
    (shiftGroup Entry.forward e.group h.undone h.applied none).map fun (undone, applied, c) =>
      ({ h with applied, undone, groupBroken := true, lastSource := none }, c)

end History

end Termesh
