import Termesh.Core.Agent
import Termesh.Editor.Search

/-!
# Answering a review

* `wholeFileFromPermissionDiff`: a permission's diff as the whole text it leaves, if it fits the
  buffer in exactly one place;
* `permissionForReview`: what the agent is told of a review.
-/

namespace Termesh

/-- Why a permission's diff could not be placed in the buffer. -/
inductive AnchorFailure where
  | notFound
  | ambiguous
deriving DecidableEq, Repr

/-- The text the buffer would have if the edit were applied. -/
def wholeFileFromPermissionDiff (current oldText newText : Text) : Except AnchorFailure Text :=
  if oldText = current then .ok newText
  else if oldText = [] then .error .ambiguous
  else
    match matchIndices oldText current 0 0 with
    | [] => .error .notFound
    | [start] => .ok (current.take start ++ newText ++ current.drop (start + oldText.length))
    | _ => .error .ambiguous

/-- There is no partial accept: anything less than the whole proposal is a rejection. -/
def permissionForReview (accepted total : ℕ) : PermissionDecision :=
  if 0 < total ∧ accepted = total then .allowOnce else .rejectOnce

end Termesh
