import Termesh.Core.Ids
import Termesh.Editor.Change

/-!
# Styled overlays on buffer text

* `ConflictReason.fromEffect`: what a change to a hunk's range means for its review;
* `DecorationSet`: syntax, diagnostics, agent hunks and search matches as character ranges,
  carried through every change by `map`.
-/

namespace Termesh

/-- Why a proposal hunk could not be carried forward. -/
inductive ConflictReason where
  | editedInsideRange
  | anchorDeleted
deriving DecidableEq, Repr

/-- The conflict implied by what a change did to a hunk's range. -/
def ConflictReason.fromEffect : RangeEffect → Option ConflictReason
  | .untouched => none
  | .insertedInside => some .editedInsideRange
  | .partlyDeleted => some .anchorDeleted

/-- Whether a proposal hunk can still be applied. -/
inductive HunkState where
  | clean
  | conflicted (reason : ConflictReason)
  | satisfied
deriving DecidableEq, Repr

/-- Only clean hunks apply. -/
def HunkState.isApplicable (s : HunkState) : Bool := s == .clean

/-- How severe a diagnostic is. -/
inductive Severity where
  | error | warning | info | hint
deriving DecidableEq, Repr

/-- The kinds of tokens. -/
inductive SyntaxKind where
  | keyword | stringLit | comment | number | type | function
deriving DecidableEq, Repr

/-- The side of a change. -/
inductive HunkSide where
  | removed | added
deriving DecidableEq, Repr

/-- What a decoration is for. -/
inductive DecorationClass where
  | syntaxSpan (kind : SyntaxKind)
  | diagnostic (severity : Severity)
  | hunk (proposal : ProposalId) (side : HunkSide) (state : HunkState)
  | match (current : Bool)
deriving DecidableEq, Repr

/-- One overlay. -/
structure Decoration where
  start : ℕ
  stop : ℕ
  cls : DecorationClass
deriving DecidableEq, Repr

/-- The proposal a decoration belongs to. -/
def Decoration.owner (d : Decoration) : Option ProposalId :=
  match d.cls with
  | .hunk p _ _ => some p
  | _ => none

/-- The overlays of one buffer, in the order they were pushed. -/
abbrev DecorationSet := List Decoration

namespace DecorationSet

/-- Without the syntax. -/
def clearSyntax (ds : DecorationSet) : DecorationSet :=
  ds.filter fun d => match d.cls with | .syntaxSpan _ => false | _ => true

/-- Without the matches. -/
def clearMatches (ds : DecorationSet) : DecorationSet :=
  ds.filter fun d => match d.cls with | .match _ => false | _ => true

/-- Without the diagnostics. -/
def clearDiagnostics (ds : DecorationSet) : DecorationSet :=
  ds.filter fun d => match d.cls with | .diagnostic _ => false | _ => true

/-- Without the hunks of a proposal. -/
def removeProposal (ds : DecorationSet) (proposal : ProposalId) : DecorationSet :=
  ds.filter fun d => match d.cls with | .hunk p _ _ => p != proposal | _ => true

/-- One decoration through a change: hunks conflict, derived spans vanish once touched. -/
def mapOne (changes : ChangeSet) (d : Decoration) : Option Decoration :=
  let effect := changes.touches d.start d.stop
  let moved (cls : DecorationClass) : Decoration :=
    ⟨changes.mapPos d.start .after, changes.mapPos d.stop .after, cls⟩
  match d.cls with
  | .hunk p side state =>
    match ConflictReason.fromEffect effect with
    | some reason => some (moved (.hunk p side (.conflicted reason)))
    | none => some (moved (.hunk p side state))
  | cls => if effect = .untouched then some (moved cls) else none

/-- Carry the overlays through a change. -/
def map (ds : DecorationSet) (changes : ChangeSet) : DecorationSet :=
  ds.filterMap (mapOne changes)

/-! ## Hunks -/

/-- The decorations that are hunks. -/
def hunks (ds : DecorationSet) : List Decoration := ds.filter (·.owner.isSome)

@[simp] theorem hunks_append (ds es : DecorationSet) : hunks (ds ++ es) = ds.hunks ++ es.hunks :=
  List.filter_append ..

theorem hunks_filter {ds : DecorationSet} {f : Decoration → Bool}
    (hf : ∀ d : Decoration, d.owner.isSome → f d = true) : hunks (ds.filter f) = ds.hunks := by
  rw [hunks, hunks, List.filter_filter]
  refine List.filter_congr fun d _ => ?_
  cases ho : d.owner.isSome with
  | false => rfl
  | true => rw [hf d ho, Bool.and_true]

theorem hunks_eq_nil {ds : DecorationSet} (h : ∀ d ∈ ds, d.owner = none) : hunks ds = [] :=
  List.filter_eq_nil_iff.mpr fun d hd => by rw [h d hd]; exact Bool.false_ne_true

@[simp] theorem hunks_clearSyntax (ds : DecorationSet) : ds.clearSyntax.hunks = ds.hunks := by
  refine hunks_filter fun d hd => ?_
  unfold Decoration.owner at hd
  split at hd <;> simp_all

@[simp] theorem hunks_clearMatches (ds : DecorationSet) : ds.clearMatches.hunks = ds.hunks := by
  refine hunks_filter fun d hd => ?_
  unfold Decoration.owner at hd
  split at hd <;> simp_all

@[simp] theorem hunks_clearDiagnostics (ds : DecorationSet) :
    ds.clearDiagnostics.hunks = ds.hunks := by
  refine hunks_filter fun d hd => ?_
  unfold Decoration.owner at hd
  split at hd <;> simp_all

theorem mem_removeProposal {ds : DecorationSet} {p : ProposalId} {d : Decoration} :
    d ∈ ds.removeProposal p ↔ d ∈ ds ∧ d.owner ≠ some p := by
  rw [removeProposal, List.mem_filter, and_congr_right_iff]
  intro _
  rw [Decoration.owner]
  cases d.cls <;> simp

/-- **A change carries every decoration along with its owner.** -/
theorem owner_of_mem_map {ds : DecorationSet} {cs : ChangeSet} {d : Decoration} (hd : d ∈ ds.map cs) :
    ∃ e ∈ ds, e.owner = d.owner := by
  obtain ⟨e, he, hx⟩ := List.mem_filterMap.mp hd
  refine ⟨e, he, ?_⟩
  unfold mapOne at hx
  dsimp only at hx
  split at hx
  · rename_i p side state hcls
    split at hx <;> rw [← Option.some.inj hx, Decoration.owner, Decoration.owner, hcls]
  · rename_i hcls
    split_ifs at hx
    rw [← Option.some.inj hx]
    rfl

end DecorationSet

end Termesh
