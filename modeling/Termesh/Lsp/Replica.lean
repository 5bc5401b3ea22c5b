import Termesh.Editor.Reading
import Termesh.Lsp.Stream

/-!
# A server of the protocol

What a server makes of its requests, as the protocol has it: positions are read on the protocol's
lines, versions only grow, and only an open document is changed or closed.

* `Replica`, `hear`, `hearAll`: the documents of a server, and the newest version it was told;
* **`versions_increase`**: between two starts the versions it was told increase.
-/

namespace Termesh

namespace Lsp

/-- The documents a server holds, and the newest version it was told. -/
structure Replica where
  docs : Docs
  version : ℕ

/-- A document after a change of it, or of a part. -/
def patched (old : Text) (range : Option TextRange) (new : Text) : Text :=
  match range with
  | some r => lspSplice old (r.start.line, r.start.character) (r.stop.line, r.stop.character) new
  | none => new

/-- A server after a request to it, if it has a process. A request that breaks the protocol is not
heard. -/
def hear : Option Replica → LspRequest → Option (Option Replica)
  | _, .start .. => some (some ⟨Docs.nothing, 0⟩)
  | _, .shutdown => some none
  | some r, .didOpen path _ version text =>
    if r.version < version ∧ r.docs path = none then
      some (some ⟨Function.update r.docs path (some text), version⟩)
    else none
  | some r, .didChange path version range new =>
    if r.version < version then
      (r.docs path).map fun old =>
        some ⟨Function.update r.docs path (some (patched old range new)), version⟩
    else none
  | some r, .didClose path =>
    (r.docs path).map fun _ => some { r with docs := Function.update r.docs path none }
  | none, .didOpen .. | none, .didChange .. | none, .didClose .. => none
  | x, _ => some x

def hearAll (x : Option Replica) (rs : List LspRequest) : Option (Option Replica) := rs.foldlM hear x

@[simp] theorem hearAll_nil (x : Option Replica) : hearAll x [] = some x := rfl

theorem hearAll_cons (x : Option Replica) (r : LspRequest) (rs : List LspRequest) :
    hearAll x (r :: rs) = (hear x r).bind fun y => hearAll y rs := rfl

theorem hearAll_append (x : Option Replica) (rs rs' : List LspRequest) :
    hearAll x (rs ++ rs') = (hearAll x rs).bind fun y => hearAll y rs' := List.foldlM_append

theorem hear_didOpen {r : Replica} {path : Path} {version : ℕ} (hv : r.version < version)
    (hd : r.docs path = none) (language : String) (text : Text) :
    hear (some r) (.didOpen path language version text) =
      some (some ⟨Function.update r.docs path (some text), version⟩) := by
  rw [hear, if_pos ⟨hv, hd⟩]

theorem hear_didChange {r : Replica} {path : Path} {version : ℕ} {old : Text}
    (hv : r.version < version) (hd : r.docs path = some old) (range : Option TextRange) (new : Text) :
    hear (some r) (.didChange path version range new) =
      some (some ⟨Function.update r.docs path (some (patched old range new)), version⟩) := by
  rw [hear, if_pos hv, hd]
  rfl

theorem hear_didClose {r : Replica} {path : Path} {old : Text} (hd : r.docs path = some old) :
    hear (some r) (.didClose path) =
      some (some { r with docs := Function.update r.docs path none }) := by
  rw [hear, hd]
  rfl

/-! ## Versions -/

/-- The version a request tells. -/
def wireVersion : LspRequest → Option ℕ
  | .didOpen _ _ version _ | .didChange _ version .. => some version
  | _ => none

/-- A request that starts a process. -/
def Starts : LspRequest → Prop
  | .start .. => True
  | _ => False

theorem hear_version {x y : Option Replica} {r : LspRequest} (h : hear x r = some y)
    (hr : ¬ Starts r) : (∀ v, wireVersion r = some v → ∃ a, x = some a ∧ a.version < v) ∧
      ∀ b, y = some b → ∃ a, x = some a ∧ a.version ≤ b.version ∧
        ∀ v, wireVersion r = some v → v ≤ b.version := by
  cases r with
  | start => exact absurd trivial hr
  | shutdown =>
    obtain rfl := Option.some.inj h
    exact ⟨fun v hv => (nomatch hv), fun b hb => (nomatch hb)⟩
  | didOpen path language version text =>
    cases x with
    | none => cases h
    | some a =>
      rw [hear] at h
      split_ifs at h with hcond
      obtain rfl := Option.some.inj h
      refine ⟨fun v hv => ⟨a, rfl, Option.some.inj hv ▸ hcond.1⟩, fun b hb => ?_⟩
      obtain rfl := Option.some.inj hb
      exact ⟨a, rfl, Nat.le_of_lt hcond.1, fun v hv => Nat.le_of_eq (Option.some.inj hv).symm⟩
  | didChange path version range new =>
    cases x with
    | none => cases h
    | some a =>
      rw [hear] at h
      split_ifs at h with hcond
      obtain ⟨old, -, rfl⟩ := Option.map_eq_some_iff.mp h
      refine ⟨fun v hv => ⟨a, rfl, Option.some.inj hv ▸ hcond⟩, fun b hb => ?_⟩
      obtain rfl := Option.some.inj hb
      exact ⟨a, rfl, Nat.le_of_lt hcond, fun v hv => Nat.le_of_eq (Option.some.inj hv).symm⟩
  | didClose path =>
    cases x with
    | none => cases h
    | some a =>
      obtain ⟨old, -, rfl⟩ := Option.map_eq_some_iff.mp h
      refine ⟨fun v hv => (nomatch hv), fun b hb => ?_⟩
      obtain rfl := Option.some.inj hb
      exact ⟨a, rfl, Nat.le_refl _, fun v hv => (nomatch hv)⟩
  | _ =>
    have hsame : x = y := by
      cases x <;> exact Option.some.inj h
    subst hsame
    exact ⟨fun v hv => (nomatch hv), fun b hb => ⟨b, hb, Nat.le_refl _, fun v hv => (nomatch hv)⟩⟩

/-- **Between two starts the versions increase.** -/
theorem versions_increase {x y : Option Replica} {rs : List LspRequest} (h : hearAll x rs = some y)
    (hrs : ∀ r ∈ rs, ¬ Starts r) : (rs.filterMap wireVersion).Pairwise (· < ·) ∧
      ∀ v ∈ rs.filterMap wireVersion, ∃ a, x = some a ∧ a.version < v := by
  induction rs generalizing x with
  | nil => simp
  | cons r rs ih =>
    rw [hearAll_cons] at h
    obtain ⟨x₁, h₁, h⟩ := Option.bind_eq_some_iff.mp h
    obtain ⟨hr, hrs⟩ := List.forall_mem_cons.mp hrs
    obtain ⟨hincrease, hnew⟩ := ih h hrs
    obtain ⟨hfirst, hnext⟩ := hear_version h₁ hr
    have hlater : ∀ v ∈ rs.filterMap wireVersion, (∃ a, x = some a ∧ a.version < v) ∧
        ∀ w, wireVersion r = some w → w < v := by
      intro v hv
      obtain ⟨b, hb, hless⟩ := hnew v hv
      obtain ⟨a, ha, hle, hall⟩ := hnext b hb
      exact ⟨⟨a, ha, Nat.lt_of_le_of_lt hle hless⟩, fun w hw => Nat.lt_of_le_of_lt (hall w hw) hless⟩
    rw [List.filterMap_cons]
    cases hw : wireVersion r with
    | none => exact ⟨hincrease, fun v hv => (hlater v hv).1⟩
    | some w =>
      refine ⟨List.pairwise_cons.mpr ⟨fun v hv => (hlater v hv).2 w hw, hincrease⟩, ?_⟩
      exact List.forall_mem_cons.mpr ⟨hfirst w hw, fun v hv => (hlater v hv).1⟩

end Lsp

end Termesh
