import Mathlib.Logic.Function.Basic
import Termesh.Core.Lsp
import Termesh.Editor.Mirror

/-!
# What a server holds

The requests a server is sent open, change and close documents. Replayed, they give the documents it
holds, or fail where one is changed or closed that is not open.

* `Docs`, `tell`, `replay`: the documents a server holds, its copies read as the editor would;
* `OpenIn`: a document was opened and not closed since;
* **`isSome_replay`**, **`openIn_of_replay`**: a replay that does not fail meets the rules of the
  stream.
-/

namespace Termesh

namespace Lsp

/-- The documents a server holds, with their texts. -/
abbrev Docs := Path → Option Text

namespace Docs

/-- No document is open. -/
def nothing : Docs := fun _ => none

/-- What a request makes of the documents; one that is not open cannot be changed or closed. -/
def tell (d : Docs) : LspRequest → Option Docs
  | .didOpen path _ _ text => some (Function.update d path (some text))
  | .didChange path _ range new =>
    (d path).map fun old => Function.update d path <| some <|
      match range with
      | some r =>
        splice old (r.start.line, r.start.character) (r.stop.line, r.stop.character) new
      | none => new
  | .didClose path => (d path).map fun _ => Function.update d path none
  | _ => some d

def replay (d : Docs) (rs : List LspRequest) : Option Docs := rs.foldlM tell d

@[simp] theorem replay_nil (d : Docs) : d.replay [] = some d := rfl

theorem replay_cons (d : Docs) (r : LspRequest) (rs : List LspRequest) :
    d.replay (r :: rs) = (d.tell r).bind fun d => d.replay rs := rfl

theorem replay_append (d : Docs) (rs rs' : List LspRequest) :
    d.replay (rs ++ rs') = (d.replay rs).bind fun d => d.replay rs' :=
  List.foldlM_append

theorem replay_prefix {d d' : Docs} {rs rs' : List LspRequest} (h : d.replay (rs ++ rs') = some d') :
    ∃ d₁, d.replay rs = some d₁ ∧ d₁.replay rs' = some d' := by
  rw [replay_append] at h
  exact Option.bind_eq_some_iff.mp h

end Docs

/-- The document a change or a close is about. -/
def touched : LspRequest → Option Path
  | .didChange path .. => some path
  | .didClose path => some path
  | _ => none

/-- A request that is about no document. -/
def Plain : LspRequest → Prop
  | .didOpen .. | .didChange .. | .didClose .. | .start .. | .shutdown => False
  | _ => True

theorem Plain.tell {r : LspRequest} (h : Plain r) (d : Docs) : d.tell r = some d := by
  cases r <;> first | rfl | exact h.elim

/-- A document was opened, and not closed since. -/
def OpenIn (path : Path) (rs : List LspRequest) : Prop :=
  ∃ before language version text after,
    rs = before ++ .didOpen path language version text :: after ∧ .didClose path ∉ after

theorem not_openIn_nil (path : Path) : ¬ OpenIn path [] := by
  rintro ⟨before, language, version, text, after, heq, -⟩
  simp at heq

theorem openIn_concat {path : Path} {rs : List LspRequest} {r : LspRequest} :
    OpenIn path (rs ++ [r]) ↔ (∃ language version text, r = .didOpen path language version text) ∨
      OpenIn path rs ∧ r ≠ .didClose path := by
  constructor
  · rintro ⟨before, language, version, text, after, h, hclose⟩
    rcases List.eq_nil_or_concat after with rfl | ⟨after, last, rfl⟩
    · obtain ⟨-, hr⟩ := List.append_inj' h rfl
      exact .inl ⟨language, version, text, List.singleton_inj.mp hr⟩
    · rw [List.concat_eq_append] at h hclose
      rw [← List.cons_append, ← List.append_assoc] at h
      obtain ⟨hrs, hr⟩ := List.append_inj' h rfl
      obtain rfl := List.singleton_inj.mp hr
      refine .inr ⟨⟨before, language, version, text, after, hrs, fun hin => hclose ?_⟩, ?_⟩
      · exact List.mem_append_left _ hin
      · rintro rfl
        exact hclose (by simp)
  · rintro (⟨language, version, text, rfl⟩ | ⟨⟨before, language, version, text, after, rfl, hc⟩, hr⟩)
    · exact ⟨rs, language, version, text, [], rfl, by simp⟩
    · refine ⟨before, language, version, text, after ++ [r], by simp, ?_⟩
      simpa [hc] using Ne.symm hr

/-- **The documents held are those opened and not closed since.** -/
theorem isSome_replay {rs : List LspRequest} {d : Docs} (h : Docs.nothing.replay rs = some d)
    (path : Path) : (d path).isSome ↔ OpenIn path rs := by
  induction rs using List.reverseRecOn generalizing d with
  | nil =>
    obtain rfl := Option.some.inj h
    simp [Docs.nothing, not_openIn_nil]
  | append_singleton rs r ih =>
    obtain ⟨d₁, h₁, hr⟩ := Docs.replay_prefix h
    have hr : d₁.tell r = some d := by simpa [Docs.replay_cons] using hr
    rw [openIn_concat, ← ih h₁]
    cases r with
    | didOpen p language version text =>
      obtain rfl := Option.some.inj hr
      by_cases hp : path = p
      · simp [hp]
      · simp [Function.update_of_ne hp, Ne.symm hp]
    | didChange p version range new =>
      obtain ⟨old, hold, rfl⟩ := Option.map_eq_some_iff.mp hr
      by_cases hp : path = p
      · simp [hp, hold]
      · simp [Function.update_of_ne hp]
    | didClose p =>
      obtain ⟨old, hold, rfl⟩ := Option.map_eq_some_iff.mp hr
      by_cases hp : path = p
      · simp [hp]
      · simp [Function.update_of_ne hp, Ne.symm hp]
    | _ =>
      obtain rfl := Option.some.inj hr
      simp

/-- **In a replay that does not fail, what is changed or closed was opened and not closed since.** -/
theorem openIn_of_replay {before after : List LspRequest} {r : LspRequest} {path : Path}
    (h : (Docs.nothing.replay (before ++ r :: after)).isSome) (hr : touched r = some path) :
    OpenIn path before := by
  obtain ⟨d, hd⟩ := Option.isSome_iff_exists.mp h
  obtain ⟨d₁, h₁, h₂⟩ := Docs.replay_prefix hd
  rw [Docs.replay_cons] at h₂
  obtain ⟨d₂, htell, -⟩ := Option.bind_eq_some_iff.mp h₂
  refine (isSome_replay h₁ path).mp ?_
  cases r with
  | didChange p version range new =>
    obtain rfl := Option.some.inj hr
    obtain ⟨old, hold, -⟩ := Option.map_eq_some_iff.mp htell
    rw [hold]
    rfl
  | didClose p =>
    obtain rfl := Option.some.inj hr
    obtain ⟨old, hold, -⟩ := Option.map_eq_some_iff.mp htell
    rw [hold]
    rfl
  | _ => cases hr

end Lsp

end Termesh
