import Termesh.Lsp.Wire

/-!
# The shapes of edits

The shapes in which a server has to write text edits and workspace edits, without the functions that
read them. An item of another shape is malformed, and so is one for a URI that is no path.

* `SpellsEdit`, **`textEdit_iff`**: the shape of a text edit, which is read as what it spells;
* `slots`, `Leaves`: the items of a workspace edit, each with its file, and what is left of them
  when the malformed ones are taken out;
* `BadEdits`, `BadWorkspaceEdit`: malformed edits;
* `Spells`, **`spells_workspaceEdit`**: a workspace edit is read as what is left of it.
-/

namespace Termesh

namespace Lsp

open Value

/-! ## One edit -/

/-- Two numbers of 32 bits. -/
structure SpellsPosition (v : Value) (p : TextPosition) : Prop where
  line : v.get "line" = some (.number (.posInt p.line))
  character : v.get "character" = some (.number (.posInt p.character))
  narrow : p.line < 2 ^ 32 ∧ p.character < 2 ^ 32

/-- Two positions. -/
structure SpellsRange (v : Value) (r : TextRange) : Prop where
  start : ∃ p, v.get "start" = some p ∧ SpellsPosition p r.start
  stop : ∃ p, v.get "end" = some p ∧ SpellsPosition p r.stop

/-- A range, or the one of a replacement, and a text. The file stands elsewhere. -/
structure SpellsEdit (v : Value) (e : TextEdit) : Prop where
  range : ∃ r, (v.get "range").or (v.get "replace") = some r ∧ SpellsRange r e.range
  newText : ∃ s, v.get "newText" = some (.string s) ∧ s.toList = e.newText

theorem asU32_iff {v : Value} {n : ℕ} :
    asU32 v = some n ↔ v = .number (.posInt n) ∧ n < 2 ^ 32 := by
  rw [asU32, Option.filter_eq_some_iff]
  refine and_congr ⟨fun h => ?_, fun h => h ▸ rfl⟩ decide_eq_true_iff
  unfold asU64 at h
  split at h
  · rw [Option.some.inj h]
  · cases h

theorem textPosition_iff {v : Value} {p : TextPosition} :
    textPosition v = some p ↔ SpellsPosition v p := by
  constructor
  · intro h
    obtain ⟨line, hline, h⟩ := Option.bind_eq_some_iff.mp h
    obtain ⟨character, hcharacter, rfl⟩ := Option.map_eq_some_iff.mp h
    obtain ⟨l, hl, hline⟩ := Option.bind_eq_some_iff.mp hline
    obtain ⟨c, hc, hcharacter⟩ := Option.bind_eq_some_iff.mp hcharacter
    obtain ⟨rfl, hln⟩ := asU32_iff.mp hline
    obtain ⟨rfl, hcn⟩ := asU32_iff.mp hcharacter
    exact ⟨hl, hc, hln, hcn⟩
  · rintro ⟨hl, hc, hln, hcn⟩
    rw [textPosition, hl, hc, Option.bind_some, Option.bind_some, asU32_iff.mpr ⟨rfl, hln⟩,
      asU32_iff.mpr ⟨rfl, hcn⟩]
    rfl

theorem textRange_iff {v : Value} {r : TextRange} : textRange v = some r ↔ SpellsRange v r := by
  constructor
  · intro h
    obtain ⟨start, hstart, h⟩ := Option.bind_eq_some_iff.mp h
    obtain ⟨stop, hstop, rfl⟩ := Option.map_eq_some_iff.mp h
    obtain ⟨p, hp, hstart⟩ := Option.bind_eq_some_iff.mp hstart
    obtain ⟨q, hq, hstop⟩ := Option.bind_eq_some_iff.mp hstop
    exact ⟨⟨p, hp, textPosition_iff.mp hstart⟩, q, hq, textPosition_iff.mp hstop⟩
  · rintro ⟨⟨p, hp, hstart⟩, q, hq, hstop⟩
    rw [textRange, hp, hq, Option.bind_some, Option.bind_some, textPosition_iff.mpr hstart,
      textPosition_iff.mpr hstop]
    rfl

/-- **A text edit is read as what it spells.** -/
theorem textEdit_iff {v : Value} {path : Path} {e : TextEdit} :
    textEdit v path = some e ↔ e.path = path ∧ SpellsEdit v e := by
  constructor
  · intro h
    obtain ⟨range, hrange, h⟩ := Option.bind_eq_some_iff.mp h
    obtain ⟨newText, hnew, rfl⟩ := Option.map_eq_some_iff.mp h
    obtain ⟨r, hr, hrange⟩ := Option.bind_eq_some_iff.mp hrange
    obtain ⟨t, ht, hnew⟩ := Option.bind_eq_some_iff.mp hnew
    refine ⟨rfl, ⟨r, hr, textRange_iff.mp hrange⟩, newText, ?_, rfl⟩
    unfold asStr at hnew
    split at hnew
    · rw [ht, Option.some.inj hnew]
    · cases hnew
  · rintro ⟨rfl, ⟨r, hr, hrange⟩, s, hs, hnew⟩
    rw [textEdit, hr, Option.bind_some, textRange_iff.mpr hrange, Option.bind_some, getStr, hs,
      Option.bind_some, asStr, Option.map_some, hnew]

theorem textEdit_none_iff {v : Value} {path : Path} :
    textEdit v path = none ↔ ∀ e, ¬SpellsEdit v e := by
  constructor
  · intro hnone e hs
    have hread : textEdit v path = some { e with path := path } :=
      textEdit_iff.mpr ⟨rfl, hs.range, hs.newText⟩
    rw [hnone] at hread
    cases hread
  · intro hnot
    refine Option.eq_none_iff_forall_ne_some.mpr fun e he => ?_
    exact hnot e (textEdit_iff.mp he).2

/-! ## What is left of a list -/

/-- What is left of items, each with its file, when those that spell no edit or have no file are
taken out. -/
inductive Leaves : List (Option Path × Value) → List TextEdit → Prop
  | nil : Leaves [] []
  | kept {item : Value} {e : TextEdit} {slots : List (Option Path × Value)} {edits : List TextEdit}
      (hs : SpellsEdit item e) (h : Leaves slots edits) :
      Leaves ((some e.path, item) :: slots) (e :: edits)
  | lost {file : Option Path} {item : Value} {slots : List (Option Path × Value)}
      {edits : List TextEdit} (hs : file = none ∨ ∀ e, ¬SpellsEdit item e)
      (h : Leaves slots edits) : Leaves ((file, item) :: slots) edits

theorem leaves_read (slots : List (Option Path × Value)) :
    Leaves slots (slots.filterMap fun slot => slot.1.bind (textEdit slot.2)) := by
  induction slots with
  | nil => exact .nil
  | cons slot slots ih =>
    obtain ⟨file, item⟩ := slot
    cases file with
    | none => exact .lost (.inl rfl) ih
    | some path =>
      rw [List.filterMap_cons, Option.bind_some]
      cases hedit : textEdit item path with
      | none => exact .lost (.inr (textEdit_none_iff.mp hedit)) ih
      | some e =>
        obtain ⟨rfl, hs⟩ := textEdit_iff.mp hedit
        exact .kept hs ih

/-- **What is left is what is read.** -/
theorem leaves_iff {slots : List (Option Path × Value)} {edits : List TextEdit} :
    Leaves slots edits ↔ edits = slots.filterMap fun slot => slot.1.bind (textEdit slot.2) := by
  constructor
  · intro h
    induction h with
    | nil => rfl
    | kept hs _ ih => rw [List.filterMap_cons, Option.bind_some, textEdit_iff.mpr ⟨rfl, hs⟩, ih]
    | @lost file item slots edits hs _ ih =>
      have hnone : file.bind (textEdit item) = none := by
        rcases hs with rfl | hs
        · rfl
        · cases file with
          | none => rfl
          | some path => exact textEdit_none_iff.mpr hs
      rw [List.filterMap_cons, hnone, ih]
  · rintro rfl
    exact leaves_read slots

/-- The items of a list of edits to one file. -/
def slotsOf (path : Path) (v : Value) : List (Option Path × Value) :=
  (itemsOf v).map (some path, ·)

theorem leaves_textEdits {path : Path} {v : Value} {edits : List TextEdit} :
    Leaves (slotsOf path v) edits ↔ edits = textEdits v path := by
  rw [leaves_iff, slotsOf, List.filterMap_map]
  rfl

/-! ## Workspace edits -/

/-- The entries of `changes`. -/
def changesOf (v : Value) : List (String × Value) := ((v.get "changes").bind asObject).getD []

/-- The entries of `documentChanges`. -/
def documentChangesOf (v : Value) : List Value := ((v.get "documentChanges").bind asArray).getD []

/-- The file that an entry of `documentChanges` names, if it is about the text of one. -/
def fileOf (change : Value) : Option Path :=
  (change.get "textDocument").bind fun document => (document.getStr "uri").bind uriToPath

/-- The items of all lists of a workspace edit, each with the file it is for. -/
def slots (v : Value) : List (Option Path × Value) :=
  (changesOf v).flatMap (fun change => (itemsOf change.2).map (uriToPath change.1, ·)) ++
    (documentChangesOf v).flatMap fun change =>
      (itemsOf (orNull (change.get "edits"))).map (fileOf change, ·)

/-- An entry of `documentChanges` declares the version of its file. -/
def Declares (v : Value) (path : Path) (version : ℕ) : Prop :=
  ∃ change ∈ documentChangesOf v, fileOf change = some path ∧
    ∃ document, change.get "textDocument" = some document ∧
      document.get "version" = some (.number (.posInt version))

/-- An item that spells no edit. -/
def BadEdits (v : Value) : Prop := ∃ item ∈ itemsOf v, ∀ e, ¬SpellsEdit item e

/-- A workspace edit with an item that spells no edit, a URI that is no path, or a change that is
not about the text of a document. -/
def BadWorkspaceEdit (v : Value) : Prop :=
  (∃ change ∈ changesOf v, uriToPath change.1 = none ∨ BadEdits change.2) ∨
  ∃ change ∈ documentChangesOf v,
    fileOf change = none ∨ ((change.get "edits").bind asArray).isNone ∨
      ∃ edits, change.get "edits" = some edits ∧ BadEdits edits

/-- What is left of a workspace edit when its malformed parts are taken out. -/
structure Spells (v : Value) (edit : WorkspaceEdit) : Prop where
  edits : Leaves (slots v) edit.edits
  versions : ∀ path version, (path, version) ∈ edit.versions ↔ Declares v path version

theorem changeEdits_eq (change : String × Value) : changeEdits change =
    ((itemsOf change.2).map (uriToPath change.1, ·)).filterMap fun slot =>
      slot.1.bind (textEdit slot.2) := by
  rw [List.filterMap_map, changeEdits]
  cases uriToPath change.1 with
  | none => exact (List.filterMap_eq_nil_iff.mpr fun item _ => rfl).symm
  | some path => rfl

theorem documentEdits_eq (change : Value) : documentEdits change =
    ((itemsOf (orNull (change.get "edits"))).map (fileOf change, ·)).filterMap fun slot =>
      slot.1.bind (textEdit slot.2) := by
  have hfile : (changedDocument change).map Prod.fst = fileOf change := by
    unfold changedDocument fileOf
    cases change.get "textDocument" with
    | none => rfl
    | some document =>
      rw [Option.bind_some, Option.bind_some, Option.map_map]
      exact Option.map_id' ..
  rw [List.filterMap_map, ← hfile, documentEdits]
  cases changedDocument change with
  | none => exact (List.filterMap_eq_nil_iff.mpr fun item _ => rfl).symm
  | some document =>
    cases change.get "edits" with
    | none => rfl
    | some edits => rfl

theorem declares_iff {v : Value} {path : Path} {version : ℕ} :
    (path, version) ∈ (workspaceEdit v).versions ↔ Declares v path version := by
  unfold workspaceEdit
  dsimp only
  rw [List.mem_filterMap]
  refine exists_congr fun change => and_congr_right fun _ => ?_
  unfold documentVersion changedDocument fileOf
  constructor
  · intro h
    obtain ⟨⟨file, declared⟩, hnames, h⟩ := Option.bind_eq_some_iff.mp h
    obtain ⟨document, hdocument, h'⟩ := Option.bind_eq_some_iff.mp hnames
    obtain ⟨p, hp, heq⟩ := Option.map_eq_some_iff.mp h'
    obtain ⟨rfl, rfl⟩ := Prod.mk.inj heq
    obtain ⟨n, hn, heq⟩ := Option.map_eq_some_iff.mp h
    obtain ⟨rfl, rfl⟩ := Prod.mk.inj heq
    obtain ⟨number, hnumber, hn⟩ := Option.bind_eq_some_iff.mp hn
    refine ⟨by rw [hdocument, Option.bind_some, hp], document, hdocument, ?_⟩
    unfold asU64 at hn
    split at hn
    · rw [hnumber, Option.some.inj hn]
    · cases hn
  · rintro ⟨hfile, document, hdocument, hversion⟩
    rw [hdocument, Option.bind_some] at hfile
    rw [hdocument, Option.bind_some, hfile, hversion]
    rfl

/-- **A workspace edit is read as what is left of it.** -/
theorem spells_workspaceEdit (v : Value) : Spells v (workspaceEdit v) where
  edits := by
    rw [leaves_iff, slots, List.filterMap_append, List.filterMap_flatMap, List.filterMap_flatMap]
    unfold workspaceEdit
    dsimp only
    congr 1
    · rw [funext changeEdits_eq]
      rfl
    · rw [funext documentEdits_eq]
      rfl
  versions _ _ := declares_iff

theorem Spells.edits_eq {v : Value} {edit : WorkspaceEdit} (h : Spells v edit) :
    edit.edits = (workspaceEdit v).edits :=
  (leaves_iff.mp h.edits).trans (leaves_iff.mp (spells_workspaceEdit v).edits).symm

theorem Spells.mem_versions {v : Value} {edit : WorkspaceEdit} (h : Spells v edit)
    {declared : Path × ℕ} : declared ∈ edit.versions ↔ declared ∈ (workspaceEdit v).versions :=
  (h.versions _ _).trans declares_iff.symm

end Lsp

end Termesh
