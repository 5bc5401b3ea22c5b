import Termesh.Core.Path
import Termesh.Editor.Decoration
import Termesh.Editor.History
import Termesh.Editor.Laws
import Termesh.Editor.Lines

/-!
# Buffers

A document with its cursor, its history and its overlays. `apply` is the one place where a
transaction changes text; `replay` is what undo and redo do with the change the history hands back.

* `fromText`, `toDiskString`, `isDirty`, `markSaved`: the document against its file;
* `transaction`, `apply`, `edit`, `insert`, `deleteBackward`, `deleteForward`;
* `undo`, `redo`;
* cursor motion on the primary range.

`none` is a panic. A `Buffer × Except EditError Unit` is the buffer a `&mut self` method leaves
behind with the result it returns.
-/

namespace Termesh

/-- How a file's lines were terminated on disk. -/
inductive LineEnding where
  | lf
  | crlf
deriving DecidableEq, Repr

/-- The occurrences of `\r\n`. -/
@[simp] def crlfCount : Text → ℕ
  | '\r' :: '\n' :: t => crlfCount t + 1
  | _ :: t => crlfCount t
  | [] => 0

/-- What the file mostly used. -/
def LineEnding.detect (text : Text) : LineEnding :=
  let crlf := crlfCount text
  if crlf > text.count '\n' - crlf then .crlf else .lf

/-- `text.replace("\r\n", "\n")`. -/
@[simp] def normalizeNewlines : Text → Text
  | '\r' :: '\n' :: t => '\n' :: normalizeNewlines t
  | c :: t => c :: normalizeNewlines t
  | [] => []

/-- `text.replace('\n', "\r\n")`. -/
def expandNewlines (t : Text) : Text := t.flatMap fun c => if c = '\n' then ['\r', '\n'] else [c]

/-- Why a transaction was refused. -/
inductive EditError where
  | staleVersion (expected found : Version)
  | lengthMismatch (expected found : ℕ)
deriving DecidableEq, Repr

/-- An open text with its history, selection and decorations. -/
structure Buffer where
  id : BufferId
  path : Option Path
  text : Text
  version : Version := 0
  selection : Selection := .point 0
  history : History := {}
  lineEnding : LineEnding := .lf
  savedVersion : Option Version := none
  goalColumn : Option ℕ := none
  decorations : DecorationSet := []
  pendingChanges : List ChangeSet := []
deriving DecidableEq

namespace Buffer

/-- A buffer over text already in hand. -/
def fromText (id : BufferId) (path : Option Path) (text : Text) : Buffer where
  id := id
  path := path
  text := normalizeNewlines text
  lineEnding := .detect text
  savedVersion := some 0

/-- The document as it would be written out. -/
def toDiskString (b : Buffer) : Text :=
  match b.lineEnding with
  | .lf => b.text
  | .crlf => expandNewlines b.text

/-- Move the cursor. Ends the current undo group. -/
def setSelection (b : Buffer) (selection : Selection) : Buffer :=
  { b with selection, history := b.history.breakGroup }

/-- Whether there are changes not yet written to disk. -/
def isDirty (b : Buffer) : Bool := b.savedVersion != some b.version

/-- Drain the changes not yet reported for document sync. -/
def takePendingChanges (b : Buffer) : Buffer × List ChangeSet :=
  ({ b with pendingChanges := [] }, b.pendingChanges)

/-- Record that `version` reached disk. -/
def markSaved (b : Buffer) (version : Version) : Buffer :=
  { b with savedVersion := some version, history := b.history.breakGroup }

/-! ## Transactions -/

/-- Build a transaction against the current state. -/
def transaction (b : Buffer) (changes : ChangeSet) (source : EditSource) : Buffer × EditTransaction :=
  let (history, group) := b.history.groupFor source
  ({ b with history },
    { buffer := b.id, baseVersion := b.version, changes, source, undoGroup := group,
      selection := none })

/-- The buffer after a transaction that `apply` does not refuse. -/
def applied (b : Buffer) (t : EditTransaction) (inverse : ChangeSet) : Buffer :=
  { b with
    text := t.changes.apply b.text
    version := b.version + 1
    decorations := b.decorations.map t.changes
    selection := t.selection.getD (b.selection.map t.changes)
    pendingChanges := b.pendingChanges ++ [t.changes]
    history := b.history.push t inverse }

/-- Apply a transaction, or refuse it when it was authored against another revision. -/
def apply (b : Buffer) (t : EditTransaction) : Option (Buffer × Except EditError Unit) :=
  if t.baseVersion ≠ b.version then
    some (b, .error (.staleVersion t.baseVersion b.version))
  else if t.changes.lenBefore ≠ b.text.length then
    some (b, .error (.lengthMismatch t.changes.lenBefore b.text.length))
  else if t.isEmpty then some (b, .ok ())
  else (t.changes.invert b.text).map fun inverse => (b.applied t inverse, .ok ())

/-- Replace `start..stop` with `text`. -/
def edit (b : Buffer) (start stop : ℕ) (text : Text) (source : EditSource) :
    Option (Buffer × Except EditError Unit) :=
  (ChangeSet.replace b.text.length start stop text).bind fun changes =>
    let (b, t) := b.transaction changes source
    b.apply t

/-- Insert text at the cursor, replacing the selection if there is one. -/
def insert (b : Buffer) (text : Text) (source : EditSource) :
    Option (Buffer × Except EditError Unit) :=
  let range := b.selection.primary
  { b with goalColumn := none }.edit range.start range.stop text source

/-- Delete the selection if there is one, otherwise the preceding character. -/
def deleteBackward (b : Buffer) : Option (Buffer × Except EditError Unit) :=
  let range := b.selection.primary
  let b := { b with goalColumn := none }
  if !range.isEmpty then b.edit range.start range.stop [] .keyboard
  else if range.head = 0 then some (b, .ok ())
  else b.edit (range.head - 1) range.head [] .keyboard

/-- Delete the selection if there is one, otherwise the following character. -/
def deleteForward (b : Buffer) : Option (Buffer × Except EditError Unit) :=
  let range := b.selection.primary
  let b := { b with goalColumn := none }
  if !range.isEmpty then b.edit range.start range.stop [] .keyboard
  else if b.text.length ≤ range.head then some (b, .ok ())
  else b.edit range.head (range.head + 1) [] .keyboard

/-! ## Undo and redo -/

/-- Apply a change the history handed back. `none` is the length assertion. -/
def replay (b : Buffer) (changes : ChangeSet) : Option Buffer :=
  if changes.lenBefore ≠ b.text.length then none
  else some { b with
    text := changes.apply b.text
    version := b.version + 1
    selection := b.selection.map changes
    decorations := b.decorations.map changes
    pendingChanges := b.pendingChanges ++ [changes] }

/-- The common shape of `undo` and `redo`, from what the history answered. -/
def replayed (b : Buffer) : History × Option ChangeSet → Option (Buffer × Bool)
  | (history, some changes) => ({ b with history }.replay changes).map fun b => (b, true)
  | (history, none) => some ({ b with history }, false)

/-- Reverse the most recent undo group. Returns whether anything happened. -/
def undo (b : Buffer) : Option (Buffer × Bool) := b.history.undo.bind b.replayed

/-- The group undone last is done again. -/
def redo (b : Buffer) : Option (Buffer × Bool) := b.history.redo.bind b.replayed

/-! ## Cursor motion -/

/-- The position of the cursor. -/
def cursor (b : Buffer) : ℕ := b.selection.primary.head

/-- Put the cursor at `pos`, forgetting any sticky column. -/
def placeCursor (b : Buffer) (pos : ℕ) : Buffer :=
  { b with goalColumn := none }.setSelection (.point pos)

/-- One character to the left. -/
def moveLeft (b : Buffer) : Buffer := b.placeCursor (left b.text b.cursor)

/-- One character to the right. -/
def moveRight (b : Buffer) : Buffer := b.placeCursor (right b.text b.cursor)

/-- To the start of the line. -/
def moveLineStart (b : Buffer) : Buffer := b.placeCursor (lineStart b.text b.cursor)

/-- To the end of the line. -/
def moveLineEnd (b : Buffer) : Buffer := b.placeCursor (lineEnd b.text b.cursor)

/-- Move a line up or down, keeping the sticky column. -/
def moveLine (b : Buffer) (dir : Bool) : Buffer :=
  let goal := b.goalColumn.getD (columnOf b.text b.cursor)
  let pos := if dir then down b.text b.cursor (some goal) else up b.text b.cursor (some goal)
  { b.setSelection (.point pos) with goalColumn := some goal }

end Buffer

/-! ## What the operations do -/

namespace ChangeSet

theorem replace_some {len start stop : ℕ} (text : Text) (h : start ≤ stop) (hs : stop ≤ len) :
    ∃ cs, replace len start stop text = some cs ∧ cs.lenBefore = len := by
  rw [replace, if_neg (Nat.not_lt.mpr h)]
  obtain ⟨cs, hc, hl, -⟩ := ChangeSetBuilder.build_some
    (b := (((builder len).retain start).delete (stop - start)).insert text)
    (show 0 + start + (stop - start) ≤ len by omega)
  exact ⟨cs, hc, hl⟩

end ChangeSet

namespace Buffer

/-- The ways `apply` can end: a refusal, an empty change, or the new document. -/
inductive Applied (b : Buffer) (t : EditTransaction) : Buffer → Except EditError Unit → Prop
  | refused (e : EditError) : Applied b t b (.error e)
  | empty (hv : t.baseVersion = b.version) (hl : b.text.length = t.changes.lenBefore)
      (h : t.isEmpty = true) : Applied b t b (.ok ())
  | changed {inverse : ChangeSet} (hv : t.baseVersion = b.version)
      (hl : b.text.length = t.changes.lenBefore) (h : t.isEmpty = false)
      (hi : t.changes.invert b.text = some inverse) : Applied b t (b.applied t inverse) (.ok ())

/-- **`apply` does not panic**, and ends in one of three ways. -/
theorem apply_spec (b : Buffer) (t : EditTransaction) :
    ∃ b' r, b.apply t = some (b', r) ∧ Applied b t b' r := by
  unfold apply
  split_ifs with h1 h2 h3
  · exact ⟨b, _, rfl, .refused _⟩
  · exact ⟨b, _, rfl, .refused _⟩
  · exact ⟨b, _, rfl, .empty (not_not.mp h1) (not_not.mp h2).symm h3⟩
  · have hl : b.text.length = t.changes.lenBefore := (not_not.mp h2).symm
    obtain ⟨inverse, hi, -⟩ := t.changes.invert_some b.text hl
    refine ⟨b.applied t inverse, .ok (), by rw [hi]; rfl, ?_⟩
    exact .changed (not_not.mp h1) hl (by simpa using h3) hi

theorem apply_ok {b : Buffer} {t : EditTransaction} (hv : t.baseVersion = b.version)
    (hl : t.changes.lenBefore = b.text.length) :
    ∃ b', b.apply t = some (b', .ok ()) ∧ Applied b t b' (.ok ()) := by
  obtain ⟨b', r, h, ha⟩ := b.apply_spec t
  have hr : r = .ok () := by
    rw [apply, if_neg (not_not.mpr hv), if_neg (not_not.mpr hl)] at h
    split_ifs at h
    · exact (Prod.mk.inj (Option.some.inj h)).2.symm
    · obtain ⟨inverse, -, hx⟩ := Option.map_eq_some_iff.mp h
      exact (Prod.mk.inj hx).2.symm
  subst hr
  exact ⟨b', h, ha⟩

theorem applied_of_apply {b b' : Buffer} {t : EditTransaction} {r : Except EditError Unit}
    (h : b.apply t = some (b', r)) : Applied b t b' r := by
  obtain ⟨b₁, r₁, h₁, ha⟩ := b.apply_spec t
  obtain ⟨rfl, rfl⟩ := Prod.mk.inj (Option.some.inj (h₁.symm.trans h))
  exact ha

/-- Inside the document `edit` does not panic and applies a change of this document. -/
theorem edit_spec (b : Buffer) {start stop : ℕ} (text : Text) (source : EditSource)
    (h : start ≤ stop) (hs : stop ≤ b.text.length) :
    ∃ changes b' r, ChangeSet.replace b.text.length start stop text = some changes ∧
      changes.lenBefore = b.text.length ∧ b.edit start stop text source = some (b', r) ∧
      Applied (b.transaction changes source).1 (b.transaction changes source).2 b' r := by
  obtain ⟨changes, hc, hl⟩ := ChangeSet.replace_some text h hs
  obtain ⟨b', r, hb, ha⟩ := apply_spec (b.transaction changes source).1 (b.transaction changes source).2
  exact ⟨changes, b', r, hc, hl, by rw [edit, hc]; exact hb, ha⟩

end Buffer

end Termesh
