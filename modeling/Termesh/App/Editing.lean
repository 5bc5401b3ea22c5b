import Termesh.App.Sync

/-!
# Editing commands

The entry points that open, position, edit, search and close buffers on the human's behalf.

* `openFile`, `openFileAt`, `saveActiveBuffer`;
* `editActive`, `withBuffer`, `withBufferBool`: a buffer operation on the buffer on screen;
* `transact`: one change set to one buffer;
* `runFind`, `stepMatch`, `focusMatch`, `replaceAll`;
* `cycleTab`, `closeTab`, `discardBuffer`, `applyRecoveryDrafts`.
-/

namespace Termesh

/-- Start and end of a line's visible text. -/
def Buffer.lineRange (b : Buffer) (line : ℕ) : ℕ × ℕ :=
  if lenLines b.text ≤ line then (b.text.length, b.text.length)
  else (lineToChar b.text line, lineEnd b.text (lineToChar b.text line))

namespace App.Model

/-- The first buffer with a path, with its index. -/
def located (m : Model) (path : Path) : Option (ℕ × Buffer) :=
  (m.indexOf path).bind fun i => (m.buffers[i]?).map (i, ·)

/-- The buffer on screen, with its index. -/
def onScreen (m : Model) : Option (ℕ × Buffer) :=
  m.activeBuffer.bind fun i => (m.buffers[i]?).map (i, ·)

/-- Ask the worker for a file under the next buffer id. -/
def queueRead (m : Model) (path : Path) : BufferId × Model :=
  let buffer : BufferId := ⟨m.nextBufferId + 1⟩
  (buffer, { m with nextBufferId := m.nextBufferId + 1 }.send (.readFile buffer path))

/-- Open a file in the editor, or focus it if it is already open. -/
def openFile (m : Model) (path : Path) : Model :=
  match m.indexOf path with
  | some i => { m with activeBuffer := some i, focus := .editor }
  | none =>
    if m.opening.any fun o => o.2 = path then m -- already in flight
    else
      let (buffer, m) := m.queueRead path
      { m with opening := m.opening ++ [(buffer, path)] }

/-- Put the cursor of an open file at a one-based line and column. Returns whether it is open. -/
def positionOpenBuffer (m : Model) (path : Path) (line column : ℕ) : Model × Bool :=
  match m.located path with
  | none => (m, false)
  | some (i, b) =>
    let range := b.lineRange (min (line - 1) (lenLines b.text - 1))
    let position := min (range.1 + (column - 1)) range.2
    ({ m.setBuffer i (b.setSelection (.point position)) with activeBuffer := some i, focus := .editor },
      true)

/-- A file is shown at a place, and loaded first if it is not open. -/
def openFileAt (m : Model) (path : Path) (line column : ℕ) : Model :=
  match m.positionOpenBuffer path line column with
  | (m, true) => m
  | (m, false) => { m with pendingOpenLocation := some (path, line, column) }.openFile path

/-- Write the active buffer back through the worker. -/
def saveActiveBuffer (m : Model) : Model :=
  match m.active with
  | none => m.notify "nothing to save"
  | some b =>
    match b.path with
    | none => m.notify "buffer has no path"
    | some path =>
      if !b.isDirty then m.notify "no changes to save"
      else m.send (.writeFile b.id path b.toDiskString b.version)

/-! ## The buffer on screen -/

/-- Run an edit on the active buffer, surfacing any refusal. -/
def editActive (m : Model) (f : Buffer → Option (Buffer × Except EditError Unit)) : Option Model :=
  match m.onScreen with
  | none => some m
  | some (i, b) =>
    (f b).map fun (b, outcome) =>
      match outcome with
      | .ok () => m.setBuffer i b
      | .error e => (m.setBuffer i b).notify e.toString

/-- The buffer on screen changes. -/
def withBuffer (m : Model) (f : Buffer → Buffer) : Model :=
  match m.onScreen with
  | none => m
  | some (i, b) => m.setBuffer i (f b)

/-- The buffer on screen changes, and says whether it did. -/
def withBufferBool (m : Model) (f : Buffer → Option (Buffer × Bool)) : Option (Model × Bool) :=
  match m.onScreen with
  | none => some (m, false)
  | some (i, b) => (f b).map fun (b, moved) => (m.setBuffer i b, moved)

/-- Build and apply one transaction. -/
def transact (m : Model) (i : ℕ) (changes : ChangeSet) (source : EditSource) :
    Option (Model × Except EditError Unit) :=
  (m.buffers[i]?).bind fun b =>
    let (b, t) := b.transaction changes source
    (b.apply t).map fun (b, outcome) => (m.setBuffer i b, outcome)

/-! ## Find and replace -/

/-- Put the cursor on the current match and paint the rest. -/
def focusMatch (m : Model) : Option Model :=
  match m.find, m.onScreen with
  | some find, some (i, b) =>
    let drawn := find.found.zipIdx.map fun t =>
      Decoration.mk t.1.1 t.1.2 (.match (some t.2 == find.current))
    let b := { b with decorations := b.decorations.clearMatches ++ drawn }
    match find.current with
    | none => some (m.setBuffer i b)
    | some k =>
      (find.found[k]?).map fun t => m.setBuffer i (b.setSelection (.single ⟨t.1, t.2⟩))
  | _, _ => some m

/-- Run `query` over the active buffer and jump to the first hit after the cursor. -/
def runFind (h : Host) (m : Model) (query : Text) : Option Model :=
  match m.active with
  | none => some m
  | some b =>
    let found := findAll h.folding b.text query
    let message :=
      if found.length = 0 then "no matches for '" ++ String.ofList query ++ "'"
      else Nat.repr found.length ++ " match(es) for '" ++ String.ofList query ++ "'"
    { m with
      find := some { query, found, current := nextFrom found b.selection.primary.head }
      notification := some message }.focusMatch

/-- The index a step leads to. `none` is an index out of bounds. -/
def Find.step (find : Find) (forward : Bool) : Option (Option ℕ) :=
  let start : Option ℕ := match find.current with
    | some i => (find.found[i]?).map fun t : Match => if forward then t.2 else t.1
    | none => some 0
  start.map fun start => if forward then nextFrom find.found start else prevFrom find.found start

/-- Step to the next or previous match, wrapping. -/
def stepMatch (m : Model) (forward : Bool) : Option Model :=
  match m.find with
  | none => some (m.notify "nothing to search for (Ctrl+F)")
  | some find =>
    if find.found = [] then some (m.notify ("no matches for '" ++ String.ofList find.query ++ "'"))
    else
      (Find.step find forward).bind fun current =>
        { m with find := some { find with current } }.focusMatch

/-- Replace every match in one transaction. -/
def replaceAll (h : Host) (m : Model) (replacement : Text) : Option Model :=
  match m.find with
  | none => some m
  | some find =>
    if find.found = [] then some (m.notify "nothing to replace")
    else
      match m.onScreen with
      | none => some m
      | some (i, b) =>
        let pieces := find.found.map fun t => Hunk.mk t.1 t.2 replacement .clean
        ((hunkLoop pieces 0 (ChangeSet.builder b.text.length)).bind ChangeSetBuilder.build).bind
          fun changes =>
            (m.transact i changes .replace).bind fun (m, outcome) =>
              match outcome with
              | .error e => some (m.notify e.toString)
              | .ok () =>
                -- the old matches describe a document that no longer exists
                let m := { m with
                  find := none
                  buffers := m.buffers.modify i fun b =>
                    { b with decorations := b.decorations.clearMatches } }
                (m.notify ("replaced " ++ Nat.repr find.found.length ++ " occurrence(s)")).syncProposals h

/-! ## Tabs -/

/-- Move to the next or previous open file, wrapping. -/
def cycleTab (m : Model) (step : Int) : Model :=
  if m.buffers.length < 2 then m
  else
    match m.activeBuffer with
    | none => m
    | some current =>
      { m with activeBuffer := some (((current + step) % m.buffers.length).toNat), focus := .editor }

/-- Drop a buffer and pick a sensible neighbour to show. -/
def discardBuffer (m : Model) (id : BufferId) : Model :=
  match m.buffers.findIdx? fun b => b.id = id with
  | none => m
  | some index =>
    let lsp := match (m.buffers[index]?).bind (·.path) with
      | some path => m.lsp.closeDocument path
      | none => m.lsp
    let buffers := m.buffers.eraseIdx index
    { m with
      lsp, buffers
      activeBuffer := if buffers = [] then none else some (min (index - 1) (buffers.length - 1)) }

/-- Close the active file, asking first if it has unsaved work. -/
def closeTab (m : Model) : Model :=
  match m.active with
  | none => m.notify "nothing to close"
  | some b =>
    if b.isDirty then
      let name := match b.path with
        | some path => displayName path
        | none => "untitled"
      m.pushOverlay (.prompt {
        title := name ++ " has unsaved changes — close anyway?  (Enter to confirm)"
        input := ""
        kind := .confirmCloseBuffer b.id })
    else m.discardBuffer b.id

/-! ## Recovery drafts -/

/-- Replace the text of the first buffer at the draft's path. -/
def applyDraft (m : Model) (draft : Draft) : Option Model :=
  match m.located draft.path with
  | none =>
    some (m.appendNotification
      ("could not restore draft because its file is not open: " ++ draft.path.display))
  | some (i, b) =>
    (ChangeSet.replace b.text.length 0 b.text.length draft.text).bind fun changes =>
      (m.transact i changes .replace).map fun (m, outcome) =>
        match outcome with
        | .ok () => m
        | .error e =>
          m.appendNotification ("could not restore " ++ draft.path.display ++ ": " ++ e.toString)

/-- Drafts are put into their buffers. -/
def applyDrafts (m : Model) : List Draft → Option Model
  | [] => some m
  | draft :: drafts => (m.applyDraft draft).bind fun m => m.applyDrafts drafts

/-- `apply_recovery_drafts`: all drafts on offer, or the chosen ones. -/
def applyRecoveryDrafts (m : Model) (selectedOnly : Bool) : Option Model :=
  match m.overlays.getLast? with
  | some (.draftRecovery drafts previousFocus) =>
    let chosen := drafts.filter fun d => !selectedOnly || d.2
    { m with overlays := m.overlays.dropLast, focus := previousFocus }.applyDrafts
      (chosen.map Prod.fst)
  | _ => some { m with overlays := m.overlays.dropLast }

/-- The chosen drafts are restored. -/
def acceptSelectedRecoveryDrafts (m : Model) : Option Model := m.applyRecoveryDrafts true

/-- The drafts on offer are deleted. -/
def discardRecoveryDrafts (h : Host) (m : Model) : Model :=
  match m.overlays.getLast? with
  | some (.draftRecovery drafts previousFocus) =>
    let m := { m with overlays := m.overlays.dropLast, focus := previousFocus }
    match h.draftsDir with
    | none => m
    | some dir =>
      drafts.foldl (fun m d =>
        { m with knownDrafts := m.knownDrafts.filter (· ≠ d.1.path) }.send
          (.remove (dir.join (h.draftFileName d.1.path)) false)) m
  | _ => { m with overlays := m.overlays.dropLast }

/-- Turn an expired debounce into requests to the worker. -/
def queueDueDrafts (h : Host) (m : Model) : Model :=
  match m.draftDeadline with
  | none => m
  | some deadline =>
    if m.clock < deadline then m
    else
      let m := { m with draftDeadline := none }
      let dirty := m.buffers.filter fun b => b.isDirty && b.path.isSome
      match h.draftsDir with
      | none => m
      | some dir =>
        if dirty = [] then m
        else
          dirty.foldl (fun m b =>
            let source := b.path.getD []
            let file := dir.join (h.draftFileName source)
            match h.encodeDraft ⟨source, b.toDiskString⟩ file with
            | .error e => m.appendNotification ("could not encode recovery draft: " ++ e)
            | .ok contents =>
              let buffer : BufferId := ⟨m.nextBufferId + 1⟩
              { m with
                nextBufferId := m.nextBufferId + 1
                pendingDraftWrites := m.pendingDraftWrites ++ [(buffer, source)] }.send
                (.writeFile buffer file contents b.version)) (m.send (.createDir dir))

end App.Model

end Termesh
