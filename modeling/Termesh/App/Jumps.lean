import Termesh.Lib.First
import Termesh.App.Deferred
import Termesh.Editor.Utf16

/-!
# Jumping to a server's location

A server counts columns in UTF-16 code units; `open_lsp_location` counts them in characters.

* `CountsAlike`, `Location.Plain`: where the two counts lead to the same place;
* `jumpColumn_eq_iff`: on one line; **`jumpTo_eq_iff`**: in a text;
* `Model.CursorAt`, `Model.Expects`: a jump that has landed, and one whose file is being loaded;
* **`openLspLocation_lands_iff`**: a jump lands where the server meant exactly when the counts agree;
* **`openLspLocation_misses`**: a jump behind a character of two code units.
-/

namespace Termesh

/-! ## Columns -/

/-- Up to the column, characters are code units, or both are past the end of the line. -/
def CountsAlike (content : Text) (character : ℕ) : Prop :=
  charToUtf16 content content.length ≤ character ∨ ∀ c ∈ content.take character, utf16Len c = 1

instance (content : Text) (character : ℕ) : Decidable (CountsAlike content character) :=
  inferInstanceAs (Decidable (_ ∨ _))

theorem utf16Len_cases (c : Char) : utf16Len c = 1 ∨ utf16Len c = 2 := by
  unfold utf16Len
  split <;> simp

theorem charToUtf16_cons (c : Char) (t : Text) :
    charToUtf16 (c :: t) (c :: t).length = utf16Len c + charToUtf16 t t.length := by
  simp [charToUtf16]

theorem length_le_charToUtf16 (t : Text) : t.length ≤ charToUtf16 t t.length := by
  induction t with
  | nil => exact Nat.zero_le _
  | cons c t ih =>
    have hc := utf16Len_cases c
    rw [charToUtf16_cons, List.length_cons]
    omega

theorem utf16ToChar_lt_length {t : Text} {n : ℕ} (h : n < charToUtf16 t t.length) :
    utf16ToChar t n < t.length := by
  induction t generalizing n with
  | nil => exact absurd h (Nat.not_lt_zero n)
  | cons c t ih =>
    rw [charToUtf16_cons] at h
    rw [utf16ToChar, List.length_cons]
    split_ifs with hn
    · exact Nat.succ_pos _
    · exact Nat.succ_lt_succ (ih (by omega))

theorem utf16ToChar_le_self (t : Text) (n : ℕ) : utf16ToChar t n ≤ n := by
  induction t generalizing n with
  | nil => exact Nat.zero_le n
  | cons c t ih =>
    have hc := utf16Len_cases c
    have hrec := ih (n - utf16Len c)
    rw [utf16ToChar]
    split_ifs with hn
    · exact Nat.zero_le n
    · omega

theorem utf16ToChar_length (t : Text) : utf16ToChar t (charToUtf16 t t.length) = t.length :=
  utf16ToChar_charToUtf16 t le_rfl

/-- **Counting code units and counting characters** lead to the same place on a line exactly when
they count alike. -/
theorem jumpColumn_eq_iff (content : Text) (character : ℕ) :
    min character content.length =
        utf16ToChar content (min character (charToUtf16 content content.length)) ↔
      CountsAlike content character := by
  induction content generalizing character with
  | nil => simp [CountsAlike, utf16ToChar]
  | cons c t ih =>
    have hlen := length_le_charToUtf16 t
    by_cases hpast : charToUtf16 (c :: t) (c :: t).length ≤ character
    · have hall := hpast
      rw [charToUtf16_cons] at hall
      have hc := utf16Len_cases c
      have hlong : (c :: t).length ≤ character := by
        rw [List.length_cons]
        omega
      rw [Nat.min_eq_right hpast, Nat.min_eq_right hlong, utf16ToChar_length]
      exact iff_of_true rfl (.inl hpast)
    · rw [Nat.min_eq_left (Nat.le_of_not_le hpast)]
      have hshort : CountsAlike (c :: t) character ↔
          ∀ x ∈ (c :: t).take character, utf16Len x = 1 := or_iff_right hpast
      rw [hshort]
      rw [charToUtf16_cons, Nat.not_le] at hpast
      cases character with
      | zero =>
        have hc := utf16Len_cases c
        rw [utf16ToChar, if_pos (by omega)]
        simp
      | succ k =>
        rw [List.take_succ_cons, List.forall_mem_cons, List.length_cons, utf16ToChar]
        rcases utf16Len_cases c with hc | hc
        · -- one unit and one character: the rest of the line decides
          rw [hc] at hpast ⊢
          have hrest := ih k
          have hunits : k ≤ charToUtf16 t t.length := by omega
          rw [Nat.min_eq_left hunits, CountsAlike, or_iff_right (by omega)] at hrest
          rw [if_neg (by omega), Nat.add_sub_cancel, Nat.succ_min_succ, Nat.succ_inj, hrest]
          exact (and_iff_right rfl).symm
        · -- two units and one character: the code units are behind from here on
          rw [hc] at hpast ⊢
          refine iff_of_false (fun heq => ?_) (fun hboth => absurd hboth.1 (by decide))
          split_ifs at heq with hk
          · omega
          · have hself := utf16ToChar_le_self t (k + 1 - 2)
            have hbehind := utf16ToChar_lt_length (t := t) (n := k + 1 - 2) (by omega)
            omega

/-! ## Positions -/

/-- The part of a line in front of its terminator. -/
def shownAt (t : Text) (line : ℕ) : Text := (lineAt t line).take (visibleLen (lineAt t line))

theorem length_shownAt (t : Text) (line : ℕ) : (shownAt t line).length = visibleLen (lineAt t line) := by
  rw [shownAt, List.length_take, Nat.min_eq_left (visibleLen_le _)]

/-- Where the columns of a position count alike: on a line of the text, along that line; behind the
last line, along the last line. -/
def PlainAt (t : Text) (line character : ℕ) : Prop :=
  if line < lenLines t then CountsAlike (shownAt t line) character
  else (lineAt t (lenLines t - 1)).length ≤ character

instance (t : Text) (line character : ℕ) : Decidable (PlainAt t line character) :=
  inferInstanceAs (Decidable (if line < lenLines t then CountsAlike (shownAt t line) character
    else (lineAt t (lenLines t - 1)).length ≤ character))

/-- The offset that `position_open_buffer` makes of a one-based line and column. -/
def jumpTo (b : Buffer) (line column : ℕ) : ℕ :=
  let range := b.lineRange (min (line - 1) (lenLines b.text - 1))
  min (range.1 + (column - 1)) range.2

theorem lineRange_of_lt {b : Buffer} {line : ℕ} (h : line < lenLines b.text) :
    b.lineRange line =
      (lineToChar b.text line, lineToChar b.text line + visibleLen (lineAt b.text line)) := by
  rw [Buffer.lineRange, if_neg (Nat.not_le.mpr h), lineEnd_eq (lineOf_lineToChar h)]

/-- **A jump goes to the offset that is meant** exactly where the columns count alike. -/
theorem jumpTo_eq_iff (b : Buffer) (line character : ℕ) :
    jumpTo b (line + 1) (character + 1) = offsetFromUtf16 b.text line character ↔
      PlainAt b.text line character := by
  have hpos := lenLines_pos b.text
  rw [jumpTo, PlainAt]
  by_cases hline : line < lenLines b.text
  · have hmin : min (line + 1 - 1) (lenLines b.text - 1) = line := by omega
    rw [hmin, lineRange_of_lt hline, if_pos hline, ← jumpColumn_eq_iff, length_shownAt,
      offsetFromUtf16, if_neg (Nat.not_le.mpr hline)]
    dsimp only
    rw [Nat.add_sub_cancel, ← shownAt, Nat.add_min_add_left, Nat.add_left_cancel_iff, length_shownAt]
  · have hline := Nat.le_of_not_lt hline
    have hmin : min (line + 1 - 1) (lenLines b.text - 1) = lenLines b.text - 1 := by omega
    have hlast : lenLines b.text - 1 + 1 = lenLines b.text := by omega
    have hend : lineToChar b.text (lenLines b.text - 1) +
        (lineAt b.text (lenLines b.text - 1)).length = b.text.length := by
      rw [← lineToChar_succ, hlast, lineToChar_lenLines]
    rw [hmin, lineRange_of_lt (by omega), visibleLen_unbroken (lineAt_last hlast), hend,
      if_neg (by omega), offsetFromUtf16_behind hline]
    dsimp only
    omega

/-! ## Where a jump lands -/

/-- The file with a path is on screen, it has this text, and its cursor is at this offset. -/
def App.Model.CursorAt (m : App.Model) (path : Path) (text : Text) (p : ℕ) : Prop :=
  ∃ i b, m.located path = some (i, b) ∧ m.activeBuffer = some i ∧ b.text = text ∧
    b.selection = .point p

/-- A file that is not open is on its way under an id of its own, and a jump to a one-based line and
column of it is kept for its arrival. -/
structure App.Model.Expects (m : App.Model) (path : Path) (line column : ℕ) (buffer : BufferId) :
    Prop where
  closed : m.located path = none
  kept : m.pendingOpenLocation = some (path, line, column)
  fresh : ∀ b ∈ m.buffers, b.id ≠ buffer
  ours : m.ForBuffer buffer

namespace App.Model

variable {h : Host} {m m' : Model} {path : Path}

theorem CursorAt.unique {text : Text} {p q : ℕ} (hp : m.CursorAt path text p)
    (hq : m.CursorAt path text q) : p = q := by
  obtain ⟨i, b, hl, -, -, hsel⟩ := hp
  obtain ⟨i', b', hl', -, -, hsel'⟩ := hq
  rw [hl] at hl'
  obtain ⟨-, rfl⟩ := Prod.mk.inj (Option.some.inj hl')
  rw [hsel] at hsel'
  exact congrArg (fun s : Selection => s.primary.head) hsel'

theorem CursorAt.iff {text : Text} {p q : ℕ} (hp : m.CursorAt path text p) :
    m.CursorAt path text q ↔ p = q :=
  ⟨fun hq => hp.unique hq, fun heq => heq ▸ hp⟩

theorem located_setBuffer {i : ℕ} {b b' : Buffer} (hl : m.located path = some (i, b))
    (hb' : b'.path = some path) : (m.setBuffer i b').located path = some (i, b') := by
  obtain ⟨hb, hpath, -⟩ := located_some hl
  obtain ⟨hlt, -⟩ := List.getElem?_eq_some_iff.mp hb
  have hpaths : (m.setBuffer i b').buffers.map (·.path) = m.buffers.map (·.path) :=
    Firsts.map_set_of_eq hb (hb'.trans hpath.symm)
  have hindex : (m.setBuffer i b').indexOf path = m.indexOf path := by
    have key : ∀ m : Model, m.indexOf path = (m.buffers.map (·.path)).findIdx? (· = some path) := by
      intro m
      rw [List.findIdx?_map]
      rfl
    rw [key, key, hpaths]
  have hfound : m.indexOf path = some i := by
    obtain ⟨j, hj, hx⟩ := Option.bind_eq_some_iff.mp hl
    obtain ⟨b₀, -, hpair⟩ := Option.map_eq_some_iff.mp hx
    rw [hj, (Prod.mk.inj hpair).1]
  rw [located, hindex, hfound, Option.bind_some, setBuffer, List.getElem?_set_self hlt]
  rfl

/-- **Where a jump lands in a file that is open.** -/
theorem placed_cursorAt {i : ℕ} {b : Buffer} (hl : m.located path = some (i, b))
    (line column : ℕ) :
    (m.positionOpenBuffer path line column).1.CursorAt path b.text (jumpTo b line column) := by
  have hpath := (located_some hl).2.1
  have hset : (m.setBuffer i (b.setSelection (.point (jumpTo b line column)))).located path =
      some (i, b.setSelection (.point (jumpTo b line column))) := located_setBuffer hl hpath
  rw [positionOpenBuffer, hl]
  exact ⟨i, _, hset, rfl, rfl, rfl⟩

theorem CursorAt.of_bare {text : Text} {p : ℕ} (hm : m'.bare = m.bare)
    (hp : m.CursorAt path text p) : m'.CursorAt path text p := by
  obtain ⟨i, b, hl, hactive, htext, hsel⟩ := hp
  have hdocs := docs_of_bare hm
  have hindex : m'.indexOf path = m.indexOf path := by
    have key : ∀ m : Model, m.indexOf path = m.docs.findIdx? (·.path = some path) := by
      intro m
      rw [docs, List.findIdx?_map]
      rfl
    rw [key, key, hdocs]
  obtain ⟨j, hj, hx⟩ := Option.bind_eq_some_iff.mp hl
  obtain ⟨b₀, hb₀, hpair⟩ := Option.map_eq_some_iff.mp hx
  obtain ⟨rfl, rfl⟩ := Prod.mk.inj hpair
  have hbare : (m'.buffers[j]?).map Buffer.bare = some b₀.bare := by
    rw [← docs_getElem?, hdocs, docs_getElem?, hb₀]
    rfl
  obtain ⟨b', hb', heq⟩ := Option.map_eq_some_iff.mp hbare
  refine ⟨j, b', ?_, ?_, ?_, ?_⟩
  · rw [located, hindex, hj, Option.bind_some, hb']
    rfl
  · exact (congrArg Model.activeBuffer hm).trans hactive
  · exact (congrArg Buffer.text heq).trans htext
  · exact (congrArg Buffer.selection heq).trans hsel

theorem path_ne_of_located (hl : m.located path = none) : ∀ b ∈ m.buffers, b.path ≠ some path := by
  have hindex : m.indexOf path = none := by
    have hboth := located_isNone m path
    rw [hl] at hboth
    exact Option.isNone_iff_eq_none.mp hboth.symm
  intro b hb heq
  have hno := List.findIdx?_eq_none_iff.mp hindex b hb
  simp [heq] at hno

/-- A path that some buffer has, and only buffers with this text, is found with this text. -/
theorem located_of_mem {text : Text} (hmem : ∃ b ∈ m.buffers, b.path = some path)
    (htext : ∀ b ∈ m.buffers, b.path = some path → b.text = text) :
    ∃ i b, m.located path = some (i, b) ∧ b.text = text := by
  obtain ⟨b, hb, hpath⟩ := hmem
  cases hfound : m.bufferAt path with
  | none =>
    have hno := List.find?_eq_none.mp hfound b hb
    simp [hpath] at hno
  | some b₁ =>
    obtain ⟨i, hi⟩ := located_of_bufferAt hfound
    have hpath₁ : b₁.path = some path := by simpa using List.find?_some hfound
    exact ⟨i, b₁, hi, htext b₁ (List.mem_of_find?_eq_some hfound) hpath₁⟩

/-- **Where a jump lands in a file that arrives.** -/
theorem displayed_cursorAt {line column : ℕ} {buffer : BufferId} {text : Text} {restored : Bool}
    (hw : m.Expects path line column buffer)
    (hs : m.displayed h buffer path text restored = some m') :
    ∃ b : Buffer, b.text = normalizeNewlines text ∧
      m'.CursorAt path (normalizeNewlines text) (jumpTo b line column) := by
  obtain ⟨m₁, hsyntax, rfl⟩ := Option.map_eq_some_iff.mp hs
  generalize hopened : (if restored = true then _ else _ : Model) = opened at hsyntax
  have hperm : opened.buffers.Perm (m.buffers ++ [Buffer.fromText buffer (some path) text]) := by
    rw [← hopened]
    split
    · exact finishRestoredRead_perm _ buffer
    · exact .refl _
  have hkept : m₁.pendingOpenLocation = some (path, line, column) := by
    refine (congrArg Model.pendingOpenLocation (syncSyntax_bare hsyntax)).trans ?_
    rw [← hw.kept, ← hopened]
    split
    · unfold finishRestoredRead
      dsimp only
      split <;> rfl
    · rfl
  have hdocs := docs_of_bare (syncSyntax_bare hsyntax)
  have hall : ∀ b ∈ opened.buffers, b.path = some path → b.text = normalizeNewlines text := by
    intro b hb hpath
    rcases List.mem_append.mp (hperm.mem_iff.mp hb) with hb | hb
    · exact absurd hpath (path_ne_of_located hw.closed b hb)
    · rw [List.mem_singleton.mp hb]
      rfl
  obtain ⟨i, b, hl, htext⟩ : ∃ i b, m₁.located path = some (i, b) ∧
      b.text = normalizeNewlines text := by
    refine located_of_mem ?_ fun b hb hpath => ?_
    · have hnew : (Buffer.fromText buffer (some path) text).bare ∈ m₁.docs := by
        rw [hdocs]
        exact List.mem_map_of_mem (hperm.mem_iff.mpr (List.mem_append_right _ List.mem_cons_self))
      obtain ⟨b, hb, heq⟩ := List.mem_map.mp hnew
      exact ⟨b, hb, congrArg Buffer.path heq⟩
    · have hold : b.bare ∈ opened.docs := by
        rw [← hdocs]
        exact List.mem_map_of_mem hb
      obtain ⟨b₀, hb₀, heq⟩ := List.mem_map.mp hold
      have hsame : b₀.bare.text = b.bare.text := congrArg Buffer.text heq
      exact hsame.symm.trans (hall b₀ hb₀ ((congrArg Buffer.path heq).trans hpath))
  refine ⟨b, htext, ?_⟩
  rw [hkept]
  dsimp only
  rw [if_pos rfl]
  have hplaced := placed_cursorAt (m := { m₁ with pendingOpenLocation := none }) hl line column
  rw [htext] at hplaced
  have hsynced := hplaced.of_bare (syncLspDocuments_bare _)
  exact hsynced

/-- The answer to the read of a file that a jump is kept for. -/
theorem loaded_cursorAt {line column : ℕ} {buffer : BufferId} {text : Text}
    (hw : m.Expects path line column buffer)
    (hs : m.step h (.fs (.fileLoaded buffer path (some text))) = some m') :
    ∃ m₁ : Model, m₁.finishPendingWorkspaceEdit h = some m' ∧
      (m.pendingWorkspaceEdit = none → m' = m₁) ∧
      ∃ b : Buffer, b.text = normalizeNewlines text ∧
        m₁.CursorAt path (normalizeNewlines text) (jumpTo b line column) := by
  have hload : m.fileLoaded h buffer path (some text) = some m' := hs
  unfold fileLoaded at hload
  rw [hw.ours.1, hw.ours.2] at hload
  dsimp only at hload
  have hnew : m.buffers.findIdx? (·.id = buffer) = none :=
    List.findIdx?_eq_none_iff.mpr fun b hb => by simpa using hw.fresh b hb
  rw [hnew, Option.bind_none] at hload
  dsimp only at hload
  rw [showLoaded_displayed] at hload
  obtain ⟨m₁, hdisplayed, hfinish⟩ := Option.bind_eq_some_iff.mp hload
  have hexpects : ({ m with opening := m.opening.filter (·.1 ≠ buffer) } : Model).Expects path
      line column buffer := ⟨hw.closed, hw.kept, hw.fresh, hw.ours⟩
  refine ⟨m₁, hfinish, fun hnone => ?_, displayed_cursorAt hexpects hdisplayed⟩
  have hwaits : m₁.Waits := by
    intro p hp
    have hpending := displayed_pending hdisplayed
    rw [hnone] at hpending
    rw [hpending] at hp
    cases hp
  rw [finish_of_waits hwaits] at hfinish
  exact (Option.some.inj hfinish).symm

theorem openFileAt_kept (hl : m.located path = none) (line column : ℕ) :
    (m.openFileAt path line column).located path = none ∧
      (m.openFileAt path line column).pendingOpenLocation = some (path, line, column) ∧
      ∃ buffer, (buffer, path) ∈ (m.openFileAt path line column).opening := by
  have hindex : m.indexOf path = none := by
    have hboth := located_isNone m path
    rw [hl] at hboth
    exact Option.isNone_iff_eq_none.mp hboth.symm
  have hfound : ({ m with pendingOpenLocation := some (path, line, column) } : Model).indexOf path =
      none := hindex
  rw [openFileAt, positionOpenBuffer, hl]
  dsimp only
  rw [openFile, hfound]
  dsimp only
  split_ifs with hopening
  · obtain ⟨o, ho, heq⟩ := List.any_eq_true.mp hopening
    obtain rfl : o.2 = path := by simpa using heq
    exact ⟨hl, rfl, o.1, ho⟩
  · exact ⟨hl, rfl, _, List.mem_append_right _ List.mem_cons_self⟩

/-- **A jump lands where the server meant exactly when characters count like code units** up to the
column, in a file that is open and in one that is loaded first. -/
theorem openLspLocation_lands_iff (h : Host) (m : Model) (location : Location)
    (hroot : (m.root.any fun root => location.path.startsWith root) = true) :
    (∀ i b, m.located location.path = some (i, b) →
      ((m.openLspLocation location).CursorAt location.path b.text
          (offsetFromUtf16 b.text location.range.start.line location.range.start.character) ↔
        PlainAt b.text location.range.start.line location.range.start.character)) ∧
    (m.located location.path = none →
      (m.openLspLocation location).located location.path = none ∧
      (m.openLspLocation location).pendingOpenLocation = some (location.path,
        location.range.start.line + 1, location.range.start.character + 1) ∧
      (∃ buffer, (buffer, location.path) ∈ (m.openLspLocation location).opening) ∧
      ∀ (m₁ : Model) (buffer : BufferId) (text : Text) (m₂ : Model),
        m₁.Expects location.path (location.range.start.line + 1)
          (location.range.start.character + 1) buffer →
        m₁.step h (.fs (.fileLoaded buffer location.path (some text))) = some m₂ →
        ∃ m₃ : Model, m₃.finishPendingWorkspaceEdit h = some m₂ ∧
          (m₁.pendingWorkspaceEdit = none → m₂ = m₃) ∧
          (m₃.CursorAt location.path (normalizeNewlines text)
              (offsetFromUtf16 (normalizeNewlines text) location.range.start.line
                location.range.start.character) ↔
            PlainAt (normalizeNewlines text) location.range.start.line
              location.range.start.character)) := by
  have hopen : m.openLspLocation location = m.openFileAt location.path
      (location.range.start.line + 1) (location.range.start.character + 1) := if_pos hroot
  rw [hopen]
  refine ⟨fun i b hl => ?_, fun hl => ?_⟩
  · have hplaced := placed_cursorAt hl (location.range.start.line + 1)
      (location.range.start.character + 1)
    have hat : m.openFileAt location.path (location.range.start.line + 1)
        (location.range.start.character + 1) = (m.positionOpenBuffer location.path
          (location.range.start.line + 1) (location.range.start.character + 1)).1 := by
      rw [openFileAt, positionOpenBuffer, hl]
    rw [hat, hplaced.iff]
    exact jumpTo_eq_iff b _ _
  · obtain ⟨hclosed, hkept, hopening⟩ := openFileAt_kept hl (location.range.start.line + 1)
      (location.range.start.character + 1)
    refine ⟨hclosed, hkept, hopening, fun m₁ buffer text m₂ hw hs => ?_⟩
    obtain ⟨m₃, hfinish, hnone, b, htext, hcursor⟩ := loaded_cursorAt hw hs
    refine ⟨m₃, hfinish, hnone, ?_⟩
    rw [hcursor.iff, ← htext]
    exact jumpTo_eq_iff b _ _

/-! ## A crab in front of the column -/

def crabRoot : Path := [.rootDir, .normal "w"]

def crabPath : Path := [.rootDir, .normal "w", .normal "crab.rs"]

/-- The letter behind the crab, in code units. -/
def behindCrab : Location := ⟨crabPath, ⟨⟨0, 2⟩, ⟨0, 3⟩⟩⟩

/-- The workspace, with no file open. -/
def crabWorkspace : Model :=
  (Runs.run (step Host.plain) {} [.openWorkspace crabRoot []]).get (by decide)

/-- The file is open. -/
def crabOpen : Model :=
  (Runs.run (step Host.plain) crabWorkspace [.openFile crabPath,
    .fs (.fileLoaded ⟨1⟩ crabPath (some ['🦀', 'x']))]).get (by decide)

/-- The file is on its way for the jump. -/
def crabAwaited : Model := crabWorkspace.openLspLocation behindCrab

/-- The file has arrived. -/
def crabLoaded : Model :=
  (crabAwaited.step Host.plain (.fs (.fileLoaded ⟨1⟩ crabPath (some ['🦀', 'x'])))).get (by decide)

theorem openLspLocation_lands_iff_crab :
    ((crabOpen.openLspLocation behindCrab).CursorAt crabPath ['🦀', 'x']
        (offsetFromUtf16 ['🦀', 'x'] 0 2) ↔ PlainAt ['🦀', 'x'] 0 2) ∧
      (crabLoaded.CursorAt crabPath ['🦀', 'x'] (offsetFromUtf16 ['🦀', 'x'] 0 2) ↔
        PlainAt ['🦀', 'x'] 0 2) := by
  have hexpects : crabAwaited.Expects crabPath 1 3 ⟨1⟩ := ⟨rfl, rfl, by decide, by decide⟩
  refine ⟨(openLspLocation_lands_iff Host.plain crabOpen behindCrab (by decide)).1 0
    (crabOpen.buffers.get ⟨0, by decide⟩) rfl, ?_⟩
  obtain ⟨m₃, -, hsame, hiff⟩ :=
    ((openLspLocation_lands_iff Host.plain crabWorkspace behindCrab (by decide)).2 rfl).2.2.2
      crabAwaited ⟨1⟩ ['🦀', 'x'] crabLoaded hexpects (Option.some_get _).symm
  rw [hsame rfl]
  exact hiff

/-- **A jump behind a crab goes too far**, whether the file is open or loaded first. -/
theorem openLspLocation_misses :
    (¬ ∀ (m : Model) (location : Location) (i : ℕ) (b : Buffer),
      (m.root.any fun root => location.path.startsWith root) = true →
      m.located location.path = some (i, b) →
        (m.openLspLocation location).CursorAt location.path b.text
          (offsetFromUtf16 b.text location.range.start.line location.range.start.character)) ∧
      ¬ crabLoaded.CursorAt crabPath ['🦀', 'x'] (offsetFromUtf16 ['🦀', 'x'] 0 2) := by
  have hmeant : offsetFromUtf16 ['🦀', 'x'] 0 2 = 1 := by decide
  refine ⟨fun hall => ?_, fun hcursor => ?_⟩
  · have hcursor : (crabOpen.openLspLocation behindCrab).CursorAt crabPath ['🦀', 'x'] 1 :=
      hall crabOpen behindCrab 0 (crabOpen.buffers.get ⟨0, by decide⟩) (by decide) rfl
    have hgone : (crabOpen.openLspLocation behindCrab).CursorAt crabPath ['🦀', 'x'] 2 :=
      ⟨0, _, rfl, rfl, rfl, rfl⟩
    exact absurd (hcursor.unique hgone) (by decide)
  · rw [hmeant] at hcursor
    have hgone : crabLoaded.CursorAt crabPath ['🦀', 'x'] 2 := ⟨0, _, rfl, rfl, rfl, rfl⟩
    exact absurd (hcursor.unique hgone) (by decide)

end App.Model

end Termesh
