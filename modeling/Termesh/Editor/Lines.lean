import Termesh.Editor.Change

/-!
# Lines, cursor motion and protocol positions

Lines are ropey's: they break at LF, CRLF, CR, VT, FF, NEL, LS and PS, and a line holds its own
terminator.

* `ropeLines`, `lenLines`, `lineToChar`, `charToLine`;
* cursor motion: `left`, `right`, `lineStart`, `lineEnd`, `up`, `down`;
* `utf16Position`, `offsetFromUtf16`: character offsets against `(line, UTF-16 unit)` pairs;
* every one of these stays inside the document (`*_le`).
-/

namespace Termesh

/-- The one-character line breaks. -/
def isLineBreak (c : Char) : Bool :=
  c.val == 0x0A || c.val == 0x0B || c.val == 0x0C || c.val == 0x0D || c.val == 0x85 ||
    c.val == 0x2028 || c.val == 0x2029

/-- Put a character in front of the first line. -/
def consLine (c : Char) : List Text → List Text
  | [] => [[c]]
  | l :: ls => (c :: l) :: ls

/-- The lines of a rope, each with its terminator; the last one has none and may be empty. -/
def ropeLines : Text → List Text
  | [] => [[]]
  | '\r' :: '\n' :: t => ['\r', '\n'] :: ropeLines t
  | c :: t => if isLineBreak c then [c] :: ropeLines t else consLine c (ropeLines t)

/-- `Rope::len_lines`. -/
def lenLines (t : Text) : ℕ := (ropeLines t).length

/-- The length of the first `n` lines. -/
def lineToCharAux (ls : List Text) (n : ℕ) : ℕ := ((ls.take n).map List.length).sum

/-- `Rope::line_to_char`. -/
def lineToChar (t : Text) (line : ℕ) : ℕ := lineToCharAux (ropeLines t) line

/-- The index of the line that holds offset `pos`. -/
def charToLineAux : List Text → ℕ → ℕ
  | l :: l' :: ls, pos => if pos < l.length then 0 else charToLineAux (l' :: ls) (pos - l.length) + 1
  | _, _ => 0

/-- `Rope::char_to_line`. -/
def charToLine (t : Text) (pos : ℕ) : ℕ := charToLineAux (ropeLines t) pos

/-- `Rope::line`. -/
def lineAt (t : Text) (line : ℕ) : Text := (ropeLines t).getD line []

/-! ## Cursor motion -/

/-- The line `pos` sits on. -/
def lineOf (t : Text) (pos : ℕ) : ℕ := charToLine t (min pos t.length)

/-- The column of `pos` within its line. -/
def columnOf (t : Text) (pos : ℕ) : ℕ :=
  let pos := min pos t.length
  pos - lineToChar t (charToLine t pos)

/-- First character of the line `pos` is on. -/
def lineStart (t : Text) (pos : ℕ) : ℕ := lineToChar t (lineOf t pos)

/-- The length of a line in front of a trailing `\n`. -/
def visibleLen (line : Text) : ℕ :=
  match line.getLast? with
  | some '\n' => line.length - 1
  | _ => line.length

/-- Last character of the line `pos` is on, before its terminator. -/
def lineEnd (t : Text) (pos : ℕ) : ℕ :=
  let line := lineOf t pos
  lineToChar t line + visibleLen (lineAt t line)

def left (_ : Text) (pos : ℕ) : ℕ := pos - 1

def right (t : Text) (pos : ℕ) : ℕ := min (pos + 1) t.length

/-- Land on `line` at `column`, or at its end if the line is shorter. -/
def toLine (t : Text) (line column : ℕ) : ℕ :=
  let start := lineToChar t line
  min (start + column) (lineEnd t start)

/-- One line up; `pos` itself on the first line. -/
def up (t : Text) (pos : ℕ) (goal : Option ℕ) : ℕ :=
  let line := lineOf t pos
  if line = 0 then pos else toLine t (line - 1) (goal.getD (columnOf t pos))

/-- One line down; `pos` itself on the last line. -/
def down (t : Text) (pos : ℕ) (goal : Option ℕ) : ℕ :=
  let line := lineOf t pos
  if lenLines t ≤ line + 1 then pos else toLine t (line + 1) (goal.getD (columnOf t pos))

/-! ## Protocol positions -/

/-- UTF-16 code units of a character. -/
def utf16Len (c : Char) : ℕ := if c.val < 0x10000 then 1 else 2

/-- `char_to_utf16_cu`. -/
def charToUtf16 (line : Text) (n : ℕ) : ℕ := ((line.take n).map utf16Len).sum

/-- `utf16_cu_to_char`: an offset inside a surrogate pair belongs to its character. -/
def utf16ToChar : Text → ℕ → ℕ
  | [], _ => 0
  | c :: t, n => if n < utf16Len c then 0 else utf16ToChar t (n - utf16Len c) + 1

/-- `(line, character)` for an offset, with `character` in UTF-16 code units. -/
def utf16Position (t : Text) (offset : ℕ) : ℕ × ℕ :=
  let offset := min offset t.length
  let line := charToLine t offset
  (line, charToUtf16 (lineAt t line) (offset - lineToChar t line))

/-- The offset for a protocol position, clamped to the line and to the document. -/
def offsetFromUtf16 (t : Text) (line character : ℕ) : ℕ :=
  if lenLines t ≤ line then t.length
  else
    let content := (lineAt t line).take (visibleLen (lineAt t line))
    let character := min character (charToUtf16 content content.length)
    lineToChar t line + utf16ToChar content character

/-! ## Bounds -/

theorem flatten_consLine (c : Char) (ls : List Text) :
    (consLine c ls).flatten = c :: ls.flatten := by
  cases ls <;> rfl

theorem flatten_ropeLines (t : Text) : (ropeLines t).flatten = t := by
  induction t using ropeLines.induct with
  | case1 => rfl
  | case2 t ih => simp [ropeLines, ih]
  | case3 c t h hb ih => rw [ropeLines.eq_3 _ _ h, if_pos hb]; simp [ih]
  | case4 c t h hb ih => rw [ropeLines.eq_3 _ _ h, if_neg hb, flatten_consLine, ih]

theorem lineToChar_add_lineAt_le (t : Text) (n : ℕ) :
    lineToChar t n + (lineAt t n).length ≤ t.length := by
  have key : ∀ (ls : List Text) (n : ℕ),
      lineToCharAux ls n + (ls.getD n []).length ≤ ls.flatten.length := by
    intro ls
    induction ls with
    | nil => intro n; simp [lineToCharAux]
    | cons l ls ih =>
      intro n
      cases n with
      | zero => simp [lineToCharAux]
      | succ n =>
        have := ih n
        simp only [lineToCharAux, List.take_succ_cons, List.map_cons, List.sum_cons,
          List.getD_cons_succ, List.flatten_cons, List.length_append] at this ⊢
        omega
  have := key (ropeLines t) n
  rwa [flatten_ropeLines] at this

theorem lineToChar_le (t : Text) (n : ℕ) : lineToChar t n ≤ t.length :=
  Nat.le_trans (Nat.le_add_right _ _) (lineToChar_add_lineAt_le t n)

theorem visibleLen_le (line : Text) : visibleLen line ≤ line.length := by
  unfold visibleLen
  split <;> omega

theorem lineEnd_le (t : Text) (pos : ℕ) : lineEnd t pos ≤ t.length :=
  Nat.le_trans (Nat.add_le_add_left (visibleLen_le _) _) (lineToChar_add_lineAt_le t _)

theorem lineStart_le (t : Text) (pos : ℕ) : lineStart t pos ≤ t.length := lineToChar_le t _

theorem toLine_le (t : Text) (line column : ℕ) : toLine t line column ≤ t.length :=
  Nat.le_trans (Nat.min_le_right _ _) (lineEnd_le t _)

theorem up_le {t : Text} {pos : ℕ} (h : pos ≤ t.length) (goal : Option ℕ) :
    up t pos goal ≤ t.length := by
  show (if _ = 0 then _ else _) ≤ _
  split_ifs
  · exact h
  · exact toLine_le t _ _

theorem down_le {t : Text} {pos : ℕ} (h : pos ≤ t.length) (goal : Option ℕ) :
    down t pos goal ≤ t.length := by
  show (if _ ≤ _ + 1 then _ else _) ≤ _
  split_ifs
  · exact h
  · exact toLine_le t _ _

theorem left_le {t : Text} {pos : ℕ} (h : pos ≤ t.length) : left t pos ≤ t.length := by
  unfold left; omega

theorem right_le (t : Text) (pos : ℕ) : right t pos ≤ t.length := Nat.min_le_right _ _

theorem utf16ToChar_le (t : Text) (n : ℕ) : utf16ToChar t n ≤ t.length := by
  induction t generalizing n with
  | nil => exact Nat.zero_le _
  | cons c t ih =>
    unfold utf16ToChar
    split_ifs
    · exact Nat.zero_le _
    · exact Nat.succ_le_succ (ih _)

theorem offsetFromUtf16_le (t : Text) (line character : ℕ) :
    offsetFromUtf16 t line character ≤ t.length := by
  unfold offsetFromUtf16
  split_ifs
  · exact Nat.le_refl _
  · refine Nat.le_trans (Nat.add_le_add_left (Nat.le_trans (utf16ToChar_le _ _) ?_) _)
      (lineToChar_add_lineAt_le t line)
    rw [List.length_take]
    exact Nat.min_le_right _ _

end Termesh
