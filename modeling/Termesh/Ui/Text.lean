import Mathlib.Data.List.DropRight
import Mathlib.Data.List.Basic
import Termesh.Editor.Change

/-!
# Text in cells

A terminal counts cells, and a character takes none, one or two of them: `cells` stands for the
width that the Unicode tables give.

* `charWidth`, `displayColumn`, `displayWidth`: the cells of a line; **`displayWidth_plain`**;
* `Wrapping`, `pushChar`, `pushWord`, `wrap`: text broken into lines;
* **`wrap_eq`**: the lines of a text are those of its paragraphs.
-/

namespace Termesh

namespace Ui

section

variable (cells : Char → Option ℕ)

/-- `TAB_WIDTH`. -/
def tabWidth : ℕ := 4

/-- The width of one char at `column`, in cells. -/
def charWidth (c : Char) (column tabWidth : ℕ) : ℕ :=
  if c = '\t' then tabWidth - column % tabWidth else (cells c).getD 0

/-- `trim_end_matches('\n')`. -/
def trimNewlines (line : Text) : Text := line.rdropWhile (· = '\n')

/-- The screen column a char offset lands on within `line`. -/
def displayColumn (line : Text) (charOffset tabWidth : ℕ) : ℕ :=
  ((trimNewlines line).take charOffset).foldl
    (fun column c => column + charWidth cells c column tabWidth) 0

/-- The display width of a whole line: no line is as long as `usize::MAX`. -/
def displayWidth (line : Text) (tabWidth : ℕ) : ℕ := displayColumn cells line line.length tabWidth

/-- Where `wrap` stands: the lines pushed, the line begun, and the cells it takes. -/
structure Wrapping where
  out : List Text
  line : Text
  used : ℕ

namespace Wrapping

/-- `out.push(std::mem::take(&mut line)); used = 0`. -/
def push (s : Wrapping) : Wrapping := { out := s.out ++ [s.line], line := [], used := 0 }

/-- One char of a word that is broken at the edge. -/
def pushChar (width : ℕ) (s : Wrapping) (ch : Char) : Wrapping :=
  let cw := displayWidth cells [ch] tabWidth
  let s := if width < s.used + cw then s.push else s
  { s with line := s.line ++ [ch], used := s.used + cw }

/-- The body of the loop over the words of a paragraph. -/
def pushWord (width : ℕ) (s : Wrapping) (word : Text) : Wrapping :=
  let w := displayWidth cells word tabWidth
  if width < w then
    let s := if s.line ≠ [] then s.push else s
    word.foldl (pushChar cells width) s
  else
    let needed := if s.line = [] then w else w + 1
    let s := if width < s.used + needed then s.push else s
    let s := if s.line ≠ [] then { s with line := s.line ++ [' '], used := s.used + 1 } else s
    { s with line := s.line ++ word, used := s.used + w }

/-- The lines, with the one begun. -/
def lines (s : Wrapping) : List Text := s.out ++ [s.line]

end Wrapping

/-- The body of the loop over the paragraphs. -/
def wrapParagraph (width : ℕ) (out : List Text) (paragraph : Text) : List Text :=
  ((paragraph.splitOn ' ').foldl (Wrapping.pushWord cells width)
    { out, line := [], used := 0 }).lines

/-- Wrap `text` to `width` cells, breaking on spaces and honouring explicit newlines. -/
def wrap (text : Text) (width : ℕ) : List Text :=
  if width = 0 then [] else (text.splitOn '\n').foldl (wrapParagraph cells width) []

/-- The lines of one paragraph. -/
def paragraphLines (width : ℕ) (paragraph : Text) : List Text :=
  wrapParagraph cells width [] paragraph

end

variable {cells : Char → Option ℕ}

/-! ## The cells of plain text -/

/-- Text without tabs and newlines. -/
structure Plain (t : Text) : Prop where
  tab : '\t' ∉ t
  newline : '\n' ∉ t

theorem plain_nil : Plain [] := ⟨by simp, by simp⟩

theorem plain_append {t u : Text} : Plain (t ++ u) ↔ Plain t ∧ Plain u := by
  constructor
  · intro h
    have htab := h.tab
    have hnl := h.newline
    simp only [List.mem_append, not_or] at htab hnl
    exact ⟨⟨htab.1, hnl.1⟩, htab.2, hnl.2⟩
  · intro ⟨ht, hu⟩
    exact ⟨by simp [ht.tab, hu.tab], by simp [ht.newline, hu.newline]⟩

theorem plain_cons {c : Char} {t : Text} : Plain (c :: t) ↔ Plain [c] ∧ Plain t :=
  plain_append (t := [c])

variable (cells) in
/-- The cells of plain text. -/
def cellsOf (t : Text) : ℕ := (t.map fun c => (cells c).getD 0).sum

@[simp] theorem cellsOf_nil : cellsOf cells [] = 0 := rfl

@[simp] theorem cellsOf_cons (c : Char) (t : Text) :
    cellsOf cells (c :: t) = (cells c).getD 0 + cellsOf cells t := by
  simp [cellsOf]

@[simp] theorem cellsOf_append (t u : Text) :
    cellsOf cells (t ++ u) = cellsOf cells t + cellsOf cells u := by
  simp [cellsOf]

theorem trimNewlines_plain {t : Text} (h : Plain t) : trimNewlines t = t := by
  refine List.rdropWhile_eq_self_iff.mpr fun hne => ?_
  have hlast : t.getLast hne ≠ '\n' := fun heq => h.newline (heq ▸ List.getLast_mem hne)
  simpa using hlast

theorem foldl_charWidth {t : Text} (h : Plain t) (column n : ℕ) :
    t.foldl (fun column c => column + charWidth cells c column n) column =
      column + cellsOf cells t := by
  induction t generalizing column with
  | nil => rfl
  | cons c t ih =>
    have hc : c ≠ '\t' := fun heq => (plain_cons.mp h).1.tab (by simp [heq])
    rw [List.foldl_cons, ih (plain_cons.mp h).2, charWidth, if_neg hc, cellsOf_cons, Nat.add_assoc]

/-- **Plain text takes the cells of its characters.** -/
theorem displayWidth_plain {t : Text} (h : Plain t) (n : ℕ) :
    displayWidth cells t n = cellsOf cells t := by
  rw [displayWidth, displayColumn, trimNewlines_plain h, List.take_length, foldl_charWidth h,
    Nat.zero_add]

/-! ## Paragraph by paragraph -/

namespace Wrapping

/-- The same, behind other lines. -/
def under (o : List Text) (s : Wrapping) : Wrapping := { s with out := o ++ s.out }

@[simp] theorem under_line (o : List Text) (s : Wrapping) : (s.under o).line = s.line := rfl

@[simp] theorem under_used (o : List Text) (s : Wrapping) : (s.under o).used = s.used := rfl

@[simp] theorem under_lines (o : List Text) (s : Wrapping) :
    (s.under o).lines = o ++ s.lines := List.append_assoc ..

@[simp] theorem push_line (s : Wrapping) : s.push.line = [] := rfl

@[simp] theorem push_used (s : Wrapping) : s.push.used = 0 := rfl

theorem under_push (o : List Text) (s : Wrapping) : (s.under o).push = s.push.under o := by
  simp [push, under]

theorem push_if_under (o : List Text) (s : Wrapping) (p : Prop) [Decidable p] :
    (if p then (s.under o).push else s.under o) = (if p then s.push else s).under o := by
  by_cases hp : p
  · rw [if_pos hp, if_pos hp, under_push]
  · rw [if_neg hp, if_neg hp]

theorem pushChar_under (width : ℕ) (o : List Text) (s : Wrapping) (ch : Char) :
    pushChar cells width (s.under o) ch = (pushChar cells width s ch).under o := by
  dsimp only [pushChar]
  rw [push_if_under]
  rfl

theorem foldl_pushChar_under (width : ℕ) (o : List Text) (s : Wrapping) (t : Text) :
    t.foldl (pushChar cells width) (s.under o) = (t.foldl (pushChar cells width) s).under o := by
  induction t generalizing s with
  | nil => rfl
  | cons c t ih => rw [List.foldl_cons, pushChar_under, ih, List.foldl_cons]

theorem pushWord_under (width : ℕ) (o : List Text) (s : Wrapping) (word : Text) :
    pushWord cells width (s.under o) word = (pushWord cells width s word).under o := by
  dsimp only [pushWord]
  rw [push_if_under, push_if_under, foldl_pushChar_under]
  split_ifs <;> first | rfl | contradiction

theorem foldl_pushWord_under (width : ℕ) (o : List Text) (s : Wrapping) (words : List Text) :
    words.foldl (pushWord cells width) (s.under o) =
      (words.foldl (pushWord cells width) s).under o := by
  induction words generalizing s with
  | nil => rfl
  | cons w words ih => rw [List.foldl_cons, pushWord_under, ih, List.foldl_cons]

end Wrapping

theorem wrapParagraph_eq (width : ℕ) (out : List Text) (paragraph : Text) :
    wrapParagraph cells width out paragraph = out ++ paragraphLines cells width paragraph := by
  have hunder : (paragraph.splitOn ' ').foldl (Wrapping.pushWord cells width)
      (Wrapping.under out { out := [], line := [], used := 0 }) = _ :=
    Wrapping.foldl_pushWord_under width out _ _
  rw [paragraphLines, wrapParagraph, wrapParagraph, ← Wrapping.under_lines, ← hunder]
  simp [Wrapping.under]

/-- **The lines of a text are those of its paragraphs**, in order. -/
theorem wrap_eq (text : Text) {width : ℕ} (h : width ≠ 0) :
    wrap cells text width = (text.splitOn '\n').flatMap (paragraphLines cells width) := by
  have hfold (paragraphs : List Text) (out : List Text) :
      paragraphs.foldl (wrapParagraph cells width) out =
        out ++ paragraphs.flatMap (paragraphLines cells width) := by
    induction paragraphs generalizing out with
    | nil => simp
    | cons p paragraphs ih => rw [List.foldl_cons, ih, wrapParagraph_eq, List.flatMap_cons,
        List.append_assoc]
  rw [wrap, if_neg h, hfold, List.nil_append]

end Ui

end Termesh
