import Termesh.Ui.Text

/-!
# Layouts

The ways to set a text in lines that fit, whatever the wrapping does.

* `CellWidths`: what is known of the width tables;
* `Layout`: a text set in lines; `SpacesFit`: where two spaces stand together, the first of them
  takes no further line;
* `extent`: the lines and the column of greedy filling; `NoFurther`: the order of extents;
* **`exists_init`**: the last word of a layout, and a layout of what is in front of it;
* **`least_layout`**, `exists_extent`: greedy filling reaches no further than any layout;
* **`space_fits_iff`**: a space takes no further line when greedy filling leaves room for it.
-/

namespace Termesh

namespace Ui

/-- What is known of the width tables: two cells at most, and one for a space. -/
structure CellWidths (cells : Char → Option ℕ) : Prop where
  le_two : ∀ c, (cells c).getD 0 ≤ 2
  space : cells ' ' = some 1

variable {cells : Char → Option ℕ} {width : ℕ}

theorem cellsOf_space (hcells : CellWidths cells) : cellsOf cells [' '] = 1 := by
  simp [hcells.space]

theorem cellsOf_char_le (hcells : CellWidths cells) (c : Char) : cellsOf cells [c] ≤ 2 := by
  simpa using hcells.le_two c

/-- A text set in lines that fit: at a break a space is left out, or a line that holds no space goes
on in the next one. -/
inductive Layout (cells : Char → Option ℕ) (width : ℕ) : Text → List Text → Prop
  | last {line : Text} (hfits : cellsOf cells line ≤ width) : Layout cells width line [line]
  | space {line text : Text} {lines : List Text} (hfits : cellsOf cells line ≤ width)
      (hrest : Layout cells width text lines) :
      Layout cells width (line ++ ' ' :: text) (line :: lines)
  | cut {line text : Text} {lines : List Text} (hfits : cellsOf cells line ≤ width)
      (hword : ' ' ∉ line) (hrest : Layout cells width text lines) :
      Layout cells width (line ++ text) (line :: lines)

/-- A paragraph begins with no space, and wherever two spaces stand together, what is in front of
them can be set with the first of them in no more lines than without it. -/
def SpacesFit (cells : Char → Option ℕ) (width : ℕ) (paragraph : Text) : Prop :=
  paragraph.head? ≠ some ' ' ∧ ∀ before after, paragraph = before ++ ' ' :: ' ' :: after →
    ∀ lines, Layout cells width before lines →
      ∃ lines', Layout cells width (before ++ [' ']) lines' ∧ lines'.length ≤ lines.length

/-! ## Extents -/

section

variable (cells width)

/-- How many lines there are, and the column on the last one. -/
def extentOf (lines : List Text) : ℕ × ℕ := (lines.length, cellsOf cells (lines.getLast?.getD []))

/-- The extent behind a character: on the same line, or on a new one. -/
def addChar (e : ℕ × ℕ) (c : Char) : ℕ × ℕ :=
  if width < e.2 + cellsOf cells [c] then (e.1 + 1, cellsOf cells [c])
  else (e.1, e.2 + cellsOf cells [c])

/-- The extent behind a space and a word: on the same line, or on new ones. -/
def addWord (e : ℕ × ℕ) (word : Text) : ℕ × ℕ :=
  if width < e.2 + (cellsOf cells word + 1) then word.foldl (addChar cells width) (e.1 + 1, 0)
  else (e.1, e.2 + (cellsOf cells word + 1))

/-- The extent of a word and those behind it, when lines are filled greedily. -/
def extent (word : Text) (words : List Text) : ℕ × ℕ :=
  words.foldl (addWord cells width) (word.foldl (addChar cells width) (1, 0))

end

/-- Fewer lines, or as many and a last one that is no longer. -/
def NoFurther (a b : ℕ × ℕ) : Prop := a.1 < b.1 ∨ a.1 = b.1 ∧ a.2 ≤ b.2

theorem NoFurther.refl (a : ℕ × ℕ) : NoFurther a a := .inr ⟨rfl, le_rfl⟩

theorem NoFurther.trans {a b c : ℕ × ℕ} (h : NoFurther a b) (h' : NoFurther b c) :
    NoFurther a c := by
  unfold NoFurther at *
  omega

theorem NoFurther.behind {a b : ℕ × ℕ} (n : ℕ) (h : NoFurther a b) :
    NoFurther (n + a.1, a.2) (n + b.1, b.2) := by
  unfold NoFurther at *
  omega

theorem addChar_mono {a b : ℕ × ℕ} (h : NoFurther a b) (c : Char) :
    NoFurther (addChar cells width a c) (addChar cells width b c) := by
  unfold addChar
  unfold NoFurther at *
  split_ifs <;> simp only <;> omega

theorem foldl_addChar_mono {a b : ℕ × ℕ} (h : NoFurther a b) (t : Text) :
    NoFurther (t.foldl (addChar cells width) a) (t.foldl (addChar cells width) b) := by
  induction t generalizing a b with
  | nil => exact h
  | cons c t ih => exact ih (addChar_mono h c)

theorem addChar_behind (n : ℕ) (e : ℕ × ℕ) (c : Char) :
    addChar cells width (n + e.1, e.2) c =
      (n + (addChar cells width e c).1, (addChar cells width e c).2) := by
  unfold addChar
  split_ifs <;> simp [Nat.add_assoc]

theorem foldl_addChar_behind (n : ℕ) (e : ℕ × ℕ) (t : Text) :
    t.foldl (addChar cells width) (n + e.1, e.2) =
      (n + (t.foldl (addChar cells width) e).1, (t.foldl (addChar cells width) e).2) := by
  induction t generalizing e with
  | nil => rfl
  | cons c t ih => rw [List.foldl_cons, addChar_behind, ih, List.foldl_cons]

theorem foldl_addChar_fits {e : ℕ × ℕ} {t : Text} (h : e.2 + cellsOf cells t ≤ width) :
    t.foldl (addChar cells width) e = (e.1, e.2 + cellsOf cells t) := by
  induction t generalizing e with
  | nil => simp
  | cons c t ih =>
    have hsum : cellsOf cells (c :: t) = cellsOf cells [c] + cellsOf cells t := by simp
    rw [List.foldl_cons, addChar, if_neg (by omega), ih (by simp only; omega), hsum]
    simp [Nat.add_assoc]

theorem le_foldl_addChar (e : ℕ × ℕ) (t : Text) : e.1 ≤ (t.foldl (addChar cells width) e).1 := by
  induction t generalizing e with
  | nil => exact le_rfl
  | cons c t ih =>
    refine le_trans ?_ (ih _)
    unfold addChar
    split_ifs
    · exact Nat.le_succ _
    · exact le_rfl

theorem addWord_mono {a b : ℕ × ℕ} (h : NoFurther a b) (word : Text) :
    NoFurther (addWord cells width a word) (addWord cells width b word) := by
  have hlines : b.1 + 1 ≤ (word.foldl (addChar cells width) (b.1 + 1, 0)).1 :=
    le_foldl_addChar (b.1 + 1, 0) word
  have hnew : NoFurther (word.foldl (addChar cells width) (a.1 + 1, 0))
      (word.foldl (addChar cells width) (b.1 + 1, 0)) := by
    refine foldl_addChar_mono ?_ word
    unfold NoFurther at *
    omega
  have hfits (n : ℕ) (hword : cellsOf cells word ≤ width) :
      word.foldl (addChar cells width) (n, 0) = (n, cellsOf cells word) := by
    rw [foldl_addChar_fits (by simpa using hword), Nat.zero_add]
  unfold addWord
  split_ifs with ha hb
  · exact hnew
  · rw [hfits _ (by omega)]
    unfold NoFurther at *
    simp only
    omega
  · unfold NoFurther at *
    simp only at *
    omega
  · unfold NoFurther at *
    simp only
    omega

theorem addWord_behind (n : ℕ) (e : ℕ × ℕ) (word : Text) :
    addWord cells width (n + e.1, e.2) word =
      (n + (addWord cells width e word).1, (addWord cells width e word).2) := by
  unfold addWord
  split_ifs
  · exact foldl_addChar_behind n (e.1 + 1, 0) word
  · rfl

/-! ## The fewest lines -/

namespace Layout

variable {t u word : Text} {lines lines' : List Text}

theorem ne_nil (h : Layout cells width t lines) : lines ≠ [] := by
  cases h <;> exact List.cons_ne_nil _ _

theorem extentOf_singleton (line : Text) : extentOf cells [line] = (1, cellsOf cells line) := rfl

theorem extentOf_cons (line : Text) (h : lines ≠ []) :
    extentOf cells (line :: lines) = (1 + (extentOf cells lines).1, (extentOf cells lines).2) := by
  obtain ⟨first, rest, rfl⟩ := List.exists_cons_of_ne_nil h
  simp [extentOf, Nat.add_comm]

theorem least_word (hword : ' ' ∉ t) (h : Layout cells width t lines) :
    NoFurther (t.foldl (addChar cells width) (1, 0)) (extentOf cells lines) := by
  induction h with
  | last hfits =>
    rw [foldl_addChar_fits (by simpa using hfits)]
    simp [extentOf, NoFurther.refl]
  | space => exact absurd (by simp) hword
  | @cut line text lines hfits _ hrest ih =>
    rw [List.mem_append, not_or] at hword
    have hline : line.foldl (addChar cells width) (1, 0) = (1, 0 + cellsOf cells line) :=
      foldl_addChar_fits (by simpa using hfits)
    have hnew : NoFurther (text.foldl (addChar cells width) (1, 0 + cellsOf cells line))
        (text.foldl (addChar cells width) (1 + 1, 0)) :=
      foldl_addChar_mono (.inl (Nat.lt_succ_self 1)) text
    rw [extentOf_cons line hrest.ne_nil, List.foldl_append, hline]
    refine hnew.trans ?_
    rw [foldl_addChar_behind 1 (1, 0)]
    exact (ih hword.2).behind 1

/-- A word behind a text reaches no further on its last line than on a line of its own. -/
theorem addWord_le (e : ℕ × ℕ) (word : Text) : NoFurther (addWord cells width e word)
    (word.foldl (addChar cells width) (e.1 + 1, 0)) := by
  have hlines : e.1 + 1 ≤ (word.foldl (addChar cells width) (e.1 + 1, 0)).1 :=
    le_foldl_addChar (e.1 + 1, 0) word
  unfold addWord
  split_ifs
  · exact .refl _
  · exact .inl (Nat.lt_of_succ_le hlines)

theorem least_behind (hword : ' ' ∉ word) (line : Text) (h : Layout cells width word lines) :
    NoFurther (addWord cells width (extentOf cells [line]) word) (extentOf cells (line :: lines)) := by
  refine (addWord_le _ word).trans ?_
  rw [extentOf_cons line h.ne_nil]
  have hnew := (h.least_word hword).behind 1
  rwa [← foldl_addChar_behind 1 (1, 0)] at hnew

/-- **The last word of a text** in a layout: what is in front of it is set in a layout of its own,
and the word reaches no less far than behind that one. -/
theorem exists_init (hcells : CellWidths cells) (hword : ' ' ∉ word)
    (h : Layout cells width (t ++ ' ' :: word) lines) :
    ∃ init, Layout cells width t init ∧
      NoFurther (addWord cells width (extentOf cells init) word) (extentOf cells lines) := by
  generalize htext : t ++ ' ' :: word = text at h
  induction h generalizing t with
  | @last line hfits =>
    subst htext
    have hsum : cellsOf cells (t ++ ' ' :: word) = cellsOf cells t + (cellsOf cells word + 1) := by
      simp [hcells.space]
      omega
    refine ⟨[t], .last (by omega), .inr ?_⟩
    have hfits' : ¬width < (extentOf cells [t]).2 + (cellsOf cells word + 1) := by
      simpa [extentOf, ← hsum] using hfits
    rw [addWord, if_neg hfits']
    simp [extentOf, hsum]
  | @space line text lines hfits hrest ih =>
    rcases List.append_eq_append_iff.mp htext with ⟨mid, rfl, hmid⟩ | ⟨mid, rfl, hmid⟩
    · cases mid with
      | nil =>
        obtain ⟨-, rfl⟩ := List.cons.inj hmid
        rw [List.append_nil] at hfits ⊢
        exact ⟨[t], .last hfits, hrest.least_behind hword t⟩
      | cons d mid =>
        obtain ⟨-, rfl⟩ := List.cons.inj hmid
        exact absurd (by simp) hword
    · cases mid with
      | nil =>
        obtain ⟨-, rfl⟩ := List.cons.inj hmid
        rw [List.append_nil]
        exact ⟨[line], .last hfits, hrest.least_behind hword line⟩
      | cons d mid =>
        obtain ⟨rfl, hbehind⟩ := List.cons.inj hmid
        obtain ⟨init, hinit, hle⟩ := ih hbehind.symm
        refine ⟨line :: init, .space hfits hinit, ?_⟩
        rw [extentOf_cons line hinit.ne_nil, extentOf_cons line hrest.ne_nil, addWord_behind]
        exact hle.behind 1
  | @cut line text lines hfits hno hrest ih =>
    obtain ⟨mid, rfl, hbehind⟩ : ∃ mid, t = line ++ mid ∧ text = mid ++ ' ' :: word := by
      rcases List.append_eq_append_iff.mp htext with ⟨mid, rfl, hmid⟩ | ⟨mid, rfl, hmid⟩
      · cases mid with
        | nil => exact ⟨[], by simp, hmid.symm⟩
        | cons d mid =>
          obtain ⟨rfl, -⟩ := List.cons.inj hmid
          exact absurd (by simp) hno
      · exact ⟨mid, rfl, hmid⟩
    obtain ⟨init, hinit, hle⟩ := ih hbehind.symm
    refine ⟨line :: init, .cut hfits hno hinit, ?_⟩
    rw [extentOf_cons line hinit.ne_nil, extentOf_cons line hrest.ne_nil, addWord_behind]
    exact hle.behind 1

/-- **Greedy filling sets a text in the fewest lines**, the last one as short as it can be. -/
theorem least_layout (hcells : CellWidths cells) {words : List Text}
    (hspace : ∀ w ∈ word :: words, ' ' ∉ w)
    (h : Layout cells width (word ++ words.flatMap (' ' :: ·)) lines) :
    NoFurther (extent cells width word words) (extentOf cells lines) := by
  induction words using List.reverseRecOn generalizing lines with
  | nil => exact least_word (hspace word List.mem_cons_self) (by simpa using h)
  | append_singleton words w ih =>
    have hw : ' ' ∉ w := hspace w (by simp)
    have hwords (x : Text) (hx : x ∈ word :: words) : ' ' ∉ x :=
      hspace x (by rw [← List.cons_append]; exact List.mem_append_left _ hx)
    rw [List.flatMap_append, List.flatMap_singleton, ← List.append_assoc] at h
    obtain ⟨init, hinit, hle⟩ := h.exists_init hcells hw
    rw [extent, List.foldl_append]
    exact (addWord_mono (ih hwords hinit) w).trans hle

theorem exists_addChar (hcells : CellWidths cells) (hwidth : 2 ≤ width) (hword : ' ' ∉ t) (c : Char)
    (h : Layout cells width t lines) : ∃ lines', Layout cells width (t ++ [c]) lines' ∧
      extentOf cells lines' = addChar cells width (extentOf cells lines) c := by
  induction h with
  | @last line hfits =>
    by_cases hover : width < cellsOf cells line + cellsOf cells [c]
    · refine ⟨[line, [c]], .cut hfits hword (.last ((cellsOf_char_le hcells c).trans hwidth)), ?_⟩
      rw [extentOf_singleton, addChar, if_pos hover]
      rfl
    · refine ⟨[line ++ [c]], .last (by rw [cellsOf_append]; omega), ?_⟩
      rw [extentOf_singleton, extentOf_singleton, addChar, if_neg hover, cellsOf_append]
  | space => exact absurd (by simp) hword
  | @cut line text lines hfits hno hrest ih =>
    obtain ⟨lines', hlines', hextent⟩ := ih fun hmem => hword (List.mem_append_right _ hmem)
    refine ⟨line :: lines', by rw [List.append_assoc]; exact .cut hfits hno hlines', ?_⟩
    rw [extentOf_cons line hlines'.ne_nil, extentOf_cons line hrest.ne_nil, hextent, addChar_behind]

theorem exists_word (hcells : CellWidths cells) (hwidth : 2 ≤ width) (hword : ' ' ∉ word) :
    ∃ lines, Layout cells width word lines ∧
      extentOf cells lines = word.foldl (addChar cells width) (1, 0) := by
  induction word using List.reverseRecOn with
  | nil => exact ⟨[[]], .last (by simp), by simp [extentOf]⟩
  | append_singleton word c ih =>
    rw [List.mem_append, not_or] at hword
    obtain ⟨lines, hlines, hextent⟩ := ih hword.1
    obtain ⟨lines', hlines', hextent'⟩ := hlines.exists_addChar hcells hwidth hword.1 c
    exact ⟨lines', hlines', by rw [hextent', hextent, List.foldl_append]; rfl⟩

theorem exists_addWord (hcells : CellWidths cells) (hwidth : 2 ≤ width) (hword : ' ' ∉ word)
    (h : Layout cells width t lines) : ∃ lines', Layout cells width (t ++ ' ' :: word) lines' ∧
      extentOf cells lines' = addWord cells width (extentOf cells lines) word := by
  induction h with
  | @last line hfits =>
    by_cases hover : width < cellsOf cells line + (cellsOf cells word + 1)
    · obtain ⟨lines, hlines, hextent⟩ := exists_word hcells hwidth hword
      refine ⟨line :: lines, .space hfits hlines, ?_⟩
      rw [extentOf_singleton, addWord, if_pos hover, extentOf_cons line hlines.ne_nil, hextent]
      exact (foldl_addChar_behind 1 (1, 0) word).symm
    · have hsum : cellsOf cells (line ++ ' ' :: word) =
          cellsOf cells line + (cellsOf cells word + 1) := by
        simp [hcells.space]
        omega
      refine ⟨[line ++ ' ' :: word], .last (by omega), ?_⟩
      rw [extentOf_singleton, extentOf_singleton, addWord, if_neg hover, hsum]
  | @space line text lines hfits hrest ih =>
    obtain ⟨lines', hlines', hextent⟩ := ih
    refine ⟨line :: lines', by rw [List.append_assoc]; exact .space hfits hlines', ?_⟩
    rw [extentOf_cons line hlines'.ne_nil, extentOf_cons line hrest.ne_nil, hextent, addWord_behind]
  | @cut line text lines hfits hno hrest ih =>
    obtain ⟨lines', hlines', hextent⟩ := ih
    refine ⟨line :: lines', by rw [List.append_assoc]; exact .cut hfits hno hlines', ?_⟩
    rw [extentOf_cons line hlines'.ne_nil, extentOf_cons line hrest.ne_nil, hextent, addWord_behind]

/-- Some layout reaches no further than greedy filling. -/
theorem exists_extent (hcells : CellWidths cells) (hwidth : 2 ≤ width) {words : List Text}
    (hspace : ∀ w ∈ word :: words, ' ' ∉ w) :
    ∃ lines, Layout cells width (word ++ words.flatMap (' ' :: ·)) lines ∧
      extentOf cells lines = extent cells width word words := by
  induction words using List.reverseRecOn with
  | nil => simpa [extent] using exists_word hcells hwidth (hspace word List.mem_cons_self)
  | append_singleton words w ih =>
    have hwords (x : Text) (hx : x ∈ word :: words) : ' ' ∉ x :=
      hspace x (by rw [← List.cons_append]; exact List.mem_append_left _ hx)
    obtain ⟨lines, hlines, hextent⟩ := ih hwords
    obtain ⟨lines', hlines', hextent'⟩ := hlines.exists_addWord hcells hwidth (hspace w (by simp))
    rw [List.flatMap_append, List.flatMap_singleton, ← List.append_assoc]
    exact ⟨lines', hlines', by rw [hextent', hextent, extent, extent, List.foldl_append]; rfl⟩

/-- **A space takes no further line** exactly when greedy filling leaves room for it. -/
theorem space_fits_iff (hcells : CellWidths cells) (hwidth : 2 ≤ width) {words : List Text}
    (hspace : ∀ w ∈ word :: words, ' ' ∉ w) :
    (∀ lines, Layout cells width (word ++ words.flatMap (' ' :: ·)) lines → ∃ lines',
      Layout cells width (word ++ words.flatMap (' ' :: ·) ++ [' ']) lines' ∧
        lines'.length ≤ lines.length) ↔
      (extent cells width word words).2 < width := by
  have hwords (x : Text) (hx : x ∈ word :: (words ++ [[]])) : ' ' ∉ x := by
    rw [← List.cons_append, List.mem_append, List.mem_singleton] at hx
    rcases hx with hx | rfl
    · exact hspace x hx
    · exact List.not_mem_nil
  have htext : word ++ (words ++ [[]]).flatMap (' ' :: ·) =
      word ++ words.flatMap (' ' :: ·) ++ [' '] := by simp
  have hextent : extent cells width word (words ++ [[]]) =
      addWord cells width (extent cells width word words) [] := by
    rw [extent, List.foldl_append]
    rfl
  constructor
  · intro h
    obtain ⟨lines, hlines, hfew⟩ := exists_extent hcells hwidth hspace
    obtain ⟨lines', hlines', hlength⟩ := h lines hlines
    have hleast := least_layout hcells hwords (htext ▸ hlines')
    rw [hextent, ← hfew, addWord] at hleast
    rw [← hfew]
    by_contra hfull
    rw [if_pos (by simp; omega)] at hleast
    simp only [NoFurther, extentOf, List.foldl_nil] at hleast
    omega
  · intro hroom lines hlines
    obtain ⟨lines', hlines', hfew⟩ := exists_extent hcells hwidth hwords
    have hleast := least_layout hcells hspace hlines
    refine ⟨lines', htext ▸ hlines', ?_⟩
    rw [hextent, addWord, if_neg (by simp; omega)] at hfew
    have hcount : lines'.length = (extent cells width word words).1 := congrArg Prod.fst hfew
    unfold NoFurther extentOf at hleast
    omega

end Layout

end Ui

end Termesh
