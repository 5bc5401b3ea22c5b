import Termesh.Lib.Splits
import Termesh.Ui.Layouts

/-!
# Wrapping

A word is laid on the line character by character once the space in front of it is settled, so a
paragraph is laid by two moves: a character (`pushChar`) and a separator (`separate`).

* **`pushWord_eq`**: the two moves;
* `Sound`, **`Sound.pushWord`**: every line fits, and none begins with a space;
* **`wrap_fits`**: the lines fit and hold the characters of their paragraph;
* `Broken`: a text and its lines, a space or nothing left out at each break;
* **`spacesFit_iff`**: the spaces of a paragraph fit exactly when each of them finds a line begun;
* **`wrap_only_breaks`**: exactly when wrapping does nothing but break lines.
-/

namespace Termesh

namespace Ui

variable {cells : Char → Option ℕ} {width : ℕ}

theorem plain_space : Plain [' '] := ⟨by simp, by simp⟩

/-! ## The two moves -/

namespace Wrapping

/-- Text put on the line. -/
def put (cells : Char → Option ℕ) (s : Wrapping) (t : Text) : Wrapping :=
  { s with line := s.line ++ t, used := s.used + cellsOf cells t }

/-- The separator in front of a word: left out on an empty line and at a break. -/
def separate (cells : Char → Option ℕ) (width : ℕ) (s : Wrapping) (word : Text) : Wrapping :=
  if s.line = [] then s
  else if width < s.used + (cellsOf cells word + 1) then s.push
  else { s with line := s.line ++ [' '], used := s.used + 1 }

theorem pushChar_eq (s : Wrapping) {c : Char} (hc : Plain [c]) :
    pushChar cells width s c =
      (if width < s.used + cellsOf cells [c] then s.push else s).put cells [c] := by
  simp only [pushChar, displayWidth_plain hc, put]

theorem foldl_pushChar_fits (s : Wrapping) {t : Text} (ht : Plain t)
    (h : s.used + cellsOf cells t ≤ width) : t.foldl (pushChar cells width) s = s.put cells t := by
  induction t generalizing s with
  | nil => simp [put]
  | cons c t ih =>
    obtain ⟨hc, ht⟩ := plain_cons.mp ht
    have hsum : cellsOf cells (c :: t) = cellsOf cells [c] + cellsOf cells t := by simp
    have hfits : ¬width < s.used + cellsOf cells [c] := by omega
    have hput : (s.put cells [c]).used = s.used + cellsOf cells [c] := rfl
    rw [List.foldl_cons, pushChar_eq s hc, if_neg hfits, ih _ ht (by omega)]
    simp [put, Nat.add_assoc]

/-- **A word is its separator and then its characters.** -/
theorem pushWord_eq (s : Wrapping) {word : Text} (hword : Plain word)
    (hused : s.line = [] → s.used = 0) :
    pushWord cells width s word =
      word.foldl (pushChar cells width) (s.separate cells width word) := by
  simp only [pushWord, displayWidth_plain hword]
  by_cases hlong : width < cellsOf cells word
  · rw [if_pos hlong, separate]
    by_cases hline : s.line = []
    · rw [if_neg (not_not.mpr hline), if_pos hline]
    · rw [if_pos hline, if_neg hline, if_pos (by omega)]
  · rw [if_neg hlong, separate]
    by_cases hline : s.line = []
    · have hroom : ¬width < s.used + cellsOf cells word := by rw [hused hline]; omega
      rw [if_pos hline, if_pos hline, if_neg hroom, if_neg (not_not.mpr hline),
        foldl_pushChar_fits s hword (by omega)]
      rfl
    · rw [if_neg hline, if_neg hline]
      by_cases hbreak : width < s.used + (cellsOf cells word + 1)
      · rw [if_pos hbreak, if_pos hbreak, if_neg (not_not.mpr s.push_line),
          foldl_pushChar_fits s.push hword (by rw [push_used]; omega)]
        rfl
      · rw [if_neg hbreak, if_neg hbreak, if_pos hline,
          foldl_pushChar_fits _ hword (by simp only; omega)]
        rfl

/-! ## Lines that fit -/

/-- A line that was pushed. -/
structure Whole (cells : Char → Option ℕ) (width : ℕ) (line : Text) : Prop where
  plain : Plain line
  fits : cellsOf cells line ≤ width
  nonempty : line ≠ []
  begun : line.head? ≠ some ' '

/-- The line begun is counted, and every line fits and begins with no space. -/
structure Sound (cells : Char → Option ℕ) (width : ℕ) (s : Wrapping) : Prop where
  plain : Plain s.line
  counted : s.used = cellsOf cells s.line
  fits : s.used ≤ width
  begun : s.line.head? ≠ some ' '
  out : ∀ line ∈ s.out, Whole cells width line

theorem sound_empty (out : List Text) (h : ∀ line ∈ out, Whole cells width line) :
    Sound cells width { out, line := [], used := 0 } :=
  ⟨plain_nil, rfl, Nat.zero_le _, by simp, h⟩

theorem Sound.used_zero {s : Wrapping} (h : Sound cells width s) (hline : s.line = []) :
    s.used = 0 := by
  rw [h.counted, hline, cellsOf_nil]

theorem Sound.push {s : Wrapping} (h : Sound cells width s) (hline : s.line ≠ []) :
    Sound cells width s.push := by
  refine sound_empty _ fun line hmem => ?_
  rcases List.mem_append.mp hmem with hmem | hmem
  · exact h.out line hmem
  · rw [List.mem_singleton.mp hmem]
    exact ⟨h.plain, h.counted ▸ h.fits, hline, h.begun⟩

theorem Sound.put {s : Wrapping} (h : Sound cells width s) {t : Text} (ht : Plain t)
    (hfits : s.used + cellsOf cells t ≤ width) (hbegun : (s.line ++ t).head? ≠ some ' ') :
    Sound cells width (s.put cells t) where
  plain := plain_append.mpr ⟨h.plain, ht⟩
  counted := by rw [Wrapping.put, cellsOf_append, h.counted]
  fits := hfits
  begun := hbegun
  out := h.out

theorem Sound.line_ne_nil {s : Wrapping} (h : Sound cells width s) (hcells : CellWidths cells)
    (hwidth : 2 ≤ width) {c : Char} (hover : width < s.used + cellsOf cells [c]) :
    s.line ≠ [] := fun hline => by
  have hused := h.used_zero hline
  have hc := cellsOf_char_le hcells c
  omega

theorem Sound.pushChar {s : Wrapping} (h : Sound cells width s) (hcells : CellWidths cells)
    (hwidth : 2 ≤ width) {c : Char} (hc : Plain [c]) (hspace : c ≠ ' ') :
    Sound cells width (pushChar cells width s c) := by
  have hchar := cellsOf_char_le hcells c
  rw [pushChar_eq s hc]
  by_cases hover : width < s.used + cellsOf cells [c]
  · rw [if_pos hover]
    refine (h.push (h.line_ne_nil hcells hwidth hover)).put hc ?_ ?_
    · rw [push_used]
      omega
    · simpa using hspace
  · rw [if_neg hover]
    refine h.put hc (by omega) ?_
    cases hline : s.line with
    | nil => simpa using hspace
    | cons d line => simpa [hline] using h.begun

theorem Sound.foldl_pushChar {s : Wrapping} (h : Sound cells width s) (hcells : CellWidths cells)
    (hwidth : 2 ≤ width) {t : Text} (ht : Plain t) (hspace : ' ' ∉ t) :
    Sound cells width (t.foldl (Wrapping.pushChar cells width) s) := by
  induction t generalizing s with
  | nil => exact h
  | cons c t ih =>
    obtain ⟨hc, ht⟩ := plain_cons.mp ht
    have hne : c ≠ ' ' := fun heq => hspace (by simp [heq])
    exact ih (h.pushChar hcells hwidth hc hne) ht fun hmem => hspace (List.mem_cons_of_mem _ hmem)

theorem Sound.separate {s : Wrapping} (h : Sound cells width s) (hcells : CellWidths cells)
    (word : Text) : Sound cells width (s.separate cells width word) := by
  rw [Wrapping.separate]
  by_cases hline : s.line = []
  · rwa [if_pos hline]
  · rw [if_neg hline]
    by_cases hbreak : width < s.used + (cellsOf cells word + 1)
    · rw [if_pos hbreak]
      exact h.push hline
    · rw [if_neg hbreak]
      have hput : Sound cells width (s.put cells [' ']) := by
        refine h.put plain_space (by rw [cellsOf_space hcells]; omega) ?_
        rw [List.head?_append_of_ne_nil _ hline]
        exact h.begun
      rwa [Wrapping.put, cellsOf_space hcells] at hput

/-- **Every word keeps the lines fitting.** -/
theorem Sound.pushWord {s : Wrapping} (h : Sound cells width s) (hcells : CellWidths cells)
    (hwidth : 2 ≤ width) {word : Text} (hword : Plain word) (hspace : ' ' ∉ word) :
    Sound cells width (pushWord cells width s word) := by
  rw [pushWord_eq s hword h.used_zero]
  exact (h.separate hcells word).foldl_pushChar hcells hwidth hword hspace

/-! ## Characters that are kept -/

/-- The characters of the lines, without the spaces. -/
def content (s : Wrapping) : Text := s.lines.flatten.filter (· ≠ ' ')

theorem content_push (s : Wrapping) : s.push.content = s.content := by
  simp [content, lines, push]

theorem content_put (s : Wrapping) (t : Text) :
    (s.put cells t).content = s.content ++ t.filter (· ≠ ' ') := by
  simp [content, lines, put]

theorem content_pushChar (s : Wrapping) {c : Char} (hc : Plain [c]) (hspace : c ≠ ' ') :
    (pushChar cells width s c).content = s.content ++ [c] := by
  have hfilter : [c].filter (· ≠ ' ') = [c] := by simp [hspace]
  rw [pushChar_eq s hc, content_put, hfilter]
  split_ifs
  · rw [content_push]
  · rfl

theorem content_foldl_pushChar (s : Wrapping) {t : Text} (ht : Plain t) (hspace : ' ' ∉ t) :
    (t.foldl (pushChar cells width) s).content = s.content ++ t := by
  induction t generalizing s with
  | nil => simp
  | cons c t ih =>
    obtain ⟨hc, ht⟩ := plain_cons.mp ht
    have hne : c ≠ ' ' := fun heq => hspace (by simp [heq])
    rw [List.foldl_cons, ih _ ht fun hmem => hspace (List.mem_cons_of_mem _ hmem),
      content_pushChar s hc hne, List.append_assoc, List.singleton_append]

theorem content_separate (s : Wrapping) (word : Text) :
    (s.separate cells width word).content = s.content := by
  rw [separate]
  split_ifs
  · rfl
  · exact content_push s
  · simp [content, lines]

/-- Words laid one after another keep the lines fitting and all their characters. -/
theorem Sound.foldl_pushWord {s : Wrapping} (h : Sound cells width s) (hcells : CellWidths cells)
    (hwidth : 2 ≤ width) (words : List Text) (hplain : ∀ word ∈ words, Plain word)
    (hspace : ∀ word ∈ words, ' ' ∉ word) :
    Sound cells width (words.foldl (Wrapping.pushWord cells width) s) ∧
      (words.foldl (Wrapping.pushWord cells width) s).content = s.content ++ words.flatten := by
  induction words generalizing s with
  | nil => simp [h]
  | cons word words ih =>
    have hword := hplain word List.mem_cons_self
    have hno := hspace word List.mem_cons_self
    have hstep := h.pushWord hcells hwidth hword hno
    have hcontent : (Wrapping.pushWord cells width s word).content = s.content ++ word := by
      rw [pushWord_eq s hword h.used_zero, content_foldl_pushChar _ hword hno, content_separate]
    obtain ⟨hsound, hrest⟩ := ih hstep (fun w hw => hplain w (List.mem_cons_of_mem _ hw))
      fun w hw => hspace w (List.mem_cons_of_mem _ hw)
    exact ⟨hsound, by rw [List.foldl_cons, hrest, hcontent, List.flatten_cons, List.append_assoc]⟩

end Wrapping

/-! ## Lines that fit -/

theorem plain_paragraph {text paragraph : Text} (htab : '\t' ∉ text)
    (h : paragraph ∈ text.splitOn '\n') : Plain paragraph :=
  ⟨fun hmem => htab (Splits.subset_splitOn _ _ _ h hmem), Splits.notMem_splitOn _ _ _ h⟩

theorem plain_word {paragraph word : Text} (hp : Plain paragraph)
    (h : word ∈ paragraph.splitOn ' ') : Plain word :=
  ⟨fun hmem => hp.tab (Splits.subset_splitOn _ _ _ h hmem),
    fun hmem => hp.newline (Splits.subset_splitOn _ _ _ h hmem)⟩

/-- **Wrapped text fits**: a block of lines for each paragraph, in order, with the characters of the
paragraph and no line wider than the pane. -/
theorem wrap_fits (cells : Char → Option ℕ) (hcells : CellWidths cells) (text : Text)
    (htab : '\t' ∉ text) (width : ℕ) (hwidth : 2 ≤ width) :
    wrap cells text width = (text.splitOn '\n').flatMap (paragraphLines cells width) ∧
      ∀ paragraph ∈ text.splitOn '\n', paragraphLines cells width paragraph ≠ [] ∧
        (∀ line ∈ paragraphLines cells width paragraph,
          displayWidth cells line tabWidth ≤ width) ∧
        (paragraphLines cells width paragraph).flatten.filter (· ≠ ' ') =
          paragraph.filter (· ≠ ' ') := by
  refine ⟨wrap_eq text (by omega), fun paragraph hmem => ?_⟩
  have hp := plain_paragraph htab hmem
  obtain ⟨hsound, hcontent⟩ := (Wrapping.sound_empty [] (by simp)).foldl_pushWord hcells hwidth
    (paragraph.splitOn ' ') (fun word hw => plain_word hp hw)
    (Splits.notMem_splitOn ' ' paragraph)
  refine ⟨by simp [paragraphLines, wrapParagraph, Wrapping.lines], fun line hline => ?_, ?_⟩
  · rcases List.mem_append.mp hline with hout | hlast
    · have hwhole := hsound.out line hout
      rw [displayWidth_plain hwhole.plain]
      exact hwhole.fits
    · rw [List.mem_singleton.mp hlast, displayWidth_plain hsound.plain, ← hsound.counted]
      exact hsound.fits
  · rw [← Splits.flatten_splitOn ' ' paragraph]
    exact hcontent

/-- Some widths: control characters, combining marks, wide characters and all others. -/
def someCells (c : Char) : Option ℕ :=
  if c.toNat < 32 ∨ c.toNat = 127 then none
  else if 0x300 ≤ c.toNat ∧ c.toNat < 0x370 then some 0
  else if 0x4E00 ≤ c.toNat ∧ c.toNat < 0xA000 then some 2
  else some 1

theorem cellWidths_someCells : CellWidths someCells where
  le_two c := by
    simp only [someCells]
    split_ifs <;> simp
  space := by decide

/-- A word, a word wider than the pane, and another paragraph. -/
theorem wrap_fits_wide :
    wrap someCells "ab 世界x\nc".toList 3 =
        ["ab 世界x".toList, ['c']].flatMap (paragraphLines someCells 3) ∧
      ∀ paragraph ∈ ["ab 世界x".toList, ['c']], paragraphLines someCells 3 paragraph ≠ [] ∧
        (∀ line ∈ paragraphLines someCells 3 paragraph, displayWidth someCells line tabWidth ≤ 3) ∧
        (paragraphLines someCells 3 paragraph).flatten.filter (· ≠ ' ') =
          paragraph.filter (· ≠ ' ') :=
  wrap_fits someCells cellWidths_someCells "ab 世界x\nc".toList (by decide) 3 (by decide)

/-! ## Text and its lines -/

/-- The text is the lines with a space or nothing at each break. -/
inductive Broken : Text → List Text → Prop
  | last (line : Text) : Broken line [line]
  | next {line separator text : Text} {lines : List Text} :
      separator = [] ∨ separator = [' '] → Broken text lines →
      Broken (line ++ separator ++ text) (line :: lines)

theorem Broken.ne_nil {text : Text} {lines : List Text} (h : Broken text lines) : lines ≠ [] := by
  cases h <;> simp

/-- Lines that begin with no space; only the last may be empty. -/
def Begins : List Text → Prop
  | [] => False
  | line :: lines => line.head? ≠ some ' ' ∧ (line = [] → lines = [])

theorem Begins.not_broken {lines : List Text} (h : Begins lines) (text : Text) :
    ¬Broken (' ' :: text) lines := by
  intro hbroken
  generalize htext : ' ' :: text = t at hbroken
  cases hbroken with
  | last line => exact h.1 (by rw [← htext]; rfl)
  | @next line separator text' lines hsep hrest =>
    cases line with
    | nil => exact hrest.ne_nil (h.2 rfl)
    | cons c line =>
      have hc : ' ' = c := (List.cons.inj htext).1
      exact h.1 (by rw [← hc]; rfl)

theorem broken_space {line text : Text} {lines : List Text} (h : Begins lines) :
    Broken (line ++ ' ' :: text) (line :: lines) ↔ Broken text lines := by
  constructor
  · intro hbroken
    generalize htext : line ++ ' ' :: text = t at hbroken
    cases hbroken with
    | last => exact absurd h id
    | @next _ separator text' _ hsep hrest =>
      rw [List.append_assoc, List.append_cancel_left_eq] at htext
      rcases hsep with rfl | rfl
      · exact absurd (htext ▸ hrest) (h.not_broken text)
      · rwa [(List.cons.inj htext).2]
  · intro hrest
    rw [← List.singleton_append, ← List.append_assoc]
    exact .next (.inr rfl) hrest

theorem broken_inside {line text : Text} {c : Char} {lines : List Text} (hc : c ≠ ' ')
    (hlines : lines ≠ []) :
    Broken (line ++ c :: text) (line :: lines) ↔ Broken (c :: text) lines := by
  constructor
  · intro hbroken
    generalize htext : line ++ c :: text = t at hbroken
    cases hbroken with
    | last => exact absurd rfl hlines
    | @next _ separator text' _ hsep hrest =>
      rw [List.append_assoc, List.append_cancel_left_eq] at htext
      rcases hsep with rfl | rfl
      · rwa [htext]
      · exact absurd (List.cons.inj htext).1 hc
  · intro hrest
    have hnext : Broken (line ++ [] ++ c :: text) (line :: lines) := .next (.inl rfl) hrest
    rwa [List.append_nil] at hnext

/-! ## Greedy filling -/

section

variable (cells width)

/-- The column behind a character: on the same line, or on a new one. -/
def fillChar (column : Option ℕ) (c : Char) : Option ℕ :=
  let used := column.getD 0
  some (if width < used + cellsOf cells [c] then cellsOf cells [c] else used + cellsOf cells [c])

/-- The column behind the separator of a word; a line that is full is left. -/
def fillSpace (column : Option ℕ) (word : Text) : Option ℕ :=
  match column with
  | none => none
  | some used => if width < used + (cellsOf cells word + 1) then none else some (used + 1)

/-- The column behind a word, when lines are filled greedily; nothing on an empty line. -/
def fillWord (column : Option ℕ) (word : Text) : Option ℕ :=
  word.foldl (fillChar cells width) (fillSpace cells width column word)

/-- No word but the first finds an empty line. -/
def BegunFrom : Option ℕ → List Text → Prop
  | _, [] => True
  | column, word :: words => column ≠ none ∧ BegunFrom (fillWord cells width column word) words

end

theorem foldl_fillChar (n : ℕ) {column : Option ℕ} {word : Text} (h : word ≠ [] ∨ column ≠ none) :
    word.foldl (fillChar cells width) column =
      some (word.foldl (addChar cells width) (n, column.getD 0)).2 := by
  induction word generalizing n column with
  | nil =>
    obtain ⟨used, rfl⟩ := Option.ne_none_iff_exists'.mp (h.resolve_left (not_not.mpr rfl))
    rfl
  | cons c word ih =>
    have hchar : fillChar cells width column c =
        some (addChar cells width (n, column.getD 0) c).2 := by
      simp only [fillChar, addChar]
      split_ifs <;> rfl
    rw [List.foldl_cons, hchar, ih (addChar cells width (n, column.getD 0) c).1 (.inr (by simp))]
    rfl

theorem fillWord_some (e : ℕ × ℕ) (word : Text) : fillWord cells width (some e.2) word =
    if word = [] ∧ width ≤ e.2 then none else some (addWord cells width e word).2 := by
  by_cases hfull : word = [] ∧ width ≤ e.2
  · obtain ⟨rfl, hfull⟩ := hfull
    rw [if_pos ⟨rfl, hfull⟩, fillWord, fillSpace, if_pos (by simp; omega), List.foldl_nil]
  · rw [if_neg hfull, fillWord, fillSpace, addWord]
    by_cases hbreak : width < e.2 + (cellsOf cells word + 1)
    · have hword : word ≠ [] := by
        rintro rfl
        exact hfull ⟨rfl, by simpa [Nat.lt_succ_iff] using hbreak⟩
      rw [if_pos hbreak, if_pos hbreak, foldl_fillChar (e.1 + 1) (.inl hword), Option.getD_none]
    · rw [if_neg hbreak, if_neg hbreak, foldl_fillChar e.1 (.inr (by simp)), Option.getD_some,
        foldl_addChar_fits (by simp only; omega)]
      simp only [Option.some.injEq]
      omega

theorem begunFrom_none {words : List Text} : BegunFrom cells width none words ↔ words = [] := by
  cases words <;> simp [BegunFrom]

/-- **Every word finds a line begun** exactly when an empty one, with words behind it, finds room
for its space. -/
theorem begunFrom_iff (e : ℕ × ℕ) (words : List Text) :
    BegunFrom cells width (some e.2) words ↔ ∀ before after, words = before ++ [] :: after →
      after ≠ [] → (before.foldl (addWord cells width) e).2 < width := by
  induction words generalizing e with
  | nil => simp [BegunFrom]
  | cons word words ih =>
    rw [BegunFrom, and_iff_right (Option.some_ne_none _), fillWord_some]
    by_cases hfull : word = [] ∧ width ≤ e.2
    · obtain ⟨rfl, hfull⟩ := hfull
      rw [if_pos ⟨rfl, hfull⟩, begunFrom_none]
      constructor
      · rintro rfl before after h hne
        have hlength := congrArg List.length h
        rw [List.length_append, List.length_cons, List.length_cons, List.length_nil] at hlength
        exact absurd (List.eq_nil_of_length_eq_zero (by omega)) hne
      · intro h
        by_contra hne
        exact absurd (h [] words rfl hne) (Nat.not_lt.mpr hfull)
    · rw [if_neg hfull, ih]
      constructor
      · intro h before after hsplit hne
        cases before with
        | nil =>
          obtain ⟨rfl, -⟩ := List.cons.inj hsplit
          exact Nat.lt_of_not_le fun hle => hfull ⟨rfl, hle⟩
        | cons w before =>
          rw [List.cons_append] at hsplit
          obtain ⟨rfl, hrest⟩ := List.cons.inj hsplit
          exact h before after hrest hne
      · intro h before after hsplit hne
        exact h (word :: before) after (by rw [hsplit, List.cons_append]) hne

/-- Two spaces stand together where a word is empty, and neither the first nor the last. -/
theorem together_iff {paragraph word : Text} {words : List Text}
    (hsplit : paragraph.splitOn ' ' = word :: words) {p : Text → Prop} :
    (∀ before after, paragraph = before ++ ' ' :: ' ' :: after → p before) ↔
      ∀ before after, words = before ++ [] :: after → after ≠ [] →
        p (word ++ before.flatMap (' ' :: ·)) := by
  have hspace := Splits.notMem_splitOn ' ' paragraph
  obtain ⟨_, _, hsplit', htext⟩ := Splits.exists_splitOn ' ' paragraph
  obtain ⟨rfl, rfl⟩ := List.cons.inj (hsplit.symm.trans hsplit')
  constructor
  · intro h before after hwords hne
    obtain ⟨next, rest, rfl⟩ := List.exists_cons_of_ne_nil hne
    refine h _ (next ++ rest.flatMap (' ' :: ·)) ?_
    rw [htext, hwords]
    simp
  · intro h before after hparagraph
    obtain ⟨first, xs, hfirst, rfl⟩ := Splits.exists_splitOn ' ' before
    obtain ⟨next, ys, hnext, rfl⟩ := Splits.exists_splitOn ' ' after
    have hbefore := hfirst ▸ Splits.notMem_splitOn ' ' (first ++ xs.flatMap (' ' :: ·))
    have hafter := hnext ▸ Splits.notMem_splitOn ' ' (next ++ ys.flatMap (' ' :: ·))
    have hpieces : ∀ l ∈ first :: (xs ++ [] :: next :: ys), ' ' ∉ l := by
      intro l hl
      rw [← List.cons_append, List.mem_append, List.mem_cons (b := [])] at hl
      rcases hl with hl | rfl | hl
      · exact hbefore l hl
      · exact List.not_mem_nil
      · exact hafter l hl
    have hwords : paragraph.splitOn ' ' = first :: (xs ++ [] :: next :: ys) := by
      rw [← Splits.splitOn_flatMap hpieces, hparagraph]
      simp
    obtain ⟨rfl, rfl⟩ := List.cons.inj (hsplit.symm.trans hwords)
    exact h xs (next :: ys) rfl (List.cons_ne_nil next ys)

/-- **The condition, word by word.** -/
theorem spacesFit_iff (hcells : CellWidths cells) (hwidth : 2 ≤ width) {paragraph word : Text}
    {words : List Text} (hsplit : paragraph.splitOn ' ' = word :: words) :
    SpacesFit cells width paragraph ↔
      BegunFrom cells width (word.foldl (fillChar cells width) none) words := by
  have hspace := hsplit ▸ Splits.notMem_splitOn ' ' paragraph
  obtain ⟨_, _, hsplit', htext⟩ := Splits.exists_splitOn ' ' paragraph
  obtain ⟨rfl, rfl⟩ := List.cons.inj (hsplit.symm.trans hsplit')
  rw [SpacesFit, together_iff hsplit]
  cases hword : word with
  | nil =>
    subst hword
    rw [List.foldl_nil, begunFrom_none]
    cases words with
    | nil => simp [htext]
    | cons w words => simp [htext]
  | cons c t =>
    have hc : c ≠ ' ' := fun heq => hspace word List.mem_cons_self (by simp [hword, heq])
    have hne : word ≠ [] := hword ▸ List.cons_ne_nil c t
    have hhead : paragraph.head? ≠ some ' ' := by
      rw [htext, hword]
      simpa using hc
    rw [and_iff_right hhead, ← hword, foldl_fillChar 1 (.inl hne), Option.getD_none, begunFrom_iff]
    refine forall₂_congr fun before after => forall₂_congr fun hwords _ => ?_
    exact Layout.space_fits_iff hcells hwidth fun w hw => hspace w <| by
      rw [hwords, ← List.cons_append]
      exact List.mem_append_left _ hw

namespace Wrapping

/-- The column of the line begun. -/
def column (s : Wrapping) : Option ℕ := if s.line = [] then none else some s.used

theorem Sound.getD_column {s : Wrapping} (h : Sound cells width s) : s.column.getD 0 = s.used := by
  by_cases hline : s.line = []
  · rw [column, if_pos hline, Option.getD_none, h.used_zero hline]
  · rw [column, if_neg hline, Option.getD_some]

theorem column_put (s : Wrapping) {t : Text} (ht : t ≠ []) :
    (s.put cells t).column = some (s.used + cellsOf cells t) := by
  rw [column, put, if_neg (by simp [ht])]

theorem Sound.fillChar_column {s : Wrapping} (h : Sound cells width s) (c : Char) :
    fillChar cells width s.column c =
      some (if width < s.used + cellsOf cells [c] then cellsOf cells [c]
        else s.used + cellsOf cells [c]) := by
  rw [fillChar, h.getD_column]

theorem Sound.begins {s : Wrapping} (h : Sound cells width s) : Begins s.lines := by
  rw [lines]
  cases hout : s.out with
  | nil => exact ⟨h.begun, fun _ => rfl⟩
  | cons line out =>
    have hwhole := h.out line (by rw [hout]; exact List.mem_cons_self)
    exact ⟨hwhole.begun, fun hnil => absurd hnil hwhole.nonempty⟩

/-- Nothing on any line. -/
def empty : Wrapping := { out := [], line := [], used := 0 }

theorem push_under {s : Wrapping} (hout : s.out = []) : s.push = empty.under [s.line] := by
  simp [push, under, empty, hout]

theorem sound_empty' : Sound cells width empty := sound_empty [] (by simp)

theorem put_under (o : List Text) (s : Wrapping) (t : Text) :
    (s.under o).put cells t = (s.put cells t).under o := rfl

/-- **The characters of a word**, and then the words behind it: nothing is left out inside it. -/
theorem broken_foldl_pushChar (hcells : CellWidths cells) (hwidth : 2 ≤ width) {t rest : Text}
    {words : List Text} (ht : Plain t) (hspace : ' ' ∉ t)
    (hrest : ∀ s : Wrapping, Sound cells width s → s.out = [] →
      (Broken (s.line ++ rest) (words.foldl (pushWord cells width) s).lines ↔
        BegunFrom cells width s.column words))
    {s : Wrapping} (h : Sound cells width s) (hout : s.out = []) :
    Broken (s.line ++ (t ++ rest))
        (words.foldl (pushWord cells width) (t.foldl (pushChar cells width) s)).lines ↔
      BegunFrom cells width (t.foldl (fillChar cells width) s.column) words := by
  induction t generalizing s with
  | nil => exact hrest s h hout
  | cons c t ih =>
    obtain ⟨hc, ht⟩ := plain_cons.mp ht
    have hne : c ≠ ' ' := fun heq => hspace (by simp [heq])
    have hno : ' ' ∉ t := fun hmem => hspace (List.mem_cons_of_mem _ hmem)
    have hsound := h.pushChar hcells hwidth hc hne
    rw [List.foldl_cons, List.foldl_cons, h.fillChar_column, pushChar_eq s hc]
    rw [pushChar_eq s hc] at hsound
    by_cases hover : width < s.used + cellsOf cells [c]
    · -- the edge is inside the word
      have hstart : Sound cells width (empty.put cells [c]) :=
        (sound_empty').put hc (by simpa [empty] using (hcells.le_two c).trans hwidth)
          (by simpa [empty] using hne)
      have hcolumn : (empty.put cells [c]).column = some (cellsOf cells [c]) := by
        rw [column_put _ (by simp), empty, Nat.zero_add]
      rw [if_pos hover, if_pos hover, push_under hout, put_under, foldl_pushChar_under,
        foldl_pushWord_under, under_lines, List.cons_append, List.singleton_append,
        broken_inside hne (by simp [lines]), ← hcolumn, ← ih ht hno hstart rfl]
      rfl
    · have hcolumn : (s.put cells [c]).column = some (s.used + cellsOf cells [c]) :=
        column_put _ (by simp)
      rw [if_neg hover] at hsound ⊢
      rw [if_neg hover, ← hcolumn, ← ih ht hno hsound hout, put, List.append_assoc]
      rfl

/-- **The words behind a line** break it only, exactly when none of them finds it empty. -/
theorem broken_foldl_pushWord (hcells : CellWidths cells) (hwidth : 2 ≤ width) {words : List Text}
    (hplain : ∀ word ∈ words, Plain word) (hspace : ∀ word ∈ words, ' ' ∉ word) {s : Wrapping}
    (h : Sound cells width s) (hout : s.out = []) :
    Broken (s.line ++ words.flatMap (' ' :: ·)) (words.foldl (pushWord cells width) s).lines ↔
      BegunFrom cells width s.column words := by
  induction words generalizing s with
  | nil =>
    refine iff_of_true ?_ trivial
    rw [List.foldl_nil, lines, hout, List.flatMap_nil, List.append_nil]
    exact .last s.line
  | cons word words ih =>
    have hword := hplain word List.mem_cons_self
    have hno := hspace word List.mem_cons_self
    have hwords := fun w hw => hplain w (List.mem_cons_of_mem _ hw)
    have hnone := fun w hw => hspace w (List.mem_cons_of_mem _ hw)
    by_cases hline : s.line = []
    · -- the space in front of the word is lost
      have hfinal := (h.foldl_pushWord hcells hwidth _ hplain hspace).1
      rw [hline, column, if_pos hline]
      exact iff_of_false (hfinal.begins.not_broken _) fun hbegun => hbegun.1 rfl
    · have hcolumn : s.column = some s.used := if_neg hline
      have hchars {s' : Wrapping} (h' : Sound cells width s') (hout' : s'.out = []) :=
        broken_foldl_pushChar hcells hwidth hword hno (fun s h hout => ih hwords hnone h hout)
          h' hout'
      rw [List.foldl_cons, pushWord_eq s hword h.used_zero, hcolumn, BegunFrom, fillWord,
        fillSpace, separate, if_neg hline, List.flatMap_cons, List.cons_append]
      rw [and_iff_right (Option.some_ne_none _)]
      by_cases hbreak : width < s.used + (cellsOf cells word + 1)
      · have hrun : Sound cells width (words.foldl (pushWord cells width)
            (word.foldl (pushChar cells width) empty)) :=
          ((sound_empty').foldl_pushChar hcells hwidth hword hno).foldl_pushWord hcells hwidth
            _ hwords hnone |>.1
        rw [if_pos hbreak, if_pos hbreak, push_under hout, foldl_pushChar_under,
          foldl_pushWord_under, under_lines, List.singleton_append, broken_space hrun.begins]
        exact hchars sound_empty' rfl
      · have hsound := h.separate hcells word
        rw [separate, if_neg hline, if_neg hbreak] at hsound
        have hstep := hchars hsound hout
        rw [column, if_neg (by simp), List.append_assoc, List.singleton_append] at hstep
        rw [if_neg hbreak, if_neg hbreak]
        exact hstep

theorem foldl_pushWord_fits (hcells : CellWidths cells) {words : List Text}
    (hplain : ∀ word ∈ words, Plain word) {s : Wrapping} (h : s.line = [] → s.used = 0)
    (hfits : s.used + cellsOf cells (words.flatMap (' ' :: ·)) ≤ width) :
    (words.foldl (pushWord cells width) s).out = s.out := by
  induction words generalizing s with
  | nil => rfl
  | cons word words ih =>
    have hword := hplain word List.mem_cons_self
    have hwords := fun w hw => hplain w (List.mem_cons_of_mem _ hw)
    have hsum : cellsOf cells ((word :: words).flatMap (' ' :: ·)) =
        1 + cellsOf cells word + cellsOf cells (words.flatMap (' ' :: ·)) := by
      simp [hcells.space, Nat.add_assoc]
    rw [List.foldl_cons, pushWord_eq s hword h, separate]
    by_cases hline : s.line = []
    · have hroom := h hline
      rw [if_pos hline, foldl_pushChar_fits s hword (by omega)]
      refine ih hwords (fun hnil => ?_) (by simp only [put]; omega)
      obtain ⟨-, rfl⟩ := List.append_eq_nil_iff.mp hnil
      rw [put, cellsOf_nil, hroom]
    · rw [if_neg hline, if_neg (by omega), foldl_pushChar_fits _ hword (by simp only; omega)]
      exact ih hwords (by simp [put]) (by simp only [put]; omega)

end Wrapping

/-- The two readings of a paragraph: its first word on an empty line, and the words behind it. -/
theorem paragraphLines_eq {paragraph word : Text} {words : List Text} (hp : Plain paragraph)
    (hsplit : paragraph.splitOn ' ' = word :: words) :
    paragraphLines cells width paragraph = (words.foldl (Wrapping.pushWord cells width)
      (word.foldl (Wrapping.pushChar cells width) Wrapping.empty)).lines := by
  have hword : Plain word := plain_word hp (by rw [hsplit]; exact List.mem_cons_self)
  rw [paragraphLines, wrapParagraph, hsplit, List.foldl_cons,
    Wrapping.pushWord_eq _ hword fun _ => rfl]
  rfl

/-- **A paragraph is broken and nothing else** exactly when its spaces fit. -/
theorem broken_paragraph (hcells : CellWidths cells) (hwidth : 2 ≤ width) {paragraph : Text}
    (hp : Plain paragraph) :
    Broken paragraph (paragraphLines cells width paragraph) ↔
      SpacesFit cells width paragraph := by
  obtain ⟨word, words, hsplit, htext⟩ := Splits.exists_splitOn ' ' paragraph
  have hmem (w : Text) (h : w ∈ word :: words) : Plain w ∧ ' ' ∉ w := by
    rw [← hsplit] at h
    exact ⟨plain_word hp h, Splits.notMem_splitOn ' ' paragraph w h⟩
  have hwords := fun w hw => hmem w (List.mem_cons_of_mem _ hw)
  have hrun := Wrapping.broken_foldl_pushChar hcells hwidth (hmem word List.mem_cons_self).1
    (hmem word List.mem_cons_self).2 (fun s h hout => Wrapping.broken_foldl_pushWord hcells hwidth
      (fun w hw => (hwords w hw).1) (fun w hw => (hwords w hw).2) h hout)
    (Wrapping.sound_empty') rfl
  rw [spacesFit_iff hcells hwidth hsplit, paragraphLines_eq hp hsplit]
  rw [show Wrapping.empty.line ++ (word ++ words.flatMap (' ' :: ·)) = paragraph from htext.symm]
    at hrun
  exact hrun

theorem paragraphLines_fits (hcells : CellWidths cells) {paragraph : Text} (hp : Plain paragraph)
    (hfits : cellsOf cells paragraph ≤ width)
    (hbroken : Broken paragraph (paragraphLines cells width paragraph)) :
    paragraphLines cells width paragraph = [paragraph] := by
  obtain ⟨word, words, hsplit, htext⟩ := Splits.exists_splitOn ' ' paragraph
  have hmem (w : Text) (h : w ∈ word :: words) : Plain w := plain_word hp (by rwa [hsplit])
  have hsum : cellsOf cells word + cellsOf cells (words.flatMap (' ' :: ·)) ≤ width := by
    rwa [htext, cellsOf_append] at hfits
  have hfirst : word.foldl (Wrapping.pushChar cells width) Wrapping.empty =
      Wrapping.empty.put cells word :=
    Wrapping.foldl_pushChar_fits _ (hmem word List.mem_cons_self)
      (by simp only [Wrapping.empty]; omega)
  have hout : (words.foldl (Wrapping.pushWord cells width) (Wrapping.empty.put cells word)).out =
      [] := by
    refine Wrapping.foldl_pushWord_fits hcells (fun w hw => hmem w (List.mem_cons_of_mem _ hw))
      (fun hnil => ?_) (by simp only [Wrapping.put, Wrapping.empty]; omega)
    rw [show word = [] from hnil]
    rfl
  rw [paragraphLines_eq hp hsplit, hfirst, Wrapping.lines, hout, List.nil_append] at hbroken ⊢
  generalize (words.foldl (Wrapping.pushWord cells width)
    (Wrapping.empty.put cells word)).line = line at hbroken
  cases hbroken with
  | last => rfl
  | next _ hrest => exact absurd rfl hrest.ne_nil

/-- **Wrapping does nothing but break lines, exactly when** no paragraph begins with a space, and
where two spaces stand together the first of them takes no further line. -/
theorem wrap_only_breaks (cells : Char → Option ℕ) (hcells : CellWidths cells) (text : Text)
    (htab : '\t' ∉ text) (width : ℕ) (hwidth : 2 ≤ width) :
    wrap cells text width = (text.splitOn '\n').flatMap (paragraphLines cells width) ∧
      ((∀ paragraph ∈ text.splitOn '\n',
          Broken paragraph (paragraphLines cells width paragraph) ∧
          (displayWidth cells paragraph tabWidth ≤ width →
            paragraphLines cells width paragraph = [paragraph])) ↔
        ∀ paragraph ∈ text.splitOn '\n', SpacesFit cells width paragraph) := by
  refine ⟨wrap_eq text (by omega), forall₂_congr fun paragraph hmem => ?_⟩
  have hp := plain_paragraph htab hmem
  rw [← broken_paragraph hcells hwidth hp, displayWidth_plain hp]
  exact ⟨fun h => h.1, fun h => ⟨h, fun hfits => paragraphLines_fits hcells hp hfits h⟩⟩

/-- A word on a line of its own, and another behind a break. -/
theorem wrap_only_breaks_words :
    wrap someCells "ab cd".toList 3 =
        ["ab cd".toList].flatMap (paragraphLines someCells 3) ∧
      ((∀ paragraph ∈ ["ab cd".toList],
          Broken paragraph (paragraphLines someCells 3 paragraph) ∧
          (displayWidth someCells paragraph tabWidth ≤ 3 →
            paragraphLines someCells 3 paragraph = [paragraph])) ↔
        ∀ paragraph ∈ ["ab cd".toList], SpacesFit someCells 3 paragraph) :=
  wrap_only_breaks someCells cellWidths_someCells "ab cd".toList (by decide) 3 (by decide)

/-- An indented line that fits loses its indentation. -/
theorem indentation_lost :
    wrap someCells "  fn".toList 10 = ["fn".toList] ∧
      displayWidth someCells "  fn".toList tabWidth ≤ 10 ∧
      ¬Broken "  fn".toList (wrap someCells "  fn".toList 10) := by
  have hwrap : wrap someCells "  fn".toList 10 = ["fn".toList] := by decide
  refine ⟨hwrap, by decide, ?_⟩
  have hbegins : Begins ["fn".toList] := ⟨by decide, fun _ => rfl⟩
  rw [hwrap]
  exact hbegins.not_broken [' ', 'f', 'n']

end Ui

end Termesh
