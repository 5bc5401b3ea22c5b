import Mathlib.Logic.Function.Iterate
import Termesh.Editor.Breaks

/-!
# Cursor motion and lines

`line_end` looks for a trailing LF and for nothing else. So a line motion keeps to its line exactly
when LF is all that breaks lines.

* `OnItsLine`, `LineByLine`, `StaysOnLines`: what a line motion is for;
* `LfOnly`: LF breaks the lines of the text, and nothing else does;
* **`staysOnLines_iff`**: when the motions of a text stay on their lines;
* **`lineEnd_behind_break`**: the end of a line that ends in VT is the start of the next one.
-/

namespace Termesh

/-- The start and the end of a line are around the offset, on its line, with no break between them,
and the end stands in front of the break of the line. -/
structure OnItsLine (t : Text) (pos : ℕ) : Prop where
  around : lineStart t pos ≤ pos ∧ pos ≤ lineEnd t pos
  line : lineOf t (lineStart t pos) = lineOf t pos ∧ lineOf t (lineEnd t pos) = lineOf t pos
  unbroken : Unbroken (t.extract (lineStart t pos) (lineEnd t pos))
  front : ∃ brk, lineAt t (lineOf t pos) = t.extract (lineStart t pos) (lineEnd t pos) ++ brk ∧
    (brk = [] ∨ IsBreak brk)

/-- Going down `k` lines under a kept column and then up `j` visits every line on the way, and stops
at the last and at the first. -/
def LineByLine (t : Text) (pos : ℕ) : Prop :=
  ∀ goal k j : ℕ,
    lineOf t ((fun p => down t p (some goal))^[k] pos) = min (lineOf t pos + k) (lenLines t - 1) ∧
      lineOf t ((fun p => up t p (some goal))^[j] ((fun p => down t p (some goal))^[k] pos)) =
        min (lineOf t pos + k) (lenLines t - 1) - j

/-- Every line motion keeps to its line. -/
def StaysOnLines (t : Text) : Prop := ∀ pos ≤ t.length, OnItsLine t pos ∧ LineByLine t pos

/-- LF breaks lines, and nothing else does. -/
def LfOnly (t : Text) : Prop := ∀ c ∈ t, isLineBreak c = true → c = '\n'

instance (t : Text) : Decidable (LfOnly t) := inferInstanceAs (Decidable (∀ c ∈ t, _))

theorem mem_lineAt {t : Text} {n : ℕ} {c : Char} (h : c ∈ lineAt t n) : c ∈ t := by
  by_cases hn : n < lenLines t
  · rw [← flatten_ropeLines t]
    refine List.mem_flatten.mpr ⟨lineAt t n, ?_, h⟩
    rw [lineAt, List.getD_eq_getElem _ _ hn]
    exact List.getElem_mem hn
  · rw [lineAt, List.getD_eq_default _ _ (Nat.le_of_not_lt hn)] at h
    exact absurd h List.not_mem_nil

theorem exists_lineAt {t : Text} {c : Char} (h : c ∈ t) : ∃ n < lenLines t, c ∈ lineAt t n := by
  rw [← flatten_ropeLines t] at h
  obtain ⟨l, hl, hc⟩ := List.mem_flatten.mp h
  obtain ⟨n, hn, rfl⟩ := List.mem_iff_getElem.mp hl
  refine ⟨n, hn, ?_⟩
  rw [lineAt, List.getD_eq_getElem _ _ hn]
  exact hc

theorem extract_visible {t : Text} {pos n : ℕ} (h : lineOf t pos = n) :
    t.extract (lineStart t pos) (lineEnd t pos) = (lineAt t n).take (visibleLen (lineAt t n)) := by
  rw [lineEnd_eq h, lineStart, h]
  exact extract_line t n _ (visibleLen_le _)

/-! ## Texts broken by LF -/

section LfOnly

variable {t : Text} (hlf : LfOnly t)
include hlf

theorem lineAt_lf {n : ℕ} (hn : n < lenLines t) :
    ∃ shown brk, lineAt t n = shown ++ brk ∧ Unbroken shown ∧ visibleLen (lineAt t n) = shown.length ∧
      (n + 1 < lenLines t ∧ brk = ['\n'] ∨ n + 1 = lenLines t ∧ brk = []) := by
  by_cases hlast : n + 1 < lenLines t
  · obtain ⟨shown, brk, hline, hshown, hbrk⟩ := lineAt_terminated hlast
    obtain rfl : brk = ['\n'] := by
      have hmem : ∀ c ∈ brk, c ∈ t := fun c hc => by
        refine mem_lineAt (n := n) ?_
        rw [hline]
        exact List.mem_append_right _ hc
      rcases hbrk with rfl | ⟨c, hc, rfl⟩
      · exact absurd (hlf '\r' (hmem _ List.mem_cons_self) (by decide)) (by decide)
      · rw [hlf c (hmem _ List.mem_cons_self) hc]
    refine ⟨shown, ['\n'], hline, hshown, ?_, .inl ⟨hlast, rfl⟩⟩
    rw [hline, visibleLen, List.getLast?_concat]
    simp
  · have hlast : n + 1 = lenLines t := by omega
    have hline := lineAt_last hlast
    exact ⟨lineAt t n, [], (List.append_nil _).symm, hline, visibleLen_unbroken hline,
      .inr ⟨hlast, rfl⟩⟩

theorem lineOf_shown {n p : ℕ} (hn : n < lenLines t) (hstart : lineToChar t n ≤ p)
    (hstop : p ≤ lineToChar t n + visibleLen (lineAt t n)) : lineOf t p = n := by
  obtain ⟨shown, brk, hline, -, hvisible, hbrk⟩ := lineAt_lf hlf hn
  have hlen : (lineAt t n).length = shown.length + brk.length := by rw [hline, List.length_append]
  have hbound := lineToChar_add_lineAt_le t n
  refine lineOf_eq (by omega) hn hstart ?_
  rcases hbrk with ⟨-, rfl⟩ | ⟨hlast, -⟩
  · rw [lineToChar_succ]
    simp only [List.length_cons, List.length_nil] at hlen
    omega
  · exact .inr hlast

theorem onItsLine {pos : ℕ} (hpos : pos ≤ t.length) : OnItsLine t pos := by
  obtain ⟨hn, hstart, hstop⟩ := lineOf_spec t hpos
  obtain ⟨shown, brk, hline, hshown, hvisible, hbrk⟩ := lineAt_lf hlf hn
  have hlen : (lineAt t (lineOf t pos)).length = shown.length + brk.length := by
    rw [hline, List.length_append]
  have htake : t.extract (lineStart t pos) (lineEnd t pos) = shown := by
    rw [extract_visible rfl, hvisible, hline, List.take_left]
  have hend : lineEnd t pos = lineToChar t (lineOf t pos) + visibleLen (lineAt t (lineOf t pos)) := rfl
  constructor
  · refine ⟨hstart, ?_⟩
    rw [hend, hvisible]
    rcases hbrk with ⟨hlast, rfl⟩ | ⟨hlast, rfl⟩
    · rw [lineToChar_succ] at hstop
      simp only [List.length_cons, List.length_nil] at hlen
      omega
    · have hsucc := lineToChar_succ t (lineOf t pos)
      rw [hlast, lineToChar_lenLines] at hsucc
      simp only [List.length_nil] at hlen
      omega
  · exact ⟨lineOf_shown hlf hn le_rfl (Nat.le_add_right _ _),
      lineOf_shown hlf hn (Nat.le_add_right _ _) le_rfl⟩
  · rw [htake]
    exact hshown
  · refine ⟨brk, by rw [htake, hline], ?_⟩
    rcases hbrk with ⟨-, rfl⟩ | ⟨-, rfl⟩
    · exact .inr (.inr ⟨'\n', by decide, rfl⟩)
    · exact .inl rfl

/-- Landing on a line stays on it, whatever the column. -/
theorem toLine_lineOf {n : ℕ} (hn : n < lenLines t) (column : ℕ) :
    lineOf t (toLine t n column) = n := by
  have hend := lineEnd_eq (lineOf_lineToChar hn)
  rw [toLine, hend]
  exact lineOf_shown hlf hn (by omega) (Nat.min_le_right _ _)

theorem lineOf_down {p : ℕ} (hp : p ≤ t.length) (goal : ℕ) :
    lineOf t (down t p (some goal)) = min (lineOf t p + 1) (lenLines t - 1) := by
  have hn := (lineOf_spec t hp).1
  rw [down]
  split_ifs with hlast
  · omega
  · rw [toLine_lineOf hlf (by omega)]
    omega

theorem lineOf_up {p : ℕ} (hp : p ≤ t.length) (goal : ℕ) :
    lineOf t (up t p (some goal)) = lineOf t p - 1 := by
  have hn := (lineOf_spec t hp).1
  rw [up]
  split_ifs with hfirst
  · omega
  · exact toLine_lineOf hlf (by omega) _

/-- A run of steps down. -/
theorem lineOf_iterate_down {p : ℕ} (hp : p ≤ t.length) (goal k : ℕ) :
    (fun p => down t p (some goal))^[k] p ≤ t.length ∧
      lineOf t ((fun p => down t p (some goal))^[k] p) = min (lineOf t p + k) (lenLines t - 1) := by
  induction k with
  | zero =>
    have hn := (lineOf_spec t hp).1
    refine ⟨hp, ?_⟩
    rw [Function.iterate_zero, id_eq]
    omega
  | succ k ih =>
    rw [Function.iterate_succ_apply', lineOf_down hlf ih.1, ih.2]
    exact ⟨down_le ih.1 _, by omega⟩

theorem lineOf_iterate_up {p : ℕ} (hp : p ≤ t.length) (goal j : ℕ) :
    (fun p => up t p (some goal))^[j] p ≤ t.length ∧
      lineOf t ((fun p => up t p (some goal))^[j] p) = lineOf t p - j := by
  induction j with
  | zero => exact ⟨hp, rfl⟩
  | succ j ih =>
    rw [Function.iterate_succ_apply', lineOf_up hlf ih.1, ih.2]
    exact ⟨up_le ih.1 _, by omega⟩

theorem lineByLine {pos : ℕ} (hpos : pos ≤ t.length) : LineByLine t pos := by
  intro goal k j
  obtain ⟨hbelow, hdown⟩ := lineOf_iterate_down hlf hpos goal k
  refine ⟨hdown, ?_⟩
  rw [(lineOf_iterate_up hlf hbelow goal j).2, hdown]

end LfOnly

theorem break_between {t : Text} {c : Char} (hc : c ∈ t) (hbreak : isLineBreak c = true)
    (hne : c ≠ '\n') :
    ∃ pos ≤ t.length, ¬ Unbroken (t.extract (lineStart t pos) (lineEnd t pos)) := by
  obtain ⟨n, hn, hmem⟩ := exists_lineAt hc
  refine ⟨lineToChar t n, lineToChar_le t n, fun hun => ?_⟩
  rw [extract_visible (lineOf_lineToChar hn)] at hun
  have hkept : c ∈ (lineAt t n).take (visibleLen (lineAt t n)) := by
    rw [visibleLen]
    split
    · rename_i hlast
      -- the LF that is cut off is not the break in question
      obtain ⟨shown, hline⟩ := List.getLast?_eq_some_iff.mp hlast
      rw [hline] at hmem ⊢
      rcases List.mem_append.mp hmem with hmem | hmem
      · rwa [List.length_append, List.length_singleton, Nat.add_sub_cancel, List.take_left]
      · exact absurd (List.mem_singleton.mp hmem) hne
    · rwa [List.take_length]
  rw [hun c hkept] at hbreak
  cases hbreak

/-- **Line motions stay on their lines** exactly in the texts that only LF breaks. -/
theorem staysOnLines_iff (t : Text) : StaysOnLines t ↔ LfOnly t := by
  constructor
  · intro hstays c hc hbreak
    by_contra hne
    obtain ⟨pos, hpos, hnot⟩ := break_between hc hbreak hne
    exact hnot (hstays pos hpos).1.unbroken
  · exact fun hlf pos hpos => ⟨onItsLine hlf hpos, lineByLine hlf hpos⟩

/-- "a", "b" and "c" on three lines, the first two of them ended by VT. -/
def verticalTabs : Text := ['a', '\x0b', 'b', '\x0b', 'c']

/-- **The end of a line that ends in VT is the start of the next one**, and the way down goes past
a line. -/
theorem lineEnd_behind_break :
    ¬ (∀ t, StaysOnLines t) ∧ lineEnd verticalTabs 0 = lineStart verticalTabs 2 ∧
      lineOf verticalTabs (down verticalTabs 0 (some 9)) = 2 := by
  refine ⟨fun hall => ?_, by decide, by decide⟩
  have hend := (hall verticalTabs 0 (Nat.zero_le _)).1.unbroken '\x0b' (by decide)
  exact absurd hend (by decide)

end Termesh
