import Mathlib.Data.Prod.Lex
import Termesh.Editor.Breaks

/-!
# Protocol positions against offsets

* `utf16ToChar_mono`, `offsetFromUtf16_line`: an offset read on a line stays on it, and further
  right is no further left;
* `offsetFromUtf16_mono`: positions are read in order;
* **`utf16_round_trip`**: offsets come back from their positions, in order, and every position is
  read on its clamped line.
-/

namespace Termesh

theorem utf16ToChar_mono (line : Text) {n k : ℕ} (h : n ≤ k) :
    utf16ToChar line n ≤ utf16ToChar line k := by
  induction line generalizing n k with
  | nil => exact le_rfl
  | cons c line ih =>
    rw [utf16ToChar, utf16ToChar]
    split_ifs with hn hk
    · exact le_rfl
    · exact Nat.zero_le _
    · omega
    · exact Nat.succ_le_succ (ih (by omega))

/-- On a line of the document, the offset is on the part that the line shows. -/
theorem offsetFromUtf16_line {t : Text} {line : ℕ} (h : line < lenLines t) (character : ℕ) :
    lineToChar t line ≤ offsetFromUtf16 t line character ∧
      offsetFromUtf16 t line character ≤ lineToChar t (line + 1) := by
  rw [offsetFromUtf16, if_neg (Nat.not_le.mpr h), lineToChar_succ]
  dsimp only
  refine ⟨Nat.le_add_right _ _, Nat.add_le_add_left ((utf16ToChar_le _ _).trans ?_) _⟩
  rw [List.length_take]
  exact Nat.min_le_right _ _

theorem offsetFromUtf16_behind {t : Text} {line : ℕ} (h : lenLines t ≤ line) (character : ℕ) :
    offsetFromUtf16 t line character = t.length := if_pos h

/-- **Positions are read in order.** -/
theorem offsetFromUtf16_mono (t : Text) :
    Monotone fun p : ℕ ×ₗ ℕ => offsetFromUtf16 t (ofLex p).1 (ofLex p).2 := by
  intro p q h
  dsimp only
  rcases Prod.Lex.le_iff.mp h with hline | ⟨hline, hcharacter⟩
  · by_cases hq : lenLines t ≤ (ofLex q).1
    · rw [offsetFromUtf16_behind hq]
      exact offsetFromUtf16_le t _ _
    · have hq := Nat.lt_of_not_le hq
      calc offsetFromUtf16 t (ofLex p).1 (ofLex p).2
          ≤ lineToChar t ((ofLex p).1 + 1) := (offsetFromUtf16_line (hline.trans hq) _).2
        _ ≤ lineToChar t (ofLex q).1 := lineToChar_mono t hline
        _ ≤ offsetFromUtf16 t (ofLex q).1 (ofLex q).2 := (offsetFromUtf16_line hq _).1
  · rw [hline]
    by_cases hq : lenLines t ≤ (ofLex q).1
    · rw [offsetFromUtf16_behind hq, offsetFromUtf16_behind hq]
    · rw [offsetFromUtf16, offsetFromUtf16, if_neg hq, if_neg hq]
      exact Nat.add_le_add_left (utf16ToChar_mono _ (by omega)) _

/-- The line a position is read on. -/
def clampedLine (t : Text) (line : ℕ) : ℕ := min line (lenLines t - 1)

/-- **UTF-16 positions round-trip.** An offset comes back from its position, and positions keep the
order of offsets. Every position whatsoever is read between the start of its clamped line and the
start of the next one, or the end of the document, and in order. -/
theorem utf16_round_trip (t : Text) :
    (∀ o, o ≤ t.length → offsetFromUtf16 t (utf16Position t o).1 (utf16Position t o).2 = o) ∧
      StrictMonoOn (fun o => toLex (utf16Position t o)) {o | o ≤ t.length} ∧
      (∀ line character, lineToChar t (clampedLine t line) ≤ offsetFromUtf16 t line character ∧
        offsetFromUtf16 t line character ≤
          if clampedLine t line + 1 < lenLines t then lineToChar t (clampedLine t line + 1)
          else t.length) ∧
      Monotone fun p : ℕ ×ₗ ℕ => offsetFromUtf16 t (ofLex p).1 (ofLex p).2 := by
  have hback : ∀ o, o ≤ t.length →
      offsetFromUtf16 t (utf16Position t o).1 (utf16Position t o).2 = o :=
    fun o ho => offsetFromUtf16_utf16Position t ho
  refine ⟨hback, fun o ho o' ho' hlt => ?_, fun line character => ?_, offsetFromUtf16_mono t⟩
  · -- a position that is not earlier is not read earlier
    by_contra hnot
    have hread := offsetFromUtf16_mono t (not_lt.mp hnot)
    have hread : o' ≤ o := by
      rw [← hback o ho, ← hback o' ho']
      exact hread
    exact absurd hlt (Nat.not_lt.mpr hread)
  · have hpos := lenLines_pos t
    by_cases hline : line < lenLines t
    · have hclamped : clampedLine t line = line := Nat.min_eq_left (by omega)
      obtain ⟨hstart, hstop⟩ := offsetFromUtf16_line hline character
      rw [hclamped]
      refine ⟨hstart, ?_⟩
      split_ifs
      · exact hstop
      · exact offsetFromUtf16_le t line character
    · have hclamped : clampedLine t line + 1 = lenLines t := by
        rw [clampedLine, Nat.min_eq_right (by omega)]
        omega
      rw [offsetFromUtf16_behind (Nat.le_of_not_lt hline), hclamped, if_neg (lt_irrefl _)]
      exact ⟨lineToChar_le t _, le_rfl⟩

end Termesh
