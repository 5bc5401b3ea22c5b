import Termesh.Editor.Lines
import Termesh.Editor.Span

/-!
# Mirroring a document

What a protocol change says: the text between two positions is replaced. A change set is told to a
server as the span of its changes; replayed at the same positions it makes the same document.

* `splice`: a protocol change, as the editor itself reads its positions;
* **`offsetFromUtf16_utf16Position`**: an offset comes back from its position;
* **`splice_changedSpan`**: a change set is the replacement of its span.
-/

namespace Termesh

open EditScript

/-- Replace the text between two protocol positions. -/
def splice (t : Text) (start stop : ℕ × ℕ) (new : Text) : Text :=
  t.take (offsetFromUtf16 t start.1 start.2) ++ new ++ t.drop (offsetFromUtf16 t stop.1 stop.2)

/-! ## Positions -/

/-- Where `charToLine` lands: on a line that reaches the offset, and past it unless it is the
last. -/
theorem charToLineAux_spec (ls : List Text) {pos : ℕ} (hne : ls ≠ [])
    (hpos : pos ≤ ls.flatten.length) :
    charToLineAux ls pos < ls.length ∧ lineToCharAux ls (charToLineAux ls pos) ≤ pos ∧
      (pos - lineToCharAux ls (charToLineAux ls pos) <
          (ls.getD (charToLineAux ls pos) []).length ∨
        charToLineAux ls pos + 1 = ls.length ∧
          pos - lineToCharAux ls (charToLineAux ls pos) ≤
            (ls.getD (charToLineAux ls pos) []).length) := by
  induction ls generalizing pos with
  | nil => exact absurd rfl hne
  | cons l ls ih =>
    cases ls with
    | nil =>
      have hlast : pos ≤ l.length := by simpa using hpos
      simp [charToLineAux, lineToCharAux, hlast]
    | cons l' ls =>
      rw [charToLineAux]
      split_ifs with hlt
      · simp [lineToCharAux, hlt]
      · have hrest : pos - l.length ≤ (l' :: ls).flatten.length := by
          rw [List.flatten_cons, List.length_append] at hpos
          omega
        obtain ⟨h1, h2, h3⟩ := ih (List.cons_ne_nil _ _) hrest
        have hsum : ∀ n, lineToCharAux (l :: l' :: ls) (n + 1) =
            l.length + lineToCharAux (l' :: ls) n := fun n => by simp [lineToCharAux]
        rw [hsum, List.getD_cons_succ]
        simp only [List.length_cons] at h1 h3 ⊢
        omega

/-- No line but the last lacks its break, so the last does not end in one. -/
theorem getLast_ropeLines (t : Text) :
    ∃ ls l, ropeLines t = ls ++ [l] ∧ l.getLast? ≠ some '\n' := by
  induction t using ropeLines.induct with
  | case1 => exact ⟨[], [], rfl, by simp⟩
  | case2 t ih =>
    obtain ⟨ls, l, h, hl⟩ := ih
    exact ⟨['\r', '\n'] :: ls, l, by rw [ropeLines, h]; rfl, hl⟩
  | case3 c t h hb ih =>
    obtain ⟨ls, l, hls, hl⟩ := ih
    exact ⟨[c] :: ls, l, by rw [ropeLines.eq_3 _ _ h, if_pos hb, hls]; rfl, hl⟩
  | case4 c t h hb ih =>
    obtain ⟨ls, l, hls, hl⟩ := ih
    rw [ropeLines.eq_3 _ _ h, if_neg hb, hls]
    cases ls with
    | nil =>
      refine ⟨[], c :: l, rfl, ?_⟩
      cases l with
      | nil =>
        intro hc
        obtain rfl : c = '\n' := by simpa using hc
        exact hb (by decide)
      | cons d l => simpa using hl
    | cons l' ls => exact ⟨(c :: l') :: ls, l, rfl, hl⟩

theorem utf16ToChar_charToUtf16 (line : Text) {n : ℕ} (hn : n ≤ line.length) :
    utf16ToChar line (charToUtf16 line n) = n := by
  induction line generalizing n with
  | nil =>
    obtain rfl : n = 0 := by simpa using hn
    rfl
  | cons c line ih =>
    have hc : 0 < utf16Len c := by unfold utf16Len; split <;> decide
    cases n with
    | zero => simp [charToUtf16, utf16ToChar, hc]
    | succ n =>
      have hrec := ih (Nat.le_of_succ_le_succ hn)
      have hsum : charToUtf16 (c :: line) (n + 1) = utf16Len c + charToUtf16 line n := by
        simp [charToUtf16]
      rw [hsum, utf16ToChar, if_neg (by omega), Nat.add_sub_cancel_left, hrec]

theorem charToUtf16_mono (line : Text) {n k : ℕ} (h : n ≤ k) :
    charToUtf16 line n ≤ charToUtf16 line k := by
  obtain ⟨d, rfl⟩ := Nat.exists_eq_add_of_le h
  rw [charToUtf16, charToUtf16, List.take_add, List.map_append, List.sum_append]
  exact Nat.le_add_right _ _

/-- **An offset comes back from its position.** -/
theorem offsetFromUtf16_utf16Position (t : Text) {x : ℕ} (hx : x ≤ t.length) :
    offsetFromUtf16 t (utf16Position t x).1 (utf16Position t x).2 = x := by
  obtain ⟨ls, last, hls, hlast⟩ := getLast_ropeLines t
  have hne : ropeLines t ≠ [] := by simp [hls]
  have hflat : x ≤ (ropeLines t).flatten.length := by rwa [flatten_ropeLines]
  obtain ⟨hline, hstart, hcol⟩ := charToLineAux_spec (ropeLines t) hne hflat
  have hpos : utf16Position t x = (charToLine t x,
      charToUtf16 (lineAt t (charToLine t x)) (x - lineToChar t (charToLine t x))) := by
    rw [utf16Position, Nat.min_eq_left hx]
  rw [hpos]
  show offsetFromUtf16 t (charToLine t x) (charToUtf16 _ _) = x
  -- the offset is on the visible part of its line
  have hvisible : x - lineToChar t (charToLine t x) ≤ visibleLen (lineAt t (charToLine t x)) := by
    rcases hcol with hlt | ⟨hend, hle⟩
    · have hlt : x - lineToChar t (charToLine t x) < (lineAt t (charToLine t x)).length := hlt
      unfold visibleLen
      split <;> omega
    · have hat : lineAt t (charToLine t x) = last := by
        have hidx : charToLine t x = ls.length := by
          rw [hls, List.length_append, List.length_singleton] at hend
          have h : charToLine t x + 1 = ls.length + 1 := by rw [charToLine, hls]; exact hend
          omega
        rw [lineAt, hidx, hls]
        simp
      have hle : x - lineToChar t (charToLine t x) ≤ (lineAt t (charToLine t x)).length := hle
      rw [hat] at hle ⊢
      unfold visibleLen
      split
      · rename_i h
        exact absurd h hlast
      · exact hle
  generalize hcol' : x - lineToChar t (charToLine t x) = col at hvisible ⊢
  generalize hline' : lineAt t (charToLine t x) = line at hvisible ⊢
  have hlen := visibleLen_le line
  have htake : ∀ n, n ≤ visibleLen line →
      charToUtf16 (line.take (visibleLen line)) n = charToUtf16 line n := fun n hn => by
    rw [charToUtf16, charToUtf16, List.take_take, Nat.min_eq_left hn]
  have hcontent : (line.take (visibleLen line)).length = visibleLen line := by
    rw [List.length_take, Nat.min_eq_left hlen]
  have hmin : min (charToUtf16 line col)
      (charToUtf16 (line.take (visibleLen line)) (line.take (visibleLen line)).length) =
        charToUtf16 (line.take (visibleLen line)) col := by
    rw [hcontent, htake _ (Nat.le_refl _), htake _ hvisible]
    exact Nat.min_eq_left (charToUtf16_mono line hvisible)
  have hbelow : ¬ lenLines t ≤ charToLine t x := Nat.not_le.mpr hline
  rw [offsetFromUtf16, if_neg hbelow, hline']
  show lineToChar t (charToLine t x) + utf16ToChar _ (min _ _) = x
  rw [hmin, utf16ToChar_charToUtf16 _ (by rwa [hcontent]), ← hcol']
  exact Nat.add_sub_cancel' hstart

/-! ## Spans -/

/-- **A change set is the replacement of its span, read at the positions it is told at.** -/
theorem splice_changedSpan (c : ChangeSet) {t : Text} (hlen : c.lenBefore = t.length)
    {s : ChangedSpan} (hs : c.changedSpan = some s) :
    splice t (utf16Position t s.beforeStart) (utf16Position t s.beforeEnd)
      (((c.apply t).take s.afterEnd).drop s.afterStart) = c.apply t := by
  have hspan := changedSpan_spec c hlen hs
  have ⟨h1, h2, _⟩ := hspan
  rw [splice, offsetFromUtf16_utf16Position t (h1.trans h2), offsetFromUtf16_utf16Position t h2]
  exact hspan.replace

end Termesh
