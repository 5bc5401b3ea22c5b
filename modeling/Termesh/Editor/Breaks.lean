import Mathlib.Data.List.GetD
import Termesh.Editor.Mirror

/-!
# Lines and their breaks

Every line but the last is what it shows followed by its break, and the last one has no break.

* `Unbroken`, `IsBreak`, **`ropeLines_shape`**: the lines of a text;
* **`lineOf_eq`**: an offset is on the line it lies in.
-/

namespace Termesh

/-- No character of the text breaks a line. -/
def Unbroken (t : Text) : Prop := ∀ c ∈ t, isLineBreak c = false

/-- One line break. -/
def IsBreak (t : Text) : Prop := t = ['\r', '\n'] ∨ ∃ c, isLineBreak c = true ∧ t = [c]

theorem unbroken_cons {c : Char} {t : Text} :
    Unbroken (c :: t) ↔ isLineBreak c = false ∧ Unbroken t := List.forall_mem_cons

theorem IsBreak.ne_nil {t : Text} (h : IsBreak t) : t ≠ [] := by
  rcases h with rfl | ⟨c, -, rfl⟩ <;> simp

/-- A line that is not the last. -/
def Terminated (l : Text) : Prop := ∃ shown brk, l = shown ++ brk ∧ Unbroken shown ∧ IsBreak brk

/-- **The lines of a text.** All but the last end in their break, and the last has none. -/
theorem ropeLines_shape (t : Text) :
    ∃ ls l, ropeLines t = ls ++ [l] ∧ (∀ m ∈ ls, Terminated m) ∧ Unbroken l := by
  induction t using ropeLines.induct with
  | case1 => exact ⟨[], [], rfl, by simp, by simp [Unbroken]⟩
  | case2 t ih =>
    obtain ⟨ls, l, h, hls, hl⟩ := ih
    refine ⟨['\r', '\n'] :: ls, l, by rw [ropeLines, h]; rfl, ?_, hl⟩
    exact List.forall_mem_cons.mpr ⟨⟨[], _, rfl, by simp [Unbroken], .inl rfl⟩, hls⟩
  | case3 c t h hb ih =>
    obtain ⟨ls, l, heq, hls, hl⟩ := ih
    refine ⟨[c] :: ls, l, by rw [ropeLines.eq_3 _ _ h, if_pos hb, heq]; rfl, ?_, hl⟩
    exact List.forall_mem_cons.mpr ⟨⟨[], _, rfl, by simp [Unbroken], .inr ⟨c, hb, rfl⟩⟩, hls⟩
  | case4 c t h hb ih =>
    obtain ⟨ls, l, heq, hls, hl⟩ := ih
    have hc : isLineBreak c = false := by simpa using hb
    rw [ropeLines.eq_3 _ _ h, if_neg hb, heq]
    cases ls with
    | nil => exact ⟨[], c :: l, rfl, by simp, unbroken_cons.mpr ⟨hc, hl⟩⟩
    | cons m ls =>
      obtain ⟨hm, hrest⟩ := List.forall_mem_cons.mp hls
      obtain ⟨shown, brk, rfl, hshown, hbrk⟩ := hm
      refine ⟨(c :: shown ++ brk) :: ls, l, rfl, List.forall_mem_cons.mpr ⟨?_, hrest⟩, hl⟩
      exact ⟨c :: shown, brk, rfl, unbroken_cons.mpr ⟨hc, hshown⟩, hbrk⟩

theorem lenLines_pos (t : Text) : 0 < lenLines t := by
  obtain ⟨ls, l, h, -⟩ := ropeLines_shape t
  rw [lenLines, h, List.length_append, List.length_singleton]
  exact Nat.succ_pos _

theorem lineAt_terminated {t : Text} {n : ℕ} (h : n + 1 < lenLines t) : Terminated (lineAt t n) := by
  obtain ⟨ls, l, heq, hls, -⟩ := ropeLines_shape t
  have hn : n < ls.length := by
    rw [lenLines, heq, List.length_append, List.length_singleton] at h
    omega
  rw [lineAt, heq, List.getD_append _ _ _ _ hn, List.getD_eq_getElem _ _ hn]
  exact hls _ (List.getElem_mem hn)

theorem lineAt_last {t : Text} {n : ℕ} (h : n + 1 = lenLines t) : Unbroken (lineAt t n) := by
  obtain ⟨ls, l, heq, -, hl⟩ := ropeLines_shape t
  have hn : n = ls.length := by
    rw [lenLines, heq, List.length_append, List.length_singleton] at h
    omega
  rw [lineAt, heq, hn, List.getD_append_right _ _ _ _ le_rfl, Nat.sub_self]
  exact hl

/-! ## Where lines start -/

theorem lineToChar_succ (t : Text) (n : ℕ) :
    lineToChar t (n + 1) = lineToChar t n + (lineAt t n).length := by
  have key : ∀ (ls : List Text) (n : ℕ),
      lineToCharAux ls (n + 1) = lineToCharAux ls n + (ls.getD n []).length := by
    intro ls
    induction ls with
    | nil => intro n; simp [lineToCharAux]
    | cons l ls ih =>
      intro n
      cases n with
      | zero => simp [lineToCharAux]
      | succ n =>
        have hrest := ih n
        simp only [lineToCharAux, List.take_succ_cons, List.map_cons, List.sum_cons,
          List.getD_cons_succ] at hrest ⊢
        omega
  exact key _ n

theorem lineToChar_mono (t : Text) {n m : ℕ} (h : n ≤ m) : lineToChar t n ≤ lineToChar t m := by
  induction h with
  | refl => exact le_rfl
  | step h ih =>
    rw [lineToChar_succ]
    omega

/-- Behind the last line the document ends. -/
theorem lineToChar_lenLines (t : Text) : lineToChar t (lenLines t) = t.length := by
  rw [lineToChar, lineToCharAux, lenLines, List.take_length, ← List.length_flatten, flatten_ropeLines]

theorem extract_line (t : Text) (n k : ℕ) (hk : k ≤ (lineAt t n).length) :
    t.extract (lineToChar t n) (lineToChar t n + k) = (lineAt t n).take k := by
  have key : ∀ (ls : List Text) (n : ℕ) (k : ℕ), k ≤ (ls.getD n []).length →
      (ls.flatten.drop (lineToCharAux ls n)).take k = (ls.getD n []).take k := by
    intro ls
    induction ls with
    | nil => intro n k _; simp
    | cons l ls ih =>
      intro n k hk
      cases n with
      | zero =>
        have hk : k ≤ l.length := hk
        simp [lineToCharAux, List.take_append_of_le_length hk]
      | succ n =>
        have hrest := ih n k hk
        have hsum : lineToCharAux (l :: ls) (n + 1) = l.length + lineToCharAux ls n := by
          simp [lineToCharAux]
        rw [hsum, List.flatten_cons, List.drop_append, List.drop_eq_nil_of_le (by omega),
          Nat.add_sub_cancel_left]
        exact hrest
  rw [List.extract_eq_take_drop, Nat.add_sub_cancel_left]
  have hline := key (ropeLines t) n k hk
  rwa [flatten_ropeLines] at hline

/-! ## The line of an offset -/

theorem lineOf_spec (t : Text) {pos : ℕ} (h : pos ≤ t.length) :
    lineOf t pos < lenLines t ∧ lineToChar t (lineOf t pos) ≤ pos ∧
      (pos < lineToChar t (lineOf t pos + 1) ∨ lineOf t pos + 1 = lenLines t) := by
  have hne : ropeLines t ≠ [] := List.length_pos_iff.mp (lenLines_pos t)
  have hpos : pos ≤ (ropeLines t).flatten.length := by rwa [flatten_ropeLines]
  obtain ⟨hlt, hle, hcol⟩ := charToLineAux_spec (ropeLines t) hne hpos
  have hline : lineOf t pos = charToLineAux (ropeLines t) pos := by
    rw [lineOf, Nat.min_eq_left h]
    rfl
  rw [lineToChar_succ, hline]
  refine ⟨hlt, hle, hcol.imp (fun hcol => ?_) fun hcol => hcol.1⟩
  have hcol : pos - lineToChar t (charToLineAux (ropeLines t) pos) <
    (lineAt t (charToLineAux (ropeLines t) pos)).length := hcol
  omega

/-- **An offset is on the line it lies in.** -/
theorem lineOf_eq {t : Text} {pos n : ℕ} (hpos : pos ≤ t.length) (hn : n < lenLines t)
    (hstart : lineToChar t n ≤ pos) (hstop : pos < lineToChar t (n + 1) ∨ n + 1 = lenLines t) :
    lineOf t pos = n := by
  obtain ⟨hlt, hle, hcol⟩ := lineOf_spec t hpos
  rcases Nat.lt_trichotomy (lineOf t pos) n with hless | heq | hmore
  · have hmono : lineToChar t (lineOf t pos + 1) ≤ lineToChar t n := lineToChar_mono t hless
    omega
  · exact heq
  · have hmono : lineToChar t (n + 1) ≤ lineToChar t (lineOf t pos) := lineToChar_mono t hmore
    omega

theorem lineOf_lineToChar {t : Text} {n : ℕ} (hn : n < lenLines t) : lineOf t (lineToChar t n) = n := by
  refine lineOf_eq (lineToChar_le t n) hn le_rfl ?_
  by_cases hlast : n + 1 < lenLines t
  · obtain ⟨shown, brk, hline, -, hbrk⟩ := lineAt_terminated hlast
    have hpos : 0 < (lineAt t n).length := by
      rw [hline, List.length_append]
      exact Nat.lt_of_lt_of_le (List.length_pos_iff.mpr hbrk.ne_nil) (Nat.le_add_left _ _)
    rw [lineToChar_succ]
    omega
  · omega

/-! ## The part of a line that is shown -/

theorem visibleLen_unbroken {l : Text} (h : Unbroken l) : visibleLen l = l.length := by
  unfold visibleLen
  split
  · rename_i hlast
    have hbreak := h '\n' (List.mem_of_getLast? hlast)
    exact absurd hbreak (by decide)
  · rfl

theorem lineEnd_eq {t : Text} {pos n : ℕ} (h : lineOf t pos = n) :
    lineEnd t pos = lineToChar t n + visibleLen (lineAt t n) := by
  rw [← h]
  rfl

end Termesh
