import Termesh.Editor.Breaks

/-!
# How the protocol reads a position

In the language protocol a line ends at LF, CR or CRLF and nowhere else. The editor counts more
lines, so a position it sends can be read at another offset.

* `lspOffset`: the offset of a position, as the protocol reads it;
* **`lspOffset_utf16Position`**: an offset comes back exactly when it is `Legible`;
* `lspSplice`: a protocol change, as the protocol reads its positions.
-/

namespace Termesh

/-- The characters that end a line of the protocol. -/
def isEol (c : Char) : Bool := c == '\n' || c == '\r'

/-- The offset of a position. A character behind the end of its line is at that end, a line behind
the last one is at the end of the document. -/
@[simp] def lspOffset : Text → ℕ → ℕ → ℕ
  | [], _, _ => 0
  | '\r' :: '\n' :: _, 0, _ => 0
  | '\r' :: '\n' :: t, line + 1, character => lspOffset t line character + 2
  | c :: t, 0, character =>
    if isEol c || character < utf16Len c then 0
    else lspOffset t 0 (character - utf16Len c) + 1
  | c :: t, line + 1, character => lspOffset t (if isEol c then line else line + 1) character + 1

theorem isEol_of_plain {c : Char} (hb : isLineBreak c = false) : isEol c = false := by
  by_contra hc
  rw [Bool.not_eq_false, isEol, Bool.or_eq_true, beq_iff_eq, beq_iff_eq] at hc
  rcases hc with rfl | rfl <;> exact absurd hb (by decide)

/-- A break of the editor's lines that is none of the protocol's. -/
def isForeign (c : Char) : Bool := isLineBreak c && !isEol c

/-- The protocol and the editor count the same lines in front of the offset, and the offset is not
inside a CRLF. The end of the document is read wherever the last line begins. -/
def Legible (t : Text) (p : ℕ) : Prop :=
  p = t.length ∨ (∀ c ∈ t.take p, isForeign c = false) ∧
    ¬ (0 < p ∧ t[p - 1]? = some '\r' ∧ t[p]? = some '\n')

instance (t : Text) (p : ℕ) : Decidable (Legible t p) :=
  have : Decidable (∀ c ∈ t.take p, isForeign c = false) := List.decidableBAll _ _
  instDecidableOr

/-! ## Reading -/

section Reading

variable {c : Char} {t : Text}

theorem lspOffset_crlf (line character : ℕ) :
    lspOffset ('\r' :: '\n' :: t) (line + 1) character = lspOffset t line character + 2 := by
  rw [lspOffset]

theorem lspOffset_next (h : ∀ t', c = '\r' → t = '\n' :: t' → False) (line character : ℕ) :
    lspOffset (c :: t) (line + 1) character =
      lspOffset t (if isEol c then line else line + 1) character + 1 := by
  rw [lspOffset.eq_5 _ _ _ _ h]

theorem lspOffset_along (h : isEol c = false) (character : ℕ) :
    lspOffset (c :: t) 0 (utf16Len c + character) = lspOffset t 0 character + 1 := by
  have hr : ∀ t', c = '\r' → t = '\n' :: t' → False := fun t' hc _ => by
    rw [hc] at h
    exact absurd h (by decide)
  rw [lspOffset.eq_4 _ _ _ hr, h, Bool.false_or, if_neg (by simp), Nat.add_sub_cancel_left]

theorem utf16Len_pos (c : Char) : 0 < utf16Len c := by
  unfold utf16Len
  split_ifs <;> decide

theorem lspOffset_zero (t : Text) : lspOffset t 0 0 = 0 := by
  cases t using ropeLines.induct with
  | case1 => rfl
  | case2 t => rfl
  | case3 c t h hb => rw [lspOffset.eq_4 _ _ _ h, if_pos (by simp [utf16Len_pos])]
  | case4 c t h hb => rw [lspOffset.eq_4 _ _ _ h, if_pos (by simp [utf16Len_pos])]

theorem lspOffset_le (t : Text) (line character : ℕ) : lspOffset t line character ≤ t.length := by
  fun_induction lspOffset t line character with
  | case1 => exact Nat.le_refl _
  | case2 => exact Nat.zero_le _
  | case3 t line character ih =>
    rw [List.length_cons, List.length_cons]
    omega
  | case4 => exact Nat.zero_le _
  | case5 c t character h hr ih => exact Nat.succ_le_succ ih
  | case6 c t line character hr ih => exact Nat.succ_le_succ ih

end Reading

/-! ## Positions, character by character -/

section Positions

variable {c : Char} {t : Text}

theorem utf16Position_of_le {p : ℕ} (h : p ≤ t.length) : utf16Position t p =
    (charToLine t p, charToUtf16 (lineAt t (charToLine t p)) (p - lineToChar t (charToLine t p))) := by
  rw [utf16Position, Nat.min_eq_left h]

theorem utf16Position_zero (t : Text) : utf16Position t 0 = (0, 0) := by
  have hline : charToLine t 0 = 0 := by
    have h := lineOf_lineToChar (lenLines_pos t)
    rwa [lineOf, lineToChar, lineToCharAux, List.take_zero, List.map_nil, List.sum_nil,
      Nat.zero_min] at h
  rw [utf16Position_of_le (Nat.zero_le _), hline]
  rfl

theorem utf16Position_line {l t' : Text} (hl : ropeLines t = l :: ropeLines t') {p : ℕ}
    (hp : p ≤ t'.length) :
    utf16Position t (l.length + p) = ((utf16Position t' p).1 + 1, (utf16Position t' p).2) := by
  have hlen : t.length = l.length + t'.length := by
    rw [← flatten_ropeLines t, hl, List.flatten_cons, List.length_append, flatten_ropeLines]
  have hline : charToLine t (l.length + p) = charToLine t' p + 1 := by
    rw [charToLine, charToLine, hl]
    cases hls : ropeLines t' with
    | nil => exact absurd (lenLines_pos t') (by rw [lenLines, hls]; exact Nat.lt_irrefl 0)
    | cons l' ls => rw [charToLineAux, if_neg (by omega), Nat.add_sub_cancel_left]
  have hstart : ∀ k, lineToChar t (k + 1) = l.length + lineToChar t' k := fun k => by
    rw [lineToChar, hl]
    rfl
  have hat : ∀ k, lineAt t (k + 1) = lineAt t' k := fun k => by
    rw [lineAt, hl]
    rfl
  rw [utf16Position_of_le hp, utf16Position_of_le (by omega), hline, hstart, hat,
    Nat.add_sub_add_left]

theorem utf16Position_crlf {p : ℕ} (hp : p ≤ t.length) : utf16Position ('\r' :: '\n' :: t) (p + 2) =
    ((utf16Position t p).1 + 1, (utf16Position t p).2) := by
  rw [Nat.add_comm]
  exact utf16Position_line (l := ['\r', '\n']) (by rw [ropeLines]) hp

theorem utf16Position_inside (t : Text) : utf16Position ('\r' :: '\n' :: t) 1 = (0, 1) := by
  rw [utf16Position_of_le (by simp), charToLine, lineAt, lineToChar, ropeLines]
  cases ropeLines t with
  | nil => rfl
  | cons l ls => rfl

theorem utf16Position_break (h : ∀ t', c = '\r' → t = '\n' :: t' → False)
    (hb : isLineBreak c = true) {p : ℕ} (hp : p ≤ t.length) : utf16Position (c :: t) (p + 1) =
      ((utf16Position t p).1 + 1, (utf16Position t p).2) := by
  rw [Nat.add_comm]
  exact utf16Position_line (l := [c]) (by rw [ropeLines.eq_3 _ _ h, if_pos hb]) hp

theorem utf16Position_plain (hb : isLineBreak c = false) {p : ℕ} (hp : p ≤ t.length) :
    utf16Position (c :: t) (p + 1) = ((utf16Position t p).1,
      if (utf16Position t p).1 = 0 then utf16Len c + (utf16Position t p).2
      else (utf16Position t p).2) := by
  have hlines : ropeLines (c :: t) = consLine c (ropeLines t) := by
    rw [ropeLines.eq_3, if_neg (by simp [hb])]
    rintro t' rfl -
    exact absurd hb (by decide)
  cases hls : ropeLines t with
  | nil => exact absurd (lenLines_pos t) (by rw [lenLines, hls]; exact Nat.lt_irrefl 0)
  | cons l ls =>
    have hline : charToLine (c :: t) (p + 1) = charToLine t p := by
      rw [charToLine, charToLine, hlines, hls]
      cases ls with
      | nil => rfl
      | cons l' ls =>
        simp only [consLine, charToLineAux, List.length_cons, Nat.succ_lt_succ_iff,
          Nat.add_sub_add_right]
    rw [utf16Position_of_le hp, utf16Position_of_le (Nat.succ_le_succ hp), hline]
    dsimp only
    congr 1
    cases charToLine t p with
    | zero =>
      rw [if_pos rfl, lineAt, lineAt, hlines, hls]
      simp [consLine, lineToChar, lineToCharAux, charToUtf16]
    | succ k =>
      have hstart : lineToChar (c :: t) (k + 1) = lineToChar t (k + 1) + 1 := by
        rw [lineToChar, lineToChar, hlines, hls]
        simp only [consLine, lineToCharAux, List.take_succ_cons, List.map_cons, List.sum_cons,
          List.length_cons]
        omega
      rw [if_neg (Nat.succ_ne_zero k), hstart, lineAt, lineAt, hlines, hls, Nat.add_sub_add_right]
      rfl

end Positions

/-! ## What comes back -/

section Legibility

variable {c : Char} {t : Text}

theorem legible_zero (t : Text) : Legible t 0 := .inr ⟨by simp, by simp⟩

theorem legible_crlf {p : ℕ} : Legible ('\r' :: '\n' :: t) (p + 2) ↔ Legible t p := by
  have hr : isForeign '\r' = false := by decide
  have hn : isForeign '\n' = false := by decide
  cases p with
  | zero => simp [Legible, hr, hn]
  | succ p => simp [Legible, hr, hn]

theorem legible_cons (h : ∀ t', c = '\r' → t = '\n' :: t' → False) {p : ℕ} :
    Legible (c :: t) (p + 1) ↔ p = t.length ∨ isForeign c = false ∧ Legible t p := by
  cases p with
  | zero =>
    have hpair : ¬ (c = '\r' ∧ t[0]? = some '\n') := by
      rintro ⟨hc, ht⟩
      cases t with
      | nil => cases ht
      | cons d t => exact h t hc (by rw [Option.some.inj ht])
    simp [Legible, hpair, @eq_comm _ 0]
  | succ p =>
    simp only [Legible, List.length_cons, Nat.succ_inj, List.take_succ_cons, List.mem_cons,
      forall_eq_or_imp, Nat.add_sub_cancel, List.getElem?_cons_succ, Nat.succ_pos, true_and]
    tauto

/-- **A position on a later line is read further right**, or at the end of the document. -/
theorem lspOffset_behind {p line : ℕ} (hp : p ≤ t.length) (hline : (utf16Position t p).1 < line)
    (character : ℕ) :
    p < lspOffset t line character ∨ lspOffset t line character = t.length := by
  induction t using ropeLines.induct generalizing p line with
  | case1 => exact .inr rfl
  | case2 t ih =>
    cases line with
    | zero => exact absurd hline (Nat.not_lt_zero _)
    | succ line =>
      rw [lspOffset_crlf, List.length_cons, List.length_cons]
      obtain _ | _ | p := p
      · exact .inl (by omega)
      · exact .inl (by omega)
      · have hp : p ≤ t.length := by simpa using hp
        rw [utf16Position_crlf hp] at hline
        have hrest := ih hp (Nat.lt_of_succ_lt_succ hline)
        omega
  | case3 c t h hb ih =>
    cases line with
    | zero => exact absurd hline (Nat.not_lt_zero _)
    | succ line =>
      rw [lspOffset_next h, List.length_cons]
      cases p with
      | zero => exact .inl (Nat.succ_pos _)
      | succ p =>
        have hp : p ≤ t.length := by simpa using hp
        rw [utf16Position_break h hb hp] at hline
        have hless : (utf16Position t p).1 < if isEol c then line else line + 1 := by
          split_ifs <;> omega
        have hrest := ih hp hless
        omega
  | case4 c t h hb ih =>
    have hb : isLineBreak c = false := by simpa using hb
    have heol : isEol c = false := isEol_of_plain hb
    cases line with
    | zero => exact absurd hline (Nat.not_lt_zero _)
    | succ line =>
      rw [lspOffset_next h, List.length_cons, heol, if_neg Bool.false_ne_true]
      cases p with
      | zero => exact .inl (Nat.succ_pos _)
      | succ p =>
        have hp : p ≤ t.length := by simpa using hp
        rw [utf16Position_plain hb hp] at hline
        have hrest := ih hp hline
        omega

/-- **An offset comes back from its position exactly when it is legible.** -/
theorem lspOffset_utf16Position {p : ℕ} (hp : p ≤ t.length) :
    lspOffset t (utf16Position t p).1 (utf16Position t p).2 = p ↔ Legible t p := by
  induction t using ropeLines.induct generalizing p with
  | case1 =>
    obtain rfl : p = 0 := by simpa using hp
    exact iff_of_true rfl (legible_zero _)
  | case2 t ih =>
    obtain _ | _ | p := p
    · rw [utf16Position_zero]
      exact iff_of_true rfl (legible_zero _)
    · rw [utf16Position_inside]
      exact iff_of_false (by simp [lspOffset]) (by simp [Legible])
    · have hp : p ≤ t.length := by simpa using hp
      rw [utf16Position_crlf hp, lspOffset_crlf, Nat.add_left_inj, ih hp, legible_crlf]
  | case3 c t h hb ih =>
    cases p with
    | zero =>
      rw [utf16Position_zero]
      exact iff_of_true (lspOffset_zero _) (legible_zero _)
    | succ p =>
      have hp : p ≤ t.length := by simpa using hp
      rw [utf16Position_break h hb hp, lspOffset_next h, Nat.add_left_inj, legible_cons h]
      cases hc : isEol c with
      | true =>
        have hplain : isForeign c = false := by simp [isForeign, hc]
        rw [if_pos rfl, ih hp, hplain]
        exact ⟨fun hl => .inr ⟨rfl, hl⟩, fun hl => hl.elim .inl And.right⟩
      | false =>
        -- the line is counted by the editor only
        rw [if_neg Bool.false_ne_true]
        dsimp only
        have hlater : (utf16Position t p).1 < (utf16Position t p).1 + 1 := Nat.lt_succ_self _
        have hmore := lspOffset_behind hp hlater (utf16Position t p).2
        have hmost := lspOffset_le t ((utf16Position t p).1 + 1) (utf16Position t p).2
        have hforeign : isForeign c = true := by simp [isForeign, hb, hc]
        rw [hforeign]
        constructor
        · intro hback
          exact .inl (by omega)
        · rintro (hend | ⟨hf, -⟩)
          · omega
          · exact absurd hf (by decide)
  | case4 c t h hb ih =>
    have hb : isLineBreak c = false := by simpa using hb
    cases p with
    | zero =>
      rw [utf16Position_zero]
      exact iff_of_true (lspOffset_zero _) (legible_zero _)
    | succ p =>
      have hp : p ≤ t.length := by simpa using hp
      have hplain : isForeign c = false := by rw [isForeign, hb, Bool.false_and]
      have heol : isEol c = false := isEol_of_plain hb
      have hstep : lspOffset (c :: t) (utf16Position (c :: t) (p + 1)).1
          (utf16Position (c :: t) (p + 1)).2 =
            lspOffset t (utf16Position t p).1 (utf16Position t p).2 + 1 := by
        rw [utf16Position_plain hb hp]
        dsimp only
        cases (utf16Position t p).1 with
        | zero => rw [if_pos rfl, lspOffset_along heol]
        | succ k => rw [if_neg (Nat.succ_ne_zero k), lspOffset_next h, heol, if_neg Bool.false_ne_true]
      rw [hstep, Nat.add_left_inj, ih hp, legible_cons h, hplain]
      exact ⟨fun hl => .inr ⟨rfl, hl⟩, fun hl => hl.elim .inl And.right⟩

end Legibility

/-! ## Changes -/

/-- Replace the text between two protocol positions, as the protocol reads them. -/
def lspSplice (t : Text) (start stop : ℕ × ℕ) (new : Text) : Text :=
  t.take (lspOffset t start.1 start.2) ++ new ++ t.drop (lspOffset t stop.1 stop.2)

/-- **Between legible offsets the protocol and the editor read the same change.** -/
theorem lspSplice_eq {t : Text} {p q : ℕ} (hp : p ≤ t.length) (hq : q ≤ t.length)
    (hlp : Legible t p) (hlq : Legible t q) (new : Text) :
    lspSplice t (utf16Position t p) (utf16Position t q) new =
      splice t (utf16Position t p) (utf16Position t q) new := by
  rw [lspSplice, splice, (lspOffset_utf16Position hp).mpr hlp, (lspOffset_utf16Position hq).mpr hlq,
    offsetFromUtf16_utf16Position t hp, offsetFromUtf16_utf16Position t hq]

end Termesh
