import Mathlib.Data.List.Basic
import Mathlib.Data.List.DropRight
import Mathlib.Data.List.Infix
import Termesh.Core.Trim

/-!
# Searching in texts

* `trimStart`, `trimText`, `splitFirst`, `splitLast`: `trim_start`, `trim`, and a text cut at the
  first or the last occurrence of a pattern;
* `Trimmed`, `trimmed_iff`: no white space at either end.
-/

namespace Termesh

/-- `str::trim_start`. -/
def trimStart (t : List Char) : List Char := t.dropWhile isWhitespace

/-- `str::trim`. -/
def trimText (t : List Char) : List Char := (trimStart t).rdropWhile isWhitespace

/-- The text in front of the first occurrence of a pattern, and the text behind it. -/
@[simp] def splitFirst (pattern : List Char) : List Char → Option (List Char × List Char)
  | [] => none
  | c :: t =>
    match (c :: t).dropPrefix? pattern with
    | some behind => some ([], behind)
    | none => (splitFirst pattern t).map fun p => (c :: p.1, p.2)

/-- The text in front of the last occurrence of a pattern, and the text behind it. -/
@[simp] def splitLast (pattern : List Char) : List Char → Option (List Char × List Char)
  | [] => none
  | c :: t =>
    match splitLast pattern t with
    | some p => some (c :: p.1, p.2)
    | none => ((c :: t).dropPrefix? pattern).map fun behind => ([], behind)

/-! ## Prefixes -/

theorem dropPrefix?_append (pattern t : List Char) : (pattern ++ t).dropPrefix? pattern = some t :=
  List.dropPrefix?_append_of_beq t (beq_self_eq_true pattern)

theorem dropPrefix?_some {pattern t behind : List Char} (h : t.dropPrefix? pattern = some behind) :
    t = pattern ++ behind := by
  obtain ⟨pattern', rfl, heq⟩ := List.dropPrefix?_eq_some_iff.mp h
  rw [eq_of_beq heq]

theorem dropPrefix?_none {pattern t : List Char} (h : ¬pattern <+: t) :
    t.dropPrefix? pattern = none := by
  cases hdrop : t.dropPrefix? pattern with
  | none => rfl
  | some behind => exact absurd ⟨behind, (dropPrefix?_some hdrop).symm⟩ h

theorem dropPrefix?_char (c d : Char) (t : List Char) :
    (d :: t).dropPrefix? [c] = if d = c then some t else none := by
  simp [List.dropPrefix?]

/-! ## The first occurrence -/

theorem splitFirst_append {pattern t front behind : List Char}
    (h : splitFirst pattern t = some (front, behind)) : t = front ++ (pattern ++ behind) := by
  induction t generalizing front with
  | nil => cases h
  | cons c t ih =>
    rw [splitFirst] at h
    cases hdrop : (c :: t).dropPrefix? pattern with
    | some rest =>
      rw [hdrop] at h
      obtain ⟨rfl, rfl⟩ := Prod.mk.inj (Option.some.inj h)
      rw [List.nil_append, ← dropPrefix?_some hdrop]
    | none =>
      rw [hdrop] at h
      obtain ⟨p, hp, heq⟩ := Option.map_eq_some_iff.mp h
      obtain ⟨rfl, rfl⟩ := Prod.mk.inj heq
      rw [List.cons_append, ← ih hp]

/-- One character is found where it first stands. -/
theorem splitFirst_char {c : Char} {front : List Char} (h : c ∉ front) (behind : List Char) :
    splitFirst [c] (front ++ c :: behind) = some (front, behind) := by
  induction front with
  | nil => rw [List.nil_append, splitFirst, dropPrefix?_char, if_pos rfl]
  | cons d front ih =>
    simp only [List.mem_cons, not_or] at h
    rw [List.cons_append, splitFirst, dropPrefix?_char, if_neg (Ne.symm h.1), ih h.2]
    rfl

theorem splitFirst_char_notMem {c : Char} {t front behind : List Char}
    (h : splitFirst [c] t = some (front, behind)) : t = front ++ c :: behind ∧ c ∉ front := by
  refine ⟨splitFirst_append h, ?_⟩
  induction t generalizing front with
  | nil => cases h
  | cons d t ih =>
    rw [splitFirst, dropPrefix?_char] at h
    by_cases hd : d = c
    · rw [if_pos hd] at h
      rw [← (Prod.mk.inj (Option.some.inj h)).1]
      simp
    · rw [if_neg hd] at h
      obtain ⟨p, hp, heq⟩ := Option.map_eq_some_iff.mp h
      obtain ⟨rfl, rfl⟩ := Prod.mk.inj heq
      simp [Ne.symm hd, ih hp]

/-! ## The last occurrence -/

theorem splitLast_append {pattern t front behind : List Char}
    (h : splitLast pattern t = some (front, behind)) : t = front ++ (pattern ++ behind) := by
  induction t generalizing front with
  | nil => cases h
  | cons c t ih =>
    rw [splitLast] at h
    cases hlast : splitLast pattern t with
    | some p =>
      rw [hlast] at h
      obtain ⟨rfl, rfl⟩ := Prod.mk.inj (Option.some.inj h)
      rw [List.cons_append, ← ih hlast]
    | none =>
      rw [hlast] at h
      obtain ⟨rest, hdrop, heq⟩ := Option.map_eq_some_iff.mp h
      obtain ⟨rfl, rfl⟩ := Prod.mk.inj heq
      rw [List.nil_append, ← dropPrefix?_some hdrop]

theorem splitLast_eq_none {pattern t : List Char} (hpattern : pattern ≠ []) :
    splitLast pattern t = none ↔ ¬pattern <:+: t := by
  induction t with
  | nil => simpa [splitLast] using hpattern
  | cons c t ih =>
    rw [List.infix_cons_iff, not_or, ← ih, splitLast]
    cases hlast : splitLast pattern t with
    | some p => simp
    | none =>
      rw [and_iff_left rfl]
      constructor
      · intro h hprefix
        obtain ⟨behind, hbehind⟩ := hprefix
        rw [← hbehind, dropPrefix?_append] at h
        cases h
      · intro h
        rw [dropPrefix?_none h]
        rfl

theorem splitLast_append_left {pattern t front behind : List Char}
    (h : splitLast pattern t = some (front, behind)) (s : List Char) :
    splitLast pattern (s ++ t) = some (s ++ front, behind) := by
  induction s with
  | nil => exact h
  | cons c s ih => rw [List.cons_append, splitLast, ih]; rfl

/-- An occurrence is the last one when none begins inside it or behind it. -/
theorem splitLast_here {c : Char} {pattern behind : List Char}
    (h : splitLast (c :: pattern) (pattern ++ behind) = none) (front : List Char) :
    splitLast (c :: pattern) (front ++ (c :: pattern ++ behind)) = some (front, behind) := by
  have hhere : splitLast (c :: pattern) (c :: pattern ++ behind) = some ([], behind) := by
    rw [List.cons_append, splitLast, h, ← List.cons_append, dropPrefix?_append]
    rfl
  simpa using splitLast_append_left hhere front

/-- One character is found where it last stands. -/
theorem splitLast_char {c : Char} {behind : List Char} (h : c ∉ behind) (front : List Char) :
    splitLast [c] (front ++ c :: behind) = some (front, behind) := by
  refine splitLast_here ((splitLast_eq_none (by simp)).mpr fun hinside => h ?_) front
  exact hinside.subset List.mem_cons_self

/-! ## White space -/

/-- A text with no white space at either end. -/
def Trimmed (t : List Char) : Prop := trimText t = t

theorem length_trimText_le (t : List Char) : (trimText t).length ≤ t.length :=
  ((List.rdropWhile_prefix _ _).length_le).trans (List.length_dropWhile_le _ _)

theorem trimText_space (t : List Char) : trimText (' ' :: t) = trimText t := by
  rw [trimText, trimStart, List.dropWhile_cons_of_pos (by decide)]
  rfl

/-- A text that begins and ends with something else is trimmed. -/
theorem trimmed_iff {t : List Char} (h : t ≠ []) :
    Trimmed t ↔ isWhitespace (t.head h) = false ∧ isWhitespace (t.getLast h) = false := by
  constructor
  · intro ht
    have hstart : trimStart t = t := by
      refine (List.dropWhile_sublist _).eq_of_length_le ?_
      calc t.length = (trimText t).length := by rw [ht]
        _ ≤ (trimStart t).length := (List.rdropWhile_prefix _ _).length_le
    rw [Trimmed, trimText, hstart] at ht
    refine ⟨?_, by simpa using List.rdropWhile_eq_self_iff.mp ht h⟩
    cases t with
    | nil => exact absurd rfl h
    | cons c t =>
      cases hc : isWhitespace c with
      | false => exact hc
      | true =>
        rw [trimStart, List.dropWhile_cons_of_pos hc] at hstart
        have hlen := congrArg List.length hstart
        have hle := List.length_dropWhile_le isWhitespace t
        rw [List.length_cons] at hlen
        omega
  · rintro ⟨hhead, hlast⟩
    have hstart : trimStart t = t := by
      cases t with
      | nil => rfl
      | cons c t => exact List.dropWhile_cons_of_neg (by simpa using hhead)
    rw [Trimmed, trimText, hstart, List.rdropWhile_eq_self_iff]
    intro _
    simpa using hlast

theorem isWhitespace_of_trimText {t : List Char} (h : trimText t = []) {c : Char} (hc : c ∈ t) :
    isWhitespace c = true := by
  rw [trimText, List.rdropWhile_eq_nil_iff] at h
  rw [← List.takeWhile_append_dropWhile (p := isWhitespace) (l := t)] at hc
  rcases List.mem_append.mp hc with hc | hc
  · exact List.mem_takeWhile_imp hc
  · exact h c hc

end Termesh
