import Mathlib.Algebra.GroupWithZero.Nat
import Mathlib.Data.List.Infix

/-!
# Lossy decoding

A stream of words of a code, where what is no word is replaced piece by piece.

* `PrefixCode`, `Begins`, `Incomplete`: words, and what may still become one;
* `MaximalSubpart`, `Lossy`: the decoding, with one replacement for each maximal ill-formed piece;
  **`Lossy.unique`**;
* `SoFar`: what is decoded and what is pending, whatever follows; **`SoFar.finish`**;
* `IsTail`: the longest end within a limit; **`IsTail.append`**: it can be taken as one goes along.
-/

namespace Decoding

variable {α β : Type*} {enc : α → List β} {bad : α} {l m s : List β}

/-! ## Words and pieces -/

/-- No word is empty, and none is the beginning of another. -/
structure PrefixCode (enc : α → List β) : Prop where
  nonempty : ∀ a, enc a ≠ []
  free : ∀ a b, enc a <+: enc b → a = b

/-- The beginning of a word. -/
def Begins (enc : α → List β) (s : List β) : Prop := ∃ a, s <+: enc a

/-- The beginning of a word that is not yet one. -/
structure Incomplete (enc : α → List β) (s : List β) : Prop where
  begins : Begins enc s
  ill : ∀ a, ¬ enc a <+: s

/-- The maximal subpart of an ill-formed stream: the longest beginning of a word it starts with, or
a single code unit. -/
structure MaximalSubpart (enc : α → List β) (l s : List β) : Prop where
  front : s <+: l
  nonempty : s ≠ []
  ill : ∀ a, ¬ enc a <+: l
  subpart : Begins enc s ∨ s.length = 1
  maximal : ∀ s', s' <+: l → Begins enc s' → s'.length ≤ s.length

/-- Decoding word by word, with one replacement for each maximal subpart. -/
inductive Lossy (enc : α → List β) (bad : α) : List β → List α → Prop
  | nil : Lossy enc bad [] []
  | word (a : α) {rest : List β} {t : List α} (h : Lossy enc bad rest t) :
    Lossy enc bad (enc a ++ rest) (a :: t)
  | replaced {s rest : List β} {t : List α} (hs : MaximalSubpart enc (s ++ rest) s)
    (h : Lossy enc bad rest t) : Lossy enc bad (s ++ rest) (bad :: t)

theorem Begins.of_prefix (h : Begins enc m) (hs : s <+: m) : Begins enc s := by
  obtain ⟨a, ha⟩ := h
  exact ⟨a, hs.trans ha⟩

theorem MaximalSubpart.unique {s' : List β} (h : MaximalSubpart enc l s)
    (h' : MaximalSubpart enc l s') : s = s' := by
  have hle : ∀ {s s' : List β}, MaximalSubpart enc l s → MaximalSubpart enc l s' →
      s.length ≤ s'.length := by
    intro s s' h h'
    rcases h.subpart with hb | hone
    · exact h'.maximal s h.front hb
    · have hpos := List.length_pos_iff.mpr h'.nonempty
      omega
  exact List.prefix_of_prefix_length_le h.front h'.front (hle h h') |>.eq_of_length
    (Nat.le_antisymm (hle h h') (hle h' h))

theorem Lossy.inv {t : List α} (h : Lossy enc bad l t) : l = [] ∧ t = [] ∨
    (∃ a rest u, l = enc a ++ rest ∧ t = a :: u ∧ Lossy enc bad rest u) ∨
    ∃ s rest u, l = s ++ rest ∧ t = bad :: u ∧ MaximalSubpart enc l s ∧ Lossy enc bad rest u := by
  cases h with
  | nil => exact .inl ⟨rfl, rfl⟩
  | word a h => exact .inr (.inl ⟨a, _, _, rfl, rfl, h⟩)
  | replaced hs h => exact .inr (.inr ⟨_, _, _, rfl, rfl, hs, h⟩)

/-- **A stream is decoded in one way.** -/
theorem Lossy.unique (hc : PrefixCode enc) {t t' : List α} (h : Lossy enc bad l t)
    (h' : Lossy enc bad l t') : t = t' := by
  induction h generalizing t' with
  | nil =>
    rcases h'.inv with ⟨-, rfl⟩ | ⟨a, rest, u, heq, -⟩ | ⟨s, rest, u, heq, -, hs, -⟩
    · rfl
    · exact absurd (List.append_eq_nil_iff.mp heq.symm).1 (hc.nonempty a)
    · exact absurd (List.append_eq_nil_iff.mp heq.symm).1 hs.nonempty
  | word a h ih =>
    rename_i rest t
    rcases h'.inv with ⟨heq, -⟩ | ⟨b, rest', u, heq, rfl, hu⟩ | ⟨s, rest', u, -, -, hs, -⟩
    · exact absurd (List.append_eq_nil_iff.mp heq).1 (hc.nonempty a)
    · have hsame : a = b := by
        have hb : enc b <+: enc a ++ rest := ⟨rest', heq.symm⟩
        rcases List.prefix_or_prefix_of_prefix (List.prefix_append (enc a) rest) hb with hab | hba
        · exact hc.free a b hab
        · exact (hc.free b a hba).symm
      rw [← hsame] at heq
      rw [← hsame, ih (List.append_cancel_left heq ▸ hu)]
    · exact absurd (List.prefix_append (enc a) rest) (hs.ill a)
  | replaced hs h ih =>
    rename_i s rest t
    rcases h'.inv with ⟨heq, -⟩ | ⟨b, rest', u, heq, -⟩ | ⟨s', rest', u, heq, rfl, hs', hu⟩
    · exact absurd (List.append_eq_nil_iff.mp heq).1 hs.nonempty
    · exact absurd ⟨rest', heq.symm⟩ (hs.ill b)
    · rw [← hs.unique hs'] at heq
      rw [ih (List.append_cancel_left heq ▸ hu)]

/-! ## Pieces that are cut off -/

/-- What can no more become a word stays ill-formed whatever follows. -/
theorem MaximalSubpart.append (h : MaximalSubpart enc l s) (hl : ¬ Begins enc l) (m : List β) :
    MaximalSubpart enc (l ++ m) s := by
  refine ⟨h.front.trans (List.prefix_append l m), h.nonempty, fun a ha => ?_, h.subpart,
    fun s' hs' hb => ?_⟩
  · rcases List.prefix_or_prefix_of_prefix ha (List.prefix_append l m) with hin | hout
    · exact h.ill a hin
    · exact hl ⟨a, hout⟩
  · rcases List.prefix_or_prefix_of_prefix hs' (List.prefix_append l m) with hin | hout
    · exact h.maximal s' hin hb
    · exact absurd (hb.of_prefix hout) hl

theorem Incomplete.maximalSubpart (h : Incomplete enc l) (hne : l ≠ []) : MaximalSubpart enc l l :=
  ⟨List.prefix_rfl, hne, h.ill, .inl h.begins, fun _ hs' _ => hs'.length_le⟩

/-- **A word that breaks off**: its beginning is the maximal subpart, and nothing completes it. -/
theorem Incomplete.invalid {n : ℕ} (h : Incomplete enc (l.take n)) (hn : 0 < n)
    (hlen : n ≤ l.length) (hstop : ¬ Begins enc (l.take (n + 1))) :
    MaximalSubpart enc l (l.take n) ∧ ¬ Begins enc l := by
  have hlong : ∀ s', s' <+: l → Begins enc s' → s'.length ≤ n := by
    intro s' hs' hb
    by_contra hmore
    refine hstop (hb.of_prefix ?_)
    rw [List.prefix_iff_eq_take.mp hs']
    exact List.take_prefix_take_left (by omega)
  refine ⟨⟨List.take_prefix n l, ?_, fun a ha => ?_, .inl h.begins, fun s' hs' hb => ?_⟩,
    fun hb => hstop (hb.of_prefix (List.take_prefix _ l))⟩
  · rw [← List.length_pos_iff, List.length_take]
    omega
  · refine h.ill a ?_
    rw [List.prefix_iff_eq_take.mp ha]
    exact List.take_prefix_take_left (hlong _ ha ⟨a, List.prefix_rfl⟩)
  · rw [List.length_take, Nat.min_eq_left hlen]
    exact hlong s' hs' hb

/-- A code unit that starts no word. -/
theorem invalid_single (hc : PrefixCode enc) {b : β} (h : ¬ Begins enc [b]) (m : List β) :
    MaximalSubpart enc (b :: m) [b] ∧ ¬ Begins enc (b :: m) := by
  have hfront : ∀ s', s' <+: b :: m → Begins enc s' → s' = [] := by
    intro s' hs' hb
    cases s' with
    | nil => rfl
    | cons x s' =>
      obtain rfl : x = b := (List.cons_prefix_cons.mp hs').1
      exact absurd (hb.of_prefix ⟨s', rfl⟩) h
  refine ⟨⟨⟨m, rfl⟩, List.cons_ne_nil _ _, fun a ha => ?_, .inr rfl, fun s' hs' hb => ?_⟩,
    fun hb => h (hb.of_prefix ⟨m, rfl⟩)⟩
  · exact hc.nonempty a (hfront _ ha ⟨a, List.prefix_rfl⟩)
  · rw [hfront s' hs' hb]
    exact Nat.zero_le _

/-! ## Decoding as one goes along -/

/-- What was read is decoded as this text, but for the pending end, whatever follows. -/
def SoFar (enc : α → List β) (bad : α) (read pending : List β) (t : List α) : Prop :=
  ∀ rest u, Lossy enc bad (pending ++ rest) u → Lossy enc bad (read ++ rest) (t ++ u)

namespace SoFar

variable {read pending pending' : List β} {t u : List α}

theorem refl (l : List β) : SoFar enc bad l l [] := fun _ _ h => h

theorem trans (h : SoFar enc bad read pending t) (h' : SoFar enc bad pending pending' u) :
    SoFar enc bad read pending' (t ++ u) := by
  intro rest v hv
  rw [List.append_assoc]
  exact h rest _ (h' rest v hv)

theorem feed (h : SoFar enc bad read pending t) (chunk : List β) :
    SoFar enc bad (read ++ chunk) (pending ++ chunk) t := by
  intro rest v hv
  rw [List.append_assoc] at hv ⊢
  exact h (chunk ++ rest) v hv

theorem words (ws : List α) (l : List β) : SoFar enc bad (ws.flatMap enc ++ l) l ws := by
  intro rest v hv
  induction ws with
  | nil => exact hv
  | cons a ws ih =>
    rw [List.flatMap_cons, List.append_assoc, List.append_assoc]
    rw [List.append_assoc] at ih
    exact .word a ih

theorem invalid {n : ℕ} (h : MaximalSubpart enc l (l.take n)) (hl : ¬ Begins enc l) :
    SoFar enc bad l (l.drop n) [bad] := by
  intro rest v hv
  have hsub := h.append hl rest
  have hall : l ++ rest = l.take n ++ (l.drop n ++ rest) := by
    rw [← List.append_assoc, List.take_append_drop]
  rw [hall] at hsub ⊢
  exact .replaced hsub hv

/-- **The end of the stream**: what is pending is a word cut short, or nothing. -/
theorem finish (h : SoFar enc bad read pending t) (hp : Incomplete enc pending) :
    Lossy enc bad read (if pending = [] then t else t ++ [bad]) := by
  have hend := h []
  rw [List.append_nil, List.append_nil] at hend
  split_ifs with hnil
  · have hempty := hend [] (by rw [hnil]; exact .nil)
    rwa [List.append_nil] at hempty
  · have hsub := hp.maximalSubpart hnil
    have hlast : Lossy enc bad (pending ++ []) [bad] :=
      .replaced (by rwa [List.append_nil]) .nil
    rw [List.append_nil] at hlast
    exact hend [bad] hlast

end SoFar

/-! ## The longest end within a limit -/

section Tail

variable (w : α → ℕ)

/-- The size of a text. -/
def size (t : List α) : ℕ := (t.map w).sum

@[simp] theorem size_nil : size w [] = 0 := rfl

@[simp] theorem size_cons (a : α) (t : List α) : size w (a :: t) = w a + size w t := rfl

theorem size_append (s t : List α) : size w (s ++ t) = size w s + size w t := by
  rw [size, List.map_append, List.sum_append]
  rfl

/-- The longest end of a text within a limit. -/
structure IsTail (limit : ℕ) (t s : List α) : Prop where
  suffix : s <:+ t
  fits : size w s ≤ limit
  longest : ∀ s', s' <:+ t → size w s' ≤ limit → s' <:+ s

variable {w} {limit : ℕ} {t t' u u' : List α}

theorem IsTail.self (h : size w t ≤ limit) : IsTail w limit t t :=
  ⟨List.suffix_rfl, h, fun _ hs' _ => hs'⟩

theorem IsTail.cons {a : α} (h : IsTail w limit t u) (hbig : limit < size w (a :: t)) :
    IsTail w limit (a :: t) u := by
  refine ⟨h.suffix.trans (List.suffix_cons a t), h.fits, fun s' hs' hfits => ?_⟩
  rcases List.suffix_cons_iff.mp hs' with rfl | hs'
  · exact absurd hbig (Nat.not_lt.mpr hfits)
  · exact h.longest s' hs' hfits

/-- **The end of an end**: what was cut off in front is not missed later. -/
theorem IsTail.append (h : IsTail w limit t t') (h' : IsTail w limit (t' ++ u) u') :
    IsTail w limit (t ++ u) u' := by
  obtain ⟨front, hfront⟩ := h.suffix
  have hsuffix : t' ++ u <:+ t ++ u := ⟨front, by rw [← List.append_assoc, hfront]⟩
  refine ⟨h'.suffix.trans hsuffix, h'.fits, fun s' hs' hfits => h'.longest s' ?_ hfits⟩
  rcases List.suffix_or_suffix_of_suffix hs' (List.suffix_append t u) with hin | ⟨v, hv⟩
  · exact hin.trans (List.suffix_append t' u)
  · -- the part of it in front of `u` is an end of `t`
    rw [← hv] at hs' hfits ⊢
    have hvt : v <:+ t := by
      obtain ⟨front', hfront'⟩ := hs'
      have happ : front' ++ v ++ u = t ++ u := by rwa [List.append_assoc]
      exact ⟨front', List.append_cancel_right happ⟩
    rw [size_append] at hfits
    obtain ⟨front', hfront'⟩ := h.longest v hvt (by omega)
    exact ⟨front', by rw [← List.append_assoc, hfront']⟩

/-- Something is missing from an end of an end exactly when something is missing from one of them. -/
theorem IsTail.ne_iff (h : IsTail w limit t t') (h' : IsTail w limit (t' ++ u) u') :
    u' ≠ t ++ u ↔ t' ≠ t ∨ u' ≠ t' ++ u := by
  have hlen := h.suffix.length_le
  have hlen' := h'.suffix.length_le
  constructor
  · intro hne
    by_cases heq : t' = t
    · rw [heq]
      exact .inr hne
    · exact .inl heq
  · rintro hor rfl
    rw [List.length_append, List.length_append] at hlen'
    have hsame : t' = t := h.suffix.eq_of_length (by omega)
    rw [hsame] at hor
    rcases hor with hne | hne <;> exact hne rfl

end Tail

end Decoding
