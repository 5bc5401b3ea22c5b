import Termesh.Lib.Decoding
import Termesh.Lib.Utf8

/-!
# Well-formed UTF-8

The byte sequences that encode a character, by their ranges, and the beginnings of them.

* `Cont`, `Second3`, `Second4`: the ranges of the bytes behind the first;
* `encode1` … `encode4`, **`shape_encode`**: the sequences in these ranges are the encodings;
* `leading`, **`leading_fits`**: what a stream starts with;
* `fromUtf8`, **`fromUtf8_utf8`**, **`fromUtf8_error`**: `std::str::from_utf8`.
-/

namespace Utf8

open Decoding

/-! ## The ranges -/

/-- A continuation byte. -/
def Cont (x : UInt8) : Prop := 0x80 ≤ x.toNat ∧ x.toNat ≤ 0xbf

/-- The first byte of two. -/
def Lead2 (b : UInt8) : Prop := 0xc2 ≤ b.toNat ∧ b.toNat ≤ 0xdf

/-- The first byte of three. -/
def Lead3 (b : UInt8) : Prop := 0xe0 ≤ b.toNat ∧ b.toNat ≤ 0xef

/-- The first byte of four. -/
def Lead4 (b : UInt8) : Prop := 0xf0 ≤ b.toNat ∧ b.toNat ≤ 0xf4

/-- The second byte of three. -/
def Second3 (b x : UInt8) : Prop :=
  b.toNat = 0xe0 ∧ 0xa0 ≤ x.toNat ∧ x.toNat ≤ 0xbf ∨
    0xe1 ≤ b.toNat ∧ b.toNat ≤ 0xec ∧ Cont x ∨
    b.toNat = 0xed ∧ 0x80 ≤ x.toNat ∧ x.toNat ≤ 0x9f ∨
    0xee ≤ b.toNat ∧ b.toNat ≤ 0xef ∧ Cont x

/-- The second byte of four. -/
def Second4 (b x : UInt8) : Prop :=
  b.toNat = 0xf0 ∧ 0x90 ≤ x.toNat ∧ x.toNat ≤ 0xbf ∨
    0xf1 ≤ b.toNat ∧ b.toNat ≤ 0xf3 ∧ Cont x ∨
    b.toNat = 0xf4 ∧ 0x80 ≤ x.toNat ∧ x.toNat ≤ 0x8f

instance (x : UInt8) : Decidable (Cont x) := inferInstanceAs (Decidable (_ ∧ _))
instance (b : UInt8) : Decidable (Lead2 b) := inferInstanceAs (Decidable (_ ∧ _))
instance (b : UInt8) : Decidable (Lead3 b) := inferInstanceAs (Decidable (_ ∧ _))
instance (b : UInt8) : Decidable (Lead4 b) := inferInstanceAs (Decidable (_ ∧ _))
instance (b x : UInt8) : Decidable (Second3 b x) := inferInstanceAs (Decidable (_ ∨ _))
instance (b x : UInt8) : Decidable (Second4 b x) := inferInstanceAs (Decidable (_ ∨ _))

theorem Second3.lead {b x : UInt8} (h : Second3 b x) : Lead3 b := by
  unfold Second3 Cont at h
  unfold Lead3
  omega

theorem Second3.cont {b x : UInt8} (h : Second3 b x) : Cont x := by
  unfold Second3 Cont at h
  unfold Cont
  omega

theorem Second4.lead {b x : UInt8} (h : Second4 b x) : Lead4 b := by
  unfold Second4 Cont at h
  unfold Lead4
  omega

theorem Second4.cont {b x : UInt8} (h : Second4 b x) : Cont x := by
  unfold Second4 Cont at h
  unfold Cont
  omega

/-! ## The encodings -/

theorem toNat_ofNat {v : ℕ} (h : v.isValidChar) : (Char.ofNat v).val.toNat = v := by
  rw [Char.ofNat, dif_pos h]
  show (UInt32.ofNatLT v _).toNat = v
  rw [UInt32.toNat_ofNatLT]

theorem byte_eq {n : ℕ} {b : UInt8} (h : n = b.toNat) : UInt8.ofNat n = b := by
  rw [h, UInt8.ofNat_toNat]

theorem encode1 {b : UInt8} (h : b.toNat < 0x80) :
    String.utf8EncodeChar (Char.ofNat b.toNat) = [b] := by
  have hv : b.toNat.isValidChar := .inl (by omega)
  rw [String.utf8EncodeChar]
  simp only [toNat_ofNat hv]
  rw [if_pos (by omega), byte_eq rfl]

theorem encode2 {b x : UInt8} (hb : Lead2 b) (hx : Cont x) :
    String.utf8EncodeChar (Char.ofNat ((b.toNat - 0xc0) * 64 + (x.toNat - 0x80))) = [b, x] := by
  unfold Lead2 at hb
  unfold Cont at hx
  have hv : ((b.toNat - 0xc0) * 64 + (x.toNat - 0x80)).isValidChar := .inl (by omega)
  rw [String.utf8EncodeChar]
  simp only [toNat_ofNat hv]
  rw [if_neg (by omega), if_pos (by omega), byte_eq (b := b) (by omega),
    byte_eq (b := x) (by omega)]

theorem encode3 {b x y : UInt8} (hx : Second3 b x) (hy : Cont y) :
    String.utf8EncodeChar (Char.ofNat
      ((b.toNat - 0xe0) * 4096 + (x.toNat - 0x80) * 64 + (y.toNat - 0x80))) = [b, x, y] := by
  unfold Second3 Cont at hx
  unfold Cont at hy
  have hv : ((b.toNat - 0xe0) * 4096 + (x.toNat - 0x80) * 64 + (y.toNat - 0x80)).isValidChar := by
    unfold Nat.isValidChar
    omega
  rw [String.utf8EncodeChar]
  simp only [toNat_ofNat hv]
  rw [if_neg (by omega), if_neg (by omega), if_pos (by omega), byte_eq (b := b) (by omega),
    byte_eq (b := x) (by omega), byte_eq (b := y) (by omega)]

theorem encode4 {b x y z : UInt8} (hx : Second4 b x) (hy : Cont y) (hz : Cont z) :
    String.utf8EncodeChar (Char.ofNat ((b.toNat - 0xf0) * 262144 + (x.toNat - 0x80) * 4096 +
      (y.toNat - 0x80) * 64 + (z.toNat - 0x80))) = [b, x, y, z] := by
  unfold Second4 Cont at hx
  unfold Cont at hy hz
  have hv : ((b.toNat - 0xf0) * 262144 + (x.toNat - 0x80) * 4096 + (y.toNat - 0x80) * 64 +
      (z.toNat - 0x80)).isValidChar := by
    unfold Nat.isValidChar
    omega
  rw [String.utf8EncodeChar]
  simp only [toNat_ofNat hv]
  rw [if_neg (by omega), if_neg (by omega), if_neg (by omega), byte_eq (b := b) (by omega),
    byte_eq (b := x) (by omega), byte_eq (b := y) (by omega), byte_eq (b := z) (by omega)]

/-- The shapes of well-formed byte sequences. -/
inductive Shape : List UInt8 → Prop
  | one {b : UInt8} (hb : b.toNat < 0x80) : Shape [b]
  | two {b x : UInt8} (hb : Lead2 b) (hx : Cont x) : Shape [b, x]
  | three {b x y : UInt8} (hx : Second3 b x) (hy : Cont y) : Shape [b, x, y]
  | four {b x y z : UInt8} (hx : Second4 b x) (hy : Cont y) (hz : Cont z) : Shape [b, x, y, z]

/-- **An encoding is well formed.** -/
theorem shape_encode (c : Char) : Shape (String.utf8EncodeChar c) := by
  have hvalid : c.val.toNat.isValidChar := c.valid
  unfold Nat.isValidChar at hvalid
  rw [String.utf8EncodeChar]
  split_ifs with h1 h2 h3
  · refine .one ?_
    rw [UInt8.toNat_ofNat']
    omega
  · refine .two ?_ ?_
    · unfold Lead2
      rw [UInt8.toNat_ofNat']
      omega
    · unfold Cont
      rw [UInt8.toNat_ofNat']
      omega
  · refine .three ?_ ?_
    · unfold Second3 Cont
      rw [UInt8.toNat_ofNat', UInt8.toNat_ofNat']
      omega
    · unfold Cont
      rw [UInt8.toNat_ofNat']
      omega
  · refine .four ?_ ?_ ?_
    · unfold Second4 Cont
      rw [UInt8.toNat_ofNat', UInt8.toNat_ofNat']
      omega
    all_goals
      unfold Cont
      rw [UInt8.toNat_ofNat']
      omega

/-- No encoding is the beginning of another. -/
theorem prefixCode : PrefixCode String.utf8EncodeChar := by
  refine ⟨fun c => String.utf8EncodeChar_ne_nil, fun c d h => ?_⟩
  obtain ⟨rest, hrest⟩ := h
  have hd := ByteArray.utf8DecodeChar?_utf8EncodeChar_append (b := ByteArray.empty) (c := d)
  have hc := ByteArray.utf8DecodeChar?_utf8EncodeChar_append (b := rest.toByteArray) (c := c)
  rw [← List.toByteArray_append, hrest] at hc
  rw [ByteArray.append_empty] at hd
  exact Option.some.inj (hc.symm.trans hd)

/-- **A well-formed sequence encodes a character.** -/
theorem exists_encode {s : List UInt8} (h : Shape s) : ∃ c, String.utf8EncodeChar c = s := by
  cases h with
  | one hb => exact ⟨_, encode1 hb⟩
  | two hb hx => exact ⟨_, encode2 hb hx⟩
  | three hx hy => exact ⟨_, encode3 hx hy⟩
  | four hx hy hz => exact ⟨_, encode4 hx hy hz⟩

theorem begins_iff {l : List UInt8} :
    Begins String.utf8EncodeChar l ↔ ∃ s, Shape s ∧ l <+: s := by
  constructor
  · rintro ⟨c, hc⟩
    exact ⟨_, shape_encode c, hc⟩
  · rintro ⟨s, hs, hl⟩
    obtain ⟨c, rfl⟩ := exists_encode hs
    exact ⟨c, hl⟩

theorem incomplete_iff {l : List UInt8} :
    Incomplete String.utf8EncodeChar l ↔
      (∃ s, Shape s ∧ l <+: s) ∧ ∀ s, Shape s → ¬ s <+: l := by
  rw [← begins_iff]
  constructor
  · rintro ⟨hb, hill⟩
    refine ⟨hb, fun s hs => ?_⟩
    obtain ⟨c, rfl⟩ := exists_encode hs
    exact hill c
  · rintro ⟨hb, hill⟩
    exact ⟨hb, fun c => hill _ (shape_encode c)⟩

/-! ## Beginnings -/

section Beginnings

variable {b x y z : UInt8}

theorem begins_one (h : Begins String.utf8EncodeChar [b]) :
    b.toNat < 0x80 ∨ Lead2 b ∨ Lead3 b ∨ Lead4 b := by
  obtain ⟨s, hs, hl⟩ := begins_iff.mp h
  cases hs with
  | one hb => simp_all
  | two hb hx => simp_all
  | three hx hy =>
    have := hx.lead
    simp_all
  | four hx hy hz =>
    have := hx.lead
    simp_all

theorem begins_two (h : Begins String.utf8EncodeChar [b, x]) :
    Lead2 b ∧ Cont x ∨ Second3 b x ∨ Second4 b x := by
  obtain ⟨s, hs, hl⟩ := begins_iff.mp h
  cases hs <;> simp_all

theorem begins_three (h : Begins String.utf8EncodeChar [b, x, y]) :
    (Second3 b x ∨ Second4 b x) ∧ Cont y := by
  obtain ⟨s, hs, hl⟩ := begins_iff.mp h
  cases hs <;> simp_all

theorem begins_four (h : Begins String.utf8EncodeChar [b, x, y, z]) :
    Second4 b x ∧ Cont y ∧ Cont z := by
  obtain ⟨s, hs, hl⟩ := begins_iff.mp h
  cases hs <;> simp_all

/-- How many bytes a character takes, by the first of them. -/
def width (b : UInt8) : ℕ :=
  if b.toNat < 0x80 then 1 else if b.toNat < 0xe0 then 2 else if b.toNat < 0xf0 then 3 else 4

theorem Shape.length_eq {s : List UInt8} (h : Shape (b :: s)) : s.length + 1 = width b := by
  unfold width
  cases h with
  | one hb => rw [if_pos hb, List.length_nil]
  | two hb _ =>
    unfold Lead2 at hb
    rw [if_neg (by omega), if_pos (by omega), List.length_singleton]
  | three hx _ =>
    have hb := hx.lead
    unfold Lead3 at hb
    rw [if_neg (by omega), if_neg (by omega), if_pos (by omega)]
    rfl
  | four hx _ _ =>
    have hb := hx.lead
    unfold Lead4 at hb
    rw [if_neg (by omega), if_neg (by omega), if_neg (by omega)]
    rfl

theorem incomplete_of_lt {l s : List UInt8} (hs : Shape s) (hl : b :: l <+: s)
    (hlen : l.length + 1 < s.length) : Incomplete String.utf8EncodeChar (b :: l) := by
  rw [incomplete_iff]
  refine ⟨⟨s, hs, hl⟩, fun s' hs' hl' => ?_⟩
  cases s with
  | nil => cases hs
  | cons b' t =>
    cases s' with
    | nil => cases hs'
    | cons b'' t' =>
      obtain rfl : b = b' := (List.cons_prefix_cons.mp hl).1
      obtain rfl : b'' = b := (List.cons_prefix_cons.mp hl').1
      have hle := hl'.length_le
      have hlong := hs.length_eq
      have hshort := hs'.length_eq
      simp only [List.length_cons] at hle hlen
      omega

theorem incomplete_one (h : Lead2 b ∨ Lead3 b ∨ Lead4 b) :
    Incomplete String.utf8EncodeChar [b] := by
  have hcont : Cont 0x80 := by decide
  have hx : (0x80 : UInt8).toNat = 0x80 := rfl
  rcases h with h | h | h
  · exact incomplete_of_lt (.two h hcont) (by simp) (by simp)
  · by_cases he : b.toNat = 0xe0
    · exact incomplete_of_lt (.three (x := 0xa0) (.inl ⟨he, by decide, by decide⟩) hcont)
        (by simp) (by simp)
    · have hsecond : Second3 b 0x80 := by
        unfold Lead3 at h
        unfold Second3 Cont
        omega
      exact incomplete_of_lt (.three hsecond hcont) (by simp) (by simp)
  · by_cases hf : b.toNat = 0xf0
    · exact incomplete_of_lt (.four (x := 0x90) (.inl ⟨hf, by decide, by decide⟩) hcont hcont)
        (by simp) (by simp)
    · have hsecond : Second4 b 0x80 := by
        unfold Lead4 at h
        unfold Second4 Cont
        omega
      exact incomplete_of_lt (.four hsecond hcont hcont) (by simp) (by simp)

theorem incomplete_two (h : Second3 b x ∨ Second4 b x) :
    Incomplete String.utf8EncodeChar [b, x] := by
  have hcont : Cont 0x80 := by decide
  rcases h with h | h
  · exact incomplete_of_lt (.three h hcont) (by simp) (by simp)
  · exact incomplete_of_lt (.four h hcont hcont) (by simp) (by simp)

theorem incomplete_three (h : Second4 b x) (hy : Cont y) :
    Incomplete String.utf8EncodeChar [b, x, y] :=
  incomplete_of_lt (.four h hy (z := 0x80) (by decide)) (by simp) (by simp)

end Beginnings

/-! ## What a stream starts with -/

/-- What the first bytes are. -/
inductive Leading where
  | char (c : Char)
  /-- This many bytes that nothing completes. -/
  | invalid (len : ℕ)
  /-- The stream ends in the middle of a character. -/
  | cut
deriving DecidableEq, Repr

/-- One round of the validation loop. -/
def leading : List UInt8 → Leading
  | [] => .cut
  | b :: rest =>
    if b.toNat < 0x80 then .char (Char.ofNat b.toNat)
    else if Lead2 b then
      match rest with
      | [] => .cut
      | x :: _ =>
        if Cont x then .char (Char.ofNat ((b.toNat - 0xc0) * 64 + (x.toNat - 0x80)))
        else .invalid 1
    else if Lead3 b then
      match rest with
      | [] => .cut
      | x :: rest =>
        if Second3 b x then
          match rest with
          | [] => .cut
          | y :: _ =>
            if Cont y then
              .char (Char.ofNat
                ((b.toNat - 0xe0) * 4096 + (x.toNat - 0x80) * 64 + (y.toNat - 0x80)))
            else .invalid 2
        else .invalid 1
    else if Lead4 b then
      match rest with
      | [] => .cut
      | x :: rest =>
        if Second4 b x then
          match rest with
          | [] => .cut
          | y :: rest =>
            if Cont y then
              match rest with
              | [] => .cut
              | z :: _ =>
                if Cont z then
                  .char (Char.ofNat ((b.toNat - 0xf0) * 262144 + (x.toNat - 0x80) * 4096 +
                    (y.toNat - 0x80) * 64 + (z.toNat - 0x80)))
                else .invalid 3
            else .invalid 2
        else .invalid 1
    else .invalid 1

/-- What the answer says of the stream. -/
def Leading.Fits (l : List UInt8) : Leading → Prop
  | .char c => String.utf8EncodeChar c <+: l
  | .invalid n => 0 < n ∧ n ≤ l.length ∧
    MaximalSubpart String.utf8EncodeChar l (l.take n) ∧ ¬ Begins String.utf8EncodeChar l
  | .cut => Incomplete String.utf8EncodeChar l

theorem fits_single {b : UInt8} (rest : List UInt8) (h : ¬ Begins String.utf8EncodeChar [b]) :
    (Leading.invalid 1).Fits (b :: rest) :=
  ⟨Nat.one_pos, Nat.succ_le_succ (Nat.zero_le _), invalid_single prefixCode h rest⟩

theorem fits_broken {l : List UInt8} {n : ℕ} (hn : 0 < n)
    (h : Incomplete String.utf8EncodeChar (l.take n)) (hlen : n ≤ l.length)
    (hstop : ¬ Begins String.utf8EncodeChar (l.take (n + 1))) : (Leading.invalid n).Fits l :=
  ⟨hn, hlen, h.invalid hn hlen hstop⟩

theorem fits_char {c : Char} {s rest : List UInt8} (h : String.utf8EncodeChar c = s) :
    (Leading.char c).Fits (s ++ rest) := h ▸ List.prefix_append _ rest

/-- **What a stream starts with.** -/
theorem leading_fits (l : List UInt8) : (leading l).Fits l := by
  cases l with
  | nil => exact incomplete_iff.mpr ⟨⟨_, .one (b := 0) (by decide), List.nil_prefix⟩,
      fun s hs hl => by cases hs <;> simp at hl⟩
  | cons b rest =>
    unfold leading
    dsimp only
    split_ifs with h1 h2 h3 h4
    · exact fits_char (encode1 h1)
    · cases rest with
      | nil => exact incomplete_one (.inl h2)
      | cons x rest =>
        dsimp only
        split_ifs with hx
        · exact fits_char (encode2 h2 hx)
        · refine fits_broken Nat.one_pos (incomplete_one (.inl h2)) (by simp) fun hb => ?_
          rcases begins_two hb with h | h | h
          · exact hx h.2
          · exact hx h.cont
          · exact hx h.cont
    · cases rest with
      | nil => exact incomplete_one (.inr (.inl h3))
      | cons x rest =>
        dsimp only
        split_ifs with hx
        · cases rest with
          | nil => exact incomplete_two (.inl hx)
          | cons y rest =>
            dsimp only
            split_ifs with hy
            · exact fits_char (encode3 hx hy)
            · exact fits_broken Nat.two_pos (incomplete_two (.inl hx)) (by simp) fun hb =>
                hy (begins_three hb).2
        · refine fits_broken Nat.one_pos (incomplete_one (.inr (.inl h3))) (by simp) fun hb => ?_
          rcases begins_two hb with h | h | h
          · exact h2 h.1
          · exact hx h
          · have hfour := h.lead
            unfold Lead4 at hfour
            unfold Lead3 at h3
            omega
    · cases rest with
      | nil => exact incomplete_one (.inr (.inr h4))
      | cons x rest =>
        dsimp only
        split_ifs with hx
        · cases rest with
          | nil => exact incomplete_two (.inr hx)
          | cons y rest =>
            dsimp only
            split_ifs with hy
            · cases rest with
              | nil => exact incomplete_three hx hy
              | cons z rest =>
                dsimp only
                split_ifs with hz
                · exact fits_char (encode4 hx hy hz)
                · exact fits_broken (Nat.succ_pos 2) (incomplete_three hx hy) (by simp) fun hb =>
                    hz (begins_four hb).2.2
            · exact fits_broken Nat.two_pos (incomplete_two (.inr hx)) (by simp) fun hb =>
                hy (begins_three hb).2
        · refine fits_broken Nat.one_pos (incomplete_one (.inr (.inr h4))) (by simp) fun hb => ?_
          rcases begins_two hb with h | h | h
          · exact h2 h.1
          · exact h3 h.lead
          · exact hx h
    · refine fits_single rest fun hb => ?_
      rcases begins_one hb with h | h | h | h
      · exact h1 h
      · exact h2 h
      · exact h3 h
      · exact h4 h

/-! ## Reading a whole stream -/

/-- `std::str::Utf8Error`. -/
structure Utf8Error where
  validUpTo : ℕ
  errorLen : Option ℕ
deriving DecidableEq, Repr

/-- The validation loop at an offset, with `skip` bytes left of the character it has just read. -/
def fromUtf8At : ℕ → ℕ → List UInt8 → Except Utf8Error (List Char)
  | _, _, [] => .ok []
  | index, skip + 1, _ :: rest => fromUtf8At (index + 1) skip rest
  | index, 0, b :: rest =>
    match leading (b :: rest) with
    | .char c => (fromUtf8At (index + 1) (c.utf8Size - 1) rest).map (c :: ·)
    | .invalid len => .error ⟨index, some len⟩
    | .cut => .error ⟨index, none⟩

/-- `std::str::from_utf8`. -/
def fromUtf8 (l : List UInt8) : Except Utf8Error (List Char) := fromUtf8At 0 0 l

theorem fromUtf8At_skip (index : ℕ) (s l : List UInt8) :
    fromUtf8At index s.length (s ++ l) = fromUtf8At (index + s.length) 0 l := by
  induction s generalizing index with
  | nil => rfl
  | cons b s ih =>
    rw [List.cons_append, List.length_cons, fromUtf8At, ih, Nat.add_assoc, Nat.add_comm 1]

theorem leading_encode (c : Char) (rest : List UInt8) :
    leading (String.utf8EncodeChar c ++ rest) = .char c := by
  have hfits := leading_fits (String.utf8EncodeChar c ++ rest)
  have hc := List.prefix_append (String.utf8EncodeChar c) rest
  cases hl : leading (String.utf8EncodeChar c ++ rest) with
  | char d =>
    rw [hl] at hfits
    rcases List.prefix_or_prefix_of_prefix hfits hc with hdc | hcd
    · rw [prefixCode.free d c hdc]
    · rw [prefixCode.free c d hcd]
  | invalid n =>
    rw [hl] at hfits
    exact absurd hc (hfits.2.2.1.ill c)
  | cut =>
    rw [hl] at hfits
    exact absurd hc (hfits.ill c)

theorem fromUtf8At_encode (index : ℕ) (c : Char) (rest : List UInt8) :
    fromUtf8At index 0 (String.utf8EncodeChar c ++ rest) =
      (fromUtf8At (index + c.utf8Size) 0 rest).map (c :: ·) := by
  have hlead := leading_encode c rest
  have hlen := String.length_utf8EncodeChar c
  obtain ⟨b, r, hb⟩ := List.exists_cons_of_ne_nil (@String.utf8EncodeChar_ne_nil c)
  rw [hb] at hlead hlen
  rw [hb, List.cons_append, fromUtf8At]
  rw [List.cons_append] at hlead
  rw [hlead]
  rw [List.length_cons] at hlen
  dsimp only
  rw [← hlen, Nat.add_sub_cancel, fromUtf8At_skip, Nat.add_assoc, Nat.add_comm 1]

theorem fromUtf8At_utf8 (index : ℕ) (t : List Char) (rest : List UInt8) :
    fromUtf8At index 0 (utf8 t ++ rest) =
      (fromUtf8At (index + (utf8 t).length) 0 rest).map (t ++ ·) := by
  induction t generalizing index with
  | nil =>
    rw [utf8_nil, List.nil_append, List.length_nil, Nat.add_zero]
    cases fromUtf8At index 0 rest <;> rfl
  | cons c t ih =>
    rw [utf8_cons, List.append_assoc, fromUtf8At_encode, ih, List.length_append,
      String.length_utf8EncodeChar, Nat.add_assoc]
    cases fromUtf8At (index + (c.utf8Size + (utf8 t).length)) 0 rest <;> rfl

/-- **A text is read back.** -/
theorem fromUtf8_utf8 (t : List Char) : fromUtf8 (utf8 t) = .ok t := by
  have h := fromUtf8At_utf8 0 t []
  rw [List.append_nil] at h
  rw [fromUtf8, h]
  exact congrArg Except.ok (List.append_nil t)

/-- Every stream is a text followed by nothing, or by something that is no character. -/
theorem exists_text (l : List UInt8) : ∃ t rest, l = utf8 t ++ rest ∧
    (rest = [] ∨ rest ≠ [] ∧ ∀ c, leading rest ≠ .char c) := by
  induction hn : l.length using Nat.strong_induction_on generalizing l with
  | _ n ih =>
    by_cases hl : l = []
    · exact ⟨[], [], by rw [hl]; rfl, .inl rfl⟩
    · cases hlead : leading l with
      | char c =>
        have hfits := leading_fits l
        rw [hlead] at hfits
        obtain ⟨rest, rfl⟩ := hfits
        have hpos := List.length_pos_iff.mpr (@String.utf8EncodeChar_ne_nil c)
        rw [List.length_append] at hn
        obtain ⟨t, rest', rfl, hrest⟩ := ih rest.length (by omega) rest rfl
        exact ⟨c :: t, rest', by rw [utf8_cons, List.append_assoc], hrest⟩
      | invalid n =>
        refine ⟨[], l, rfl, .inr ⟨hl, fun c hc => ?_⟩⟩
        rw [hlead] at hc
        cases hc
      | cut =>
        refine ⟨[], l, rfl, .inr ⟨hl, fun c hc => ?_⟩⟩
        rw [hlead] at hc
        cases hc

/-- **What is read is the text of the stream.** -/
theorem eq_utf8_of_fromUtf8 {l : List UInt8} {t : List Char} (h : fromUtf8 l = .ok t) :
    l = utf8 t := by
  obtain ⟨u, rest, rfl, rfl | ⟨hne, hno⟩⟩ := exists_text l
  · rw [List.append_nil] at h ⊢
    rw [fromUtf8_utf8] at h
    rw [Except.ok.inj h]
  · rw [fromUtf8, fromUtf8At_utf8] at h
    obtain ⟨b, r, rfl⟩ := List.exists_cons_of_ne_nil hne
    rw [fromUtf8At] at h
    split at h
    · rename_i c hc
      exact absurd hc (hno c)
    · cases h
    · cases h

/-- **An error** is found behind the text that the stream starts with. -/
theorem fromUtf8_error {l : List UInt8} {e : Utf8Error} (h : fromUtf8 l = .error e) :
    ∃ t rest, l = utf8 t ++ rest ∧ rest ≠ [] ∧ e.validUpTo = (utf8 t).length ∧
      ((∃ n, leading rest = .invalid n ∧ e.errorLen = some n) ∨
        leading rest = .cut ∧ e.errorLen = none) := by
  obtain ⟨t, rest, rfl, rfl | ⟨hne, hno⟩⟩ := exists_text l
  · rw [List.append_nil, fromUtf8_utf8] at h
    cases h
  · refine ⟨t, rest, rfl, hne, ?_⟩
    rw [fromUtf8, fromUtf8At_utf8, Nat.zero_add] at h
    obtain ⟨b, r, rfl⟩ := List.exists_cons_of_ne_nil hne
    rw [fromUtf8At] at h
    split at h
    · rename_i c hc
      exact absurd hc (hno c)
    · rename_i n hn
      obtain rfl := Except.error.inj h
      exact ⟨rfl, .inl ⟨n, hn, rfl⟩⟩
    · rename_i hcut
      obtain rfl := Except.error.inj h
      exact ⟨rfl, .inr ⟨hcut, rfl⟩⟩

end Utf8
