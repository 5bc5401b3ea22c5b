import Mathlib.Tactic.Common

/-!
# UTF-8

Texts as lists of characters, and their bytes as a list.

* `utf8`: the bytes of a text, `fromUTF8?_utf8`, `eq_utf8_of_fromUTF8?`: read back, and only they;
* **`mem_utf8_iff`**: a byte below 128 stands for its own character, wherever it stands.
-/

namespace Utf8

/-- What is shown byte for byte holds of all of them. -/
theorem forall_byte {P : UInt8 → Prop} (h : ∀ n : Fin 256, P (UInt8.ofNat n)) (b : UInt8) : P b := by
  have hb := h ⟨b.toNat, b.toNat_lt⟩
  rwa [UInt8.ofNat_toNat] at hb

/-- The bytes of a text. -/
def utf8 (t : List Char) : List UInt8 := t.flatMap String.utf8EncodeChar

@[simp] theorem utf8_nil : utf8 [] = [] := rfl

@[simp] theorem utf8_cons (c : Char) (t : List Char) :
    utf8 (c :: t) = String.utf8EncodeChar c ++ utf8 t := rfl

@[simp] theorem utf8_append (s t : List Char) : utf8 (s ++ t) = utf8 s ++ utf8 t :=
  List.flatMap_append

theorem utf8_ne_nil {t : List Char} (h : t ≠ []) : utf8 t ≠ [] := by
  cases t with
  | nil => exact absurd rfl h
  | cons c t =>
    rw [utf8_cons]
    exact fun he => String.utf8EncodeChar_ne_nil (List.append_eq_nil_iff.mp he).1

theorem toByteArray_eq (s : String) : s.toByteArray = ⟨(utf8 s.toList).toArray⟩ := by
  rw [← String.utf8Encode_toList, List.utf8Encode]
  exact ByteArray.ext (List.data_toByteArray)

/-- The bytes of a text are read back. -/
theorem fromUTF8?_utf8 (t : List Char) :
    String.fromUTF8? ⟨(utf8 t).toArray⟩ = some (String.ofList t) := by
  have hbytes : (⟨(utf8 t).toArray⟩ : ByteArray) = (String.ofList t).toByteArray := by
    rw [toByteArray_eq, String.toList_ofList]
  rw [hbytes, String.fromUTF8?, dif_pos (String.ofList t).isValidUTF8]
  rfl

/-- Bytes that are read are those of the text read. -/
theorem eq_utf8_of_fromUTF8? {b : List UInt8} {s : String}
    (h : String.fromUTF8? ⟨b.toArray⟩ = some s) : b = utf8 s.toList := by
  rw [String.fromUTF8?] at h
  split_ifs at h
  have hs := Option.some.inj h
  have hbytes : s.toByteArray = ⟨b.toArray⟩ := by rw [← hs]; rfl
  rw [toByteArray_eq] at hbytes
  exact (Array.toList_inj.mpr (congrArg ByteArray.data hbytes)).symm

theorem utf8EncodeChar_of_lt {c : Char} (h : c.toNat < 128) :
    String.utf8EncodeChar c = [UInt8.ofNat c.toNat] := by
  have h' : c.val.toNat ≤ 0x7f := Nat.le_of_lt_succ h
  rw [String.utf8EncodeChar]
  simp only [h', if_true]
  rfl

theorem le_of_mem_utf8EncodeChar {c : Char} (h : ¬c.toNat < 128) {b : UInt8}
    (hb : b ∈ String.utf8EncodeChar c) : 128 ≤ b.toNat := by
  have h' : ¬c.val.toNat ≤ 0x7f := fun hle => h (Nat.lt_succ_of_le hle)
  rw [String.utf8EncodeChar] at hb
  simp only [h', if_false] at hb
  split_ifs at hb <;>
    · simp only [List.mem_cons, List.not_mem_nil, or_false] at hb
      rcases hb with rfl | rfl | rfl | rfl <;>
        · rw [UInt8.toNat_ofNat']
          omega

/-- **A byte below 128 stands for its own character.** -/
theorem mem_utf8_iff {t : List Char} {c : Char} (hc : c.toNat < 128) :
    UInt8.ofNat c.toNat ∈ utf8 t ↔ c ∈ t := by
  have hsmall : (UInt8.ofNat c.toNat).toNat = c.toNat := by
    rw [UInt8.toNat_ofNat']
    omega
  induction t with
  | nil => simp
  | cons d t ih =>
    rw [utf8_cons, List.mem_append, List.mem_cons]
    refine or_congr ?_ ih
    by_cases hd : d.toNat < 128
    · rw [utf8EncodeChar_of_lt hd, List.mem_singleton]
      constructor
      · intro h
        have hnat := congrArg UInt8.toNat h
        rw [hsmall, UInt8.toNat_ofNat', Nat.mod_eq_of_lt (by omega)] at hnat
        exact Char.toNat_inj.mp hnat
      · rintro rfl
        rfl
    · refine iff_of_false (fun h => ?_) fun h => hd (h ▸ hc)
      have := le_of_mem_utf8EncodeChar hd h
      omega

/-- A text of characters below 128 is as many bytes. -/
theorem utf8_eq_map {t : List Char} (h : ∀ c ∈ t, c.toNat < 128) :
    utf8 t = t.map fun c => UInt8.ofNat c.toNat := by
  induction t with
  | nil => rfl
  | cons c t ih =>
    rw [utf8_cons, utf8EncodeChar_of_lt (h c List.mem_cons_self),
      ih fun d hd => h d (List.mem_cons_of_mem _ hd)]
    rfl

theorem length_utf8 {t : List Char} (h : ∀ c ∈ t, c.toNat < 128) : (utf8 t).length = t.length := by
  rw [utf8_eq_map h, List.length_map]

theorem drop_utf8 {t : List Char} (h : ∀ c ∈ t, c.toNat < 128) (i : ℕ) :
    (utf8 t).drop i = utf8 (t.drop i) := by
  rw [utf8_eq_map h, utf8_eq_map fun c hc => h c (List.mem_of_mem_drop hc), List.map_drop]

/-- A text that starts with a byte below 128 starts with its character. -/
theorem utf8_eq_cons {t : List Char} {c : Char} {b : List UInt8} (hc : c.toNat < 128)
    (h : utf8 t = UInt8.ofNat c.toNat :: b) : ∃ s, t = c :: s ∧ utf8 s = b := by
  cases t with
  | nil => cases h
  | cons d s =>
    rw [utf8_cons] at h
    obtain ⟨x, r, hx⟩ := List.exists_cons_of_ne_nil (@String.utf8EncodeChar_ne_nil d)
    have hfirst : UInt8.ofNat c.toNat ∈ utf8 [d] := by
      rw [hx, List.cons_append] at h
      rw [utf8_cons, hx, (List.cons.inj h).1]
      exact List.mem_cons_self
    have hd : c = d := List.mem_singleton.mp ((mem_utf8_iff hc).mp hfirst)
    refine ⟨s, by rw [hd], ?_⟩
    rw [← hd, utf8EncodeChar_of_lt hc] at h
    exact (List.cons.inj h).2

end Utf8
