import Termesh.Core.Input
import Termesh.Lib.Utf8

/-!
# Keys as terminal input

The bytes that a chord is sent as, and what a program reads them as.

* `encodeKey`: the bytes of a chord, if it has any;
* `readKey`: control bytes, escape sequences and characters, read back;
* `sent`, `canonical`: which chords have bytes, and what is left of them there;
* **`encodeKey_read`**: a chord that is sent is read as its canonical one, whatever the modes.
-/

namespace Termesh

namespace Terminal

open Utf8

/-- The modes a program has switched on. -/
structure InputModes where
  applicationCursor : Bool := false
deriving DecidableEq, Repr

/-- The bytes of a text. -/
def bytes (s : String) : List UInt8 := utf8 s.toList

/-! ## Sending -/

/-- The last byte of the sequences of a key that moves the cursor. -/
def navigationFinal : Key → Option String
  | .up => some "A"
  | .down => some "B"
  | .right => some "C"
  | .left => some "D"
  | .home => some "H"
  | .end => some "F"
  | _ => none

/-- The number in the sequences of the others. -/
def tildeNumber : Key → Option ℕ
  | .pageUp => some 5
  | .pageDown => some 6
  | .delete => some 3
  | _ => none

/-- The function keys. -/
def functionKeys : List (UInt8 × String) :=
  [(1, "\x1bOP"), (2, "\x1bOQ"), (3, "\x1bOR"), (4, "\x1bOS"), (5, "\x1b[15~"), (6, "\x1b[17~"),
    (7, "\x1b[18~"), (8, "\x1b[19~"), (9, "\x1b[20~"), (10, "\x1b[21~"), (11, "\x1b[23~"),
    (12, "\x1b[24~")]

/-- A key without modifiers. -/
def encodePlain (modes : InputModes) : Key → Option (List UInt8)
  | .char _ => none
  | .enter => some (bytes "\r")
  | .esc => some (bytes "\x1b")
  | .tab => some (bytes "\t")
  | .backTab => some (bytes "\x1b[Z")
  | .backspace => some (bytes "\x7f")
  | .f n => (functionKeys.lookup n).map bytes
  | key =>
    match navigationFinal key with
    | some final =>
      some (bytes (if modes.applicationCursor then "\x1bO" ++ final else "\x1b[" ++ final))
    | none => (tildeNumber key).map fun number => bytes ("\x1b[" ++ Nat.repr number ++ "~")

/-- The number of the modifiers, if there are any. -/
def modifierParameter (mods : Mods) : Option ℕ :=
  if mods = {} then none else some (1 + mods.shift.toNat + 2 * mods.alt.toNat + 4 * mods.ctrl.toNat)

/-- A navigation key with modifiers. -/
def encodeModifiedNavigation (key : Key) (modifier : ℕ) : Option (List UInt8) :=
  (navigationFinal key).map fun final => bytes ("\x1b[1;" ++ Nat.repr modifier ++ final)

/-- A key of the tilde family with modifiers. -/
def encodeModifiedTilde (key : Key) (modifier : ℕ) : Option (List UInt8) :=
  (tildeNumber key).map fun number =>
    bytes ("\x1b[" ++ Nat.repr number ++ ";" ++ Nat.repr modifier ++ "~")

/-- A character. With Ctrl it is a control byte, and only letters have one. -/
def encodeChar (c : Char) (mods : Mods) : Option (List UInt8) :=
  if mods.ctrl then
    if c.isAlpha then
      some ((if mods.alt then [0x1b] else []) ++ [UInt8.ofNat c.toUpper.toNat &&& 0x1f])
    else none
  else some ((if mods.alt then [0x1b] else []) ++ utf8 [c])

/-- The bytes of a chord. -/
def encodeKey (chord : KeyChord) (modes : InputModes) : Option (List UInt8) :=
  match chord.key with
  | .char c => encodeChar c chord.mods
  | key =>
    if key = .tab ∧ chord.mods = { shift := true } then some (bytes "\x1b[Z")
    else
      match modifierParameter chord.mods with
      | none => encodePlain modes key
      | some modifier =>
        match key with
        | .up | .down | .right | .left | .home | .end => encodeModifiedNavigation key modifier
        | .pageUp | .pageDown | .delete => encodeModifiedTilde key modifier
        | _ => none

/-! ## Reading -/

/-- The modifiers that a parameter stands for. -/
def modsOf (parameter : ℕ) : Mods where
  ctrl := (parameter - 1).testBit 2
  alt := (parameter - 1).testBit 1
  shift := (parameter - 1).testBit 0

/-- The number of some digits. -/
def number (digits : List UInt8) : ℕ := digits.foldl (fun n d => 10 * n + (d.toNat - 48)) 0

/-- The keys that the last byte of a sequence tells. -/
def finalKeys : List (UInt8 × Key) :=
  [(65, .up), (66, .down), (67, .right), (68, .left), (72, .home), (70, .end), (90, .backTab),
    (80, .f 1), (81, .f 2), (82, .f 3), (83, .f 4)]

/-- The keys that are told by a number in front of a tilde. -/
def tildeKeys : List (ℕ × Key) :=
  [(3, .delete), (5, .pageUp), (6, .pageDown), (15, .f 5), (17, .f 6), (18, .f 7), (19, .f 8),
    (20, .f 9), (21, .f 10), (23, .f 11), (24, .f 12)]

/-- Numbers between semicolons and a last byte: what stands behind a control sequence introducer.
The second number tells the modifiers. -/
def readSequence (body : List UInt8) : Option KeyChord :=
  let parameters := (body.dropLast.splitOn 59).map number
  let key :=
    if body.getLast? = some 126 then tildeKeys.lookup (parameters.headD 0)
    else body.getLast?.bind fun final => finalKeys.lookup final
  key.map fun key => ⟨key, modsOf (parameters.getD 1 1)⟩

/-- A control byte or one character. -/
def readChar (b : List UInt8) : Option KeyChord :=
  match b with
  | [k] =>
    if k.toNat < 32 then some ⟨.char (Char.ofNat (k.toNat + 96)), { ctrl := true }⟩
    else (String.fromUTF8? ⟨b.toArray⟩).map fun s => ⟨.char (s.toList.headD ' '), {}⟩
  | b => (String.fromUTF8? ⟨b.toArray⟩).map fun s => ⟨.char (s.toList.headD ' '), {}⟩

/-- What a program takes its input for. -/
def readKey (b : List UInt8) : Option KeyChord :=
  if b = [13] then some ⟨.enter, {}⟩
  else if b = [27] then some ⟨.esc, {}⟩
  else if b = [9] then some ⟨.tab, {}⟩
  else if b = [127] then some ⟨.backspace, {}⟩
  else if 2 < b.length ∧ (b.take 2 = [27, 91] ∨ b.take 2 = [27, 79]) then readSequence (b.drop 2)
  else if b.head? = some 27 then
    (readChar b.tail).map fun chord => { chord with mods := { chord.mods with alt := true } }
  else readChar b

/-- What is left of a chord in its bytes: Shift of a character and the case of a letter under Ctrl
are lost, and two letters under Ctrl are other keys. -/
def canonical (chord : KeyChord) : KeyChord :=
  match chord.key with
  | .char c =>
    if chord.mods.ctrl then
      if c.toLower = 'i' ∧ !chord.mods.alt then ⟨.tab, {}⟩
      else if c.toLower = 'm' ∧ !chord.mods.alt then ⟨.enter, {}⟩
      else ⟨.char c.toLower, { chord.mods with shift := false }⟩
    else ⟨.char c, { chord.mods with shift := false }⟩
  | .tab => if chord.mods.shift then ⟨.backTab, {}⟩ else chord
  | _ => chord

/-- Whether there are bytes for a chord. -/
def sent (chord : KeyChord) : Bool :=
  match chord.key with
  | .char c => !chord.mods.ctrl || c.isAlpha
  | .enter | .esc | .backTab | .backspace => chord.mods = {}
  | .tab => chord.mods = {} ∨ chord.mods = { shift := true }
  | .f n => chord.mods = {} ∧ 1 ≤ n ∧ n ≤ 12
  | _ => true

/-! ## Reading what was sent -/

/-- The keys that are no characters, but for the numbered ones. -/
def namedKeys : List Key :=
  [.enter, .esc, .tab, .backTab, .backspace, .delete, .up, .down, .left, .right, .home, .end,
    .pageUp, .pageDown]

/-- What is to be shown of a chord. -/
def ReadBack (chord : KeyChord) (modes : InputModes) : Prop :=
  (encodeKey chord modes).map readKey = if sent chord then some (some (canonical chord)) else none

instance (chord : KeyChord) (modes : InputModes) : Decidable (ReadBack chord modes) :=
  inferInstanceAs (Decidable (_ = _))

theorem readBack_named : ∀ key ∈ namedKeys, ∀ ctrl alt shift cursor : Bool,
    ReadBack ⟨key, ⟨ctrl, alt, shift⟩⟩ ⟨cursor⟩ := by
  decide +kernel

theorem readBack_f (n : UInt8) : ∀ ctrl alt shift cursor : Bool,
    ReadBack ⟨.f n, ⟨ctrl, alt, shift⟩⟩ ⟨cursor⟩ :=
  forall_byte (P := fun n => ∀ ctrl alt shift cursor : Bool,
    ReadBack ⟨.f n, ⟨ctrl, alt, shift⟩⟩ ⟨cursor⟩) (by decide +kernel) n

/-- A letter under Ctrl. -/
theorem readBack_control : ∀ n : Fin 128, ∀ alt shift cursor : Bool,
    ReadBack ⟨.char (Char.ofNat n), ⟨true, alt, shift⟩⟩ ⟨cursor⟩ := by
  decide +kernel

/-! ## Characters -/

variable {c : Char}

theorem le_of_mem_utf8 (hc : 32 ≤ c.toNat) {k : UInt8} (hk : k ∈ utf8 [c]) : 32 ≤ k.toNat := by
  rw [utf8_cons, utf8_nil, List.append_nil] at hk
  by_cases hlt : c.toNat < 128
  · rw [utf8EncodeChar_of_lt hlt, List.mem_singleton] at hk
    rw [hk, UInt8.toNat_ofNat']
    omega
  · exact Nat.le_trans (by omega) (le_of_mem_utf8EncodeChar hlt hk)

theorem readChar_utf8 (hc : 32 ≤ c.toNat) : readChar (utf8 [c]) = some ⟨.char c, {}⟩ := by
  have hread : (String.fromUTF8? ⟨(utf8 [c]).toArray⟩).map
      (fun s => (⟨.char (s.toList.headD ' '), {}⟩ : KeyChord)) = some ⟨.char c, {}⟩ := by
    rw [fromUTF8?_utf8, Option.map_some, String.toList_ofList, List.headD_cons]
  unfold readChar
  split
  · rename_i k heq
    have hk := le_of_mem_utf8 hc (k := k) (by rw [heq]; exact List.mem_cons_self)
    rw [if_neg (by omega), hread]
  · exact hread

theorem readKey_utf8 (hc : 32 ≤ c.toNat) (hdel : c.toNat ≠ 127) :
    readKey (utf8 [c]) = some ⟨.char c, {}⟩ := by
  obtain ⟨k, rest, hk⟩ := List.exists_cons_of_ne_nil (utf8_ne_nil (List.cons_ne_nil c []))
  have hle := le_of_mem_utf8 hc (k := k) (by rw [hk]; exact List.mem_cons_self)
  have hne : ∀ n : ℕ, n < 32 → k ≠ UInt8.ofNat n := by
    rintro n hn rfl
    rw [UInt8.toNat_ofNat'] at hle
    omega
  have hdelete : utf8 [c] ≠ [127] := by
    intro h
    have hmem : UInt8.ofNat (Char.ofNat 127).toNat ∈ utf8 [c] := by
      rw [h]
      exact List.mem_cons_self
    have hc' := List.mem_singleton.mp ((mem_utf8_iff (by decide)).mp hmem)
    exact hdel (by rw [← hc']; rfl)
  rw [← readChar_utf8 hc, readKey, if_neg, if_neg, if_neg, if_neg hdelete, if_neg, if_neg]
  · rw [hk]
    exact fun h => hne 27 (by decide) (Option.some.inj h)
  · rw [hk]
    rintro ⟨-, h | h⟩
    · exact hne 27 (by decide) (List.cons.inj h).1
    · exact hne 27 (by decide) (List.cons.inj h).1
  · rw [hk]
    exact fun h => hne 9 (by decide) (List.cons.inj h).1
  · rw [hk]
    exact fun h => hne 27 (by decide) (List.cons.inj h).1
  · rw [hk]
    exact fun h => hne 13 (by decide) (List.cons.inj h).1

theorem readKey_escape (hc : 32 ≤ c.toNat) :
    readKey (27 :: utf8 [c]) = some ⟨.char c, { alt := true }⟩ := by
  obtain ⟨k, rest, hk⟩ := List.exists_cons_of_ne_nil (utf8_ne_nil (List.cons_ne_nil c []))
  have hlong : 2 < (27 :: utf8 [c]).length → 128 ≤ k.toNat := by
    intro hlen
    by_cases hlt : c.toNat < 128
    · rw [utf8_cons, utf8_nil, List.append_nil, utf8EncodeChar_of_lt hlt] at hlen
      exact absurd hlen (by simp)
    · refine le_of_mem_utf8EncodeChar hlt ?_
      have hmem : k ∈ utf8 [c] := hk ▸ List.mem_cons_self
      simpa using hmem
  have hseq : ¬(2 < (27 :: utf8 [c]).length ∧ ((27 :: utf8 [c]).take 2 = [27, 91] ∨
      (27 :: utf8 [c]).take 2 = [27, 79])) := by
    rintro ⟨hlen, htake⟩
    have hle := hlong hlen
    rw [hk] at htake
    rcases htake with h | h
    · obtain rfl : k = 91 := (List.cons.inj (List.cons.inj h).2).1
      exact absurd hle (by decide)
    · obtain rfl : k = 79 := (List.cons.inj (List.cons.inj h).2).1
      exact absurd hle (by decide)
  rw [readKey, if_neg (by simp), if_neg (by simp [hk]), if_neg (by simp), if_neg (by simp),
    if_neg hseq, if_pos List.head?_cons, List.tail_cons, readChar_utf8 hc]
  rfl

theorem lt_of_isAlpha (h : c.isAlpha = true) : c.toNat < 128 := by
  change c.val.toNat < 128
  rcases (Bool.or_eq_true _ _).mp h with h | h
  · have hle : c.val ≤ 90 := (of_decide_eq_true h).2
    exact Nat.lt_of_le_of_lt (UInt32.le_iff_toNat_le.mp hle) (by decide)
  · have hle : c.val ≤ 122 := of_decide_eq_true ((Bool.and_eq_true _ _).mp h).2
    exact Nat.lt_of_le_of_lt (UInt32.le_iff_toNat_le.mp hle) (by decide)

theorem readBack_char (hc : 32 ≤ c.toNat) (hdel : c.toNat ≠ 127) (alt shift : Bool)
    (modes : InputModes) : ReadBack ⟨.char c, ⟨false, alt, shift⟩⟩ modes := by
  cases alt with
  | true => exact congrArg some (readKey_escape hc)
  | false => exact congrArg some (readKey_utf8 hc hdel)

/-- **What is sent is read back.** A chord is sent whenever there are bytes for it, and then a
program takes it for its canonical chord, in either cursor mode. So no two keys are taken for each
other but those that have one canonical chord. -/
theorem encodeKey_read (chord : KeyChord) (modes : InputModes)
    (h : ∀ c, chord.key = .char c → 32 ≤ c.toNat ∧ c.toNat ≠ 127) :
    ((encodeKey chord modes).isSome = true ↔ sent chord = true) ∧
    (∀ b, encodeKey chord modes = some b → readKey b = some (canonical chord)) ∧
    ∀ other modes' b, (∀ c, other.key = .char c → 32 ≤ c.toNat ∧ c.toNat ≠ 127) →
      encodeKey chord modes = some b → encodeKey other modes' = some b →
      canonical other = canonical chord := by
  have hback : ∀ (chord : KeyChord) (modes : InputModes),
      (∀ c, chord.key = .char c → 32 ≤ c.toNat ∧ c.toNat ≠ 127) → ReadBack chord modes := by
    rintro ⟨key, ctrl, alt, shift⟩ ⟨cursor⟩ h
    cases key with
    | char c =>
      cases ctrl with
      | false => exact readBack_char (h c rfl).1 (h c rfl).2 alt shift _
      | true =>
        by_cases hlt : c.toNat < 128
        · have hof := readBack_control ⟨c.toNat, hlt⟩ alt shift cursor
          rwa [Char.ofNat_toNat] at hof
        · have halpha : c.isAlpha = false := by
            rw [← Bool.not_eq_true]
            exact fun ha => hlt (lt_of_isAlpha ha)
          simp [ReadBack, encodeKey, encodeChar, sent, halpha]
    | f n => exact readBack_f n ctrl alt shift cursor
    | _ => exact readBack_named _ (by decide) ctrl alt shift cursor
  have hread : ∀ (chord : KeyChord) (modes : InputModes) b, ReadBack chord modes →
      encodeKey chord modes = some b → readKey b = some (canonical chord) := by
    intro chord modes b hb hsome
    rw [ReadBack, hsome, Option.map_some] at hb
    split_ifs at hb
    exact Option.some.inj hb
  refine ⟨?_, fun b hb => hread chord modes b (hback chord modes h) hb,
    fun other modes' b ho hb hb' => ?_⟩
  · have hb := hback chord modes h
    rw [ReadBack] at hb
    rw [← Option.isSome_map, hb]
    split_ifs with hsent <;> simp [hsent]
  · have h₁ := hread chord modes b (hback chord modes h) hb
    have h₂ := hread other modes' b (hback other modes' ho) hb'
    exact Option.some.inj (h₂.symm.trans h₁)

/-- A letter behind an escape byte. -/
theorem encodeKey_read_alt :
    ((encodeKey ⟨.char 'é', { alt := true }⟩ {}).isSome = true ↔
      sent ⟨.char 'é', { alt := true }⟩ = true) ∧
    (∀ b, encodeKey ⟨.char 'é', { alt := true }⟩ {} = some b →
      readKey b = some (canonical ⟨.char 'é', { alt := true }⟩)) ∧
    ∀ other modes' b, (∀ c, other.key = .char c → 32 ≤ c.toNat ∧ c.toNat ≠ 127) →
      encodeKey ⟨.char 'é', { alt := true }⟩ {} = some b → encodeKey other modes' = some b →
      canonical other = canonical ⟨.char 'é', { alt := true }⟩ :=
  encodeKey_read ⟨.char 'é', { alt := true }⟩ {} fun c h => by
    cases h
    decide

end Terminal

end Termesh
