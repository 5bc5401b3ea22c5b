import Termesh.Core.Spelling
import Termesh.Lib.Utf8
import Termesh.Lsp.Wire

/-!
# File URIs

A path in UTF-8 is told to a server as a URI in which every byte that is not plain is an escape,
and comes back as the path it is.

* `percentDecode_encodeByte`, `percentDecode_encode`: escapes are read back, byte by byte;
* `bytesOf_pathToUri`: the bytes of a URI are its characters;
* `uriToPath_pathToUri`: a path comes back;
* **`uri_round_trip`**: so does every path that a text spells, in a URI of plain characters and
  escapes, and every path that a server names in any URI.
-/

namespace Termesh

namespace Lsp

open Utf8

/-- A character of a file URI. -/
def uriChar (c : Char) : Bool := c.isAlphanum || "/-_.~:%".toList.contains c

/-- The byte of a character below 128. -/
def byteOf (c : Char) : UInt8 := UInt8.ofNat c.toNat

/-! ## One byte -/

theorem uriChar_encodeByte (b : UInt8) : ∀ c ∈ encodeByte b, uriChar c ∧ c.toNat < 128 := by
  have hall := forall_byte
    (P := fun b => (encodeByte b).all fun c => uriChar c && decide (c.toNat < 128))
    (by decide +kernel) b
  simpa only [List.all_eq_true, Bool.and_eq_true, decide_eq_true_eq] using hall

theorem byteOf_plain (b : UInt8) : plainByte b → byteOf (Char.ofNat b.toNat) = b ∧ b ≠ 37 :=
  forall_byte (P := fun b => plainByte b → byteOf (Char.ofNat b.toNat) = b ∧ b ≠ 37)
    (by decide +kernel) b

theorem hex_hexDigit (b : UInt8) :
    hex (byteOf (hexDigit (b >>> 4))) = some (b >>> 4) ∧
      hex (byteOf (hexDigit (b &&& 15))) = some (b &&& 15) ∧
        (b >>> 4) <<< 4 ||| (b &&& 15) = b :=
  forall_byte (P := fun b => hex (byteOf (hexDigit (b >>> 4))) = some (b >>> 4) ∧
    hex (byteOf (hexDigit (b &&& 15))) = some (b &&& 15) ∧
      (b >>> 4) <<< 4 ||| (b &&& 15) = b) (by decide +kernel) b

theorem percentDecode_cons {b : UInt8} (hb : b ≠ 37) (rest : List UInt8) :
    percentDecode (b :: rest) = (percentDecode rest).map (b :: ·) := by
  rw [percentDecode]
  intro _ _ _ h
  exact absurd h hb

/-- **An escape is read back.** -/
theorem percentDecode_encodeByte (b : UInt8) (rest : List UInt8) :
    percentDecode ((encodeByte b).map byteOf ++ rest) = (percentDecode rest).map (b :: ·) := by
  unfold encodeByte
  split_ifs with hb
  · obtain ⟨hown, hne⟩ := byteOf_plain b hb
    rw [List.map_singleton, hown]
    exact percentDecode_cons hne rest
  · obtain ⟨hhigh, hlow, hboth⟩ := hex_hexDigit b
    change percentDecode
      (37 :: byteOf (hexDigit (b >>> 4)) :: byteOf (hexDigit (b &&& 15)) :: rest) = _
    rw [percentDecode, hhigh, hlow, Option.bind_some, Option.bind_some, hboth]

theorem percentDecode_encode (bs : List UInt8) :
    percentDecode ((bs.flatMap encodeByte).map byteOf) = some bs := by
  induction bs with
  | nil => rfl
  | cons b bs ih =>
    rw [List.flatMap_cons, List.map_append, percentDecode_encodeByte, ih]
    rfl

/-! ## Whole paths -/

theorem bytesOf_eq (s : String) : bytesOf s = utf8 s.toList := by
  rw [bytesOf, String.toUTF8, toByteArray_eq]

theorem uriChar_scheme : ∀ c ∈ "file://".toList, uriChar c ∧ c.toNat < 128 := by
  have hall : "file://".toList.all fun c => uriChar c && decide (c.toNat < 128) := by
    decide +kernel
  simpa only [List.all_eq_true, Bool.and_eq_true, decide_eq_true_eq] using hall

theorem toList_pathToUri (p : Path) :
    (pathToUri p).toList = "file://".toList ++ (bytesOf p.display).flatMap encodeByte := by
  rw [pathToUri, String.toList_append]
  exact congrArg ("file://".toList ++ ·) String.toList_ofList

theorem uriChar_pathToUri (p : Path) : ∀ c ∈ (pathToUri p).toList, uriChar c ∧ c.toNat < 128 := by
  intro c hc
  rw [toList_pathToUri] at hc
  obtain hc | hc := List.mem_append.mp hc
  · exact uriChar_scheme c hc
  · obtain ⟨b, -, hc⟩ := List.mem_flatMap.mp hc
    exact uriChar_encodeByte b c hc

/-- The bytes of a URI are its characters. -/
theorem bytesOf_pathToUri (p : Path) :
    bytesOf (pathToUri p) =
      bytesOf "file://" ++ ((bytesOf p.display).flatMap encodeByte).map byteOf := by
  rw [bytesOf_eq, bytesOf_eq, toList_pathToUri, utf8_append]
  refine congrArg (utf8 "file://".toList ++ ·) (utf8_eq_map fun c hc => ?_)
  obtain ⟨b, -, hc⟩ := List.mem_flatMap.mp hc
  exact (uriChar_encodeByte b c hc).2

/-- A path comes back. -/
theorem uriToPath_pathToUri {p : Path} (hp : p.Proper) : uriToPath (pathToUri p) = some p := by
  have hscheme : stripScheme (pathToUri p) =
      some (((bytesOf p.display).flatMap encodeByte).map byteOf) := by
    rw [stripScheme, bytesOf_pathToUri,
      if_pos (List.isPrefixOf_iff_prefix.mpr (List.prefix_append _ _)), List.drop_left]
  rw [uriToPath, hscheme, Option.bind_some, percentDecode_encode, Option.bind_some, bytesOf_eq,
    fromUTF8?_utf8, Option.map_some, String.ofList_toList, Path.ofString_display_of_proper hp]

theorem proper_uriToPath {uri : String} {p : Path} (h : uriToPath uri = some p) : p.Proper := by
  obtain ⟨encoded, -, h⟩ := Option.bind_eq_some_iff.mp h
  obtain ⟨decoded, -, h⟩ := Option.bind_eq_some_iff.mp h
  obtain ⟨s, -, rfl⟩ := Option.map_eq_some_iff.mp h
  exact Path.proper_ofString s

/-- **A path that a text spells comes back from its URI**, which has plain characters and escapes
only; and so does every path that a server names, in whatever URI. -/
theorem uri_round_trip (s : String) :
    (uriToPath (pathToUri (Path.ofString s)) = some (Path.ofString s) ∧
      ∀ c ∈ (pathToUri (Path.ofString s)).toList, uriChar c) ∧
    ∀ p, uriToPath s = some p → uriToPath (pathToUri p) = some p :=
  ⟨⟨uriToPath_pathToUri (Path.proper_ofString s), fun c hc => (uriChar_pathToUri _ c hc).1⟩,
    fun _ h => uriToPath_pathToUri (proper_uriToPath h)⟩

end Lsp

end Termesh
