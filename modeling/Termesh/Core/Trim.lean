import Mathlib.Tactic.Common

/-!
# White space and lines

* `isWhitespace`, `trim`: what is cut from both ends of a text;
* `textLines`: its lines.
-/

namespace Termesh

/-- Rust's `char::is_whitespace`. -/
def isWhitespace (c : Char) : Bool :=
  let v := c.val
  (9 ≤ v && v ≤ 13) || v == 32 || v == 0x85 || v == 0xA0 || v == 0x1680 ||
    (0x2000 ≤ v && v ≤ 0x200A) || v == 0x2028 || v == 0x2029 || v == 0x202F || v == 0x205F ||
    v == 0x3000

/-- `str::trim`. -/
def trim (s : String) : String :=
  String.ofList ((s.toList.dropWhile isWhitespace).reverse.dropWhile isWhitespace).reverse

theorem trim_ofList {l : List Char} (hhead : l.head?.all (!isWhitespace ·) = true)
    (hlast : l.getLast?.all (!isWhitespace ·) = true) :
    trim (String.ofList l) = String.ofList l := by
  have hstays : ∀ {l : List Char}, l.head?.all (!isWhitespace ·) = true →
      l.dropWhile isWhitespace = l := by
    intro l h
    cases l with
    | nil => rfl
    | cons a l => exact List.dropWhile_cons_of_neg (by simpa using h)
  rw [trim, String.toList_ofList, hstays hhead, hstays (by rwa [List.head?_reverse]),
    List.reverse_reverse]

/-- `str::lines`. -/
def textLines : List Char → List (List Char)
  | [] => []
  | '\n' :: cs => [] :: textLines cs
  | '\r' :: '\n' :: cs => [] :: textLines cs
  | c :: cs =>
    match textLines cs with
    | [] => [[c]]
    | line :: lines => (c :: line) :: lines

theorem fromUTF8?_toUTF8 (s : String) : String.fromUTF8? s.toUTF8 = some s := by
  unfold String.fromUTF8?
  rw [dif_pos (show s.toUTF8.IsValidUTF8 from s.isValidUTF8)]
  rfl

end Termesh
