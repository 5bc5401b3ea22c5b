import Termesh.Editor.Change

/-!
# Finding text

Literal substring search in character offsets. Case folding is Unicode's and a parameter: a
`Folding` is `str::to_lowercase` with the test for upper case.

* `CaseMode`, `findAllIn`, `findAll`, `nextFrom`, `prevFrom`;
* **`findAll_inside`**: folding that keeps the number of characters keeps the matches inside the
  text.
-/

namespace Termesh

/-- A match, as a character range. -/
abbrev Match := ℕ × ℕ

/-- `str::to_lowercase` and `char::is_uppercase`. -/
structure Folding where
  toLowercase : Text → Text
  isUppercase : Char → Bool

/-- The occurrences of `needle` from offset `at` on, left to right and not overlapping; `skip`
characters belong to the last one found. -/
def matchIndices (needle : Text) : Text → ℕ → ℕ → List ℕ
  | [], _, _ => []
  | c :: t, pos, skip =>
    match skip with
    | skip + 1 => matchIndices needle t (pos + 1) skip
    | 0 =>
      if needle.isPrefixOf (c :: t) then pos :: matchIndices needle t (pos + 1) (needle.length - 1)
      else matchIndices needle t (pos + 1) 0

/-- Whether a search distinguishes case. -/
inductive CaseMode
  | smart
  | sensitive
  | insensitive
deriving DecidableEq, Repr

/-- `sensitive_for`: smart case minds it once the needle holds a capital. -/
def CaseMode.sensitiveFor (mode : CaseMode) (f : Folding) (needle : Text) : Bool :=
  match mode with
  | .sensitive => true
  | .insensitive => false
  | .smart => needle.any f.isUppercase

/-- What a search compares: the text as it stands, or lowered. -/
def CaseMode.folded (mode : CaseMode) (f : Folding) (needle t : Text) : Text :=
  if mode.sensitiveFor f needle then t else f.toLowercase t

/-- `find_all`: every occurrence of `needle` in a case mode, nothing for an empty needle. -/
def findAllIn (mode : CaseMode) (f : Folding) (text needle : Text) : List Match :=
  if needle = [] then []
  else
    let haystack := mode.folded f needle text
    let needle := mode.folded f needle needle
    (matchIndices needle haystack 0 0).map fun start => (start, start + needle.length)

/-- The search of the find prompt, in smart case. -/
abbrev findAll (f : Folding) (text needle : Text) : List Match := findAllIn .smart f text needle

/-- The index of the first match at or after `pos`, wrapping to the start. -/
def nextFrom (matches_ : List Match) (pos : ℕ) : Option ℕ :=
  if matches_ = [] then none else some ((matches_.findIdx? fun m => pos ≤ m.1).getD 0)

/-- The index of the last match starting before `pos`, wrapping to the end. -/
def prevFrom (matches_ : List Match) (pos : ℕ) : Option ℕ :=
  if matches_ = [] then none
  else
    some (((matches_.reverse.findIdx? fun m => m.1 < pos).map fun i =>
      matches_.length - 1 - i).getD (matches_.length - 1))

theorem matchIndices_le {needle : Text} (t : Text) (pos skip : ℕ) :
    ∀ start ∈ matchIndices needle t pos skip, start + needle.length ≤ pos + t.length := by
  induction t generalizing pos skip with
  | nil => simp [matchIndices]
  | cons c t ih =>
    intro start hs
    cases skip with
    | succ skip =>
      have := ih (pos + 1) skip start hs
      rw [List.length_cons]
      omega
    | zero =>
      rw [matchIndices] at hs
      split_ifs at hs with hp
      · rcases List.mem_cons.mp hs with rfl | hs
        · have := (List.isPrefixOf_iff_prefix.mp hp).length_le
          omega
        · have := ih (pos + 1) _ start hs
          rw [List.length_cons]
          omega
      · have := ih (pos + 1) 0 start hs
        rw [List.length_cons]
        omega

theorem CaseMode.length_folded {mode : CaseMode} {f : Folding} {text needle : Text}
    (h : mode.sensitiveFor f needle = true ∨ (f.toLowercase text).length = text.length) :
    (mode.folded f needle text).length = text.length := by
  rw [folded]
  split_ifs with hs
  · rfl
  · exact h.resolve_left hs

/-- **Matches lie in the searched text** when folding it keeps its length. -/
theorem findAll_inside {f : Folding} {text needle : Text}
    (h : needle.any f.isUppercase = true ∨ (f.toLowercase text).length = text.length) :
    ∀ m ∈ findAll f text needle, m.1 ≤ text.length ∧ m.2 ≤ text.length := by
  intro m hm
  have hlen : (CaseMode.smart.folded f needle text).length = text.length := CaseMode.length_folded h
  rw [findAll, findAllIn] at hm
  split_ifs at hm
  · cases hm
  · obtain ⟨start, hi, rfl⟩ := List.mem_map.mp hm
    have hle := matchIndices_le _ 0 0 start hi
    rw [hlen] at hle
    exact ⟨by simp only; omega, by simp only; omega⟩

end Termesh
