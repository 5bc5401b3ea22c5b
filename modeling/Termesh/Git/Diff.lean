import Termesh.Core.Git
import Termesh.Search.Protocol
import Termesh.Terminal.Capture

/-!
# What is kept of a diff

Git's output is decoded with replacements, and cut at a limit of bytes.

* `fromUtf8Lossy`: the decoding of the standard library; `lossy_fromUtf8Lossy`: what it decodes to;
* `boundedText`, `boundedDiff`, `boundedContextDiff`: the cut, at a character boundary;
* **`bounded_diffs`**: a diff is the longest beginning of the decoded output within the limit, and
  the flag says exactly whether that is all of it.
-/

namespace Termesh

namespace Git

open Decoding Utf8
open Search (getTo)

/-! ## Decoding -/

/-- `String::from_utf8_lossy`: the text in front of an invalid sequence, a replacement for it, and
what follows. -/
def fromUtf8Lossy (bytes : List UInt8) : Text :=
  match _he : fromUtf8 bytes with
  | .ok valid => valid
  | .error e =>
    (fromUtf8 (bytes.take e.validUpTo)).toOption.getD [] ++ replacement ::
      match _hlen : e.errorLen with
      | some len => fromUtf8Lossy ((bytes.drop e.validUpTo).drop len)
      | none => []
termination_by bytes.length
decreasing_by exact drained_lt _he _hlen

section

variable {bytes : List UInt8} {e : Utf8Error}

theorem fromUtf8Lossy_ok {valid : Text} (h : fromUtf8 bytes = .ok valid) :
    fromUtf8Lossy bytes = valid := by
  unfold fromUtf8Lossy
  split <;> simp_all

theorem fromUtf8Lossy_error (h : fromUtf8 bytes = .error e) :
    fromUtf8Lossy bytes = (fromUtf8 (bytes.take e.validUpTo)).toOption.getD [] ++ replacement ::
      (e.errorLen.map fun len => fromUtf8Lossy ((bytes.drop e.validUpTo).drop len)).getD [] := by
  rw [fromUtf8Lossy]
  split
  · simp_all
  · rename_i e' he'
    obtain rfl := Except.error.inj (h.symm.trans he')
    split <;> simp_all

end

theorem decodeCompletePrefix_finish (text : Text) (bytes : List UInt8) :
    decodeCompletePrefix true text bytes = some (text ++ fromUtf8Lossy bytes, []) := by
  induction hn : bytes.length using Nat.strong_induction_on generalizing text bytes with
  | _ n ih =>
    unfold decodeCompletePrefix
    split
    · rename_i valid hvalid
      rw [fromUtf8Lossy_ok hvalid]
    · rename_i e he
      obtain ⟨t, rest, heq, -, hvalid, -⟩ := fromUtf8_error he
      have htake : bytes.take e.validUpTo = utf8 t := by rw [heq, hvalid, List.take_left]
      rw [fromUtf8Lossy_error he, htake, fromUtf8_utf8]
      dsimp only
      split
      · rename_i len hlen
        rw [ih _ (hn ▸ drained_lt he hlen) _ _ rfl, hlen]
        simp [Except.toOption]
      · rename_i hlen
        simp [Except.toOption, hlen]

theorem lossy_fromUtf8Lossy (bytes : List UInt8) :
    Lossy String.utf8EncodeChar replacement bytes (fromUtf8Lossy bytes) := by
  obtain ⟨u, rest, hread, hcut, hdecode⟩ := decodeCompletePrefix_spec true [] bytes
  rw [decodeCompletePrefix_finish, if_pos rfl] at hdecode
  have htext : fromUtf8Lossy bytes = if rest = [] then u else u ++ [replacement] := by
    simpa using hdecode
  rw [htext]
  exact hread.finish hcut

/-! ## The cut -/

/-- The loop that looks for a character boundary. -/
def floorBoundary (t : Text) : ℕ → ℕ
  | 0 => 0
  | n + 1 => if (getTo t (n + 1)).isSome then n + 1 else floorBoundary t n

/-- `bounded_text`. `none` is the panic of a slice inside a character. -/
def boundedText (bytes : List UInt8) (limit : ℕ) : Option (Text × Bool) :=
  let text := fromUtf8Lossy bytes
  if bytes.length ≤ limit ∧ byteLen text ≤ limit then some (text, false)
  else (getTo text (floorBoundary text (min limit (byteLen text)))).map (·, true)

def boundedDiff (path : Path) (target : GitDiffTarget) (bytes : List UInt8) (limit : ℕ) :
    Option GitFileDiff :=
  (boundedText bytes limit).map fun (text, truncated) =>
    { path, target, text := String.ofList text, truncated }

/-- `GitContextDiff`. -/
structure ContextDiff where
  index : Text
  worktree : Text
  indexTruncated : Bool
  worktreeTruncated : Bool

def boundedContextDiff (index worktree : List UInt8) (limit : ℕ) : Option ContextDiff := do
  let (index, indexTruncated) ← boundedText index limit
  let (worktree, worktreeTruncated) ← boundedText worktree limit
  return { index, worktree, indexTruncated, worktreeTruncated }

/-! ## Boundaries -/

variable {t s p : Text} {n limit : ℕ}

theorem byteLen_eq_zero : byteLen t = 0 ↔ t = [] := by
  cases t with
  | nil => simp [byteLen]
  | cons c t =>
    have hpos := c.utf8Size_pos
    simp [byteLen]
    omega

theorem byteLen_le_of_prefix (h : s <+: t) : byteLen s ≤ byteLen t := by
  obtain ⟨rest, rfl⟩ := h
  rw [byteLen, byteLen, size_append]
  exact Nat.le_add_right _ _

theorem getTo_zero (t : Text) : getTo t 0 = some [] := by cases t <;> rfl

theorem getTo_eq_some : getTo t n = some p ↔ p <+: t ∧ byteLen p = n := by
  induction t generalizing n p with
  | nil =>
    cases n with
    | zero =>
      rw [getTo_zero, byteLen_eq_zero, List.prefix_nil, and_self]
      exact Option.some_inj.trans eq_comm
    | succ n =>
      simp only [getTo, reduceCtorEq, List.prefix_nil, false_iff, not_and]
      rintro rfl
      simp [byteLen]
  | cons c t ih =>
    have hsize : ∀ l, byteLen (c :: l) = c.utf8Size + byteLen l := fun l => rfl
    cases n with
    | zero =>
      rw [getTo_zero, byteLen_eq_zero]
      constructor
      · rintro ⟨⟩
        exact ⟨List.nil_prefix, rfl⟩
      · rintro ⟨-, rfl⟩
        rfl
    | succ n =>
      rw [getTo]
      constructor
      · intro h
        split_ifs at h with hle
        obtain ⟨q, hq, rfl⟩ := Option.map_eq_some_iff.mp h
        obtain ⟨hpre, hlen⟩ := ih.mp hq
        exact ⟨List.cons_prefix_cons.mpr ⟨rfl, hpre⟩, by rw [hsize]; omega⟩
      · rintro ⟨hpre, hlen⟩
        cases p with
        | nil => simp [byteLen] at hlen
        | cons d q =>
          obtain ⟨rfl, hq⟩ := List.cons_prefix_cons.mp hpre
          rw [hsize] at hlen
          rw [if_pos (by omega), ih.mpr ⟨hq, by omega⟩, Option.map_some]

/-- The longest beginning of a text within a limit of bytes. -/
structure IsHead (limit : ℕ) (t p : Text) : Prop where
  front : p <+: t
  fits : byteLen p ≤ limit
  longest : ∀ s, s <+: t → byteLen s ≤ limit → s <+: p

/-- **The loop finds the last boundary.** -/
theorem floorBoundary_isHead (t : Text) (n : ℕ) :
    ∃ p, getTo t (floorBoundary t n) = some p ∧ IsHead n t p := by
  induction n with
  | zero =>
    refine ⟨[], by cases t <;> rfl, List.nil_prefix, Nat.le_refl _, fun s _ hs => ?_⟩
    rw [byteLen_eq_zero.mp (Nat.le_zero.mp hs)]
  | succ n ih =>
    rw [floorBoundary]
    split_ifs with hsome
    · obtain ⟨p, hp⟩ := Option.isSome_iff_exists.mp hsome
      obtain ⟨hpre, hlen⟩ := getTo_eq_some.mp hp
      refine ⟨p, hp, hpre, hlen.le, fun s hs hfits => ?_⟩
      rcases List.prefix_or_prefix_of_prefix hs hpre with hsp | ⟨rest, rfl⟩
      · exact hsp
      · -- nothing is left behind the boundary
        have hrest : byteLen rest = 0 := by
          have happ : byteLen (p ++ rest) = byteLen p + byteLen rest := size_append _ _ _
          omega
        rw [byteLen_eq_zero.mp hrest, List.append_nil]
    · obtain ⟨p, hp, hhead⟩ := ih
      refine ⟨p, hp, hhead.front, Nat.le_succ_of_le hhead.fits, fun s hs hfits => ?_⟩
      rcases Nat.lt_or_eq_of_le hfits with hlt | heq
      · exact hhead.longest s hs (Nat.le_of_lt_succ hlt)
      · exact absurd (Option.isSome_iff_exists.mpr ⟨s, getTo_eq_some.mpr ⟨hs, heq⟩⟩) hsome

theorem IsHead.of_min (h : IsHead (min limit (byteLen t)) t p) : IsHead limit t p where
  front := h.front
  fits := h.fits.trans (Nat.min_le_left _ _)
  longest s hs hfits := h.longest s hs (Nat.le_min.mpr ⟨hfits, byteLen_le_of_prefix hs⟩)

theorem IsHead.self (h : byteLen t ≤ limit) : IsHead limit t t :=
  ⟨List.prefix_rfl, h, fun _ hs _ => hs⟩

/-! ## No replacement is shorter than what it stands for -/

theorem length_le_of_maximalSubpart {l s : List UInt8}
    (h : MaximalSubpart String.utf8EncodeChar l s) : s.length ≤ replacement.utf8Size := by
  have hsize : replacement.utf8Size = 3 := by decide
  rw [hsize]
  rcases h.subpart with ⟨c, hc⟩ | hone
  · have hlen : (String.utf8EncodeChar c).length ≤ 4 := by
      rw [String.length_utf8EncodeChar]
      exact c.utf8Size_le_four
    have hne : s.length ≠ (String.utf8EncodeChar c).length := fun heq =>
      h.ill c (hc.eq_of_length heq ▸ h.front)
    have hle := hc.length_le
    omega
  · omega

theorem Lossy.length_le {bytes : List UInt8} {t : Text}
    (h : Lossy String.utf8EncodeChar replacement bytes t) : bytes.length ≤ byteLen t := by
  induction h with
  | nil => exact Nat.zero_le _
  | word c h ih =>
    rw [List.length_append, String.length_utf8EncodeChar]
    exact Nat.add_le_add_left ih _
  | replaced hs h ih =>
    rw [List.length_append]
    exact Nat.add_le_add (length_le_of_maximalSubpart hs) ih

/-! ## What is kept -/

/-- What is kept of output, and the flag with it. -/
structure Kept (bytes : List UInt8) (limit : ℕ) (text : Text) (truncated : Bool) : Prop where
  decoded : ∃ whole, Lossy String.utf8EncodeChar replacement bytes whole ∧
    IsHead limit whole text ∧ (truncated = true ↔ text ≠ whole)

theorem boundedText_kept (bytes : List UInt8) (limit : ℕ) :
    ∃ text truncated, boundedText bytes limit = some (text, truncated) ∧
      Kept bytes limit text truncated := by
  have hlossy := lossy_fromUtf8Lossy bytes
  have hlen := Lossy.length_le hlossy
  rw [boundedText]
  split_ifs with hfits
  · exact ⟨_, _, rfl, _, hlossy, .self hfits.2, by simp⟩
  · obtain ⟨p, hp, hhead⟩ :=
      floorBoundary_isHead (fromUtf8Lossy bytes) (min limit (byteLen (fromUtf8Lossy bytes)))
    refine ⟨p, true, by rw [hp, Option.map_some], _, hlossy, hhead.of_min, iff_of_true rfl ?_⟩
    rintro rfl
    have hall := hhead.of_min.fits
    exact hfits ⟨hlen.trans hall, hall⟩

/-- **Diffs are cut without loss of meaning.** Neither a diff nor a side of the context diff is ever
cut inside a character: each is the longest beginning of the decoded output that fits the limit, and
is flagged exactly when something is missing. -/
theorem bounded_diffs (path : Path) (target : GitDiffTarget) (index worktree : List UInt8)
    (limit : ℕ) :
    (∃ text truncated, boundedDiff path target worktree limit =
        some ⟨path, target, String.ofList text, truncated⟩ ∧
      Kept worktree limit text truncated) ∧
    ∃ d, boundedContextDiff index worktree limit = some d ∧
      Kept index limit d.index d.indexTruncated ∧
      Kept worktree limit d.worktree d.worktreeTruncated := by
  obtain ⟨text, truncated, hindex, hkept⟩ := boundedText_kept index limit
  obtain ⟨text', truncated', hworktree, hkept'⟩ := boundedText_kept worktree limit
  refine ⟨⟨text', truncated', by rw [boundedDiff, hworktree]; rfl, hkept'⟩,
    ⟨text, text', truncated, truncated'⟩, ?_, hkept, hkept'⟩
  rw [boundedContextDiff, hindex, hworktree]
  rfl

end Git

end Termesh
