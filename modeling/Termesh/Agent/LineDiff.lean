import Termesh.Editor.Lines

/-!
# Line diffs

The diff crate is a parameter: a `LineDiff` is any function whose operations tile both line
sequences, pair equal lines, are never adjacent when both are changes, and hold no change between
identical texts.

* `similarLines`: the crate's line tokens, which end after LF, CRLF or a lone CR;
  `splitInclusive`, which ends them after LF; `LinesAgree`, `similarLines_eq`: the same without CR;
* `Ended`, `IsLine`, **`splitInclusive_lines`**: lines put together, as many as there are, are the
  lines of the text;
* `Tiles`, `LineDiff`;
* `trimDiff`: the diff that trims the common prefix and suffix.
-/

namespace Termesh

/-- `TextDiff::from_lines` tokens. -/
def similarLines : Text → List Text
  | [] => []
  | '\r' :: '\n' :: t => ['\r', '\n'] :: similarLines t
  | c :: t => if c = '\n' ∨ c = '\r' then [c] :: similarLines t else consLine c (similarLines t)

/-- `split_inclusive('\n')`. -/
def splitInclusive : Text → List Text
  | [] => []
  | c :: t => if c = '\n' then [c] :: splitInclusive t else consLine c (splitInclusive t)

/-- The crate and `split_inclusive` take a text for the same lines. -/
def LinesAgree (t : Text) : Prop := similarLines t = splitInclusive t

instance (t : Text) : Decidable (LinesAgree t) := inferInstanceAs (Decidable (_ = _))

theorem similarLines_eq {t : Text} (h : '\r' ∉ t) : LinesAgree t := by
  show similarLines t = splitInclusive t
  induction t with
  | nil => rfl
  | cons c t ih =>
    obtain ⟨hc, ht⟩ := not_or.mp (mt List.mem_cons.mpr h)
    have hs : similarLines (c :: t) =
        if c = '\n' ∨ c = '\r' then [c] :: similarLines t else consLine c (similarLines t) :=
      similarLines.eq_3 c t fun _ h _ => hc h.symm
    rw [hs, splitInclusive, ih ht]
    simp only [Ne.symm hc, or_false]

theorem flatten_splitInclusive (t : Text) : (splitInclusive t).flatten = t := by
  induction t with
  | nil => rfl
  | cons c t ih =>
    rw [splitInclusive]
    split_ifs
    · rw [List.flatten_cons, ih]; rfl
    · rw [flatten_consLine, ih]

theorem consLine_ne_nil {c : Char} {ls : List Text} (h : ∀ l ∈ ls, l ≠ []) :
    ∀ l ∈ consLine c ls, l ≠ [] := by
  cases ls with
  | nil => simp [consLine]
  | cons l ls => intro l' hl; rcases List.mem_cons.mp hl with rfl | hl <;> simp_all

theorem splitInclusive_ne_nil (t : Text) : ∀ l ∈ splitInclusive t, l ≠ [] := by
  induction t with
  | nil => simp [splitInclusive]
  | cons c t ih =>
    rw [splitInclusive]
    split_ifs
    · intro l hl
      rcases List.mem_cons.mp hl with rfl | hl
      · simp
      · exact ih l hl
    · exact consLine_ne_nil ih

/-! ## Lines that end -/

theorem length_consLine (c : Char) (ls : List Text) : (consLine c ls).length = max 1 ls.length := by
  cases ls with
  | nil => rfl
  | cons l ls =>
    rw [consLine, List.length_cons, List.length_cons]
    omega

/-- A line that ends in a LF, and holds no other. -/
def Ended (l : Text) : Prop := ∃ u, '\n' ∉ u ∧ l = u ++ ['\n']

/-- A line of a text: only the last need not end. -/
def IsLine (l : Text) : Prop := Ended l ∨ l ≠ [] ∧ '\n' ∉ l

theorem splitInclusive_ended {l : Text} (h : Ended l) (t : Text) :
    splitInclusive (l ++ t) = l :: splitInclusive t := by
  obtain ⟨u, hu, rfl⟩ := h
  induction u with
  | nil => rfl
  | cons c u ih =>
    obtain ⟨hc, hu⟩ := not_or.mp (mt List.mem_cons.mpr hu)
    have hstep : splitInclusive (c :: (u ++ ['\n'] ++ t)) =
        consLine c (splitInclusive (u ++ ['\n'] ++ t)) := by
      rw [splitInclusive, if_neg (Ne.symm hc)]
    rw [List.cons_append, List.cons_append, hstep, ih hu]
    rfl

theorem splitInclusive_flatten_ended {ls : List Text} (h : ∀ l ∈ ls, Ended l) (t : Text) :
    splitInclusive (ls.flatten ++ t) = ls ++ splitInclusive t := by
  induction ls with
  | nil => rfl
  | cons l ls ih =>
    rw [List.flatten_cons, List.append_assoc, splitInclusive_ended (h l List.mem_cons_self),
      ih fun l' hl => h l' (List.mem_cons_of_mem _ hl), List.cons_append]

theorem splitInclusive_open {l : Text} (hne : l ≠ []) (h : '\n' ∉ l) (t : Text) :
    (splitInclusive (l ++ t)).length = max 1 (splitInclusive t).length ∧
      (t = [] → splitInclusive (l ++ t) = [l]) := by
  induction l with
  | nil => exact absurd rfl hne
  | cons c l ih =>
    obtain ⟨hc, hl⟩ := not_or.mp (mt List.mem_cons.mpr h)
    have hstep : splitInclusive (c :: (l ++ t)) = consLine c (splitInclusive (l ++ t)) := by
      rw [splitInclusive, if_neg (Ne.symm hc)]
    rw [List.cons_append, hstep, length_consLine]
    by_cases hnil : l = []
    · subst hnil
      refine ⟨rfl, ?_⟩
      rintro rfl
      rfl
    · obtain ⟨hlength, hone⟩ := ih hnil hl
      refine ⟨by rw [hlength]; omega, fun ht => ?_⟩
      rw [hone ht]
      rfl

/-- **The lines of a text put together from lines** are no more than these, and where they are as
many, they are these. -/
theorem splitInclusive_lines {ls : List Text} (h : ∀ l ∈ ls, IsLine l) :
    (splitInclusive ls.flatten).length ≤ ls.length ∧
      (ls.length ≤ (splitInclusive ls.flatten).length → splitInclusive ls.flatten = ls) := by
  induction ls with
  | nil => exact ⟨Nat.le_refl 0, fun _ => rfl⟩
  | cons l ls ih =>
    obtain ⟨hle, heq⟩ := ih fun l' hl => h l' (List.mem_cons_of_mem _ hl)
    rw [List.flatten_cons]
    rcases h l List.mem_cons_self with hl | ⟨hne, hl⟩
    · rw [splitInclusive_ended hl]
      exact ⟨Nat.succ_le_succ hle, fun h => congrArg _ (heq (Nat.le_of_succ_le_succ h))⟩
    · obtain ⟨hlength, hone⟩ := splitInclusive_open hne hl ls.flatten
      rw [hlength, List.length_cons]
      refine ⟨by omega, fun h => ?_⟩
      have hnil : ls = [] := List.eq_nil_of_length_eq_zero (by omega)
      rw [hone (by rw [hnil]; rfl), hnil]

theorem ended_splitInclusive (t : Text) : (∀ l ∈ splitInclusive t, IsLine l) ∧
    ∀ i < (splitInclusive t).length, ∀ l ∈ (splitInclusive t).take i, Ended l := by
  induction t with
  | nil => simp [splitInclusive]
  | cons c t ih =>
    obtain ⟨hlines, hended⟩ := ih
    rw [splitInclusive]
    by_cases hc : c = '\n'
    · have hline : Ended [c] := ⟨[], by simp, by rw [hc]; rfl⟩
      rw [if_pos hc]
      refine ⟨List.forall_mem_cons.mpr ⟨.inl hline, hlines⟩, fun i hi => ?_⟩
      cases i with
      | zero => simp
      | succ i =>
        rw [List.take_succ_cons]
        exact List.forall_mem_cons.mpr ⟨hline, hended i (Nat.lt_of_succ_lt_succ hi)⟩
    · rw [if_neg hc]
      have hcons {u : Text} (hu : '\n' ∉ u) : '\n' ∉ c :: u :=
        List.not_mem_cons_of_ne_of_not_mem (Ne.symm hc) hu
      have hgrow {l : Text} : Ended l → Ended (c :: l) := fun ⟨u, hu, hl⟩ =>
        ⟨c :: u, hcons hu, by rw [hl, List.cons_append]⟩
      cases hls : splitInclusive t with
      | nil =>
        refine ⟨?_, fun i hi => ?_⟩
        · rw [consLine]
          exact List.forall_mem_singleton.mpr (.inr ⟨by simp, hcons (by simp)⟩)
        · obtain rfl : i = 0 := Nat.lt_one_iff.mp hi
          simp
      | cons l ls =>
        rw [hls] at hlines hended
        obtain ⟨hl, hrest⟩ := List.forall_mem_cons.mp hlines
        refine ⟨List.forall_mem_cons.mpr ⟨hl.imp hgrow fun h => ⟨by simp, hcons h.2⟩, hrest⟩,
          fun i hi => ?_⟩
        cases i with
        | zero => simp
        | succ i =>
          have hfirst := hended (i + 1) hi
          rw [List.take_succ_cons] at hfirst
          rw [consLine, List.take_succ_cons]
          obtain ⟨hl, hrest⟩ := List.forall_mem_cons.mp hfirst
          exact List.forall_mem_cons.mpr ⟨hgrow hl, hrest⟩

theorem splitInclusive_drop (t : Text) (i : ℕ) :
    splitInclusive ((splitInclusive t).drop i).flatten = (splitInclusive t).drop i := by
  by_cases hi : i < (splitInclusive t).length
  · have hsplit := splitInclusive_flatten_ended ((ended_splitInclusive t).2 i hi)
      ((splitInclusive t).drop i).flatten
    rw [← List.flatten_append, List.take_append_drop, flatten_splitInclusive] at hsplit
    exact (List.append_cancel_left ((List.take_append_drop i _).trans hsplit)).symm
  · rw [List.drop_eq_nil_of_le (Nat.not_lt.mp hi)]
    rfl

/-! ## Diffs -/

inductive DiffTag where
  | equal
  | delete
  | insert
  | replace
deriving DecidableEq, Repr

/-- One operation: lines `oldStart..oldStop` against lines `newStart..newStop`. -/
structure DiffOp where
  tag : DiffTag
  oldStart : ℕ
  oldStop : ℕ
  newStart : ℕ
  newStop : ℕ
deriving DecidableEq, Repr

/-- Elements `a..b` of a list. -/
def slice {α : Type*} (l : List α) (a b : ℕ) : List α := (l.take b).drop a

/-- The operations tile `old` from line `i` and `new` from line `j`, none of them empty, and pair
equal lines. -/
def Tiles (old new : List Text) : ℕ → ℕ → List DiffOp → Prop
  | i, j, [] => i = old.length ∧ j = new.length
  | i, j, op :: ops => op.oldStart = i ∧ op.newStart = j ∧ i ≤ op.oldStop ∧ j ≤ op.newStop ∧
      (i < op.oldStop ∨ j < op.newStop) ∧
      (op.tag = .equal → slice old i op.oldStop = slice new j op.newStop) ∧
      Tiles old new op.oldStop op.newStop ops

/-- What the diff crate promises of `TextDiff::from_lines(..).ops()`. -/
structure LineDiff where
  ops : Text → Text → List DiffOp
  tiles : ∀ old new, Tiles (similarLines old) (similarLines new) 0 0 (ops old new)
  apart : ∀ old new, (ops old new).IsChain fun a b => a.tag = .equal ∨ b.tag = .equal
  identical : ∀ t, ∀ op ∈ ops t t, op.tag = .equal

theorem Tiles.le {old new : List Text} {i j : ℕ} {ops : List DiffOp} (h : Tiles old new i j ops) :
    i ≤ old.length ∧ j ≤ new.length := by
  induction ops generalizing i j with
  | nil => exact ⟨Nat.le_of_eq h.1, Nat.le_of_eq h.2⟩
  | cons op ops ih =>
    obtain ⟨-, -, hi, hj, -, -, h⟩ := h
    exact ⟨Nat.le_trans hi (ih h).1, Nat.le_trans hj (ih h).2⟩

/-! ## The trimming diff -/

/-- The length of the longest common prefix. -/
def commonPrefix : List Text → List Text → ℕ
  | a :: as, b :: bs => if a = b then commonPrefix as bs + 1 else 0
  | _, _ => 0

theorem commonPrefix_spec (as bs : List Text) :
    commonPrefix as bs ≤ as.length ∧ commonPrefix as bs ≤ bs.length ∧
      as.take (commonPrefix as bs) = bs.take (commonPrefix as bs) := by
  induction as generalizing bs with
  | nil => simp [commonPrefix]
  | cons a as ih =>
    cases bs with
    | nil => simp [commonPrefix]
    | cons b bs =>
      obtain ⟨h1, h2, h3⟩ := ih bs
      rw [commonPrefix]
      split_ifs with hab
      · simp [hab, h1, h2, h3]
      · simp

theorem commonPrefix_self (as : List Text) : commonPrefix as as = as.length := by
  induction as with
  | nil => rfl
  | cons a as ih => simp [commonPrefix, ih]

/-- The operation over `i..i'` and `j..j'`, unless both ranges are empty. -/
def piece (tag : DiffTag) (i i' j j' : ℕ) : List DiffOp :=
  if i = i' ∧ j = j' then [] else [⟨tag, i, i', j, j'⟩]

/-- One change between `p` common lines in front and `s` behind. -/
def trimOpsAt (old new : List Text) (p s : ℕ) : List DiffOp :=
  piece .equal 0 p 0 p ++
    (piece (if p = old.length - s then .insert else if p = new.length - s then .delete else .replace)
        p (old.length - s) p (new.length - s) ++
      piece .equal (old.length - s) old.length (new.length - s) new.length)

/-- One change between the common prefix and the common suffix. -/
def trimOps (old new : List Text) : List DiffOp :=
  let p := commonPrefix old new
  trimOpsAt old new p (commonPrefix (old.drop p).reverse (new.drop p).reverse)

theorem Tiles.piece {old new : List Text} {i i' j j' : ℕ} {ops : List DiffOp} (tag : DiffTag)
    (h : Tiles old new i' j' ops) (hi : i ≤ i') (hj : j ≤ j')
    (he : tag = .equal → slice old i i' = slice new j j') :
    Tiles old new i j (piece tag i i' j j' ++ ops) := by
  unfold Termesh.piece
  split_ifs with h0
  · rw [h0.1, h0.2]
    exact h
  · exact ⟨rfl, rfl, hi, hj, by simp only; omega, he, h⟩

theorem slice_suffix {as bs : List Text} {s : ℕ} (h : as.reverse.take s = bs.reverse.take s) :
    slice as (as.length - s) as.length = slice bs (bs.length - s) bs.length := by
  simp only [slice, List.take_length]
  rw [List.take_reverse, List.take_reverse] at h
  exact List.reverse_injective h

theorem trimOps_tiles (old new : List Text) : Tiles old new 0 0 (trimOps old new) := by
  obtain ⟨hp1, hp2, hp⟩ := commonPrefix_spec old new
  obtain ⟨hs1, hs2, hs⟩ := commonPrefix_spec (old.drop (commonPrefix old new)).reverse
    (new.drop (commonPrefix old new)).reverse
  show Tiles old new 0 0 (trimOpsAt old new (commonPrefix old new) _)
  generalize commonPrefix old new = p at *
  generalize commonPrefix (old.drop p).reverse (new.drop p).reverse = s at *
  rw [List.length_reverse, List.length_drop] at hs1 hs2
  have hend := Tiles.piece .equal (show Tiles old new old.length new.length [] from ⟨rfl, rfl⟩)
    (Nat.sub_le old.length s) (Nat.sub_le new.length s) fun _ => slice_suffix (by
      rw [List.reverse_drop, List.reverse_drop, List.take_take, List.take_take] at hs
      rwa [Nat.min_eq_left hs1, Nat.min_eq_left hs2] at hs)
  rw [List.append_nil] at hend
  refine Tiles.piece _ (Tiles.piece _ hend (by omega) (by omega) fun h => ?_) (Nat.zero_le _)
    (Nat.zero_le _) fun _ => ?_
  · split_ifs at h
  · simpa [slice] using hp

theorem trimOps_apart (old new : List Text) :
    (trimOps old new).IsChain fun a b => a.tag = .equal ∨ b.tag = .equal := by
  unfold trimOps trimOpsAt piece
  dsimp only
  split_ifs <;> simp

theorem trimOps_identical (ls : List Text) : ∀ op ∈ trimOps ls ls, op.tag = .equal := by
  intro op h
  have hs : trimOps ls ls = piece .equal 0 ls.length 0 ls.length := by
    simp [trimOps, trimOpsAt, commonPrefix_self, piece]
  rw [hs, piece] at h
  split_ifs at h
  · simp at h
  · rw [List.mem_singleton.mp h]

/-- The diff that trims what both texts start and end with. -/
def trimDiff : LineDiff where
  ops old new := trimOps (similarLines old) (similarLines new)
  tiles _ _ := trimOps_tiles _ _
  apart _ _ := trimOps_apart _ _
  identical _ := trimOps_identical _

end Termesh
