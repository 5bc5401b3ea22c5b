import Termesh.Agent.Proposal
import Termesh.Editor.Laws

/-!
# From a diff to its change and back

The diff crate numbers the lines it cuts, and the hunks are looked up in lines cut by
`split_inclusive`. The crate cuts at a lone CR as well, so the numbers may mean other lines.

* `LoneCr`, `similarLines_spec`: the crate cuts more lines exactly when there is one;
* `RoundTrips`: the hunks of a diff lead from one text to the other;
* `merged`, **`hunksOf_app`**: the lines they lead to; `Reads`: the operations over other lines;
* **`roundTrips_iff`**: they lead there exactly when the operations make sense over LF lines.
-/

namespace Termesh

open EditScript

/-! ## Lone carriage returns -/

/-- A CR that neither a LF nor the end of the text follows. -/
def LoneCr (t : Text) : Prop := ∃ u c v, t = u ++ '\r' :: c :: v ∧ c ≠ '\n'

theorem loneCr_cons {a : Char} {t : Text} :
    LoneCr (a :: t) ↔ (a = '\r' ∧ ∃ c v, t = c :: v ∧ c ≠ '\n') ∨ LoneCr t := by
  constructor
  · rintro ⟨u, c, v, h, hc⟩
    cases u with
    | nil =>
      obtain ⟨rfl, rfl⟩ := List.cons.inj h
      exact .inl ⟨rfl, c, v, rfl, hc⟩
    | cons b u => exact .inr ⟨u, c, v, (List.cons.inj h).2, hc⟩
  · rintro (⟨rfl, c, v, rfl, hc⟩ | ⟨u, c, v, rfl, hc⟩)
    · exact ⟨[], c, v, rfl, hc⟩
    · exact ⟨a :: u, c, v, rfl, hc⟩

/-- **The crate cuts a text into the same lines**, unless there is a lone CR; and into no fewer. -/
theorem similarLines_spec (t : Text) :
    (¬LoneCr t → LinesAgree t) ∧ (splitInclusive t).length ≤ (similarLines t).length := by
  induction t using similarLines.induct with
  | case1 => exact ⟨fun _ => rfl, Nat.le_refl _⟩
  | case2 t ih =>
    have hlone : LoneCr ('\r' :: '\n' :: t) ↔ LoneCr t := by
      rw [loneCr_cons, loneCr_cons]
      simp
    have hsplit : splitInclusive ('\r' :: '\n' :: t) = ['\r', '\n'] :: splitInclusive t := rfl
    rw [hlone, LinesAgree, similarLines, hsplit]
    exact ⟨fun h => congrArg _ (ih.1 h), Nat.succ_le_succ ih.2⟩
  | case3 c t hcr hbreak ih =>
    rw [LinesAgree, similarLines.eq_3 c t hcr, if_pos hbreak, splitInclusive]
    by_cases hlf : c = '\n'
    · have hlone : LoneCr (c :: t) ↔ LoneCr t := by
        rw [loneCr_cons, hlf]
        simp
      rw [hlone, if_pos hlf]
      exact ⟨fun h => congrArg _ (ih.1 h), Nat.succ_le_succ ih.2⟩
    · have hret : c = '\r' := hbreak.resolve_left hlf
      rw [if_neg hlf, length_consLine, List.length_cons]
      cases t with
      | nil => exact ⟨fun _ => rfl, Nat.le_refl _⟩
      | cons d t =>
        have hd : d ≠ '\n' := fun he => hcr t hret (by rw [he])
        have hlone : LoneCr (c :: d :: t) := loneCr_cons.mpr (.inl ⟨hret, d, t, rfl, hd⟩)
        have hle := ih.2
        exact ⟨fun h => absurd hlone h, by omega⟩
  | case4 c t hcr hbreak ih =>
    obtain ⟨hlf, hret⟩ := not_or.mp hbreak
    have hlone : LoneCr (c :: t) ↔ LoneCr t := by
      rw [loneCr_cons]
      simp [hret]
    rw [LinesAgree, similarLines.eq_3 c t hcr, if_neg hbreak, splitInclusive, hlone, if_neg hlf,
      length_consLine, length_consLine]
    have hle := ih.2
    exact ⟨fun h => congrArg _ (ih.1 h), by omega⟩

theorem length_lineOffsetsFrom (ls : List Text) (acc : ℕ) :
    (lineOffsetsFrom ls acc).length = ls.length + 1 := by
  induction ls generalizing acc with
  | nil => rfl
  | cons l ls ih => rw [lineOffsetsFrom, List.length_cons, ih, List.length_cons]

/-! ## The lines the hunks lead to -/

section Merged

variable {old new : List Text}

/-- The old lines where the operations change nothing, and the new ones where they do. -/
def merged (old new : List Text) : List DiffOp → List Text
  | [] => []
  | op :: ops => (if op.tag = .equal then slice old op.oldStart op.oldStop
      else slice new op.newStart op.newStop) ++ merged old new ops

/-- Numbered over these lines the operations make sense: what is changed is there, and what is equal
is so. -/
structure Reads (old new : List Text) (ops : List DiffOp) : Prop where
  changes : ∀ op ∈ ops, op.tag ≠ .equal → op.oldStop ≤ old.length ∧ op.newStop ≤ new.length
  equals : ∀ op ∈ ops, op.tag = .equal →
    slice old op.oldStart op.oldStop = slice new op.newStart op.newStop

theorem Tiles.mem_le {ls ls' : List Text} {i j : ℕ} {ops : List DiffOp} (h : Tiles ls ls' i j ops)
    {op : DiffOp} (hop : op ∈ ops) : i ≤ op.oldStop ∧ j ≤ op.newStop := by
  induction ops generalizing i j with
  | nil => exact absurd hop List.not_mem_nil
  | cons op' ops ih =>
    obtain ⟨-, -, hi, hj, -, -, h⟩ := h
    rcases List.mem_cons.mp hop with rfl | hop
    · exact ⟨hi, hj⟩
    · exact ⟨Nat.le_trans hi (ih h hop).1, Nat.le_trans hj (ih h hop).2⟩

theorem Tiles.equal_length {ls ls' : List Text} {op : DiffOp} {ops : List DiffOp}
    (h : Tiles ls ls' op.oldStart op.newStart (op :: ops)) (htag : op.tag = .equal) :
    op.oldStop - op.oldStart = op.newStop - op.newStart := by
  obtain ⟨-, -, -, -, -, heq, h⟩ := h
  have hlength := congrArg List.length (heq htag)
  simpa [slice, h.le.1, h.le.2] using hlength

theorem changes_of_hunksOf {ops : List DiffOp} {hs : List Hunk}
    (h : hunksOf (lineOffsetsFrom old 0) new ops = some hs) :
    ∀ op ∈ ops, op.tag ≠ .equal → op.oldStop ≤ old.length ∧ op.newStop ≤ new.length := by
  induction ops generalizing hs with
  | nil => exact fun op hop => absurd hop List.not_mem_nil
  | cons op ops ih =>
    rw [hunksOf] at h
    by_cases htag : op.tag = .equal
    · rw [if_pos htag] at h
      exact List.forall_mem_cons.mpr ⟨fun hne => absurd htag hne, ih h⟩
    · rw [if_neg htag] at h
      obtain ⟨k, hk, h⟩ := Option.bind_eq_some_iff.mp h
      obtain ⟨hs', hrest, -⟩ := Option.map_eq_some_iff.mp h
      refine List.forall_mem_cons.mpr ⟨fun _ => ?_, ih hrest⟩
      obtain ⟨start, -, hk⟩ := Option.bind_eq_some_iff.mp hk
      obtain ⟨stop, hstop, hk⟩ := Option.bind_eq_some_iff.mp hk
      have hlt := (List.getElem?_eq_some_iff.mp hstop).1
      rw [length_lineOffsetsFrom] at hlt
      split_ifs at hk with hnew
      exact ⟨Nat.le_of_lt_succ hlt, hnew.2⟩

/-- **The hunks of operations lead to the merged lines** when what is changed is there, whatever
lines the operations tile. -/
theorem hunksOf_app {ls ls' : List Text} (hold : old.length ≤ ls.length) (ops : List DiffOp)
    {i j : ℕ} (ht : Tiles ls ls' i j ops) (hchanges : ∀ op ∈ ops, op.tag ≠ .equal →
      op.oldStop ≤ old.length ∧ op.newStop ≤ new.length) :
    ∃ hs, hunksOf (lineOffsetsFrom old 0) new ops = some hs ∧
      app (hunkScript (lineOffset old i) hs old.flatten.length) (old.drop i).flatten =
        (merged old new ops).flatten := by
  induction ops generalizing i j with
  | nil =>
    obtain ⟨rfl, -⟩ := ht
    refine ⟨[], rfl, ?_⟩
    rw [List.drop_eq_nil_of_le hold, lineOffset, List.take_of_length_le hold]
    simp [hunkScript, app, merged]
  | cons op ops ih =>
    obtain ⟨rfl, rfl, hi, hj, -, -, ht⟩ := ht
    obtain ⟨hhere, hrest⟩ := List.forall_mem_cons.mp hchanges
    obtain ⟨hs, hhs, happ⟩ := ih ht hrest
    have hoff := lineOffset_slice old hi
    have horder := hunksOf_inOrder ht hhs (Nat.le_refl _)
    by_cases htag : op.tag = .equal
    · refine ⟨hs, by rw [hunksOf, if_pos htag, hhs], ?_⟩
      have hk := app_keeps (hunkScript (lineOffset old op.oldStop) hs old.flatten.length)
        (slice old op.oldStart op.oldStop).flatten (old.drop op.oldStop).flatten
      rw [← List.flatten_append, slice_append_drop _ hi] at hk
      rw [hunkScript_skip horder (by omega), hoff, Nat.add_sub_cancel_left, ← hoff, hk, happ,
        merged, if_pos htag, List.flatten_append]
    · obtain ⟨hstop, hnew⟩ := hhere htag
      refine ⟨⟨lineOffset old op.oldStart, lineOffset old op.oldStop,
        (slice new op.newStart op.newStop).flatten, .clean⟩ :: hs, ?_, ?_⟩
      · rw [hunksOf, if_neg htag, hunkOf, lineOffsetsFrom_get _ _ (Nat.le_trans hi hstop),
          lineOffsetsFrom_get _ _ hstop, hhs]
        simp [hj, hnew]
      · have hd := app_drops (adds (slice new op.newStart op.newStop).flatten ++
            hunkScript (lineOffset old op.oldStop) hs old.flatten.length)
          (slice old op.oldStart op.oldStop).flatten (old.drop op.oldStop).flatten
        rw [← List.flatten_append, slice_append_drop _ hi, app_adds, happ] at hd
        have hlen : lineOffset old op.oldStop - lineOffset old op.oldStart =
          (slice old op.oldStart op.oldStop).flatten.length := by omega
        rw [hunkScript, Nat.sub_self, hlen, merged, if_neg htag, List.flatten_append]
        exact hd

theorem merged_reads {ls ls' : List Text} (hnew : new.length ≤ ls'.length) (ops : List DiffOp)
    {i j : ℕ} (ht : Tiles ls ls' i j ops) (hequals : ∀ op ∈ ops, op.tag = .equal →
      slice old op.oldStart op.oldStop = slice new op.newStart op.newStop) :
    merged old new ops = new.drop j := by
  induction ops generalizing i j with
  | nil =>
    obtain ⟨-, rfl⟩ := ht
    exact (List.drop_eq_nil_of_le hnew).symm
  | cons op ops ih =>
    obtain ⟨rfl, rfl, -, hj, -, -, ht⟩ := ht
    obtain ⟨hhere, hrest⟩ := List.forall_mem_cons.mp hequals
    rw [merged, ih ht hrest, ← slice_append_drop new hj]
    by_cases htag : op.tag = .equal
    · rw [if_pos htag, hhere htag]
    · rw [if_neg htag]

theorem Tiles.reads (ops : List DiffOp) {i j : ℕ} (ht : Tiles old new i j ops) :
    Reads old new ops := by
  induction ops generalizing i j with
  | nil => exact ⟨fun op hop => absurd hop List.not_mem_nil, fun op hop => absurd hop List.not_mem_nil⟩
  | cons op ops ih =>
    obtain ⟨rfl, rfl, -, -, -, heq, ht⟩ := ht
    obtain ⟨hchanges, hequals⟩ := ih ht
    exact ⟨List.forall_mem_cons.mpr ⟨fun _ => ht.le, hchanges⟩,
      List.forall_mem_cons.mpr ⟨heq, hequals⟩⟩

theorem merged_equal {ls ls' : List Text} (hold : old.length ≤ ls.length) (ops : List DiffOp)
    {i j : ℕ} (ht : Tiles ls ls' i j ops) (hequal : ∀ op ∈ ops, op.tag = .equal) :
    merged old new ops = old.drop i := by
  induction ops generalizing i j with
  | nil =>
    obtain ⟨rfl, -⟩ := ht
    exact (List.drop_eq_nil_of_le hold).symm
  | cons op ops ih =>
    obtain ⟨rfl, rfl, hi, -, -, -, ht⟩ := ht
    obtain ⟨htag, hrest⟩ := List.forall_mem_cons.mp hequal
    rw [merged, if_pos htag, ih ht hrest, slice_append_drop old hi]

theorem length_merged_le {ls ls' : List Text} (ops : List DiffOp) {i j : ℕ}
    (ht : Tiles ls ls' i j ops) (hend : old.length ≤ i) :
    (merged old new ops).length ≤ (new.drop j).length := by
  induction ops generalizing i j with
  | nil => exact Nat.zero_le _
  | cons op ops ih =>
    obtain ⟨rfl, rfl, hi, hj, -, -, ht⟩ := ht
    have hle := ih ht (Nat.le_trans hend hi)
    have hsplit := congrArg List.length (slice_append_drop new hj)
    rw [List.length_append] at hsplit
    rw [merged, List.length_append]
    by_cases htag : op.tag = .equal
    · have hnone : slice old op.oldStart op.oldStop = [] := by
        rw [slice, List.drop_eq_nil_of_le]
        exact Nat.le_trans (List.length_take_le' _ _) hend
      rw [if_pos htag, hnone, List.length_nil]
      omega
    · rw [if_neg htag]
      omega

theorem mem_merged {ops : List DiffOp} {l : Text} (h : l ∈ merged old new ops) :
    l ∈ old ∨ l ∈ new := by
  have hslice {ls : List Text} {a b : ℕ} (h : l ∈ slice ls a b) : l ∈ ls :=
    List.mem_of_mem_take (List.mem_of_mem_drop h)
  induction ops with
  | nil => exact absurd h List.not_mem_nil
  | cons op ops ih =>
    rw [merged] at h
    rcases List.mem_append.mp h with h | h
    · split_ifs at h
      · exact .inl (hslice h)
      · exact .inr (hslice h)
    · exact ih h

end Merged

theorem slice_eq_take {α : Type*} (l : List α) (i j : ℕ) : slice l i j = (l.drop i).take (j - i) := by
  rw [slice, List.drop_take]

/-- **The first range of equal lines** holds equal lines when the merged lines are the new text. -/
theorem equal_of_merged {old new : Text} {ls ls' : List Text}
    (hold : (splitInclusive old).length ≤ ls.length) {op : DiffOp} {ops : List DiffOp}
    (ht : Tiles ls ls' op.oldStart op.newStart (op :: ops)) (htag : op.tag = .equal)
    (hchanges : ∀ op' ∈ ops, op'.tag ≠ .equal →
      op'.oldStop ≤ (splitInclusive old).length ∧ op'.newStop ≤ (splitInclusive new).length)
    (h : (merged (splitInclusive old) (splitInclusive new) (op :: ops)).flatten =
      ((splitInclusive new).drop op.newStart).flatten) :
    slice (splitInclusive old) op.oldStart op.oldStop =
        slice (splitInclusive new) op.newStart op.newStop ∧
      (merged (splitInclusive old) (splitInclusive new) ops).flatten =
        ((splitInclusive new).drop op.newStop).flatten := by
  have hlength := ht.equal_length htag
  obtain ⟨-, -, hi, hj, -, -, ht'⟩ := id ht
  have hbehind (ls : List Text) {a b : ℕ} (h : a ≤ b) : ls.drop b = (ls.drop a).drop (b - a) := by
    rw [List.drop_drop, Nat.add_sub_cancel' h]
  by_cases hlater : ∀ op' ∈ ops, op'.tag = .equal
  · -- nothing is changed any more: both texts end in the same lines
    have hall : ∀ op' ∈ op :: ops, op'.tag = .equal := List.forall_mem_cons.mpr ⟨htag, hlater⟩
    rw [merged_equal hold _ ht hall] at h
    have hlines : (splitInclusive old).drop op.oldStart = (splitInclusive new).drop op.newStart := by
      rw [← splitInclusive_drop old, ← splitInclusive_drop new, h]
    rw [merged_equal hold _ ht' hlater, slice_eq_take, slice_eq_take, hlines, hlength,
      hbehind _ hi, hbehind _ hj, hlines, hlength]
    exact ⟨rfl, rfl⟩
  · push Not at hlater
    obtain ⟨op', hop', hne⟩ := hlater
    have hbounds := hchanges op' hop' hne
    have hafter := ht'.mem_le hop'
    have hcount : (slice (splitInclusive old) op.oldStart op.oldStop).length =
        op.newStop - op.newStart := by
      rw [slice_eq_take, List.length_take, List.length_drop]
      omega
    rw [merged, if_pos htag] at h
    have hnew := congrArg splitInclusive h
    rw [splitInclusive_drop] at hnew
    by_cases hend : op.oldStop < (splitInclusive old).length
    · -- every line of the range ends, so the new lines begin with them
      have hended : ∀ l ∈ slice (splitInclusive old) op.oldStart op.oldStop, Ended l := fun l hl =>
        (ended_splitInclusive old).2 _ hend l (List.mem_of_mem_drop hl)
      rw [List.flatten_append, splitInclusive_flatten_ended hended] at hnew
      refine ⟨?_, ?_⟩
      · rw [slice_eq_take (splitInclusive new), ← hnew, ← hcount, List.take_left]
      · rw [hbehind _ hj, ← hnew, ← hcount, List.drop_left, flatten_splitInclusive]
    · -- the old lines end here, so there are no more merged lines than new ones
      have hle : (merged (splitInclusive old) (splitInclusive new) ops).length ≤
          ((splitInclusive new).drop op.newStop).length :=
        length_merged_le ops ht' (Nat.not_lt.mp hend)
      have hline : ∀ l ∈ merged (splitInclusive old) (splitInclusive new) (op :: ops), IsLine l :=
        fun l hl => (mem_merged hl).elim ((ended_splitInclusive old).1 l)
          ((ended_splitInclusive new).1 l)
      have hlines := (splitInclusive_lines hline).2
      rw [merged, if_pos htag, hnew, List.length_append, List.length_drop, hcount] at hlines
      rw [List.length_drop] at hle
      have hsame := hlines (by omega)
      refine ⟨?_, ?_⟩
      · rw [slice_eq_take (splitInclusive new), hsame, ← hcount, List.take_left]
      · rw [hbehind _ hj, hsame, ← hcount, List.drop_left]

theorem equals_of_merged {old new : Text} {ls ls' : List Text}
    (hold : (splitInclusive old).length ≤ ls.length) (ops : List DiffOp) {i j : ℕ}
    (ht : Tiles ls ls' i j ops) (hchanges : ∀ op ∈ ops, op.tag ≠ .equal →
      op.oldStop ≤ (splitInclusive old).length ∧ op.newStop ≤ (splitInclusive new).length)
    (h : (merged (splitInclusive old) (splitInclusive new) ops).flatten =
      ((splitInclusive new).drop j).flatten) :
    ∀ op ∈ ops, op.tag = .equal → slice (splitInclusive old) op.oldStart op.oldStop =
      slice (splitInclusive new) op.newStart op.newStop := by
  induction ops generalizing i j with
  | nil => exact fun op hop => absurd hop List.not_mem_nil
  | cons op ops ih =>
    obtain ⟨rfl, rfl, -, hj, -, -, ht'⟩ := id ht
    obtain ⟨-, hrest⟩ := List.forall_mem_cons.mp hchanges
    by_cases htag : op.tag = .equal
    · obtain ⟨heq, hflat⟩ := equal_of_merged hold ht htag hrest h
      exact List.forall_mem_cons.mpr ⟨fun _ => heq, ih ht' hrest hflat⟩
    · rw [merged, if_neg htag, ← slice_append_drop _ hj, List.flatten_append,
        List.flatten_append] at h
      exact List.forall_mem_cons.mpr
        ⟨fun he => absurd he htag, ih ht' hrest (List.append_cancel_left h)⟩

/-! ## The round trip -/

/-- The hunks of a diff do not panic, follow one another inside the text, and their change leads to
the other text. -/
def RoundTrips (old new : Text) (ops : List DiffOp) : Prop :=
  ∃ hs, hunksOf (lineOffsets old) (splitInclusive new) ops = some hs ∧ InOrder 0 hs old.length ∧
    ∃ c, changesetFromHunks hs old.length = some c ∧ c.lenBefore = old.length ∧ c.apply old = new

theorem InOrder.sortHunks {pos len : ℕ} {hs : List Hunk} (h : InOrder pos hs len) :
    sortHunks hs = hs := by
  refine List.Pairwise.insertionSort_eq ?_
  induction hs generalizing pos with
  | nil => exact .nil
  | cons k hs ih =>
    refine .cons (fun l hl => ?_) (ih h.2.2)
    have hk := h.2.1
    have hl := h.2.2.mem hl
    simp only [Hunk.Inside] at hl
    unfold Hunk.keyLe
    omega

/-- The change of hunks in order takes a text to what their script does. -/
theorem InOrder.apply {hs : List Hunk} {t : Text} (h : InOrder 0 hs t.length) :
    ∃ c, changesetFromHunks hs t.length = some c ∧ c.lenBefore = t.length ∧
      c.apply t = app (hunkScript 0 hs t.length) t := by
  obtain ⟨c, hc, hlen, htoks⟩ := changesetFromHunks_spec h.disjoint fun k hk => (h.mem hk).2
  rw [h.sortHunks] at htoks
  refine ⟨c, hc, hlen, ?_⟩
  calc c.apply t
      = app (nf (hunkScript 0 hs t.length)) t := by rw [c.apply_eq t hlen.symm, htoks]
    _ = app (hunkScript 0 hs t.length) t := app_nf _ _ (Nat.le_of_eq (pre_hunkScript h))

/-- **The hunks of a diff round-trip exactly when** its operations make sense over the lines that end
at LF alone, as they do where neither text has a lone CR. -/
theorem roundTrips_iff (old new : Text) (ops : List DiffOp)
    (ht : Tiles (similarLines old) (similarLines new) 0 0 ops) :
    (RoundTrips old new ops ↔ Reads (splitInclusive old) (splitInclusive new) ops) ∧
      (¬LoneCr old ∧ ¬LoneCr new → RoundTrips old new ops) := by
  obtain ⟨hagree, hold⟩ := similarLines_spec old
  obtain ⟨hagree', hnew⟩ := similarLines_spec new
  have hiff : RoundTrips old new ops ↔ Reads (splitInclusive old) (splitInclusive new) ops := by
    constructor
    · rintro ⟨hs, hhs, horder, c, hc, -, happly⟩
      have hchanges := changes_of_hunksOf hhs
      obtain ⟨hs', hhs', happ⟩ := hunksOf_app hold ops ht hchanges
      obtain rfl := Option.some.inj (hhs.symm.trans hhs')
      obtain ⟨c', hc', -, happly'⟩ := horder.apply
      obtain rfl := Option.some.inj (hc.symm.trans hc')
      refine ⟨hchanges, equals_of_merged hold ops ht hchanges ?_⟩
      rw [flatten_splitInclusive, List.drop_zero, flatten_splitInclusive] at happ
      rw [← happ, List.drop_zero, flatten_splitInclusive, ← happly, happly']
      rfl
    · intro h
      obtain ⟨hs, hhs, happ⟩ := hunksOf_app hold ops ht h.changes
      have horder := hunksOf_inOrder ht hhs (Nat.zero_le _)
      rw [merged_reads hnew ops ht h.equals] at happ
      simp only [List.drop_zero, flatten_splitInclusive] at happ horder
      obtain ⟨c, hc, hlen, happly⟩ := horder.apply
      exact ⟨hs, hhs, horder, c, hc, hlen, happly.trans happ⟩
  refine ⟨hiff, fun ⟨ho, hn⟩ => hiff.mpr ?_⟩
  rw [hagree ho, hagree' hn] at ht
  exact ht.reads

/-- A text with a lone CR against itself. -/
theorem roundTrips_iff_same :
    (RoundTrips ['a', '\r', 'b'] ['a', '\r', 'b'] [⟨.equal, 0, 2, 0, 2⟩] ↔
        Reads (splitInclusive ['a', '\r', 'b']) (splitInclusive ['a', '\r', 'b'])
          [⟨.equal, 0, 2, 0, 2⟩]) ∧
      (¬LoneCr ['a', '\r', 'b'] ∧ ¬LoneCr ['a', '\r', 'b'] →
        RoundTrips ['a', '\r', 'b'] ['a', '\r', 'b'] [⟨.equal, 0, 2, 0, 2⟩]) :=
  roundTrips_iff ['a', '\r', 'b'] ['a', '\r', 'b'] [⟨.equal, 0, 2, 0, 2⟩]
    ⟨rfl, rfl, by decide, by decide, by decide, fun _ => rfl, rfl, rfl⟩

/-- Behind a lone CR the last line of "a\rb" is looked up behind the end. -/
theorem not_roundTrips_loneCr : ¬∀ (old new : Text) (ops : List DiffOp),
    Tiles (similarLines old) (similarLines new) 0 0 ops → RoundTrips old new ops := by
  intro h
  have htiles := trimOps_tiles (similarLines ['a', '\r', 'b']) (similarLines ['a', '\r', 'c'])
  obtain ⟨hs, hhs, -⟩ := h ['a', '\r', 'b'] ['a', '\r', 'c'] _ htiles
  have hpanics : hunksOf (lineOffsets ['a', '\r', 'b']) (splitInclusive ['a', '\r', 'c'])
      (trimOps (similarLines ['a', '\r', 'b']) (similarLines ['a', '\r', 'c'])) = none := by decide
  rw [hpanics] at hhs
  cases hhs

end Termesh
