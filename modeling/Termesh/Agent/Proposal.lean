import Mathlib.Data.List.Sort
import Termesh.Agent.LineDiff
import Termesh.Core.Path
import Termesh.Editor.Decoration
import Termesh.Editor.Positions
import Termesh.Editor.Transaction

/-!
# Proposals as reviewable hunks

An agent hands over whole texts; the range edits between them are derived by a line diff and
carried onto the current text across the change that the same diff finds underneath them.

* `Hunk`, `hunksFromDiff`, `changesetFromHunks`, `rebaseHunks`, `EditProposal`;
* **`changesetFromHunks_spec`**: disjoint hunks inside the document build the change whose script is
  `hunkScript`;
* **`hunksFromDiff_spec`**: on texts whose lines agree the hunks are in order, apart, and lead from
  one text to the other.
-/

namespace Termesh

open EditScript

/-- One contiguous change, over a range of the document it is to be applied to. -/
structure Hunk where
  start : ℕ
  stop : ℕ
  text : Text
  state : HunkState := .clean
deriving DecidableEq, Repr

/-- `line_offsets`, from the offset `acc` on. -/
@[simp] def lineOffsetsFrom : List Text → ℕ → List ℕ
  | [], acc => [acc]
  | l :: ls, acc => acc :: lineOffsetsFrom ls (acc + l.length)

/-- Char offset of the start of each line, plus a sentinel for the end of the text. -/
def lineOffsets (text : Text) : List ℕ := lineOffsetsFrom (splitInclusive text) 0

/-- The hunk of one operation. `none` is an index out of bounds. -/
def hunkOf (offsets : List ℕ) (newLines : List Text) (op : DiffOp) : Option Hunk :=
  offsets[op.oldStart]?.bind fun start =>
    offsets[op.oldStop]?.bind fun stop =>
      if op.newStart ≤ op.newStop ∧ op.newStop ≤ newLines.length then
        some { start, stop, text := (slice newLines op.newStart op.newStop).flatten }
      else none

/-- The closure of `hunks_from_diff` over all operations. -/
@[simp] def hunksOf (offsets : List ℕ) (newLines : List Text) : List DiffOp → Option (List Hunk)
  | [] => some []
  | op :: ops =>
    if op.tag = .equal then hunksOf offsets newLines ops
    else (hunkOf offsets newLines op).bind fun h => (hunksOf offsets newLines ops).map (h :: ·)

/-- Derive review hunks from a whole-file before/after pair. -/
def hunksFromDiff (d : LineDiff) (old new : Text) : Option (List Hunk) :=
  hunksOf (lineOffsets old) (splitInclusive new) (d.ops old new)

/-- The sort key of hunks, `(start, end)`. -/
def Hunk.keyLe (h k : Hunk) : Prop := h.start < k.start ∨ h.start = k.start ∧ h.stop ≤ k.stop

instance : DecidableRel Hunk.keyLe := fun h k => by unfold Hunk.keyLe; infer_instance

/-- The loop of `changeset_from_hunks`. `none` is the overlap assertion or a range that underflows. -/
@[simp] def hunkLoop : List Hunk → ℕ → ChangeSetBuilder → Option ChangeSetBuilder
  | [], _, b => some b
  | h :: hs, pos, b =>
    if h.start < pos ∨ h.stop < h.start then none
    else hunkLoop hs h.stop (((b.retain (h.start - pos)).delete (h.stop - h.start)).insert h.text)

/-- The single change that applies `hunks` to a document of `lenBefore` chars. -/
def changesetFromHunks (hunks : List Hunk) (lenBefore : ℕ) : Option ChangeSet :=
  (hunkLoop (hunks.insertionSort Hunk.keyLe) 0 (ChangeSet.builder lenBefore)).bind
    ChangeSetBuilder.build

/-- Carry one hunk across the change the human made. -/
def rebaseHunk (human : List Hunk) (catchup : ChangeSet) (h : Hunk) : Hunk :=
  if human.any fun k => k.start == h.start && k.stop == h.stop && k.text == h.text then
    { h with state := .satisfied }
  else
    match ConflictReason.fromEffect (catchup.touches h.start h.stop) with
    | some reason => { h with state := .conflicted reason }
    | none => { h with start := catchup.mapPos h.start .after, stop := catchup.mapPos h.stop .after }

/-- Carry hunks authored against `baseText` onto `currentText`. -/
def rebaseHunks (d : LineDiff) (hunks : List Hunk) (baseText currentText : Text) :
    Option (List Hunk) :=
  if baseText = currentText then some hunks
  else
    (hunksFromDiff d baseText currentText).bind fun human =>
      (changesetFromHunks human baseText.length).map fun catchup =>
        hunks.map (rebaseHunk human catchup)

/-- A set of edits to one file, awaiting review. -/
structure EditProposal where
  id : ProposalId
  path : Path
  baseVersion : Option Version
  baseText : Text
  proposedText : Text
  hunks : List Hunk
deriving DecidableEq

namespace EditProposal

/-- The hunks of a proposal against the current text. -/
def hunksAgainst (d : LineDiff) (baseText proposedText currentText : Text) : Option (List Hunk) :=
  (hunksFromDiff d baseText proposedText).bind fun hunks =>
    rebaseHunks d hunks baseText currentText

/-- Recompute the hunks against the buffer as it stands now. -/
def refresh (d : LineDiff) (p : EditProposal) (currentText : Text) : Option EditProposal :=
  (hunksAgainst d p.baseText p.proposedText currentText).map fun hunks => { p with hunks }

/-- Build a proposal from a whole-file diff, anchored onto `currentText`. -/
def new (d : LineDiff) (id : ProposalId) (path : Path) (baseVersion : Option Version)
    (baseText proposedText currentText : Text) : Option EditProposal :=
  refresh d { id, path, baseVersion, baseText, proposedText, hunks := [] } currentText

/-- Hunks that would actually apply if accepted right now. -/
def applicable (p : EditProposal) : List Hunk := p.hunks.filter (·.state.isApplicable)

end EditProposal

/-! ## The change of a list of hunks -/

/-- The edit script of hunks in document order, from offset `pos` to the end `len`. -/
@[simp] def hunkScript : ℕ → List Hunk → ℕ → Script Char
  | pos, [], len => keeps (len - pos)
  | pos, h :: hs, len =>
    keeps (h.start - pos) ++ (drops (h.stop - h.start) ++ (adds h.text ++ hunkScript h.stop hs len))

/-- The hunks follow one another from offset `pos` to the end `len`. -/
@[simp] def InOrder : ℕ → List Hunk → ℕ → Prop
  | pos, [], len => pos ≤ len
  | pos, h :: hs, len => pos ≤ h.start ∧ h.start ≤ h.stop ∧ InOrder h.stop hs len

/-- Two hunks that do not overlap. -/
def Hunk.Disjoint (h k : Hunk) : Prop := h.stop ≤ k.start ∨ k.stop ≤ h.start

/-- A hunk inside a document of `len` characters. -/
def Hunk.Inside (len : ℕ) (h : Hunk) : Prop := h.start ≤ h.stop ∧ h.stop ≤ len

theorem InOrder.le {pos len : ℕ} {hs : List Hunk} (h : InOrder pos hs len) : pos ≤ len := by
  induction hs generalizing pos with
  | nil => exact h
  | cons k hs ih => exact Nat.le_trans h.1 (Nat.le_trans h.2.1 (ih h.2.2))

theorem InOrder.mem {pos len : ℕ} {hs : List Hunk} (h : InOrder pos hs len) {k : Hunk}
    (hk : k ∈ hs) : pos ≤ k.start ∧ k.Inside len := by
  induction hs generalizing pos with
  | nil => simp at hk
  | cons l hs ih =>
    rcases List.mem_cons.mp hk with rfl | hk
    · exact ⟨h.1, h.2.1, h.2.2.le⟩
    · exact ⟨Nat.le_trans (Nat.le_trans h.1 h.2.1) (ih h.2.2 hk).1, (ih h.2.2 hk).2⟩

instance : IsTrans Hunk Hunk.keyLe := ⟨fun _ _ _ h k => by unfold Hunk.keyLe at *; omega⟩

instance : Std.Total Hunk.keyLe := ⟨fun _ _ => by unfold Hunk.keyLe; omega⟩

theorem inOrder_of_pairwise {hs : List Hunk} {pos len : ℕ} (hk : hs.Pairwise Hunk.keyLe)
    (hd : hs.Pairwise Hunk.Disjoint) (hi : ∀ h ∈ hs, h.Inside len) (hp : ∀ h ∈ hs, pos ≤ h.start)
    (hl : pos ≤ len) : InOrder pos hs len := by
  induction hs generalizing pos with
  | nil => exact hl
  | cons h hs ih =>
    obtain ⟨hk1, hk2⟩ := List.pairwise_cons.mp hk
    obtain ⟨hd1, hd2⟩ := List.pairwise_cons.mp hd
    have hin := hi h List.mem_cons_self
    refine ⟨hp h List.mem_cons_self, hin.1, ih hk2 hd2
      (fun k hk => hi k (List.mem_cons_of_mem _ hk)) (fun k hm => ?_) hin.2⟩
    have h1 := hk1 k hm
    have h2 := hd1 k hm
    have h3 := hi k (List.mem_cons_of_mem _ hm)
    simp only [Hunk.keyLe, Hunk.Disjoint, Hunk.Inside] at h1 h2 h3 hin
    omega

theorem hunkLoop_spec (hs : List Hunk) (pos len : ℕ) (b : ChangeSetBuilder)
    (h : InOrder pos hs len) (hb : b.consumed = pos) (hl : b.lenBefore = len) :
    ∃ b', hunkLoop hs pos b = some b' ∧ b'.lenBefore = len ∧ b'.consumed ≤ len ∧
      nf (b'.toks ++ keeps (len - b'.consumed)) = nf (b.toks ++ hunkScript pos hs len) := by
  induction hs generalizing pos b with
  | nil => exact ⟨b, rfl, hl, by rw [hb]; exact h, by rw [hb]; rfl⟩
  | cons k hs ih =>
    obtain ⟨h1, h2, h3⟩ := h
    obtain ⟨b', hb', hl', hc', hn'⟩ := ih k.stop
      (((b.retain (k.start - pos)).delete (k.stop - k.start)).insert k.text) h3
      (show b.consumed + (k.start - pos) + (k.stop - k.start) = k.stop by omega) hl
    refine ⟨b', ?_, hl', hc', ?_⟩
    · rw [hunkLoop, if_neg (by omega)]
      exact hb'
    · rw [hn', ChangeSetBuilder.nf_insert_append, ChangeSetBuilder.nf_delete_append,
        ChangeSetBuilder.nf_retain_append]
      rfl

/-- The hunks as `changesetFromHunks` orders them. -/
abbrev sortHunks (hunks : List Hunk) : List Hunk := hunks.insertionSort Hunk.keyLe

theorem inOrder_sortHunks {hunks : List Hunk} {len : ℕ} (hd : hunks.Pairwise Hunk.Disjoint)
    (hi : ∀ h ∈ hunks, h.Inside len) : InOrder 0 (sortHunks hunks) len := by
  have hp := List.perm_insertionSort Hunk.keyLe hunks
  refine inOrder_of_pairwise (List.pairwise_insertionSort _ _) ?_ (fun h hh => hi h (hp.mem_iff.mp hh))
    (fun _ _ => Nat.zero_le _) (Nat.zero_le _)
  exact (hp.pairwise_iff fun h => h.symm).mpr hd

/-- **Disjoint hunks inside the document build its change.** -/
theorem changesetFromHunks_spec {hunks : List Hunk} {len : ℕ} (hd : hunks.Pairwise Hunk.Disjoint)
    (hi : ∀ h ∈ hunks, h.Inside len) :
    ∃ cs, changesetFromHunks hunks len = some cs ∧ cs.lenBefore = len ∧
      cs.toks = nf (hunkScript 0 (sortHunks hunks) len) := by
  obtain ⟨b, hb, hl, hc, hn⟩ := hunkLoop_spec _ 0 len (ChangeSet.builder len)
    (inOrder_sortHunks hd hi) rfl rfl
  obtain ⟨cs, hcs, hcl, ht⟩ := ChangeSetBuilder.build_some (b := b) (by rw [hl]; exact hc)
  refine ⟨cs, by rw [changesetFromHunks, hb]; exact hcs, hcl.trans hl, ?_⟩
  change toks cs.ops = _
  rw [ht, hl, hn]
  rfl

theorem app_hunkScript_nil (t : Text) (pos : ℕ) :
    app (hunkScript pos [] t.length) (t.drop pos) = t.drop pos := by
  have hlen : t.length - pos = (t.drop pos).length := List.length_drop.symm
  have happ := app_keeps [] (t.drop pos) []
  rw [List.append_nil, List.append_nil] at happ
  rw [hunkScript, hlen, happ]
  exact List.append_nil _

/-- The script of a hunk and those behind it: what is in front is kept, and the hunk's text stands in
place of what it drops. -/
theorem app_hunkScript_cons {h : Hunk} {t : Text} {pos : ℕ} (h₁ : pos ≤ h.start)
    (h₂ : h.start ≤ h.stop) (h₃ : h.stop ≤ t.length) (hs : List Hunk) :
    app (hunkScript pos (h :: hs) t.length) (t.drop pos) = (t.drop pos).take (h.start - pos) ++
      (h.text ++ app (hunkScript h.stop hs t.length) (t.drop h.stop)) := by
  have hkeep : ((t.drop pos).take (h.start - pos)).length = h.start - pos := by
    rw [List.length_take, List.length_drop]
    omega
  have hdrop : ((t.drop h.start).take (h.stop - h.start)).length = h.stop - h.start := by
    rw [List.length_take, List.length_drop]
    omega
  have hread : t.drop pos = (t.drop pos).take (h.start - pos) ++
      ((t.drop h.start).take (h.stop - h.start) ++ t.drop h.stop) := by
    have hrest : t.drop h.start = (t.drop pos).drop (h.start - pos) := by
      rw [List.drop_drop, Nat.add_sub_cancel' h₁]
    have hlast : t.drop h.stop = (t.drop h.start).drop (h.stop - h.start) := by
      rw [List.drop_drop, Nat.add_sub_cancel' h₂]
    rw [hlast, List.take_append_drop, hrest, List.take_append_drop]
  have hk := app_keeps (drops (h.stop - h.start) ++ (adds h.text ++
    hunkScript h.stop hs t.length)) ((t.drop pos).take (h.start - pos))
    ((t.drop h.start).take (h.stop - h.start) ++ t.drop h.stop)
  have hd := app_drops (adds h.text ++ hunkScript h.stop hs t.length)
    ((t.drop h.start).take (h.stop - h.start)) (t.drop h.stop)
  rw [hkeep, ← hread] at hk
  rw [hdrop] at hd
  rw [hunkScript, hk, hd, app_adds]

theorem pre_hunkScript {pos len : ℕ} {hs : List Hunk} (h : InOrder pos hs len) :
    pre (hunkScript pos hs len) = len - pos := by
  induction hs generalizing pos with
  | nil => simp [hunkScript]
  | cons k hs ih =>
    have := h.2.2.le
    simp only [hunkScript, pre_append, pre_keeps, pre_drops, pre_adds, ih h.2.2]
    have := h.1
    have := h.2.1
    omega

/-- What the hunks drop: the characters of their ranges. -/
theorem dropAt_hunkScript {pos len : ℕ} {hs : List Hunk} (h : InOrder pos hs len) (j : ℕ) :
    dropAt (hunkScript pos hs len) j = true ↔ ∃ k ∈ hs, k.start ≤ pos + j ∧ pos + j < k.stop := by
  induction hs generalizing pos j with
  | nil => simp [hunkScript]
  | cons k hs ih =>
    obtain ⟨h1, h2, h3⟩ := h
    simp only [hunkScript, dropAt_append, pre_keeps, pre_drops, pre_adds, dropAt_keeps, dropAt_drops,
      List.mem_cons, exists_eq_or_imp]
    by_cases c1 : j < k.start - pos
    · rw [if_pos c1]
      refine iff_of_false (by simp) ?_
      rintro (⟨h4, -⟩ | ⟨k', hk', h4, -⟩)
      · omega
      · have := (h3.mem hk').1; omega
    · rw [if_neg c1]
      by_cases c2 : j - (k.start - pos) < k.stop - k.start
      · rw [if_pos c2]
        exact iff_of_true (decide_eq_true c2) (.inl ⟨by omega, by omega⟩)
      · rw [if_neg c2, if_neg (Nat.not_lt_zero _), ih h3]
        have e : k.stop + (j - (k.start - pos) - (k.stop - k.start) - 0) = pos + j := by omega
        rw [e]
        refine ⟨.inr, ?_⟩
        rintro (⟨-, h5⟩ | h4)
        · omega
        · exact h4

/-- Where the hunks add: their texts, at the end of their ranges. -/
theorem addAt_hunkScript {pos len : ℕ} {hs : List Hunk} (h : InOrder pos hs len) (j : ℕ) :
    addAt (hunkScript pos hs len) j = true ↔ ∃ k ∈ hs, k.text ≠ [] ∧ k.stop = pos + j := by
  induction hs generalizing pos j with
  | nil => simp [hunkScript]
  | cons k hs ih =>
    obtain ⟨h1, h2, h3⟩ := h
    simp only [hunkScript, addAt_append, pre_keeps, pre_drops, pre_adds, addAt_keeps, addAt_drops,
      addAt_adds, Bool.false_or, Nat.zero_le, decide_true, Bool.true_and, Nat.sub_zero,
      Bool.and_eq_true, Bool.or_eq_true, decide_eq_true_eq, Bool.not_eq_true',
      List.isEmpty_eq_false_iff, List.mem_cons, exists_eq_or_imp, ih h3]
    constructor
    · rintro ⟨c1, c2, ⟨c3, ht⟩ | ⟨k', hk', ht, hs'⟩⟩
      · exact .inl ⟨ht, by omega⟩
      · exact .inr ⟨k', hk', ht, by omega⟩
    · rintro (⟨ht, hs'⟩ | ⟨k', hk', ht, hs'⟩)
      · exact ⟨by omega, by omega, .inl ⟨by omega, ht⟩⟩
      · have := h3.mem hk'
        unfold Hunk.Inside at this
        exact ⟨by omega, by omega, .inr ⟨k', hk', ht, by omega⟩⟩

/-! ## Hunks of a diff -/

/-- Hunks as a diff leaves them: clean, not void, and with text kept between any two. -/
structure Separated (len : ℕ) (hs : List Hunk) : Prop where
  inOrder : InOrder 0 hs len
  apart : hs.Pairwise fun h k => h.stop < k.start
  filled : ∀ h ∈ hs, h.start < h.stop ∨ h.text ≠ []
  clean : ∀ h ∈ hs, h.state = .clean

theorem Separated.sortHunks {len : ℕ} {hs : List Hunk} (h : Separated len hs) :
    sortHunks hs = hs := by
  refine List.Pairwise.insertionSort_eq (h.apart.imp_of_mem fun {a b} ha hb hab => ?_)
  have := (h.inOrder.mem ha).2
  exact .inl (Nat.lt_of_le_of_lt this.1 hab)

theorem Separated.disjoint {len : ℕ} {hs : List Hunk} (h : Separated len hs) :
    hs.Pairwise Hunk.Disjoint := h.apart.imp fun hab => .inl (Nat.le_of_lt hab)

theorem nf_hunkScript {pos len : ℕ} {hs : List Hunk} (h : hs.Pairwise fun h k => h.stop < k.start) :
    nf (hunkScript pos hs len) = hunkScript pos hs len := by
  induction hs generalizing pos with
  | nil => simpa [hunkScript, nf] using nf_keeps (len - pos) ([] : Script Char)
  | cons k hs ih =>
    obtain ⟨h1, h2⟩ := List.pairwise_cons.mp h
    have ih := @ih k.stop h2
    rw [hunkScript, nf_keeps, nf_drops]
    congr 2
    -- what follows an insertion is the end or a kept character
    cases hn : hunkScript k.stop hs len with
    | nil => rw [List.append_nil, nf_adds]
    | cons x s =>
      rw [hn] at ih
      have hx : x = .keep := by
        cases hs with
        | nil =>
          rw [hunkScript] at hn
          have : x ∈ (keeps (len - k.stop) : Script Char) := by rw [hn]; exact List.mem_cons_self
          exact (List.mem_replicate.mp this).2
        | cons l hs =>
          obtain ⟨m, hm⟩ := Nat.exists_eq_add_of_lt (h1 l List.mem_cons_self)
          have : l.start - k.stop = m + 1 := by omega
          rw [hunkScript, this] at hn
          exact (List.cons.inj hn).1.symm
      subst hx
      rw [nf_adds_keep, ← ih]
      rfl

/-- The offset of line `i`. -/
def lineOffset (ls : List Text) (i : ℕ) : ℕ := (ls.take i).flatten.length

theorem lineOffsetsFrom_get (ls : List Text) (acc : ℕ) {i : ℕ} (h : i ≤ ls.length) :
    (lineOffsetsFrom ls acc)[i]? = some (acc + lineOffset ls i) := by
  induction ls generalizing acc i with
  | nil =>
    obtain rfl : i = 0 := by simpa using h
    rfl
  | cons l ls ih =>
    cases i with
    | zero => rfl
    | succ i =>
      have := ih (acc + l.length) (Nat.le_of_succ_le_succ h)
      rw [lineOffsetsFrom, List.getElem?_cons_succ, this]
      simp [lineOffset, Nat.add_assoc]

theorem lineOffsetsFrom_some {ls : List Text} {i n : ℕ}
    (h : (lineOffsetsFrom ls 0)[i]? = some n) : n = lineOffset ls i := by
  have hlen : ∀ (ls : List Text) (acc : ℕ), (lineOffsetsFrom ls acc).length = ls.length + 1 := by
    intro ls
    induction ls with
    | nil => intro acc; rfl
    | cons l ls ih => intro acc; rw [lineOffsetsFrom, List.length_cons, ih, List.length_cons]
  have hi : i < ls.length + 1 := by
    rw [← hlen ls 0]
    exact (List.getElem?_eq_some_iff.mp h).1
  rw [lineOffsetsFrom_get ls 0 (Nat.le_of_lt_succ hi), Nat.zero_add] at h
  exact (Option.some.inj h).symm

theorem lineOffset_le (ls : List Text) (i : ℕ) : lineOffset ls i ≤ ls.flatten.length := by
  have h := congrArg List.length (congrArg List.flatten (List.take_append_drop i ls))
  rw [List.flatten_append, List.length_append] at h
  exact Nat.le.intro h

theorem slice_append_drop {α : Type*} (l : List α) {i j : ℕ} (h : i ≤ j) :
    slice l i j ++ l.drop j = l.drop i := by
  have := List.take_append_drop (j - i) (l.drop i)
  rwa [List.drop_drop, Nat.add_sub_cancel' h, ← List.drop_take] at this

theorem lineOffset_slice (ls : List Text) {i j : ℕ} (h : i ≤ j) :
    lineOffset ls j = lineOffset ls i + (slice ls i j).flatten.length := by
  have : ls.take j = ls.take i ++ slice ls i j := by
    have := List.take_append_drop i (ls.take j)
    rw [List.take_take, Nat.min_eq_left h] at this
    exact this.symm
  rw [lineOffset, this, List.flatten_append, List.length_append]
  rfl

theorem flatten_slice_ne_nil {ls : List Text} (hne : ∀ l ∈ ls, l ≠ []) {i j : ℕ} (h : i < j)
    (hj : j ≤ ls.length) : (slice ls i j).flatten ≠ [] := by
  have hlen : (slice ls i j).length = j - i := by simp [slice, hj]
  cases hs : slice ls i j with
  | nil => rw [hs] at hlen; simp at hlen; omega
  | cons l s =>
    have : l ∈ slice ls i j := by rw [hs]; exact List.mem_cons_self
    intro he
    exact hne l (List.mem_of_mem_take (List.mem_of_mem_drop this))
      (List.append_eq_nil_iff.mp (List.flatten_cons ▸ he)).1

theorem hunkScript_skip {pos pos' len : ℕ} {hs : List Hunk} (h : InOrder pos' hs len)
    (hp : pos ≤ pos') : hunkScript pos hs len = keeps (pos' - pos) ++ hunkScript pos' hs len := by
  cases hs with
  | nil =>
    have : len - pos = pos' - pos + (len - pos') := by have := h.le; omega
    rw [hunkScript, hunkScript, this, keeps_add]
  | cons k hs =>
    have : k.start - pos = pos' - pos + (k.start - pos') := by have := h.1; omega
    rw [hunkScript, hunkScript, this, keeps_add, List.append_assoc]

theorem InOrder.mono {pos pos' len : ℕ} {hs : List Hunk} (h : InOrder pos' hs len)
    (hp : pos ≤ pos') : InOrder pos hs len := by
  cases hs with
  | nil => exact Nat.le_trans hp h
  | cons k hs => exact ⟨Nat.le_trans hp h.1, h.2⟩

theorem hunkOf_some {old newLines : List Text} {op : DiffOp} {k : Hunk}
    (h : hunkOf (lineOffsetsFrom old 0) newLines op = some k) :
    k.start = lineOffset old op.oldStart ∧ k.stop = lineOffset old op.oldStop ∧
      k.state = .clean := by
  obtain ⟨s, hs, h⟩ := Option.bind_eq_some_iff.mp h
  obtain ⟨e, he, h⟩ := Option.bind_eq_some_iff.mp h
  split_ifs at h
  rw [← Option.some.inj h]
  exact ⟨lineOffsetsFrom_some hs, lineOffsetsFrom_some he, rfl⟩

theorem mem_hunksOf {offsets : List ℕ} {newLines : List Text} {ops : List DiffOp} {hs : List Hunk}
    (h : hunksOf offsets newLines ops = some hs) (k : Hunk) :
    k ∈ hs ↔ ∃ op ∈ ops, op.tag ≠ .equal ∧ hunkOf offsets newLines op = some k := by
  induction ops generalizing hs with
  | nil => cases h; simp
  | cons op ops ih =>
    rw [hunksOf] at h
    by_cases ht : op.tag = .equal
    · rw [if_pos ht] at h
      simp [ih h, ht]
    · rw [if_neg ht] at h
      obtain ⟨k₀, hk, h⟩ := Option.bind_eq_some_iff.mp h
      obtain ⟨hs', hs, rfl⟩ := Option.map_eq_some_iff.mp h
      simp only [List.mem_cons, ih hs, exists_eq_or_imp, hk, Option.some.injEq, ne_eq, ht,
        not_false_eq_true, true_and, eq_comm (a := k)]

/-- The hunks of operations that tile follow one another, whatever the lines are taken to be. -/
theorem hunksOf_inOrder {old newLines ls ls' : List Text} {ops : List DiffOp} {i j pos : ℕ}
    {hs : List Hunk} (ht : Tiles ls ls' i j ops)
    (h : hunksOf (lineOffsetsFrom old 0) newLines ops = some hs) (hp : pos ≤ lineOffset old i) :
    InOrder pos hs old.flatten.length := by
  induction ops generalizing i j pos hs with
  | nil =>
    cases h
    exact Nat.le_trans hp (lineOffset_le old i)
  | cons op ops ih =>
    obtain ⟨rfl, -, hi, -, -, -, ht⟩ := ht
    have hmono : lineOffset old op.oldStart ≤ lineOffset old op.oldStop := by
      have := lineOffset_slice old hi
      omega
    rw [hunksOf] at h
    split_ifs at h
    · exact ih ht h (Nat.le_trans hp hmono)
    · obtain ⟨k, hk, h⟩ := Option.bind_eq_some_iff.mp h
      obtain ⟨hs', hs, rfl⟩ := Option.map_eq_some_iff.mp h
      obtain ⟨h1, h2, -⟩ := hunkOf_some hk
      exact ⟨by omega, by omega, ih ht hs (by omega)⟩

theorem InOrder.disjoint {pos len : ℕ} {hs : List Hunk} (h : InOrder pos hs len) :
    hs.Pairwise Hunk.Disjoint := by
  induction hs generalizing pos with
  | nil => exact .nil
  | cons k hs ih =>
    exact List.pairwise_cons.mpr ⟨fun l hl => .inl (h.2.2.mem hl).1, ih h.2.2⟩

section Tiled

variable {old new : List Text} (ho : ∀ l ∈ old, l ≠ []) (hn : ∀ l ∈ new, l ≠ [])

include ho hn

theorem hunksOf_spec (ops : List DiffOp) (i j : ℕ) (ht : Tiles old new i j ops)
    (ha : ops.IsChain fun a b => a.tag = .equal ∨ b.tag = .equal) :
    ∃ hs, hunksOf (lineOffsetsFrom old 0) new ops = some hs ∧
      InOrder (lineOffset old i) hs old.flatten.length ∧
      hs.Pairwise (fun h k => h.stop < k.start) ∧
      (∀ h ∈ hs, (h.start < h.stop ∨ h.text ≠ []) ∧ h.state = .clean) ∧
      ((∃ op ∈ ops.head?, op.tag = .equal) → ∀ h ∈ hs, lineOffset old i < h.start) ∧
      app (hunkScript (lineOffset old i) hs old.flatten.length) (old.drop i).flatten =
        (new.drop j).flatten := by
  induction ops generalizing i j with
  | nil =>
    obtain ⟨rfl, rfl⟩ := ht
    refine ⟨[], rfl, ?_, .nil, by simp, by simp, ?_⟩
    · rw [InOrder, lineOffset, List.take_length]
    · simp [lineOffset, hunkScript, app]
  | cons op ops ih =>
    obtain ⟨rfl, rfl, hi, hj, hfill, heq, ht'⟩ := ht
    have hle := ht'.le
    obtain ⟨hs, h1, h2, h3, h4, h5, h6⟩ := ih _ _ ht' ha.tail
    have hoff := lineOffset_slice old hi
    by_cases htag : op.tag = .equal
    · -- kept lines: both texts advance over the same characters
      have hs' := heq htag
      have hlen : op.oldStop - op.oldStart = op.newStop - op.newStart := by
        have := congrArg List.length hs'
        simpa [slice, hle.1, hle.2] using this
      have hpos : lineOffset old op.oldStart < lineOffset old op.oldStop := by
        have := flatten_slice_ne_nil ho (i := op.oldStart) (j := op.oldStop) (by omega) hle.1
        have := List.length_pos_iff.mpr this
        omega
      refine ⟨hs, by rw [hunksOf, if_pos htag, h1], h2.mono (by omega), h3, h4,
        fun _ h hh => Nat.lt_of_lt_of_le hpos (h2.mem hh).1, ?_⟩
      have hk := app_keeps (hunkScript (lineOffset old op.oldStop) hs old.flatten.length)
        (slice old op.oldStart op.oldStop).flatten (old.drop op.oldStop).flatten
      rw [← List.flatten_append, slice_append_drop _ hi] at hk
      rw [hunkScript_skip h2 (by omega), hoff, Nat.add_sub_cancel_left, ← hoff, hk, h6, hs',
        ← List.flatten_append, slice_append_drop _ hj]
    · -- a change: the next operation keeps something, so later hunks start strictly behind it
      have hnext : ∀ k ∈ hs, lineOffset old op.oldStop < k.start := by
        cases ops with
        | nil => obtain rfl : [] = hs := by simpa [hunksOf] using h1
                 simp
        | cons op' ops =>
          have := (List.isChain_cons_cons.mp ha).1.resolve_left htag
          exact h5 ⟨op', rfl, this⟩
      have hfillh : lineOffset old op.oldStart < lineOffset old op.oldStop ∨
          (slice new op.newStart op.newStop).flatten ≠ [] := by
        rcases hfill with hfill | hfill
        · have := List.length_pos_iff.mpr (flatten_slice_ne_nil ho hfill hle.1)
          exact .inl (by omega)
        · exact .inr (flatten_slice_ne_nil hn hfill hle.2)
      refine ⟨⟨lineOffset old op.oldStart, lineOffset old op.oldStop,
        (slice new op.newStart op.newStop).flatten, .clean⟩ :: hs, ?_, ?_, ?_, ?_, ?_, ?_⟩
      · rw [hunksOf, if_neg htag, hunkOf, lineOffsetsFrom_get _ _ (Nat.le_trans hi hle.1),
          lineOffsetsFrom_get _ _ hle.1, h1]
        simp [hj, hle.2]
      · exact ⟨Nat.le_refl _, by simp only; omega, h2⟩
      · exact List.pairwise_cons.mpr ⟨hnext, h3⟩
      · intro h hh
        rcases List.mem_cons.mp hh with rfl | hh
        · exact ⟨hfillh, rfl⟩
        · exact h4 h hh
      · rintro ⟨op', hop, he⟩
        obtain rfl : op = op' := by simpa using hop
        exact absurd he htag
      · have hd := app_drops (adds (slice new op.newStart op.newStop).flatten ++
            hunkScript (lineOffset old op.oldStop) hs old.flatten.length)
          (slice old op.oldStart op.oldStop).flatten (old.drop op.oldStop).flatten
        rw [← List.flatten_append, slice_append_drop _ hi, app_adds, h6, ← List.flatten_append,
          slice_append_drop _ hj] at hd
        have hlen : lineOffset old op.oldStop - lineOffset old op.oldStart =
          (slice old op.oldStart op.oldStop).flatten.length := by omega
        rw [hunkScript, Nat.sub_self, hlen]
        exact hd

end Tiled

/-- **Hunks of a diff** of texts whose lines agree: separated, and leading from one text to the
other. -/
theorem hunksFromDiff_spec (d : LineDiff) {old new : Text} (ho : LinesAgree old)
    (hn : LinesAgree new) :
    ∃ hs, hunksFromDiff d old new = some hs ∧ Separated old.length hs ∧
      app (hunkScript 0 hs old.length) old = new := by
  have ht := d.tiles old new
  rw [ho, hn] at ht
  obtain ⟨hs, h1, h2, h3, h4, -, h6⟩ := hunksOf_spec (splitInclusive_ne_nil old)
    (splitInclusive_ne_nil new) _ 0 0 ht (d.apart old new)
  rw [flatten_splitInclusive] at h2 h6
  refine ⟨hs, h1, ⟨h2, h3, fun h hh => (h4 h hh).1, fun h hh => (h4 h hh).2⟩, ?_⟩
  rwa [List.drop_zero, List.drop_zero, flatten_splitInclusive, flatten_splitInclusive] at h6

theorem hunksFromDiff_inOrder {d : LineDiff} {old new : Text} {hs : List Hunk}
    (h : hunksFromDiff d old new = some hs) : InOrder 0 hs old.length := by
  have := hunksOf_inOrder (d.tiles old new) h (Nat.zero_le _)
  rwa [flatten_splitInclusive] at this

theorem covered_iff {d : LineDiff} {old new : Text} {hs : List Hunk}
    (h : hunksFromDiff d old new = some hs) (i : ℕ) :
    (∃ k ∈ hs, k.start ≤ i ∧ i < k.stop) ↔
      ∃ op ∈ d.ops old new, op.tag ≠ .equal ∧
        lineOffset (splitInclusive old) op.oldStart ≤ i ∧
        i < lineOffset (splitInclusive old) op.oldStop := by
  have hall : ∀ (ops : List DiffOp) {hs : List Hunk},
      hunksOf (lineOffsets old) (splitInclusive new) ops = some hs → ∀ op ∈ ops, op.tag ≠ .equal →
        ∃ k, hunkOf (lineOffsets old) (splitInclusive new) op = some k := by
    intro ops
    induction ops with
    | nil => intro hs _ op ho; simp at ho
    | cons o ops ih =>
      intro hs h op ho ht
      rw [hunksOf] at h
      split_ifs at h with hto
      · rcases List.mem_cons.mp ho with rfl | ho
        · exact absurd hto ht
        · exact ih h op ho ht
      · obtain ⟨k, hk, h⟩ := Option.bind_eq_some_iff.mp h
        obtain ⟨hs', hs, -⟩ := Option.map_eq_some_iff.mp h
        rcases List.mem_cons.mp ho with rfl | ho
        · exact ⟨k, hk⟩
        · exact ih hs op ho ht
  constructor
  · rintro ⟨k, hk, h1, h2⟩
    obtain ⟨op, ho, ht, hop⟩ := (mem_hunksOf h k).mp hk
    obtain ⟨hs, he, -⟩ := hunkOf_some hop
    exact ⟨op, ho, ht, by omega, by omega⟩
  · rintro ⟨op, ho, ht, h1, h2⟩
    obtain ⟨k, hop⟩ := hall _ h op ho ht
    obtain ⟨hs, he, -⟩ := hunkOf_some hop
    exact ⟨k, (mem_hunksOf h k).mpr ⟨op, ho, ht, hop⟩, by omega, by omega⟩

theorem hunksFromDiff_self (d : LineDiff) (t : Text) : hunksFromDiff d t t = some [] := by
  have key : ∀ (ops : List DiffOp) (offsets : List ℕ) (ls : List Text),
      (∀ op ∈ ops, op.tag = .equal) → hunksOf offsets ls ops = some [] := by
    intro ops offsets ls h
    induction ops with
    | nil => rfl
    | cons op ops ih =>
      rw [hunksOf, if_pos (h op List.mem_cons_self)]
      exact ih fun o ho => h o (List.mem_cons_of_mem _ ho)
  exact key _ _ _ (d.identical t)

end Termesh
