import Termesh.App.InSync

/-!
# Server edits as one simultaneous splice

The edits of a server come in any order, and their positions are clamped to the document. The change
built from them writes what replacing all their ranges at once writes.

* `spliced`: every offset of the document with what is inserted, replaced or kept there;
* **`buildLspChanges_spliced`**: the change of a list of edits, and exactly when it is refused;
* `Hunk.Repeats`, **`spliced_repeats`**: edits that write what stands there change nothing.
-/

namespace Termesh

open EditScript

/-! ## The splice -/

/-- What is inserted at offset `p`. -/
def insertedAt (hs : List Hunk) (p : ℕ) : Text :=
  (hs.filter fun k => k.start = p ∧ k.stop = p).flatMap (·.text)

/-- What replaces a range that starts at offset `p`. -/
def replacedAt (hs : List Hunk) (p : ℕ) : Text :=
  (hs.filter fun k => k.start = p ∧ p < k.stop).flatMap (·.text)

/-- What stands at offset `p` once all hunks are spliced in: the insertions at `p`, then the text for
a range that starts at `p`, then the character at `p` unless a range covers it. -/
def splicedAt (hs : List Hunk) (t : Text) (p : ℕ) : Text :=
  insertedAt hs p ++
    (replacedAt hs p ++ if ∃ k ∈ hs, k.start ≤ p ∧ p < k.stop then [] else t[p]?.toList)

/-- The text with all hunks spliced in at once. -/
def spliced (hs : List Hunk) (t : Text) : Text :=
  (List.range (t.length + 1)).flatMap (splicedAt hs t)

/-- The splice from offset `pos` on. -/
def splicedFrom (hs : List Hunk) (t : Text) (pos : ℕ) : Text :=
  (List.range' pos (t.length + 1 - pos)).flatMap (splicedAt hs t)

section SplicedAt

variable {k : Hunk} {hs : List Hunk} {t : Text} {p : ℕ}

theorem insertedAt_of_before (h : ∀ k ∈ hs, p < k.start) : insertedAt hs p = [] := by
  have hnone : hs.filter (fun k => k.start = p ∧ k.stop = p) = [] :=
    List.filter_eq_nil_iff.mpr fun k hk => by simp [Nat.ne_of_gt (h k hk)]
  rw [insertedAt, hnone]
  rfl

theorem replacedAt_of_before (h : ∀ k ∈ hs, p < k.start) : replacedAt hs p = [] := by
  have hnone : hs.filter (fun k => k.start = p ∧ p < k.stop) = [] :=
    List.filter_eq_nil_iff.mpr fun k hk => by simp [Nat.ne_of_gt (h k hk)]
  rw [replacedAt, hnone]
  rfl

theorem insertedAt_cons (k : Hunk) (hs : List Hunk) (p : ℕ) : insertedAt (k :: hs) p =
    (if k.start = p ∧ k.stop = p then k.text else []) ++ insertedAt hs p := by
  by_cases h : k.start = p ∧ k.stop = p <;> simp [insertedAt, h]

theorem replacedAt_cons (k : Hunk) (hs : List Hunk) (p : ℕ) : replacedAt (k :: hs) p =
    (if k.start = p ∧ p < k.stop then k.text else []) ++ replacedAt hs p := by
  by_cases h : k.start = p ∧ p < k.stop <;> simp [replacedAt, h]

theorem splicedAt_of_before (h : ∀ k ∈ hs, p < k.start) : splicedAt hs t p = t[p]?.toList := by
  have hnone : ¬∃ k ∈ hs, k.start ≤ p ∧ p < k.stop := by
    rintro ⟨k, hk, hle, -⟩
    exact Nat.not_lt.mpr hle (h k hk)
  rw [splicedAt, insertedAt_of_before h, replacedAt_of_before h, if_neg hnone]
  rfl

theorem splicedAt_insertion (h : k.start = p) (h' : k.stop = p) :
    splicedAt (k :: hs) t p = k.text ++ splicedAt hs t p := by
  simp [splicedAt, insertedAt_cons, replacedAt_cons, h, h']

theorem splicedAt_replacement (h : k.start = p) (h' : p < k.stop) (hs' : ∀ k ∈ hs, p < k.start) :
    splicedAt (k :: hs) t p = k.text := by
  have hk : k.stop ≠ p := Nat.ne_of_gt h'
  simp [splicedAt, insertedAt_cons, replacedAt_cons, insertedAt_of_before hs',
    replacedAt_of_before hs', h, h', hk]

theorem splicedAt_inside (h : k.start < p) (h' : p < k.stop) (hs' : ∀ k ∈ hs, p < k.start) :
    splicedAt (k :: hs) t p = [] := by
  have hk : k.start ≠ p := Nat.ne_of_lt h
  simp [splicedAt, insertedAt_cons, replacedAt_cons, insertedAt_of_before hs',
    replacedAt_of_before hs', h', hk, Nat.le_of_lt h]

theorem splicedAt_behind (h : k.start < p) (h' : k.stop ≤ p) :
    splicedAt (k :: hs) t p = splicedAt hs t p := by
  have hk : k.start ≠ p := Nat.ne_of_lt h
  simp [splicedAt, insertedAt_cons, replacedAt_cons, hk, Nat.not_lt.mpr h']

end SplicedAt

/-! ## Along the hunks -/

theorem flatMap_kept (t : Text) (pos n : ℕ) :
    (List.range' pos n).flatMap (fun p => t[p]?.toList) = (t.drop pos).take n := by
  induction n generalizing pos with
  | zero => simp
  | succ n ih =>
    rw [List.range'_succ, List.flatMap_cons, ih]
    cases ht : t.drop pos with
    | nil =>
      have hlen : t.length ≤ pos := List.drop_eq_nil_iff.mp ht
      have hdrop : t.drop (pos + 1) = [] := List.drop_eq_nil_iff.mpr (by omega)
      simp [hdrop, List.getElem?_eq_none hlen]
    | cons c r =>
      have hc : t[pos]? = some c := by
        rw [← List.head?_drop, ht]
        rfl
      have hr : t.drop (pos + 1) = r := by rw [← List.tail_drop, ht]; rfl
      simp [hc, hr]

theorem splicedFrom_split {hs : List Hunk} {t : Text} {pos q : ℕ} (h : pos ≤ q)
    (hq : q ≤ t.length + 1) : splicedFrom hs t pos =
      (List.range' pos (q - pos)).flatMap (splicedAt hs t) ++ splicedFrom hs t q := by
  have hsum : t.length + 1 - pos = (q - pos) + (t.length + 1 - q) := by omega
  have hat : pos + 1 * (q - pos) = q := by omega
  rw [splicedFrom, splicedFrom, hsum, ← List.range'_append, hat, List.flatMap_append]

theorem splicedFrom_succ {hs : List Hunk} {t : Text} {pos : ℕ} (h : pos ≤ t.length) :
    splicedFrom hs t pos = splicedAt hs t pos ++ splicedFrom hs t (pos + 1) := by
  have hone : List.range' pos (pos + 1 - pos) = [pos] := by
    rw [Nat.add_sub_cancel_left]
    rfl
  rw [splicedFrom_split (Nat.le_succ pos) (Nat.succ_le_succ h), hone, List.flatMap_singleton]

theorem splicedFrom_congr {hs ks : List Hunk} {t : Text} {pos : ℕ}
    (h : ∀ p, pos ≤ p → splicedAt hs t p = splicedAt ks t p) :
    splicedFrom hs t pos = splicedFrom ks t pos :=
  List.flatMap_congr fun p hp => h p (List.mem_range'_1.mp hp).1

/-- **Hunks in document order write the splice.** -/
theorem app_hunkScript {hs : List Hunk} {t : Text} {pos : ℕ} (h : InOrder pos hs t.length) :
    app (hunkScript pos hs t.length) (t.drop pos) = splicedFrom hs t pos := by
  induction hs generalizing pos with
  | nil =>
    have hkept : splicedFrom [] t pos = t.drop pos := by
      have hall : splicedFrom [] t pos =
          (List.range' pos (t.length + 1 - pos)).flatMap fun p => t[p]?.toList :=
        List.flatMap_congr fun p _ => splicedAt_of_before fun k hk => nomatch hk
      rw [hall, flatMap_kept, List.take_of_length_le]
      rw [List.length_drop]
      omega
    rw [hkept, app_hunkScript_nil]
  | cons k hs ih =>
    obtain ⟨h₁, h₂, h₃⟩ := h
    have hlen := h₃.le
    have hstarts : ∀ l ∈ hs, k.stop ≤ l.start := fun l hl => (h₃.mem hl).1
    -- in front of the hunk
    have hfront : splicedFrom (k :: hs) t pos =
        (t.drop pos).take (k.start - pos) ++ splicedFrom (k :: hs) t k.start := by
      rw [splicedFrom_split h₁ (by omega), ← flatMap_kept]
      refine congrArg (· ++ _) (List.flatMap_congr fun p hp => splicedAt_of_before ?_)
      obtain ⟨-, hp⟩ := List.mem_range'_1.mp hp
      intro l hl
      rcases List.mem_cons.mp hl with rfl | hl
      · omega
      · have := hstarts l hl
        omega
    -- the hunk itself
    have hhunk : splicedFrom (k :: hs) t k.start = k.text ++ splicedFrom hs t k.stop := by
      have hstart : k.start ≤ t.length := by omega
      rw [splicedFrom_succ hstart]
      by_cases hempty : k.start = k.stop
      · rw [splicedAt_insertion rfl hempty.symm, ← hempty, splicedFrom_succ hstart,
          List.append_assoc]
        refine congrArg (fun r => k.text ++ (_ ++ r)) (splicedFrom_congr fun p hp => ?_)
        exact splicedAt_behind hp (by omega)
      · have hlt : k.start < k.stop := Nat.lt_of_le_of_ne h₂ hempty
        rw [splicedAt_replacement rfl hlt fun l hl => Nat.lt_of_lt_of_le hlt (hstarts l hl)]
        rw [splicedFrom_split (q := k.stop) hlt (by omega)]
        have hgone : (List.range' (k.start + 1) (k.stop - (k.start + 1))).flatMap
            (splicedAt (k :: hs) t) = [] := by
          refine List.flatMap_eq_nil_iff.mpr fun p hp => ?_
          obtain ⟨hp, hp'⟩ := List.mem_range'_1.mp hp
          have hin : p < k.stop := by omega
          exact splicedAt_inside hp hin fun l hl => Nat.lt_of_lt_of_le hin (hstarts l hl)
        rw [hgone, List.nil_append]
        refine congrArg (k.text ++ ·) (splicedFrom_congr fun p hp => ?_)
        exact splicedAt_behind (Nat.lt_of_lt_of_le hlt hp) hp
    rw [hfront, hhunk, ← ih h₃, app_hunkScript_cons h₁ h₂ hlen]

/-! ## Any order -/

/-- Two ranges share a character, or one lies strictly inside the other. -/
def Hunk.Overlaps (h k : Hunk) : Prop := h.start < k.stop ∧ k.start < h.stop

/-- Two insertions at one offset. -/
def Hunk.SamePoint (h k : Hunk) : Prop :=
  h.start = h.stop ∧ k.start = k.stop ∧ h.start = k.start

/-- Two hunks between which a change set has no choice. -/
def Hunk.Apart (h k : Hunk) : Prop := ¬h.Overlaps k ∧ ¬h.SamePoint k

theorem Hunk.Apart.symm {h k : Hunk} (hk : h.Apart k) : k.Apart h :=
  ⟨fun ⟨h₁, h₂⟩ => hk.1 ⟨h₂, h₁⟩, fun ⟨h₁, h₂, h₃⟩ => hk.2 ⟨h₂, h₁, h₃.symm⟩⟩

theorem Hunk.Apart.disjoint {h k : Hunk} (hk : h.Apart k) : h.Disjoint k := by
  by_contra hd
  rw [Hunk.Disjoint, not_or, Nat.not_le, Nat.not_le] at hd
  exact hk.1 ⟨hd.2, hd.1⟩

/-- What `build_lsp_changes` looks for in neighbours. -/
def Hunk.clashes (l r : Hunk) : Bool :=
  r.start < l.stop || (l.start == l.stop && r.start == r.stop && l.start == r.start)

/-- **Neighbours that are apart are all apart**, in a sorted list. -/
theorem pairwise_of_windows {hs : List Hunk} (hk : hs.Pairwise Hunk.keyLe)
    (hi : ∀ k ∈ hs, k.start ≤ k.stop) :
    (hs.zip hs.tail).any (fun (l, r) => l.clashes r) = false ↔ hs.Pairwise Hunk.Apart := by
  induction hs with
  | nil => simp
  | cons h hs ih =>
    obtain ⟨hfirst, hk⟩ := List.pairwise_cons.mp hk
    have hi' := fun k hm => hi k (List.mem_cons_of_mem _ hm)
    have hh := hi h List.mem_cons_self
    cases hs with
    | nil => simp
    | cons k hs =>
      have hhk := hfirst k List.mem_cons_self
      have hkk := hi' k List.mem_cons_self
      have hstep : h.clashes k = false ↔ h.Apart k := by
        simp only [Hunk.clashes, Hunk.Apart, Hunk.Overlaps, Hunk.SamePoint, Hunk.keyLe,
          Bool.or_eq_false_iff, decide_eq_false_iff_not, Bool.and_eq_false_iff,
          beq_eq_false_iff_ne] at *
        omega
      have hcons : ((h :: k :: hs).zip (h :: k :: hs).tail).any (fun (l, r) => l.clashes r) =
          (h.clashes k || ((k :: hs).zip (k :: hs).tail).any fun (l, r) => l.clashes r) := rfl
      rw [hcons, Bool.or_eq_false_iff, hstep, ih hk hi', List.pairwise_cons (a := h)]
      refine and_congr_left fun hpair => Iff.intro ?_ fun hall => hall k List.mem_cons_self
      intro hapart l hl
      rcases List.mem_cons.mp hl with rfl | hm
      · exact hapart
      · -- what comes later starts no earlier than the neighbour
        have hkl := (List.pairwise_cons.mp hk).1 l hm
        have hll := hi' l hl
        have hkl' := (List.pairwise_cons.mp hpair).1 l hm
        simp only [Hunk.Apart, Hunk.Overlaps, Hunk.SamePoint, Hunk.keyLe] at *
        omega

theorem splicedAt_perm {hs ks : List Hunk} (hp : hs.Perm ks) (ha : hs.Pairwise Hunk.Apart)
    (t : Text) (p : ℕ) : splicedAt hs t p = splicedAt ks t p := by
  -- at most one hunk of a kind starts at an offset
  have hone : ∀ f : Hunk → Bool, (∀ h k, f h = true → f k = true → ¬h.Apart k) →
      hs.filter f = ks.filter f := by
    intro f hf
    have hshort : (hs.filter f).length ≤ 1 := by
      have hpair := ha.filter f
      match hl : hs.filter f with
      | [] => exact Nat.zero_le _
      | [_] => exact Nat.le_refl _
      | a :: b :: r =>
        rw [hl] at hpair
        have hmem : ∀ c ∈ [a, b], f c = true := by
          intro c hc
          have : c ∈ hs.filter f := by rw [hl]; exact List.mem_of_mem_take (i := 2) hc
          exact (List.mem_filter.mp this).2
        exact absurd ((List.pairwise_cons.mp hpair).1 b List.mem_cons_self)
          (hf a b (hmem a (by simp)) (hmem b (by simp)))
    have hperm := hp.filter f
    match hl : hs.filter f with
    | [] =>
      rw [hl] at hperm
      exact hperm.nil_eq
    | [a] =>
      rw [hl] at hperm
      exact (List.perm_singleton.mp hperm.symm).symm
    | a :: b :: r =>
      rw [hl] at hshort
      exact absurd hshort (by simp)
  have hins : insertedAt hs p = insertedAt ks p := by
    rw [insertedAt, hone, insertedAt]
    intro h k hh hk hapart
    obtain ⟨h₁, h₂⟩ := of_decide_eq_true hh
    obtain ⟨h₃, h₄⟩ := of_decide_eq_true hk
    exact hapart.2 ⟨h₁.trans h₂.symm, h₃.trans h₄.symm, h₁.trans h₃.symm⟩
  have hrep : replacedAt hs p = replacedAt ks p := by
    rw [replacedAt, hone, replacedAt]
    intro h k hh hk hapart
    obtain ⟨h₁, h₂⟩ := of_decide_eq_true hh
    obtain ⟨h₃, h₄⟩ := of_decide_eq_true hk
    exact hapart.1 ⟨h₁ ▸ h₄, h₃ ▸ h₂⟩
  have hcover : (∃ k ∈ hs, k.start ≤ p ∧ p < k.stop) ↔ ∃ k ∈ ks, k.start ≤ p ∧ p < k.stop :=
    exists_congr fun k => and_congr_left fun _ => hp.mem_iff
  rw [splicedAt, splicedAt, hins, hrep, if_congr hcover rfl rfl]

theorem app_sortHunks {hs : List Hunk} {t : Text} (hapart : hs.Pairwise Hunk.Apart)
    (hinside : ∀ k ∈ hs, k.Inside t.length) :
    app (hunkScript 0 (sortHunks hs) t.length) t = spliced hs t := by
  have hperm := List.perm_insertionSort Hunk.keyLe hs
  have hpair : (sortHunks hs).Pairwise Hunk.Apart :=
    (hperm.pairwise_iff fun h => h.symm).mpr hapart
  calc app (hunkScript 0 (sortHunks hs) t.length) t
      = splicedFrom (sortHunks hs) t 0 :=
        app_hunkScript (inOrder_sortHunks (hapart.imp fun h => h.disjoint) hinside)
    _ = spliced (sortHunks hs) t := by
        rw [splicedFrom, spliced, List.range_eq_range']
        rfl
    _ = spliced hs t := List.flatMap_congr fun p _ => splicedAt_perm hperm hpair t p

/-! ## The change of a list of edits -/

namespace App

/-- The range of an edit in the document, clamped to it, and its text. -/
def convertEdit (t : Text) (e : TextEdit) : Hunk :=
  Hunk.mk (offsetFromUtf16 t e.range.start.line e.range.start.character)
    (offsetFromUtf16 t e.range.stop.line e.range.stop.character) e.newText .clean

theorem convertEdit_stop_le {t : Text} {edits : List TextEdit} :
    ∀ k ∈ edits.map (convertEdit t), k.stop ≤ t.length := by
  intro k hk
  obtain ⟨e, -, rfl⟩ := List.mem_map.mp hk
  exact offsetFromUtf16_le _ _ _

/-- Edits that no single change makes: a range is reversed, two overlap, or two insertions share an
offset. -/
def Clashing (hs : List Hunk) : Prop :=
  (∃ h ∈ hs, h.stop < h.start) ∨ ∃ (i j : ℕ) (h k : Hunk), i < j ∧ hs[i]? = some h ∧
    hs[j]? = some k ∧ (h.Overlaps k ∨ h.SamePoint k)

theorem not_clashing_iff {hs : List Hunk} :
    ¬Clashing hs ↔ (∀ h ∈ hs, h.start ≤ h.stop) ∧ hs.Pairwise Hunk.Apart := by
  rw [Clashing, not_or]
  refine and_congr ?_ ?_
  · simp only [not_exists, not_and, Nat.not_lt]
  · rw [List.pairwise_iff_getElem]
    constructor
    · intro h i j hi hj hij
      by_contra hapart
      rw [Hunk.Apart, ← not_or, not_not] at hapart
      exact h ⟨i, j, _, _, hij, List.getElem?_eq_getElem hi, List.getElem?_eq_getElem hj, hapart⟩
    · rintro h ⟨i, j, k, l, hij, hk, hl, hclash⟩
      obtain ⟨hi, rfl⟩ := List.getElem?_eq_some_iff.mp hk
      obtain ⟨hj, rfl⟩ := List.getElem?_eq_some_iff.mp hl
      have hapart := h i j hi hj hij
      rcases hclash with hclash | hclash
      · exact hapart.1 hclash
      · exact hapart.2 hclash

/-- A list of edits is refused because they clash, or its change runs along the sorted hunks. -/
theorem buildLspChanges_cases (b : Buffer) (edits : List TextEdit) :
    (∃ message, buildLspChanges b edits = some (.error message) ∧
        Clashing (edits.map (convertEdit b.text))) ∨
      ∃ c, buildLspChanges b edits = some (.ok c) ∧ ¬Clashing (edits.map (convertEdit b.text)) ∧
        c.lenBefore = b.text.length ∧
        c.toks = nf (hunkScript 0 (sortHunks (edits.map (convertEdit b.text))) b.text.length) := by
  generalize hcs : edits.map (convertEdit b.text) = hs
  have hbuild : buildLspChanges b edits =
      if hs.any fun k => k.stop < k.start then
        some (.error "Language server returned an edit with a reversed range")
      else if ((sortHunks hs).zip (sortHunks hs).tail).any fun (l, r) => l.clashes r then
        some (.error "Language server returned overlapping edits")
      else (changesetFromHunks hs b.text.length).map .ok := by
    rw [← hcs]
    rfl
  have hperm := List.perm_insertionSort Hunk.keyLe hs
  have hstop : ∀ k ∈ hs, k.stop ≤ b.text.length := hcs ▸ convertEdit_stop_le
  rw [hbuild]
  by_cases hrev : hs.any fun k => k.stop < k.start
  · rw [if_pos hrev]
    refine .inl ⟨_, rfl, .inl ?_⟩
    obtain ⟨k, hk, hlt⟩ := List.any_eq_true.mp hrev
    exact ⟨k, hk, of_decide_eq_true hlt⟩
  rw [if_neg hrev]
  have hle : ∀ k ∈ hs, k.start ≤ k.stop := by
    intro k hk
    by_contra hlt
    exact hrev (List.any_eq_true.mpr ⟨k, hk, decide_eq_true (Nat.not_le.mp hlt)⟩)
  have hwindows := pairwise_of_windows (List.pairwise_insertionSort Hunk.keyLe hs)
    fun k hk => hle k (hperm.mem_iff.mp hk)
  have hpair : (sortHunks hs).Pairwise Hunk.Apart ↔ hs.Pairwise Hunk.Apart :=
    hperm.pairwise_iff fun h => h.symm
  by_cases hclash : ((sortHunks hs).zip (sortHunks hs).tail).any fun (l, r) => l.clashes r
  · rw [if_pos hclash]
    refine .inl ⟨_, rfl, ?_⟩
    by_contra hnot
    rw [hwindows.mpr (hpair.mpr (not_clashing_iff.mp hnot).2)] at hclash
    cases hclash
  · rw [if_neg hclash]
    have hapart : hs.Pairwise Hunk.Apart :=
      hpair.mp (hwindows.mp (Bool.eq_false_iff.mpr hclash))
    obtain ⟨c, hc, hlen, htoks⟩ := changesetFromHunks_spec (hapart.imp fun h => h.disjoint)
      fun k hk => ⟨hle k hk, hstop k hk⟩
    exact .inr ⟨c, by rw [hc]; rfl, not_clashing_iff.mpr ⟨hle, hapart⟩, hlen, htoks⟩

theorem apply_of_toks {c : ChangeSet} {hs : List Hunk} {t : Text} (hnot : ¬Clashing hs)
    (hstop : ∀ k ∈ hs, k.stop ≤ t.length) (hlen : c.lenBefore = t.length)
    (htoks : c.toks = nf (hunkScript 0 (sortHunks hs) t.length)) : c.apply t = spliced hs t := by
  obtain ⟨hle, hapart⟩ := not_clashing_iff.mp hnot
  have hinside : ∀ k ∈ hs, k.Inside t.length := fun k hk => ⟨hle k hk, hstop k hk⟩
  have horder := inOrder_sortHunks (hapart.imp fun h => h.disjoint) hinside
  calc c.apply t
      = app (nf (hunkScript 0 (sortHunks hs) t.length)) t := by
        rw [c.apply_eq t hlen.symm, htoks]
    _ = app (hunkScript 0 (sortHunks hs) t.length) t :=
        app_nf _ _ (Nat.le_of_eq (pre_hunkScript horder))
    _ = spliced hs t := app_sortHunks hapart hinside

theorem clashing_of_build {b : Buffer} {edits : List TextEdit} {message : String}
    (hb : buildLspChanges b edits = some (.error message)) :
    Clashing (edits.map (convertEdit b.text)) := by
  obtain ⟨message, -, hclash⟩ | ⟨c, hb', -⟩ := buildLspChanges_cases b edits
  · exact hclash
  · rw [hb] at hb'
    cases hb'

theorem spliced_of_build {b : Buffer} {edits : List TextEdit} {changes : ChangeSet}
    (hb : buildLspChanges b edits = some (.ok changes)) :
    ¬Clashing (edits.map (convertEdit b.text)) ∧ changes.lenBefore = b.text.length ∧
      changes.apply b.text = spliced (edits.map (convertEdit b.text)) b.text := by
  obtain ⟨message, hb', -⟩ | ⟨c, hb', hnot, hlen, htoks⟩ := buildLspChanges_cases b edits
  · rw [hb] at hb'
    cases hb'
  · obtain rfl : changes = c := Except.ok.inj (Option.some.inj (hb.symm.trans hb'))
    exact ⟨hnot, hlen, apply_of_toks hnot convertEdit_stop_le hlen htoks⟩

/-- **Server edits are spliced in at once**, or refused because they clash. -/
theorem buildLspChanges_spliced (b : Buffer) (edits : List TextEdit) :
    (∃ message, buildLspChanges b edits = some (.error message) ∧
        Clashing (edits.map (convertEdit b.text))) ∨
      ∃ c, buildLspChanges b edits = some (.ok c) ∧ ¬Clashing (edits.map (convertEdit b.text)) ∧
        c.lenBefore = b.text.length ∧
        c.apply b.text = spliced (edits.map (convertEdit b.text)) b.text := by
  refine (buildLspChanges_cases b edits).imp_right ?_
  rintro ⟨c, hc, hnot, hlen, htoks⟩
  exact ⟨c, hc, hnot, hlen, apply_of_toks hnot convertEdit_stop_le hlen htoks⟩

end App

/-! ## Edits without an effect -/

/-- The hunk replaces nothing by nothing. -/
def Hunk.IsBlank (k : Hunk) : Prop := k.start = k.stop ∧ k.text = []

theorem hunkScript_keeps_iff {hs : List Hunk} {pos len : ℕ} (h : InOrder pos hs len) :
    (∀ x ∈ hunkScript pos hs len, x = .keep) ↔ ∀ k ∈ hs, k.IsBlank := by
  induction hs generalizing pos with
  | nil =>
    simp only [hunkScript, List.not_mem_nil, false_implies, implies_true, iff_true]
    exact fun x hx => List.eq_of_mem_replicate hx
  | cons k hs ih =>
    obtain ⟨-, h₂, h₃⟩ := h
    have hdrops : (∀ x ∈ (drops (k.stop - k.start) : Script Char), x = .keep) ↔
        k.start = k.stop := by
      constructor
      · intro hall
        by_contra hne
        have hsome : k.stop - k.start ≠ 0 := by omega
        cases hall .drop (List.mem_replicate.mpr ⟨hsome, rfl⟩)
      · intro heq x hx
        rw [heq, Nat.sub_self] at hx
        cases hx
    have hadds : (∀ x ∈ (adds k.text : Script Char), x = .keep) ↔ k.text = [] := by
      cases k.text with
      | nil => simp
      | cons c t => simp
    have hkeeps : ∀ x ∈ (keeps (k.start - pos) : Script Char), x = .keep :=
      fun x hx => List.eq_of_mem_replicate hx
    rw [hunkScript, List.forall_mem_append, List.forall_mem_append, List.forall_mem_append,
      hdrops, hadds, ih h₃, List.forall_mem_cons, Hunk.IsBlank, and_assoc]
    exact and_iff_right hkeeps

/-- **The change of a list of edits is empty** when each of them is. -/
theorem isIdentity_of_toks {c : ChangeSet} {hs : List Hunk} {t : Text} (hnot : ¬App.Clashing hs)
    (hstop : ∀ k ∈ hs, k.stop ≤ t.length)
    (htoks : c.toks = nf (hunkScript 0 (sortHunks hs) t.length)) :
    c.isIdentity = true ↔ ∀ k ∈ hs, k.IsBlank := by
  obtain ⟨hle, hapart⟩ := App.not_clashing_iff.mp hnot
  have horder := inOrder_sortHunks (hapart.imp fun h => h.disjoint)
    fun k hk => ⟨hle k hk, hstop k hk⟩
  have hperm := List.perm_insertionSort Hunk.keyLe hs
  rw [c.isIdentity_iff, htoks]
  simp only [mem_nf]
  rw [hunkScript_keeps_iff horder]
  exact ⟨fun hall k hk => hall k (hperm.mem_iff.mpr hk),
    fun hall k hk => hall k (hperm.mem_iff.mp hk)⟩

theorem App.isIdentity_of_build {b : Buffer} {edits : List TextEdit} {changes : ChangeSet}
    (hb : App.buildLspChanges b edits = some (.ok changes)) :
    ¬App.Clashing (edits.map (App.convertEdit b.text)) ∧
      (changes.isIdentity = true ↔ ∀ e ∈ edits, (App.convertEdit b.text e).IsBlank) := by
  obtain ⟨message, hb', -⟩ | ⟨c, hb', hnot, -, htoks⟩ := buildLspChanges_cases b edits
  · rw [hb] at hb'
    cases hb'
  · obtain rfl : changes = c := Except.ok.inj (Option.some.inj (hb.symm.trans hb'))
    refine ⟨hnot, (isIdentity_of_toks hnot convertEdit_stop_le htoks).trans ?_⟩
    exact List.forall_mem_map

/-- The hunk writes what stands in its range. -/
def Hunk.Repeats (k : Hunk) (t : Text) : Prop := k.text = (t.drop k.start).take (k.stop - k.start)

theorem app_hunkScript_repeats {hs : List Hunk} {t : Text} {pos : ℕ} (h : InOrder pos hs t.length)
    (hrepeats : ∀ k ∈ hs, k.Repeats t) :
    app (hunkScript pos hs t.length) (t.drop pos) = t.drop pos := by
  induction hs generalizing pos with
  | nil => exact app_hunkScript_nil t pos
  | cons k hs ih =>
    obtain ⟨h₁, h₂, h₃⟩ := h
    have hrange : k.start + (k.stop - k.start) = k.stop := Nat.add_sub_cancel' h₂
    have hfront : pos + (k.start - pos) = k.start := Nat.add_sub_cancel' h₁
    rw [app_hunkScript_cons h₁ h₂ h₃.le, ih h₃ fun l hl => hrepeats l (List.mem_cons_of_mem _ hl),
      hrepeats k List.mem_cons_self]
    calc (t.drop pos).take (k.start - pos) ++
          ((t.drop k.start).take (k.stop - k.start) ++ t.drop k.stop)
        = (t.drop pos).take (k.start - pos) ++ t.drop k.start := by
          rw [← hrange, ← List.drop_drop, hrange, List.take_append_drop]
      _ = t.drop pos := by rw [← hfront, ← List.drop_drop, hfront, List.take_append_drop]

/-- **Edits that write what stands there** change nothing. -/
theorem spliced_repeats {hs : List Hunk} {t : Text} (hnot : ¬App.Clashing hs)
    (hstop : ∀ k ∈ hs, k.stop ≤ t.length) (hrepeats : ∀ k ∈ hs, k.Repeats t) :
    spliced hs t = t := by
  obtain ⟨hle, hapart⟩ := App.not_clashing_iff.mp hnot
  have hinside : ∀ k ∈ hs, k.Inside t.length := fun k hk => ⟨hle k hk, hstop k hk⟩
  have hsorted := app_hunkScript_repeats
    (inOrder_sortHunks (hapart.imp fun h => h.disjoint) hinside)
    fun k hk => hrepeats k ((List.perm_insertionSort Hunk.keyLe hs).mem_iff.mp hk)
  rw [← app_sortHunks hapart hinside]
  exact hsorted

end Termesh
