import Termesh.Editor.Composing
import Termesh.Editor.Positions
import Termesh.Lib.Halves

/-!
# Rebasing keystroke by keystroke, and in one batch

A range can be mapped through a run of change sets one at a time, or once through their composition.
The run over the document in two halves, cut at a position, says when the two agree.

* `ChangeSet.Chained`, `ChangeSet.composeAll`, `ChangeSet.mapEach`, `ChangeSet.Undisturbed`: a run;
* `ChangeSet.parts`, `ChangeSet.Batchable`: the document in two halves after a run;
* **`ChangeSet.batched_iff`**: when the two ways agree.
-/

namespace Termesh

open EditScript Tok

namespace ChangeSet

/-- A run of change sets, each of them of the document that the one before leaves. -/
def Chained : ℕ → List ChangeSet → Prop
  | _, [] => True
  | n, c :: cs => c.lenBefore = n ∧ Chained c.lenAfter cs

instance : ∀ n cs, Decidable (Chained n cs)
  | _, [] => .isTrue trivial
  | n, c :: cs =>
    have := instDecidableChained c.lenAfter cs
    inferInstanceAs (Decidable (c.lenBefore = n ∧ _))

/-- The change sets of a run composed, from the first on. -/
def composeAll (c : ChangeSet) (cs : List ChangeSet) : Option ChangeSet := cs.foldlM compose c

/-- A position mapped through the change sets of a run one at a time. -/
def mapEach (cs : List ChangeSet) (pos : ℕ) : ℕ := cs.foldl (fun p c => c.mapPos p .after) pos

/-- Each change set of a run leaves the range mapped so far alone. -/
def Undisturbed : List ChangeSet → ℕ → ℕ → Prop
  | [], _, _ => True
  | c :: cs, start, stop =>
    c.touches start stop = .untouched ∧
      Undisturbed cs (c.mapPos start .after) (c.mapPos stop .after)

instance : ∀ cs start stop, Decidable (Undisturbed cs start stop)
  | [], _, _ => .isTrue trivial
  | c :: cs, start, stop =>
    have := instDecidableUndisturbed cs (c.mapPos start .after) (c.mapPos stop .after)
    inferInstanceAs (Decidable (c.touches start stop = .untouched ∧ _))

/-- A document of `n` characters after a run, in the halves that were in front of a position and
behind it; what is typed between the halves goes to the one in front. -/
def parts (n pos : ℕ) (cs : List ChangeSet) : Halves Char :=
  cs.foldl (fun h c => h.edit c.toks) (.places n pos)

/-- The characters on both sides of a position are gone. -/
def Swallowed (n pos : ℕ) (h : Halves Char) : Prop :=
  0 < pos ∧ pos < n ∧ .inl (pos - 1) ∉ h.all ∧ .inl pos ∉ h.all

/-- A run does not delete the character behind a range with typed text standing directly in front of
it, nor the characters on both sides of a range of no width. -/
def Batchable (n start stop : ℕ) (cs : List ChangeSet) : Prop :=
  ¬ (parts n stop cs).Torn n stop ∧ (start = stop → ¬ Swallowed n stop (parts n stop cs))

/-! ## The composition of a run -/

variable {cs : List ChangeSet} {h g : Halves Char} {n p : ℕ}

theorem all_edit_toks {c : ChangeSet} (hlen : h.all.length = c.lenBefore) :
    (h.edit c.toks).all = app (lift c.toks) h.all ∧
      (h.edit c.toks).all.length = c.lenAfter := by
  have hpre : pre c.toks = h.all.length := by rw [pre_toks, hlen]
  have hall := all_edit hpre
  refine ⟨hall, ?_⟩
  rw [hall, length_app _ _ (by rw [pre_lift, hpre]), post_lift, post_toks]

/-- **What the composition of a run leaves** is what the run leaves. -/
theorem composeAll_spec {d : ChangeSet} (hc : Chained d.lenAfter cs) (ht : trace 0 d.toks = h.all) :
    ∃ e, composeAll d cs = some e ∧ e.lenBefore = d.lenBefore ∧
      trace 0 e.toks = (cs.foldl (fun h c => h.edit c.toks) h).all := by
  induction cs generalizing d h with
  | nil => exact ⟨d, rfl, rfl, ht⟩
  | cons c cs ih =>
    obtain ⟨hlen, hc⟩ := hc
    have hlen' : h.all.length = c.lenBefore := by rw [← ht, length_trace, post_toks, hlen]
    obtain ⟨d', hd', hbefore, hafter, htoks⟩ := d.compose_some c hlen.symm
    have hmeet := Meet.of_eq d.toks c.toks (by rw [post_toks, pre_toks, hlen])
    have htrace : trace 0 d'.toks = (h.edit c.toks).all := by
      rw [htoks, trace_nf, hmeet.trace_comp, ht, (all_edit_toks hlen').1]
    obtain ⟨e, he, hbefore', htrace'⟩ := ih (hafter ▸ hc) htrace
    refine ⟨e, ?_, hbefore'.trans hbefore, htrace'⟩
    rw [composeAll, List.foldlM_cons, hd']
    exact he

theorem parted_run {len : ℕ} (hc : Chained len cs) (hlen : h.all.length = len)
    (hh : Parted n p h) :
    Parted n p (cs.foldl (fun h c => h.edit c.toks) h) ∧
      (cs.foldl (fun h c => h.edit c.toks) h).front.length = mapEach cs h.front.length := by
  induction cs generalizing h len with
  | nil => exact ⟨hh, rfl⟩
  | cons c cs ih =>
    obtain ⟨hbefore, hc⟩ := hc
    have hlen' : h.all.length = c.lenBefore := hlen.trans hbefore.symm
    have hpre : pre c.toks = h.all.length := by rw [pre_toks, hlen']
    have hstep := ih hc (all_edit_toks hlen').2 (hh.edit hpre)
    refine ⟨hstep.1, hstep.2.trans ?_⟩
    rw [length_front_edit hpre, mapEach, mapEach, List.foldl_cons, mapPos_eq]
    rfl

/-! ## A range with characters in it -/

theorem stretch_run {len : ℕ} {m : List (ℕ ⊕ Char)} (hc : Chained len cs) (hg : g.all.length = len)
    (hall : g.all = h.all) (hm : m ≠ []) {w : List Char}
    (hfront : h.front = g.front ++ (m ++ w.map .inr))
    (hu : Undisturbed cs g.front.length h.front.length) :
    ∃ w : List Char, (cs.foldl (fun h c => h.edit c.toks) h).front =
      (cs.foldl (fun h c => h.edit c.toks) g).front ++ (m ++ w.map .inr) := by
  induction cs generalizing g h len w with
  | nil => exact ⟨w, hfront⟩
  | cons c cs ih =>
    obtain ⟨hbefore, hc⟩ := hc
    obtain ⟨huntouched, hu⟩ := hu
    have hg' : g.all.length = c.lenBefore := hg.trans hbefore.symm
    have hh' : h.all.length = c.lenBefore := hall ▸ hg'
    have hpreg : pre c.toks = g.all.length := by rw [pre_toks, hg']
    have hpreh : pre c.toks = h.all.length := by rw [pre_toks, hh']
    have hlt : g.front.length < h.front.length := by
      have hpos := List.length_pos_iff.mpr hm
      rw [hfront, List.length_append, List.length_append]
      omega
    obtain ⟨hd, ha⟩ := (c.touches_eq_untouched hlt).mp huntouched
    obtain ⟨v, hv⟩ := front_edit_of_undisturbed hfront (length_front_le hpreh) hd ha
    have hmap : ∀ k : Halves Char, pre c.toks = k.all.length →
        c.mapPos k.front.length .after = (k.edit c.toks).front.length := by
      intro k hk
      rw [length_front_edit hk, mapPos_eq]
      rfl
    rw [hmap g hpreg, hmap h hpreh] at hu
    refine ih hc (all_edit_toks hg').2 ?_ (w := w ++ v) ?_ hu
    · rw [(all_edit_toks hg').1, (all_edit_toks hh').1, hall]
    · rw [hv, List.map_append, List.append_assoc]

/-- A change set that leaves a stretch of the document together does not touch it. -/
theorem touches_of_stretch {e : ChangeSet} {start stop : ℕ} (hlt : start < stop)
    {l r : List (ℕ ⊕ Char)}
    (ht : trace 0 e.toks = l ++ ((List.range' start (stop - start)).map .inl ++ r)) :
    e.touches start stop = .untouched := by
  rw [touches_eq_untouched e hlt]
  constructor
  · intro j hj hj'
    have hmem : .inl (0 + j) ∈ trace 0 e.toks := by
      rw [ht, Nat.zero_add]
      simp only [List.mem_append, List.mem_map, List.mem_range'_1]
      exact .inr (.inl ⟨j, by omega, rfl⟩)
    exact (mem_trace.mp hmem).2
  · intro j hj hj'
    obtain ⟨i, rfl⟩ : ∃ i, j = i + 1 := ⟨j - 1, by omega⟩
    -- the two neighbours, with what of the stretch is in front of them and behind
    have hsplit : List.range' start (stop - start) =
        List.range' start (i - start) ++ (i :: (i + 1) :: List.range' (i + 2) (stop - (i + 2))) := by
      have hcount : stop - start = i - start + (stop - (i + 2) + 1 + 1) := by omega
      have hi : start + 1 * (i - start) = i := by omega
      rw [hcount, ← List.range'_append, hi, List.range'_succ, List.range'_succ]
    refine addAt_of_trace (k := 0) (l := l ++ (List.range' start (i - start)).map .inl)
      (r := (List.range' (i + 2) (stop - (i + 2))).map .inl ++ r) ?_
    rw [ht, hsplit]
    simp

end ChangeSet

/-! ## A range of no width -/

theorem Canonical.dropAt_retain {k : ℕ} {ops : List Operation}
    (hc : Canonical (.retain k :: ops)) : dropAt (toks (.retain k :: ops)) 0 = false := by
  have hk : 0 < k := Nat.pos_of_ne_zero (hc.nonempty (.retain k) List.mem_cons_self)
  rw [toks_cons, Operation.toks, dropAt_append, pre_keeps, if_pos hk, dropAt_keeps]

theorem Canonical.dropAt_zero {k : ℕ} {ops : List Operation} (hc : Canonical (.delete k :: ops)) :
    dropAt (toks ops) 0 = false := by
  cases ops with
  | nil => rfl
  | cons op ops =>
    have hp := (List.isChain_cons_cons.mp hc.chain).1
    cases op with
    | retain n => exact hc.tail.dropAt_retain
    | delete n => simp [Operation.mayPrecede] at hp
    | insert t =>
      rw [toks_cons, Operation.toks, dropAt_append, pre_adds, if_neg (Nat.not_lt_zero 0)]
      cases ops with
      | nil => rfl
      | cons op ops =>
        have hp := (List.isChain_cons_cons.mp hc.tail.chain).1
        cases op with
        | retain n => exact hc.tail.tail.dropAt_retain
        | delete n | insert t => simp [Operation.mayPrecede] at hp

theorem touchesLoop_self {p : ℕ} (ops : List Operation) (old : ℕ) (hc : Canonical ops) :
    touchesLoop p p ops old .untouched = .untouched ↔
      ∀ j, p = old + j + 1 → dropAt (toks ops) j = true → dropAt (toks ops) (j + 1) = false := by
  induction ops generalizing old with
  | nil => simp [touchesLoop, dropAt]
  | cons op ops ih =>
    have hrest := fun n => ih n hc.tail
    rw [toks_cons]
    cases op with
    | retain k =>
      simp only [Operation.toks, dropAt_append, pre_keeps, dropAt_keeps]
      rw [touchesLoop, hrest]
      constructor
      · intro h j hj hd
        split_ifs at hd ⊢ with h1 h2
        · rfl
        · have hsub : j + 1 - k = j - k + 1 := by omega
          rw [hsub]
          exact h (j - k) (by omega) hd
      · intro h j hj hd
        have := h (k + j) (by omega)
        rw [if_neg (by omega), if_neg (by omega)] at this
        have hsub : k + j + 1 - k = j + 1 := by omega
        rw [hsub, Nat.add_sub_cancel_left] at this
        exact this hd
    | delete k =>
      simp only [Operation.toks, dropAt_append, pre_drops, dropAt_drops]
      rw [touchesLoop, if_pos rfl]
      by_cases hin : old < p ∧ p < old + k
      · rw [if_pos (by simpa using hin)]
        refine iff_of_false (by simp) fun h => ?_
        have := h (p - old - 1) (by omega)
        rw [if_pos (by omega), if_pos (by omega)] at this
        simp only [decide_eq_true_eq, decide_eq_false_iff_not] at this
        omega
      · rw [if_neg (by simpa using hin), hrest]
        constructor
        · intro h j hj hd
          have hk : k ≤ j + 1 := by omega
          rw [if_neg (by omega)]
          by_cases hjk : j + 1 = k
          · -- the last character of the deletion
            rw [hjk, Nat.sub_self]
            exact hc.dropAt_zero
          · rw [if_neg (by omega)] at hd
            have hsub : j + 1 - k = j - k + 1 := by omega
            rw [hsub]
            exact h (j - k) (by omega) hd
        · intro h j hj hd
          have := h (k + j) (by omega)
          rw [if_neg (by omega), if_neg (by omega)] at this
          have hsub : k + j + 1 - k = j + 1 := by omega
          rw [hsub, Nat.add_sub_cancel_left] at this
          exact this hd
    | insert t =>
      simp only [Operation.toks, dropAt_append, pre_adds, Nat.not_lt_zero, if_false, Nat.sub_zero]
      rw [touchesLoop, if_neg (by omega), hrest]

namespace ChangeSet

/-- **A zero-width range is touched** when the characters on both sides of it are dropped. -/
theorem touches_self (e : ChangeSet) (p : ℕ) : e.touches p p = .untouched ↔
    ¬ (0 < p ∧ dropAt e.toks (p - 1) = true ∧ dropAt e.toks p = true) := by
  rw [touches, touchesLoop_self e.ops 0 e.canonical]
  constructor
  · rintro h ⟨hp, hd, hd'⟩
    have := h (p - 1) (by omega) hd
    rw [Nat.sub_add_cancel hp] at this
    exact absurd (hd'.symm.trans this) (by simp)
  · rintro h j hj hd
    rw [Nat.zero_add] at hj
    subst hj
    by_contra hd'
    exact h ⟨Nat.succ_pos j, hd, (Bool.not_eq_false _).mp hd'⟩

theorem lt_pre_of_dropAt {s : Script Char} {p : ℕ} (h : dropAt s p = true) : p < pre s := by
  by_contra hle
  have happ := dropAt_append s [] p
  rw [List.append_nil, if_neg hle, h] at happ
  simp [dropAt] at happ

theorem swallowed_iff {e : ChangeSet} {h : Halves Char} {p : ℕ} (ht : trace 0 e.toks = h.all) :
    Swallowed e.lenBefore p h ↔
      0 < p ∧ dropAt e.toks (p - 1) = true ∧ dropAt e.toks p = true := by
  have hmem : ∀ j, .inl j ∈ h.all ↔ j < e.lenBefore ∧ dropAt e.toks j = false := by
    intro j
    have hj := mem_trace (s := e.toks) (k := 0) (j := j)
    rwa [ht, Nat.zero_add, pre_toks] at hj
  rw [Swallowed, hmem, hmem]
  constructor
  · rintro ⟨hp, hlt, hprev, hnext⟩
    refine ⟨hp, ?_, ?_⟩
    · exact (Bool.not_eq_false _).mp fun hd => hprev ⟨by omega, hd⟩
    · exact (Bool.not_eq_false _).mp fun hd => hnext ⟨hlt, hd⟩
  · rintro ⟨hp, hprev, hnext⟩
    have hlt := lt_pre_of_dropAt hnext
    rw [pre_toks] at hlt
    exact ⟨hp, hlt, by simp [hprev], by simp [hnext]⟩

/-! ## When the two ways agree -/

theorem length_places_front (n p : ℕ) : (Halves.places n p : Halves Char).front.length = p := by
  simp [Halves.places]

theorem length_places {n p : ℕ} (hp : p ≤ n) : (Halves.places n p : Halves Char).all.length = n := by
  simp [all_places hp]

theorem parts_spec {c : ChangeSet} {cs : List ChangeSet} {p : ℕ}
    (hc : Chained c.lenBefore (c :: cs)) (hp : p ≤ c.lenBefore) :
    ∃ e, composeAll c cs = some e ∧ e.lenBefore = c.lenBefore ∧
      trace 0 e.toks = (parts c.lenBefore p (c :: cs)).all ∧
      (mapEach (c :: cs) p = e.mapPos p .after ↔
        ¬ (parts c.lenBefore p (c :: cs)).Torn c.lenBefore p) := by
  have hlen := length_places hp
  have htrace : trace 0 c.toks = ((Halves.places c.lenBefore p).edit c.toks).all := by
    rw [(all_edit_toks hlen).1, all_places hp, ← c.pre_toks, app_lift_places]
  obtain ⟨e, he, hbefore, ht⟩ := composeAll_spec hc.2 htrace
  obtain ⟨hparted, hcut⟩ := parted_run hc hlen (parted_places (n := c.lenBefore) (p := p))
  refine ⟨e, he, hbefore, ht, ?_⟩
  have hpre : pre e.toks = c.lenBefore := e.pre_toks.trans hbefore
  rw [length_places_front] at hcut
  rw [← hcut, mapPos_eq, ← hpre]
  rw [← hpre] at hparted hp ht
  exact hparted.posMap_eq_iff e.nf_toks hp ht

theorem stretch_parts {n start stop : ℕ} {cs : List ChangeSet} (hc : Chained n cs)
    (hlt : start < stop) (hlen : stop ≤ n) (hu : Undisturbed cs start stop) :
    ∃ w : List Char, (parts n stop cs).front =
      (parts n start cs).front ++ ((List.range' start (stop - start)).map .inl ++ w.map .inr) := by
  have hle : start ≤ n := by omega
  have hall : (Halves.places n start : Halves Char).all = (Halves.places n stop).all := by
    rw [all_places hlen, all_places hle]
  have hm : (List.range' start (stop - start)).map (.inl : ℕ → ℕ ⊕ Char) ≠ [] := by
    simp only [ne_eq, List.map_eq_nil_iff, List.range'_eq_nil_iff]
    omega
  have hfront : (Halves.places n stop : Halves Char).front = (Halves.places n start).front ++
      ((List.range' start (stop - start)).map .inl ++ ([] : List Char).map .inr) := by
    have hsum : start + (stop - start) = stop := by omega
    have happ : List.range' 0 start ++ List.range' (0 + 1 * start) (stop - start) =
        List.range' 0 (start + (stop - start)) := List.range'_append
    rw [Nat.one_mul, Nat.zero_add, hsum] at happ
    simp [Halves.places, ← happ]
  have hu' : Undisturbed cs (Halves.places n start : Halves Char).front.length
      (Halves.places n stop : Halves Char).front.length := by
    rwa [length_places_front, length_places_front]
  exact stretch_run hc (length_places hle) hall hm hfront hu'

/-- **Rebasing keystroke by keystroke and in one batch agree** exactly when the run leaves the
character behind the range, or what is typed in front of it, and a character on either side of a
range of no width. -/
theorem batched_iff (c : ChangeSet) (cs : List ChangeSet) {start stop : ℕ}
    (hc : Chained c.lenBefore (c :: cs)) (hle : start ≤ stop) (hlen : stop ≤ c.lenBefore)
    (hu : Undisturbed (c :: cs) start stop) :
    ∃ e, composeAll c cs = some e ∧
      ((mapEach (c :: cs) start = e.mapPos start .after ∧
          mapEach (c :: cs) stop = e.mapPos stop .after ∧ e.touches start stop = .untouched) ↔
        Batchable c.lenBefore start stop (c :: cs)) := by
  obtain ⟨e, he, hbefore, ht, hstop⟩ := parts_spec hc hlen
  obtain ⟨e', he', -, ht', hstart⟩ := parts_spec hc (hle.trans hlen)
  obtain rfl : e = e' := Option.some.inj (he.symm.trans he')
  refine ⟨e, he, ?_⟩
  rw [Batchable, hstart, hstop]
  rcases Nat.eq_or_lt_of_le hle with rfl | hlt
  · have hself := touches_self e start
    rw [← swallowed_iff ht, hbefore] at hself
    rw [hself]
    tauto
  · -- the characters of the range stay together
    obtain ⟨w, hw⟩ := stretch_parts hc hlt hlen hu
    have htouches : e.touches start stop = .untouched := by
      refine touches_of_stretch hlt (l := (parts c.lenBefore start (c :: cs)).front)
        (r := w.map .inr ++ (parts c.lenBefore stop (c :: cs)).back) ?_
      rw [ht, Halves.all, hw]
      simp only [List.append_assoc]
    have hsound : ¬ (parts c.lenBefore start (c :: cs)).Torn c.lenBefore start := by
      refine fun htorn => htorn.2.1 ?_
      -- the first character of the range stands behind the cut in front of it
      rw [ht, Halves.all, Halves.all, hw, List.append_assoc] at ht'
      rw [← List.append_cancel_left ht']
      simp only [List.mem_append, List.mem_map, List.mem_range'_1]
      exact .inl (.inl ⟨start, by omega, rfl⟩)
    have hne : start ≠ stop := Nat.ne_of_lt hlt
    tauto

/-- Two letters are typed at one place. -/
theorem batched_iff_typed :
    let first := (replace 2 1 1 ['x']).get (by decide)
    let second := (replace 3 2 2 ['y']).get (by decide)
    ∃ e, composeAll first [second] = some e ∧
      ((mapEach [first, second] 1 = e.mapPos 1 .after ∧ mapEach [first, second] 1 = e.mapPos 1 .after ∧
          e.touches 1 1 = .untouched) ↔ Batchable 2 1 1 [first, second]) :=
  batched_iff ((replace 2 1 1 ['x']).get (by decide)) [(replace 3 2 2 ['y']).get (by decide)]
    (by decide) (Nat.le_refl 1) (by decide) (by decide)

/-- A letter is typed in front of "a", and then the "a" is deleted: keystroke by keystroke the
position ends up behind the letter, and in one batch in front of it. -/
theorem not_batched_replaced :
    let typed := (replace 1 0 0 ['x']).get (by decide)
    let deleted := (replace 2 1 2 []).get (by decide)
    Chained 1 [typed, deleted] ∧ Undisturbed [typed, deleted] 0 0 ∧
      mapEach [typed, deleted] 0 = 1 ∧
      (composeAll typed [deleted]).map (fun e => e.mapPos 0 .after) = some 0 := by
  decide

end ChangeSet

end Termesh
