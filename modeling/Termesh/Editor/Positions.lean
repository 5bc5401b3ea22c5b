import Termesh.Editor.Laws
import Termesh.Editor.Selection

/-!
# Positions and ranges under a change set

`mapPos` and `touches` walk over runs; here they are read off the edit script.

* **`ChangeSet.mapPos_eq`**: `mapPos` is `posMap`; `mapPos_le`, `mapPos_mono`;
* **`ChangeSet.mapPos_sound`**: the bounds, the order, and the characters that are retained;
* **`ChangeSet.touches_eq_untouched`**: a non-empty range is untouched exactly when nothing in it is
  dropped and nothing is added strictly inside it.
-/

namespace Termesh

open EditScript

theorem posMap_keeps (b : Bool) (n : ℕ) (s : Script Char) (p : ℕ) :
    posMap b (keeps n ++ s) p = if p < n then p else n + posMap b s (p - n) := by
  induction n generalizing p with
  | zero => simp
  | succ n ih =>
    cases p with
    | zero => simp [List.replicate_succ, posMap]
    | succ p =>
      simp only [List.replicate_succ, List.cons_append, posMap, ih, Nat.succ_lt_succ_iff,
        Nat.succ_sub_succ]
      split_ifs <;> omega

theorem posMap_drops (b : Bool) (n : ℕ) (s : Script Char) (p : ℕ) :
    posMap b (drops n ++ s) p = if p < n then 0 else posMap b s (p - n) := by
  induction n generalizing p with
  | zero => simp
  | succ n ih =>
    cases p with
    | zero => simp [List.replicate_succ, posMap]
    | succ p =>
      simp only [List.replicate_succ, List.cons_append, posMap, ih, Nat.succ_lt_succ_iff,
        Nat.succ_sub_succ]

theorem posMap_adds (b : Bool) (t : Text) (s : Script Char) (p : ℕ) :
    posMap b (adds t ++ s) p =
      if p = 0 then (if b then t.length + posMap b s 0 else if t = [] then posMap b s 0 else 0)
      else t.length + posMap b s p := by
  induction t generalizing p with
  | nil => cases p <;> simp
  | cons c t ih =>
    cases p with
    | zero =>
      cases b with
      | false => simp [posMap]
      | true => simp only [List.map_cons, List.cons_append, posMap, ih, if_true,
          List.length_cons]; omega
    | succ p =>
      have := ih (p + 1)
      rw [if_neg (Nat.succ_ne_zero p)] at this ⊢
      rw [List.length_cons, Nat.succ_add, ← this]
      rfl

/-- Behind an insertion a canonical traversal does not move offset `0` any further. -/
theorem Canonical.posMap_zero {s : Text} {ops : List Operation}
    (h : Canonical (.insert s :: ops)) (b : Bool) : posMap b (toks ops) 0 = 0 := by
  cases ops with
  | nil => rfl
  | cons op ops =>
    have hp := (List.isChain_cons_cons.mp h.chain).1
    have hn := h.nonempty op (by simp)
    cases op with
    | retain n =>
      rw [toks_cons, Operation.toks, posMap_keeps, if_pos]
      exact Nat.pos_of_ne_zero hn
    | delete n | insert t => simp [Operation.mayPrecede] at hp

theorem mapPosLoop_eq (pos : ℕ) (assoc : Assoc) (ops : List Operation) (old new : ℕ)
    (h : Canonical ops) (hp : old ≤ pos) :
    mapPosLoop pos assoc ops old new = new + posMap (assoc == .after) (toks ops) (pos - old) := by
  induction ops generalizing old new with
  | nil => simp [mapPosLoop, posMap]
  | cons op ops ih =>
    cases op with
    | retain n =>
      rw [mapPosLoop, toks_cons, Operation.toks, posMap_keeps]
      by_cases hn : pos < old + n
      · rw [if_pos hn, if_pos (by omega)]
      · rw [if_neg hn, if_neg (by omega), ih _ _ h.tail (by omega), Nat.sub_sub, Nat.add_assoc]
    | delete n =>
      rw [mapPosLoop, toks_cons, Operation.toks, posMap_drops]
      by_cases hn : pos < old + n
      · rw [if_pos hn, if_pos (by omega), Nat.add_zero]
      · rw [if_neg hn, if_neg (by omega), ih _ _ h.tail (by omega), Nat.sub_sub]
    | insert s =>
      have hs : s ≠ [] := fun hs => h.nonempty (.insert s) (by simp) (by simp [Operation.len, hs])
      rw [toks_cons, Operation.toks, posMap_adds]
      by_cases h0 : pos = old
      · rw [if_pos (by omega), h.posMap_zero, h0]
        cases assoc <;> simp [mapPosLoop, hs]
      · rw [if_neg (by omega), ← Nat.add_assoc, ← ih _ _ h.tail hp]
        exact if_neg h0

/-- A property of the offsets from `n` on, together with what is known below `n`. -/
theorem forall_shift {n : ℕ} (R : ℕ → Prop) {f g : ℕ → Bool}
    (hlow : ∀ j, j < n → R j → g j = false) (hfg : ∀ j, g (n + j) = f j) :
    (∀ j, R (n + j) → f j = false) ↔ ∀ j, R j → g j = false := by
  constructor
  · intro h j hj
    by_cases hn : j < n
    · exact hlow j hn hj
    · obtain ⟨k, rfl⟩ := Nat.exists_eq_add_of_le (Nat.le_of_not_lt hn)
      rw [hfg]
      exact h k hj
  · intro h j hj
    rw [← hfg]
    exact h (n + j) hj

theorem touchesLoop_eq {s e : ℕ} (h : s < e) (ops : List Operation) (old : ℕ) (effect : RangeEffect)
    (hf : Filled ops) :
    touchesLoop s e ops old effect = .untouched ↔ effect = .untouched ∧
      (∀ j, s ≤ old + j ∧ old + j < e → dropAt (toks ops) j = false) ∧
      ∀ j, s < old + j ∧ old + j < e → addAt (toks ops) j = false := by
  induction ops generalizing old effect with
  | nil => simp [touchesLoop, dropAt, addAt]
  | cons op ops ih =>
    have hf' : Filled ops := fun o ho => hf o (List.mem_cons_of_mem _ ho)
    cases op with
    | retain n =>
      rw [touchesLoop, ih _ _ hf', toks_cons, Operation.toks]
      refine and_congr_right fun _ => and_congr ?_ ?_
      · simp only [Nat.add_assoc]
        refine forall_shift (fun j => s ≤ old + j ∧ old + j < e) (fun j hj _ => ?_) fun j => ?_
        · rw [dropAt_append, pre_keeps, if_pos hj, dropAt_keeps]
        · rw [dropAt_append, pre_keeps, if_neg (by omega), Nat.add_sub_cancel_left]
      · simp only [Nat.add_assoc]
        refine forall_shift (fun j => s < old + j ∧ old + j < e) (fun j hj _ => ?_) fun j => ?_
        · rw [addAt_append, addAt_keeps, pre_keeps, decide_eq_false (by omega)]; rfl
        · rw [addAt_append, addAt_keeps, pre_keeps, decide_eq_true (by omega),
            Nat.add_sub_cancel_left]; rfl
    | delete n =>
      have hn : n ≠ 0 := hf (.delete n) (by simp)
      rw [touchesLoop, if_neg (Nat.ne_of_lt h), toks_cons, Operation.toks]
      by_cases ho : old < e ∧ s < old + n
      · -- the first dropped character of the range
        simp only [ho, decide_true, Bool.and_self, if_true]
        refine iff_of_false (by simp) fun hc => ?_
        have hj : max s old - old < n := by omega
        have := hc.2.1 (max s old - old) (by omega)
        rw [dropAt_append, pre_drops, if_pos hj, dropAt_drops, decide_eq_true hj] at this
        exact absurd this (by simp)
      · rw [if_neg (by simpa using ho), ih _ _ hf']
        refine and_congr_right fun _ => and_congr ?_ ?_
        · simp only [Nat.add_assoc]
          refine forall_shift (fun j => s ≤ old + j ∧ old + j < e) (fun j hj h1 => ?_) fun j => ?_
          · exact absurd (by omega) ho
          · rw [dropAt_append, pre_drops, if_neg (by omega), Nat.add_sub_cancel_left]
        · simp only [Nat.add_assoc]
          refine forall_shift (fun j => s < old + j ∧ old + j < e) (fun j hj _ => ?_) fun j => ?_
          · rw [addAt_append, addAt_drops, pre_drops, decide_eq_false (by omega)]; rfl
          · rw [addAt_append, addAt_drops, pre_drops, decide_eq_true (by omega),
              Nat.add_sub_cancel_left]; rfl
    | insert t =>
      have ht : t ≠ [] := fun ht => hf (.insert t) (by simp) (by simp [Operation.len, ht])
      rw [touchesLoop, ih _ _ hf', toks_cons, Operation.toks]
      have hd : ∀ j, dropAt (adds t ++ toks ops) j = dropAt (toks ops) j := fun j => by
        rw [dropAt_append, pre_adds, if_neg (Nat.not_lt_zero j), Nat.sub_zero]
      have ha : ∀ j, addAt (adds t ++ toks ops) j = (decide (j = 0) || addAt (toks ops) j) := fun j => by
        rw [addAt_append, addAt_adds, pre_adds, List.isEmpty_eq_false_iff.mpr ht]
        simp
      simp only [hd, ha]
      by_cases hi : s < old ∧ old < e
      · rw [if_pos hi]
        refine iff_of_false (fun hc => by simp at hc) fun hc => ?_
        have := hc.2.2 0 hi
        simp at this
      · rw [if_neg hi]
        refine and_congr_right fun _ => and_congr_right fun _ => forall_congr' fun j => ?_
        by_cases hj : j = 0
        · rw [hj]
          exact ⟨fun _ h1 => absurd h1 hi, fun _ h1 => absurd h1 hi⟩
        · simp [hj]

/-- The character at `pos` lies under a retain. -/
def retainsAt : List Operation → ℕ → Bool
  | [], _ => false
  | .retain n :: ops, pos => pos < n || retainsAt ops (pos - n)
  | .delete n :: ops, pos => n ≤ pos && retainsAt ops (pos - n)
  | .insert _ :: ops, pos => retainsAt ops pos

theorem dropAt_toks {ops : List Operation} {pos : ℕ} (h : retainsAt ops pos = true) :
    dropAt (toks ops) pos = false := by
  induction ops generalizing pos with
  | nil => simp [retainsAt] at h
  | cons op ops ih =>
    cases op with
    | retain n =>
      rw [toks_cons, Operation.toks, dropAt_append, pre_keeps, dropAt_keeps]
      by_cases hn : pos < n
      · rw [if_pos hn]
      · rw [if_neg hn]
        exact ih (by simpa [retainsAt, hn] using h)
    | delete n =>
      have hn : n ≤ pos ∧ retainsAt ops (pos - n) = true := by simpa [retainsAt] using h
      rw [toks_cons, Operation.toks, dropAt_append, pre_drops, if_neg (Nat.not_lt.mpr hn.1)]
      exact ih hn.2
    | insert t =>
      rw [toks_cons, Operation.toks, dropAt_append, pre_adds, if_neg (Nat.not_lt_zero pos)]
      exact ih h

namespace ChangeSet

/-- **`mapPos` is the position map of the edit script.** -/
theorem mapPos_eq (cs : ChangeSet) (pos : ℕ) (assoc : Assoc) :
    cs.mapPos pos assoc = posMap (assoc == .after) cs.toks pos := by
  rw [mapPos, mapPosLoop_eq pos assoc cs.ops 0 0 cs.canonical (Nat.zero_le _), Nat.zero_add,
    Nat.sub_zero]
  rfl

theorem mapPos_mono (cs : ChangeSet) (assoc : Assoc) {p q : ℕ} (h : p ≤ q) :
    cs.mapPos p assoc ≤ cs.mapPos q assoc := by
  rw [mapPos_eq, mapPos_eq]
  exact posMap_mono _ _ h

/-- A mapped position stays inside the document. -/
theorem mapPos_le (cs : ChangeSet) (assoc : Assoc) {p : ℕ} (h : p ≤ cs.lenBefore) :
    cs.mapPos p assoc ≤ cs.lenAfter := by
  rw [mapPos_eq, ← cs.post_toks]
  exact posMap_le _ _ (by rwa [pre_toks])

theorem mapPos_before_le (cs : ChangeSet) (p : ℕ) : cs.mapPos p .before ≤ cs.mapPos p .after := by
  rw [mapPos_eq, mapPos_eq]
  exact posMap_false_le _ _

theorem getElem?_apply_mapPos (cs : ChangeSet) {t : Text} (ht : t.length = cs.lenBefore) {p : ℕ}
    (hp : p < cs.lenBefore) (h : retainsAt cs.ops p = true) :
    (cs.apply t)[cs.mapPos p .after]? = t[p]? := by
  rw [mapPos_eq, apply_eq cs t ht]
  exact getElem?_app_posMap _ _ (by rwa [pre_toks]) (dropAt_toks h)

/-- **Positions move soundly**: inside the document, in order, in front of an insertion or behind
it, and along with the characters they stand at. -/
theorem mapPos_sound (cs : ChangeSet) (assoc : Assoc) {p q : ℕ} (hpq : p ≤ q)
    (hq : q ≤ cs.lenBefore) :
    cs.mapPos p assoc ≤ cs.lenAfter ∧ cs.mapPos p assoc ≤ cs.mapPos q assoc ∧
      cs.mapPos p .before ≤ cs.mapPos p .after ∧
      (p < cs.lenBefore → retainsAt cs.ops p = true → ∀ t : Text, t.length = cs.lenBefore →
        (cs.apply t)[cs.mapPos p .after]? = t[p]?) :=
  ⟨cs.mapPos_le assoc (hpq.trans hq), cs.mapPos_mono assoc hpq, cs.mapPos_before_le p,
    fun hp h _ ht => cs.getElem?_apply_mapPos ht hp h⟩

/-- A letter is typed between two others: the second one moves behind it. -/
theorem mapPos_sound_typed :
    ((replace 2 1 1 ['x']).get (by decide)).mapPos 1 .after ≤ 3 ∧
      ((replace 2 1 1 ['x']).get (by decide)).mapPos 1 .after ≤
        ((replace 2 1 1 ['x']).get (by decide)).mapPos 2 .after ∧
      ((replace 2 1 1 ['x']).get (by decide)).mapPos 1 .before ≤
        ((replace 2 1 1 ['x']).get (by decide)).mapPos 1 .after ∧
      ∀ t : Text, t.length = 2 →
        (((replace 2 1 1 ['x']).get (by decide)).apply t)[2]? = t[1]? := by
  have h := mapPos_sound ((replace 2 1 1 ['x']).get (by decide)) .after (p := 1) (q := 2)
    (by decide) (by decide)
  exact ⟨h.1, h.2.1, h.2.2.1, h.2.2.2 (by decide) (by decide)⟩

/-- **A non-empty range is untouched when nothing in it is dropped or added strictly inside.** -/
theorem touches_eq_untouched (cs : ChangeSet) {s e : ℕ} (h : s < e) :
    cs.touches s e = .untouched ↔ (∀ j, s ≤ j → j < e → dropAt cs.toks j = false) ∧
      ∀ j, s < j → j < e → addAt cs.toks j = false := by
  rw [touches, touchesLoop_eq h cs.ops 0 .untouched cs.canonical.nonempty]
  simp only [true_and, Nat.zero_add, and_imp]
  rfl

end ChangeSet

namespace Selection

theorem Within.map {s : Selection} {cs : ChangeSet} (h : s.Within cs.lenBefore) :
    (s.map cs).Within cs.lenAfter := by
  intro r hr
  obtain ⟨r', hr', rfl⟩ := List.mem_map.mp hr
  exact ⟨cs.mapPos_le _ (h r' hr').1, cs.mapPos_le _ (h r' hr').2⟩

end Selection

end Termesh
