import Termesh.Editor.Decoration
import Termesh.Editor.Positions
import Termesh.Lib.Halves

/-!
# What a carried decoration covers

Both ends of a decoration land behind what is typed at them. So text typed at its start stays
outside, and text typed at its end comes in.

* **`DecorationSet.covers_iff`**: a decoration still covers its own text, and no more, just when
  nothing is inserted at its end;
* **`DecorationSet.covers_more`**: a letter typed behind a keyword is painted with it.
-/

namespace Termesh

open EditScript

theorem addAt_of_lt {s : Script Char} {p : ℕ} (h : pre s < p) : addAt s p = false := by
  induction s generalizing p with
  | nil => cases p <;> rfl
  | cons x s ih =>
    cases p with
    | zero => exact absurd h (Nat.not_lt_zero _)
    | succ p =>
      cases x with
      | add a => exact ih h
      | keep | drop => exact ih (by simpa [pre] using h)

theorem posMap_of_le {s : Script Char} {p : ℕ} (h : pre s ≤ p) :
    posMap true s p = post s + (p - pre s) := by
  induction s generalizing p with
  | nil => simp [posMap, pre, post]
  | cons x s ih =>
    cases x with
    | add a =>
      have hrest := ih (p := p) h
      cases p <;> simp only [posMap, hrest, post, pre, if_true] <;> omega
    | keep | drop =>
      cases p with
      | zero => simp [pre] at h
      | succ p =>
        have hrest := ih (p := p) (by simpa [pre] using h)
        simp only [posMap, hrest, post, pre]
        omega

theorem stretch_of_undisturbed {s : Script Char} {p q : ℕ} (hpq : p < q) (hq : q ≤ pre s)
    (hd : ∀ j, p ≤ j → j < q → dropAt s j = false) (ha : ∀ j, p < j → j < q → addAt s j = false) :
    ∃ w, fore (q - p) (aft p s) = keeps (q - p) ++ adds w ∧ (addAt s q = false ↔ w = []) := by
  have hp : p ≤ pre s := by omega
  obtain ⟨w, hw⟩ := fore_of_undisturbed (n := q - p) (s := aft p s)
    (by rw [pre_aft hp]; omega)
    (fun j hj => by rw [dropAt_aft hp]; exact hd _ (by omega) (by omega))
    (fun j hj => by
      cases j with
      | zero => exact addAt_aft_zero p s
      | succ j => exact addAt_aft hp (ha _ (by omega) (by omega)))
  refine ⟨w, hw, ?_⟩
  have hsplit : s = fore p s ++ (keeps (q - p) ++ adds w) ++ aft q s := by
    have hcut := fore_add p (q - p) s
    rw [Nat.add_sub_of_le (Nat.le_of_lt hpq), hw] at hcut
    rw [← hcut, fore_append_aft]
  have hpre : pre (fore p s ++ (keeps (q - p) ++ adds w)) = q := by
    rw [pre_append, pre_append, pre_fore hp, pre_keeps, pre_adds]
    omega
  have hread : addAt s q = addAt (adds w) 0 := by
    conv_lhs => rw [hsplit]
    rw [addAt_append, addAt_append, addAt_of_lt (by rw [pre_fore hp]; exact hpq), addAt_append,
      addAt_keeps, hpre, pre_fore hp, pre_keeps, Nat.sub_self, Nat.sub_self, addAt_aft_zero]
    simp [Nat.le_of_lt hpq]
  rw [hread, addAt_adds]
  simp

namespace ChangeSet

/-- What stands between the images of the ends of an untouched range is its text, and what is
inserted at its end. -/
theorem extract_apply {cs : ChangeSet} {t : Text} (ht : t.length = cs.lenBefore) {start stop : ℕ}
    (hlt : start < stop) (hstop : stop ≤ t.length) (htouches : cs.touches start stop = .untouched) :
    ∃ w, (cs.apply t).extract (cs.mapPos start .after) (cs.mapPos stop .after) =
      t.extract start stop ++ w ∧ (addAt cs.toks stop = false ↔ w = []) := by
  have hpre : pre cs.toks = t.length := by rw [pre_toks, ht]
  have hq : stop ≤ pre cs.toks := by rw [hpre]; exact hstop
  have hp : start ≤ pre cs.toks := by omega
  obtain ⟨hd, ha⟩ := (cs.touches_eq_untouched hlt).mp htouches
  obtain ⟨w, hw, hiff⟩ := stretch_of_undisturbed hlt hq hd ha
  refine ⟨w, ?_, hiff⟩
  have hcut : fore stop cs.toks = fore start cs.toks ++ (keeps (stop - start) ++ adds w) := by
    have hadd := fore_add start (stop - start) cs.toks
    rwa [Nat.add_sub_of_le (Nat.le_of_lt hlt), hw] at hadd
  have htext : t = t.take start ++ (t.extract start stop ++ t.drop stop) := by
    rw [List.extract_eq_take_drop]
    conv_lhs => rw [← List.take_append_drop start t, ← List.take_append_drop (stop - start) (t.drop start)]
    rw [List.drop_drop, Nat.add_sub_of_le (Nat.le_of_lt hlt)]
  have hlen : (t.extract start stop).length = stop - start := by
    rw [List.extract_eq_take_drop, List.length_take, List.length_drop]
    omega
  -- the document written is written by the three parts of the script
  have happ : cs.apply t = app (fore start cs.toks) (t.take start) ++
      ((t.extract start stop ++ w) ++ app (aft stop cs.toks) (t.drop stop)) := by
    have hfore : pre (fore start cs.toks) = (t.take start).length := by
      rw [pre_fore hp, List.length_take]
      omega
    have hkeep : app (keeps (stop - start) ++ (adds w ++ aft stop cs.toks))
        (t.extract start stop ++ t.drop stop) =
        t.extract start stop ++ app (adds w ++ aft stop cs.toks) (t.drop stop) := by
      rw [← hlen]
      exact app_keeps _ _ _
    rw [cs.apply_eq t ht]
    conv_lhs => rw [← fore_append_aft stop cs.toks, hcut, htext]
    rw [List.append_assoc, List.append_assoc, app_append hfore, hkeep, app_adds, List.append_assoc]
  have hfront : (app (fore start cs.toks) (t.take start)).length = cs.mapPos start .after := by
    rw [length_app _ _ (by rw [pre_fore hp, List.length_take]; omega), post_fore hp, mapPos_eq]
    rfl
  have hback : cs.mapPos stop .after = cs.mapPos start .after + (t.extract start stop ++ w).length := by
    rw [mapPos_eq, mapPos_eq]
    show posMap true _ _ = posMap true _ _ + _
    rw [← post_fore hq, ← post_fore hp, hcut, post_append, post_append, post_keeps, post_adds,
      List.length_append, hlen]
  rw [happ, hback, List.extract_eq_take_drop, Nat.add_sub_cancel_left, ← hfront,
    List.drop_left, List.take_left]

theorem extract_apply_behind {cs : ChangeSet} {t : Text} (ht : t.length = cs.lenBefore)
    {start stop : ℕ} (hlt : start < stop) (hstop : t.length < stop)
    (htouches : cs.touches start stop = .untouched) :
    (cs.apply t).extract (cs.mapPos start .after) (cs.mapPos stop .after) = t.extract start stop := by
  have hpre : pre cs.toks = t.length := by rw [pre_toks, ht]
  have hlen : (cs.apply t).length = post cs.toks := by rw [cs.length_apply t ht, post_toks]
  have hend : ∀ p, t.length ≤ p → cs.mapPos p .after = post cs.toks + (p - t.length) := by
    intro p hp
    rw [mapPos_eq, ← hpre]
    exact posMap_of_le (by rw [hpre]; exact hp)
  by_cases hs : start < t.length
  · obtain ⟨hd, ha⟩ := (cs.touches_eq_untouched hlt).mp htouches
    have hwhole : cs.touches start t.length = .untouched :=
      (cs.touches_eq_untouched hs).mpr ⟨fun j h h' => hd j h (by omega), fun j h h' => ha j h (by omega)⟩
    obtain ⟨w, hw, hiff⟩ := extract_apply ht hs le_rfl hwhole
    obtain rfl := hiff.mp (ha t.length hs hstop)
    -- both texts end in front of the end of the range
    have hcut : ∀ (u : Text) (a b : ℕ), u.length ≤ b → u.extract a b = u.drop a := by
      intro u a b hb
      rw [List.extract_eq_take_drop, List.take_of_length_le]
      rw [List.length_drop]
      omega
    rw [hcut _ _ _ (by rw [hlen, hend _ (Nat.le_of_lt hstop)]; omega), hcut _ _ _ (Nat.le_of_lt hstop)]
    rw [hcut _ _ _ (by rw [hlen, hend _ le_rfl]; omega), hcut _ _ _ le_rfl, List.append_nil] at hw
    exact hw
  · have hnone : ∀ (u : Text) (a b : ℕ), u.length ≤ a → u.extract a b = [] := by
      intro u a b ha
      rw [List.extract_eq_take_drop, List.drop_eq_nil_of_le ha, List.take_nil]
    rw [hnone _ _ _ (by rw [hlen, hend _ (Nat.le_of_not_lt hs)]; omega),
      hnone _ _ _ (Nat.le_of_not_lt hs)]

end ChangeSet

namespace DecorationSet

/-- **A decoration still covers its own text**, neither more nor less of it, exactly when nothing is
inserted at its end. -/
theorem covers_iff (cs : ChangeSet) (t : Text) (ht : t.length = cs.lenBefore) (ds : DecorationSet)
    (d : Decoration) (hd : d ∈ ds) (hlt : d.start < d.stop)
    (htouches : cs.touches d.start d.stop = .untouched) :
    ∃ d', mapOne cs d = some d' ∧ d' ∈ ds.map cs ∧ d'.cls = d.cls ∧
      ((cs.apply t).extract d'.start d'.stop = t.extract d.start d.stop ↔
        addAt cs.toks d.stop = false) := by
  have hmoved : mapOne cs d =
      some ⟨cs.mapPos d.start .after, cs.mapPos d.stop .after, d.cls⟩ := by
    unfold mapOne
    rw [htouches]
    cases hcls : d.cls <;> rfl
  refine ⟨_, hmoved, List.mem_filterMap.mpr ⟨d, hd, hmoved⟩, rfl, ?_⟩
  show (cs.apply t).extract (cs.mapPos d.start .after) (cs.mapPos d.stop .after) = _ ↔ _
  by_cases hstop : d.stop ≤ t.length
  · obtain ⟨w, hw, hiff⟩ := ChangeSet.extract_apply ht hlt hstop htouches
    rw [hw, hiff]
    exact List.append_right_eq_self
  · have hstop := Nat.lt_of_not_le hstop
    have hnone : addAt cs.toks d.stop = false :=
      addAt_of_lt (by rw [cs.pre_toks, ← ht]; exact hstop)
    exact iff_of_true (ChangeSet.extract_apply_behind ht hlt hstop htouches) hnone

/-- A keyword "if", and the letter typed in front of it. -/
theorem covers_iff_keyword :
    ∃ d', mapOne ((ChangeSet.replace 2 0 0 ['x']).get (by decide)) ⟨0, 2, .syntaxSpan .keyword⟩ =
        some d' ∧
      d' ∈ DecorationSet.map [⟨0, 2, .syntaxSpan .keyword⟩]
        ((ChangeSet.replace 2 0 0 ['x']).get (by decide)) ∧
      d'.cls = .syntaxSpan .keyword ∧
      ((((ChangeSet.replace 2 0 0 ['x']).get (by decide)).apply ['i', 'f']).extract d'.start d'.stop =
          (['i', 'f'] : Text).extract 0 2 ↔
        addAt ((ChangeSet.replace 2 0 0 ['x']).get (by decide)).toks 2 = false) :=
  covers_iff ((ChangeSet.replace 2 0 0 ['x']).get (by decide)) ['i', 'f'] rfl
    [⟨0, 2, .syntaxSpan .keyword⟩] ⟨0, 2, .syntaxSpan .keyword⟩ List.mem_cons_self (by decide)
    (by decide)

/-- **A letter typed behind a keyword is painted with it.** -/
theorem covers_more :
    ¬ ∀ (cs : ChangeSet) (t : Text), t.length = cs.lenBefore → ∀ d : Decoration, d.start < d.stop →
      cs.touches d.start d.stop = .untouched → ∃ d', DecorationSet.map [d] cs = [d'] ∧
        (cs.apply t).extract d'.start d'.stop = t.extract d.start d.stop := by
  intro hall
  obtain ⟨d', hd', hsame⟩ := hall ((ChangeSet.replace 2 2 2 ['x']).get (by decide)) ['i', 'f'] rfl
    ⟨0, 2, .syntaxSpan .keyword⟩ (by decide) (by decide)
  obtain rfl : (⟨0, 3, .syntaxSpan .keyword⟩ : Decoration) = d' := List.cons.inj hd' |>.1
  exact absurd hsame (by decide)

end DecorationSet

end Termesh
