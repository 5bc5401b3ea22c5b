import Termesh.Agent.Proposal

/-!
# Rebased hunks and the human's text

`catchup` is the change the human made to the base text. A rebased hunk that is still clean may only
delete characters `catchup` kept.

* `Catchup`: what the diff of base and current gives on texts whose lines agree;
* `ReviewSafe`: no subset of the clean hunks deletes a character the human inserted;
* `Swallows`: a non-empty agent hunk that no human hunk touches, with a human insertion exactly at
  its end;
* **`reviewSafe_iff`**: review is safe exactly when no hunk swallows.
-/

namespace Termesh

open EditScript

/-- The human's hunks and the change they stand for. -/
structure Catchup (d : LineDiff) (base current : Text) (human : List Hunk) (cs : ChangeSet) : Prop where
  human_eq : hunksFromDiff d base current = some human
  change_eq : changesetFromHunks human base.length = some cs
  separated : Separated base.length human
  before : cs.lenBefore = base.length
  toks_eq : cs.toks = hunkScript 0 human base.length
  app_eq : app cs.toks base = current

theorem catchup_exists (d : LineDiff) {base current : Text} (hb : LinesAgree base)
    (hc : LinesAgree current) : ∃ human cs, Catchup d base current human cs := by
  obtain ⟨human, h1, h2, h3⟩ := hunksFromDiff_spec d hb hc
  obtain ⟨cs, h4, h5, h6⟩ := changesetFromHunks_spec h2.disjoint
    fun h hh => (h2.inOrder.mem hh).2
  rw [h2.sortHunks, nf_hunkScript h2.apart] at h6
  exact ⟨human, cs, h1, h4, h2, h5, h6, by rw [h6, h3]⟩

namespace Catchup

variable {d : LineDiff} {base current : Text} {human : List Hunk} {cs : ChangeSet}

theorem after (h : Catchup d base current human cs) : cs.lenAfter = current.length := by
  rw [← cs.post_toks, ← h.app_eq, length_app]
  rw [cs.pre_toks, h.before]

theorem dropAt_iff (h : Catchup d base current human cs) (j : ℕ) :
    dropAt cs.toks j = true ↔ ∃ k ∈ human, k.start ≤ j ∧ j < k.stop := by
  rw [h.toks_eq, dropAt_hunkScript h.separated.inOrder, Nat.zero_add]

theorem addAt_iff (h : Catchup d base current human cs) (j : ℕ) :
    addAt cs.toks j = true ↔ ∃ k ∈ human, k.text ≠ [] ∧ k.stop = j := by
  rw [h.toks_eq, addAt_hunkScript h.separated.inOrder, Nat.zero_add]

theorem untouched_iff (h : Catchup d base current human cs) {s e : ℕ} (hse : s < e) :
    cs.touches s e = .untouched ↔ ∀ k ∈ human, e ≤ k.start ∨ k.stop ≤ s := by
  rw [cs.touches_eq_untouched hse]
  constructor
  · rintro ⟨hd, ha⟩ k hk
    by_contra hc
    rcases h.separated.filled k hk with hfill | hfill
    · -- the first character both ranges share
      have := hd (max s k.start) (Nat.le_max_left _ _) (by omega)
      rw [Bool.eq_false_iff] at this
      exact this ((h.dropAt_iff _).mpr ⟨k, hk, Nat.le_max_right _ _, by omega⟩)
    · have hin := (h.separated.inOrder.mem hk).2.1
      by_cases hw : k.start < k.stop
      · have := hd (max s k.start) (Nat.le_max_left _ _) (by omega)
        rw [Bool.eq_false_iff] at this
        exact this ((h.dropAt_iff _).mpr ⟨k, hk, Nat.le_max_right _ _, by omega⟩)
      · have := ha k.stop (by omega) (by omega)
        rw [Bool.eq_false_iff] at this
        exact this ((h.addAt_iff _).mpr ⟨k, hk, hfill, rfl⟩)
  · intro hall
    refine ⟨fun j h1 h2 => Bool.eq_false_iff.mpr fun hj => ?_,
      fun j h1 h2 => Bool.eq_false_iff.mpr fun hj => ?_⟩
    · obtain ⟨k, hk, h3, h4⟩ := (h.dropAt_iff j).mp hj
      have := hall k hk
      omega
    · obtain ⟨k, hk, -, h3⟩ := (h.addAt_iff j).mp hj
      have := hall k hk
      have := (h.separated.inOrder.mem hk).2.1
      omega

end Catchup

/-- A clean rebased hunk is the image of one the human left alone. -/
theorem rebaseHunk_clean {human : List Hunk} {cs : ChangeSet} {h : Hunk}
    (hc : (rebaseHunk human cs h).state.isApplicable = true) :
    cs.touches h.start h.stop = .untouched ∧
      rebaseHunk human cs h =
        { h with start := cs.mapPos h.start .after, stop := cs.mapPos h.stop .after } := by
  unfold rebaseHunk at hc ⊢
  split_ifs at hc ⊢ with hid
  · simp [HunkState.isApplicable] at hc
  · cases he : cs.touches h.start h.stop with
    | untouched => exact ⟨rfl, rfl⟩
    | insertedInside | partlyDeleted =>
      rw [he] at hc
      simp [ConflictReason.fromEffect, HunkState.isApplicable] at hc

/-- No subset of the clean rebased hunks deletes a character the human inserted, and what the human
inserted survives in order. -/
def ReviewSafe (d : LineDiff) (base proposed current : Text) : Prop :=
  ∃ human catchup hunks,
    hunksFromDiff d base current = some human ∧
    changesetFromHunks human base.length = some catchup ∧
    EditProposal.hunksAgainst d base proposed current = some hunks ∧
    ∀ sub, List.Subperm sub (hunks.filter (·.state.isApplicable)) →
      ∃ cs, changesetFromHunks sub current.length = some cs ∧
        (∀ i, fresh catchup.toks i = true → dropAt cs.toks i = false) ∧
        (added catchup.toks).Sublist (cs.apply current)

/-- Some non-empty agent hunk meets no human hunk and has a human insertion exactly at its end. -/
def Swallows (d : LineDiff) (base proposed current : Text) : Prop :=
  ∃ agent human, hunksFromDiff d base proposed = some agent ∧
    hunksFromDiff d base current = some human ∧
    ∃ h ∈ agent, h.start < h.stop ∧ (∀ k ∈ human, h.stop ≤ k.start ∨ k.stop ≤ h.start) ∧
      ∃ k ∈ human, k.start = h.stop ∧ k.stop = h.stop

/-! ## When review is safe -/

theorem fresh_keeps (n i : ℕ) : fresh (keeps n : Script Char) i = false := by
  induction n generalizing i with
  | zero => rfl
  | succ n ih => cases i <;> simp [List.replicate_succ, fresh, ih]

section Rebased

variable {d : LineDiff} {base proposed current : Text} {agent human : List Hunk} {catchup : ChangeSet}

/-- Disjoint hunks over kept characters only delete kept characters. -/
theorem Catchup.safe (hc : Catchup d base current human catchup) {clean : List Hunk}
    (hd : clean.Pairwise Hunk.Disjoint) (hi : ∀ h ∈ clean, h.Inside current.length)
    (hf : ∀ h ∈ clean, ∀ i, h.start ≤ i → i < h.stop → fresh catchup.toks i = false)
    {sub : List Hunk} (hsub : List.Subperm sub clean) :
    ∃ cs, changesetFromHunks sub current.length = some cs ∧
      (∀ i, fresh catchup.toks i = true → dropAt cs.toks i = false) ∧
      (added catchup.toks).Sublist (cs.apply current) := by
  obtain ⟨l, hl, hlc⟩ := hsub
  have hd' : sub.Pairwise Hunk.Disjoint :=
    (hl.pairwise_iff fun h => h.symm).mp (hd.sublist hlc)
  have hi' : ∀ h ∈ sub, h.Inside current.length := fun h hh => hi h (hlc.mem (hl.mem_iff.mpr hh))
  obtain ⟨cs, h1, h2, h3⟩ := changesetFromHunks_spec hd' hi'
  have hdrop : ∀ i, fresh catchup.toks i = true → dropAt cs.toks i = false := by
    intro i hfi
    rw [Bool.eq_false_iff, h3, dropAt_nf]
    intro hdi
    obtain ⟨h, hh, hs, he⟩ := (dropAt_hunkScript (inOrder_sortHunks hd' hi') i).mp hdi
    rw [Nat.zero_add] at hs he
    have hh' := hlc.mem (hl.mem_iff.mpr ((List.mem_insertionSort _).mp hh))
    rw [hf h hh' i hs he] at hfi
    exact absurd hfi (by simp)
  refine ⟨cs, h1, hdrop, ?_⟩
  rw [cs.apply_eq current h2.symm, ← hc.app_eq]
  refine added_sublist (Meet.of_eq _ _ ?_) base (by rw [catchup.pre_toks, hc.before]) hdrop
  rw [catchup.post_toks, cs.pre_toks, hc.after, h2]

/-- The image of a hunk that is not empty and does not swallow holds nothing the human inserted. -/
theorem Catchup.not_fresh (hc : Catchup d base current human catchup) {h : Hunk}
    (hu : catchup.touches h.start h.stop = .untouched) (hle : h.start ≤ h.stop)
    (hsw : h.start < h.stop → (∀ k ∈ human, h.stop ≤ k.start ∨ k.stop ≤ h.start) →
      ∀ k ∈ human, ¬ (k.start = h.stop ∧ k.stop = h.stop)) {i : ℕ}
    (hs : catchup.mapPos h.start .after ≤ i) (he : i < catchup.mapPos h.stop .after) :
    fresh catchup.toks i = false := by
  have hlt : h.start < h.stop := by
    refine Nat.lt_of_le_of_ne hle fun heq => ?_
    rw [heq] at hs
    omega
  have hall := (hc.untouched_iff hlt).mp hu
  obtain ⟨hd, ha⟩ := (catchup.touches_eq_untouched hlt).mp hu
  rw [catchup.mapPos_eq] at hs he
  refine not_fresh_posMap catchup.toks hd (fun j h1 h2 => ?_) hs he hle
  by_cases hj : j = h.stop
  · -- an insertion at the end belongs to a human hunk that is empty there
    rw [Bool.eq_false_iff, hj]
    intro hadd
    obtain ⟨k, hk, -, hks⟩ := (hc.addAt_iff _).mp hadd
    have := hall k hk
    have := (hc.separated.inOrder.mem hk).2.1
    exact hsw hlt hall k hk ⟨by omega, hks⟩
  · exact ha j h1 (by omega)

/-- The clean rebased hunks are disjoint and inside the current text. -/
theorem Catchup.clean_disjoint (hc : Catchup d base current human catchup)
    (hs : Separated base.length agent) :
    ((agent.map (rebaseHunk human catchup)).filter (·.state.isApplicable)).Pairwise Hunk.Disjoint ∧
      ∀ h ∈ (agent.map (rebaseHunk human catchup)).filter (·.state.isApplicable),
        h.Inside current.length := by
  constructor
  · rw [List.pairwise_filter, List.pairwise_map]
    refine hs.apart.imp fun {h k} hhk hh hk => .inl ?_
    rw [(rebaseHunk_clean hh).2, (rebaseHunk_clean hk).2]
    exact catchup.mapPos_mono _ (Nat.le_of_lt hhk)
  · intro h hh
    obtain ⟨hm, hcl⟩ := List.mem_filter.mp hh
    obtain ⟨k, hk, rfl⟩ := List.mem_map.mp hm
    have hin := (hs.inOrder.mem hk).2
    rw [(rebaseHunk_clean hcl).2]
    refine ⟨catchup.mapPos_mono _ hin.1, ?_⟩
    rw [← hc.after]
    exact catchup.mapPos_le _ (by rw [hc.before]; exact hin.2)

theorem reviewSafe_of_not_swallows (hb : '\r' ∉ base) (hp : '\r' ∉ proposed) (hcr : '\r' ∉ current)
    (hsw : ¬ Swallows d base proposed current) : ReviewSafe d base proposed current := by
  obtain ⟨human, catchup, hc⟩ := catchup_exists d (similarLines_eq hb) (similarLines_eq hcr)
  obtain ⟨agent, ha, hs, -⟩ := hunksFromDiff_spec d (similarLines_eq hb) (similarLines_eq hp)
  by_cases hbc : base = current
  · -- nothing moved, and nothing was inserted
    subst hbc
    refine ⟨human, catchup, agent, hc.human_eq, hc.change_eq, ?_, fun sub hsub => ?_⟩
    · rw [EditProposal.hunksAgainst, ha, Option.bind_some, rebaseHunks, if_pos rfl]
    · obtain rfl : human = [] := by simpa [hunksFromDiff_self] using hc.human_eq.symm
      refine hc.safe (hs.disjoint.filter _) (fun h hh => (hs.inOrder.mem (List.mem_filter.mp hh).1).2)
        (fun _ _ i _ _ => ?_) hsub
      rw [hc.toks_eq]
      exact fresh_keeps _ i
  · refine ⟨human, catchup, agent.map (rebaseHunk human catchup), hc.human_eq, hc.change_eq, ?_,
      fun sub hsub => ?_⟩
    · rw [EditProposal.hunksAgainst, ha, Option.bind_some, rebaseHunks, if_neg hbc, hc.human_eq,
        Option.bind_some, hc.change_eq]
      rfl
    · obtain ⟨hd, hi⟩ := hc.clean_disjoint hs
      refine hc.safe hd hi (fun h hh i h1 h2 => ?_) hsub
      obtain ⟨hm, hcl⟩ := List.mem_filter.mp hh
      obtain ⟨k, hk, rfl⟩ := List.mem_map.mp hm
      obtain ⟨hu, he⟩ := rebaseHunk_clean hcl
      rw [he] at h1 h2
      exact hc.not_fresh hu (hs.inOrder.mem hk).2.1 (fun hlt hall l hl hat =>
        hsw ⟨agent, human, ha, hc.human_eq, k, hk, hlt, hall, l, hl, hat⟩) h1 h2

theorem not_reviewSafe_of_swallows (hb : '\r' ∉ base) (hp : '\r' ∉ proposed)
    (hcr : '\r' ∉ current) (hsw : Swallows d base proposed current) :
    ¬ ReviewSafe d base proposed current := by
  obtain ⟨agent, human, ha, hh, h, hm, hlt, hall, k, hk, hks, hke⟩ := hsw
  obtain ⟨human', catchup, hc⟩ := catchup_exists d (similarLines_eq hb) (similarLines_eq hcr)
  obtain rfl : human = human' := Option.some.inj (hh.symm.trans hc.human_eq)
  obtain ⟨agent', ha', hs, -⟩ := hunksFromDiff_spec d (similarLines_eq hb) (similarLines_eq hp)
  obtain rfl : agent = agent' := Option.some.inj (ha.symm.trans ha')
  rintro ⟨human', catchup', hunks, h1, h2, h3, h4⟩
  obtain rfl : human = human' := Option.some.inj (hh.symm.trans h1)
  obtain rfl : catchup = catchup' := Option.some.inj (hc.change_eq.symm.trans h2)
  have hbc : base ≠ current := by
    rintro rfl
    rw [hunksFromDiff_self, Option.some.injEq] at hh
    subst hh
    simp at hk
  rw [EditProposal.hunksAgainst, ha, Option.bind_some, rebaseHunks, if_neg hbc, hh,
    Option.bind_some, hc.change_eq] at h3
  obtain rfl := Option.some.inj h3
  -- the hunk stays clean
  have hu := (hc.untouched_iff hlt).mpr hall
  have hreb : rebaseHunk human catchup h =
      { h with start := catchup.mapPos h.start .after, stop := catchup.mapPos h.stop .after } := by
    rw [rebaseHunk, if_neg, hu]
    · rfl
    · rw [List.any_eq_true]
      rintro ⟨k', hk', he⟩
      have := hall k' hk'
      simp only [Bool.and_eq_true, beq_iff_eq] at he
      omega
  have hmem : rebaseHunk human catchup h ∈
      (agent.map (rebaseHunk human catchup)).filter (·.state.isApplicable) := by
    refine List.mem_filter.mpr ⟨List.mem_map_of_mem hm, ?_⟩
    rw [hreb]
    simp only [hs.clean h hm]
    rfl
  obtain ⟨hd, hi⟩ := hc.clean_disjoint hs
  -- accept this hunk alone
  obtain ⟨cs, hcs, hdrop, -⟩ := h4 [rebaseHunk human catchup h]
    (List.singleton_subperm_iff.mpr hmem)
  have hi' : ∀ k ∈ [rebaseHunk human catchup h], k.Inside current.length := by
    simpa using hi _ hmem
  have hd' : [rebaseHunk human catchup h].Pairwise Hunk.Disjoint := List.pairwise_singleton _ _
  obtain ⟨cs', hcs', -, ht⟩ := changesetFromHunks_spec hd' hi'
  obtain rfl : cs = cs' := Option.some.inj (hcs.symm.trans hcs')
  -- the character the human inserted last in front of its end
  have hadd : addAt catchup.toks h.stop = true := by
    refine (hc.addAt_iff _).mpr ⟨k, hk, ?_, hke⟩
    exact (hc.separated.filled k hk).resolve_left (by omega)
  obtain ⟨hpos, hfresh⟩ := fresh_of_addAt catchup.toks hadd
  have hlt' := posMap_lt_of_addAt catchup.toks hlt hadd
  have := hdrop _ hfresh
  rw [ht, dropAt_nf, Bool.eq_false_iff] at this
  refine this ((dropAt_hunkScript (inOrder_sortHunks hd' hi') _).mpr
    ⟨rebaseHunk human catchup h, by simp, ?_, ?_⟩)
  · rw [hreb, catchup.mapPos_eq, Nat.zero_add]
    exact Nat.le_sub_one_of_lt hlt'
  · rw [hreb, Nat.zero_add]
    change _ < catchup.mapPos h.stop .after
    rw [catchup.mapPos_eq]
    exact Nat.sub_lt hpos Nat.one_pos

end Rebased

/-- **Review is safe exactly when no hunk swallows.** -/
theorem reviewSafe_iff (d : LineDiff) (base proposed current : Text) (hb : '\r' ∉ base)
    (hp : '\r' ∉ proposed) (hc : '\r' ∉ current) :
    ReviewSafe d base proposed current ↔ ¬ Swallows d base proposed current :=
  ⟨fun h hs => not_reviewSafe_of_swallows hb hp hc hs h, reviewSafe_of_not_swallows hb hp hc⟩

theorem reviewSafe_iff_inserted_below :
    ReviewSafe trimDiff ['a', '\n', 'b', '\n'] ['A', '\n', 'b', '\n'] ['a', '\n', 'b', '\n', 'x', '\n'] ↔
      ¬ Swallows trimDiff ['a', '\n', 'b', '\n'] ['A', '\n', 'b', '\n']
        ['a', '\n', 'b', '\n', 'x', '\n'] :=
  reviewSafe_iff trimDiff _ _ _ (by decide) (by decide) (by decide)

/-- The agent replaces the first line, the human inserts a line directly below it. -/
theorem not_reviewSafe_inserted_at_end :
    ¬ ∀ (d : LineDiff) (base proposed current : Text), '\r' ∉ base → '\r' ∉ proposed →
      '\r' ∉ current → ReviewSafe d base proposed current := by
  intro h
  have hsw : Swallows trimDiff ['a', '\n', 'b', '\n'] ['A', '\n', 'b', '\n']
      ['a', '\n', 'x', '\n', 'b', '\n'] :=
    ⟨[⟨0, 2, ['A', '\n'], .clean⟩], [⟨2, 2, ['x', '\n'], .clean⟩], by decide, by decide,
      ⟨0, 2, ['A', '\n'], .clean⟩, by decide, by decide, by decide, by decide⟩
  exact not_reviewSafe_of_swallows (by decide) (by decide) (by decide) hsw
    (h trimDiff _ _ _ (by decide) (by decide) (by decide))

end Termesh
