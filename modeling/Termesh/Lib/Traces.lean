import Termesh.Lib.Position

/-!
# Scripts over labelled elements

Run over the places of the elements themselves, a script leaves a trace: which elements it keeps and
what it adds between them. The trace and the length read determine the normal form.

* `trace`: what is left of the places `k`, `k + 1`, …, with what is added;
* `rebuild`, **`rebuild_trace`**: the normal form, from the trace;
* `lift`, **`trace_comp`**: the trace of a composition;
* **`nf_comp`**, **`comp_assoc`**: composition respects normal forms, and is associative on them;
* `fore`, `aft`: a script cut at an offset, with `fore_append_aft` and `post_fore`.
-/

namespace EditScript

open Tok

variable {α β : Type*}

/-- What a script leaves of the places from `k` on, and what it adds. -/
@[simp] def trace (k : ℕ) : Script α → List (ℕ ⊕ α)
  | [] => []
  | keep :: s => .inl k :: trace (k + 1) s
  | drop :: s => trace (k + 1) s
  | add a :: s => .inr a :: trace k s

/-- The script in normal form that reads `n` elements and leaves a trace. -/
@[simp] def rebuild (k n : ℕ) : List (ℕ ⊕ α) → Script α
  | [] => drops n
  | .inl j :: l => drops (j - k) ++ keep :: rebuild (j + 1) (n - (j - k) - 1) l
  | .inr a :: l => slide a (rebuild k n l)

theorem le_of_mem_trace {s : Script α} {k j : ℕ} (h : .inl j ∈ trace k s) : k ≤ j := by
  induction s generalizing k with
  | nil => simp [trace] at h
  | cons x s ih =>
    cases x with
    | keep =>
      rcases List.mem_cons.mp h with h | h
      · exact Nat.le_of_eq (Sum.inl.inj h).symm
      · exact Nat.le_of_succ_le (ih h)
    | drop => exact Nat.le_of_succ_le (ih h)
    | add a => exact ih (by simpa [trace] using h)

/-- One place more is one more dropped in front, if no place left is that early. -/
theorem rebuild_succ {l : List (ℕ ⊕ α)} {k : ℕ} (n : ℕ) (h : ∀ j, .inl j ∈ l → k + 1 ≤ j) :
    rebuild k (n + 1) l = drop :: rebuild (k + 1) n l := by
  induction l with
  | nil => rfl
  | cons x l ih =>
    cases x with
    | inl j =>
      have hj := h j List.mem_cons_self
      have hk : j - k = j - (k + 1) + 1 := by omega
      have hn : n + 1 - (j - k) - 1 = n - (j - (k + 1)) - 1 := by omega
      rw [rebuild, rebuild, hn, hk]
      rfl
    | inr a =>
      rw [rebuild, rebuild, ih fun j hj => h j (List.mem_cons_of_mem _ hj)]
      rfl

/-- **The normal form is determined by the trace.** -/
theorem rebuild_trace (s : Script α) (k : ℕ) : rebuild k (pre s) (trace k s) = nf s := by
  induction s generalizing k with
  | nil => rfl
  | cons x s ih =>
    cases x with
    | keep =>
      rw [trace, rebuild, Nat.sub_self, pre, Nat.sub_zero, Nat.add_sub_cancel, ih]
      rfl
    | drop => rw [trace, pre, rebuild_succ _ fun j hj => le_of_mem_trace hj, ih]; rfl
    | add a => rw [trace, rebuild, pre, ih]; rfl

theorem nf_ext {s t : Script α} (hp : pre s = pre t) (ht : trace 0 s = trace 0 t) : nf s = nf t := by
  rw [← rebuild_trace s 0, ← rebuild_trace t 0, hp, ht]

theorem trace_slide (a : α) (s : Script α) (k : ℕ) : trace k (slide a s) = .inr a :: trace k s := by
  induction s generalizing k with
  | nil => rfl
  | cons x s ih =>
    cases x with
    | keep | add b => rfl
    | drop => exact ih (k + 1)

@[simp] theorem trace_nf (s : Script α) (k : ℕ) : trace k (nf s) = trace k s := by
  induction s generalizing k with
  | nil => rfl
  | cons x s ih =>
    cases x with
    | keep | drop => simp [nf, trace, ih]
    | add a => rw [nf, trace_slide, ih]; rfl

theorem length_trace (s : Script α) (k : ℕ) : (trace k s).length = post s := by
  induction s generalizing k with
  | nil => rfl
  | cons x s ih => cases x <;> simp [trace, post, ih]

theorem trace_append (s t : Script α) (k : ℕ) :
    trace k (s ++ t) = trace k s ++ trace (k + pre s) t := by
  induction s generalizing k with
  | nil => rfl
  | cons x s ih =>
    cases x with
    | keep | drop =>
      simp only [List.cons_append, trace, ih, pre]
      rw [Nat.add_right_comm, Nat.add_assoc]
    | add a => simp [trace, ih, pre]

/-- A script over a larger alphabet. -/
def lift (s : Script α) : Script (β ⊕ α) :=
  s.map fun
    | keep => keep
    | drop => drop
    | add a => add (.inr a)

@[simp] theorem pre_lift (s : Script α) : pre (lift s : Script (β ⊕ α)) = pre s := by
  induction s with
  | nil => rfl
  | cons x s ih => cases x <;> simpa [lift, pre] using ih

@[simp] theorem post_lift (s : Script α) : post (lift s : Script (β ⊕ α)) = post s := by
  induction s with
  | nil => rfl
  | cons x s ih => cases x <;> simpa [lift, post] using ih

theorem lift_slide (a : α) (s : Script α) :
    (lift (slide a s) : Script (β ⊕ α)) = slide (.inr a) (lift s) := by
  induction s with
  | nil => rfl
  | cons x s ih =>
    cases x with
    | keep | add b => rfl
    | drop => exact congrArg (drop :: ·) ih

theorem lift_nf (s : Script α) : (lift (nf s) : Script (β ⊕ α)) = nf (lift s) := by
  induction s with
  | nil => rfl
  | cons x s ih =>
    cases x with
    | keep | drop => exact congrArg (_ :: ·) ih
    | add a =>
      rw [nf, lift_slide, ih]
      rfl

theorem app_lift_places (s : Script α) (k : ℕ) :
    app (lift s) ((List.range' k (pre s)).map .inl) = trace k s := by
  induction s generalizing k with
  | nil => rfl
  | cons x s ih =>
    cases x with
    | keep => exact congrArg (.inl k :: ·) (ih (k + 1))
    | drop => exact ih (k + 1)
    | add a => exact congrArg (.inr a :: ·) (ih k)

/-- **A composition leaves the trace of the second script over the trace of the first.** -/
theorem Meet.trace_comp {s t : Script α} (h : Meet s t) (k : ℕ) :
    trace k (comp s t) = app (lift t) (trace k s) := by
  induction h generalizing k with
  | nil => rw [comp_nil]; rfl
  | drop h ih => rw [comp_drop]; exact ih (k + 1)
  | add c hs h ih => rw [comp_add _ _ c hs]; exact congrArg (.inr c :: ·) (ih k)
  | keep_keep h ih => rw [comp_keep_keep]; exact congrArg (.inl k :: ·) (ih (k + 1))
  | keep_drop h ih => rw [comp_keep_drop]; exact ih (k + 1)
  | add_keep a h ih => rw [comp_add_keep]; exact congrArg (.inr a :: ·) (ih k)
  | add_drop a h ih => rw [comp_add_drop]; exact ih k

theorem Meet.app_lift_comp {s t : Script α} (h : Meet s t) (l : List (β ⊕ α))
    (hs : pre s = l.length) : app (lift (comp s t)) l = app (lift t) (app (lift s) l) := by
  induction h generalizing l with
  | nil => rw [comp_nil]; rfl
  | add c hd h ih => rw [comp_add _ _ c hd]; exact congrArg (.inr c :: ·) (ih l hs)
  | add_keep a h ih =>
    rw [comp_add_keep]
    exact congrArg (.inr a :: ·) (ih l hs)
  | add_drop a h ih => rw [comp_add_drop]; exact ih l hs
  | drop h ih =>
    cases l with
    | nil => simp [pre] at hs
    | cons x l => rw [comp_drop]; exact ih l (by simpa [pre] using hs)
  | keep_keep h ih =>
    cases l with
    | nil => simp [pre] at hs
    | cons x l => rw [comp_keep_keep]; exact congrArg (x :: ·) (ih l (by simpa [pre] using hs))
  | keep_drop h ih =>
    cases l with
    | nil => simp [pre] at hs
    | cons x l => rw [comp_keep_drop]; exact ih l (by simpa [pre] using hs)

section Comp

variable {s t u : Script α}

/-- **Composition respects normal forms.** -/
theorem nf_comp (h : post s = pre t) : nf (comp (nf s) (nf t)) = nf (comp s t) := by
  have hnf : post (nf s) = pre (nf t) := by rw [post_nf, pre_nf, h]
  have hm := Meet.of_eq s t h
  have hmnf := Meet.of_eq (nf s) (nf t) hnf
  refine nf_ext (by rw [hm.pre_comp, hmnf.pre_comp, pre_nf]) ?_
  rw [hm.trace_comp, hmnf.trace_comp, trace_nf, lift_nf, app_nf]
  rw [pre_lift, length_trace]
  exact Nat.le_of_eq h.symm

/-- **Composition is associative, up to the normal form.** -/
theorem comp_assoc (h : post s = pre t) (h' : post t = pre u) :
    nf (comp (comp s t) u) = nf (comp s (comp t u)) := by
  have hst := Meet.of_eq s t h
  have htu := Meet.of_eq t u h'
  have hleft := Meet.of_eq (comp s t) u (hst.post_comp.trans h')
  have hright := Meet.of_eq s (comp t u) (h.trans htu.pre_comp.symm)
  refine nf_ext ?_ ?_
  · rw [hleft.pre_comp, hst.pre_comp, hright.pre_comp]
  · rw [hleft.trace_comp, hst.trace_comp, hright.trace_comp, htu.app_lift_comp]
    rw [length_trace, h]

theorem comp_keeps_left (s : Script α) : nf (comp (keeps (pre s)) s) = nf s := by
  have hm : Meet (keeps (pre s)) s := Meet.of_eq _ _ (post_keeps _)
  refine nf_ext (by rw [hm.pre_comp, pre_keeps]) ?_
  have hplaces : ∀ n k : ℕ, trace k (keeps n : Script α) = (List.range' k n).map .inl := by
    intro n
    induction n with
    | zero => exact fun k => rfl
    | succ n ih => exact fun k => by simp [List.replicate_succ, trace, List.range'_succ, ih]
  rw [hm.trace_comp, hplaces, app_lift_places]

theorem comp_keeps_right (s : Script α) : nf (comp s (keeps (post s))) = nf s := by
  have hm : Meet s (keeps (post s)) := Meet.of_eq _ _ (pre_keeps _).symm
  refine nf_ext hm.pre_comp ?_
  have hkeep : (lift (keeps (post s)) : Script (ℕ ⊕ α)) = keeps (trace 0 s).length := by
    rw [length_trace]
    exact List.map_replicate
  have happ := app_keeps [] (trace 0 s) []
  rw [List.append_nil, List.append_nil] at happ
  rw [hm.trace_comp, hkeep, happ]
  exact List.append_nil _

end Comp

/-! ## Reading a trace -/

theorem mem_trace {s : Script α} {k j : ℕ} :
    .inl (k + j) ∈ trace k s ↔ j < pre s ∧ dropAt s j = false := by
  induction s generalizing k j with
  | nil => simp [trace, pre]
  | cons x s ih =>
    have hshift : ∀ j, k + (j + 1) = k + 1 + j := fun j => by omega
    cases x with
    | keep =>
      cases j with
      | zero => simp [trace, pre, dropAt]
      | succ j =>
        have hne : k + 1 + j ≠ k := by omega
        rw [hshift, trace, List.mem_cons, ih]
        simp [pre, dropAt, hne]
    | drop =>
      cases j with
      | zero =>
        have hlate : Sum.inl k ∉ trace (k + 1) s := fun h =>
          absurd (le_of_mem_trace h) (Nat.not_succ_le_self k)
        simp [trace, dropAt, hlate]
      | succ j =>
        rw [hshift, trace, ih]
        simp [pre, dropAt]
    | add a => simp [trace, pre, dropAt, ih]

/-- Nothing is added between neighbours that are still neighbours. -/
theorem addAt_of_trace {s : Script α} {k j : ℕ} {l r : List (ℕ ⊕ α)}
    (h : trace k s = l ++ .inl (k + j) :: .inl (k + j + 1) :: r) : addAt s (j + 1) = false := by
  induction s generalizing k j l with
  | nil => simp [trace] at h
  | cons x s ih =>
    -- a place that is not the first one left
    have hlater : ∀ {l : List (ℕ ⊕ α)},
        trace (k + 1) s = l ++ .inl (k + j) :: .inl (k + j + 1) :: r → ∃ i, j = i + 1 ∧
          trace (k + 1) s = l ++ .inl (k + 1 + i) :: .inl (k + 1 + i + 1) :: r := by
      intro l h
      have hmem : .inl (k + j) ∈ trace (k + 1) s := by
        rw [h]
        exact List.mem_append_right _ List.mem_cons_self
      have hle : k + 1 ≤ k + j := le_of_mem_trace hmem
      obtain ⟨i, rfl⟩ : ∃ i, j = i + 1 := ⟨j - 1, by omega⟩
      have hi : k + (i + 1) = k + 1 + i := by omega
      exact ⟨i, rfl, by rw [h, hi]⟩
    cases x with
    | keep =>
      rw [addAt]
      cases l with
      | nil =>
        obtain ⟨hj, hrest⟩ := List.cons.inj h
        have hj : k = k + j := Sum.inl.inj hj
        obtain rfl : j = 0 := by omega
        cases s with
        | nil => rfl
        | cons y s =>
          cases y with
          | keep | drop => rfl
          | add b => cases (List.cons.inj hrest).1
      | cons y l =>
        obtain ⟨i, rfl, hi⟩ := hlater (List.cons.inj h).2
        exact ih hi
    | drop =>
      obtain ⟨i, rfl, hi⟩ := hlater h
      exact ih hi
    | add a =>
      cases l with
      | nil => cases (List.cons.inj h).1
      | cons y l => exact ih (List.cons.inj h).2

/-! ## Cutting a script at an offset -/

/-- A script up to an offset, with what is added there. -/
@[simp] def fore : ℕ → Script α → Script α
  | q, add a :: s => add a :: fore q s
  | q + 1, keep :: s => keep :: fore q s
  | q + 1, drop :: s => drop :: fore q s
  | _, _ => []

/-- The rest of a script from an offset on. -/
@[simp] def aft : ℕ → Script α → Script α
  | q, add _ :: s => aft q s
  | q + 1, keep :: s => aft q s
  | q + 1, drop :: s => aft q s
  | _, s => s

theorem fore_append_aft (q : ℕ) (s : Script α) : fore q s ++ aft q s = s := by
  induction s generalizing q with
  | nil => cases q <;> rfl
  | cons x s ih =>
    cases x with
    | add a => exact congrArg (add a :: ·) (ih q)
    | keep | drop =>
      cases q with
      | zero => rfl
      | succ q => exact congrArg (_ :: ·) (ih q)

theorem pre_fore {q : ℕ} {s : Script α} (h : q ≤ pre s) : pre (fore q s) = q := by
  induction s generalizing q with
  | nil =>
    obtain rfl : q = 0 := by simpa [pre] using h
    rfl
  | cons x s ih =>
    cases x with
    | add a => exact ih h
    | keep | drop =>
      cases q with
      | zero => rfl
      | succ q => simpa [fore, pre] using ih (by simpa [pre] using h)

theorem pre_aft {q : ℕ} {s : Script α} (h : q ≤ pre s) : pre (aft q s) = pre s - q := by
  have hsum := congrArg pre (fore_append_aft q s)
  rw [pre_append, pre_fore h] at hsum
  omega

/-- The part up to an offset writes up to where the offset lands. -/
theorem post_fore {q : ℕ} {s : Script α} (h : q ≤ pre s) : post (fore q s) = posMap true s q := by
  induction s generalizing q with
  | nil =>
    obtain rfl : q = 0 := by simpa [pre] using h
    rfl
  | cons x s ih =>
    cases x with
    | add a => cases q <;> simp [fore, post, posMap, ih h]
    | keep | drop =>
      cases q with
      | zero => rfl
      | succ q => simpa [fore, post, posMap] using ih (by simpa [pre] using h)

theorem aft_ne_add (q : ℕ) (s : Script α) (a : α) (r : Script α) : aft q s ≠ add a :: r := by
  induction s generalizing q with
  | nil => cases q <;> simp [aft]
  | cons x s ih =>
    cases x with
    | add b => exact ih q
    | keep | drop =>
      cases q with
      | zero => simp [aft]
      | succ q => exact ih q

theorem fore_of_undisturbed {n : ℕ} {s : Script α} (hn : n ≤ pre s)
    (hd : ∀ j < n, dropAt s j = false) (ha : ∀ j < n, addAt s j = false) :
    ∃ w, fore n s = keeps n ++ adds w := by
  induction n generalizing s with
  | zero =>
    clear hn hd ha
    induction s with
    | nil => exact ⟨[], rfl⟩
    | cons x s ih =>
      cases x with
      | add a =>
        obtain ⟨w, hw⟩ := ih
        exact ⟨a :: w, congrArg (add a :: ·) hw⟩
      | keep | drop => exact ⟨[], rfl⟩
  | succ n ih =>
    cases s with
    | nil => simp [pre] at hn
    | cons x s =>
      cases x with
      | add a => exact absurd (ha 0 (Nat.succ_pos n)) (by simp [addAt])
      | drop => exact absurd (hd 0 (Nat.succ_pos n)) (by simp [dropAt])
      | keep =>
        obtain ⟨w, hw⟩ := ih (s := s) (by simpa [pre] using hn)
          (fun j hj => by simpa [dropAt] using hd (j + 1) (Nat.succ_lt_succ hj))
          (fun j hj => by simpa [addAt] using ha (j + 1) (Nat.succ_lt_succ hj))
        exact ⟨w, congrArg (keep :: ·) hw⟩

end EditScript
