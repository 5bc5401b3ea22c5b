import Termesh.Editor.Change

/-!
# The span of a change

A change set is summed up in one range of the old document and one of the new, for the one
incremental change a server is told of.

* `changedSpan`: the smallest ranges that hold every deletion and insertion;
* `SpanInv`: two documents that agree outside the span read so far;
* **`changedSpan_faithful`**: a change set with a span is the replacement of it, and one without
  only retains.
-/

namespace Termesh

open EditScript

structure ChangedSpan where
  beforeStart : ℕ
  beforeEnd : ℕ
  afterStart : ℕ
  afterEnd : ℕ
deriving DecidableEq, Repr

/-- The loop of `changed_span`: `before` and `after` are the offsets reached, `start` the first
change and `stop` the end of the last. -/
def spanLoop : List Operation → ℕ → ℕ → Option (ℕ × ℕ) → ℕ × ℕ → Option ChangedSpan
  | [], _, _, start, stop => start.map fun s => ⟨s.1, stop.1, s.2, stop.2⟩
  | .retain n :: ops, before, after, start, stop =>
    spanLoop ops (before + n) (after + n) start stop
  | .delete n :: ops, before, after, start, _ =>
    spanLoop ops (before + n) after (some (start.getD (before, after))) (before + n, after)
  | .insert s :: ops, before, after, start, _ =>
    spanLoop ops before (after + s.length) (some (start.getD (before, after)))
      (before, after + s.length)

/-- The span of the changes, if there are any. -/
def ChangeSet.changedSpan (c : ChangeSet) : Option ChangedSpan := spanLoop c.ops 0 0 none (0, 0)

/-! ## What the loop has read -/

/-- What the loop of `changed_span` has read: `P` of the old document became `Q`, and they agree
outside the span so far. -/
def SpanInv (P Q : Text) (start : Option (ℕ × ℕ)) (stop : ℕ × ℕ) : Prop :=
  match start with
  | none => P = Q
  | some s => s.1 ≤ stop.1 ∧ stop.1 ≤ P.length ∧ s.2 ≤ stop.2 ∧ stop.2 ≤ Q.length ∧
    P.take s.1 = Q.take s.2 ∧ P.drop stop.1 = Q.drop stop.2

theorem SpanInv.retain {P Q : Text} {start : Option (ℕ × ℕ)} {stop : ℕ × ℕ}
    (h : SpanInv P Q start stop) (kept : Text) : SpanInv (P ++ kept) (Q ++ kept) start stop := by
  cases start with
  | none => exact congrArg (· ++ kept) h
  | some s =>
    obtain ⟨h1, h2, h3, h4, htake, hdrop⟩ := h
    refine ⟨h1, by simp; omega, h3, by simp; omega, ?_, ?_⟩
    · rw [List.take_append_of_le_length (by omega), List.take_append_of_le_length (by omega), htake]
    · rw [List.drop_append_of_le_length h2, List.drop_append_of_le_length h4, hdrop]

theorem SpanInv.change {P Q : Text} {start : Option (ℕ × ℕ)} {stop : ℕ × ℕ}
    (h : SpanInv P Q start stop) (gone new : Text) :
    SpanInv (P ++ gone) (Q ++ new) (some (start.getD (P.length, Q.length)))
      ((P ++ gone).length, (Q ++ new).length) := by
  cases start with
  | none =>
    obtain rfl : P = Q := h
    simp [SpanInv]
  | some s =>
    obtain ⟨h1, h2, h3, h4, htake, hdrop⟩ := h
    refine ⟨?_, Nat.le_refl _, ?_, Nat.le_refl _, ?_, by simp⟩
    · simp only [Option.getD_some, List.length_append]; omega
    · simp only [Option.getD_some, List.length_append]; omega
    · simp only [Option.getD_some]
      rw [List.take_append_of_le_length (by omega), List.take_append_of_le_length (by omega), htake]

theorem spanLoop_spec (ops : List Operation) {t P Q : Text} {start : Option (ℕ × ℕ)}
    {stop : ℕ × ℕ} {s : ChangedSpan} (hlen : pre (toks ops) = t.length)
    (h : SpanInv P Q start stop) (hs : spanLoop ops P.length Q.length start stop = some s) :
    SpanInv (P ++ t) (Q ++ applyOps ops t) (some (s.beforeStart, s.afterStart))
      (s.beforeEnd, s.afterEnd) := by
  induction ops generalizing t P Q start stop with
  | nil =>
    have ht : t = [] := List.length_eq_zero_iff.mp hlen.symm
    obtain ⟨a, ha, rfl⟩ := Option.map_eq_some_iff.mp hs
    subst ht ha
    simpa [applyOps] using h
  | cons op ops ih =>
    cases op with
    | retain n =>
      have hn : n + pre (toks ops) = t.length := by simpa [Operation.toks] using hlen
      have htake : (t.take n).length = n := List.length_take_of_le (by omega)
      have hrest := ih (t := t.drop n) (P := P ++ t.take n) (Q := Q ++ t.take n)
        (by rw [List.length_drop]; omega) (h.retain (t.take n))
        (by simpa [spanLoop, htake] using hs)
      simpa [applyOps] using hrest
    | delete n =>
      have hn : n + pre (toks ops) = t.length := by simpa [Operation.toks] using hlen
      have htake : (t.take n).length = n := List.length_take_of_le (by omega)
      have hchange := h.change (t.take n) []
      simp only [List.append_nil] at hchange
      have hrest := ih (t := t.drop n) (by rw [List.length_drop]; omega) hchange
        (by simpa [spanLoop, htake] using hs)
      simpa [applyOps] using hrest
    | insert new =>
      have hn : pre (toks ops) = t.length := by simpa [Operation.toks] using hlen
      have hchange := h.change [] new
      simp only [List.append_nil] at hchange
      have hrest := ih hn hchange (by simpa [spanLoop] using hs)
      simpa [applyOps] using hrest

theorem changedSpan_spec (c : ChangeSet) {t : Text} (hlen : c.lenBefore = t.length)
    {s : ChangedSpan} (hs : c.changedSpan = some s) :
    SpanInv t (c.apply t) (some (s.beforeStart, s.afterStart)) (s.beforeEnd, s.afterEnd) :=
  have hnothing : SpanInv [] [] none (0, 0) := rfl
  spanLoop_spec c.ops (c.before_eq.trans hlen) hnothing hs

theorem spanLoop_eq_none {ops : List Operation} {before after : ℕ} {start : Option (ℕ × ℕ)}
    {stop : ℕ × ℕ} : spanLoop ops before after start stop = none ↔
      start = none ∧ (∀ n, .delete n ∉ ops) ∧ ∀ s, .insert s ∉ ops := by
  induction ops generalizing before after start stop with
  | nil => simp [spanLoop]
  | cons op ops ih =>
    cases op with
    | retain n => simp [spanLoop, ih]
    | delete n =>
      have hchanged : ¬ ∀ k, .delete k ∉ Operation.delete n :: ops := fun h => h n (by simp)
      simp only [spanLoop, ih, hchanged, reduceCtorEq, false_and, and_false]
    | insert s =>
      have hchanged : ¬ ∀ t, .insert t ∉ Operation.insert s :: ops := fun h => h s (by simp)
      simp only [spanLoop, ih, hchanged, reduceCtorEq, false_and, and_false]

/-! ## The span of a change set -/

/-- Both ranges begin where the first change is, since all before it is retained. -/
theorem SpanInv.starts {P Q : Text} {a b : ℕ × ℕ} (h : SpanInv P Q (some a) b) : a.1 = a.2 := by
  obtain ⟨h1, h2, h3, h4, htake, -⟩ := h
  have hlen := congrArg List.length htake
  rwa [List.length_take_of_le (h1.trans h2), List.length_take_of_le (h3.trans h4)] at hlen

theorem SpanInv.replace {P Q : Text} {a b : ℕ × ℕ} (h : SpanInv P Q (some a) b) :
    P.take a.1 ++ (Q.take b.2).drop a.2 ++ P.drop b.1 = Q := by
  obtain ⟨-, -, h3, -, htake, hdrop⟩ := h
  have hmid : Q.take a.2 ++ (Q.take b.2).drop a.2 = Q.take b.2 := by
    conv_rhs => rw [← List.take_append_drop a.2 (Q.take b.2), List.take_take, Nat.min_eq_left h3]
  rw [htake, hdrop, hmid, List.take_append_drop]

/-- **The span sums a change set up.** There is none exactly when nothing is deleted or inserted;
else the two documents agree in front of it and behind it, and its text is the whole change. -/
theorem changedSpan_faithful (c : ChangeSet) (t : Text) (hlen : t.length = c.lenBefore) :
    (c.changedSpan = none ↔ (∀ n, .delete n ∉ c.ops) ∧ ∀ s, .insert s ∉ c.ops) ∧
      ∀ s, c.changedSpan = some s →
        s.beforeStart ≤ s.beforeEnd ∧ s.beforeEnd ≤ t.length ∧
        s.afterStart ≤ s.afterEnd ∧ s.afterEnd ≤ (c.apply t).length ∧
        s.beforeStart = s.afterStart ∧
        t.take s.beforeStart = (c.apply t).take s.afterStart ∧
        t.drop s.beforeEnd = (c.apply t).drop s.afterEnd ∧
        t.take s.beforeStart ++ ((c.apply t).take s.afterEnd).drop s.afterStart ++
          t.drop s.beforeEnd = c.apply t := by
  refine ⟨?_, fun s hs => ?_⟩
  · rw [ChangeSet.changedSpan, spanLoop_eq_none]
    exact and_iff_right rfl
  · have hspan := changedSpan_spec c hlen.symm hs
    have ⟨h1, h2, h3, h4, htake, hdrop⟩ := hspan
    exact ⟨h1, h2, h3, h4, hspan.starts, htake, hdrop, hspan.replace⟩

/-- Two letters of five are replaced by three. -/
def replaced : ChangeSet := (ChangeSet.replace 5 1 3 ['a', 'b', 'c']).get (by decide)

theorem changedSpan_faithful_replaced :
    replaced.changedSpan = some ⟨1, 3, 1, 4⟩ ∧
      ['v', 'w', 'x', 'y', 'z'].take 1 ++
        ((replaced.apply ['v', 'w', 'x', 'y', 'z']).take 4).drop 1 ++
          ['v', 'w', 'x', 'y', 'z'].drop 3 = replaced.apply ['v', 'w', 'x', 'y', 'z'] := by
  have hspan : replaced.changedSpan = some ⟨1, 3, 1, 4⟩ := by decide
  obtain ⟨-, hsome⟩ := changedSpan_faithful replaced ['v', 'w', 'x', 'y', 'z'] (by decide)
  obtain ⟨-, -, -, -, -, -, -, hreplace⟩ := hsome _ hspan
  exact ⟨hspan, hreplace⟩

end Termesh
