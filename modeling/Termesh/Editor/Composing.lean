import Termesh.Editor.Laws
import Termesh.Lib.Traces

/-!
# Composing change sets

A canonical list of steps is the run-length encoding of its script, so what holds of scripts up to
their normal form holds of change sets on the nose.

* `runs`, **`Canonical.runs_toks`**, `ChangeSet.ext_toks`: the steps, from their script;
* **`ChangeSet.compose_sequential`**: composing is running one change set after the other;
* `ChangeSet.identity`, **`ChangeSet.compose_monoid`**: composition is associative, with identities.
-/

namespace Termesh

open EditScript Tok

/-! ## Steps from their script -/

/-- The run-length encoding of a script. -/
@[simp] def runs : Script Char → List Operation
  | [] => []
  | keep :: s =>
    match runs s with
    | .retain n :: r => .retain (n + 1) :: r
    | r => .retain 1 :: r
  | drop :: s =>
    match runs s with
    | .delete n :: r => .delete (n + 1) :: r
    | r => .delete 1 :: r
  | add c :: s =>
    match runs s with
    | .insert t :: r => .insert (c :: t) :: r
    | r => .insert [c] :: r

theorem runs_keeps (n : ℕ) {s : Script Char} {ops : List Operation} (hs : runs s = ops)
    (h : ∀ k r, ops ≠ .retain k :: r) : runs (keeps (n + 1) ++ s) = .retain (n + 1) :: ops := by
  induction n with
  | zero =>
    show runs (keep :: s) = _
    rw [runs, hs]
    split
    · exact absurd rfl (h _ _)
    · rfl
  | succ n ih =>
    show runs (keep :: (keeps (n + 1) ++ s)) = _
    rw [runs, ih]

theorem runs_drops (n : ℕ) {s : Script Char} {ops : List Operation} (hs : runs s = ops)
    (h : ∀ k r, ops ≠ .delete k :: r) : runs (drops (n + 1) ++ s) = .delete (n + 1) :: ops := by
  induction n with
  | zero =>
    show runs (drop :: s) = _
    rw [runs, hs]
    split
    · exact absurd rfl (h _ _)
    · rfl
  | succ n ih =>
    show runs (drop :: (drops (n + 1) ++ s)) = _
    rw [runs, ih]

theorem runs_adds (c : Char) (t : Text) {s : Script Char} {ops : List Operation} (hs : runs s = ops)
    (h : ∀ k r, ops ≠ .insert k :: r) : runs (adds (c :: t) ++ s) = .insert (c :: t) :: ops := by
  induction t generalizing c with
  | nil =>
    show runs (add c :: s) = _
    rw [runs, hs]
    split
    · exact absurd rfl (h _ _)
    · rfl
  | cons d t ih =>
    show runs (add c :: (adds (d :: t) ++ s)) = _
    rw [runs, ih d]

/-- **Canonical steps are the run-length encoding of their script.** -/
theorem Canonical.runs_toks {ops : List Operation} (h : Canonical ops) : runs (toks ops) = ops := by
  induction ops with
  | nil => rfl
  | cons op ops ih =>
    have hrest := ih h.tail
    have hne := h.nonempty op List.mem_cons_self
    have hnext : ∀ op' r, ops = op' :: r → op.mayPrecede op' = true := by
      rintro op' r rfl
      exact (List.isChain_cons_cons.mp h.chain).1
    cases op with
    | retain n =>
      obtain ⟨n, rfl⟩ := Nat.exists_eq_succ_of_ne_zero hne
      exact runs_keeps n hrest fun k r hr => by simpa [Operation.mayPrecede] using hnext _ _ hr
    | delete n =>
      obtain ⟨n, rfl⟩ := Nat.exists_eq_succ_of_ne_zero hne
      exact runs_drops n hrest fun k r hr => by simpa [Operation.mayPrecede] using hnext _ _ hr
    | insert t =>
      cases t with
      | nil => exact absurd rfl hne
      | cons c t =>
        exact runs_adds c t hrest fun k r hr => by simpa [Operation.mayPrecede] using hnext _ _ hr

namespace ChangeSet

theorem ext_toks {a c : ChangeSet} (h : a.toks = c.toks) : a = c := by
  refine ChangeSet.ext ?_ ?_ ?_
  · rw [← a.canonical.runs_toks, ← c.canonical.runs_toks]
    exact congrArg runs h
  · rw [← a.pre_toks, ← c.pre_toks, h]
  · rw [← a.post_toks, ← c.post_toks, h]

/-! ## Composition -/

/-- **Composing is running one change set after the other**, on every document the first reads. -/
theorem compose_sequential (a c : ChangeSet) (h : a.lenAfter = c.lenBefore) :
    ∃ d, a.compose c = some d ∧ d.lenBefore = a.lenBefore ∧ d.lenAfter = c.lenAfter ∧
      ∀ t : Text, t.length = a.lenBefore → d.apply t = c.apply (a.apply t) := by
  obtain ⟨d, hd, hbefore, hafter, -⟩ := a.compose_some c h
  exact ⟨d, hd, hbefore, hafter, fun t ht => a.compose_apply c d t h ht hd⟩

/-- A letter is typed in front of "a", and then the "a" is deleted. -/
theorem compose_sequential_typed :
    ∃ d, ((replace 1 0 0 ['x']).get (by decide)).compose ((replace 2 1 2 []).get (by decide)) = some d ∧
      d.lenBefore = 1 ∧ d.lenAfter = 1 ∧
      ∀ t : Text, t.length = 1 → d.apply t =
        ((replace 2 1 2 []).get (by decide)).apply (((replace 1 0 0 ['x']).get (by decide)).apply t) :=
  compose_sequential ((replace 1 0 0 ['x']).get (by decide)) ((replace 2 1 2 []).get (by decide))
    (by decide)

/-- `ChangeSet::identity`: the change that retains everything. -/
def identity (len : ℕ) : Option ChangeSet := (builder len).build

theorem identity_some (len : ℕ) :
    ∃ e, identity len = some e ∧ e.lenBefore = len ∧ e.lenAfter = len ∧ e.toks = keeps len := by
  obtain ⟨e, he, hbefore, htoks⟩ := ChangeSetBuilder.build_some (b := builder len) (Nat.zero_le _)
  have htoks : e.toks = keeps len := by
    refine htoks.trans ?_
    show nf (keeps (len - 0)) = keeps len
    have hnf := nf_keeps len ([] : Script Char)
    rw [List.append_nil] at hnf
    rw [Nat.sub_zero, hnf]
    exact List.append_nil _
  exact ⟨e, he, hbefore, by rw [← e.post_toks, htoks, post_keeps], htoks⟩

theorem compose_eq {a c d : ChangeSet} (h : a.lenAfter = c.lenBefore)
    (hd : nf (comp a.toks c.toks) = d.toks) : a.compose c = some d := by
  obtain ⟨d', hd', -, -, htoks⟩ := a.compose_some c h
  rw [hd', ext_toks (htoks.trans hd)]

theorem compose_assoc {a b c : ChangeSet} (h : a.lenAfter = b.lenBefore)
    (h' : b.lenAfter = c.lenBefore) :
    ∃ ab bc d, a.compose b = some ab ∧ b.compose c = some bc ∧ ab.compose c = some d ∧
      a.compose bc = some d := by
  obtain ⟨ab, hab, -, hab_after, htoks⟩ := a.compose_some b h
  obtain ⟨bc, hbc, hbc_before, -, htoks'⟩ := b.compose_some c h'
  obtain ⟨d, hd, -, -, hdtoks⟩ := ab.compose_some c (hab_after.trans h')
  refine ⟨ab, bc, d, hab, hbc, hd, compose_eq (h.trans hbc_before.symm) ?_⟩
  have hpost : post a.toks = pre b.toks := by rw [post_toks, pre_toks, h]
  have hpost' : post b.toks = pre c.toks := by rw [post_toks, pre_toks, h']
  have hm := Meet.of_eq a.toks b.toks hpost
  have hm' := Meet.of_eq b.toks c.toks hpost'
  calc nf (comp a.toks bc.toks)
      = nf (comp (nf a.toks) (nf (comp b.toks c.toks))) := by rw [a.nf_toks, htoks']
    _ = nf (comp a.toks (comp b.toks c.toks)) := nf_comp (hpost.trans hm'.pre_comp.symm)
    _ = nf (comp (comp a.toks b.toks) c.toks) := (comp_assoc hpost hpost').symm
    _ = nf (comp (nf (comp a.toks b.toks)) (nf c.toks)) :=
        (nf_comp (hm.post_comp.trans hpost')).symm
    _ = d.toks := by rw [← htoks, c.nf_toks, hdtoks]

theorem identity_compose (a : ChangeSet) : (identity a.lenBefore).bind (·.compose a) = some a := by
  obtain ⟨e, he, -, hafter, htoks⟩ := identity_some a.lenBefore
  rw [he]
  refine compose_eq hafter ?_
  rw [htoks, ← a.pre_toks, comp_keeps_left, a.nf_toks]

theorem compose_identity (a : ChangeSet) : (identity a.lenAfter).bind a.compose = some a := by
  obtain ⟨e, he, hbefore, -, htoks⟩ := identity_some a.lenAfter
  rw [he]
  refine compose_eq hbefore.symm ?_
  rw [htoks, ← a.post_toks, comp_keeps_right, a.nf_toks]

/-- **Composition is associative on the nose, and has identities.** -/
theorem compose_monoid (a b c : ChangeSet) (h : a.lenAfter = b.lenBefore)
    (h' : b.lenAfter = c.lenBefore) :
    (∃ ab bc d, a.compose b = some ab ∧ b.compose c = some bc ∧ ab.compose c = some d ∧
      a.compose bc = some d) ∧
      (identity a.lenBefore).bind (·.compose a) = some a ∧
      (identity a.lenAfter).bind a.compose = some a :=
  ⟨compose_assoc h h', a.identity_compose, a.compose_identity⟩

/-- Two letters are typed in front of "a", and then the "a" is deleted. -/
theorem compose_monoid_typed :
    (∃ ab bc d, ((replace 1 0 0 ['x']).get (by decide)).compose
        ((replace 2 1 1 ['y']).get (by decide)) = some ab ∧
      ((replace 2 1 1 ['y']).get (by decide)).compose ((replace 3 2 3 []).get (by decide)) = some bc ∧
      ab.compose ((replace 3 2 3 []).get (by decide)) = some d ∧
      ((replace 1 0 0 ['x']).get (by decide)).compose bc = some d) ∧
      (identity 1).bind (·.compose ((replace 1 0 0 ['x']).get (by decide))) =
        some ((replace 1 0 0 ['x']).get (by decide)) ∧
      (identity 2).bind ((replace 1 0 0 ['x']).get (by decide)).compose =
        some ((replace 1 0 0 ['x']).get (by decide)) :=
  compose_monoid ((replace 1 0 0 ['x']).get (by decide)) ((replace 2 1 1 ['y']).get (by decide))
    ((replace 3 2 3 []).get (by decide)) (by decide) (by decide)

end ChangeSet

end Termesh
