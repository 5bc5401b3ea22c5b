import Termesh.Editor.Change

/-!
# Change sets do what their scripts do

The loops of the source work on runs, the script library on single characters. Each operation of
`ChangeSet` is connected to the library here, once.

* **`ChangeSet.invert_some`**: `invert` on its own document does not panic and is `inv`;
* **`ChangeSet.compose_some`**: with matching lengths `compose` reaches neither its assertion nor
  its `unreachable!` arm, and is `comp`.
-/

namespace Termesh

open EditScript

theorem applyOps_eq (ops : List Operation) (t : Text) (h : pre (toks ops) = t.length) :
    applyOps ops t = app (toks ops) t := by
  induction ops generalizing t with
  | nil => rfl
  | cons op ops ih =>
    cases op with
    | insert s =>
      simp only [toks_cons, Operation.toks, pre_append, pre_adds, Nat.zero_add] at h
      rw [applyOps, ih t h, toks_cons, Operation.toks, app_adds]
    | retain n | delete n =>
      simp only [toks_cons, Operation.toks, pre_append, pre_keeps, pre_drops] at h
      have hn : (t.take n).length = n := by simp; omega
      have hr := ih (t.drop n) (by simp; omega)
      first
      | have := app_keeps (toks ops) (t.take n) (t.drop n)
        rw [hn, List.take_append_drop] at this
        rw [applyOps, hr, toks_cons, Operation.toks, this]
      | have := app_drops (toks ops) (t.take n) (t.drop n)
        rw [hn, List.take_append_drop] at this
        rw [applyOps, hr, toks_cons, Operation.toks, this]

namespace ChangeSet

@[simp] theorem pre_toks (cs : ChangeSet) : pre cs.toks = cs.lenBefore := cs.before_eq

@[simp] theorem post_toks (cs : ChangeSet) : post cs.toks = cs.lenAfter := cs.after_eq

@[simp] theorem nf_toks (cs : ChangeSet) : nf cs.toks = cs.toks := cs.canonical.nf_toks

theorem apply_eq (cs : ChangeSet) (t : Text) (h : t.length = cs.lenBefore) :
    cs.apply t = app cs.toks t :=
  applyOps_eq cs.ops t (by rw [cs.before_eq, h])

theorem length_apply (cs : ChangeSet) (t : Text) (h : t.length = cs.lenBefore) :
    (cs.apply t).length = cs.lenAfter := by
  rw [cs.apply_eq t h, length_app _ _ (by rw [pre_toks, h]), post_toks]

theorem toks_of_isIdentity (cs : ChangeSet) (h : cs.isIdentity = true) :
    cs.toks = keeps cs.lenBefore := by
  have hretain : ∀ op ∈ cs.ops, ∃ n, op = .retain n := by
    intro op hop
    have hone := List.all_eq_true.mp h op hop
    cases op with
    | retain n => exact ⟨n, rfl⟩
    | delete n => cases hone
    | insert t => cases hone
  have key : ∀ ops : List Operation, (∀ op ∈ ops, ∃ n, op = .retain n) →
      Termesh.toks ops = keeps (pre (Termesh.toks ops)) := by
    intro ops
    induction ops with
    | nil => intro _; rfl
    | cons op ops ih =>
      intro hall
      obtain ⟨n, rfl⟩ := hall op (.head _)
      rw [Termesh.toks_cons, pre_append, keeps_add, ← ih fun op hop => hall op (.tail _ hop)]
      simp [Operation.toks]
  have := key cs.ops hretain
  rwa [show pre (Termesh.toks cs.ops) = cs.lenBefore from cs.pre_toks] at this

theorem isIdentity_iff (cs : ChangeSet) :
    cs.isIdentity = true ↔ ∀ x ∈ cs.toks, x = .keep := by
  constructor
  · intro hid x hx
    rw [cs.toks_of_isIdentity hid] at hx
    exact List.eq_of_mem_replicate hx
  · intro hkeeps
    refine List.all_eq_true.mpr fun op hop => ?_
    have hlen := cs.canonical.nonempty op hop
    have hunits : ∀ x ∈ op.toks, x = .keep := fun x hx =>
      hkeeps x (List.mem_flatMap.mpr ⟨op, hop, hx⟩)
    cases op with
    | retain n => rfl
    | delete n => cases hunits .drop (List.mem_replicate.mpr ⟨hlen, rfl⟩)
    | insert t =>
      cases t with
      | nil => exact absurd rfl hlen
      | cons c t => cases hunits (.add c) List.mem_cons_self

theorem apply_of_isIdentity (cs : ChangeSet) (hid : cs.isIdentity = true) (t : Text)
    (h : t.length = cs.lenBefore) : cs.apply t = t := by
  have hk := app_keeps [] t []
  rw [List.append_nil, List.append_nil] at hk
  rw [cs.apply_eq t h, cs.toks_of_isIdentity hid, ← h, hk]
  simp [app]

end ChangeSet

/-! ## Inversion -/

theorem invertOps_spec (ops : List Operation) (t : Text) (b : ChangeSetBuilder)
    (h : pre (toks ops) = t.length) :
    (invertOps ops t b).lenBefore = b.lenBefore ∧
      nf (invertOps ops t b).toks = nf (b.toks ++ inv (toks ops) t) := by
  induction ops generalizing t b with
  | nil => simp [invertOps, inv]
  | cons op ops ih =>
    cases op with
    | insert s =>
      simp only [toks_cons, Operation.toks, pre_append, pre_adds, Nat.zero_add] at h
      obtain ⟨h1, h2⟩ := ih t (b.delete s.length) h
      refine ⟨h1, ?_⟩
      have hi : inv (adds s ++ toks ops) t = drops s.length ++ inv (toks ops) t := by
        clear h1 h2 ih h
        induction s with
        | nil => rfl
        | cons a s ih => simp [inv, ih, List.replicate_succ]
      rw [invertOps, h2, toks_cons, Operation.toks, hi,
        b.nf_delete_append]
    | retain n =>
      simp only [toks_cons, Operation.toks, pre_append, pre_keeps] at h
      obtain ⟨h1, h2⟩ := ih (t.drop n) (b.retain n) (by simp; omega)
      refine ⟨h1, ?_⟩
      have hn : (t.take n).length = n := by simp; omega
      have hi := inv_append (keeps n) (toks ops) (t.take n) (t.drop n) (by simp [hn])
      rw [List.take_append_drop, inv_keeps _ _ hn] at hi
      rw [invertOps, h2, toks_cons, Operation.toks, hi,
        b.nf_retain_append]
    | delete n =>
      simp only [toks_cons, Operation.toks, pre_append, pre_drops] at h
      obtain ⟨h1, h2⟩ := ih (t.drop n) (b.insert (t.take n)) (by simp; omega)
      refine ⟨h1, ?_⟩
      have hn : (t.take n).length = n := by simp; omega
      have hi := inv_append (drops n) (toks ops) (t.take n) (t.drop n) (by simp [hn])
      rw [List.take_append_drop, inv_drops _ _ hn] at hi
      rw [invertOps, h2, toks_cons, Operation.toks, hi,
        b.nf_insert_append]

/-- **Inversion on the own document does not panic.** -/
theorem ChangeSet.invert_some (cs : ChangeSet) (t : Text) (h : t.length = cs.lenBefore) :
    ∃ c, cs.invert t = some c ∧ c.lenBefore = cs.lenAfter ∧ c.lenAfter = cs.lenBefore ∧
      c.toks = nf (inv cs.toks t) := by
  have hp : pre cs.toks = t.length := by rw [pre_toks, h]
  obtain ⟨h1, h2⟩ := invertOps_spec cs.ops t (builder cs.lenAfter) hp
  change nf _ = nf (inv cs.toks t) at h2
  have hc : (invertOps cs.ops t (builder cs.lenAfter)).consumed = cs.lenAfter := by
    rw [← ChangeSetBuilder.consumed_eq]
    change pre (nf (ChangeSetBuilder.toks _)) = _
    rw [h2, pre_nf, pre_inv _ _ hp, post_toks]
  obtain ⟨c, hb, hl, ht⟩ := ChangeSetBuilder.build_some (b := invertOps cs.ops t (builder cs.lenAfter))
    (by rw [hc, h1]; exact Nat.le_refl _)
  have ht' : c.toks = nf (inv cs.toks t) := by
    change Termesh.toks c.ops = _
    rw [ht, hc, h1, ← h2]
    simp [builder]
  refine ⟨c, hb, hl.trans h1, ?_, ht'⟩
  rw [← c.post_toks, ht', post_nf, post_inv _ _ hp, pre_toks]

/-- **Undoing a change restores the document.** -/
theorem ChangeSet.invert_apply (cs c : ChangeSet) (t : Text) (h : t.length = cs.lenBefore)
    (hc : cs.invert t = some c) : c.apply (cs.apply t) = t := by
  obtain ⟨c', hc', hl, -, ht⟩ := cs.invert_some t h
  obtain rfl : c' = c := Option.some.inj (hc'.symm.trans hc)
  have hp : pre cs.toks = t.length := by rw [pre_toks, h]
  have hlen := cs.length_apply t h
  rw [c'.apply_eq _ (by rw [hlen, hl]), ht, cs.apply_eq t h,
    app_nf _ _ (by rw [pre_inv _ _ hp, length_app _ _ hp]), app_inv _ _ hp]

/-! ## Composition -/

theorem toks_carry (op : Operation) (rest : List Operation) :
    toks (carry op rest) = op.toks ++ toks rest := by
  unfold carry
  split <;> rfl

theorem toks_carryInsert (s : Text) (n : ℕ) (rest : List Operation) :
    toks (carryInsert s n rest) = adds (s.drop n) ++ toks rest := by
  unfold carryInsert
  split
  · next h => rw [h]; rfl
  · rfl

theorem weight_cons (op : Operation) (ops : List Operation) :
    weight (op :: ops) = op.len + 1 + weight ops := by simp [weight]

/-- No empty step. -/
abbrev Filled (ops : List Operation) : Prop := ∀ op ∈ ops, op.len ≠ 0

theorem Filled.carry {op : Operation} {rest : List Operation} (h : Filled rest)
    (hop : ∀ s, op ≠ .insert s) : Filled (carry op rest) := by
  unfold Termesh.carry
  split
  · exact h
  · exact h
  · next h0 h1 =>
    intro o ho
    rcases List.mem_cons.mp ho with rfl | ho
    · cases o with
      | retain n => rintro rfl; exact h0 rfl
      | delete n => rintro rfl; exact h1 rfl
      | insert s => exact absurd rfl (hop s)
    · exact h o ho

theorem Filled.carryInsert {s : Text} {n : ℕ} {rest : List Operation} (h : Filled rest) :
    Filled (carryInsert s n rest) := by
  unfold Termesh.carryInsert
  split
  · exact h
  · next t ht =>
    intro o ho
    rcases List.mem_cons.mp ho with rfl | ho
    · exact fun h0 => ht (List.eq_nil_of_length_eq_zero h0)
    · exact h o ho

theorem weight_carry_le (op : Operation) (hop : ∀ s, op ≠ .insert s) (rest : List Operation) :
    weight (carry op rest) ≤ op.len + 1 + weight rest ∧
      (op.len = 0 → weight (carry op rest) = weight rest) := by
  unfold carry
  split
  · exact ⟨by omega, fun _ => rfl⟩
  · exact ⟨by omega, fun _ => rfl⟩
  · next h0 h1 =>
    refine ⟨by rw [weight_cons], fun hl => ?_⟩
    cases op with
    | retain n => exact absurd (congrArg Operation.retain hl) h0
    | delete n => exact absurd (congrArg Operation.delete hl) h1
    | insert s => exact absurd rfl (hop s)

theorem weight_carryInsert_le (s : Text) (n : ℕ) (rest : List Operation) :
    weight (carryInsert s n rest) ≤ s.length - n + 1 + weight rest ∧
      (s.length - n = 0 → weight (carryInsert s n rest) = weight rest) := by
  unfold carryInsert
  split
  · exact ⟨by omega, fun _ => rfl⟩
  · next t ht =>
    refine ⟨by rw [weight_cons]; simp [Operation.len], fun hl => ?_⟩
    exact absurd (List.drop_eq_nil_of_le (Nat.sub_eq_zero_iff_le.mp hl)) ht

/-- When two steps meet, the shorter is used up, and both lists together get lighter. -/
theorem lt_of_meet {i j w v x y : ℕ} (hx : x ≤ i - min i j + 1 + w ∧ (i - min i j = 0 → x = w))
    (hy : y ≤ j - min i j + 1 + v ∧ (j - min i j = 0 → y = v)) :
    x + y < i + 1 + w + (j + 1 + v) := by
  rcases Nat.le_total i j with h | h
  · have := hx.2 (by omega)
    omega
  · have := hy.2 (by omega)
    omega

theorem toks_ne_drop {ops : List Operation} (hf : Filled ops) (h : ∀ n ops', ops ≠ .delete n :: ops') :
    ∀ s', toks ops ≠ Tok.drop :: s' := by
  intro s' e
  cases ops with
  | nil => simp at e
  | cons op ops =>
    have h0 := hf op List.mem_cons_self
    cases op with
    | delete n => exact h n ops rfl
    | retain n =>
      obtain ⟨m, rfl⟩ := Nat.exists_eq_succ_of_ne_zero h0
      simp [Operation.toks, List.replicate_succ] at e
    | insert s =>
      cases s with
      | nil => exact h0 rfl
      | cons a s => simp [Operation.toks] at e

theorem composeLoop_spec (fuel : ℕ) (as cs : List Operation) (b : ChangeSetBuilder)
    (hfa : Filled as) (hfc : Filled cs) (hlen : post (toks as) = pre (toks cs))
    (hfuel : weight as + weight cs < fuel) :
    ∃ b', composeLoop fuel as cs b = some b' ∧ b'.lenBefore = b.lenBefore ∧
      nf b'.toks = nf (b.toks ++ comp (toks as) (toks cs)) := by
  induction fuel generalizing as cs b with
  | zero => omega
  | succ fuel ih =>
    -- what a recursive call gives once the units it emits are accounted for
    have emit : ∀ {as' cs' : List Operation} {b₁ : ChangeSetBuilder} {out : Script Char},
        Filled as' → Filled cs' → post (toks as') = pre (toks cs') →
        weight as' + weight cs' < weight as + weight cs → b₁.lenBefore = b.lenBefore →
        nf b₁.toks = nf (b.toks ++ out) →
        comp (toks as) (toks cs) = out ++ comp (toks as') (toks cs') →
        ∃ b', composeLoop fuel as' cs' b₁ = some b' ∧ b'.lenBefore = b.lenBefore ∧
          nf b'.toks = nf (b.toks ++ comp (toks as) (toks cs)) := by
      intro as' cs' b₁ out h1 h2 h3 h4 h5 h6 h7
      obtain ⟨b', hb, hl, hn⟩ := ih as' cs' b₁ h1 h2 h3 (by omega)
      refine ⟨b', hb, hl.trans h5, ?_⟩
      rw [hn, h7, ← nf_append_left, h6, nf_append_left, List.append_assoc]
    match as, cs with
    | [], [] => exact ⟨b, rfl, rfl, by simp⟩
    | .delete n :: as, cs =>
      have hfa' : Filled as := fun o ho => hfa o (List.mem_cons_of_mem _ ho)
      refine emit hfa' hfc (by simpa [Operation.toks] using hlen) ?_ rfl (b.nf_toks_delete n) ?_
      · rw [weight_cons]; omega
      · rw [toks_cons, Operation.toks, comp_drops]
    | [], .insert s :: cs =>
      have hfc' : Filled cs := fun o ho => hfc o (List.mem_cons_of_mem _ ho)
      refine emit hfa hfc' (by simpa [Operation.toks] using hlen) ?_ rfl (b.nf_toks_insert s) ?_
      · rw [weight_cons]; omega
      · rw [toks_cons, Operation.toks, comp_adds _ _ _ (by simp)]
    | .retain i :: as, .insert s :: cs =>
      have hfc' : Filled cs := fun o ho => hfc o (List.mem_cons_of_mem _ ho)
      refine emit hfa hfc' (by simpa [Operation.toks] using hlen) ?_ rfl (b.nf_toks_insert s) ?_
      · rw [weight_cons (.insert s)]; omega
      · rw [toks_cons (.insert s), Operation.toks, comp_adds _ _ _ (toks_ne_drop hfa (by simp))]
    | .insert r :: as, .insert s :: cs =>
      have hfc' : Filled cs := fun o ho => hfc o (List.mem_cons_of_mem _ ho)
      refine emit hfa hfc' (by simpa [Operation.toks] using hlen) ?_ rfl (b.nf_toks_insert s) ?_
      · rw [weight_cons (.insert s)]; omega
      · rw [toks_cons (.insert s), Operation.toks, comp_adds _ _ _ (toks_ne_drop hfa (by simp))]
    | .retain i :: as, .retain j :: cs =>
      have hfa' : Filled as := fun o ho => hfa o (List.mem_cons_of_mem _ ho)
      have hfc' : Filled cs := fun o ho => hfc o (List.mem_cons_of_mem _ ho)
      have h1 := weight_carry_le (.retain (i - min i j)) (by simp) as
      have h2 := weight_carry_le (.retain (j - min i j)) (by simp) cs
      refine emit (hfa'.carry (by simp)) (hfc'.carry (by simp)) ?_ ?_ rfl
        (b.nf_toks_retain (min i j)) ?_
      · simp only [toks_carry, toks_cons, Operation.toks, post_append, pre_append, post_keeps,
          pre_keeps] at hlen ⊢
        omega
      · simp only [weight_cons, Operation.len]
        exact lt_of_meet h1 h2
      · have hi : (keeps i : Script Char) = keeps (min i j) ++ keeps (i - min i j) :=
          keeps_split (Nat.min_le_left i j)
        have hj : (keeps j : Script Char) = keeps (min i j) ++ keeps (j - min i j) :=
          keeps_split (Nat.min_le_right i j)
        simp only [toks_carry, toks_cons, Operation.toks]
        rw [hi, hj, List.append_assoc, List.append_assoc, comp_keeps_keeps]
    | .retain i :: as, .delete j :: cs =>
      have hfa' : Filled as := fun o ho => hfa o (List.mem_cons_of_mem _ ho)
      have hfc' : Filled cs := fun o ho => hfc o (List.mem_cons_of_mem _ ho)
      have h1 := weight_carry_le (.retain (i - min i j)) (by simp) as
      have h2 := weight_carry_le (.delete (j - min i j)) (by simp) cs
      refine emit (hfa'.carry (by simp)) (hfc'.carry (by simp)) ?_ ?_ rfl
        (b.nf_toks_delete (min i j)) ?_
      · simp only [toks_carry, toks_cons, Operation.toks, post_append, pre_append, post_keeps,
          pre_drops] at hlen ⊢
        omega
      · simp only [weight_cons, Operation.len]
        exact lt_of_meet h1 h2
      · have hi : (keeps i : Script Char) = keeps (min i j) ++ keeps (i - min i j) :=
          keeps_split (Nat.min_le_left i j)
        have hj : (drops j : Script Char) = drops (min i j) ++ drops (j - min i j) :=
          drops_split (Nat.min_le_right i j)
        simp only [toks_carry, toks_cons, Operation.toks]
        rw [hi, hj, List.append_assoc, List.append_assoc, comp_keeps_drops]
    | .insert s :: as, .retain j :: cs =>
      have hfa' : Filled as := fun o ho => hfa o (List.mem_cons_of_mem _ ho)
      have hfc' : Filled cs := fun o ho => hfc o (List.mem_cons_of_mem _ ho)
      have h1 := weight_carryInsert_le s (min s.length j) as
      have h2 := weight_carry_le (.retain (j - min s.length j)) (by simp) cs
      refine emit hfa'.carryInsert (hfc'.carry (by simp)) ?_ ?_ rfl
        (b.nf_toks_insert (s.take (min s.length j))) ?_
      · simp only [toks_carry, toks_carryInsert, toks_cons, Operation.toks, post_append, pre_append,
          post_adds, pre_keeps, List.length_drop] at hlen ⊢
        omega
      · simp only [weight_cons, Operation.len]
        exact lt_of_meet h1 h2
      · have hs : (adds s : Script Char) =
            adds (s.take (min s.length j)) ++ adds (s.drop (min s.length j)) := by
          rw [← List.map_append, List.take_append_drop]
        have hj : (keeps j : Script Char) =
            keeps (s.take (min s.length j)).length ++ keeps (j - min s.length j) := by
          rw [List.length_take_of_le (Nat.min_le_left s.length j)]
          exact keeps_split (Nat.min_le_right s.length j)
        simp only [toks_carry, toks_carryInsert, toks_cons, Operation.toks]
        rw [hs, hj, List.append_assoc, List.append_assoc, comp_adds_keeps]
    | .insert s :: as, .delete j :: cs =>
      have hfa' : Filled as := fun o ho => hfa o (List.mem_cons_of_mem _ ho)
      have hfc' : Filled cs := fun o ho => hfc o (List.mem_cons_of_mem _ ho)
      have h1 := weight_carryInsert_le s (min s.length j) as
      have h2 := weight_carry_le (.delete (j - min s.length j)) (by simp) cs
      refine @emit _ _ _ [] hfa'.carryInsert (hfc'.carry (by simp)) ?_ ?_ rfl (by simp) ?_
      · simp only [toks_carry, toks_carryInsert, toks_cons, Operation.toks, post_append, pre_append,
          post_adds, pre_drops, List.length_drop] at hlen ⊢
        omega
      · simp only [weight_cons, Operation.len]
        exact lt_of_meet h1 h2
      · have hs : (adds s : Script Char) =
            adds (s.take (min s.length j)) ++ adds (s.drop (min s.length j)) := by
          rw [← List.map_append, List.take_append_drop]
        have hj : (drops j : Script Char) =
            drops (s.take (min s.length j)).length ++ drops (j - min s.length j) := by
          rw [List.length_take_of_le (Nat.min_le_left s.length j)]
          exact drops_split (Nat.min_le_right s.length j)
        simp only [toks_carry, toks_carryInsert, toks_cons, Operation.toks, List.nil_append]
        rw [hs, hj, List.append_assoc, List.append_assoc, comp_adds_drops]
    | [], .retain j :: cs | [], .delete j :: cs =>
      have := hfc _ List.mem_cons_self
      simp [Operation.toks, Operation.len, post] at hlen this
      omega
    | .retain i :: as, [] | .insert s :: as, [] =>
      have := hfa _ List.mem_cons_self
      simp [Operation.toks, Operation.len, pre] at hlen this
      first | omega | exact absurd hlen.1 this

namespace ChangeSet

theorem filled (cs : ChangeSet) : Filled cs.ops := cs.canonical.nonempty

/-- **Composition with matching lengths does not panic.** -/
theorem compose_some (a c : ChangeSet) (h : a.lenAfter = c.lenBefore) :
    ∃ d, a.compose c = some d ∧ d.lenBefore = a.lenBefore ∧ d.lenAfter = c.lenAfter ∧
      d.toks = nf (comp a.toks c.toks) := by
  have hp : post (Termesh.toks a.ops) = pre (Termesh.toks c.ops) := by
    rw [a.after_eq, c.before_eq, h]
  have hm := Meet.of_eq _ _ hp
  obtain ⟨b, hb, hl, hn⟩ := composeLoop_spec (weight a.ops + weight c.ops + 1) a.ops c.ops
    (builder a.lenBefore) a.filled c.filled hp (by omega)
  change nf b.toks = nf (comp (Termesh.toks a.ops) (Termesh.toks c.ops)) at hn
  have hc : b.consumed = a.lenBefore := by
    rw [← b.consumed_eq]
    change pre (nf b.toks) = _
    rw [hn, pre_nf, hm.pre_comp, a.before_eq]
  obtain ⟨d, hd, hdl, ht⟩ := ChangeSetBuilder.build_some (b := b) (by rw [hc, hl]; exact Nat.le_refl _)
  have ht' : d.toks = nf (comp a.toks c.toks) := by
    change Termesh.toks d.ops = _
    rw [ht, hc, hl]
    simp only [builder, Nat.sub_self, List.replicate_zero, List.append_nil, hn]
    rfl
  refine ⟨d, by rw [compose, if_pos h, hb]; exact hd, hdl.trans hl, ?_, ht'⟩
  rw [← d.post_toks, ht', post_nf]
  exact hm.post_comp.trans c.after_eq

/-- **Composition is sequential application.** -/
theorem compose_apply (a c d : ChangeSet) (t : Text) (h : a.lenAfter = c.lenBefore)
    (ht : t.length = a.lenBefore) (hd : a.compose c = some d) :
    d.apply t = c.apply (a.apply t) := by
  obtain ⟨d', hd', hl, -, hn⟩ := a.compose_some c h
  obtain rfl : d' = d := Option.some.inj (hd'.symm.trans hd)
  have hm : Meet a.toks c.toks := Meet.of_eq _ _ (by simp [h])
  rw [d'.apply_eq t (by rw [ht, hl]), hn, a.apply_eq t ht,
    c.apply_eq _ (by rw [← a.apply_eq t ht, a.length_apply t ht, h]),
    app_nf _ _ (by rw [hm.pre_comp, pre_toks, ht]),
    hm.app_comp t (by rw [pre_toks, ht])]

end ChangeSet

end Termesh
