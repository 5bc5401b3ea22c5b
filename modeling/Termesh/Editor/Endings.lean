import Mathlib.Data.List.Infix
import Termesh.Editor.UndoRedo

/-!
# Line endings

A file is normalised when its buffer is built, and never again. What is inserted later goes in as it
is.

* `Crlf`, `crlf_append`, `crlf_flatten`: where CR LF stands in a text, and in one put together of
  pieces;
* `Settled`: no CR LF, and a save followed by a reload changes nothing; `settled_iff`;
* `History.stacked`: undo and redo leave what both stacks hold together;
* **`settled_run`**: the buffers of every run of fitting transactions, with undo and redo;
* **`crlf_pasted`**: a pasted CR LF stays in the text.
-/

namespace Termesh

/-- The two characters CR LF stand in the text. -/
def Crlf (t : Text) : Prop := ['\r', '\n'] <:+: t

instance (t : Text) : Decidable (Crlf t) := inferInstanceAs (Decidable (_ <:+: t))

/-- An LF would come to stand behind a CR. -/
def Seam (p q : Text) : Prop := p.getLast? = some '\r' ∧ q.head? = some '\n'

instance (p q : Text) : Decidable (Seam p q) := inferInstanceAs (Decidable (_ ∧ _))

theorem crlf_cons {c : Char} {t : Text} :
    Crlf (c :: t) ↔ (c = '\r' ∧ t.head? = some '\n') ∨ Crlf t := by
  rw [Crlf, Crlf, List.infix_cons_iff]
  refine or_congr_left ?_
  cases t with
  | nil => simp
  | cons d t => simp [List.cons_prefix_cons, eq_comm]

theorem not_crlf_nil : ¬ Crlf [] := by simp [Crlf]

theorem crlf_append {p q : Text} : Crlf (p ++ q) ↔ Crlf p ∨ Crlf q ∨ Seam p q := by
  induction p with
  | nil => simp [not_crlf_nil, Seam]
  | cons c p ih =>
    rw [List.cons_append, crlf_cons, crlf_cons, ih]
    cases p with
    | nil =>
      simp only [List.nil_append, Seam, List.getLast?_nil, List.getLast?_singleton, List.head?_nil,
        Option.some.injEq, not_crlf_nil]
      tauto
    | cons d p =>
      simp only [Seam, List.cons_append, List.head?_cons, List.getLast?_cons_cons]
      tauto

/-- CR LF in a text put together of pieces stands in one of them, or where two of them meet. -/
theorem crlf_flatten {ps : List Text} (hne : ∀ p ∈ ps, p ≠ []) :
    Crlf ps.flatten ↔ (∃ p ∈ ps, Crlf p) ∨ ¬ ps.IsChain fun p q => ¬ Seam p q := by
  induction ps with
  | nil => simp [not_crlf_nil]
  | cons p ps ih =>
    obtain ⟨hp, hne⟩ := List.forall_mem_cons.mp hne
    rw [List.flatten_cons, crlf_append, ih hne]
    cases ps with
    | nil => simp [Seam]
    | cons q ps =>
      have hq : q ≠ [] := hne q List.mem_cons_self
      have hhead : Seam p (q :: ps).flatten ↔ Seam p q := by
        cases q with
        | nil => exact absurd rfl hq
        | cons d q => exact Iff.rfl
      rw [hhead, List.isChain_cons_cons, List.exists_mem_cons_iff _ p, not_and_or, not_not]
      by_cases hseam : Seam p q <;> simp only [hseam, or_true, true_or, or_false, false_or, or_assoc]

/-! ## Files -/

theorem crlfCount_of_not_crlf {t : Text} (h : ¬ Crlf t) : crlfCount t = 0 := by
  induction t using crlfCount.induct with
  | case1 t ih => exact absurd (crlf_cons.mpr (.inl ⟨rfl, rfl⟩)) h
  | case2 c t hnot ih =>
    rw [crlfCount.eq_2 _ _ hnot]
    exact ih fun ht => h (crlf_cons.mpr (.inr ht))
  | case3 => rfl

theorem normalizeNewlines_of_not_crlf {t : Text} (h : ¬ Crlf t) : normalizeNewlines t = t := by
  induction t using normalizeNewlines.induct with
  | case1 t ih => exact absurd (crlf_cons.mpr (.inl ⟨rfl, rfl⟩)) h
  | case2 c t hnot ih =>
    rw [normalizeNewlines.eq_2 _ _ hnot, ih fun ht => h (crlf_cons.mpr (.inr ht))]
  | case3 => rfl

theorem expandNewlines_cons (c : Char) (t : Text) :
    expandNewlines (c :: t) = (if c = '\n' then ['\r', '\n'] else [c]) ++ expandNewlines t := rfl

theorem head?_expandNewlines (t : Text) : (expandNewlines t).head? ≠ some '\n' := by
  cases t with
  | nil => simp [expandNewlines]
  | cons c t =>
    rw [expandNewlines_cons]
    split_ifs with h
    · simp
    · simpa using h

/-- **Expanding and normalising is the identity.** -/
theorem normalize_expand (t : Text) : normalizeNewlines (expandNewlines t) = t := by
  induction t with
  | nil => rfl
  | cons c t ih =>
    rw [expandNewlines_cons]
    split_ifs with h
    · rw [h]
      exact congrArg ('\n' :: ·) ih
    · have hnot : ∀ r, c = '\r' → expandNewlines t = '\n' :: r → False := by
        intro r _ hr
        exact head?_expandNewlines t (by rw [hr]; rfl)
      rw [List.singleton_append, normalizeNewlines.eq_2 _ _ hnot, ih]

theorem crlfCount_expand (t : Text) : crlfCount (expandNewlines t) = t.count '\n' := by
  induction t with
  | nil => rfl
  | cons c t ih =>
    rw [expandNewlines_cons]
    split_ifs with h
    · rw [h, List.count_cons_self]
      exact congrArg (· + 1) ih
    · have hnot : ∀ r, c = '\r' → expandNewlines t = '\n' :: r → False := by
        intro r _ hr
        exact head?_expandNewlines t (by rw [hr]; rfl)
      rw [List.singleton_append, crlfCount.eq_2 _ _ hnot, ih, List.count_cons_of_ne h]

theorem count_expand (t : Text) : (expandNewlines t).count '\n' = t.count '\n' := by
  induction t with
  | nil => rfl
  | cons c t ih =>
    rw [expandNewlines_cons, List.count_append, ih]
    split_ifs with h
    · rw [h, List.count_cons_self]
      simp [Nat.add_comm]
    · rw [List.count_cons_of_ne h]
      simp [h]

theorem detect_of_not_crlf {t : Text} (h : ¬ Crlf t) : LineEnding.detect t = .lf := by
  rw [LineEnding.detect, crlfCount_of_not_crlf h]
  rfl

theorem detect_expand (t : Text) : LineEnding.detect (expandNewlines t) = .crlf ↔ '\n' ∈ t := by
  rw [LineEnding.detect, crlfCount_expand, count_expand, Nat.sub_self, ← List.count_pos_iff]
  simp

theorem mem_normalize_of_crlfCount {t : Text} (h : 0 < crlfCount t) : '\n' ∈ normalizeNewlines t := by
  induction t using normalizeNewlines.induct with
  | case1 t ih => exact List.mem_cons_self
  | case2 c t hnot ih =>
    rw [crlfCount.eq_2 _ _ hnot] at h
    rw [normalizeNewlines.eq_2 _ _ hnot]
    exact List.mem_cons_of_mem _ (ih h)
  | case3 => exact absurd h (lt_irrefl _)

theorem head?_normalize (t : Text) : (normalizeNewlines t).head? = some '\n' ↔
    t.head? = some '\n' ∨ ['\r', '\n'] <+: t := by
  cases t using normalizeNewlines.induct with
  | case1 t ih => simp [normalizeNewlines]
  | case2 c t hnot ih =>
    rw [normalizeNewlines.eq_2 _ _ hnot]
    refine ⟨.inl, fun h => h.resolve_right fun hp => ?_⟩
    obtain ⟨r, hr⟩ := hp
    obtain ⟨rfl, ht⟩ := List.cons.inj hr
    exact hnot r rfl ht.symm
  | case3 => simp [normalizeNewlines]

/-- **Normalising leaves a CR LF** where a CR stands in front of one. -/
theorem crlf_normalize (t : Text) : Crlf (normalizeNewlines t) ↔ ['\r', '\r', '\n'] <:+: t := by
  induction t using normalizeNewlines.induct with
  | case1 t ih =>
    rw [normalizeNewlines, crlf_cons, ih, List.infix_cons_iff, List.infix_cons_iff]
    simp [List.cons_prefix_cons]
  | case2 c t hnot ih =>
    rw [normalizeNewlines.eq_2 _ _ hnot, crlf_cons, ih, List.infix_cons_iff, head?_normalize,
      List.cons_prefix_cons]
    refine or_congr_left ⟨?_, fun h => ⟨h.1.symm, .inr h.2⟩⟩
    rintro ⟨hc, hlf | hp⟩
    · obtain ⟨r, hr⟩ := List.head?_eq_some_iff.mp hlf
      exact (hnot r hc hr).elim
    · exact ⟨hc.symm, hp⟩
  | case3 => simp [normalizeNewlines, not_crlf_nil]

namespace Buffer

/-- The text has no CR LF, and a save followed by a reload changes neither it nor the ending. -/
def Settled (b : Buffer) : Prop :=
  ¬ Crlf b.text ∧ ∀ id path, (fromText id path b.toDiskString).text = b.text ∧
    (fromText id path b.toDiskString).lineEnding = b.lineEnding

/-- A text that its ending does not lose. -/
def Clean (ending : LineEnding) (t : Text) : Prop := ¬ Crlf t ∧ (ending = .crlf → '\n' ∈ t)

theorem settled_iff (b : Buffer) : b.Settled ↔ Clean b.lineEnding b.text := by
  refine and_congr_right fun hcrlf => ?_
  show (∀ (_ : BufferId) (_ : Option Path), normalizeNewlines b.toDiskString = b.text ∧
    LineEnding.detect b.toDiskString = b.lineEnding) ↔ _
  unfold toDiskString
  cases b.lineEnding with
  | lf => simp [normalizeNewlines_of_not_crlf hcrlf, detect_of_not_crlf hcrlf]
  | crlf =>
    simp only [normalize_expand, true_and, detect_expand, forall_const]
    exact ⟨fun h => h ⟨0⟩, fun h _ => h⟩

/-- **A file is settled once it is loaded**, unless a CR stands in front of a CR LF in it. -/
theorem settled_fromText_iff (id : BufferId) (path : Option Path) (text : Text) :
    (fromText id path text).Settled ↔ ¬ ['\r', '\r', '\n'] <:+: text := by
  rw [settled_iff, Clean]
  show ¬ Crlf (normalizeNewlines text) ∧ (LineEnding.detect text = .crlf → '\n' ∈ normalizeNewlines text) ↔ _
  rw [crlf_normalize]
  refine and_iff_left fun hdetect => mem_normalize_of_crlfCount ?_
  rw [LineEnding.detect] at hdetect
  split_ifs at hdetect with h
  omega

end Buffer

/-! ## Transactions -/

/-- What a changed document is put together of: the stretches retained and the texts inserted. -/
@[simp] def segments : List Operation → Text → List Text
  | .retain n :: ops, t => t.take n :: segments ops (t.drop n)
  | .delete n :: ops, t => segments ops (t.drop n)
  | .insert s :: ops, t => s :: segments ops t
  | [], _ => []

/-- No CR LF comes in or comes about. -/
structure Seamless (cs : ChangeSet) (t : Text) : Prop where
  inserted : ∀ s, .insert s ∈ cs.ops → ¬ Crlf s
  seams : (segments cs.ops t).IsChain fun p q => ¬ Seam p q

theorem flatten_segments (ops : List Operation) (t : Text) :
    (segments ops t).flatten = applyOps ops t := by
  induction ops generalizing t with
  | nil => rfl
  | cons op ops ih => cases op <;> simp [segments, applyOps, ih]

theorem mem_segments {ops : List Operation} {t p : Text} (h : p ∈ segments ops t) :
    .insert p ∈ ops ∨ p <:+: t := by
  induction ops generalizing t with
  | nil => cases h
  | cons op ops ih =>
    have hdrop : ∀ n, p <:+: t.drop n → p <:+: t := fun n hp => hp.trans (List.drop_suffix n t).isInfix
    cases op with
    | retain n =>
      rcases List.mem_cons.mp h with rfl | h
      · exact .inr (List.take_prefix n t).isInfix
      · exact (ih h).imp (List.mem_cons_of_mem _) (hdrop n)
    | delete n => exact (ih h).imp (List.mem_cons_of_mem _) (hdrop n)
    | insert s =>
      rcases List.mem_cons.mp h with rfl | h
      · exact .inl List.mem_cons_self
      · exact (ih h).imp (List.mem_cons_of_mem _) id

theorem inserted_mem_segments {ops : List Operation} {t s : Text} (h : .insert s ∈ ops) :
    s ∈ segments ops t := by
  induction ops generalizing t with
  | nil => cases h
  | cons op ops ih =>
    rcases List.mem_cons.mp h with rfl | hrest
    · exact List.mem_cons_self
    · cases op with
      | retain n => exact List.mem_cons_of_mem _ (ih hrest)
      | delete n => exact ih hrest
      | insert s' => exact List.mem_cons_of_mem _ (ih hrest)

theorem segments_ne_nil {ops : List Operation} {t : Text} (hf : Filled ops)
    (hlen : EditScript.pre (toks ops) = t.length) : ∀ p ∈ segments ops t, p ≠ [] := by
  induction ops generalizing t with
  | nil => simp [segments]
  | cons op ops ih =>
    obtain ⟨hop, hrest⟩ := List.forall_mem_cons.mp hf
    cases op with
    | retain n =>
      simp only [toks_cons, Operation.toks, EditScript.pre_append, EditScript.pre_keeps] at hlen
      refine List.forall_mem_cons.mpr ⟨fun htake => ?_, ih hrest (by rw [List.length_drop]; omega)⟩
      have hn : (t.take n).length = n := by rw [List.length_take]; omega
      rw [htake] at hn
      exact hop hn.symm
    | delete n =>
      simp only [toks_cons, Operation.toks, EditScript.pre_append, EditScript.pre_drops] at hlen
      exact ih hrest (by rw [List.length_drop]; omega)
    | insert s =>
      simp only [toks_cons, Operation.toks, EditScript.pre_append, EditScript.pre_adds] at hlen
      exact List.forall_mem_cons.mpr ⟨fun hs => hop (by rw [hs]; rfl), ih hrest (by omega)⟩

/-- **A change brings no CR LF** to a text without one exactly when it is seamless. -/
theorem crlf_apply_iff {cs : ChangeSet} {t : Text} (hlen : t.length = cs.lenBefore) (ht : ¬ Crlf t) :
    ¬ Crlf (cs.apply t) ↔ Seamless cs t := by
  have hne := segments_ne_nil cs.filled (cs.before_eq.trans hlen.symm)
  rw [ChangeSet.apply, ← flatten_segments, crlf_flatten hne, not_or, not_not]
  constructor
  · rintro ⟨hnone, hchain⟩
    exact ⟨fun s hs hcrlf => hnone ⟨s, inserted_mem_segments hs, hcrlf⟩, hchain⟩
  · rintro ⟨hinserted, hchain⟩
    refine ⟨?_, hchain⟩
    rintro ⟨p, hp, hcrlf⟩
    rcases mem_segments hp with hinsert | hinside
    · exact hinserted p hinsert hcrlf
    · exact ht (hcrlf.trans hinside)

namespace Buffer

/-- A transaction that is not refused is seamless, and leaves an LF where the ending is CR LF. -/
def Suits (b : Buffer) (t : EditTransaction) : Prop :=
  t.baseVersion = b.version → b.text.length = t.changes.lenBefore →
    Seamless t.changes b.text ∧
      (b.lineEnding = .crlf → ∃ p ∈ segments t.changes.ops b.text, '\n' ∈ p)

theorem clean_apply_iff {b : Buffer} {cs : ChangeSet} (hlen : b.text.length = cs.lenBefore)
    (hb : Clean b.lineEnding b.text) : Clean b.lineEnding (cs.apply b.text) ↔
      Seamless cs b.text ∧ (b.lineEnding = .crlf → ∃ p ∈ segments cs.ops b.text, '\n' ∈ p) := by
  rw [Clean, crlf_apply_iff hlen hb.1, ← List.mem_flatten, flatten_segments]
  rfl

/-- **A transaction leaves a settled buffer settled** exactly when it suits. -/
theorem settled_apply_iff {b b' : Buffer} {t : EditTransaction} {r : Except EditError Unit}
    (hb : b.Settled) (h : b.apply t = some (b', r)) : b'.Settled ↔ b.Suits t := by
  have hclean := (settled_iff b).mp hb
  unfold apply at h
  split_ifs at h with hversion hlength hempty
  · obtain ⟨rfl, -⟩ := Prod.mk.inj (Option.some.inj h)
    exact iff_of_true hb fun hv => absurd hv hversion
  · obtain ⟨rfl, -⟩ := Prod.mk.inj (Option.some.inj h)
    exact iff_of_true hb fun _ hl => absurd hl.symm hlength
  · obtain ⟨rfl, -⟩ := Prod.mk.inj (Option.some.inj h)
    refine iff_of_true hb fun _ hl => (clean_apply_iff hl hclean).mp ?_
    rw [t.changes.apply_of_isIdentity hempty b.text hl]
    exact hclean
  · obtain ⟨inverse, -, hx⟩ := Option.map_eq_some_iff.mp h
    obtain ⟨rfl, -⟩ := Prod.mk.inj hx
    have hl : b.text.length = t.changes.lenBefore := (not_not.mp hlength).symm
    have hiff := clean_apply_iff hl hclean
    rw [settled_iff, show (b.applied t inverse).lineEnding = b.lineEnding from rfl,
      show (b.applied t inverse).text = t.changes.apply b.text from rfl, hiff]
    exact ⟨fun hsuits _ _ => hsuits, fun hsuits => hsuits (not_not.mp hversion) hl⟩

end Buffer

/-! ## Every text of a run -/

/-- What both stacks hold, newest first. -/
def History.stacked (h : History) : List Entry := h.undone.reverse ++ h.applied

namespace Traced

variable {start t : Text} {h h' : History} {c : ChangeSet}

/-- **Undo leaves what both stacks hold together**: it moves where they meet. -/
theorem undo_stacked (ht : Traced start h t) (hu : h.undo = some (h', some c)) :
    h'.stacked = h.stacked := by
  cases happ : h.applied with
  | nil => simp [History.undo, happ] at hu
  | cons e es =>
    obtain ⟨d, k, hk, -, -, happlied, hundone⟩ := ht.undo happ
    obtain ⟨rfl, -⟩ : k = h' ∧ d = c := by simpa [hk] using hu
    rw [History.stacked, History.stacked, happlied, hundone, happ, List.reverse_append,
      List.reverse_reverse, List.append_assoc, List.takeWhile_append_dropWhile]

theorem redo_stacked (ht : Traced start h t) (hr : h.redo = some (h', some c)) :
    h'.stacked = h.stacked := by
  cases hund : h.undone with
  | nil => simp [History.redo, hund] at hr
  | cons e es =>
    obtain ⟨d, k, hk, -, -, hundone, happlied⟩ := ht.redo hund
    obtain ⟨rfl, -⟩ : k = h' ∧ d = c := by simpa [hk] using hr
    rw [History.stacked, History.stacked, happlied, hundone, hund, ← List.append_assoc,
      ← List.reverse_append, List.takeWhile_append_dropWhile]

end Traced

/-- Every text that the entries of a history lead to meets `P`. -/
def Along (P : Text → Prop) (start : Text) (h : History) : Prop :=
  ∀ es, es <:+ h.stacked → ∀ s, Linked start es s → P s

section Along

variable {P : Text → Prop} {start t : Text} {h h' : History}

theorem Along.current (ha : Along P start h) (ht : Traced start h t) : P t :=
  ha h.applied (List.suffix_append _ _) t ht.linked

/-- A transaction adds the text it leads to, and forgets those that could be redone. -/
theorem Along.push {tx : EditTransaction} {inverse : ChangeSet} (ha : Along P start h)
    (ht : Traced start (h.push tx inverse) t) (hne : tx.isEmpty = false) (hP : P t) :
    Along P start (h.push tx inverse) := by
  have hpush : (h.push tx inverse).stacked =
      ⟨tx.undoGroup, tx.changes, inverse⟩ :: h.applied := by
    rw [History.push, if_neg (by simp [hne])]
    rfl
  have happlied : (h.push tx inverse).applied =
      ⟨tx.undoGroup, tx.changes, inverse⟩ :: h.applied := by
    rw [History.push, if_neg (by simp [hne])]
  intro es hes s hs
  rw [hpush] at hes
  rcases List.suffix_cons_iff.mp hes with rfl | hes
  · have hnow := ht.linked
    rw [happlied] at hnow
    rw [hs.unique hnow]
    exact hP
  · exact ha es (hes.trans (List.suffix_append _ _)) s hs

end Along

namespace Buffer

variable {start : Text} {b b' : Buffer}

/-- A buffer whose history leads through clean texts only. -/
structure Tidy (start : Text) (b : Buffer) : Prop where
  traces : b.Traces start
  along : Along (Clean b.lineEnding) start b.history

theorem Tidy.settled (hb : b.Tidy start) : b.Settled :=
  (settled_iff b).mpr (hb.along.current hb.traces)

theorem replayed_lineEnding {x : History × Option ChangeSet} {did : Bool}
    (h : b.replayed x = some (b', did)) : b'.lineEnding = b.lineEnding := by
  obtain ⟨history, c⟩ := x
  cases c with
  | none =>
    obtain ⟨rfl, -⟩ := Prod.mk.inj (Option.some.inj h)
    rfl
  | some c =>
    obtain ⟨b₁, h₁, hx⟩ := Option.map_eq_some_iff.mp h
    obtain ⟨rfl, -⟩ := Prod.mk.inj hx
    unfold replay at h₁
    split_ifs at h₁
    rw [← Option.some.inj h₁]

/-- Whatever an operation brings suits. -/
def Keeps (b : Buffer) : BufferOp → Prop
  | .apply t => b.Suits t
  | _ => True

theorem Tidy.congr (hb : b.Tidy start) (ht : b'.text = b.text)
    (hl : b'.lineEnding = b.lineEnding) (ha : b'.history.applied = b.history.applied)
    (hu : b'.history.undone = b.history.undone) : b'.Tidy start where
  traces := by
    show Traced start b'.history b'.text
    rw [ht]
    exact traced_congr ha hu hb.traces
  along := by
    rw [hl, Along, History.stacked, ha, hu]
    exact hb.along

theorem Tidy.replayed (hb : b.Tidy start) (ht : b'.Traces start)
    (hl : b'.lineEnding = b.lineEnding) (hs : b'.history.stacked = b.history.stacked) :
    b'.Tidy start where
  traces := ht
  along := by
    rw [hl, Along, hs]
    exact hb.along

/-- **One operation keeps a buffer tidy.** -/
theorem Tidy.step (hb : b.Tidy start) {op : BufferOp} (hop : b.Keeps op)
    (h : b.step op = some b') : b'.Tidy start := by
  cases op with
  | groupFor source =>
    rw [← Option.some.inj h]
    exact hb.congr rfl rfl (groupFor_stacks _ _).1 (groupFor_stacks _ _).2
  | setSelection s =>
    rw [← Option.some.inj h]
    exact hb.congr rfl rfl rfl rfl
  | markSaved v =>
    rw [← Option.some.inj h]
    exact hb.congr rfl rfl rfl rfl
  | apply t =>
    obtain ⟨⟨b₁, r⟩, h₁, hx⟩ := Option.map_eq_some_iff.mp h
    obtain rfl : b₁ = b' := hx
    have hsettled := (settled_apply_iff hb.settled h₁).mpr hop
    have happlied := applied_of_apply h₁
    have htraces : b₁.Traces start := hb.traces.applied happlied
    have hclean := (settled_iff b₁).mp hsettled
    cases happlied with
    | refused | empty => exact hb
    | changed hv hl hne hi => exact ⟨htraces, hb.along.push htraces hne hclean⟩
  | undo =>
    rcases hb.traces.undo with ⟨-, hsame⟩ | ⟨c, h', b₁, hh, hu, -, hhistory, htraces, -⟩
    · rw [Buffer.step, hsame] at h
      rw [← Option.some.inj h]
      exact hb
    · rw [Buffer.step, hu] at h
      obtain rfl : b₁ = b' := Option.some.inj h
      rw [Buffer.undo, hh, Option.bind_some] at hu
      refine hb.replayed htraces (replayed_lineEnding hu) ?_
      rw [hhistory]
      exact hb.traces.undo_stacked hh
  | redo =>
    rcases hb.traces.redo with ⟨-, hsame⟩ | ⟨c, h', b₁, hh, hr, -, hhistory, htraces⟩
    · rw [Buffer.step, hsame] at h
      rw [← Option.some.inj h]
      exact hb
    · rw [Buffer.step, hr] at h
      obtain rfl : b₁ = b' := Option.some.inj h
      rw [Buffer.redo, hh, Option.bind_some] at hr
      refine hb.replayed htraces (replayed_lineEnding hr) ?_
      rw [hhistory]
      exact hb.traces.redo_stacked hh

theorem tidy_fromText {id : BufferId} {path : Option Path} {text : Text}
    (h : (fromText id path text).Settled) : (fromText id path text).Tidy (fromText id path text).text where
  traces := traces_fromText id path text
  along := by
    intro es hes s hs
    obtain rfl := List.eq_nil_of_suffix_nil hes
    obtain rfl : s = (fromText id path text).text := hs
    exact (settled_iff _).mp h

/-- **The rope stays in canonical line endings.** A loaded file is settled unless a CR stands in
front of a CR LF in it. From there on, in every run of fitting transactions, undo and redo, the
buffer stays settled; and a further transaction leaves it so exactly when it suits. -/
theorem settled_run (id : BufferId) (path : Option Path) (text : Text) :
    ((fromText id path text).Settled ↔ ¬ ['\r', '\r', '\n'] <:+: text) ∧
      (¬ ['\r', '\r', '\n'] <:+: text → ∀ b,
        Runs.Reach Buffer.step Keeps (· = fromText id path text) b →
          b.Settled ∧ ∀ t b' r, b.apply t = some (b', r) → (b'.Settled ↔ b.Suits t)) := by
  refine ⟨settled_fromText_iff id path text, fun htext b hb => ?_⟩
  have hfirst := (settled_fromText_iff id path text).mpr htext
  have htidy : b.Tidy (fromText id path text).text := by
    refine hb.inv (I := Tidy (fromText id path text).text) ?_ fun b op b' htidy hop h =>
      htidy.step hop h
    rintro b rfl
    exact tidy_fromText hfirst
  exact ⟨htidy.settled, fun t b' r h => settled_apply_iff htidy.settled h⟩

/-- A file with one line that ends in CR LF. -/
def windowsNote : Buffer := fromText ⟨1⟩ none ['a', '\r', '\n']

/-- A text put in at the start of the document. -/
def pasted (b : Buffer) (s : Text) (h : ChangeSet.replace b.text.length 0 0 s ≠ none) :
    EditTransaction :=
  (b.transaction ((ChangeSet.replace b.text.length 0 0 s).get (Option.isSome_iff_ne_none.mpr h))
    .paste).2

def pasteX : EditTransaction := windowsNote.pasted ['x'] (by decide)

def notedX : Buffer := (windowsNote.step (.apply pasteX)).get (by decide)

theorem settled_run_pasted : windowsNote.Settled ∧ notedX.text = ['x', 'a', '\n'] ∧ notedX.Settled := by
  have hrun := settled_run ⟨1⟩ none ['a', '\r', '\n']
  have hfirst : ¬ ['\r', '\r', '\n'] <:+: ['a', '\r', '\n'] := by decide
  have hsuits : windowsNote.Suits pasteX := by
    intro _ _
    refine ⟨⟨fun s hs => ?_, by decide⟩, by decide⟩
    have hmem : s = ['x'] := by
      have hops : pasteX.changes.ops = [.insert ['x'], .retain 2] := by decide
      rw [hops] at hs
      simpa using hs
    rw [hmem]
    decide
  have hreach : Runs.Reach Buffer.step Keeps (· = fromText ⟨1⟩ none ['a', '\r', '\n']) notedX :=
    .next (a := .apply pasteX) (.start rfl) hsuits (Option.some_get _).symm
  exact ⟨hrun.1.mpr hfirst, by decide, (hrun.2 hfirst notedX hreach).1⟩

def pasteCrlf : EditTransaction := windowsNote.pasted ['\r', '\n'] (by decide)

/-- **A pasted CR LF stays in the text.** -/
theorem crlf_pasted :
    ¬ ∀ (id : BufferId) (path : Option Path) (text : Text) (ops : List BufferOp) (b : Buffer),
      Runs.run Buffer.step (fromText id path text) ops = some b → b.Settled := by
  intro hall
  have hsettled := hall ⟨1⟩ none ['a', '\r', '\n'] [.apply pasteCrlf]
    ((Runs.run Buffer.step windowsNote [.apply pasteCrlf]).get (by decide))
    (Option.some_get _).symm
  exact absurd hsettled.1 (by decide)

end Buffer

end Termesh
