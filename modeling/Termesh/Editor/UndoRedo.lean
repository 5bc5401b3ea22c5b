import Mathlib.Data.List.TakeWhile
import Termesh.Editor.Buffer
import Termesh.Lib.Run

/-!
# Undo and redo over whole runs

The two stacks of a history are tied to the document between them: the applied entries lead from
the initial text to the current one, the undone entries lead on from there, and the heads of the
two stacks belong to different groups.

* `Linked`, `Ahead`, `Apart`, `Traced`: the invariant;
* `undo_redo`, `redo_undo`: **one pass and the other restore the document**;
* `Traces.undoUntilFalse`: **undoing to the start restores the initial text**.
-/

namespace Termesh

/-- The applied entries, newest first, lead from `start` to `text`. -/
def Linked (start : Text) : List Entry → Text → Prop
  | [], text => text = start
  | e :: es, text => ∃ s, Linked start es s ∧ s.length = e.forward.lenBefore ∧
      e.forward.apply s = text ∧ e.forward.invert s = some e.inverse

/-- The undone entries, next to redo first, lead on from `text`. -/
def Ahead : List Entry → Text → Prop
  | [], _ => True
  | e :: es, text => text.length = e.forward.lenBefore ∧ e.forward.invert text = some e.inverse ∧
      Ahead es (e.forward.apply text)

/-- The heads of the two stacks belong to different groups. -/
def Apart (applied undone : List Entry) : Prop :=
  ∀ e ∈ applied.head?, ∀ e' ∈ undone.head?, e.group ≠ e'.group

/-- The history of a document that started as `start` and reads `text` now. -/
structure Traced (start : Text) (h : History) (text : Text) : Prop where
  linked : Linked start h.applied text
  ahead : Ahead h.undone text
  apart : Apart h.applied h.undone

theorem Linked.unique {start s t : Text} {es : List Entry} (hs : Linked start es s)
    (ht : Linked start es t) : s = t := by
  induction es generalizing s t with
  | nil => exact hs.trans ht.symm
  | cons e es ih =>
    obtain ⟨s', hs', -, rfl, -⟩ := hs
    obtain ⟨t', ht', -, rfl, -⟩ := ht
    rw [ih hs' ht']

theorem Linked.back {start s : Text} {e : Entry} {src dst : List Entry}
    (hl : Linked start (e :: src) s) (ha : Ahead dst s) :
    s.length = e.inverse.lenBefore ∧ Linked start src (e.inverse.apply s) ∧
      Ahead (e :: dst) (e.inverse.apply s) := by
  obtain ⟨r, hr, hlen, rfl, hi⟩ := hl
  obtain ⟨c, hc, hb, -, -⟩ := e.forward.invert_some r hlen
  obtain rfl : e.inverse = c := Option.some.inj (hi.symm.trans hc)
  have hback := e.forward.invert_apply e.inverse r hlen hi
  rw [hback, e.forward.length_apply r hlen, hb]
  exact ⟨rfl, hr, hlen, hi, ha⟩

theorem Ahead.forth {start s : Text} {e : Entry} {src dst : List Entry}
    (ha : Ahead (e :: src) s) (hl : Linked start dst s) :
    s.length = e.forward.lenBefore ∧ Ahead src (e.forward.apply s) ∧
      Linked start (e :: dst) (e.forward.apply s) :=
  ⟨ha.1, ha.2.2, s, hl, ha.1, rfl, ha.2.1⟩

/-! ## One pass -/

/-- The change accumulated since the document read `t` leads to `s`. -/
def Folds (t : Text) : Option ChangeSet → Text → Prop
  | none, s => s = t
  | some c, s => t.length = c.lenBefore ∧ c.apply t = s

theorem Folds.accumulate {t s : Text} {acc : Option ChangeSet} (h : Folds t acc s) (c : ChangeSet)
    (hc : s.length = c.lenBefore) :
    ∃ d, History.accumulate acc c = some d ∧ Folds t (some d) (c.apply s) := by
  cases acc with
  | none => cases h; exact ⟨c, rfl, hc, rfl⟩
  | some a =>
    obtain ⟨hl, rfl⟩ := h
    have hm : a.lenAfter = c.lenBefore := by rw [← a.length_apply t hl, hc]
    obtain ⟨d, hd, hdl, -, -⟩ := a.compose_some c hm
    exact ⟨d, hd, hl.trans hdl.symm, a.compose_apply c d t hm hl hd⟩

/-- **One pass of undo or redo**, for a relation `R` between the two stacks and the text which moving
one entry keeps. -/
theorem shiftGroup_spec (pick : Entry → ChangeSet) {R : List Entry → List Entry → Text → Prop}
    (hR : ∀ e src dst s, R (e :: src) dst s →
      s.length = (pick e).lenBefore ∧ R src (e :: dst) ((pick e).apply s))
    (g : UndoGroupId) {t s : Text} (src dst : List Entry) {acc : Option ChangeSet}
    (h : R src dst s) (hacc : Folds t acc s) :
    ∃ acc' s', History.shiftGroup pick g src dst acc =
        some (src.dropWhile (·.group = g), (src.takeWhile (·.group = g)).reverse ++ dst, acc') ∧
      R (src.dropWhile (·.group = g)) ((src.takeWhile (·.group = g)).reverse ++ dst) s' ∧
      Folds t acc' s' ∧
      (acc.isSome = true ∨ (∃ e ∈ src.head?, e.group = g) → acc'.isSome = true) := by
  induction src generalizing dst s acc with
  | nil => exact ⟨acc, s, rfl, h, hacc, by simp⟩
  | cons e src ih =>
    by_cases hg : e.group = g
    · obtain ⟨hl, hr⟩ := hR e src dst s h
      obtain ⟨d, hd, hf⟩ := hacc.accumulate (pick e) hl
      obtain ⟨acc', s', h1, h2, h3, h4⟩ := ih (e :: dst) hr hf
      rw [History.shiftGroup, if_pos hg, hd]
      rw [List.dropWhile_cons_of_pos (by simpa using hg), List.takeWhile_cons_of_pos (by simpa using hg),
        List.reverse_cons, List.append_assoc]
      exact ⟨acc', s', h1, h2, h3, fun _ => h4 (.inl rfl)⟩
    · rw [History.shiftGroup, if_neg hg]
      rw [List.dropWhile_cons_of_neg (by simpa using hg), List.takeWhile_cons_of_neg (by simpa using hg)]
      exact ⟨acc, s, rfl, h, hacc, by simp [hg]⟩

theorem head_pass (g : UndoGroupId) (e : Entry) (src dst : List Entry) (he : e.group = g) :
    (∀ e' ∈ ((e :: src).dropWhile (·.group = g)).head?, e'.group ≠ g) ∧
      ∃ e' es, ((e :: src).takeWhile (·.group = g)).reverse ++ dst = e' :: es ∧ e'.group = g := by
  constructor
  · intro e' h'
    have := List.head?_dropWhile_not (fun x : Entry => decide (x.group = g)) (e :: src)
    rw [Option.mem_def.mp h'] at this
    simpa using this
  · have hmem : ∀ e' ∈ (e :: src).takeWhile (·.group = g), e'.group = g := fun e' h' => by
      simpa using List.mem_takeWhile_imp h'
    cases hr : ((e :: src).takeWhile (·.group = g)).reverse with
    | nil =>
      rw [List.takeWhile_cons_of_pos (by simpa using he)] at hr
      simp at hr
    | cons e' es =>
      refine ⟨e', es ++ dst, rfl, hmem e' (List.mem_reverse.mp ?_)⟩
      rw [hr]
      exact List.mem_cons_self

theorem pass_back (g : UndoGroupId) (src dst : List Entry)
    (h : ∀ e ∈ dst.head?, e.group ≠ g) :
    ((src.takeWhile (·.group = g)).reverse ++ dst).dropWhile (·.group = g) = dst ∧
      (((src.takeWhile (·.group = g)).reverse ++ dst).takeWhile (·.group = g)).reverse ++
        src.dropWhile (·.group = g) = src := by
  have hall : ∀ e ∈ (src.takeWhile (·.group = g)).reverse, decide (e.group = g) = true :=
    fun e he => List.mem_takeWhile_imp (p := fun e : Entry => decide (e.group = g))
      (List.mem_reverse.mp he)
  have hd : dst.dropWhile (·.group = g) = dst ∧ dst.takeWhile (·.group = g) = [] := by
    cases dst with
    | nil => exact ⟨rfl, rfl⟩
    | cons e dst =>
      have he : ¬ decide (e.group = g) = true := by simpa using h e rfl
      exact ⟨List.dropWhile_cons_of_neg he, List.takeWhile_cons_of_neg he⟩
  rw [List.dropWhile_append_of_pos hall, List.takeWhile_append_of_pos hall, hd.1, hd.2]
  simp

/-- A pass over the group of the head entry composes one change of the current text. -/
theorem pass (pick : Entry → ChangeSet) {R : List Entry → List Entry → Text → Prop}
    (hR : ∀ e src dst s, R (e :: src) dst s →
      s.length = (pick e).lenBefore ∧ R src (e :: dst) ((pick e).apply s))
    {e : Entry} {src dst : List Entry} {t : Text} (h : R (e :: src) dst t) :
    ∃ c, History.shiftGroup pick e.group (e :: src) dst none =
        some ((e :: src).dropWhile (·.group = e.group),
          ((e :: src).takeWhile (·.group = e.group)).reverse ++ dst, some c) ∧
      t.length = c.lenBefore ∧
      R ((e :: src).dropWhile (·.group = e.group))
        (((e :: src).takeWhile (·.group = e.group)).reverse ++ dst) (c.apply t) := by
  obtain ⟨acc, s, h1, h2, h3, h4⟩ := shiftGroup_spec pick hR e.group (e :: src) dst h
    (show Folds t none t from rfl)
  obtain ⟨c, rfl⟩ := Option.isSome_iff_exists.mp (h4 (.inr ⟨e, rfl, rfl⟩))
  obtain ⟨hl, rfl⟩ := h3
  exact ⟨c, h1, hl, h2⟩

namespace Traced

variable {start t : Text} {h : History}

theorem apart_pass (e : Entry) (src dst : List Entry) :
    Apart ((e :: src).dropWhile (·.group = e.group))
        (((e :: src).takeWhile (·.group = e.group)).reverse ++ dst) ∧
      Apart (((e :: src).takeWhile (·.group = e.group)).reverse ++ dst)
        ((e :: src).dropWhile (·.group = e.group)) := by
  obtain ⟨hhead, e', es', hcons, hg⟩ := head_pass e.group e src dst rfl
  rw [hcons]
  refine ⟨fun a ha b hb => ?_, fun a ha b hb => ?_⟩
  · cases hb
    rw [hg]
    exact hhead a ha
  · cases ha
    rw [hg]
    exact (hhead b hb).symm

/-- **Undo does not panic**: it composes one change of the current text and moves the head group. -/
theorem undo {e : Entry} {es : List Entry} (ht : Traced start h t) (happ : h.applied = e :: es) :
    ∃ c h', h.undo = some (h', some c) ∧ t.length = c.lenBefore ∧ Traced start h' (c.apply t) ∧
      h'.applied = (e :: es).dropWhile (·.group = e.group) ∧
      h'.undone = ((e :: es).takeWhile (·.group = e.group)).reverse ++ h.undone := by
  have hl := ht.linked
  rw [happ] at hl
  obtain ⟨c, h1, h2, h3, h4⟩ := pass Entry.inverse
    (R := fun src dst s => Linked start src s ∧ Ahead dst s)
    (fun e src dst s hr => hr.1.back hr.2) ⟨hl, ht.ahead⟩
  refine ⟨c, _, by simp only [History.undo, happ, h1]; rfl, h2, ⟨h3, h4, ?_⟩, rfl, rfl⟩
  exact (apart_pass e es h.undone).1

/-- **Redo does not panic**, likewise. -/
theorem redo {e : Entry} {es : List Entry} (ht : Traced start h t) (hund : h.undone = e :: es) :
    ∃ c h', h.redo = some (h', some c) ∧ t.length = c.lenBefore ∧ Traced start h' (c.apply t) ∧
      h'.undone = (e :: es).dropWhile (·.group = e.group) ∧
      h'.applied = ((e :: es).takeWhile (·.group = e.group)).reverse ++ h.applied := by
  have ha := ht.ahead
  rw [hund] at ha
  obtain ⟨c, h1, h2, h3, h4⟩ := pass Entry.forward
    (R := fun src dst s => Ahead src s ∧ Linked start dst s)
    (fun e src dst s hr => hr.1.forth hr.2) ⟨ha, ht.linked⟩
  refine ⟨c, _, by simp only [History.redo, hund, h1]; rfl, h2, ⟨h4, h3, ?_⟩, rfl, rfl⟩
  exact (apart_pass e es h.applied).2

theorem stacks_back {e : Entry} {src dst src' dst' : List Entry}
    (hd : ∀ e' ∈ dst.head?, e.group ≠ e'.group)
    (hs : src' = (e :: src).dropWhile (·.group = e.group))
    (hd' : dst' = ((e :: src).takeWhile (·.group = e.group)).reverse ++ dst) :
    ∃ e' es', dst' = e' :: es' ∧ (e' :: es').dropWhile (·.group = e'.group) = dst ∧
      ((e' :: es').takeWhile (·.group = e'.group)).reverse ++ src' = e :: src := by
  obtain ⟨-, e', es', hcons, hg⟩ := head_pass e.group e src dst rfl
  obtain ⟨h1, h2⟩ := pass_back e.group (e :: src) dst fun e' he' => (hd e' he').symm
  refine ⟨e', es', hd'.trans hcons, ?_, ?_⟩
  · rw [hg, ← hcons, h1]
  · rw [hg, ← hcons, hs, h2]

/-- **Undo and then redo restores the document.** -/
theorem undo_redo {h' : History} {c : ChangeSet} (ht : Traced start h t)
    (hu : h.undo = some (h', some c)) :
    ∃ h'' d, h'.redo = some (h'', some d) ∧ (c.apply t).length = d.lenBefore ∧
      d.apply (c.apply t) = t := by
  cases happ : h.applied with
  | nil => simp [History.undo, happ] at hu
  | cons e es =>
    obtain ⟨c', k, hk, -, htk, h1, h2⟩ := ht.undo happ
    obtain ⟨rfl, rfl⟩ : k = h' ∧ c' = c := by simpa [hk] using hu
    obtain ⟨e', es', h3, -, h5⟩ := stacks_back
      (fun e' he' => ht.apart e (by rw [happ]; rfl) e' he') h1 h2
    obtain ⟨d, h'', hr, hl, htr, -, happ''⟩ := htk.redo h3
    refine ⟨h'', d, hr, hl, htr.linked.unique ?_⟩
    rw [happ'', h5, ← happ]
    exact ht.linked

/-- **Redo and then undo restores the document.** -/
theorem redo_undo {h' : History} {c : ChangeSet} (ht : Traced start h t)
    (hr : h.redo = some (h', some c)) :
    ∃ h'' d, h'.undo = some (h'', some d) ∧ (c.apply t).length = d.lenBefore ∧
      d.apply (c.apply t) = t := by
  cases hund : h.undone with
  | nil => simp [History.redo, hund] at hr
  | cons e es =>
    obtain ⟨c', k, hk, -, htk, h1, h2⟩ := ht.redo hund
    obtain ⟨rfl, rfl⟩ : k = h' ∧ c' = c := by simpa [hk] using hr
    obtain ⟨e', es', h3, h4, -⟩ := stacks_back
      (fun e' he' => (ht.apart e' he' e (by rw [hund]; rfl)).symm) h1 h2
    obtain ⟨d, h'', hu, hl, htu, happ'', -⟩ := htk.undo h3
    refine ⟨h'', d, hu, hl, htu.linked.unique ?_⟩
    rw [happ'', h4]
    exact ht.linked

end Traced

/-! ## Runs of a buffer -/

/-- One operation on a buffer. Transactions and group requests are the caller's to order. -/
inductive BufferOp where
  | groupFor (source : EditSource)
  | apply (t : EditTransaction)
  | setSelection (s : Selection)
  | markSaved (v : Version)
  | undo
  | redo

namespace Buffer

def step (b : Buffer) : BufferOp → Option Buffer
  | .groupFor source => some { b with history := (b.history.groupFor source).1 }
  | .apply t => (b.apply t).map Prod.fst
  | .setSelection s => some (b.setSelection s)
  | .markSaved v => some (b.markSaved v)
  | .undo => b.undo.map Prod.fst
  | .redo => b.redo.map Prod.fst

/-- Undo until nothing is left to undo, at most `n` times. -/
def undoUntilFalse : ℕ → Buffer → Option Buffer
  | 0, _ => none
  | n + 1, b => b.undo.bind fun (b, more) => if more then undoUntilFalse n b else some b

/-- The forward changes of the applied stack chain up to the current text, those of the undone stack
on from it. Both stacks are newest first. -/
def Chained (b : Buffer) : Prop :=
  (∀ e ∈ b.history.applied.head?, e.forward.lenAfter = b.text.length) ∧
    (b.history.applied.IsChain fun e e' => e'.forward.lenAfter = e.forward.lenBefore) ∧
    (∀ e ∈ b.history.undone.head?, e.forward.lenBefore = b.text.length) ∧
    (b.history.undone.IsChain fun e e' => e.forward.lenAfter = e'.forward.lenBefore)

/-- The history of `b` is that of a document which started as `start`. -/
abbrev Traces (start : Text) (b : Buffer) : Prop := Traced start b.history b.text

end Buffer

theorem Traced.push {start t : Text} {h : History} (ht : Traced start h t) (tx : EditTransaction)
    {inverse : ChangeSet} (hl : t.length = tx.changes.lenBefore)
    (hi : tx.changes.invert t = some inverse) (hne : tx.isEmpty = false) :
    Traced start (h.push tx inverse) (tx.changes.apply t) := by
  rw [History.push, if_neg (by simp [hne])]
  exact ⟨⟨t, ht.linked, hl, rfl, hi⟩, trivial, fun _ _ _ h => by simp at h⟩

theorem Traced.chained_applied {start t : Text} {es : List Entry} (h : Linked start es t) :
    (∀ e ∈ es.head?, e.forward.lenAfter = t.length) ∧
      es.IsChain fun e e' => e'.forward.lenAfter = e.forward.lenBefore := by
  induction es generalizing t with
  | nil => exact ⟨by simp, .nil⟩
  | cons e es ih =>
    obtain ⟨s, hs, hlen, rfl, -⟩ := h
    obtain ⟨h1, h2⟩ := ih hs
    refine ⟨fun e' he => ?_, List.isChain_cons.mpr ⟨fun e' he => (h1 e' he).trans hlen, h2⟩⟩
    obtain rfl : e = e' := by simpa using he
    exact (e.forward.length_apply s hlen).symm

theorem Traced.chained_undone {t : Text} {es : List Entry} (h : Ahead es t) :
    (∀ e ∈ es.head?, e.forward.lenBefore = t.length) ∧
      es.IsChain fun e e' => e.forward.lenAfter = e'.forward.lenBefore := by
  induction es generalizing t with
  | nil => exact ⟨by simp, .nil⟩
  | cons e es ih =>
    obtain ⟨hlen, -, hes⟩ := h
    obtain ⟨h1, h2⟩ := ih hes
    refine ⟨fun e' he => ?_, List.isChain_cons.mpr ⟨fun e' he => ?_, h2⟩⟩
    · obtain rfl : e = e' := by simpa using he
      exact hlen.symm
    · rw [h1 e' he, e.forward.length_apply t hlen]

namespace Buffer

variable {start : Text} {b : Buffer}

theorem Traces.chained (h : b.Traces start) : b.Chained :=
  ⟨(Traced.chained_applied h.linked).1, (Traced.chained_applied h.linked).2,
    (Traced.chained_undone h.ahead).1, (Traced.chained_undone h.ahead).2⟩

theorem traces_fromText (id : BufferId) (path : Option Path) (text : Text) :
    (fromText id path text).Traces (fromText id path text).text :=
  ⟨rfl, trivial, fun _ h => by simp [fromText] at h⟩

theorem traced_congr {t : Text} {h h' : History} (ha : h'.applied = h.applied)
    (hu : h'.undone = h.undone) (ht : Traced start h t) : Traced start h' t :=
  ⟨by rw [ha]; exact ht.linked, by rw [hu]; exact ht.ahead, by rw [ha, hu]; exact ht.apart⟩

theorem groupFor_stacks (h : History) (source : EditSource) :
    (h.groupFor source).1.applied = h.applied ∧ (h.groupFor source).1.undone = h.undone := by
  unfold History.groupFor
  split
  · split_ifs <;> exact ⟨rfl, rfl⟩
  · exact ⟨rfl, rfl⟩

theorem Traces.applied {t : EditTransaction} {b' : Buffer} {r : Except EditError Unit}
    (hb : b.Traces start) (h : Applied b t b' r) : b'.Traces start := by
  cases h with
  | refused e => exact hb
  | empty => exact hb
  | changed hv hl hne hi => exact Traced.push hb t hl hi hne

theorem replay_some {c : ChangeSet} (h : b.text.length = c.lenBefore) :
    ∃ b', b.replay c = some b' ∧ b'.text = c.apply b.text ∧ b'.history = b.history := by
  rw [replay, if_neg (by simp [h])]
  exact ⟨_, rfl, rfl, rfl⟩

/-- What `undo` of a traced buffer does. -/
theorem Traces.undo (hb : b.Traces start) :
    (b.history.applied = [] ∧ b.undo = some (b, false)) ∨
    ∃ c h' b', b.history.undo = some (h', some c) ∧ b.undo = some (b', true) ∧
      b'.text = c.apply b.text ∧ b'.history = h' ∧ b'.Traces start ∧
      h'.applied.length < b.history.applied.length := by
  cases happ : b.history.applied with
  | nil => exact .inl ⟨rfl, by rw [Buffer.undo, History.undo, happ]; rfl⟩
  | cons e es =>
    obtain ⟨c, h', hu, hl, ht, ha, -⟩ := Traced.undo hb happ
    obtain ⟨b', h1, h2, h3⟩ := replay_some (b := { b with history := h' }) hl
    refine .inr ⟨c, h', b', hu, ?_, h2, h3, ?_, ?_⟩
    · rw [Buffer.undo, hu, Option.bind_some, replayed, h1]
      rfl
    · change Traced start b'.history b'.text
      rw [h2, h3]
      exact ht
    · rw [ha, List.dropWhile_cons_of_pos (by simp)]
      exact Nat.lt_succ_of_le (List.dropWhile_sublist _).length_le

theorem Traces.redo (hb : b.Traces start) :
    (b.history.undone = [] ∧ b.redo = some (b, false)) ∨
    ∃ c h' b', b.history.redo = some (h', some c) ∧ b.redo = some (b', true) ∧
      b'.text = c.apply b.text ∧ b'.history = h' ∧ b'.Traces start := by
  cases hund : b.history.undone with
  | nil => exact .inl ⟨rfl, by rw [Buffer.redo, History.redo, hund]; rfl⟩
  | cons e es =>
    obtain ⟨c, h', hr, hl, ht, -, -⟩ := Traced.redo hb hund
    obtain ⟨b', h1, h2, h3⟩ := replay_some (b := { b with history := h' }) hl
    refine .inr ⟨c, h', b', hr, ?_, h2, h3, ?_⟩
    · rw [Buffer.redo, hr, Option.bind_some, replayed, h1]
      rfl
    · change Traced start b'.history b'.text
      rw [h2, h3]
      exact ht

/-- **Every operation keeps the trace and does not panic.** -/
theorem Traces.step (hb : b.Traces start) (op : BufferOp) :
    ∃ b', b.step op = some b' ∧ b'.Traces start := by
  cases op with
  | groupFor source =>
    exact ⟨_, rfl, traced_congr (groupFor_stacks _ _).1 (groupFor_stacks _ _).2 hb⟩
  | apply t =>
    obtain ⟨b', r, h, ha⟩ := b.apply_spec t
    exact ⟨b', by rw [Buffer.step, h]; rfl, hb.applied ha⟩
  | setSelection s => exact ⟨_, rfl, traced_congr (h := b.history) rfl rfl hb⟩
  | markSaved v => exact ⟨_, rfl, traced_congr (h := b.history) rfl rfl hb⟩
  | undo =>
    obtain ⟨-, h⟩ | ⟨c, h', b', -, h, -, -, ht, -⟩ := hb.undo
    · exact ⟨b, by rw [Buffer.step, h]; rfl, hb⟩
    · exact ⟨b', by rw [Buffer.step, h]; rfl, ht⟩
  | redo =>
    obtain ⟨-, h⟩ | ⟨c, h', b', -, h, -, -, ht⟩ := hb.redo
    · exact ⟨b, by rw [Buffer.step, h]; rfl, hb⟩
    · exact ⟨b', by rw [Buffer.step, h]; rfl, ht⟩

/-- **Every run keeps the trace and does not panic.** -/
theorem Traces.run (hb : b.Traces start) (ops : List BufferOp) :
    ∃ b', Runs.run Buffer.step b ops = some b' ∧ b'.Traces start := by
  induction ops generalizing b with
  | nil => exact ⟨b, rfl, hb⟩
  | cons op ops ih =>
    obtain ⟨b₁, h₁, ht₁⟩ := hb.step op
    obtain ⟨b', h', ht'⟩ := ih ht₁
    exact ⟨b', by rw [Runs.run, h₁]; exact h', ht'⟩

/-- **Undoing to the start restores the initial text.** -/
theorem Traces.undoUntilFalse (hb : b.Traces start) :
    ∃ n b', Buffer.undoUntilFalse n b = some b' ∧ b'.text = start := by
  -- every pass shortens the applied stack
  generalize hn : b.history.applied.length = n
  induction n using Nat.strong_induction_on generalizing b with
  | _ n ih =>
    obtain ⟨happ, hu⟩ | ⟨c, h', b', -, hu, -, hh, ht, hlt⟩ := hb.undo
    · refine ⟨1, b, by rw [Buffer.undoUntilFalse, hu]; rfl, ?_⟩
      have := hb.linked
      rwa [happ] at this
    · obtain ⟨m, b₁, h₁, ht₁⟩ := ih _ (by rw [← hn]; exact hlt) ht (by rw [hh])
      exact ⟨m + 1, b₁, by rw [Buffer.undoUntilFalse, hu]; exact h₁, ht₁⟩

theorem Traces.redo_undo {b' : Buffer} (hb : b.Traces start) (hu : b.undo = some (b', true)) :
    ∃ b'', b'.redo = some (b'', true) ∧ b''.text = b.text := by
  obtain ⟨-, h⟩ | ⟨c, h', b₁, hh, h, htext, hhist, -, -⟩ := hb.undo
  · rw [h] at hu
    simp at hu
  · obtain rfl : b₁ = b' := by simpa [h] using hu
    obtain ⟨h'', d, hr, hl, hd⟩ := Traced.undo_redo hb hh
    rw [← htext] at hl hd
    obtain ⟨b₂, h1, h2, -⟩ := replay_some (b := { b₁ with history := h'' }) hl
    exact ⟨b₂, by rw [Buffer.redo, hhist, hr, Option.bind_some, replayed, h1]; rfl, h2.trans hd⟩

theorem Traces.undo_redo {b' : Buffer} (hb : b.Traces start) (hr : b.redo = some (b', true)) :
    ∃ b'', b'.undo = some (b'', true) ∧ b''.text = b.text := by
  obtain ⟨-, h⟩ | ⟨c, h', b₁, hh, h, htext, hhist, -⟩ := hb.redo
  · rw [h] at hr
    simp at hr
  · obtain rfl : b₁ = b' := by simpa [h] using hr
    obtain ⟨h'', d, hu, hl, hd⟩ := Traced.redo_undo hb hh
    rw [← htext] at hl hd
    obtain ⟨b₂, h1, h2, -⟩ := replay_some (b := { b₁ with history := h'' }) hl
    exact ⟨b₂, by rw [Buffer.undo, hhist, hu, Option.bind_some, replayed, h1]; rfl, h2.trans hd⟩

/-- **Undo and redo are exact inverses over whole runs**: no run panics, the recorded changes chain
through the current text, undoing to the start restores the initial text, and each of the two
reverses the other. -/
theorem undo_redo_exact (id : BufferId) (path : Option Path) (text : Text) (ops : List BufferOp) :
    ∃ b, Runs.run Buffer.step (fromText id path text) ops = some b ∧ b.Chained ∧
      (∃ n b', Buffer.undoUntilFalse n b = some b' ∧ b'.text = (fromText id path text).text) ∧
      (∃ b₁ did, b.undo = some (b₁, did) ∧
        (did = true → ∃ b₂, b₁.redo = some (b₂, true) ∧ b₂.text = b.text)) ∧
      (∃ b₁ did, b.redo = some (b₁, did) ∧
        (did = true → ∃ b₂, b₁.undo = some (b₂, true) ∧ b₂.text = b.text)) := by
  obtain ⟨b, hr, hb⟩ := (traces_fromText id path text).run ops
  refine ⟨b, hr, hb.chained, hb.undoUntilFalse, ?_, ?_⟩
  · obtain ⟨-, h⟩ | ⟨c, h', b', -, h, -⟩ := hb.undo
    · exact ⟨b, false, h, by simp⟩
    · exact ⟨b', true, h, fun _ => hb.redo_undo h⟩
  · obtain ⟨-, h⟩ | ⟨c, h', b', -, h, -⟩ := hb.redo
    · exact ⟨b, false, h, by simp⟩
    · exact ⟨b', true, h, fun _ => hb.undo_redo h⟩

end Buffer

end Termesh
