import Termesh.Editor.UndoRedo

/-!
# Undo steps

The log numbers its entries by group, and a pass moves the entries of a group. What the user meets is
a stack of texts to go back to, and one to go on to: a run of typing adds one to it, and so does every
other edit.

* `History.Grouped`: no recorded group is newer than the counter, so that a new one is new;
* `Checkpoints`: the two stacks of texts, and whether typing goes on with the last step;
* `marks`, `marks_block`: the texts that the groups of a stack lead to;
* **`undo_steps`**: every run of a buffer shows the checkpoints of its operations.
-/

namespace Termesh

/-! ## Groups and their counter -/

/-- No recorded group is newer than the counter. -/
def History.Grouped (h : History) : Prop :=
  (∀ e ∈ h.applied, e.group ≤ h.nextGroup) ∧ ∀ e ∈ h.undone, e.group ≤ h.nextGroup

namespace History

variable {h h' : History}

theorem mem_shiftGroup {pick : Entry → ChangeSet} {g : UndoGroupId} {src dst src' dst' : List Entry}
    {acc c : Option ChangeSet} (hs : shiftGroup pick g src dst acc = some (src', dst', c)) :
    (∀ e ∈ src', e ∈ src) ∧ ∀ e ∈ dst', e ∈ src ∨ e ∈ dst := by
  induction src generalizing dst acc with
  | nil =>
    cases hs
    exact ⟨fun _ he => he, fun _ he => .inr he⟩
  | cons e src ih =>
    rw [shiftGroup] at hs
    split_ifs at hs with hg
    · obtain ⟨d, -, hs⟩ := Option.bind_eq_some_iff.mp hs
      obtain ⟨h1, h2⟩ := ih hs
      refine ⟨fun e' he => List.mem_cons_of_mem _ (h1 e' he), fun e' he => ?_⟩
      rcases h2 e' he with he | he
      · exact .inl (List.mem_cons_of_mem _ he)
      · rcases List.mem_cons.mp he with rfl | he
        · exact .inl List.mem_cons_self
        · exact .inr he
    · cases hs
      exact ⟨fun _ he => he, fun _ he => .inr he⟩

theorem Grouped.groupFor (hg : h.Grouped) (source : EditSource) :
    (h.groupFor source).1.Grouped ∧ (h.groupFor source).2 ≤ (h.groupFor source).1.nextGroup := by
  have hnext : Grouped { h with nextGroup := h.nextGroup + 1 } :=
    ⟨fun e he => Nat.le_succ_of_le (hg.1 e he), fun e he => Nat.le_succ_of_le (hg.2 e he)⟩
  unfold History.groupFor
  split
  · rename_i e es happ
    split_ifs
    · exact ⟨hg, hg.1 e (by rw [happ]; exact List.mem_cons_self)⟩
    · exact ⟨hnext, Nat.le_refl _⟩
  · exact ⟨hnext, Nat.le_refl _⟩

theorem Grouped.push (hg : h.Grouped) {t : EditTransaction} (ht : t.undoGroup ≤ h.nextGroup)
    (inverse : ChangeSet) : (h.push t inverse).Grouped := by
  unfold History.push
  split_ifs
  · exact hg
  · refine ⟨fun e he => ?_, fun e he => by cases he⟩
    rcases List.mem_cons.mp he with rfl | he
    · exact ht
    · exact hg.1 e he

theorem Grouped.undo {c : Option ChangeSet} (hg : h.Grouped) (hu : h.undo = some (h', c)) :
    h'.Grouped := by
  unfold History.undo at hu
  split at hu
  · rw [← (Prod.mk.inj (Option.some.inj hu)).1]
    exact hg
  · obtain ⟨⟨applied, undone, c'⟩, hs, hx⟩ := Option.map_eq_some_iff.mp hu
    obtain ⟨h1, h2⟩ := mem_shiftGroup hs
    rw [← (Prod.mk.inj hx).1]
    exact ⟨fun e he => hg.1 e (h1 e he), fun e he => (h2 e he).elim (hg.1 e) (hg.2 e)⟩

theorem Grouped.redo {c : Option ChangeSet} (hg : h.Grouped) (hr : h.redo = some (h', c)) :
    h'.Grouped := by
  unfold History.redo at hr
  split at hr
  · rw [← (Prod.mk.inj (Option.some.inj hr)).1]
    exact hg
  · obtain ⟨⟨undone, applied, c'⟩, hs, hx⟩ := Option.map_eq_some_iff.mp hr
    obtain ⟨h1, h2⟩ := mem_shiftGroup hs
    rw [← (Prod.mk.inj hx).1]
    exact ⟨fun e he => (h2 e he).elim (hg.2 e) (hg.1 e), fun e he => hg.2 e (h1 e he)⟩

end History

namespace Buffer

theorem grouped_replayed {b b' : Buffer} {p : History × Option ChangeSet} {r : Bool}
    (hp : p.1.Grouped) (h : b.replayed p = some (b', r)) : b'.history.Grouped := by
  obtain ⟨history, c⟩ := p
  cases c with
  | none =>
    rw [← (Prod.mk.inj (Option.some.inj h)).1]
    exact hp
  | some c =>
    obtain ⟨b₁, h₁, hx⟩ := Option.map_eq_some_iff.mp h
    unfold replay at h₁
    split_ifs at h₁
    rw [← (Prod.mk.inj hx).1, ← Option.some.inj h₁]
    exact hp

end Buffer

/-! ## Checkpoints -/

/-- The texts undo goes back to, nearest first, the text, the texts redo goes on to, nearest first,
and whether typing goes on with the last step. -/
structure Checkpoints where
  past : List Text := []
  now : Text
  future : List Text := []
  typing : Bool := false

namespace Checkpoints

/-- A change: typing that goes on adds no text to go back to. -/
def edit (c : Checkpoints) (source : EditSource) (new : Text) : Checkpoints :=
  { past := if c.typing && source.coalesces then c.past else c.now :: c.past
    now := new
    typing := source.coalesces }

def undo (c : Checkpoints) : Checkpoints :=
  match c.past with
  | [] => c
  | text :: past => { past, now := text, future := c.now :: c.future }

def redo (c : Checkpoints) : Checkpoints :=
  match c.future with
  | [] => c
  | text :: future => { past := c.now :: c.past, now := text, future }

end Checkpoints

/-- One operation on a buffer, each edit stamped as it is made. -/
inductive Stroke where
  | edit (changes : ChangeSet) (source : EditSource)
  | setSelection (s : Selection)
  | markSaved (v : Version)
  | undo
  | redo

/-- A change of another document is refused, and one that changes nothing leaves no mark. -/
def Checkpoints.step (c : Checkpoints) : Stroke → Checkpoints
  | .edit changes source =>
    if changes.lenBefore = c.now.length ∧ changes.isIdentity = false then
      c.edit source (changes.apply c.now)
    else c
  | .setSelection _ | .markSaved _ => { c with typing := false }
  | .undo => c.undo
  | .redo => c.redo

def Buffer.stroke (b : Buffer) : Stroke → Option Buffer
  | .edit changes source =>
    let (b, t) := b.transaction changes source
    (b.apply t).map Prod.fst
  | .setSelection s => some (b.setSelection s)
  | .markSaved v => some (b.markSaved v)
  | .undo => b.undo.map Prod.fst
  | .redo => b.redo.map Prod.fst

/-! ## The texts that groups lead to -/

section Marks

variable {pick : Entry → ChangeSet} {g : UndoGroupId} {start t : Text} {es src : List Entry}

/-- What is left of a text when entries are played one after the other. -/
@[simp] def play (pick : Entry → ChangeSet) : List Entry → Text → Text
  | [], t => t
  | e :: es, t => play pick es ((pick e).apply t)

/-- The texts that the groups of a stack lead to, nearest first. -/
@[simp] def marks (pick : Entry → ChangeSet) : List Entry → Text → List Text
  | [], _ => []
  | e :: es, t =>
    if es.head?.map (·.group) = some e.group then marks pick es ((pick e).apply t)
    else (pick e).apply t :: marks pick es ((pick e).apply t)

theorem play_append (es src : List Entry) (t : Text) :
    play pick (es ++ src) t = play pick src (play pick es t) := by
  induction es generalizing t with
  | nil => rfl
  | cons e es ih => exact ih _

/-- A whole group leads to one text. -/
theorem marks_block (pick : Entry → ChangeSet) (hall : ∀ e ∈ es, e.group = g) (hne : es ≠ [])
    (hsrc : ∀ e ∈ src.head?, e.group ≠ g) (t : Text) :
    marks pick (es ++ src) t = play pick es t :: marks pick src (play pick es t) := by
  induction es generalizing t with
  | nil => exact absurd rfl hne
  | cons e es ih =>
    have he : e.group = g := hall e (.head _)
    cases es with
    | nil =>
      have hnext : ¬ src.head?.map (·.group) = some e.group := by
        rw [he, Option.map_eq_some_iff]
        exact fun ⟨e', h', hg⟩ => hsrc e' h' hg
      simp only [List.cons_append, List.nil_append, marks, if_neg hnext, play]
    | cons e' es =>
      have hsame : e'.group = e.group := (hall e' (.tail _ (.head _))).trans he.symm
      rw [List.cons_append, marks, if_pos (by simp [hsame]),
        ih (fun x hx => hall x (.tail _ hx)) (List.cons_ne_nil _ _)]
      rfl

/-- What was taken back is done again. -/
theorem play_back (h : Linked start (es ++ src) t) :
    play Entry.forward es.reverse (play Entry.inverse es t) = t := by
  induction es generalizing t with
  | nil => rfl
  | cons e es ih =>
    obtain ⟨s, hs, hlen, rfl, hi⟩ := h
    have hback := e.forward.invert_apply e.inverse s hlen hi
    simp only [List.reverse_cons, play_append, play, hback, ih hs]

/-- What was done again is taken back. -/
theorem play_forth (h : Ahead (es ++ src) t) :
    play Entry.inverse es.reverse (play Entry.forward es t) = t := by
  induction es generalizing t with
  | nil => rfl
  | cons e es ih =>
    obtain ⟨hlen, hi, hes⟩ := h
    simp only [List.reverse_cons, play_append, play, ih hes]
    exact e.forward.invert_apply e.inverse t hlen hi

theorem pass_play {R : List Entry → List Entry → Text → Prop}
    (hR : ∀ e src dst s, R (e :: src) dst s →
      s.length = (pick e).lenBefore ∧ R src (e :: dst) ((pick e).apply s))
    {e : Entry} {dst src' dst' : List Entry} {c : ChangeSet} (h : R (e :: src) dst t)
    (hc : History.shiftGroup pick e.group (e :: src) dst none = some (src', dst', some c)) :
    c.apply t = play pick ((e :: src).takeWhile (·.group = e.group)) t := by
  obtain ⟨d, hd, -, -, moved, hsrc, hplay⟩ := pass pick
    (R := fun rest dst s => R rest dst s ∧ ∃ moved, e :: src = moved ++ rest ∧ s = play pick moved t)
    (fun a rest dst s ⟨hr, moved, hm, hs⟩ => ⟨(hR a rest dst s hr).1, (hR a rest dst s hr).2,
      moved ++ [a], by rw [hm, List.append_assoc, List.singleton_append],
      by rw [play_append, ← hs]; rfl⟩) ⟨h, [], rfl, rfl⟩
  obtain rfl : d = c := by
    rw [hd] at hc
    exact Option.some.inj (Prod.mk.inj (Prod.mk.inj (Option.some.inj hc)).2).2
  rw [hplay]
  have hsplit := List.takeWhile_append_dropWhile (p := fun x : Entry => decide (x.group = e.group))
    (l := e :: src)
  rw [List.append_cancel_right (hsrc.symm.trans hsplit.symm)]

end Marks

/-! ## What a buffer shows -/

/-- Typing would go on with the last step. -/
def History.typing (h : History) : Bool :=
  !h.groupBroken && h.lastSource.any EditSource.coalesces && h.canUndo

/-- The buffer stands where the checkpoints say. -/
structure Buffer.Shows (start : Text) (b : Buffer) (c : Checkpoints) : Prop where
  traces : b.Traces start
  grouped : b.history.Grouped
  now : b.text = c.now
  past : marks Entry.inverse b.history.applied b.text = c.past
  future : marks Entry.forward b.history.undone b.text = c.future
  typing : b.history.typing = c.typing

namespace History

variable {h : History}

theorem groupFor_iff (hg : h.Grouped) (source : EditSource) :
    h.applied.head?.map (·.group) = some (h.groupFor source).2 ↔
      (h.typing && source.coalesces) = true := by
  have hsource : ∀ last : EditSource, source.coalesces = true →
      (last = source ↔ last.coalesces = true) := by
    intro last hs
    simp only [EditSource.coalesces, beq_iff_eq] at hs ⊢
    rw [hs]
  cases happ : h.applied with
  | nil => simp [groupFor, typing, canUndo, happ]
  | cons e es =>
    have hold : e.group ≠ h.nextGroup + 1 := by
      have hle := hg.1 e (by simp [happ])
      exact Nat.ne_of_lt (Nat.lt_succ_of_le hle)
    simp only [groupFor, happ, typing, canUndo, List.head?_cons, Option.map_some, List.isEmpty_cons,
      Bool.not_false, Bool.and_true]
    cases hl : h.lastSource with
    | none => simp [hold]
    | some last =>
      cases hs : source.coalesces with
      | false => simp [hold]
      | true =>
        have hiff := hsource last hs
        cases hb : h.groupBroken with
        | true => simp [hold]
        | false =>
          by_cases hsame : last = source
          · simp [hsame, hs]
          · have hlast : last.coalesces = false := by
              rw [Bool.eq_false_iff]
              exact fun hc => hsame (hiff.mpr hc)
            simp [hsame, hlast, hold]

theorem groupFor_typing (h : History) (source : EditSource) :
    (h.groupFor source).1.typing = h.typing := by
  unfold groupFor
  split
  · split_ifs <;> rfl
  · rfl

theorem undo_typing {h' : History} {c : ChangeSet} (hu : h.undo = some (h', some c)) :
    h'.typing = false := by
  unfold undo at hu
  split at hu
  · cases hu
  · obtain ⟨⟨applied, undone, d⟩, -, hx⟩ := Option.map_eq_some_iff.mp hu
    rw [← (Prod.mk.inj hx).1]
    rfl

theorem redo_typing {h' : History} {c : ChangeSet} (hr : h.redo = some (h', some c)) :
    h'.typing = false := by
  unfold redo at hr
  split at hr
  · cases hr
  · obtain ⟨⟨undone, applied, d⟩, -, hx⟩ := Option.map_eq_some_iff.mp hr
    rw [← (Prod.mk.inj hx).1]
    rfl

theorem undo_play {start t : Text} {e : Entry} {es : List Entry} {h' : History} {c : ChangeSet}
    (ht : Traced start h t) (happ : h.applied = e :: es) (hu : h.undo = some (h', some c)) :
    c.apply t = play Entry.inverse ((e :: es).takeWhile (·.group = e.group)) t := by
  have hl := ht.linked
  rw [happ] at hl
  simp only [undo, happ] at hu
  obtain ⟨⟨applied, undone, d⟩, hs, hx⟩ := Option.map_eq_some_iff.mp hu
  obtain rfl : d = some c := (Prod.mk.inj hx).2
  exact pass_play (R := fun src dst s => Linked start src s ∧ Ahead dst s)
    (fun e src dst s hr => hr.1.back hr.2) ⟨hl, ht.ahead⟩ hs

theorem redo_play {start t : Text} {e : Entry} {es : List Entry} {h' : History} {c : ChangeSet}
    (ht : Traced start h t) (hund : h.undone = e :: es) (hr : h.redo = some (h', some c)) :
    c.apply t = play Entry.forward ((e :: es).takeWhile (·.group = e.group)) t := by
  have ha := ht.ahead
  rw [hund] at ha
  simp only [redo, hund] at hr
  obtain ⟨⟨undone, applied, d⟩, hs, hx⟩ := Option.map_eq_some_iff.mp hr
  obtain rfl : d = some c := (Prod.mk.inj hx).2
  exact pass_play (R := fun src dst s => Ahead src s ∧ Linked start dst s)
    (fun e src dst s hr => hr.1.forth hr.2) ⟨ha, ht.linked⟩ hs

end History

/-- What a pass makes of the texts that two stacks lead to: the first one it had is the text now, and
the text it had is the first one to go back to. -/
theorem marks_pass {pick pick' : Entry → ChangeSet} {e : Entry} {src dst : List Entry} {s t : Text}
    (hs : s = play pick ((e :: src).takeWhile (·.group = e.group)) t)
    (hback : play pick' ((e :: src).takeWhile (·.group = e.group)).reverse s = t)
    (hd : ∀ e' ∈ dst.head?, e'.group ≠ e.group) :
    marks pick (e :: src) t = s :: marks pick ((e :: src).dropWhile (·.group = e.group)) s ∧
      marks pick' (((e :: src).takeWhile (·.group = e.group)).reverse ++ dst) s =
        t :: marks pick' dst t := by
  have hall : ∀ x ∈ (e :: src).takeWhile (·.group = e.group), x.group = e.group := fun x hx => by
    simpa using List.mem_takeWhile_imp hx
  have hne : (e :: src).takeWhile (·.group = e.group) ≠ [] := by
    rw [List.takeWhile_cons_of_pos (by simp)]
    exact List.cons_ne_nil _ _
  have hhead := (head_pass e.group e src dst rfl).1
  constructor
  · have hblock := marks_block pick hall hne hhead t
    rwa [List.takeWhile_append_dropWhile, ← hs] at hblock
  · have hblock := marks_block pick' (fun x hx => hall x (List.mem_reverse.mp hx))
      (by simp) hd s
    rwa [hback] at hblock

namespace Buffer.Shows

variable {start : Text} {b b' : Buffer} {c : Checkpoints}

theorem undo (hb : b.Shows start c) : ∃ b', b.stroke .undo = some b' ∧ b'.Shows start c.undo := by
  obtain ⟨happ, hu⟩ | ⟨d, h', b', hh, hu, htext, hhist, htr, -⟩ := hb.traces.undo
  · refine ⟨b, by rw [stroke, hu]; rfl, ?_⟩
    have hnone : c.past = [] := by rw [← hb.past, happ]; rfl
    rw [Checkpoints.undo, hnone]
    exact hb
  · refine ⟨b', by rw [stroke, hu]; rfl, ?_⟩
    cases happ : b.history.applied with
    | nil => simp [History.undo, happ] at hh
    | cons e es =>
      obtain ⟨d', k, hk, -, -, happ', hund'⟩ := Traced.undo hb.traces happ
      obtain ⟨rfl, rfl⟩ : k = h' ∧ d' = d := by simpa [hk] using hh
      have hplay := History.undo_play hb.traces happ hk
      have hl := hb.traces.linked
      rw [happ, ← List.takeWhile_append_dropWhile (p := fun x : Entry => decide (x.group = e.group))
        (l := e :: es)] at hl
      obtain ⟨hpast, hfuture⟩ := marks_pass hplay (by rw [hplay]; exact play_back hl)
        fun e' he' => (hb.traces.apart e (by rw [happ]; rfl) e' he').symm
      have hp := hb.past
      rw [happ, hpast] at hp
      rw [Checkpoints.undo, ← hp]
      refine ⟨htr, ?_, htext, ?_, ?_, ?_⟩
      · rw [hhist]
        exact hb.grouped.undo hk
      · rw [hhist, happ', htext]
      · rw [hhist, hund', htext, hfuture, hb.future, hb.now]
      · rw [hhist]
        exact History.undo_typing hk

theorem redo (hb : b.Shows start c) : ∃ b', b.stroke .redo = some b' ∧ b'.Shows start c.redo := by
  obtain ⟨hund, hr⟩ | ⟨d, h', b', hh, hr, htext, hhist, htr⟩ := hb.traces.redo
  · refine ⟨b, by rw [stroke, hr]; rfl, ?_⟩
    have hnone : c.future = [] := by rw [← hb.future, hund]; rfl
    rw [Checkpoints.redo, hnone]
    exact hb
  · refine ⟨b', by rw [stroke, hr]; rfl, ?_⟩
    cases hund : b.history.undone with
    | nil => simp [History.redo, hund] at hh
    | cons e es =>
      obtain ⟨d', k, hk, -, -, hund', happ'⟩ := Traced.redo hb.traces hund
      obtain ⟨rfl, rfl⟩ : k = h' ∧ d' = d := by simpa [hk] using hh
      have hplay := History.redo_play hb.traces hund hk
      have ha := hb.traces.ahead
      rw [hund, ← List.takeWhile_append_dropWhile (p := fun x : Entry => decide (x.group = e.group))
        (l := e :: es)] at ha
      obtain ⟨hfuture, hpast⟩ := marks_pass hplay (by rw [hplay]; exact play_forth ha)
        fun e' he' => hb.traces.apart e' he' e (by rw [hund]; rfl)
      have hf := hb.future
      rw [hund, hfuture] at hf
      rw [Checkpoints.redo, ← hf]
      refine ⟨htr, ?_, htext, ?_, ?_, ?_⟩
      · rw [hhist]
        exact hb.grouped.redo hk
      · rw [hhist, happ', htext, hpast, hb.past, hb.now]
      · rw [hhist, hund', htext]
      · rw [hhist]
        exact History.redo_typing hk

theorem groupFor (hb : b.Shows start c) (source : EditSource) :
    Shows start { b with history := (b.history.groupFor source).1 } c := by
  obtain ⟨happ, hund⟩ := groupFor_stacks b.history source
  exact ⟨traced_congr happ hund hb.traces, (hb.grouped.groupFor source).1, hb.now,
    (congrArg (marks Entry.inverse · b.text) happ).trans hb.past,
    (congrArg (marks Entry.forward · b.text) hund).trans hb.future,
    (History.groupFor_typing b.history source).trans hb.typing⟩

theorem breakGroup (hb : b.Shows start c) (selection : Selection) (savedVersion : Option Version) :
    Shows start { b with selection, savedVersion, history := b.history.breakGroup }
      { c with typing := false } :=
  ⟨traced_congr (h := b.history) rfl rfl hb.traces, hb.grouped, hb.now, hb.past, hb.future, rfl⟩

theorem edit (hb : b.Shows start c) (changes : ChangeSet) (source : EditSource) :
    ∃ b', b.stroke (.edit changes source) = some b' ∧
      b'.Shows start (c.step (.edit changes source)) := by
  have hasked := hb.groupFor source
  rw [Checkpoints.step, ← hb.now]
  by_cases hl : changes.lenBefore = b.text.length
  · cases hid : changes.isIdentity with
    | true =>
      rw [if_neg (by simp)]
      refine ⟨_, ?_, hasked⟩
      simp [stroke, transaction, apply, EditTransaction.isEmpty, hl, hid]
    | false =>
      obtain ⟨inverse, hi, -⟩ := changes.invert_some b.text hl.symm
      refine ⟨(b.transaction changes source).1.applied (b.transaction changes source).2 inverse, ?_, ?_⟩
      · simp [stroke, transaction, apply, EditTransaction.isEmpty, hl, hid, hi]
      · have happ := (groupFor_stacks b.history source).1
        have hback := changes.invert_apply inverse b.text hl.symm hi
        have htr := Traced.push hasked.traces (b.transaction changes source).2 hl.symm hi hid
        have hgr := hasked.grouped.push (t := (b.transaction changes source).2)
          (hb.grouped.groupFor source).2 inverse
        rw [if_pos ⟨hl, rfl⟩]
        have hpush : (b.history.groupFor source).1.push (b.transaction changes source).2 inverse =
            { (b.history.groupFor source).1 with
              undone := []
              groupBroken := false
              lastSource := some source
              applied := ⟨(b.history.groupFor source).2, changes, inverse⟩ :: b.history.applied } := by
          rw [History.push, if_neg (by simp [EditTransaction.isEmpty, transaction, hid]), happ]
          rfl
        refine ⟨htr, hgr, rfl, ?_, ?_, ?_⟩
        · change marks Entry.inverse ((b.history.groupFor source).1.push _ inverse).applied
            (changes.apply b.text) = _
          rw [hpush, marks, hback, hb.past]
          have hiff := History.groupFor_iff hb.grouped source
          rw [hb.typing] at hiff
          by_cases hgo : (c.typing && source.coalesces) = true
          · rw [if_pos (hiff.mpr hgo), Checkpoints.edit, hgo]
            rfl
          · rw [if_neg fun h => hgo (hiff.mp h), Checkpoints.edit, if_neg hgo, hb.now]
        · change marks Entry.forward ((b.history.groupFor source).1.push _ inverse).undone _ = _
          rw [hpush]
          rfl
        · change ((b.history.groupFor source).1.push _ inverse).typing = _
          rw [hpush]
          simp [History.typing, History.canUndo, Checkpoints.edit]
  · refine ⟨(b.transaction changes source).1, ?_, ?_⟩
    · simp [stroke, transaction, apply, hl]
    · rw [if_neg fun h => hl h.1]
      exact hasked

/-- **One operation** does not panic and does to the buffer what it does to the checkpoints. -/
theorem stroke (hb : b.Shows start c) (op : Stroke) :
    ∃ b', b.stroke op = some b' ∧ b'.Shows start (c.step op) := by
  cases op with
  | edit changes source => exact hb.edit changes source
  | setSelection s => exact ⟨_, rfl, hb.breakGroup s b.savedVersion⟩
  | markSaved v => exact ⟨_, rfl, hb.breakGroup b.selection (some v)⟩
  | undo => exact hb.undo
  | redo => exact hb.redo

theorem run (hb : b.Shows start c) (ops : List Stroke) :
    ∃ b', Runs.run Buffer.stroke b ops = some b' ∧ b'.Shows start (ops.foldl Checkpoints.step c) := by
  induction ops generalizing b c with
  | nil => exact ⟨b, rfl, hb⟩
  | cons op ops ih =>
    obtain ⟨b₁, h₁, hb₁⟩ := hb.stroke op
    obtain ⟨b', h', hb'⟩ := ih hb₁
    exact ⟨b', by rw [Runs.run, h₁]; exact h', hb'⟩

end Buffer.Shows

namespace Buffer

theorem shows_fromText (id : BufferId) (path : Option Path) (text : Text) :
    (fromText id path text).Shows (fromText id path text).text
      { now := (fromText id path text).text } :=
  ⟨traces_fromText id path text, by simp [History.Grouped, fromText], rfl, rfl, rfl, rfl⟩

theorem Shows.canUndo {start : Text} {b : Buffer} {c : Checkpoints} (hb : b.Shows start c) :
    b.history.canUndo = !c.past.isEmpty ∧ b.history.canRedo = !c.future.isEmpty := by
  have hmarks : ∀ (pick : Entry → ChangeSet) (es : List Entry) (t : Text),
      (marks pick es t).isEmpty = es.isEmpty := by
    intro pick es
    induction es with
    | nil => exact fun _ => rfl
    | cons e es ih =>
      intro t
      rw [marks]
      split_ifs with h
      · rw [ih]
        cases es with
        | nil => cases h
        | cons e' es => rfl
      · rfl
  rw [← hb.past, ← hb.future, hmarks, hmarks]
  exact ⟨rfl, rfl⟩

theorem undo_steps (id : BufferId) (path : Option Path) (text : Text) (ops : List Stroke) :
    ∃ b, Runs.run stroke (fromText id path text) ops = some b ∧
      let c := ops.foldl Checkpoints.step { now := (fromText id path text).text }
      b.text = c.now ∧ b.history.canUndo = !c.past.isEmpty ∧
        b.history.canRedo = !c.future.isEmpty := by
  obtain ⟨b, hr, hb⟩ := (shows_fromText id path text).run ops
  exact ⟨b, hr, hb.now, hb.canUndo⟩

end Buffer

end Termesh
