import Termesh.App.Desk
import Termesh.App.Documents

/-!
# What is done to buffers

The entry points of the model work on buffers through a handful of operations. `Work` lists them and
`Works` is any number of them one after the other, so that what every operation keeps is kept by
every entry point.

* `Buffer.Work`, `Buffer.Works`: selections that are put down meet `P`, and texts change only if `T`;
* **`Works.moves`**: works are moves of the document;
* `Model.Worked`: the works on the buffers of a model, one by one.
-/

namespace Termesh

open Relation Document

namespace Buffer

/-- One operation on a buffer. -/
inductive Work (T : Prop) (P : Document → Selection → Prop) : Buffer → Buffer → Prop
  /-- What is drawn over the text, and what is still to be told of it. -/
  | draw (b : Buffer) (decorations : DecorationSet) (pendingChanges : List ChangeSet) :
      Work T P b { b with decorations, pendingChanges }
  | goal (b : Buffer) (goalColumn : Option ℕ) : Work T P b { b with goalColumn }
  | select (b : Buffer) (s : Selection) (h : P b.document s) : Work T P b (b.setSelection s)
  | edit {b b' : Buffer} {r : Except EditError Unit} (hT : T) (changes : ChangeSet)
      (source : EditSource) (h : (b.transaction changes source).1.apply
        (b.transaction changes source).2 = some (b', r)) : Work T P b b'
  | undo {b b' : Buffer} {r : Bool} (hT : T) (h : b.undo = some (b', r)) : Work T P b b'
  | redo {b b' : Buffer} {r : Bool} (hT : T) (h : b.redo = some (b', r)) : Work T P b b'

/-- Any number of operations. -/
def Works (T : Prop) (P : Document → Selection → Prop) : Buffer → Buffer → Prop :=
  ReflTransGen (Work T P)

variable {T T' : Prop} {P P' : Document → Selection → Prop} {b b' b₁ : Buffer}

theorem Works.refl : Works T P b b := ReflTransGen.refl

theorem Works.single (h : Work T P b b') : Works T P b b' := ReflTransGen.single h

theorem Works.trans (h : Works T P b b₁) (h' : Works T P b₁ b') : Works T P b b' :=
  ReflTransGen.trans h h'

/-- **Works are moves of the document.** -/
theorem Works.moves (h : Works T P b b') : Moves T P b.document b'.document := by
  induction (h : ReflTransGen _ _ _) with
  | refl => exact .refl
  | tail _ hw ih =>
    refine ReflTransGen.trans ih ?_
    cases hw with
    | draw | goal => exact .refl
    | select s hs => exact .single (.select _ s hs)
    | edit ht changes source hc =>
      exact (apply_moves (b := (Buffer.transaction _ changes source).1) hc rfl).mono (fun _ => ht)
        fun _ _ hp => hp
    | undo ht hc => exact (undo_moves hc).mono (fun _ => ht) fun _ _ hp => hp
    | redo ht hc => exact (redo_moves hc).mono (fun _ => ht) fun _ _ hp => hp

theorem Works.keeps {Q : Buffer → Prop} (hQ : ∀ b b', Work T P b b' → Q b → Q b')
    (h : Works T P b b') (hb : Q b) : Q b' := by
  induction (h : ReflTransGen _ _ _) with
  | refl => exact hb
  | tail _ hw ih => exact hQ _ _ hw ih

theorem works_of_bare (h : b'.bare = b.bare) : Works T P b b' := by
  have hb' : b' = { b with decorations := b'.decorations, pendingChanges := b'.pendingChanges } :=
    calc b' = { b'.bare with
            decorations := b'.decorations, pendingChanges := b'.pendingChanges } := rfl
      _ = { b.bare with
            decorations := b'.decorations, pendingChanges := b'.pendingChanges } := by rw [h]
      _ = _ := rfl
  rw [hb']
  exact .single (.draw b _ _)

theorem edit_works {start stop : ℕ} {text : Text} {source : EditSource} {r : Except EditError Unit}
    (h : b.edit start stop text source = some (b', r)) : Works True P b b' := by
  obtain ⟨changes, -, h⟩ := Option.bind_eq_some_iff.mp h
  exact .single (.edit trivial changes source h)

theorem edit_works_goal {start stop : ℕ} {text : Text} {source : EditSource}
    {r : Except EditError Unit}
    (h : { b with goalColumn := none }.edit start stop text source = some (b', r)) :
    Works True P b b' := (Works.single (.goal b none)).trans (edit_works h)

theorem insert_works {text : Text} {source : EditSource} {r : Except EditError Unit}
    (h : b.insert text source = some (b', r)) : Works True P b b' := edit_works_goal h

theorem deleteBackward_works {r : Except EditError Unit}
    (h : b.deleteBackward = some (b', r)) : Works True P b b' := by
  unfold deleteBackward at h
  dsimp only at h
  split_ifs at h
  · exact edit_works_goal h
  · rw [← (Prod.mk.inj (Option.some.inj h)).1]
    exact .single (.goal b none)
  · exact edit_works_goal h

theorem deleteForward_works {r : Except EditError Unit}
    (h : b.deleteForward = some (b', r)) : Works True P b b' := by
  unfold deleteForward at h
  dsimp only at h
  split_ifs at h
  · exact edit_works_goal h
  · rw [← (Prod.mk.inj (Option.some.inj h)).1]
    exact .single (.goal b none)
  · exact edit_works_goal h

theorem motion_works (hP : ∀ d s, Stays d s → P d s) (motion : App.Motion) (b : Buffer) :
    Works T P b (motion.run b) := by
  have place : ∀ (pos : ℕ), (b.document.Inside → pos ≤ b.text.length) →
      Works T P b (b.placeCursor pos) := fun pos h =>
    (Works.single (.goal b none)).trans
      (.single (.select _ _ (hP _ _ fun hi => Selection.within_point (h hi))))
  have cursor : b.document.Inside → b.cursor ≤ b.text.length := fun hi => hi.primary.2
  have line : ∀ (pos : ℕ) (g : Option ℕ), (b.document.Inside → pos ≤ b.text.length) →
      Works T P b { b.setSelection (.point pos) with goalColumn := g } := fun pos g h =>
    (Works.single (.select _ _ (hP _ _ fun hi => Selection.within_point (h hi)))).trans
      (.single (.goal _ g))
  cases motion with
  | left => exact place _ fun hi => left_le (cursor hi)
  | right => exact place _ fun _ => right_le _ _
  | lineStart => exact place _ fun _ => lineStart_le _ _
  | lineEnd => exact place _ fun _ => lineEnd_le _ _
  | up => exact line _ _ fun hi => up_le (cursor hi) _
  | down => exact line _ _ fun hi => down_le (cursor hi) _

end Buffer

namespace App.Model

open Buffer

variable {T T' : Prop} {P P' : Document → Selection → Prop} {m m' m₁ : Model}

/-- A live find is the one there was: its query and its matches are. -/
def Sought (m m' : Model) : Prop :=
  ∀ find', m'.find = some find' → ∃ find, m.find = some find ∧ find'.query = find.query ∧
    find'.found = find.found

theorem Sought.of_eq (h : m'.find = m.find) : Sought m m' :=
  fun find' hf => ⟨find', by rw [← h, hf], rfl, rfl⟩

theorem Sought.trans (h : Sought m m₁) (h' : Sought m₁ m') : Sought m m' := by
  intro find' hf'
  obtain ⟨find₁, hf₁, hq', hf'⟩ := h' find' hf'
  obtain ⟨find, hf, hq, hf₁⟩ := h find₁ hf₁
  exact ⟨find, hf, hq'.trans hq, hf'.trans hf₁⟩

/-- Buffer by buffer, the works of one step; none starts a find. -/
def Worked (T : Prop) (P : Document → Selection → Prop) (m m' : Model) : Prop :=
  List.Forall₂ (Works T P) m.buffers m'.buffers ∧ Sought m m'

theorem Worked.of_buffers (h : m'.buffers = m.buffers) (hf : m'.find = m.find) :
    Worked T P m m' := by
  refine ⟨?_, .of_eq hf⟩
  rw [h]
  exact List.forall₂_same.mpr fun _ _ => .refl

theorem Worked.of_docs (h : m'.docs = m.docs) (hs : Sought m m') : Worked T P m m' := by
  refine ⟨?_, hs⟩
  rw [docs, docs] at h
  generalize m.buffers = bs at *
  generalize m'.buffers = bs' at *
  induction bs generalizing bs' with
  | nil =>
    rw [List.map_eq_nil_iff.mp h]
    exact .nil
  | cons b bs ih =>
    cases bs' with
    | nil => cases h
    | cons b' bs' =>
      obtain ⟨hb, hbs⟩ := List.cons.inj h
      exact .cons (works_of_bare hb) (ih bs' hbs)

theorem Worked.of_bare (h : m'.bare = m.bare) : Worked T P m m' :=
  .of_docs (docs_of_bare h) (.of_eq (show m'.bare.find = m.bare.find by rw [h]))

theorem Worked.of_desk (h : m'.desk = m.desk) : Worked T P m m' :=
  .of_buffers (buffers_of_desk h) (find_of_desk h)

theorem Worked.trans (h : Worked T P m m₁) (h' : Worked T P m₁ m') : Worked T P m m' := by
  refine ⟨?_, h.2.trans h'.2⟩
  replace h := h.1
  replace h' := h'.1
  generalize m.buffers = bs at *
  generalize m₁.buffers = bs₁ at *
  generalize m'.buffers = bs' at *
  induction h generalizing bs' with
  | nil => cases h'; exact .nil
  | cons h _ ih =>
    cases h' with
    | cons h' hs' => exact .cons (Works.trans h h') (ih _ hs')

theorem Worked.mem (h : Worked T P m m') {b' : Buffer} (hb : b' ∈ m'.buffers) :
    ∃ b ∈ m.buffers, Works T P b b' := by
  replace h := h.1
  generalize m.buffers = bs at *
  generalize m'.buffers = bs' at *
  induction h with
  | nil => cases hb
  | @cons x y _ _ hxy _ ih =>
    rcases List.mem_cons.mp hb with rfl | hb
    · exact ⟨x, List.mem_cons_self, hxy⟩
    · obtain ⟨b, hm, hw⟩ := ih hb
      exact ⟨b, List.mem_cons_of_mem _ hm, hw⟩

theorem Worked.moved (h : Worked T P m m') : Moved T P m m' := by
  rw [Moved, documents, documents, List.forall₂_map_left_iff, List.forall₂_map_right_iff]
  exact List.Forall₂.imp (fun _ _ => Works.moves) h.1

theorem Worked.pages (h : Worked False P m m') : m'.pages = m.pages := h.moved.pages

theorem Worked.documents (h : Worked False (fun _ _ => False) m m') : m'.documents = m.documents := by
  have hmoved := h.moved
  unfold Moved at hmoved
  generalize m.documents = ds at *
  generalize m'.documents = ds' at *
  induction hmoved with
  | nil => rfl
  | @cons d d' _ _ hd _ ih =>
    have hsame : d' = d := by
      induction (hd : ReflTransGen _ _ _) with
      | refl => rfl
      | tail _ hm ih =>
        cases hm with
        | select _ hF => exact hF.elim
        | change _ hF => exact hF.elim
    rw [hsame, ih]

theorem worked_set {i : ℕ} {b b' : Buffer} (hb : m.buffers[i]? = some b) (h : Works T P b b') :
    Worked T P m (m.setBuffer i b') := by
  refine ⟨?_, .of_eq rfl⟩
  rw [setBuffer, List.forall₂_iff_get]
  refine ⟨by simp, fun j h1 h2 => ?_⟩
  simp only [List.get_eq_getElem, List.getElem_set]
  split_ifs with hij
  · subst hij
    obtain ⟨hi, rfl⟩ := List.getElem?_eq_some_iff.mp hb
    exact h
  · exact .refl

/-! ## Syncing -/

theorem syncProposals_worked {h : Host} (hs : m.syncProposals h = some m') : Worked T P m m' := by
  obtain ⟨ps, -, hb⟩ := syncProposals_spec hs
  exact .of_docs (show m'.bare.buffers = m.docs by rw [hb]; rfl)
    (.of_eq (show m'.bare.find = m.find by rw [hb]; rfl))

theorem syncAll_worked {h : Host} (hs : m.syncAll h = some m') : Worked T P m m' := by
  obtain ⟨m₁, m₂, h₁, h₂, rfl⟩ := syncAll_cases hs
  exact (Worked.of_bare (syncSyntax_bare h₁)).trans
    ((syncProposals_worked h₂).trans (.of_bare (syncLspDocuments_bare m₂)))

/-! ## Editing -/

theorem transact_worked {i : ℕ} {c : ChangeSet} {s : EditSource} {r : Except EditError Unit}
    (h : m.transact i c s = some (m', r)) : Worked True P m m' := by
  obtain ⟨b, hb, h⟩ := Option.bind_eq_some_iff.mp h
  obtain ⟨⟨b', r'⟩, ha, hx⟩ := Option.map_eq_some_iff.mp h
  rw [← (Prod.mk.inj hx).1]
  exact worked_set hb (.single (.edit trivial c s ha))

theorem editActive_worked {f : Buffer → Option (Buffer × Except EditError Unit)}
    (hf : ∀ b b' r, f b = some (b', r) → Works T P b b')
    (h : m.editActive f = some m') : Worked T P m m' := by
  unfold editActive at h
  split at h
  · rw [← Option.some.inj h]
    exact .of_buffers rfl rfl
  · rename_i i b hon
    obtain ⟨⟨b', r⟩, hb, hx⟩ := Option.map_eq_some_iff.mp h
    have := worked_set (onScreen_some hon).2 (hf _ _ _ hb)
    rw [← hx]
    dsimp only
    split
    · exact this
    · exact this

theorem withBuffer_worked {f : Buffer → Buffer} (hf : ∀ b, Works T P b (f b)) (m : Model) :
    Worked T P m (m.withBuffer f) := by
  unfold withBuffer
  split
  · exact .of_buffers rfl rfl
  · rename_i i b hon
    exact worked_set (onScreen_some hon).2 (hf b)

theorem replayActive_worked {f : Buffer → Option (Buffer × Bool)} {s : String}
    (hf : ∀ b b' r, f b = some (b', r) → Works T P b b')
    (h : m.replayActive f s = some m') : Worked T P m m' := by
  obtain ⟨⟨m₁, moved⟩, hx, rfl⟩ := Option.map_eq_some_iff.mp h
  have hm : Worked T P m m₁ := by
    unfold withBufferBool at hx
    split at hx
    · rw [← (Prod.mk.inj (Option.some.inj hx)).1]
      exact .of_buffers rfl rfl
    · rename_i i b hon
      obtain ⟨⟨b', r⟩, hb, hy⟩ := Option.map_eq_some_iff.mp hx
      rw [← (Prod.mk.inj hy).1]
      exact worked_set (onScreen_some hon).2 (hf _ _ _ hb)
  dsimp only
  split_ifs
  · exact hm
  · exact hm

/-! ## Find and replace -/

/-- The current match, as far as there is one on screen, meets `P`. -/
def FocusMeets (P : Document → Selection → Prop) (m : Model) : Prop :=
  ∀ find i b k t, m.find = some find → m.onScreen = some (i, b) → find.current = some k →
    find.found[k]? = some t → P b.document (.single ⟨t.1, t.2⟩)

theorem focusMatch_worked (hm : m.FocusMeets P) (h : m.focusMatch = some m') : Worked T P m m' := by
  unfold focusMatch at h
  split at h
  · rename_i find i b hfind hon
    have hb := (onScreen_some hon).2
    dsimp only at h
    split at h
    · rw [← Option.some.inj h]
      exact worked_set hb (.single (.draw b _ b.pendingChanges))
    · rename_i k hk
      obtain ⟨t, ht, hx⟩ := Option.map_eq_some_iff.mp h
      have hmeets : P b.document (.single ⟨t.1, t.2⟩) := hm find i b k t hfind hon hk ht
      rw [← hx]
      exact worked_set hb
        ((Works.single (.draw b _ b.pendingChanges)).trans (.single (.select _ _ hmeets)))
  · rw [← Option.some.inj h]
    exact .of_buffers rfl rfl

theorem Sought.of_none (h : m'.find = none) : Sought m m' := by
  intro find' hf
  rw [h] at hf
  cases hf

theorem clearFind_worked (m : Model) : Worked T P m m.clearFind := by
  have hgone : Worked T P m { m with find := none } :=
    ⟨List.forall₂_same.mpr fun _ _ => .refl, .of_none rfl⟩
  unfold clearFind
  dsimp only
  split
  · exact hgone
  · rename_i i b hon
    exact hgone.trans (worked_set (m := { m with find := none }) (onScreen_some hon).2
      (.single (.draw b _ b.pendingChanges)))

end App.Model

end Termesh
