import Mathlib.Data.List.Forall2
import Mathlib.Logic.Relation
import Termesh.App.Frames

/-!
# Documents

A buffer without its history and its overlays, and what the editing functions may do to the list of
them: put a selection down, or apply a change of that very document.

* `Document`, `Move`, `Moves`: `Move T P` puts down selections that meet `P`, and changes texts only
  if `T`;
* `Moved`: the documents of a model, one by one;
* `located_some`, `located_of_bufferAt`, `textAt`: looking up by path.
-/

namespace Termesh

open Relation Firsts

/-- What a buffer is to its file and to its cursor. -/
structure Document where
  id : BufferId
  path : Option Path
  text : Text
  version : Version
  selection : Selection
  lineEnding : LineEnding
  savedVersion : Option Version
deriving DecidableEq

def Buffer.document (b : Buffer) : Document :=
  ⟨b.id, b.path, b.text, b.version, b.selection, b.lineEnding, b.savedVersion⟩

/-- The hunks drawn in a buffer. -/
def Buffer.marks (b : Buffer) : List Decoration := b.decorations.hunks

@[simp] theorem Buffer.document_bare (b : Buffer) : b.bare.document = b.document := rfl

namespace Document

/-- The selection lies in the text. -/
def Inside (d : Document) : Prop := d.selection.Within d.text.length

/-- A selection that lies in the text if the present one does. -/
def Stays (d : Document) (s : Selection) : Prop := d.Inside → s.Within d.text.length

/-- One move of a document: texts change only if `T`, and selections meet `P`. -/
inductive Move (T : Prop) (P : Document → Selection → Prop) : Document → Document → Prop
  | select (d : Document) (s : Selection) (h : P d s) : Move T P d { d with selection := s }
  | change (d : Document) (cs : ChangeSet) (hT : T) (h : d.text.length = cs.lenBefore) :
      Move T P d { d with
        text := cs.apply d.text, version := d.version + 1, selection := d.selection.map cs }

/-- Any number of moves. -/
def Moves (T : Prop) (P : Document → Selection → Prop) : Document → Document → Prop :=
  ReflTransGen (Move T P)

variable {T T' : Prop} {P P' : Document → Selection → Prop} {d d' : Document}

theorem Moves.refl : Moves T P d d := ReflTransGen.refl

theorem Moves.single (h : Move T P d d') : Moves T P d d' := ReflTransGen.single h

theorem Moves.mono (hT : T → T') (hP : ∀ d s, P d s → P' d s) (h : Moves T P d d') :
    Moves T' P' d d' := by
  refine ReflTransGen.mono (p := Move T' P') (fun a b hab => ?_) _ _ h
  cases hab with
  | select s h => exact .select _ s (hP _ _ h)
  | change cs ht h => exact .change _ cs (hT ht) h

/-- Moves keep the identity of a document and what is known of its file. -/
theorem Moves.keeps (h : Moves T P d d') :
    d'.id = d.id ∧ d'.path = d.path ∧ d'.lineEnding = d.lineEnding ∧
      d'.savedVersion = d.savedVersion := by
  induction (h : ReflTransGen _ _ _) with
  | refl => exact ⟨rfl, rfl, rfl, rfl⟩
  | tail _ hm ih => cases hm <;> exact ih

theorem Moves.version_le (h : Moves T P d d') : d.version ≤ d'.version := by
  induction (h : ReflTransGen _ _ _) with
  | refl => exact Nat.le_refl _
  | tail _ hm ih =>
    cases hm with
    | select => exact ih
    | change => exact Nat.le_succ_of_le ih

/-- A revision has one text. -/
theorem Moves.text_eq (h : Moves T P d d') (hv : d'.version = d.version) : d'.text = d.text := by
  induction (h : ReflTransGen _ _ _) with
  | refl => rfl
  | tail h hm ih =>
    cases hm with
    | select => exact ih hv
    | change cs =>
      have h1 := Moves.version_le h
      exact absurd (Nat.lt_of_succ_le (Nat.le_of_eq hv)) (Nat.not_lt.mpr h1)

theorem Moves.still (h : Moves False P d d') : d'.text = d.text ∧ d'.version = d.version := by
  induction (h : ReflTransGen _ _ _) with
  | refl => exact ⟨rfl, rfl⟩
  | tail _ hm ih =>
    cases hm with
    | select => exact ih
    | change _ hF => exact hF.elim

end Document

namespace Document

/-- **Moves that stay inside keep a cursor inside.** -/
theorem Moves.inside {T : Prop} {d d' : Document} (h : Moves T Stays d d') (hd : d.Inside) :
    d'.Inside := by
  induction (h : ReflTransGen _ _ _) with
  | refl => exact hd
  | tail _ hm ih =>
    cases hm with
    | select s hs => exact hs ih
    | change cs _ hl =>
      unfold Inside at ih
      rw [hl] at ih
      have hw := ih.map
      rwa [← cs.length_apply _ hl] at hw

end Document

/-! ## Buffers -/

namespace Buffer

open Document

variable {P : Document → Selection → Prop}

@[simp] theorem document_transaction (b : Buffer) (changes : ChangeSet) (source : EditSource) :
    (b.transaction changes source).1.document = b.document := rfl

theorem apply_moves {b b' : Buffer} {t : EditTransaction} {r : Except EditError Unit}
    (h : b.apply t = some (b', r)) (ht : t.selection = none) :
    Moves True P b.document b'.document := by
  cases applied_of_apply h with
  | refused | empty => exact .refl
  | changed _ hl =>
    have hm := Move.change (P := P) b.document t.changes trivial hl
    refine .single ?_
    simp only [document, applied, ht, Option.getD_none]
    exact hm

theorem replayed_moves {b b' : Buffer} {x : History × Option ChangeSet} {r : Bool}
    (h : b.replayed x = some (b', r)) : Moves True P b.document b'.document := by
  obtain ⟨history, c⟩ := x
  cases c with
  | none =>
    rw [← (Prod.mk.inj (Option.some.inj h)).1]
    exact .refl
  | some c =>
    obtain ⟨b₁, hb, hx⟩ := Option.map_eq_some_iff.mp h
    rw [← (Prod.mk.inj hx).1]
    unfold replay at hb
    split_ifs at hb with hl
    rw [← Option.some.inj hb]
    exact .single (.change b.document c trivial (not_not.mp hl).symm)

theorem undo_moves {b b' : Buffer} {r : Bool} (h : b.undo = some (b', r)) :
    Moves True P b.document b'.document := by
  obtain ⟨x, -, hx⟩ := Option.bind_eq_some_iff.mp h
  exact replayed_moves hx

theorem redo_moves {b b' : Buffer} {r : Bool} (h : b.redo = some (b', r)) :
    Moves True P b.document b'.document := by
  obtain ⟨x, -, hx⟩ := Option.bind_eq_some_iff.mp h
  exact replayed_moves hx

end Buffer

/-! ## Models -/

namespace App

open Document

namespace Model

/-- The documents. -/
def documents (m : Model) : List Document := m.buffers.map Buffer.document

/-- Document by document, the moves of one step. -/
def Moved (T : Prop) (P : Document → Selection → Prop) (m m' : Model) : Prop :=
  List.Forall₂ (Moves T P) m.documents m'.documents

variable {T T' : Prop} {P P' : Document → Selection → Prop} {m m' m₁ : Model}

theorem documents_of_docs (h : m'.docs = m.docs) : m'.documents = m.documents := by
  have key : ∀ m : Model, m.documents = m.docs.map Buffer.document := fun m => by
    rw [docs, List.map_map]
    rfl
  rw [key, key, h]

theorem documents_of_bare (h : m'.bare = m.bare) : m'.documents = m.documents :=
  documents_of_docs (docs_of_bare h)

theorem documents_set {i : ℕ} {b b' : Buffer} (hb : m.buffers[i]? = some b)
    (h : b'.document = b.document) : (m.setBuffer i b').documents = m.documents :=
  map_set_of_eq hb h

theorem onScreen_some {i : ℕ} {b : Buffer} (h : m.onScreen = some (i, b)) :
    m.activeBuffer = some i ∧ m.buffers[i]? = some b := by
  obtain ⟨j, hj, h⟩ := Option.bind_eq_some_iff.mp h
  obtain ⟨b', hb, hx⟩ := Option.map_eq_some_iff.mp h
  obtain ⟨rfl, rfl⟩ := Prod.mk.inj hx
  exact ⟨hj, hb⟩

/-- `located` finds the first buffer with the path. -/
theorem located_some {path : Path} {i : ℕ} {b : Buffer} (h : m.located path = some (i, b)) :
    m.buffers[i]? = some b ∧ b.path = some path ∧ m.bufferAt path = some b ∧
      ∀ b', b'.path = some path → (m.setBuffer i b').bufferAt path = some b' := by
  obtain ⟨j, hj, h⟩ := Option.bind_eq_some_iff.mp h
  obtain ⟨b₀, hb, hx⟩ := Option.map_eq_some_iff.mp h
  obtain ⟨rfl, rfl⟩ := Prod.mk.inj hx
  obtain ⟨hlt, hp, hbefore⟩ := List.findIdx?_eq_some_iff_getElem.mp hj
  obtain ⟨hlt', rfl⟩ := List.getElem?_eq_some_iff.mp hb
  have hp' : m.buffers[j].path = some path := by simpa using hp
  refine ⟨hb, hp', ?_, fun b' hb' => ?_⟩
  · exact List.find?_eq_some_iff_getElem.mpr ⟨hp, j, hlt, rfl, fun k hk => by simpa using hbefore k hk⟩
  · refine List.find?_eq_some_iff_getElem.mpr ⟨by simpa using hb', j, by simpa [setBuffer] using hlt,
      by simp [setBuffer], fun k hk => ?_⟩
    have := hbefore k hk
    simp only [setBuffer, List.getElem_set]
    rw [if_neg (Nat.ne_of_gt hk)]
    simpa using this

theorem located_of_bufferAt {path : Path} {b : Buffer} (h : m.bufferAt path = some b) :
    ∃ i, m.located path = some (i, b) := by
  obtain ⟨hp, i, hi, rfl, hbefore⟩ := List.find?_eq_some_iff_getElem.mp h
  refine ⟨i, ?_⟩
  have : m.indexOf path = some i :=
    List.findIdx?_eq_some_iff_getElem.mpr ⟨hi, hp, fun k hk => by simpa using hbefore k hk⟩
  rw [located, this, Option.bind_some, List.getElem?_eq_getElem hi]
  rfl

theorem bufferAt_map {f : Buffer → Buffer} (h : m'.buffers = m.buffers.map f)
    (hf : ∀ b, (f b).path = b.path) (path : Path) :
    m'.bufferAt path = (m.bufferAt path).map f := by
  rw [bufferAt, bufferAt, h, List.find?_map]
  congr 2
  funext b
  simp [hf]

/-! ## Texts by path -/

/-- The path and the text of each buffer. -/
def pages (m : Model) : List (Option Path × Text) := m.buffers.map fun b => (b.path, b.text)

/-- The text of the first buffer with a path. -/
def textAt (m : Model) (path : Path) : Option Text := (m.bufferAt path).map (·.text)

theorem textAt_eq (m : Model) (path : Path) :
    m.textAt path = (m.pages.find? fun q => q.1 = some path).map Prod.snd := by
  rw [textAt, bufferAt, pages, List.find?_map, Option.map_map]
  rfl

theorem pages_eq (m : Model) : m.pages = m.documents.map fun d => (d.path, d.text) := by
  rw [pages, documents, List.map_map]
  rfl

theorem textAt_of_pages (h : m'.pages = m.pages) (path : Path) : m'.textAt path = m.textAt path := by
  rw [textAt_eq, textAt_eq, h]

theorem pages_of_documents (h : m'.documents = m.documents) : m'.pages = m.pages := by
  rw [pages_eq, pages_eq, h]

theorem Moved.pages (h : Moved False P m m') : m'.pages = m.pages := by
  rw [pages_eq, pages_eq]
  unfold Moved at h
  generalize m.documents = ds at *
  generalize m'.documents = ds' at *
  induction h with
  | nil => rfl
  | cons h _ ih => rw [List.map_cons, List.map_cons, ih, h.still.1, h.keeps.2.1]

theorem pages_set {i : ℕ} {b b' : Buffer} (hb : m.buffers[i]? = some b) (hp : b'.path = b.path)
    (ht : b'.text = b.text) : (m.setBuffer i b').pages = m.pages :=
  map_set_of_eq hb (Prod.ext hp ht)

/-! ## Hunks by path -/

/-- The path of each buffer with the hunks drawn in it. -/
def sheets (m : Model) : List (Option Path × List Decoration) :=
  m.buffers.map fun b => (b.path, b.marks)

theorem sheets_of_buffers (hb : m'.buffers = m.buffers) : m'.sheets = m.sheets := by
  rw [sheets, sheets, hb]

theorem sheets_set {i : ℕ} {b b' : Buffer} (hb : m.buffers[i]? = some b) (hp : b'.path = b.path)
    (hm : b'.marks = b.marks) : (m.setBuffer i b').sheets = m.sheets :=
  map_set_of_eq hb (Prod.ext hp hm)

/-! ## Syncing -/

theorem syncSyntax_documents {h : Host} (hs : m.syncSyntax h = some m') :
    m'.documents = m.documents := documents_of_bare (syncSyntax_bare hs)

theorem syncProposals_documents {h : Host} (hs : m.syncProposals h = some m') :
    m'.documents = m.documents := by
  obtain ⟨ps, -, hb⟩ := syncProposals_spec hs
  refine documents_of_docs ?_
  rw [← bare_buffers, hb, ← bare_buffers]

theorem syncLspDocuments_documents (m : Model) : m.syncLspDocuments.documents = m.documents :=
  documents_of_bare m.syncLspDocuments_bare

theorem syncAll_documents {h : Host} (hs : m.syncAll h = some m') :
    m'.documents = m.documents := by
  obtain ⟨m₁, m₂, h₁, h₂, rfl⟩ := syncAll_cases hs
  rw [syncLspDocuments_documents, syncProposals_documents h₂, syncSyntax_documents h₁]

/-! ## Editing -/

/-- A transaction on the first buffer with a path. -/
theorem transact_located {path : Path} {i : ℕ} {b : Buffer} {c : ChangeSet} {s : EditSource}
    {r : Except EditError Unit} (hl : m.located path = some (i, b))
    (h : m.transact i c s = some (m', r)) :
    ∃ b', m' = m.setBuffer i b' ∧ m'.bufferAt path = some b' ∧
      Buffer.Applied (b.transaction c s).1 (b.transaction c s).2 b' r := by
  obtain ⟨hb, hp, -, hset⟩ := located_some hl
  obtain ⟨b₀, hb₀, h⟩ := Option.bind_eq_some_iff.mp h
  obtain rfl : b₀ = b := Option.some.inj (hb₀.symm.trans hb)
  obtain ⟨⟨b', r'⟩, ha, hx⟩ := Option.map_eq_some_iff.mp h
  obtain ⟨rfl, rfl⟩ := Prod.mk.inj hx
  have ha := Buffer.applied_of_apply ha
  refine ⟨b', rfl, hset b' ?_, ha⟩
  cases ha with
  | refused | empty => exact hp
  | changed => exact hp

end Model

end App

end Termesh
