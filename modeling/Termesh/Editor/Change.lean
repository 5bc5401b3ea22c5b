import Mathlib.Algebra.GroupWithZero.Nat
import Mathlib.Data.List.Chain
import Termesh.Lib.Position

/-!
# Change sets

`ChangeSet` is a complete traversal of a document: every character is retained or deleted, and new
text is inserted between. A value carries its canonical form and its two lengths.

* `Operation`, `toks`: one step of a traversal, and the edit script a list of steps stands for;
* `Canonical`: no empty or adjacent same-kind steps, `delete` before `insert`;
* `ChangeSetBuilder` and `ChangeSet`, with `retain`, `delete`, `insert`, `build`;
* `apply`, `invert`, `mapPos`, `touches`, `compose`.

A failed assertion, `expect` or `unreachable!` of the source is `none`.
-/

namespace Termesh

open EditScript

/-- The characters of a rope. All offsets are character counts. -/
abbrev Text := List Char

/-- Which side of an insertion a mapped position lands on. -/
inductive Assoc where
  | before
  | after
deriving DecidableEq, Repr

/-- What a change did to a range something else is anchored to. -/
inductive RangeEffect where
  | untouched
  | insertedInside
  | partlyDeleted
deriving DecidableEq, Repr

/-- One step of a document traversal. -/
inductive Operation where
  | retain (n : ℕ)
  | delete (n : ℕ)
  | insert (s : Text)
deriving DecidableEq, Repr

namespace Operation

/-- The length of a step. -/
def len : Operation → ℕ
  | retain n => n
  | delete n => n
  | insert s => s.length

/-- The units of a step. -/
def toks : Operation → Script Char
  | retain n => keeps n
  | delete n => drops n
  | insert s => adds s

/-- The steps that may stand next to each other, in this order. -/
def mayPrecede : Operation → Operation → Bool
  | retain _, delete _ => true
  | retain _, insert _ => true
  | delete _, retain _ => true
  | delete _, insert _ => true
  | insert _, retain _ => true
  | _, _ => false

end Operation

/-- The edit script of a list of steps. -/
def toks (ops : List Operation) : Script Char := ops.flatMap Operation.toks

@[simp] theorem toks_nil : toks [] = [] := rfl

@[simp] theorem toks_cons (op : Operation) (ops : List Operation) :
    toks (op :: ops) = op.toks ++ toks ops := rfl

@[simp] theorem toks_append (ops ops' : List Operation) : toks (ops ++ ops') = toks ops ++ toks ops' :=
  List.flatMap_append

/-- Merged runs, no empty steps, and `delete` before `insert` at a replacement site. -/
structure Canonical (ops : List Operation) : Prop where
  chain : ops.IsChain fun a b => a.mayPrecede b = true
  nonempty : ∀ op ∈ ops, op.len ≠ 0

theorem Canonical.tail {op : Operation} {ops : List Operation} (h : Canonical (op :: ops)) :
    Canonical ops :=
  ⟨h.chain.tail, fun o ho => h.nonempty o (List.mem_cons_of_mem _ ho)⟩

theorem canonical_nil : Canonical [] := ⟨.nil, by simp⟩

theorem canonical_reverse {r : List Operation} : Canonical r.reverse ↔
    (r.IsChain fun a b => b.mayPrecede a = true) ∧ ∀ op ∈ r, op.len ≠ 0 := by
  constructor
  · intro h
    exact ⟨List.isChain_reverse.mp h.chain, fun op ho => h.nonempty op (List.mem_reverse.mpr ho)⟩
  · rintro ⟨h1, h2⟩
    exact ⟨List.isChain_reverse.mpr h1, fun op ho => h2 op (List.mem_reverse.mp ho)⟩

theorem Canonical.nf_toks {ops : List Operation} (h : Canonical ops) : nf (toks ops) = toks ops := by
  induction ops with
  | nil => rfl
  | cons op ops ih =>
    have ih := ih h.tail
    cases op with
    | retain n => rw [toks_cons, Operation.toks, nf_keeps, ih]
    | delete n => rw [toks_cons, Operation.toks, nf_drops, ih]
    | insert s =>
      cases ops with
      | nil => simpa [Operation.toks] using nf_adds s
      | cons op' ops =>
        have hp := (List.isChain_cons_cons.mp h.chain).1
        cases op' with
        | delete n | insert t => simp [Operation.mayPrecede] at hp
        | retain n =>
          cases n with
          | zero => exact absurd rfl (h.nonempty (.retain 0) (by simp))
          | succ n =>
            simp only [toks_cons, Operation.toks, List.replicate_succ, List.cons_append, nf,
              nf_adds_keep] at ih ⊢
            rw [List.cons.inj ih |>.2]

/-! ## The builder -/

/-- Builds a `ChangeSet` in canonical form. Steps are kept newest first. -/
structure ChangeSetBuilder where
  rev : List Operation
  lenBefore : ℕ
  consumed : ℕ
  canonical : Canonical rev.reverse
  consumed_eq : pre (EditScript.nf (toks rev.reverse)) = consumed

/-- An ordered, position-composable set of changes. -/
@[ext] structure ChangeSet where
  ops : List Operation
  lenBefore : ℕ
  lenAfter : ℕ
  canonical : Canonical ops
  before_eq : pre (toks ops) = lenBefore
  after_eq : post (toks ops) = lenAfter
deriving DecidableEq

/-- `Vec::push` of a retained run, merging with the last step. -/
def pushRetain (n : ℕ) (r : List Operation) : List Operation :=
  if n = 0 then r else
    match r with
    | .retain prev :: r => .retain (prev + n) :: r
    | r => .retain n :: r

/-- A deletion slides in front of a trailing insert and merges with a deletion there. -/
def pushDelete (n : ℕ) (r : List Operation) : List Operation :=
  if n = 0 then r else
    match r with
    | .insert s :: .delete prev :: r => .insert s :: .delete (prev + n) :: r
    | .insert s :: r => .insert s :: .delete n :: r
    | .delete prev :: r => .delete (prev + n) :: r
    | r => .delete n :: r

/-- Inserted text merges with a trailing insert. -/
def pushInsert (text : Text) (r : List Operation) : List Operation :=
  if text = [] then r else
    match r with
    | .insert prev :: r => .insert (prev ++ text) :: r
    | r => .insert text :: r

theorem nf_toks_pushRetain (n : ℕ) (r : List Operation) :
    nf (toks (pushRetain n r).reverse) = nf (toks r.reverse ++ keeps n) := by
  unfold pushRetain
  split_ifs with h
  · simp [h]
  · split <;> simp [Operation.toks]

theorem nf_toks_pushInsert (t : Text) (r : List Operation) :
    nf (toks (pushInsert t r).reverse) = nf (toks r.reverse ++ adds t) := by
  unfold pushInsert
  split_ifs with h
  · simp [h]
  · split <;> simp [Operation.toks]

theorem nf_toks_pushDelete (n : ℕ) (r : List Operation) :
    nf (toks (pushDelete n r).reverse) = nf (toks r.reverse ++ drops n) := by
  unfold pushDelete
  split_ifs with h
  · simp [h]
  · split
    · next s prev r =>
      have hd : (drops (prev + n) : Script Char) = drops prev ++ drops n := by simp
      have := nf_congr (nf_adds_drops s n []) (toks r.reverse ++ drops prev) []
      simp only [List.reverse_cons, toks_append, toks_cons, toks_nil, Operation.toks, hd,
        List.append_assoc, List.append_nil] at this ⊢
      exact this.symm
    · next s r _ =>
      have := nf_congr (nf_adds_drops s n []) (toks r.reverse) []
      simpa [Operation.toks] using this.symm
    · simp [Operation.toks]
    · simp [Operation.toks]

theorem Canonical.snoc {r : List Operation} (h : Canonical r.reverse) {op : Operation}
    (hne : op.len ≠ 0) (hp : ∀ o r', r = o :: r' → o.mayPrecede op = true) :
    Canonical (op :: r).reverse := by
  rw [canonical_reverse] at h ⊢
  refine ⟨?_, fun o ho => ?_⟩
  · cases r with
    | nil => simp
    | cons o r' => exact List.isChain_cons_cons.mpr ⟨hp o r' rfl, h.1⟩
  · rcases List.mem_cons.mp ho with rfl | ho
    · exact hne
    · exact h.2 o ho

theorem Canonical.init {r : List Operation} {op : Operation} (h : Canonical (op :: r).reverse) :
    Canonical r.reverse := by
  rw [canonical_reverse] at h ⊢
  exact ⟨h.1.tail, fun o ho => h.2 o (List.mem_cons_of_mem _ ho)⟩

theorem Canonical.last_precedes {r : List Operation} {o op : Operation}
    (h : Canonical (op :: o :: r).reverse) : o.mayPrecede op = true :=
  (List.isChain_cons_cons.mp (canonical_reverse.mp h).1).1

theorem canonical_pushRetain (n : ℕ) {r : List Operation} (h : Canonical r.reverse) :
    Canonical (pushRetain n r).reverse := by
  unfold pushRetain
  split_ifs with hn
  · exact h
  · split
    · next prev r =>
      refine h.init.snoc (by simp [Operation.len]; omega) fun o r' e => ?_
      subst e
      have := h.last_precedes
      cases o <;> simp_all [Operation.mayPrecede]
    · next r hr =>
      refine h.snoc (by simpa [Operation.len] using hn) fun o r' e => ?_
      cases o with
      | retain p => exact absurd e (hr p r')
      | delete p | insert s => rfl

theorem canonical_pushInsert (t : Text) {r : List Operation} (h : Canonical r.reverse) :
    Canonical (pushInsert t r).reverse := by
  unfold pushInsert
  split_ifs with ht
  · exact h
  · split
    · next prev r =>
      refine h.init.snoc (by simp [Operation.len, ht]) fun o r' e => ?_
      subst e
      have := h.last_precedes
      cases o <;> simp_all [Operation.mayPrecede]
    · next r hr =>
      refine h.snoc (by simpa [Operation.len] using ht) fun o r' e => ?_
      cases o with
      | insert s => exact absurd e (hr s r')
      | delete p | retain p => rfl

theorem canonical_pushDelete (n : ℕ) {r : List Operation} (h : Canonical r.reverse) :
    Canonical (pushDelete n r).reverse := by
  unfold pushDelete
  split_ifs with hn
  · exact h
  · split
    · next s prev r =>
      -- the trailing insert stays last, the deletion below it grows
      refine Canonical.snoc ?_ ((canonical_reverse.mp h).2 _ (by simp)) fun o r' e => ?_
      · refine h.init.init.snoc (by simp [Operation.len]; omega) fun o r' e => ?_
        subst e
        have := h.init.last_precedes
        cases o <;> simp_all [Operation.mayPrecede]
      · cases e; rfl
    · next s r hr =>
      refine Canonical.snoc ?_ ((canonical_reverse.mp h).2 _ (by simp)) fun o r' e => ?_
      · refine h.init.snoc (by simpa [Operation.len] using hn) fun o r' e => ?_
        subst e
        have := h.last_precedes
        cases o with
        | delete p => exact absurd rfl (hr p r')
        | insert t => simp [Operation.mayPrecede] at this
        | retain p => rfl
      · cases e; rfl
    · next prev r =>
      refine h.init.snoc (by simp [Operation.len]; omega) fun o r' e => ?_
      subst e
      have := h.last_precedes
      cases o <;> simp_all [Operation.mayPrecede]
    · next r h1 h2 h3 =>
      refine h.snoc (by simpa [Operation.len] using hn) fun o r' e => ?_
      cases o with
      | delete p => exact absurd e (h3 p r')
      | insert s => exact absurd e (h2 s r')
      | retain p => rfl

/-- The characters a step leaves in the result. -/
def Operation.lenAfter : Operation → ℕ
  | .retain n => n
  | .delete _ => 0
  | .insert s => s.length

theorem sum_lenAfter (ops : List Operation) : (ops.map Operation.lenAfter).sum = post (toks ops) := by
  induction ops with
  | nil => rfl
  | cons op ops ih => cases op <;> simp [Operation.lenAfter, Operation.toks, ih]

namespace ChangeSetBuilder

/-- The script written so far. -/
def toks (b : ChangeSetBuilder) : Script Char := Termesh.toks b.rev.reverse

/-- Advance `n` characters unchanged. -/
def retain (b : ChangeSetBuilder) (n : ℕ) : ChangeSetBuilder where
  rev := pushRetain n b.rev
  lenBefore := b.lenBefore
  consumed := b.consumed + n
  canonical := canonical_pushRetain n b.canonical
  consumed_eq := by
    rw [nf_toks_pushRetain, pre_nf, pre_append, pre_keeps, ← b.consumed_eq, pre_nf]

/-- Drop the next `n` characters. -/
def delete (b : ChangeSetBuilder) (n : ℕ) : ChangeSetBuilder where
  rev := pushDelete n b.rev
  lenBefore := b.lenBefore
  consumed := b.consumed + n
  canonical := canonical_pushDelete n b.canonical
  consumed_eq := by
    rw [nf_toks_pushDelete, pre_nf, pre_append, pre_drops, ← b.consumed_eq, pre_nf]

/-- Insert text at the current position. -/
def insert (b : ChangeSetBuilder) (text : Text) : ChangeSetBuilder where
  rev := pushInsert text b.rev
  lenBefore := b.lenBefore
  consumed := b.consumed
  canonical := canonical_pushInsert text b.canonical
  consumed_eq := by
    rw [nf_toks_pushInsert, pre_nf, pre_append, pre_adds, Nat.add_zero, ← b.consumed_eq,
      pre_nf]

/-- Finish, retaining any unconsumed tail of the document. `none` is the `expect` panic
"changeset consumed more of the document than it has". -/
def build (b : ChangeSetBuilder) : Option ChangeSet :=
  if h : b.consumed ≤ b.lenBefore then
    let full := b.retain (b.lenBefore - b.consumed)
    some {
      ops := full.rev.reverse
      lenBefore := b.lenBefore
      lenAfter := (full.rev.reverse.map Operation.lenAfter).sum
      canonical := full.canonical
      before_eq := by
        have := full.consumed_eq
        rw [pre_nf] at this
        rw [this]
        show b.consumed + (b.lenBefore - b.consumed) = b.lenBefore
        omega
      after_eq := (sum_lenAfter _).symm }
  else none

theorem nf_toks_retain (b : ChangeSetBuilder) (n : ℕ) :
    nf (b.retain n).toks = nf (b.toks ++ keeps n) := nf_toks_pushRetain n b.rev

theorem nf_toks_delete (b : ChangeSetBuilder) (n : ℕ) :
    nf (b.delete n).toks = nf (b.toks ++ drops n) := nf_toks_pushDelete n b.rev

theorem nf_toks_insert (b : ChangeSetBuilder) (t : Text) :
    nf (b.insert t).toks = nf (b.toks ++ adds t) := nf_toks_pushInsert t b.rev

@[simp] theorem nf_toks (b : ChangeSetBuilder) : nf b.toks = b.toks := b.canonical.nf_toks

theorem nf_retain_append (b : ChangeSetBuilder) (n : ℕ) (s : Script Char) :
    nf ((b.retain n).toks ++ s) = nf (b.toks ++ (keeps n ++ s)) := by
  rw [← nf_append_left, nf_toks_retain, nf_append_left, List.append_assoc]

theorem nf_delete_append (b : ChangeSetBuilder) (n : ℕ) (s : Script Char) :
    nf ((b.delete n).toks ++ s) = nf (b.toks ++ (drops n ++ s)) := by
  rw [← nf_append_left, nf_toks_delete, nf_append_left, List.append_assoc]

theorem nf_insert_append (b : ChangeSetBuilder) (t : Text) (s : Script Char) :
    nf ((b.insert t).toks ++ s) = nf (b.toks ++ (adds t ++ s)) := by
  rw [← nf_append_left, nf_toks_insert, nf_append_left, List.append_assoc]

theorem build_some {b : ChangeSetBuilder} (h : b.consumed ≤ b.lenBefore) :
    ∃ cs, b.build = some cs ∧ cs.lenBefore = b.lenBefore ∧
      Termesh.toks cs.ops = nf (b.toks ++ keeps (b.lenBefore - b.consumed)) := by
  simp only [build, h, dite_true]
  refine ⟨_, rfl, rfl, ?_⟩
  show (b.retain (b.lenBefore - b.consumed)).toks = _
  rw [← nf_toks, nf_toks_retain]

theorem build_none {b : ChangeSetBuilder} (h : ¬ b.consumed ≤ b.lenBefore) : b.build = none := by
  simp only [build, h, dite_false]

end ChangeSetBuilder

/-! ## Operations on change sets -/

/-- Consume the traversal from the left, copying what is retained. -/
def applyOps : List Operation → Text → Text
  | .retain n :: ops, t => t.take n ++ applyOps ops (t.drop n)
  | .delete n :: ops, t => applyOps ops (t.drop n)
  | .insert s :: ops, t => s ++ applyOps ops t
  | [], _ => []

/-- Feed the builder the steps that undo `ops` on the text they were read from. -/
def invertOps : List Operation → Text → ChangeSetBuilder → ChangeSetBuilder
  | .retain n :: ops, t, b => invertOps ops (t.drop n) (b.retain n)
  | .delete n :: ops, t, b => invertOps ops (t.drop n) (b.insert (t.take n))
  | .insert s :: ops, t, b => invertOps ops t (b.delete s.length)
  | [], _, b => b

/-- The loop of `map_pos`: `old` and `new` are the lengths passed in the two documents. -/
def mapPosLoop (pos : ℕ) (assoc : Assoc) : List Operation → ℕ → ℕ → ℕ
  | .retain n :: ops, old, new =>
    if pos < old + n then new + (pos - old) else mapPosLoop pos assoc ops (old + n) (new + n)
  | .delete n :: ops, old, new =>
    if pos < old + n then new else mapPosLoop pos assoc ops (old + n) new
  | .insert s :: ops, old, new =>
    if pos = old then
      match assoc with
      | .before => new
      | .after => new + s.length
    else mapPosLoop pos assoc ops old (new + s.length)
  | [], old, new => new + (pos - old)

/-- The loop of `touches`. -/
def touchesLoop (start stop : ℕ) : List Operation → ℕ → RangeEffect → RangeEffect
  | .retain n :: ops, old, effect => touchesLoop start stop ops (old + n) effect
  | .delete n :: ops, old, effect =>
    -- a zero-width range is an anchor, other ranges intersect half-open
    let overlaps :=
      if start = stop then decide (old < start) && decide (start < old + n)
      else decide (old < stop) && decide (start < old + n)
    if overlaps then .partlyDeleted else touchesLoop start stop ops (old + n) effect
  | .insert _ :: ops, old, effect =>
    touchesLoop start stop ops old
      (if start < old ∧ old < stop then .insertedInside else effect)
  | [], _, effect => effect

/-- `carry`: the step stays in front of the iterator while it still has length. -/
def carry (op : Operation) (rest : List Operation) : List Operation :=
  match op with
  | .retain 0 => rest
  | .delete 0 => rest
  | op => op :: rest

/-- `carry_insert`: what is left of an insertion once `consumed` characters are accounted for. -/
def carryInsert (s : Text) (consumed : ℕ) (rest : List Operation) : List Operation :=
  match s.drop consumed with
  | [] => rest
  | s => .insert s :: rest

/-- The loop of `compose`; the heads of the two lists are its current steps. `none` is
`unreachable!`; `fuel` bounds the number of rounds. -/
def composeLoop : ℕ → List Operation → List Operation → ChangeSetBuilder → Option ChangeSetBuilder
  | 0, _, _, _ => none
  | fuel + 1, as, cs, b =>
    match as, cs with
    | [], [] => some b
    -- text the first change removed never reaches the second; tested before the insert arm
    | .delete n :: as, cs => composeLoop fuel as cs (b.delete n)
    | as, .insert s :: cs => composeLoop fuel as cs (b.insert s)
    | .retain i :: as, .retain j :: cs =>
      let n := min i j
      composeLoop fuel (carry (.retain (i - n)) as) (carry (.retain (j - n)) cs) (b.retain n)
    | .retain i :: as, .delete j :: cs =>
      let n := min i j
      composeLoop fuel (carry (.retain (i - n)) as) (carry (.delete (j - n)) cs) (b.delete n)
    | .insert s :: as, .retain j :: cs =>
      let n := min s.length j
      composeLoop fuel (carryInsert s n as) (carry (.retain (j - n)) cs) (b.insert (s.take n))
    | .insert s :: as, .delete j :: cs =>
      let n := min s.length j
      composeLoop fuel (carryInsert s n as) (carry (.delete (j - n)) cs) b
    | _, _ => none

/-- Every round of `composeLoop` uses up at least one unit of this. -/
def weight (ops : List Operation) : ℕ := (ops.map fun op => op.len + 1).sum

namespace ChangeSet

/-- `ChangeSet::builder`. -/
def builder (lenBefore : ℕ) : ChangeSetBuilder where
  rev := []
  lenBefore := lenBefore
  consumed := 0
  canonical := canonical_nil
  consumed_eq := rfl

/-- Replace characters `start..stop` with `text`. `stop - start` underflows in the source when
the bounds are reversed. -/
def replace (lenBefore start stop : ℕ) (text : Text) : Option ChangeSet :=
  if stop < start then none
  else ((((builder lenBefore).retain start).delete (stop - start)).insert text).build

/-- Every character retained, nothing inserted. -/
def isIdentity (cs : ChangeSet) : Bool :=
  cs.ops.all fun
    | .retain _ => true
    | _ => false

/-- The edit script of a change set. -/
def toks (cs : ChangeSet) : Script Char := Termesh.toks cs.ops

/-- The changed document. -/
def apply (cs : ChangeSet) (text : Text) : Text := applyOps cs.ops text

/-- The change set that undoes this one; `original` is the document it was applied to. -/
def invert (cs : ChangeSet) (original : Text) : Option ChangeSet :=
  (invertOps cs.ops original (builder cs.lenAfter)).build

/-- Where a position of the old document lands in the new one. -/
def mapPos (cs : ChangeSet) (pos : ℕ) (assoc : Assoc) : ℕ := mapPosLoop pos assoc cs.ops 0 0

/-- What this change did to `start..stop`. -/
def touches (cs : ChangeSet) (start stop : ℕ) : RangeEffect :=
  touchesLoop start stop cs.ops 0 .untouched

/-- The single change set equivalent to `a` and then `c`. -/
def compose (a c : ChangeSet) : Option ChangeSet :=
  if a.lenAfter = c.lenBefore then
    (composeLoop (weight a.ops + weight c.ops + 1) a.ops c.ops (builder a.lenBefore)).bind
      ChangeSetBuilder.build
  else none

end ChangeSet

end Termesh
