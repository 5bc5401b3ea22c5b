import Mathlib.Data.List.Basic
import Mathlib.Tactic.Common

/-!
# Edit scripts

A script traverses a list one element at a time: it keeps the next element, drops it, or adds a
new one. Nothing here depends on what is edited.

* `pre`, `post`, `app`: the length read, the length written and the edited list;
* `mark`: the script that marks what is added;
* `comp`, `inv`, with **`Meet.app_comp`** and **`app_inv`**;
* `nf`: drops slide in front of adds at every replacement site; `nf_congr`, `mem_nf`, `app_nf`.
-/

namespace EditScript

/-- One unit of a traversal. -/
inductive Tok (α : Type*) where
  | keep
  | drop
  | add (a : α)
deriving DecidableEq, Repr

/-- A traversal. -/
abbrev Script (α : Type*) := List (Tok α)

variable {α : Type*}

open Tok

/-- The length of the list a script reads. -/
@[simp] def pre : Script α → ℕ
  | [] => 0
  | keep :: s => pre s + 1
  | drop :: s => pre s + 1
  | add _ :: s => pre s

/-- The length of the list a script writes. -/
@[simp] def post : Script α → ℕ
  | [] => 0
  | keep :: s => post s + 1
  | drop :: s => post s
  | add _ :: s => post s + 1

/-- The edited list. -/
@[simp] def app : Script α → List α → List α
  | keep :: s, a :: l => a :: app s l
  | drop :: s, _ :: l => app s l
  | add b :: s, l => b :: app s l
  | _, _ => []

/-- Runs of one unit. -/
abbrev keeps (n : ℕ) : Script α := List.replicate n keep

/-- A run of dropped elements. -/
abbrev drops (n : ℕ) : Script α := List.replicate n drop

/-- A run of added elements. -/
abbrev adds (l : List α) : Script α := l.map add

theorem keeps_add (m n : ℕ) : (keeps (m + n) : Script α) = keeps m ++ keeps n :=
  List.replicate_add ..

theorem keeps_split {m n : ℕ} (h : m ≤ n) : (keeps n : Script α) = keeps m ++ keeps (n - m) := by
  rw [← List.replicate_add, Nat.add_sub_of_le h]

theorem drops_split {m n : ℕ} (h : m ≤ n) : (drops n : Script α) = drops m ++ drops (n - m) := by
  rw [← List.replicate_add, Nat.add_sub_of_le h]

@[simp] theorem pre_append (s t : Script α) : pre (s ++ t) = pre s + pre t := by
  induction s with
  | nil => simp [pre]
  | cons x s ih => cases x <;> simp [pre, ih] <;> omega

@[simp] theorem post_append (s t : Script α) : post (s ++ t) = post s + post t := by
  induction s with
  | nil => simp [post]
  | cons x s ih => cases x <;> simp [post, ih] <;> omega

@[simp] theorem pre_keeps (n : ℕ) : pre (keeps n : Script α) = n := by
  induction n with
  | zero => rfl
  | succ n ih => simp [List.replicate_succ, pre, ih]

@[simp] theorem post_keeps (n : ℕ) : post (keeps n : Script α) = n := by
  induction n with
  | zero => rfl
  | succ n ih => simp [List.replicate_succ, post, ih]

@[simp] theorem pre_drops (n : ℕ) : pre (drops n : Script α) = n := by
  induction n with
  | zero => rfl
  | succ n ih => simp [List.replicate_succ, pre, ih]

@[simp] theorem post_drops (n : ℕ) : post (drops n : Script α) = 0 := by
  induction n with
  | zero => rfl
  | succ n ih => simp [List.replicate_succ, post, ih]

@[simp] theorem pre_adds (l : List α) : pre (adds l) = 0 := by
  induction l with
  | nil => rfl
  | cons a l ih => simp [pre, ih]

@[simp] theorem post_adds (l : List α) : post (adds l) = l.length := by
  induction l with
  | nil => rfl
  | cons a l ih => simp [post, ih]

theorem app_keeps (s : Script α) (l r : List α) :
    app (keeps l.length ++ s) (l ++ r) = l ++ app s r := by
  induction l with
  | nil => rfl
  | cons a l ih => simp [List.replicate_succ, app, ih]

theorem app_drops (s : Script α) (l r : List α) :
    app (drops l.length ++ s) (l ++ r) = app s r := by
  induction l with
  | nil => rfl
  | cons a l ih => simp [List.replicate_succ, app, ih]

theorem app_adds (s : Script α) (l r : List α) : app (adds l ++ s) r = l ++ app s r := by
  induction l with
  | nil => rfl
  | cons a l ih => simp [app, ih]

theorem length_app (s : Script α) (l : List α) (h : pre s = l.length) :
    (app s l).length = post s := by
  induction s generalizing l with
  | nil => simp [app, post]
  | cons x s ih =>
    cases x with
    | add a => simp [app, post, ih l h]
    | keep | drop =>
      cases l with
      | nil => simp [pre] at h
      | cons b l => simp [app, post, ih l (by simpa [pre] using h)]

/-- The script over marks: what is added is marked. -/
def mark (s : Script α) : Script Bool :=
  s.map fun
    | keep => keep
    | drop => drop
    | add _ => add true

@[simp] theorem pre_mark (s : Script α) : pre (mark s) = pre s := by
  induction s with
  | nil => rfl
  | cons x s ih => cases x <;> simpa [mark, pre] using ih

@[simp] theorem post_mark (s : Script α) : post (mark s) = post s := by
  induction s with
  | nil => rfl
  | cons x s ih => cases x <;> simpa [mark, post] using ih

/-! ## Composition and inversion -/

/-- The script that runs `s` and then `t`. -/
@[simp] def comp : Script α → Script α → Script α
  | drop :: s, t => drop :: comp s t
  | s, add c :: t => add c :: comp s t
  | keep :: s, keep :: t => keep :: comp s t
  | keep :: s, drop :: t => drop :: comp s t
  | add a :: s, keep :: t => add a :: comp s t
  | add _ :: s, drop :: t => comp s t
  | _, _ => []
termination_by s t => s.length + t.length

theorem comp_nil : comp ([] : Script α) [] = [] := by simp [comp]

theorem comp_drop (s t : Script α) : comp (drop :: s) t = drop :: comp s t := by
  simp [comp]

theorem comp_add (s t : Script α) (c : α) (h : ∀ s', s ≠ drop :: s') :
    comp s (add c :: t) = add c :: comp s t := by
  match s with
  | [] => simp [comp]
  | drop :: s => exact absurd rfl (h s)
  | keep :: s => simp [comp]
  | add a :: s => simp [comp]

theorem comp_keep_keep (s t : Script α) :
    comp (keep :: s) (keep :: t) = keep :: comp s t := by simp [comp]

theorem comp_keep_drop (s t : Script α) :
    comp (keep :: s) (drop :: t) = drop :: comp s t := by simp [comp]

theorem comp_add_keep (s t : Script α) (a : α) :
    comp (add a :: s) (keep :: t) = add a :: comp s t := by simp [comp]

theorem comp_add_drop (s t : Script α) (a : α) :
    comp (add a :: s) (drop :: t) = comp s t := by simp [comp]

/-- The ways two scripts can meet when the first writes what the second reads. -/
inductive Meet : Script α → Script α → Prop
  | nil : Meet [] []
  | drop {s t} (h : Meet s t) : Meet (drop :: s) t
  | add {s t} (c : α) (hs : ∀ s', s ≠ Tok.drop :: s') (h : Meet s t) : Meet s (add c :: t)
  | keep_keep {s t} (h : Meet s t) : Meet (keep :: s) (keep :: t)
  | keep_drop {s t} (h : Meet s t) : Meet (keep :: s) (Tok.drop :: t)
  | add_keep {s t} (a : α) (h : Meet s t) : Meet (Tok.add a :: s) (keep :: t)
  | add_drop {s t} (a : α) (h : Meet s t) : Meet (Tok.add a :: s) (Tok.drop :: t)

theorem Meet.of_eq (s t : Script α) (h : post s = pre t) : Meet s t := by
  induction s, t using comp.induct with
  | case1 t s ih => exact (ih (by simpa [post] using h)).drop
  | case2 s c t h' ih => exact (ih (by simpa [pre] using h)).add c h'
  | case3 s t ih => exact (ih (by simpa [post, pre] using h)).keep_keep
  | case4 s t ih => exact (ih (by simpa [post, pre] using h)).keep_drop
  | case5 a s t ih => exact (ih (by simpa [post, pre] using h)).add_keep a
  | case6 a s t ih => exact (ih (by simpa [post, pre] using h)).add_drop a
  | case7 s t h1 h2 h3 h4 h5 h6 =>
    match s, t with
    | [], [] => exact .nil
    | Tok.drop :: s, t => exact absurd rfl (h1 s)
    | s, Tok.add c :: t => exact absurd rfl (h2 c t)
    | [], keep :: t | [], Tok.drop :: t | keep :: s, [] | Tok.add a :: s, [] =>
      simp [post, pre] at h
    | keep :: s, keep :: t => exact (h3 s t rfl rfl).elim
    | keep :: s, Tok.drop :: t => exact (h4 s t rfl rfl).elim
    | Tok.add a :: s, keep :: t => exact (h5 a s t rfl rfl).elim
    | Tok.add a :: s, Tok.drop :: t => exact (h6 a s t rfl rfl).elim

theorem Meet.pre_comp {s t : Script α} (h : Meet s t) : pre (comp s t) = pre s := by
  induction h with
  | nil => simp
  | add c hs h ih => rw [comp_add _ _ c hs]; simpa [pre] using ih
  | drop h ih | keep_keep h ih | keep_drop h ih | add_keep a h ih | add_drop a h ih =>
    simpa [pre] using ih

theorem Meet.post_comp {s t : Script α} (h : Meet s t) : post (comp s t) = post t := by
  induction h with
  | nil => simp
  | add c hs h ih => rw [comp_add _ _ c hs]; simpa [post] using ih
  | drop h ih | keep_keep h ih | keep_drop h ih | add_keep a h ih | add_drop a h ih =>
    simpa [post] using ih

/-- **Composition is running one script after the other.** -/
theorem Meet.app_comp {s t : Script α} (h : Meet s t) (l : List α) (hs : pre s = l.length) :
    app (comp s t) l = app t (app s l) := by
  induction h generalizing l with
  | nil => simp [app]
  | add c hd h ih => rw [comp_add _ _ c hd]; simpa [app] using ih l hs
  | add_keep a h ih | add_drop a h ih => simpa [app] using ih l (by simpa [pre] using hs)
  | drop h ih | keep_keep h ih | keep_drop h ih =>
    cases l with
    | nil => simp [pre] at hs
    | cons b l => simpa [app] using ih l (by simpa [pre] using hs)

theorem comp_drops (n : ℕ) (s t : Script α) : comp (drops n ++ s) t = drops n ++ comp s t := by
  induction n with
  | zero => rfl
  | succ n ih => simp [List.replicate_succ, ih]

theorem comp_adds (l : List α) (s t : Script α) (h : ∀ s', s ≠ drop :: s') :
    comp s (adds l ++ t) = adds l ++ comp s t := by
  induction l with
  | nil => rfl
  | cons a l ih => simp only [List.map_cons, List.cons_append, comp_add _ _ _ h, ih]

theorem comp_keeps_keeps (n : ℕ) (s t : Script α) :
    comp (keeps n ++ s) (keeps n ++ t) = keeps n ++ comp s t := by
  induction n with
  | zero => rfl
  | succ n ih => simp [List.replicate_succ, ih]

theorem comp_keeps_drops (n : ℕ) (s t : Script α) :
    comp (keeps n ++ s) (drops n ++ t) = drops n ++ comp s t := by
  induction n with
  | zero => rfl
  | succ n ih => simp [List.replicate_succ, ih]

theorem comp_adds_keeps (l : List α) (s t : Script α) :
    comp (adds l ++ s) (keeps l.length ++ t) = adds l ++ comp s t := by
  induction l with
  | nil => rfl
  | cons a l ih => simp [List.replicate_succ, ih]

theorem comp_adds_drops (l : List α) (s t : Script α) :
    comp (adds l ++ s) (drops l.length ++ t) = comp s t := by
  induction l with
  | nil => rfl
  | cons a l ih => simp [List.replicate_succ, ih]

/-- The script that undoes `s` on the list it was read from. -/
@[simp] def inv : Script α → List α → Script α
  | keep :: s, _ :: l => keep :: inv s l
  | drop :: s, a :: l => add a :: inv s l
  | add _ :: s, l => drop :: inv s l
  | _, _ => []

theorem pre_inv (s : Script α) (l : List α) (h : pre s = l.length) : pre (inv s l) = post s := by
  induction s generalizing l with
  | nil => simp [inv, pre, post]
  | cons x s ih =>
    cases x with
    | add a => simp [inv, pre, post, ih l h]
    | keep | drop =>
      cases l with
      | nil => simp [pre] at h
      | cons b l => simp [inv, pre, post, ih l (by simpa [pre] using h)]

theorem post_inv (s : Script α) (l : List α) (h : pre s = l.length) : post (inv s l) = pre s := by
  induction s generalizing l with
  | nil => simp [inv, pre, post]
  | cons x s ih =>
    cases x with
    | add a => simp [inv, pre, post, ih l h]
    | keep | drop =>
      cases l with
      | nil => simp [pre] at h
      | cons b l => simp [inv, pre, post, ih l (by simpa [pre] using h)]

/-- **The inverse restores the list.** -/
theorem app_inv (s : Script α) (l : List α) (h : pre s = l.length) :
    app (inv s l) (app s l) = l := by
  induction s generalizing l with
  | nil => cases l with
    | nil => rfl
    | cons a l => simp [pre] at h
  | cons x s ih =>
    cases x with
    | add a => simp [inv, app, ih l h]
    | keep | drop =>
      cases l with
      | nil => simp [pre] at h
      | cons b l => simp [inv, app, ih l (by simpa [pre] using h)]

theorem inv_append (s t : Script α) (l r : List α) (h : pre s = l.length) :
    inv (s ++ t) (l ++ r) = inv s l ++ inv t r := by
  induction s generalizing l with
  | nil => cases l with
    | nil => rfl
    | cons a l => simp [pre] at h
  | cons x s ih =>
    cases x with
    | add a => simp [inv, ih l h]
    | keep | drop =>
      cases l with
      | nil => simp [pre] at h
      | cons b l => simp [inv, ih l (by simpa [pre] using h)]

theorem inv_keeps (n : ℕ) (l : List α) (h : l.length = n) : inv (keeps n) l = keeps n := by
  induction l generalizing n with
  | nil => subst h; rfl
  | cons a l ih => subst h; simp [List.replicate_succ, inv, ih]

theorem inv_drops (n : ℕ) (l : List α) (h : l.length = n) : inv (drops n) l = adds l := by
  induction l generalizing n with
  | nil => subst h; rfl
  | cons a l ih => subst h; simp [List.replicate_succ, inv, ih]

/-! ## Normal form: drops before adds at every replacement site -/

/-- Put an added element behind the drops in front of it. -/
@[simp] def slide (a : α) : Script α → Script α
  | drop :: s => drop :: slide a s
  | s => add a :: s

/-- Slide every drop in front of the adds before it. -/
@[simp] def nf : Script α → Script α
  | [] => []
  | keep :: s => keep :: nf s
  | drop :: s => drop :: nf s
  | add a :: s => slide a (nf s)

@[simp] theorem pre_slide (a : α) (s : Script α) : pre (slide a s) = pre s := by
  induction s with
  | nil => rfl
  | cons x s ih => cases x <;> simp [slide, pre, ih]

@[simp] theorem post_slide (a : α) (s : Script α) : post (slide a s) = post s + 1 := by
  induction s with
  | nil => rfl
  | cons x s ih => cases x <;> simp [slide, post, ih]

@[simp] theorem pre_nf (s : Script α) : pre (nf s) = pre s := by
  induction s with
  | nil => rfl
  | cons x s ih => cases x <;> simp [nf, pre, ih]

@[simp] theorem post_nf (s : Script α) : post (nf s) = post s := by
  induction s with
  | nil => rfl
  | cons x s ih => cases x <;> simp [nf, post, ih]

theorem mem_slide {x : Tok α} {a : α} {s : Script α} :
    x ∈ slide a s ↔ x = add a ∨ x ∈ s := by
  induction s with
  | nil => simp
  | cons y s ih =>
    cases y with
    | keep | add b => simp
    | drop => simp only [slide, List.mem_cons, ih, or_left_comm]

/-- Normalising moves units, and loses none. -/
theorem mem_nf {x : Tok α} {s : Script α} : x ∈ nf s ↔ x ∈ s := by
  induction s with
  | nil => rfl
  | cons y s ih => cases y <;> simp [nf, mem_slide, ih]

theorem app_slide (a : α) (s : Script α) (l : List α) (h : pre s ≤ l.length) :
    app (slide a s) l = a :: app s l := by
  induction s generalizing l with
  | nil => rfl
  | cons x s ih =>
    cases x with
    | keep | add b => rfl
    | drop =>
      cases l with
      | nil => simp [pre] at h
      | cons b l => simpa [slide, app] using ih l (by simpa [pre] using h)

/-- Normalising does not change the edited list. -/
theorem app_nf (s : Script α) (l : List α) (h : pre s ≤ l.length) :
    app (nf s) l = app s l := by
  induction s generalizing l with
  | nil => rfl
  | cons x s ih =>
    cases x with
    | add a =>
      simp only [nf, app]
      rw [app_slide a _ l (by simpa [pre] using h), ih l h]
    | keep | drop =>
      cases l with
      | nil => simp [pre] at h
      | cons b l => simp [nf, app, ih l (by simpa [pre] using h)]

theorem nf_slide_append (a : α) (s t : Script α) :
    nf (slide a s ++ t) = slide a (nf (s ++ t)) := by
  induction s with
  | nil => rfl
  | cons x s ih =>
    cases x with
    | keep | add b => rfl
    | drop => simp [slide, nf, ih]

theorem nf_append_left (s t : Script α) : nf (nf s ++ t) = nf (s ++ t) := by
  induction s with
  | nil => rfl
  | cons x s ih =>
    cases x with
    | keep | drop => simp [nf, ih]
    | add a => simp only [nf, List.cons_append, nf_slide_append, ih]

theorem nf_append_right (s t : Script α) : nf (s ++ nf t) = nf (s ++ t) := by
  induction s with
  | nil => simpa using nf_append_left t []
  | cons x s ih => cases x <;> simp [nf, ih]

@[simp] theorem nf_nf (s : Script α) : nf (nf s) = nf s := by
  simpa using nf_append_left s []

/-- Normal forms may be replaced inside a script. -/
theorem nf_congr {s s' : Script α} (h : nf s = nf s') (r t : Script α) :
    nf (r ++ s ++ t) = nf (r ++ s' ++ t) := by
  rw [List.append_assoc, List.append_assoc, ← nf_append_right r, ← nf_append_left s t, h,
    nf_append_left s' t, nf_append_right]

theorem slide_drops (a : α) (n : ℕ) (s : Script α) :
    slide a (drops n ++ s) = drops n ++ slide a s := by
  induction n with
  | zero => rfl
  | succ n ih => simp [List.replicate_succ, slide, ih]

theorem nf_drops (n : ℕ) (s : Script α) : nf (drops n ++ s) = drops n ++ nf s := by
  induction n with
  | zero => rfl
  | succ n ih => simp [List.replicate_succ, nf, ih]

theorem nf_keeps (n : ℕ) (s : Script α) : nf (keeps n ++ s) = keeps n ++ nf s := by
  induction n with
  | zero => rfl
  | succ n ih => simp [List.replicate_succ, nf, ih]

theorem nf_adds_drops (l : List α) (n : ℕ) (s : Script α) :
    nf (adds l ++ (drops n ++ s)) = nf (drops n ++ (adds l ++ s)) := by
  induction l with
  | nil => rfl
  | cons a l ih =>
    simp only [List.map_cons, List.cons_append, nf, ih, nf_drops, slide_drops]

theorem nf_adds_keep (l : List α) (s : Script α) :
    nf (adds l ++ keep :: s) = adds l ++ keep :: nf s := by
  induction l with
  | nil => rfl
  | cons a l ih =>
    simp only [List.map_cons, List.cons_append, nf, ih]
    cases l <;> rfl

theorem nf_adds (l : List α) : nf (adds l) = adds l := by
  induction l with
  | nil => rfl
  | cons a l ih =>
    simp only [List.map_cons, nf, ih]
    cases l <;> rfl

end EditScript
