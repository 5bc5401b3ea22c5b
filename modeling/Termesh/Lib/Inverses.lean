import Termesh.Lib.Traces

/-!
# Inverse scripts

A script is undone on the list it was read from. Undoing is an involution, respects normal forms,
and turns a composition round.

* **`nf_inv_nf`**: scripts of one normal form have inverses of one normal form;
* **`Meet.trace_inv`**, **`nf_inv_comp`**: a composition is undone by undoing its second script
  first.
-/

namespace EditScript

open Tok

variable {α : Type*}

theorem inv_inv (s : Script α) (l : List α) (h : pre s = l.length) : inv (inv s l) (app s l) = s := by
  induction s generalizing l with
  | nil => simp [inv]
  | cons x s ih =>
    cases x with
    | add a => simp [inv, app, ih l h]
    | keep | drop =>
      cases l with
      | nil => simp [pre] at h
      | cons b l => simp [inv, app, ih l (by simpa [pre] using h)]

theorem nf_inv_slide (a : α) (s : Script α) (l : List α) (h : pre s = l.length) :
    nf (inv (slide a s) l) = nf (drop :: inv s l) := by
  induction s generalizing l with
  | nil => rfl
  | cons x s ih =>
    cases x with
    | keep | add b => rfl
    | drop =>
      cases l with
      | nil => simp [pre] at h
      | cons c l =>
        simp only [slide, inv, nf, ih l (by simpa [pre] using h)]

/-- **Undoing respects normal forms.** -/
theorem nf_inv_nf (s : Script α) (l : List α) (h : pre s = l.length) :
    nf (inv (nf s) l) = nf (inv s l) := by
  induction s generalizing l with
  | nil => rfl
  | cons x s ih =>
    cases x with
    | add a =>
      rw [nf, nf_inv_slide a (nf s) l (by rw [pre_nf]; exact h)]
      simp only [inv, nf, ih l h]
    | keep | drop =>
      cases l with
      | nil => simp [pre] at h
      | cons b l => simp only [inv, nf, ih l (by simpa [pre] using h)]

/-- **A composition is undone back to front**: both ways leave the same trace. The induction goes
along the two scripts, and `k` counts what was read of the second one's result. -/
theorem Meet.trace_inv {s t : Script α} (h : Meet s t) (l : List α) (hs : pre s = l.length) (k : ℕ) :
    trace k (inv (comp s t) l) = app (lift (inv s l)) (trace k (inv t (app s l))) := by
  induction h generalizing l k with
  | nil => rw [comp_nil]; rfl
  | add c hd h ih =>
    rw [comp_add _ _ c hd]
    exact ih l hs (k + 1)
  | add_keep a h ih =>
    rw [comp_add_keep]
    exact ih l hs (k + 1)
  | add_drop a h ih =>
    rw [comp_add_drop]
    exact ih l hs k
  | drop h ih =>
    cases l with
    | nil => simp [pre] at hs
    | cons b l =>
      rw [comp_drop]
      exact congrArg (.inr b :: ·) (ih l (by simpa [pre] using hs) k)
  | keep_keep h ih =>
    cases l with
    | nil => simp [pre] at hs
    | cons b l =>
      rw [comp_keep_keep]
      exact congrArg (.inl k :: ·) (ih l (by simpa [pre] using hs) (k + 1))
  | keep_drop h ih =>
    cases l with
    | nil => simp [pre] at hs
    | cons b l =>
      rw [comp_keep_drop]
      exact congrArg (.inr b :: ·) (ih l (by simpa [pre] using hs) k)

/-- **A composition is undone by undoing its second script first**, up to the normal form. -/
theorem nf_inv_comp {s t : Script α} (h : post s = pre t) (l : List α) (hs : pre s = l.length) :
    nf (inv (comp s t) l) = nf (comp (inv t (app s l)) (inv s l)) := by
  have hm := Meet.of_eq s t h
  have hlen : pre t = (app s l).length := by rw [length_app s l hs, h]
  have hback : Meet (inv t (app s l)) (inv s l) :=
    Meet.of_eq _ _ (by rw [post_inv t _ hlen, pre_inv s l hs, h])
  refine nf_ext ?_ ?_
  · rw [pre_inv _ l (by rw [hm.pre_comp, hs]), hm.post_comp, hback.pre_comp, pre_inv t _ hlen]
  · rw [hm.trace_inv l hs, hback.trace_comp]

end EditScript
