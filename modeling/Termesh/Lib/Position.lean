import Termesh.Lib.Script

/-!
# Positions under an edit script

* `dropAt s p`: element `p` of the list read is dropped; `addAt s p`: something is added at
  offset `p`; `fresh s i`: element `i` of the list written was added.
* `posMap after s p`: where offset `p` lands; with `after`, behind what is added at `p` itself.
* **`not_fresh_posMap`**: if nothing in `[p, q)` is dropped and nothing is added in `(p, q]`, the
  image of `[p, q)` holds no added element.
* **`fresh_of_addAt`**: something added at `q` lies in front of the image of `q`.
* **`getElem?_app_posMap`**: an element that is kept stands where its offset lands.
* **`added_sublist`**: added elements a later script does not drop survive it, in order.
-/

namespace EditScript

open Tok

variable {α : Type*}

/-- Element `p` of the list read is dropped. -/
@[simp] def dropAt : Script α → ℕ → Bool
  | keep :: _, 0 => false
  | keep :: s, p + 1 => dropAt s p
  | drop :: _, 0 => true
  | drop :: s, p + 1 => dropAt s p
  | add _ :: s, p => dropAt s p
  | [], _ => false

/-- Something is added at offset `p` of the list read. -/
@[simp] def addAt : Script α → ℕ → Bool
  | add _ :: _, 0 => true
  | add _ :: s, p + 1 => addAt s (p + 1)
  | keep :: s, p + 1 => addAt s p
  | drop :: s, p + 1 => addAt s p
  | _, _ => false

/-- Element `i` of the list written was added. -/
@[simp] def fresh : Script α → ℕ → Bool
  | add _ :: _, 0 => true
  | add _ :: s, i + 1 => fresh s i
  | keep :: _, 0 => false
  | keep :: s, i + 1 => fresh s i
  | drop :: s, i => fresh s i
  | [], _ => false

/-- Where offset `p` of the list read lands in the list written. -/
@[simp] def posMap (after : Bool) : Script α → ℕ → ℕ
  | [], p => p
  | keep :: _, 0 => 0
  | keep :: s, p + 1 => posMap after s p + 1
  | drop :: _, 0 => 0
  | drop :: s, p + 1 => posMap after s p
  | add _ :: s, 0 => if after then posMap after s 0 + 1 else 0
  | add _ :: s, p + 1 => posMap after s (p + 1) + 1

/-- The added elements, in order. -/
@[simp] def added : Script α → List α
  | add a :: s => a :: added s
  | _ :: s => added s
  | [] => []

theorem posMap_mono (b : Bool) (s : Script α) {p q : ℕ} (h : p ≤ q) :
    posMap b s p ≤ posMap b s q := by
  induction s generalizing p q with
  | nil => exact h
  | cons x s ih =>
    cases x with
    | keep | drop =>
      match p, q, h with
      | 0, _, _ => simp [posMap]
      | p + 1, q + 1, h => simpa [posMap] using ih (Nat.le_of_succ_le_succ h)
    | add a =>
      match p, q, h with
      | 0, 0, _ => exact Nat.le_refl _
      | 0, q + 1, _ =>
        simp only [posMap]
        split_ifs
        · exact Nat.succ_le_succ (ih (Nat.zero_le _))
        · exact Nat.zero_le _
      | p + 1, q + 1, h => simpa [posMap] using ih h

theorem posMap_le (b : Bool) (s : Script α) {p : ℕ} (h : p ≤ pre s) : posMap b s p ≤ post s := by
  induction s generalizing p with
  | nil => simpa [posMap, pre, post] using h
  | cons x s ih =>
    cases x with
    | keep | drop =>
      cases p with
      | zero => simp [posMap]
      | succ p => simpa [posMap, post] using ih (by simpa [pre] using h)
    | add a =>
      cases p with
      | zero => simp only [posMap, post]; split_ifs <;> simp [ih]
      | succ p => simpa [posMap, post] using ih (by simpa [pre] using h)

theorem posMap_false_le (s : Script α) (p : ℕ) : posMap false s p ≤ posMap true s p := by
  induction s generalizing p with
  | nil => exact Nat.le_refl p
  | cons x s ih =>
    cases p with
    | zero => cases x <;> simp [posMap]
    | succ p => cases x <;> simpa [posMap] using ih _

/-- **An element that is kept stands where its offset lands**, behind what is added in front. -/
theorem getElem?_app_posMap (s : Script α) (l : List α) {p : ℕ} (hp : p < pre s)
    (hd : dropAt s p = false) : (app s l)[posMap true s p]? = l[p]? := by
  induction s generalizing l p with
  | nil => simp [pre] at hp
  | cons x s ih =>
    cases x with
    | keep =>
      cases l with
      | nil => simp [app]
      | cons a l =>
        cases p with
        | zero => simp [posMap, app]
        | succ p => simpa [posMap, app] using ih l (by simpa [pre] using hp) hd
    | drop =>
      cases l with
      | nil => simp [app]
      | cons a l =>
        cases p with
        | zero => simp [dropAt] at hd
        | succ p => simpa [posMap, app] using ih l (by simpa [pre] using hp) hd
    | add a =>
      have hs := ih l hp hd
      cases p <;> simpa [posMap, app] using hs

@[simp] theorem dropAt_slide (a : α) (s : Script α) (p : ℕ) : dropAt (slide a s) p = dropAt s p := by
  induction s generalizing p with
  | nil => rfl
  | cons x s ih =>
    cases x with
    | keep | add b => rfl
    | drop => cases p <;> simp [slide, dropAt, ih]

@[simp] theorem dropAt_nf (s : Script α) (p : ℕ) : dropAt (nf s) p = dropAt s p := by
  induction s generalizing p with
  | nil => rfl
  | cons x s ih =>
    cases x with
    | add a => simp [nf, dropAt, ih]
    | keep | drop => cases p <;> simp [nf, dropAt, ih]

theorem dropAt_append (s t : Script α) (p : ℕ) :
    dropAt (s ++ t) p = if p < pre s then dropAt s p else dropAt t (p - pre s) := by
  induction s generalizing p with
  | nil => simp [pre]
  | cons x s ih =>
    cases x with
    | add a => exact ih p
    | keep | drop => cases p <;> simp [dropAt, pre, ih]

theorem addAt_append (s t : Script α) (p : ℕ) :
    addAt (s ++ t) p = (addAt s p || (pre s ≤ p && addAt t (p - pre s))) := by
  induction s generalizing p with
  | nil => simp [pre, addAt]
  | cons x s ih =>
    cases x with
    | keep | drop => cases p <;> simp [addAt, pre, ih]
    | add a =>
      cases p with
      | zero => simp [addAt]
      | succ p => exact ih (p + 1)

@[simp] theorem dropAt_keeps (n p : ℕ) : dropAt (keeps n : Script α) p = false := by
  induction n generalizing p with
  | zero => rfl
  | succ n ih => cases p <;> simp [List.replicate_succ, dropAt, ih]

@[simp] theorem dropAt_drops (n p : ℕ) : dropAt (drops n : Script α) p = decide (p < n) := by
  induction n generalizing p with
  | zero => rfl
  | succ n ih => cases p <;> simp [List.replicate_succ, dropAt, ih]

@[simp] theorem dropAt_adds (l : List α) (p : ℕ) : dropAt (adds l) p = false := by
  induction l generalizing p with
  | nil => rfl
  | cons a l ih => simp [dropAt, ih]

@[simp] theorem addAt_keeps (n p : ℕ) : addAt (keeps n : Script α) p = false := by
  induction n generalizing p with
  | zero => rfl
  | succ n ih => cases p <;> simp [List.replicate_succ, addAt, ih]

@[simp] theorem addAt_drops (n p : ℕ) : addAt (drops n : Script α) p = false := by
  induction n generalizing p with
  | zero => rfl
  | succ n ih => cases p <;> simp [List.replicate_succ, addAt, ih]

@[simp] theorem addAt_adds (l : List α) (p : ℕ) :
    addAt (adds l) p = (decide (p = 0) && !l.isEmpty) := by
  induction l generalizing p with
  | nil => cases p <;> rfl
  | cons a l ih => cases p <;> simp [addAt, ih]

/-- **The image of an untouched range holds nothing added.** -/
theorem not_fresh_posMap (s : Script α) {p q i : ℕ} (hd : ∀ j, p ≤ j → j < q → dropAt s j = false)
    (ha : ∀ j, p < j → j ≤ q → addAt s j = false) (hpi : posMap true s p ≤ i)
    (hiq : i < posMap true s q) (hpq : p ≤ q) : fresh s i = false := by
  induction s generalizing p q i with
  | nil => rfl
  | cons x s ih =>
    cases x with
    | keep =>
      match p, q, hpq with
      | 0, 0, _ => simp [posMap] at hiq
      | 0, q + 1, _ =>
        cases i with
        | zero => rfl
        | succ i =>
          -- the range starts at the kept element, so `s` sees it from its own offset `0`
          by_cases h0 : addAt s 0 = true
          · cases q with
            | zero => exact absurd (ha 1 (by omega) (by omega)) (by simp [addAt, h0])
            | succ q => exact absurd (ha 1 (by omega) (by omega)) (by simp [addAt, h0])
          · have hz : posMap true s 0 = 0 := by
              cases s with
              | nil => rfl
              | cons y s => cases y <;> simp_all [posMap, addAt]
            refine ih (p := 0) (q := q) (fun j _ hj => ?_) (fun j hj hj' => ?_) (by omega)
              (by simpa [posMap] using hiq) (Nat.zero_le q)
            · simpa [dropAt] using hd (j + 1) (by omega) (by omega)
            · simpa [addAt] using ha (j + 1) (by omega) (by omega)
      | p + 1, q + 1, hpq =>
        cases i with
        | zero => rfl
        | succ i =>
          refine ih (p := p) (q := q) (fun j h1 h2 => ?_) (fun j h1 h2 => ?_)
            (by simpa [posMap] using hpi) (by simpa [posMap] using hiq) (by omega)
          · simpa [dropAt] using hd (j + 1) (by omega) (by omega)
          · simpa [addAt] using ha (j + 1) (by omega) (by omega)
    | drop =>
      match p, q, hpq with
      | 0, 0, _ => simp [posMap] at hiq
      | 0, q + 1, _ => simpa [dropAt] using hd 0 (by omega) (by omega)
      | p + 1, q + 1, hpq =>
        refine ih (p := p) (q := q) (fun j h1 h2 => ?_) (fun j h1 h2 => ?_)
          (by simpa [posMap] using hpi) (by simpa [posMap] using hiq) (by omega)
        · simpa [dropAt] using hd (j + 1) (by omega) (by omega)
        · simpa [addAt] using ha (j + 1) (by omega) (by omega)
    | add a =>
      cases i with
      | zero => cases p <;> simp [posMap] at hpi
      | succ i =>
        match p, q, hpq with
        | 0, 0, _ => simp only [posMap, if_true] at hpi hiq; omega
        | 0, q + 1, _ =>
          refine ih (p := 0) (q := q + 1) (fun j h1 h2 => ?_) (fun j h1 h2 => ?_)
            (by simpa [posMap] using hpi) (by simpa [posMap] using hiq) (by omega)
          · simpa [dropAt] using hd j h1 h2
          · cases j with
            | zero => omega
            | succ j => simpa [addAt] using ha (j + 1) h1 h2
        | p + 1, q + 1, hpq =>
          refine ih (p := p + 1) (q := q + 1) (fun j h1 h2 => ?_) (fun j h1 h2 => ?_)
            (by simpa [posMap] using hpi) (by simpa [posMap] using hiq) hpq
          · simpa [dropAt] using hd j h1 h2
          · cases j with
            | zero => omega
            | succ j => simpa [addAt] using ha (j + 1) h1 h2

/-- **What is added at `q` lies directly in front of the image of `q`.** -/
theorem fresh_of_addAt (s : Script α) {q : ℕ} (h : addAt s q = true) :
    0 < posMap true s q ∧ fresh s (posMap true s q - 1) = true := by
  induction s generalizing q with
  | nil => cases q <;> simp [addAt] at h
  | cons x s ih =>
    cases x with
    | keep | drop =>
      cases q with
      | zero => simp [addAt] at h
      | succ q =>
        have := ih (q := q) (by simpa [addAt] using h)
        obtain ⟨n, hn⟩ := Nat.exists_eq_succ_of_ne_zero (Nat.pos_iff_ne_zero.mp this.1)
        simp_all [posMap, fresh]
    | add a =>
      cases q with
      | succ q =>
        have := ih (q := q + 1) (by simpa [addAt] using h)
        obtain ⟨n, hn⟩ := Nat.exists_eq_succ_of_ne_zero (Nat.pos_iff_ne_zero.mp this.1)
        simp_all [posMap, fresh]
      | zero =>
        simp only [posMap, if_true, Nat.add_sub_cancel]
        refine ⟨Nat.succ_pos _, ?_⟩
        by_cases h0 : addAt s 0 = true
        · have := ih h0
          obtain ⟨n, hn⟩ := Nat.exists_eq_succ_of_ne_zero (Nat.pos_iff_ne_zero.mp this.1)
          simp_all [fresh]
        · have hz : posMap true s 0 = 0 := by
            cases s with
            | nil => rfl
            | cons y s => cases y <;> simp_all [posMap, addAt]
          simp [hz, fresh]

theorem posMap_lt_of_addAt (s : Script α) {p q : ℕ} (hpq : p < q) (h : addAt s q = true) :
    posMap true s p < posMap true s q := by
  induction s generalizing p q with
  | nil => cases q <;> simp [addAt] at h
  | cons x s ih =>
    cases x with
    | keep | drop =>
      match p, q, hpq with
      | 0, q + 1, _ =>
        have := (fresh_of_addAt s (q := q) (by simpa [addAt] using h)).1
        simp only [posMap]; omega
      | p + 1, q + 1, hpq =>
        simpa [posMap] using ih (Nat.lt_of_succ_lt_succ hpq) (by simpa [addAt] using h)
    | add a =>
      match p, q, hpq with
      | 0, q + 1, hpq =>
        simpa [posMap] using ih hpq (by simpa [addAt] using h)
      | p + 1, q + 1, hpq => simpa [posMap] using ih hpq (by simpa [addAt] using h)

/-- **Added elements a later script does not drop survive it, in order.** -/
theorem added_sublist {s t : Script α} (h : Meet s t) (l : List α) (hs : pre s = l.length)
    (hf : ∀ i, fresh s i = true → dropAt t i = false) :
    (added s).Sublist (app t (app s l)) := by
  induction h generalizing l with
  | nil => simp [added]
  | add c hd h ih => simpa [app] using (ih l hs (fun i hi => by simpa [dropAt] using hf i hi)).cons c
  | add_keep a h ih =>
    simpa [app, added] using ih l (by simpa [pre] using hs)
      (fun i hi => by simpa [dropAt] using hf (i + 1) (by simpa [fresh] using hi))
  | add_drop a h ih => exact absurd (hf 0 rfl) (by simp [dropAt])
  | drop h ih =>
    cases l with
    | nil => simp [pre] at hs
    | cons b l =>
      simpa [app, added] using ih l (by simpa [pre] using hs)
        (fun i hi => hf i (by simpa [fresh] using hi))
  | keep_keep h ih =>
    cases l with
    | nil => simp [pre] at hs
    | cons b l =>
      simpa [app, added] using (ih l (by simpa [pre] using hs)
        (fun i hi => by simpa [dropAt] using hf (i + 1) (by simpa [fresh] using hi))).cons b
  | keep_drop h ih =>
    cases l with
    | nil => simp [pre] at hs
    | cons b l =>
      simpa [app, added] using ih l (by simpa [pre] using hs)
        (fun i hi => by simpa [dropAt] using hf (i + 1) (by simpa [fresh] using hi))

end EditScript
