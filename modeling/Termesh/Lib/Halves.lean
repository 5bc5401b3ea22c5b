import Termesh.Lib.Traces

/-!
# A list in two halves

A script runs over a list that is cut in two; what is added at the cut goes in front of it. The
elements of the list read are told apart by their places, as in a trace.

* `Halves`, `Halves.edit`, `all_edit`, `length_front_edit`: the halves under a script;
* `Parted`, **`Parted.edit`**: which places the halves hold, and where the place at the cut stands;
* `Halves.Torn`, **`Parted.posMap_eq_iff`**: where one script that leaves the same has the cut;
* **`front_edit_of_undisturbed`**: a stretch in which nothing is dropped, and nothing added between.
-/

namespace EditScript

open Tok

variable {α β : Type*}

/-! ## Scripts over lists put together -/

theorem app_append {s : Script α} {l : List α} (h : pre s = l.length) (t : Script α) (r : List α) :
    app (s ++ t) (l ++ r) = app s l ++ app t r := by
  induction s generalizing l with
  | nil =>
    obtain rfl : l = [] := List.eq_nil_of_length_eq_zero h.symm
    rfl
  | cons x s ih =>
    cases x with
    | add a => simp [app, ih h]
    | keep | drop =>
      cases l with
      | nil => simp [pre] at h
      | cons b l => simp [app, ih (l := l) (by simpa [pre] using h)]

theorem lift_append (s t : Script α) : (lift (s ++ t) : Script (β ⊕ α)) = lift s ++ lift t :=
  List.map_append

theorem lift_keeps (n : ℕ) : (lift (keeps n : Script α) : Script (β ⊕ α)) = keeps n :=
  List.map_replicate

theorem lift_adds (w : List α) : (lift (adds w) : Script (β ⊕ α)) = adds (w.map .inr) := by
  simp [lift]

theorem mem_of_mem_app_lift {s : Script α} {l : List (β ⊕ α)} {b : β}
    (h : .inl b ∈ app (lift s) l) : .inl b ∈ l := by
  induction s generalizing l with
  | nil => simp [lift, app] at h
  | cons x s ih =>
    cases x with
    | add a => exact ih (by simpa [lift, app] using h)
    | keep =>
      cases l with
      | nil => simp [lift, app] at h
      | cons y l =>
        rcases List.mem_cons.mp (show .inl b ∈ y :: app (lift s) l from h) with rfl | h
        · exact List.mem_cons_self
        · exact List.mem_cons_of_mem y (ih h)
    | drop =>
      cases l with
      | nil => simp [lift, app] at h
      | cons y l => exact List.mem_cons_of_mem y (ih h)

theorem fore_add_cons (p : ℕ) (a : α) (s : Script α) :
    fore p (add a :: s) = add a :: fore p s := by
  cases p <;> rfl

theorem aft_add_cons (p : ℕ) (a : α) (s : Script α) : aft p (add a :: s) = aft p s := by
  cases p <;> rfl

theorem fore_add (p q : ℕ) (s : Script α) : fore (p + q) s = fore p s ++ fore q (aft p s) := by
  induction s generalizing p with
  | nil => cases p <;> cases q <;> rfl
  | cons x s ih =>
    cases x with
    | add a =>
      rw [fore_add_cons, fore_add_cons, aft_add_cons, ih]
      rfl
    | keep | drop =>
      cases p with
      | zero => simp [fore, aft]
      | succ p =>
        rw [Nat.add_right_comm]
        simp [fore, aft, ih]

theorem dropAt_aft {p : ℕ} {s : Script α} (h : p ≤ pre s) (j : ℕ) :
    dropAt (aft p s) j = dropAt s (p + j) := by
  have happ := dropAt_append (fore p s) (aft p s) (p + j)
  rw [fore_append_aft, pre_fore h, if_neg (by omega), Nat.add_sub_cancel_left] at happ
  exact happ.symm

theorem addAt_aft {p : ℕ} {s : Script α} (h : p ≤ pre s) {j : ℕ} (ha : addAt s (p + j) = false) :
    addAt (aft p s) j = false := by
  have happ := addAt_append (fore p s) (aft p s) (p + j)
  rw [fore_append_aft, pre_fore h, Nat.add_sub_cancel_left, ha] at happ
  have hparts : addAt (fore p s) (p + j) = false ∧ addAt (aft p s) j = false := by
    simpa using happ
  exact hparts.2

theorem addAt_aft_zero (p : ℕ) (s : Script α) : addAt (aft p s) 0 = false := by
  cases h : aft p s with
  | nil => rfl
  | cons x r =>
    cases x with
    | keep | drop => rfl
    | add a => exact absurd h (aft_ne_add p s a r)

/-- What follows an added element in normal form is in normal form, and is not a drop. -/
theorem nf_of_add {a : α} {s : Script α} (h : nf (add a :: s) = add a :: s) :
    nf s = s ∧ ∀ r, s ≠ drop :: r := by
  have hslide : slide a (nf s) = add a :: s := h
  cases hn : nf s with
  | nil =>
    rw [hn] at hslide
    obtain rfl : [] = s := (List.cons.inj hslide).2
    exact ⟨rfl, nofun⟩
  | cons y t =>
    rw [hn] at hslide
    cases y with
    | drop => cases (List.cons.inj hslide).1
    | keep | add b =>
      have ht : _ :: t = s := (List.cons.inj hslide).2
      rw [← ht]
      exact ⟨rfl, nofun⟩

/-- In normal form, what is added in front of a drop is not left in front of it. -/
theorem trace_fore_ne {s r : Script α} {p k : ℕ} (h : nf s = s) (hs : aft p s = drop :: r)
    (l : List (ℕ ⊕ α)) (a : α) : trace k (fore p s) ≠ l ++ [.inr a] := by
  induction s generalizing p k l with
  | nil => cases p <;> cases hs
  | cons x s ih =>
    cases x with
    | keep | drop =>
      have htail : nf s = s := (List.cons.inj h).2
      cases p with
      | zero => cases l <;> exact nofun
      | succ p =>
        first
        | exact ih htail hs l
        | cases l with
          | nil => exact nofun
          | cons y l => exact fun heq => ih htail hs l (List.cons.inj heq).2
    | add b =>
      obtain ⟨htail, hdrop⟩ := nf_of_add h
      rw [aft_add_cons] at hs
      rw [fore_add_cons]
      cases l with
      | cons y l => exact fun heq => ih htail hs l (List.cons.inj heq).2
      | nil =>
        intro heq
        -- nothing is left in front of the offset, so what follows starts with a drop
        have hempty : trace k (fore p s) = [] := (List.cons.inj heq).2
        have hparts := fore_append_aft p s
        cases hf : fore p s with
        | nil =>
          rw [hf, hs] at hparts
          exact hdrop r hparts.symm
        | cons y u =>
          rw [hf] at hempty hparts
          cases y with
          | keep | add c => cases hempty
          | drop => exact hdrop _ hparts.symm

/-! ## The halves -/

/-- A list in two halves: elements of the list read, by their places, and elements added. -/
structure Halves (α : Type*) where
  front : List (ℕ ⊕ α)
  back : List (ℕ ⊕ α)

namespace Halves

/-- The list read, cut at an offset. -/
def places (n p : ℕ) : Halves α where
  front := (List.range' 0 p).map .inl
  back := (List.range' p (n - p)).map .inl

def all (h : Halves α) : List (ℕ ⊕ α) := h.front ++ h.back

/-- The halves under a script. -/
def edit (h : Halves α) (s : Script α) : Halves α where
  front := app (lift (fore h.front.length s)) h.front
  back := app (lift (aft h.front.length s)) h.back

/-- The place at the cut is gone, and an added element stands in front of the cut. -/
def Torn (h : Halves α) (n p : ℕ) : Prop :=
  p < n ∧ .inl p ∉ h.back ∧ h.front.getLast?.any Sum.isRight = true

instance [DecidableEq α] (l : List (ℕ ⊕ α)) (x : ℕ ⊕ α) : Decidable (x ∈ l) :=
  decidable_of_iff (∃ y ∈ l, y = x) (by simp)

instance [DecidableEq α] (h : Halves α) (n p : ℕ) : Decidable (h.Torn n p) :=
  inferInstanceAs (Decidable (_ ∧ _ ∧ _))

end Halves

variable {h : Halves α} {s : Script α} {n p : ℕ}

theorem all_places (hp : p ≤ n) :
    (Halves.places n p : Halves α).all = (List.range' 0 n).map .inl := by
  have hsum : p + (n - p) = n := by omega
  have happ : List.range' 0 p ++ List.range' (0 + 1 * p) (n - p) = List.range' 0 (p + (n - p)) :=
    List.range'_append
  rw [Nat.one_mul, Nat.zero_add, hsum] at happ
  rw [← happ, List.map_append]
  rfl

theorem length_front_le (hs : pre s = h.all.length) : h.front.length ≤ pre s := by
  rw [hs, Halves.all, List.length_append]
  exact Nat.le_add_right _ _

theorem all_edit (hs : pre s = h.all.length) : (h.edit s).all = app (lift s) h.all := by
  have hfore : pre (lift (fore h.front.length s) : Script (ℕ ⊕ α)) = h.front.length := by
    rw [pre_lift, pre_fore (length_front_le hs)]
  have happ := app_append hfore (lift (aft h.front.length s)) h.back
  rw [← lift_append, fore_append_aft] at happ
  exact happ.symm

/-- The cut lands where the offset does. -/
theorem length_front_edit (hs : pre s = h.all.length) :
    (h.edit s).front.length = posMap true s h.front.length := by
  have hle := length_front_le hs
  rw [Halves.edit, length_app _ _ (by rw [pre_lift, pre_fore hle]), post_lift, post_fore hle]

/-- The halves hold places from their own side of the offset, and the place at the cut stands first
in its half while it is there. -/
structure Parted (n p : ℕ) (h : Halves α) : Prop where
  front : ∀ j, .inl j ∈ h.front → j < p
  back : ∀ j, .inl j ∈ h.back → p ≤ j
  first : .inl p ∉ h.back ∨ ∃ r, h.back = .inl p :: r ∧ .inl p ∉ r
  stop : p = n → h.back = []

theorem parted_places : Parted n p (Halves.places n p : Halves α) where
  front j hj := by simpa [Halves.places, List.mem_range'] using hj
  back j hj := by
    obtain ⟨i, -, rfl⟩ : ∃ i < n - p, j = p + i := by
      simpa [Halves.places, List.mem_range'] using hj
    exact Nat.le_add_right p i
  first := by
    cases hn : n - p with
    | zero => exact .inl (by simp [Halves.places, hn])
    | succ m =>
      refine .inr ⟨(List.range' (p + 1) m).map .inl, ?_, ?_⟩
      · simp [Halves.places, hn, List.range'_succ]
      · simp [List.mem_range']
        omega
  stop hpn := by simp [Halves.places, hpn]

/-- **The halves stay parted.** -/
theorem Parted.edit (hh : Parted n p h) (hs : pre s = h.all.length) : Parted n p (h.edit s) where
  front j hj := hh.front j (mem_of_mem_app_lift hj)
  back j hj := hh.back j (mem_of_mem_app_lift hj)
  first := by
    rcases hh.first with hp | ⟨r, hr, hp⟩
    · exact .inl fun hj => hp (mem_of_mem_app_lift hj)
    · have haft := aft_ne_add h.front.length s
      rw [Halves.edit, hr]
      cases ht : aft h.front.length s with
      | nil => exact .inl (by simp [lift, app])
      | cons x t =>
        cases x with
        | add a => exact absurd ht (haft a t)
        | keep => exact .inr ⟨app (lift t) r, rfl, fun hj => hp (mem_of_mem_app_lift hj)⟩
        | drop => exact .inl fun hj => hp (mem_of_mem_app_lift hj)
  stop hpn := by
    have hback := hh.stop hpn
    have hlen : pre s = h.front.length := by rw [hs, Halves.all, hback, List.append_nil]
    have hpre := pre_aft (Nat.le_of_eq hlen.symm)
    cases ht : aft h.front.length s with
    | nil => simp [Halves.edit, ht, lift, app]
    | cons x t =>
      rw [ht, hlen, Nat.sub_self] at hpre
      cases x with
      | add a => exact absurd ht (aft_ne_add _ s a t)
      | keep | drop => cases hpre

/-- Two ways to cut a list in front of an element that is not met before. -/
theorem length_eq_of_append_cons {x : β} {f f' r r' : List β} (h : f ++ x :: r = f' ++ x :: r')
    (hf : x ∉ f) (hf' : x ∉ f') : f.length = f'.length := by
  induction f generalizing f' with
  | nil =>
    cases f' with
    | nil => rfl
    | cons y f' => exact absurd ((List.cons.inj h).1 ▸ List.mem_cons_self) hf'
  | cons y f ih =>
    cases f' with
    | nil => exact absurd ((List.cons.inj h).1 ▸ List.mem_cons_self) hf
    | cons z f' =>
      exact congrArg (· + 1) (ih (List.cons.inj h).2 (fun hx => hf (List.mem_cons_of_mem y hx))
        fun hx => hf' (List.mem_cons_of_mem z hx))

theorem exists_of_getLast?_isRight {l : List (ℕ ⊕ α)}
    (h : l.getLast?.any Sum.isRight = true) : ∃ r a, l = r ++ [.inr a] := by
  rcases List.eq_nil_or_concat' l with rfl | ⟨r, x, rfl⟩
  · simp at h
  · cases x with
    | inl j => simp at h
    | inr a => exact ⟨r, a, rfl⟩

theorem aft_cases {p : ℕ} {s : Script α} (hp : p ≤ pre s) :
    (p = pre s ∧ aft p s = []) ∨
      (p < pre s ∧ ((∃ t, aft p s = keep :: t) ∨ ∃ t, aft p s = drop :: t)) := by
  have hpre := pre_aft hp
  cases ht : aft p s with
  | nil =>
    rw [ht, pre] at hpre
    exact .inl ⟨by omega, rfl⟩
  | cons x t =>
    cases x with
    | add a => exact absurd ht (aft_ne_add p s a t)
    | keep | drop =>
      rw [ht, pre] at hpre
      exact .inr ⟨by omega, by simp⟩

/-- **Where one script has the cut** that leaves the same: in the same place, unless the place at the
cut is gone and an added element stands in front of the cut. -/
theorem Parted.posMap_eq_iff (hh : Parted (pre s) p h) (hnf : nf s = s) (hp : p ≤ pre s)
    (htrace : trace 0 s = h.all) : h.front.length = posMap true s p ↔ ¬ h.Torn (pre s) p := by
  rw [← post_fore hp, ← length_trace (fore p s) 0]
  have hfront : ∀ j, .inl j ∈ trace 0 (fore p s) → j < p := by
    intro j hj
    rw [← Nat.zero_add j, mem_trace, pre_fore hp] at hj
    exact hj.1
  have hparts : trace 0 (fore p s) ++ trace p (aft p s) = h.front ++ h.back := by
    have happ := trace_append (fore p s) (aft p s) 0
    rw [fore_append_aft, pre_fore hp, Nat.zero_add] at happ
    rw [← happ, htrace]
    rfl
  rcases aft_cases hp with ⟨hpn, haft⟩ | ⟨hlt, ⟨t, haft⟩ | ⟨t, haft⟩⟩
  · -- nothing is behind the cut
    rw [haft, hh.stop hpn, trace] at hparts
    refine iff_of_true ?_ fun ht => absurd hpn (Nat.ne_of_lt ht.1)
    rw [List.append_cancel_right hparts]
  · -- the place at the cut is there, and stands first behind the cut both ways
    rw [haft, trace] at hparts
    have hmem : .inl p ∈ h.front ++ h.back := by
      rw [← hparts]
      exact List.mem_append_right _ List.mem_cons_self
    have hback : .inl p ∈ h.back :=
      (List.mem_append.mp hmem).resolve_left fun hj => Nat.lt_irrefl p (hh.front p hj)
    obtain ⟨r, hr, -⟩ := hh.first.resolve_left (not_not_intro hback)
    rw [hr] at hparts
    refine iff_of_true ?_ fun ht => ht.2.1 hback
    exact (length_eq_of_append_cons hparts (fun hj => Nat.lt_irrefl p (hfront p hj))
      fun hj => Nat.lt_irrefl p (hh.front p hj)).symm
  · -- the place at the cut is gone, and the script has what was added there behind the cut
    rw [haft, trace] at hparts
    have hgone : .inl p ∉ h.back := by
      intro hj
      have hmem : .inl p ∈ trace 0 (fore p s) ++ trace (p + 1) t := by
        rw [hparts]
        exact List.mem_append_right _ hj
      rcases List.mem_append.mp hmem with hj | hj
      · exact Nat.lt_irrefl p (hfront p hj)
      · exact Nat.not_succ_le_self p (le_of_mem_trace hj)
    have hlast := trace_fore_ne (k := 0) hnf haft
    rcases List.append_eq_append_iff.mp hparts with ⟨w, hw, hrest⟩ | ⟨w, hw, hrest⟩
    · rcases List.eq_nil_or_concat' w with rfl | ⟨w, x, rfl⟩
      · rw [List.append_nil] at hw
        refine iff_of_true (congrArg List.length hw) fun ht => ?_
        obtain ⟨l, a, hl⟩ := exists_of_getLast?_isRight ht.2.2
        exact hlast l a (hw.symm.trans hl)
      · rw [← List.append_assoc] at hw
        cases x with
        | inl j =>
          -- a place from in front of the offset is not behind it
          have hj : .inl j ∈ trace (p + 1) t := by
            rw [hrest]
            simp
          have hjp : j < p := hh.front j (by rw [hw]; simp)
          exact absurd (le_of_mem_trace hj) (by omega)
        | inr a =>
          refine iff_of_false ?_ (not_not_intro ⟨hlt, hgone, by rw [hw]; simp⟩)
          rw [hw]
          simp only [List.length_append, List.length_singleton]
          omega
    · rcases List.eq_nil_or_concat' w with rfl | ⟨w, x, rfl⟩
      · rw [List.append_nil] at hw
        refine iff_of_true (congrArg List.length hw.symm) fun ht => ?_
        obtain ⟨l, a, hl⟩ := exists_of_getLast?_isRight ht.2.2
        exact hlast l a (hw.trans hl)
      · rw [← List.append_assoc] at hw
        cases x with
        | inl j =>
          have hj : j < p := hfront j (by rw [hw]; simp)
          have hpj : p ≤ j := hh.back j (by rw [hrest]; simp)
          exact absurd hj (Nat.not_lt_of_le hpj)
        | inr a => exact absurd hw (hlast _ a)

/-! ## A stretch left alone -/

/-- **A stretch in which nothing is dropped, and nothing added between**, stays between the halves
at its ends, with what is added at its end. -/
theorem front_edit_of_undisturbed {g h : Halves α} {s : Script α} {m : List (ℕ ⊕ α)}
    (hm : h.front = g.front ++ m) (hle : h.front.length ≤ pre s)
    (hd : ∀ j, g.front.length ≤ j → j < h.front.length → dropAt s j = false)
    (ha : ∀ j, g.front.length < j → j < h.front.length → addAt s j = false) :
    ∃ w : List α, (h.edit s).front = (g.edit s).front ++ (m ++ w.map .inr) := by
  have hlen : h.front.length = g.front.length + m.length := by rw [hm, List.length_append]
  have hg : g.front.length ≤ pre s := by omega
  have hpre := pre_aft hg
  obtain ⟨w, hw⟩ := fore_of_undisturbed (n := m.length) (s := aft g.front.length s) (by omega)
    (fun j hj => by
      rw [dropAt_aft hg]
      exact hd _ (by omega) (by omega))
    (fun j hj => by
      cases j with
      | zero => exact addAt_aft_zero _ s
      | succ j => exact addAt_aft hg (ha _ (by omega) (by omega)))
  refine ⟨w, ?_⟩
  have hfore : pre (lift (fore g.front.length s) : Script (ℕ ⊕ α)) = g.front.length := by
    rw [pre_lift, pre_fore hg]
  have hkeeps := app_keeps (adds (w.map .inr)) m []
  have hadds := app_adds [] (w.map (.inr : α → ℕ ⊕ α)) []
  rw [List.append_nil] at hkeeps hadds
  rw [Halves.edit, Halves.edit, hlen, fore_add, hm, lift_append, app_append hfore, hw, lift_append,
    lift_keeps, lift_adds, hkeeps, hadds]
  simp [app]

end EditScript
