import Termesh.Core.Path

/-!
# Lexical confinement

Where a path leads when every `.` and `..` is resolved on paper, and when that is at or below a root.

* `Path.Under`: at or below a root after normalisation;
* `Path.reduce`: a relative tail as a number of levels up and the components that follow;
* **`normalise_append`**: the tail of a path acts on the normalised root by its reduction;
* `Path.Reenters`, **`under_append_iff`**: a tail stays below the root exactly when what it climbs
  over is entered again.
-/

namespace Termesh

/-- Whether a component is a name. -/
def Component.isNormal : Component → Bool
  | .normal _ => true
  | _ => false

namespace Path

/-- The normalised path is the normalised root, or lies below it. -/
def Under (p root : Path) : Prop :=
  ∃ below, p.normalise = root.normalise ++ below ∧ .parentDir ∉ below

/-- One more component of a tail: levels climbed, and what follows them, last component first. -/
def reduceStep : ℕ × List Component → Component → ℕ × List Component
  | (ups, acc), .curDir => (ups, acc)
  | (ups, .normal _ :: acc), .parentDir => (ups, acc)
  | (ups, .rootDir :: acc), .parentDir => (ups, .rootDir :: acc)
  | (ups, _), .parentDir => (ups + 1, [])
  | (ups, acc), c => (ups, c :: acc)

/-- A tail as the levels it climbs and the components that follow. -/
def reduce (tail : Path) : ℕ × List Component :=
  let r := tail.foldl reduceStep (0, [])
  (r.1, r.2.reverse)

theorem resolve_curDir (acc : List Component) : resolve acc .curDir = acc := by
  cases acc <;> rfl

theorem resolve_rootDir (acc : List Component) : resolve acc .rootDir = .rootDir :: acc := by
  rcases acc with - | ⟨a, acc⟩
  · rfl
  · cases a <;> rfl

theorem resolve_normal (acc : List Component) (s : String) :
    resolve acc (.normal s) = .normal s :: acc := by
  rcases acc with - | ⟨a, acc⟩
  · rfl
  · cases a <;> rfl

theorem reduceStep_rootDir (ups : ℕ) (acc : List Component) :
    reduceStep (ups, acc) .rootDir = (ups, .rootDir :: acc) := by
  rcases acc with - | ⟨a, acc⟩
  · rfl
  · cases a <;> rfl

theorem reduceStep_normal (ups : ℕ) (acc : List Component) (s : String) :
    reduceStep (ups, acc) (.normal s) = (ups, .normal s :: acc) := by
  rcases acc with - | ⟨a, acc⟩
  · rfl
  · cases a <;> rfl

/-- Climb `n` levels from a path that is kept last component first. -/
def climb : ℕ → List Component → List Component
  | 0, acc => acc
  | n + 1, acc => resolve (climb n acc) .parentDir

theorem climb_succ (n : ℕ) (acc : List Component) :
    climb (n + 1) acc = resolve (climb n acc) .parentDir := rfl

theorem foldl_reduceStep (tail : Path) (ups : ℕ) (acc : List Component)
    (h : .parentDir ∉ acc) : .parentDir ∉ (tail.foldl reduceStep (ups, acc)).2 := by
  induction tail generalizing ups acc with
  | nil => exact h
  | cons c tail ih =>
    rw [List.foldl_cons]
    cases c with
    | curDir => exact ih ups acc h
    | rootDir => rw [reduceStep_rootDir]; exact ih ups _ (by simpa using h)
    | normal s => rw [reduceStep_normal]; exact ih ups _ (by simpa using h)
    | parentDir =>
      cases acc with
      | nil => exact ih (ups + 1) [] (by simp)
      | cons a acc =>
        cases a with
        | normal s => exact ih ups acc (by simpa using h)
        | rootDir => exact ih ups _ h
        | curDir => exact ih (ups + 1) [] (by simp)
        | parentDir => exact absurd List.mem_cons_self h

theorem foldl_resolve (tail : Path) (s : List Component) (ups : ℕ) (acc : List Component)
    (h : .parentDir ∉ acc ∧ .curDir ∉ acc) :
    tail.foldl resolve (acc ++ climb ups s) =
      (tail.foldl reduceStep (ups, acc)).2 ++ climb (tail.foldl reduceStep (ups, acc)).1 s := by
  induction tail generalizing ups acc with
  | nil => rfl
  | cons c tail ih =>
    rw [List.foldl_cons, List.foldl_cons]
    cases c with
    | curDir =>
      rw [resolve_curDir]
      exact ih ups acc h
    | rootDir =>
      rw [resolve_rootDir, reduceStep_rootDir]
      exact ih ups (.rootDir :: acc) (by simpa using h)
    | normal n =>
      rw [resolve_normal, reduceStep_normal]
      exact ih ups (.normal n :: acc) (by simpa using h)
    | parentDir =>
      cases acc with
      | nil => exact ih (ups + 1) [] (by simp)
      | cons a acc =>
        cases a with
        | normal n => exact ih ups acc (by simpa using h)
        | rootDir => exact ih ups _ h
        | curDir => exact absurd List.mem_cons_self h.2
        | parentDir => exact absurd List.mem_cons_self h.1

/-- **The tail of a path acts on the normalised root by its reduction.** -/
theorem normalise_append (root tail : Path) :
    (root ++ tail).normalise =
      (climb tail.reduce.1 root.normalise.reverse).reverse ++ tail.reduce.2 := by
  have := foldl_resolve tail (root.foldl resolve []) 0 [] (by simp)
  rw [normalise, normalise, List.foldl_append, reduce, List.reverse_reverse]
  rw [show root.foldl resolve [] = [] ++ climb 0 (root.foldl resolve []) from rfl, this,
    List.reverse_append]
  rfl

theorem not_mem_reduce (tail : Path) : .parentDir ∉ tail.reduce.2 := by
  have := foldl_reduceStep tail 0 [] (by simp)
  simpa [reduce] using this

/-! ## Going back in -/

/-- The names a normalised root ends in. -/
def names (root : Path) : List Component :=
  (root.normalise.reverse.takeWhile Component.isNormal).reverse

/-- A tail climbs over no more levels than the root has names, the top of an absolute root aside,
and what follows starts with the names it climbed over. -/
def Reenters (root tail : Path) : Prop :=
  (tail.reduce.1 ≤ root.names.length ∨ .rootDir ∈ root.normalise) ∧
    root.names.drop (root.names.length - tail.reduce.1) <+: tail.reduce.2

instance (root tail : Path) : Decidable (Reenters root tail) := by
  unfold Reenters
  infer_instance

/-- Where the names of a resolved path end: at a root, or at levels that could not be resolved. -/
inductive Base : List Component → Prop
  | root (rest : List Component) : Base (.rootDir :: rest)
  | levels (n : ℕ) : Base (List.replicate n .parentDir)

theorem exists_base (p : Path) (acc : List Component)
    (h : ∃ ns base, acc = ns ++ base ∧ (∀ c ∈ ns, c.isNormal = true) ∧ Base base) :
    ∃ ns base, p.foldl resolve acc = ns ++ base ∧ (∀ c ∈ ns, c.isNormal = true) ∧ Base base := by
  induction p generalizing acc with
  | nil => exact h
  | cons c p ih =>
    refine ih _ ?_
    obtain ⟨ns, base, rfl, hn, hb⟩ := h
    cases c with
    | curDir => exact ⟨ns, base, resolve_curDir _, hn, hb⟩
    | rootDir => exact ⟨[], _, resolve_rootDir _, by simp, .root _⟩
    | normal s =>
      exact ⟨.normal s :: ns, base, resolve_normal _ _, by simpa [Component.isNormal] using hn, hb⟩
    | parentDir =>
      cases ns with
      | nil =>
        cases hb with
        | root rest => exact ⟨[], _, rfl, by simp, .root rest⟩
        | levels n =>
          refine ⟨[], _, ?_, by simp, .levels (n + 1)⟩
          cases n <;> rfl
      | cons a ns =>
        have ha := hn a List.mem_cons_self
        cases a with
        | normal s => exact ⟨ns, base, rfl, fun c hc => hn c (List.mem_cons_of_mem _ hc), hb⟩
        | rootDir | curDir | parentDir => simp [Component.isNormal] at ha

theorem climb_names {ns base : List Component} (hn : ∀ c ∈ ns, c.isNormal = true) {n : ℕ}
    (h : n ≤ ns.length) : climb n (ns ++ base) = ns.drop n ++ base := by
  induction n with
  | zero => rfl
  | succ n ih =>
    rw [climb_succ, ih (by omega)]
    obtain ⟨a, ha⟩ : ∃ a, ns.drop n = a :: ns.drop (n + 1) := ⟨_, List.drop_eq_getElem_cons h⟩
    have hm : a ∈ ns := List.mem_of_mem_drop (ha ▸ List.mem_cons_self)
    have := hn a hm
    rw [ha]
    cases a with
    | normal s => rfl
    | rootDir | curDir | parentDir => simp [Component.isNormal] at this

theorem climb_add (m n : ℕ) (acc : List Component) : climb (m + n) acc = climb n (climb m acc) := by
  induction n with
  | zero => rfl
  | succ n ih => rw [← Nat.add_assoc, climb_succ, ih, climb_succ]

theorem climb_root (n : ℕ) (rest : List Component) :
    climb n (.rootDir :: rest) = .rootDir :: rest := by
  induction n with
  | zero => rfl
  | succ n ih => rw [climb_succ, ih]; rfl

theorem climb_levels (n k : ℕ) :
    climb n (List.replicate k .parentDir) = List.replicate (k + n) .parentDir := by
  induction n with
  | zero => rfl
  | succ n ih =>
    rw [climb_succ, ih, ← Nat.add_assoc, List.replicate_succ]
    cases k + n <;> rfl

theorem takeWhile_names {ns base : List Component} (hn : ∀ c ∈ ns, c.isNormal = true)
    (hb : Base base) : (ns ++ base).takeWhile Component.isNormal = ns := by
  rw [List.takeWhile_append_of_pos hn]
  cases hb with
  | root rest => simp [Component.isNormal]
  | levels n => cases n <;> simp [List.replicate_succ, Component.isNormal]

/-- **A tail stays at or below the root exactly when it enters again what it climbs over.** -/
theorem under_append_iff (root tail : Path) : Under (root ++ tail) root ↔ Reenters root tail := by
  obtain ⟨ns, base, hs, hn, hb⟩ := exists_base root [] ⟨[], [], rfl, by simp, .levels 0⟩
  have hroot : root.normalise = base.reverse ++ ns.reverse := by
    rw [normalise, hs, List.reverse_append]
  have hnames : root.names = ns.reverse := by
    rw [names, hroot, ← List.reverse_append, List.reverse_reverse, takeWhile_names hn hb]
  have hdots : .parentDir ∉ ns := fun hm => by simpa [Component.isNormal] using hn _ hm
  have htail := not_mem_reduce tail
  rw [Under, normalise_append, Reenters, hnames, hroot, ← List.reverse_append,
    List.reverse_reverse]
  generalize tail.reduce.1 = n at *
  generalize tail.reduce.2 = below at *
  by_cases hle : n ≤ ns.length
  · -- only names are climbed over
    have hcut : ns.reverse = (ns.drop n).reverse ++ (ns.take n).reverse := by
      rw [← List.reverse_append, List.take_append_drop]
    have hlast : ns.reverse.drop (ns.reverse.length - n) = (ns.take n).reverse := by
      rw [List.length_reverse, List.drop_reverse, Nat.sub_sub_self hle]
    rw [climb_names hn hle, hlast]
    constructor
    · rintro ⟨rest, h, -⟩
      rw [List.reverse_append, List.reverse_append, hcut] at h
      refine ⟨.inl (by simpa using hle), rest, ?_⟩
      simpa [List.append_assoc] using h.symm
    · rintro ⟨-, rest, rfl⟩
      refine ⟨rest, ?_, fun hm => htail (List.mem_append_right _ hm)⟩
      rw [List.reverse_append, List.reverse_append, hcut]
      simp only [List.append_assoc]
  · -- the base is reached
    obtain ⟨k, rfl⟩ := Nat.exists_eq_add_of_lt (Nat.lt_of_not_le hle)
    have hall : ns.reverse.drop (ns.reverse.length - (ns.length + k + 1)) = ns.reverse := by
      rw [List.length_reverse, Nat.sub_eq_zero_of_le (by omega), List.drop_zero]
    rw [Nat.add_assoc, climb_add, climb_names hn (Nat.le_refl _), List.drop_length,
      List.nil_append, ← Nat.add_assoc, hall]
    cases hb with
    | root rest =>
      rw [climb_root]
      constructor
      · rintro ⟨more, h, -⟩
        refine ⟨.inr (by simp), more, ?_⟩
        rw [List.reverse_append, List.append_assoc] at h
        exact (List.append_cancel_left h).symm
      · rintro ⟨-, more, rfl⟩
        refine ⟨more, ?_, fun hm => htail (List.mem_append_right _ hm)⟩
        rw [List.reverse_append, List.append_assoc]
    | levels j =>
      rw [climb_levels]
      constructor
      · rintro ⟨more, h, hm⟩
        -- an unresolved level would be a name of the root, or lie below it
        rw [List.reverse_append, List.reverse_replicate, List.reverse_replicate, List.append_assoc,
          ← List.replicate_append_replicate, List.append_assoc] at h
        have h := List.append_cancel_left h
        have : .parentDir ∈ ns.reverse ++ more := by
          rw [← h]
          exact List.mem_append_left _ (by simp)
        rcases List.mem_append.mp this with h1 | h1
        · exact absurd (List.mem_reverse.mp h1) hdots
        · exact absurd h1 hm
      · rintro ⟨h | h, -⟩
        · rw [List.length_reverse] at h
          omega
        · rcases List.mem_append.mp (List.mem_reverse.mp h) with h1 | h1
          · simpa [Component.isNormal] using hn _ h1
          · simpa using (List.mem_replicate.mp h1).2

end Path

end Termesh
