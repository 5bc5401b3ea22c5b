import Mathlib.Algebra.Group.Int.Defs
import Mathlib.Data.Int.Notation
import Mathlib.Data.List.Forall2
import Mathlib.Data.List.Sort
import Mathlib.Data.Option.Basic
import Mathlib.Data.String.Basic
import Mathlib.Tactic.Common

/-!
# Values of TOML documents

What a document says, whatever way it is written: an inline table is a table, and the order of keys
does not count.

* `Value`, `Fields`, `Fields.get`: values, and the keys of a table;
* `Fields.sorted`, **`get_sorted`**: the keys in order;
* `Value.Same`: one value, up to the order of keys;
* `Unknown`, `Unknown.rest`: the keys of a table that a reader does not know;
* `TextFormat`, `TextFormat.Preserves`: a reader and a writer.
-/

namespace Toml

inductive Value where
  | string (s : String)
  | integer (n : ℤ)
  | float (bits : UInt64)
  | boolean (b : Bool)
  | datetime (text : String)
  | array (items : List Value)
  | table (fields : List (String × Value))

/-- The keys of a table, with what they hold. -/
abbrev Fields := List (String × Value)

namespace Fields

def get (t : Fields) (key : String) : Option Value :=
  (t.find? fun field => field.1 = key).map (·.2)

@[simp] theorem get_nil (key : String) : get [] key = none := rfl

theorem get_cons (field : String × Value) (t : Fields) (key : String) :
    get (field :: t) key = if field.1 = key then some field.2 else get t key := by
  unfold get
  rw [List.find?_cons]
  by_cases h : field.1 = key <;> simp [h]

theorem get_append (t u : Fields) (key : String) :
    get (t ++ u) key = (get t key).or (get u key) := by
  induction t with
  | nil => rfl
  | cons field t ih =>
    rw [List.cons_append, get_cons, get_cons, ih]
    by_cases h : field.1 = key <;> simp [h]

theorem get_eq_none {t : Fields} {key : String} (h : ∀ field ∈ t, field.1 ≠ key) :
    get t key = none := by
  induction t with
  | nil => rfl
  | cons field t ih =>
    rw [get_cons, if_neg (h field List.mem_cons_self)]
    exact ih fun f hf => h f (List.mem_cons_of_mem field hf)

theorem mem_of_get {t : Fields} {key : String} {v : Value} (h : get t key = some v) :
    (key, v) ∈ t := by
  induction t with
  | nil => cases h
  | cons field t ih =>
    rw [get_cons] at h
    by_cases hkey : field.1 = key
    · rw [if_pos hkey] at h
      rw [← hkey, ← Option.some.inj h]
      exact List.mem_cons_self
    · rw [if_neg hkey] at h
      exact List.mem_cons_of_mem field (ih h)

theorem get_filter (t : Fields) (p : String → Bool) (key : String) :
    get (t.filter fun field => p field.1) key = if p key then get t key else none := by
  induction t with
  | nil => simp
  | cons field t ih =>
    rw [List.filter_cons, get_cons]
    by_cases hkey : field.1 = key
    · subst hkey
      by_cases hp : p field.1 = true
      · rw [if_pos hp, if_pos hp, get_cons, if_pos rfl, if_pos rfl]
      · rw [if_neg hp, ih, if_neg hp, if_neg hp]
    · rw [if_neg hkey, ← ih]
      by_cases hp : p field.1 = true
      · rw [if_pos hp, get_cons, if_neg hkey]
      · rw [if_neg hp]

/-- The keys in order, as an ordered map holds them. -/
def sorted (t : Fields) : Fields := t.insertionSort fun a b => a.1 ≤ b.1

/-- **Sorting does not change what a key holds.** -/
theorem get_sorted (t : Fields) (key : String) : get t.sorted key = get t key := by
  have hinsert : ∀ (field : String × Value) (u : Fields),
      get (u.orderedInsert (fun a b => a.1 ≤ b.1) field) key =
        if field.1 = key then some field.2 else get u key := by
    intro field u
    induction u with
    | nil => simp [get_cons]
    | cons other u ih =>
      rw [List.orderedInsert_cons]
      by_cases hle : field.1 ≤ other.1
      · rw [if_pos hle, get_cons]
      · -- the other key is a different one
        have hne : ¬ (field.1 = key ∧ other.1 = key) := by
          rintro ⟨hfield, hother⟩
          exact hle (le_of_eq (hfield.trans hother.symm))
        rw [if_neg hle, get_cons, ih, get_cons]
        by_cases hfield : field.1 = key
        · rw [if_pos hfield, if_pos hfield, if_neg fun hother => hne ⟨hfield, hother⟩]
        · rw [if_neg hfield, if_neg hfield]
  induction t with
  | nil => rfl
  | cons field t ih =>
    show get ((sorted t).orderedInsert _ field) key = _
    rw [hinsert, ih, get_cons]

theorem mem_sorted {t : Fields} {field : String × Value} : field ∈ t.sorted ↔ field ∈ t :=
  List.mem_insertionSort _

end Fields

/-- One value, up to the order of keys. -/
inductive Value.Same : Value → Value → Prop
  | string (s : String) : Same (.string s) (.string s)
  | integer (n : ℤ) : Same (.integer n) (.integer n)
  | float (bits : UInt64) : Same (.float bits) (.float bits)
  | boolean (b : Bool) : Same (.boolean b) (.boolean b)
  | datetime (text : String) : Same (.datetime text) (.datetime text)
  | array {xs ys : List Value} (h : List.Forall₂ Same xs ys) : Same (.array xs) (.array ys)
  | table {t u : Fields} (h : ∀ key, Option.Rel Same (t.get key) (u.get key)) :
      Same (.table t) (.table u)

namespace Value.Same

theorem refl : ∀ v : Value, Same v v
  | .string s => .string s
  | .integer n => .integer n
  | .float bits => .float bits
  | .boolean b => .boolean b
  | .datetime text => .datetime text
  | .array xs => .array <| List.forall₂_same.2 fun x hx => by
      have := List.sizeOf_lt_of_mem hx
      exact refl x
  | .table t => .table fun key => by
      cases hx : Fields.get t key with
      | none => exact .none
      | some x =>
        have := List.sizeOf_lt_of_mem (Fields.mem_of_get hx)
        exact .some (refl x)
termination_by v => sizeOf v
decreasing_by
  · simp_wf; omega
  · simp_wf; simp at *; omega

theorem get {t u : Fields} (h : Same (.table t) (.table u)) (key : String) :
    Option.Rel Same (t.get key) (u.get key) := by
  cases h with
  | table h => exact h key

theorem get_some {t u : Fields} (h : Same (.table t) (.table u)) {key : String} {v : Value}
    (hv : t.get key = some v) : ∃ w, u.get key = some w ∧ Same v w := by
  have hkey := h.get key
  rw [hv] at hkey
  cases hw : u.get key with
  | none =>
    rw [hw] at hkey
    cases hkey
  | some w =>
    rw [hw] at hkey
    cases hkey with
    | some hvw => exact ⟨w, rfl, hvw⟩

theorem get_none {t u : Fields} (h : Same (.table t) (.table u)) {key : String}
    (hv : t.get key = none) : u.get key = none := by
  have hkey := h.get key
  rw [hv] at hkey
  cases hw : u.get key with
  | none => rfl
  | some w =>
    rw [hw] at hkey
    cases hkey

theorem of_table {t : Fields} {v : Value} (h : Same (.table t) v) :
    ∃ u, v = .table u ∧ Same (.table t) (.table u) := by
  cases h with
  | table h => exact ⟨_, rfl, .table h⟩

theorem of_array {xs : List Value} {v : Value} (h : Same (.array xs) v) :
    ∃ ys, v = .array ys ∧ List.Forall₂ Same xs ys := by
  cases h with
  | array h => exact ⟨_, rfl, h⟩

end Value.Same

/-- The keys of a table besides those that a reader knows. -/
structure Unknown (known : List String) where
  fields : Fields
  fresh : ∀ field ∈ fields, field.1 ∉ known

namespace Unknown

variable {known : List String}

/-- No other key. -/
def none : Unknown known := ⟨[], fun _ h => nomatch h⟩

/-- The keys of a table that are not known, as an ordered map. -/
def rest (known : List String) (t : Fields) : Unknown known where
  fields := Fields.sorted (t.filter fun field => field.1 ∉ known)
  fresh field h := by
    have hfilter := (List.mem_filter.mp (Fields.mem_sorted.mp h)).2
    simpa using hfilter

theorem get_of_mem (e : Unknown known) {key : String} (h : key ∈ known) :
    e.fields.get key = .none :=
  Fields.get_eq_none fun field hf hkey => e.fresh field hf (hkey ▸ h)

theorem get_rest (t : Fields) {key : String} (h : key ∉ known) :
    (rest known t).fields.get key = t.get key := by
  have hfilter := Fields.get_filter t (fun key => decide (key ∉ known)) key
  rw [if_pos (decide_eq_true h)] at hfilter
  rw [rest, Fields.get_sorted, hfilter]

theorem get_append_of_notMem {t : Fields} (ht : ∀ field ∈ t, field.1 ∈ known) (e : Unknown known)
    {key : String} (h : key ∉ known) : Fields.get (t ++ e.fields) key = e.fields.get key := by
  have hnone : t.get key = .none := Fields.get_eq_none fun field hf hkey => h (hkey ▸ ht field hf)
  rw [Fields.get_append, hnone]
  rfl

theorem get_append_of_mem (t : Fields) (e : Unknown known) {key : String} (h : key ∈ known) :
    Fields.get (t ++ e.fields) key = t.get key := by
  rw [Fields.get_append, e.get_of_mem h, Option.or_none]

end Unknown

/-- A reader of documents and a writer; the reader says why it refuses a text. -/
structure TextFormat where
  parse : String → Option Fields
  error : String → String
  print : Fields → String

/-- Writing a document and reading it back gives the document. -/
def TextFormat.Preserves (f : TextFormat) (t : Fields) : Prop :=
  ∃ u, f.parse (f.print t) = some u ∧ Value.Same (.table t) (.table u)

end Toml
