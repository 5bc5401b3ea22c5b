import Mathlib.Data.List.Forall2
import Mathlib.Data.String.Basic
import Mathlib.Tactic.Common

/-!
# TOML documents

The tree of a document as an editor of such documents holds it, and what writing it out and reading
it back keeps.

* `Item`, `Table`: strings, arrays, tables and arrays of tables; every other value is its text;
* `Table.get`, `Table.set` and how they meet;
* `Blank`: what has no text of its own;
* `Same`: the same tables, arrays and strings, up to the order of keys and what is blank;
* `Format`, `Format.Preserves`: a reader and a writer, and the documents that are read back.
-/

namespace Toml

/-- What a key of a document holds. -/
inductive Item where
  | string (s : String)
  | array (items : List Item)
  | table (fields : List (String × Item))
  | tables (each : List (List (String × Item)))
  /-- A number, a boolean, a date or an inline table. -/
  | other (text : String)

/-- A table: its keys with what they hold. -/
abbrev Table := List (String × Item)

namespace Table

/-- What a key holds. -/
def get (t : Table) (key : String) : Option Item :=
  (t.find? fun field => field.1 = key).map (·.2)

/-- Put an item under a key, in place of what the key held. -/
def set : Table → String → Item → Table
  | [], key, item => [(key, item)]
  | field :: t, key, item =>
    if field.1 = key then (key, item) :: t else field :: set t key item

@[simp] theorem get_nil (key : String) : get [] key = none := rfl

theorem get_cons (field : String × Item) (t : Table) (key : String) :
    get (field :: t) key = if field.1 = key then some field.2 else get t key := by
  unfold get
  rw [List.find?_cons]
  by_cases h : field.1 = key <;> simp [h]

@[simp] theorem get_set (t : Table) (key : String) (item : Item) :
    (t.set key item).get key = some item := by
  induction t with
  | nil => simp [set, get_cons]
  | cons field t ih =>
    rw [set]
    split
    · simp [get_cons]
    · rw [get_cons, if_neg ‹_›, ih]

theorem mem_of_get {t : Table} {key : String} {item : Item} (h : t.get key = some item) :
    (key, item) ∈ t := by
  induction t with
  | nil => cases h
  | cons field t ih =>
    rw [get_cons] at h
    split at h
    · cases h
      subst key
      exact List.mem_cons_self
    · exact List.mem_cons_of_mem field (ih h)

theorem get_isSome_of_mem {t : Table} {field : String × Item} (h : field ∈ t) :
    (t.get field.1).isSome := by
  induction t with
  | nil => cases h
  | cons other t ih =>
    rw [get_cons]
    split
    · rfl
    · rcases List.mem_cons.1 h with rfl | h
      · contradiction
      · exact ih h

end Table

/-- An array of no table has no text, nor has a table that holds nothing else. -/
inductive Blank : Item → Prop where
  | tables : Blank (.tables [])
  | table {t : Table} (h : ∀ key x, t.get key = some x → Blank x) : Blank (.table t)

theorem Blank.eq_nil {ts : List Table} (h : Blank (.tables ts)) : ts = [] := by
  cases h
  rfl

theorem Blank.of_get {t : Table} (h : Blank (.table t)) {key : String} {x : Item}
    (hx : t.get key = some x) : Blank x := by
  cases h with
  | table h => exact h key x hx

/-- The same tables, arrays and strings. What is blank may be gone. -/
inductive Same : Item → Item → Prop where
  | string (s : String) : Same (.string s) (.string s)
  | array {xs ys : List Item} (h : List.Forall₂ Same xs ys) : Same (.array xs) (.array ys)
  | table {t u : Table} (new : ∀ key, t.get key = none → u.get key = none)
      (gone : ∀ key x, t.get key = some x → u.get key = none → Blank x)
      (held : ∀ key x y, t.get key = some x → u.get key = some y → Same x y) :
      Same (.table t) (.table u)
  | tables {ts us : List Table} (h : List.Forall₂ Same (ts.map .table) (us.map .table)) :
      Same (.tables ts) (.tables us)
  | other (s : String) : Same (.other s) (.other s)

theorem Same.refl : ∀ x : Item, Same x x
  | .string s => .string s
  | .array xs => .array <| List.forall₂_same.2 fun x hx => by
      have := List.sizeOf_lt_of_mem hx
      exact Same.refl x
  | .table t => .table (fun _ h => h) (fun _ _ h hnone => by rw [h] at hnone; cases hnone)
      fun key x y hx hy => by
        have hm := Table.mem_of_get hx
        have := List.sizeOf_lt_of_mem hm
        rw [hx] at hy
        cases hy
        exact Same.refl x
  | .tables ts => .tables <| List.forall₂_same.2 fun x hx => by
      have hm : ∃ t ∈ ts, Item.table t = x := List.mem_map.1 hx
      have := List.sizeOf_lt_of_mem hm.choose_spec.1
      rw [← hm.choose_spec.2]
      exact Same.refl (.table hm.choose)
  | .other s => .other s
termination_by x => sizeOf x
decreasing_by
  · simp_wf; omega
  · simp_wf; simp at *; omega
  · simp_wf; simp at *; omega

/-- What a key holds stays there, up to `Same`. -/
theorem Same.get {t u : Table} (h : Same (.table t) (.table u)) (key : String) {x : Item}
    (hx : t.get key = some x) (hne : ¬Blank x) : ∃ y, u.get key = some y ∧ Same x y := by
  cases h with
  | table _ gone held =>
    cases hy : u.get key with
    | some y => exact ⟨y, rfl, held key x y hx hy⟩
    | none => exact absurd (gone key x hx hy) hne

theorem Same.get_none {t u : Table} (h : Same (.table t) (.table u)) {key : String}
    (hx : t.get key = none) : u.get key = none := by
  cases h with
  | table new _ _ => exact new key hx

theorem Same.strings {ss : List String} {ys : List Item}
    (h : List.Forall₂ Same (ss.map .string) ys) : ys = ss.map .string := by
  induction ss generalizing ys with
  | nil => cases h; rfl
  | cons s ss ih =>
    cases h with
    | cons hs hss =>
      cases hs
      rw [ih hss]
      rfl

/-! ## Reading and writing -/

/-- A reader of documents, which may say why it refuses a text, and a writer. -/
structure Format where
  parse : String → Except String Table
  print : Table → String

/-- The document is read back from what is written of it, with its tables, arrays and strings. -/
def Format.Preserves (f : Format) (t : Table) : Prop :=
  ∃ u, f.parse (f.print t) = .ok u ∧ Same (.table t) (.table u)

end Toml
