import Termesh.Config.KeymapFile

/-!
# The lines of a keymap file

What a file promises of each of its lines: in force or reported, a bad one alone in it.

* `IsEntry`, `without`: the lines of a document, and the document without one of them;
* `Loads`, `deserialize_eq_some`: the documents that are read;
* `Accepted`, **`lookup_accepted`**: where no two lines quarrel, a chord does what its line says;
* **`text_of_names`**: a problem that names a line shows its chord or its action;
* `Reported`, **`isReported_iff`**: what is said names the lines that are not taken, and no others;
* `Honoured`: the promise; `Fits`: a document it is kept for;
* **`honoured_iff`**: those are all.
-/

namespace Termesh

namespace Config

open Toml (Fields)
open Workspace (asString fieldOr)

/-! ## The lines of a document -/

/-- A line of the table of a context. -/
def IsEntry (t : Fields) (context : KeyContext) (chordText : String) (value : Toml.Value) : Prop :=
  ∃ fields, t.get (contextKey context) = some (.table fields) ∧ (chordText, value) ∈ fields

/-- The table without a key. -/
def withoutKey (chordText : String) : Toml.Value → Toml.Value
  | .table fields => .table (fields.filter fun field => field.1 ≠ chordText)
  | value => value

/-- The document without a line. -/
def without (t : Fields) (context : KeyContext) (chordText : String) : Fields :=
  t.map fun field =>
    if field.1 = contextKey context then (field.1, withoutKey chordText field.2) else field

theorem get_without (t : Fields) (context : KeyContext) (chordText key : String) :
    (without t context chordText).get key =
      if key = contextKey context then (t.get key).map (withoutKey chordText) else t.get key := by
  unfold without
  induction t with
  | nil => simp
  | cons field t ih =>
    rw [List.map_cons, Fields.get_cons, ih, Fields.get_cons]
    by_cases hfield : field.1 = contextKey context <;> by_cases hkey : field.1 = key <;>
      by_cases hcontext : key = contextKey context <;> simp_all

theorem contextKey_injective : Function.Injective contextKey := by
  intro a b h
  cases a <;> cases b <;> first | rfl | exact absurd h (by decide)

theorem isEntry_without {t : Fields} {context other : KeyContext} {chordText text : String}
    {value : Toml.Value} : IsEntry (without t context chordText) other text value ↔
      IsEntry t other text value ∧ (other = context → text ≠ chordText) := by
  unfold IsEntry
  rw [get_without]
  by_cases hother : other = context
  · subst hother
    rw [if_pos rfl]
    cases hget : t.get (contextKey other) with
    | none => simp
    | some held => cases held <;> simp [withoutKey]
  · rw [if_neg fun h => hother (contextKey_injective h)]
    simp [hother]

/-! ## Reading a document -/

/-- A document of the schema: the version is a number, a context a table of texts. -/
structure Loads (t : Fields) : Prop where
  version : ∀ value, t.get "version" = some value →
    ∃ n : ℤ, value = .integer n ∧ 0 ≤ n ∧ n < 2 ^ 32
  entries : ∀ context value, t.get (contextKey context) = some value →
    ∃ fields, value = .table fields ∧ ∀ field ∈ fields, ∃ id, field.2 = .string id

theorem asU32_isSome {value : Toml.Value} :
    (∃ n, asU32 value = some n) ↔ ∃ n : ℤ, value = .integer n ∧ 0 ≤ n ∧ n < 2 ^ 32 := by
  cases value with
  | integer n =>
    simp only [asU32, Option.ite_none_right_eq_some, Option.some.injEq, Toml.Value.integer.injEq,
      exists_and_left, exists_eq', and_true, exists_eq_left']
  | _ => exact iff_of_false (fun ⟨_, h⟩ => nomatch h) fun ⟨_, h, _⟩ => nomatch h

theorem mapM_entries {fields : Fields} {entries : List (String × String)} :
    (fields.mapM fun field => (asString field.2).map fun id => (field.1, id)) = some entries ↔
      fields = entries.map fun entry => (entry.1, .string entry.2) := by
  induction fields generalizing entries with
  | nil => cases entries <;> simp
  | cons field fields ih =>
    obtain ⟨key, value⟩ := field
    rw [List.mapM_cons]
    cases hvalue : asString value with
    | none =>
      have hno (id : String) : value ≠ .string id := by
        rintro rfl
        cases hvalue
      cases entries <;> simp [hno]
    | some id =>
      obtain rfl : value = .string id := by
        cases value <;> simp_all [asString]
      cases entries with
      | nil =>
        cases (fields.mapM fun field => (asString field.2).map fun id => (field.1, id)) <;> simp
      | cons entry entries =>
        rw [List.map_cons, List.cons.injEq, ← ih]
        cases (fields.mapM fun field => (asString field.2).map fun id => (field.1, id)) <;>
          simp [Prod.ext_iff]

theorem asBindings_isSome {value : Toml.Value} : (∃ entries, asBindings value = some entries) ↔
    ∃ fields, value = .table fields ∧ ∀ field ∈ fields, ∃ id, field.2 = .string id := by
  cases value with
  | table fields =>
    simp only [asBindings, mapM_entries, Toml.Value.table.injEq, exists_eq_left']
    constructor
    · rintro ⟨entries, hsorted⟩ field hmem
      rw [← Fields.mem_sorted, hsorted] at hmem
      obtain ⟨entry, -, rfl⟩ := List.mem_map.mp hmem
      exact ⟨entry.2, rfl⟩
    · intro hall
      refine ⟨(Fields.sorted fields).map fun field => (field.1, (asString field.2).getD ""), ?_⟩
      rw [List.map_map]
      refine (List.map_id _).symm.trans (List.map_congr_left fun field hmem => ?_)
      obtain ⟨id, hid⟩ := hall field (Fields.mem_sorted.mp hmem)
      simp [Prod.ext_iff, hid, asString]
  | _ => simp [asBindings]

theorem mem_asBindings {value : Toml.Value} {entries : List (String × String)}
    (h : asBindings value = some entries) (chordText id : String) :
    (chordText, id) ∈ entries ↔
      ∃ fields, value = .table fields ∧ (chordText, .string id) ∈ fields := by
  cases value with
  | table fields =>
    rw [asBindings, mapM_entries] at h
    simp only [Toml.Value.table.injEq, exists_eq_left', ← Fields.mem_sorted (t := fields), h]
    simp [Prod.ext_iff]
  | _ => simp [asBindings] at h

theorem deserialize_eq_some {t : Fields} {file : KeymapFile} :
    KeymapFile.deserialize t = some file ↔
      fieldOr t "version" currentVersion asU32 = some file.version ∧
        ∀ context, fieldOr t (contextKey context) [] asBindings = some (file.table context) := by
  unfold KeymapFile.deserialize
  simp only [Option.bind_eq_bind, Option.bind_eq_some_iff, Option.pure_def, Option.some.injEq]
  constructor
  · rintro ⟨version, hversion, global, hglobal, project, hproject, editor, heditor, terminal,
      hterminal, agent, hagent, rfl⟩
    refine ⟨hversion, fun context => ?_⟩
    cases context <;> assumption
  · rintro ⟨hversion, htable⟩
    exact ⟨_, hversion, _, htable .global, _, htable .project, _, htable .editor, _,
      htable .terminal, _, htable .agent, rfl⟩

theorem fieldOr_isSome {α : Type} {t : Fields} {key : String} {default : α}
    {read : Toml.Value → Option α} : (∃ a, fieldOr t key default read = some a) ↔
      ∀ value, t.get key = some value → ∃ a, read value = some a := by
  unfold fieldOr
  cases t.get key <;> simp

theorem deserialize_isSome {t : Fields} :
    (∃ file, KeymapFile.deserialize t = some file) ↔ Loads t := by
  simp only [deserialize_eq_some]
  constructor
  · rintro ⟨file, hversion, htable⟩
    refine ⟨fun value hget => ?_, fun context value hget => ?_⟩
    · exact asU32_isSome.mp (fieldOr_isSome.mp ⟨_, hversion⟩ value hget)
    · exact asBindings_isSome.mp (fieldOr_isSome.mp ⟨_, htable context⟩ value hget)
  · intro hloads
    obtain ⟨version, hversion⟩ := (@fieldOr_isSome _ t "version" currentVersion asU32).mpr
      fun value hget => asU32_isSome.mpr (hloads.version value hget)
    have htable (context : KeyContext) :
        ∃ entries, fieldOr t (contextKey context) [] asBindings = some entries :=
      fieldOr_isSome.mpr fun value hget => asBindings_isSome.mpr (hloads.entries context value hget)
    choose table htable using htable
    refine ⟨{ version, global := table .global, project := table .project, editor := table .editor,
              terminal := table .terminal, agent := table .agent }, hversion, fun context => ?_⟩
    rw [htable context]
    cases context <;> rfl

theorem mem_table {t : Fields} {file : KeymapFile} (h : KeymapFile.deserialize t = some file)
    (context : KeyContext) (chordText id : String) :
    (chordText, id) ∈ file.table context ↔ IsEntry t context chordText (.string id) := by
  have htable := (deserialize_eq_some.mp h).2 context
  rw [fieldOr] at htable
  unfold IsEntry
  cases hget : t.get (contextKey context) with
  | none =>
    rw [hget] at htable
    simp [← Option.some.inj htable]
  | some value =>
    rw [hget] at htable
    simp [mem_asBindings htable chordText id]

theorem string_of_isEntry {t : Fields} (h : Loads t) {context : KeyContext} {chordText : String}
    {value : Toml.Value} (hentry : IsEntry t context chordText value) :
    ∃ id, value = .string id := by
  obtain ⟨fields, hget, hmem⟩ := hentry
  obtain ⟨others, hothers, hall⟩ := h.entries context _ hget
  rw [Toml.Value.table.injEq] at hothers
  exact hall _ (hothers ▸ hmem)

/-! ## What is taken -/

/-- A line that is bound, and what for. -/
def Accepted (chordText : String) (value : Toml.Value) (chord : KeyChord) (action : Action) :
    Prop :=
  parseChord chordText = .ok chord ∧ chord.isTerminalAmbiguous = false ∧
    ∃ id, value = .string id ∧ actionOf id = some action

theorem bindEntry_ok {chordText id : String} {chord : KeyChord} {action : Action} :
    bindEntry chordText id = .ok (chord, action) ↔
      Accepted chordText (.string id) chord action := by
  unfold bindEntry Accepted
  cases hchord : parseChord chordText with
  | error reason => simp
  | ok parsed =>
    by_cases hparsed : parsed = chord
    · subst hparsed
      cases hambiguous : parsed.isTerminalAmbiguous <;> cases haction : actionOf id <;>
        simp [hambiguous, haction]
    · cases hambiguous : parsed.isTerminalAmbiguous <;> cases actionOf id <;>
        simp [hparsed, hambiguous]

theorem bindEntry_error {chordText id : String} {problem : KeymapProblem}
    (h : bindEntry chordText id = .error problem) :
    (∃ reason, parseChord chordText = .error reason ∧ problem = .badChord chordText reason) ∨
      (∃ chord, parseChord chordText = .ok chord ∧ chord.isTerminalAmbiguous = true ∧
        problem = .undeliverable chordText) ∨
      actionOf id = none ∧ problem = .unknownAction id := by
  rw [bindEntry] at h
  cases hchord : parseChord chordText with
  | error reason =>
    simp only [hchord, Except.error.injEq] at h
    exact .inl ⟨reason, rfl, h.symm⟩
  | ok chord =>
    by_cases hambiguous : chord.isTerminalAmbiguous = true
    · simp only [hchord, hambiguous, if_true, Except.error.injEq] at h
      exact .inr (.inl ⟨chord, rfl, hambiguous, h.symm⟩)
    · cases haction : actionOf id with
      | none =>
        simp only [hchord, hambiguous, Bool.false_eq_true, if_false, haction,
          Except.error.injEq] at h
        exact .inr (.inr ⟨rfl, h.symm⟩)
      | some action => simp [hchord, hambiguous, haction] at h

/-- **A chord does what a line of its context says, or what it did.** -/
theorem lookup_applyFile {t : Fields} {file : KeymapFile}
    (h : KeymapFile.deserialize t = some file) (keymap : Keymap) (context : KeyContext)
    (chord : KeyChord) :
    (∃ chordText value action, IsEntry t context chordText value ∧
        Accepted chordText value chord action ∧
        (applyFile keymap t file).1.lookup (context, chord) = some (.action action)) ∨
      (∀ chordText value action, IsEntry t context chordText value →
        ¬ Accepted chordText value chord action) ∧
        (applyFile keymap t file).1.lookup (context, chord) = keymap.lookup (context, chord) := by
  rw [applyFile_eq]
  rcases Tables.Table.lookup_inserts (bindings file) keymap (context, chord) with
    ⟨command, hmem, hlookup⟩ | ⟨hno, hlookup⟩
  · obtain ⟨chordText, id, action, hentry, hbound, rfl⟩ := mem_bindings.mp hmem
    exact .inl ⟨chordText, .string id, action, (mem_table h context chordText id).mp hentry,
      bindEntry_ok.mp hbound, hlookup⟩
  · refine .inr ⟨fun chordText value action hentry haccepted => hno ?_, hlookup⟩
    obtain ⟨id, rfl, -⟩ := haccepted.2.2
    exact List.mem_map.mpr ⟨_, mem_bindings.mpr ⟨chordText, id, action,
      (mem_table h context chordText id).mpr hentry, bindEntry_ok.mpr haccepted, rfl⟩, rfl⟩

/-- No two lines of a context bind one chord to two actions. -/
def Agrees (t : Fields) : Prop :=
  ∀ context chordText₁ value₁ chordText₂ value₂ chord action₁ action₂,
    IsEntry t context chordText₁ value₁ → IsEntry t context chordText₂ value₂ →
    Accepted chordText₁ value₁ chord action₁ → Accepted chordText₂ value₂ chord action₂ →
    action₁ = action₂

theorem lookup_accepted {t : Fields} {file : KeymapFile}
    (h : KeymapFile.deserialize t = some file) (hagrees : Agrees t) (keymap : Keymap)
    {context : KeyContext} {chordText : String} {value : Toml.Value} {chord : KeyChord}
    {action : Action} (hentry : IsEntry t context chordText value)
    (haccepted : Accepted chordText value chord action) :
    (applyFile keymap t file).1.lookup (context, chord) = some (.action action) := by
  rcases lookup_applyFile h keymap context chord with
    ⟨otherText, otherValue, other, hother, hbound, hlookup⟩ | ⟨hno, -⟩
  · rw [hlookup, hagrees context _ _ _ _ chord _ _ hother hentry hbound haccepted]
  · exact absurd haccepted (hno chordText value action hentry)

/-! ## What is reported -/

/-- A problem that names a line, by its chord or its action. -/
def KeymapProblem.Names (chordText : String) (value : Toml.Value) : KeymapProblem → Prop
  | .badChord chord _ => chord = chordText
  | .undeliverable chord => chord = chordText
  | .unknownAction id => value = .string id
  | _ => False

/-- **What names a line shows it**: its chord or its action stands in the text. -/
theorem text_of_names {problem : KeymapProblem} {chordText : String} {value : Toml.Value}
    (h : problem.Names chordText value) :
    (∃ rest, problem.text = "'" ++ chordText ++ "'" ++ rest) ∨
      ∃ id, value = .string id ∧ problem.text = "unknown action id '" ++ id ++ "'" := by
  cases problem with
  | badChord chord reason =>
    obtain rfl : chord = chordText := h
    refine .inl ⟨": " ++ reason, ?_⟩
    have hquote : "': " = "'" ++ ": " := by decide
    show "'" ++ chord ++ "': " ++ reason = _
    rw [hquote, ← String.append_assoc, ← String.append_assoc]
  | undeliverable chord =>
    obtain rfl : chord = chordText := h
    refine .inl ⟨" cannot be delivered by a terminal", ?_⟩
    have hquote : "' cannot be delivered by a terminal" =
        "'" ++ " cannot be delivered by a terminal" := by decide
    show "'" ++ chord ++ "' cannot be delivered by a terminal" = _
    rw [hquote, ← String.append_assoc]
  | unknownAction id => exact .inr ⟨id, h, rfl⟩
  | toml | unknownKey | newerVersion => cases h

/-- A line is named by some problem. -/
def Reported (problems : List ConfigDiagnostic) (chordText : String) (value : Toml.Value) : Prop :=
  ∃ d ∈ problems, d.problem.Names chordText value

theorem not_names_documentProblems {t : Fields} {file : KeymapFile} {d : ConfigDiagnostic}
    (h : d ∈ documentProblems t file) (chordText : String) (value : Toml.Value) :
    ¬ d.problem.Names chordText value := by
  rw [documentProblems, List.mem_append] at h
  rcases h with h | h
  · obtain ⟨key, -, rfl⟩ := List.mem_map.mp h
    exact id
  · split at h
    · obtain rfl := List.mem_singleton.mp h
      exact id
    · cases h

/-- **The lines that are reported are the ones that are not taken.** -/
theorem isReported_iff {t : Fields} {file : KeymapFile} (h : KeymapFile.deserialize t = some file)
    (keymap : Keymap) {context : KeyContext} {chordText id : String}
    (hentry : IsEntry t context chordText (.string id)) :
    Reported (applyFile keymap t file).2 chordText (.string id) ↔
      ∀ chord action, ¬ Accepted chordText (.string id) chord action := by
  constructor
  · rintro ⟨d, hd, hnames⟩ chord action ⟨hchord, hambiguous, id', hid, haction⟩
    obtain rfl : id = id' := by simpa using hid
    rcases mem_problems.mp hd with hdocument | ⟨_, otherText, otherId, problem, _, herror, rfl⟩
    · exact not_names_documentProblems hdocument _ _ hnames
    · rcases bindEntry_error herror with ⟨_, hother, rfl⟩ | ⟨_, hother, hrefused, rfl⟩ |
        ⟨hother, rfl⟩
      · obtain rfl : otherText = chordText := hnames
        rw [hchord] at hother
        cases hother
      · obtain rfl : otherText = chordText := hnames
        rw [hchord, Except.ok.injEq] at hother
        rw [hother, hrefused] at hambiguous
        cases hambiguous
      · obtain rfl : id = otherId := by simpa [KeymapProblem.Names] using hnames
        rw [haction] at hother
        cases hother
  · intro hno
    cases hbound : bindEntry chordText id with
    | ok bound => exact absurd (bindEntry_ok.mp hbound) (hno bound.1 bound.2)
    | error problem =>
      refine ⟨_, mem_problems.mpr (.inr ⟨context, chordText, id, problem,
        (mem_table h context chordText id).mpr hentry, hbound, rfl⟩), ?_⟩
      rcases bindEntry_error hbound with ⟨_, -, rfl⟩ | ⟨_, -, -, rfl⟩ | ⟨-, rfl⟩ <;> rfl

/-! ## The promise -/

/-- The line is in force: its chord does its action. -/
def InForce (keymap : Keymap) (context : KeyContext) (chordText : String) (value : Toml.Value) :
    Prop :=
  ∃ id chord action, value = .string id ∧ parseChord chordText = .ok chord ∧
    actionOf id = some action ∧ keymap.resolve chord context = some (.action action)

/-- A line with no text for an action, or no chord. -/
def Bad (chordText : String) (value : Toml.Value) : Prop :=
  (∀ id, value ≠ .string id) ∨ ∃ reason, parseChord chordText = .error reason

/-- The bytes of Tab, Enter, line feed, Backspace, Esc and NUL. -/
def takenBytes : List ℕ := [0x09, 0x0d, 0x0a, 0x08, 0x1b, 0x00]

/-- A chord that a terminal sends as one of these. -/
def SendsTaken (chord : KeyChord) : Prop :=
  chord.mods.ctrl = true ∧ chord.mods.alt = false ∧
    ∃ c, chord.key = .char c ∧ c.toNat &&& 0x1f ∈ takenBytes

/-- **What a file promises of its lines.** -/
structure Honoured (toml : TomlCrate) (keymap : Keymap) (text : String) (t : Fields) : Prop where
  /-- A line is in force or reported. -/
  taken : ∀ context chordText value, IsEntry t context chordText value →
    InForce (applyKeymapFile toml keymap text).1 context chordText value ∨
      Reported (applyKeymapFile toml keymap text).2 chordText value
  /-- A bad line leaves the others as they are without it. -/
  alone : ∀ context chordText value, IsEntry t context chordText value → Bad chordText value →
    ∀ text', toml.parse text' = some (without t context chordText) →
      (∀ key, (applyKeymapFile toml keymap text').1.lookup key =
        (applyKeymapFile toml keymap text).1.lookup key) ∧
      ∀ other otherText otherValue,
        IsEntry (without t context chordText) other otherText otherValue →
        (Reported (applyKeymapFile toml keymap text').2 otherText otherValue ↔
          Reported (applyKeymapFile toml keymap text).2 otherText otherValue)
  /-- What the file binds can be delivered. -/
  delivered : ∀ context chord command,
    (applyKeymapFile toml ∅ text).1.lookup (context, chord) = some command → ¬ SendsTaken chord
  /-- What no line in force overrides stays. -/
  kept : ∀ context chord command, keymap.lookup (context, chord) = some command →
    (∀ chordText value, IsEntry t context chordText value → parseChord chordText = .ok chord →
      ¬ InForce (applyKeymapFile toml keymap text).1 context chordText value) →
    (applyKeymapFile toml keymap text).1.lookup (context, chord) = some command

/-- No line binds a chord that sends a taken byte. -/
def Delivered (t : Fields) : Prop :=
  ∀ context chordText value chord action, IsEntry t context chordText value →
    Accepted chordText value chord action → ¬ SendsTaken chord

/-- A document of the schema whose lines neither quarrel nor send a taken byte, or another one that
asks for what there is. -/
def Fits (keymap : Keymap) (t : Fields) : Prop :=
  (Loads t ∧ Agrees t ∧ Delivered t) ∨
    (¬ Loads t ∧ ∀ context chordText value, IsEntry t context chordText value →
      InForce keymap context chordText value)

section

variable {toml : TomlCrate} {keymap : Keymap} {text : String} {t : Fields}

theorem applyKeymapFile_loads {file : KeymapFile} (h : toml.parse text = some t)
    (hread : KeymapFile.deserialize t = some file) (keymap : Keymap) :
    applyKeymapFile toml keymap text = applyFile keymap t file := by
  simp [applyKeymapFile, h, hread]

/-- A document out of the schema changes nothing, and no line of it is named. -/
theorem applyKeymapFile_not_loads (h : toml.parse text = some t) (hno : ¬ Loads t)
    (keymap : Keymap) : (applyKeymapFile toml keymap text).1 = keymap ∧
      ∀ chordText value, ¬ Reported (applyKeymapFile toml keymap text).2 chordText value := by
  have hread : KeymapFile.deserialize t = none := by
    cases hfile : KeymapFile.deserialize t with
    | none => rfl
    | some file => exact absurd (deserialize_isSome.mp ⟨file, hfile⟩) hno
  simp [applyKeymapFile, h, hread, Reported, KeymapProblem.Names]

theorem fits_of_honoured (h : toml.parse text = some t) (hon : Honoured toml keymap text t) :
    Fits keymap t := by
  by_cases hloads : Loads t
  · obtain ⟨file, hread⟩ := deserialize_isSome.mpr hloads
    refine .inl ⟨hloads, ?_, ?_⟩
    · have hforce {context : KeyContext} {chordText : String} {value : Toml.Value}
          {chord : KeyChord} {action : Action} (hentry : IsEntry t context chordText value)
          (haccepted : Accepted chordText value chord action) :
          (applyFile keymap t file).1.resolve chord context = some (.action action) := by
        have htaken := hon.taken context chordText value hentry
        rw [applyKeymapFile_loads h hread] at htaken
        obtain ⟨hchord, hdelivered, id, rfl, haction⟩ := haccepted
        rcases htaken with ⟨id', chord', action', hid, hchord', haction', hresolve⟩ | hreported
        · obtain rfl : id = id' := by simpa using hid
          rw [hchord, Except.ok.injEq] at hchord'
          rw [haction, Option.some.injEq] at haction'
          rw [hchord', haction', hresolve]
        · exact absurd ⟨hchord, hdelivered, id, rfl, haction⟩
            ((isReported_iff hread keymap hentry).mp hreported chord action)
      intro context _ _ _ _ chord action₁ action₂ hentry₁ hentry₂ haccepted₁ haccepted₂
      have hsame := (hforce hentry₁ haccepted₁).symm.trans (hforce hentry₂ haccepted₂)
      simpa using hsame
    · intro context chordText value chord action hentry haccepted
      rcases lookup_applyFile hread ∅ context chord with ⟨_, _, other, -, -, hlookup⟩ | ⟨hno, -⟩
      · rw [← applyKeymapFile_loads h hread] at hlookup
        exact hon.delivered context chord _ hlookup
      · exact absurd haccepted (hno chordText value action hentry)
  · obtain ⟨hsame, hsilent⟩ := applyKeymapFile_not_loads h hloads keymap
    refine .inr ⟨hloads, fun context chordText value hentry => ?_⟩
    rcases hon.taken context chordText value hentry with hforce | hreported
    · rwa [hsame] at hforce
    · exact absurd hreported (hsilent chordText value)

theorem loads_without (h : Loads t) (context : KeyContext) (chordText : String) :
    Loads (without t context chordText) := by
  refine ⟨fun value hget => ?_, fun other value hget => ?_⟩
  · rw [get_without, if_neg (by cases context <;> decide)] at hget
    exact h.version value hget
  · rw [get_without] at hget
    by_cases hother : contextKey other = contextKey context
    · rw [if_pos hother, Option.map_eq_some_iff] at hget
      obtain ⟨held, hheld, rfl⟩ := hget
      obtain ⟨fields, rfl, hall⟩ := h.entries other held hheld
      exact ⟨_, rfl, fun field hmem => hall field (List.mem_filter.mp hmem).1⟩
    · rw [if_neg hother] at hget
      exact h.entries other value hget

theorem inForce_of_lookup {context : KeyContext} {chordText : String} {value : Toml.Value}
    {chord : KeyChord} {action : Action} (haccepted : Accepted chordText value chord action)
    (hlookup : keymap.lookup (context, chord) = some (.action action)) :
    InForce keymap context chordText value := by
  obtain ⟨hchord, -, id, rfl, haction⟩ := haccepted
  exact ⟨id, chord, action, rfl, hchord, haction, by simp [Keymap.resolve, hlookup]⟩

theorem lookup_without {file file' : KeymapFile} (hread : KeymapFile.deserialize t = some file)
    (hagrees : Agrees t) {context : KeyContext} {chordText reason : String}
    (hbad : parseChord chordText = .error reason)
    (hread' : KeymapFile.deserialize (without t context chordText) = some file')
    (key : KeyContext × KeyChord) :
    (applyFile keymap (without t context chordText) file').1.lookup key =
      (applyFile keymap t file).1.lookup key := by
  obtain ⟨other, chord⟩ := key
  rcases lookup_applyFile hread' keymap other chord with
    ⟨otherText, value, action, hentry, haccepted, hlookup⟩ | ⟨hno, hlookup⟩
  · rw [hlookup, lookup_accepted hread hagrees keymap (isEntry_without.mp hentry).1 haccepted]
  · rcases lookup_applyFile hread keymap other chord with
      ⟨otherText, value, action, hentry, haccepted, -⟩ | ⟨-, hsame⟩
    · -- a line that is bound is another one
      refine absurd haccepted (hno otherText value action (isEntry_without.mpr ⟨hentry, ?_⟩))
      rintro - rfl
      rw [haccepted.1] at hbad
      cases hbad
    · rw [hlookup, hsame]

theorem honoured_of_loads (h : toml.parse text = some t) (hloads : Loads t) (hagrees : Agrees t)
    (hdelivered : Delivered t) : Honoured toml keymap text t := by
  obtain ⟨file, hread⟩ := deserialize_isSome.mpr hloads
  refine ⟨fun context chordText value hentry => ?_, fun context chordText value hentry hbad => ?_,
    fun context chord command hlookup => ?_, fun context chord command hlookup hno => ?_⟩
  · rw [applyKeymapFile_loads h hread]
    obtain ⟨id, rfl⟩ := string_of_isEntry hloads hentry
    by_cases haccepted : ∃ chord action, Accepted chordText (.string id) chord action
    · obtain ⟨chord, action, haccepted⟩ := haccepted
      exact .inl (inForce_of_lookup haccepted
        (lookup_accepted hread hagrees keymap hentry haccepted))
    · exact .inr ((isReported_iff hread keymap hentry).mpr fun chord action hbound =>
        haccepted ⟨chord, action, hbound⟩)
  · intro text' h'
    obtain ⟨id, rfl⟩ := string_of_isEntry hloads hentry
    obtain ⟨reason, hreason⟩ := hbad.resolve_left fun hno => hno id rfl
    have hloads' := loads_without hloads context chordText
    obtain ⟨file', hread'⟩ := deserialize_isSome.mpr hloads'
    rw [applyKeymapFile_loads h hread, applyKeymapFile_loads h' hread']
    refine ⟨lookup_without hread hagrees hreason hread', fun other otherText value hother => ?_⟩
    obtain ⟨otherId, rfl⟩ := string_of_isEntry hloads' hother
    rw [isReported_iff hread' keymap hother,
      isReported_iff hread keymap (isEntry_without.mp hother).1]
  · rw [applyKeymapFile_loads h hread] at hlookup
    rcases lookup_applyFile hread ∅ context chord with
      ⟨chordText, value, action, hentry, haccepted, -⟩ | ⟨-, hsame⟩
    · exact hdelivered context chordText value chord action hentry haccepted
    · rw [hlookup] at hsame
      cases hsame
  · rw [applyKeymapFile_loads h hread] at hno ⊢
    rcases lookup_applyFile hread keymap context chord with
      ⟨chordText, value, action, hentry, haccepted, hbound⟩ | ⟨-, hsame⟩
    · exact absurd (inForce_of_lookup haccepted hbound) (hno chordText value hentry haccepted.1)
    · rw [hsame, hlookup]

theorem honoured_of_not_loads (h : toml.parse text = some t) (hno : ¬ Loads t)
    (hforce : ∀ context chordText value, IsEntry t context chordText value →
      InForce keymap context chordText value) : Honoured toml keymap text t := by
  obtain ⟨hsame, -⟩ := applyKeymapFile_not_loads h hno keymap
  refine ⟨fun context chordText value hentry => ?_, fun context chordText value hentry hbad => ?_,
    fun context chord command hlookup => ?_, fun context chord command hlookup _ => ?_⟩
  · rw [hsame]
    exact .inl (hforce context chordText value hentry)
  · -- a line in force is not a bad one
    obtain ⟨id, chord, -, rfl, hchord, -, -⟩ := hforce context chordText value hentry
    rcases hbad with hid | ⟨reason, hreason⟩
    · exact absurd rfl (hid id)
    · rw [hchord] at hreason
      cases hreason
  · rw [(applyKeymapFile_not_loads h hno ∅).1] at hlookup
    cases hlookup
  · rwa [hsame]

/-- **The promise is kept for the documents that fit, and no others.** -/
theorem honoured_iff (toml : TomlCrate) (keymap : Keymap) {text : String} {t : Fields}
    (h : toml.parse text = some t) : Honoured toml keymap text t ↔ Fits keymap t := by
  refine ⟨fits_of_honoured h, fun hfits => ?_⟩
  rcases hfits with ⟨hloads, hagrees, hdelivered⟩ | ⟨hno, hforce⟩
  · exact honoured_of_loads h hloads hagrees hdelivered
  · exact honoured_of_not_loads h hno hforce

end

/-! ## Files of one table -/

/-- A crate that reads one text as a document. -/
def crateOf (text : String) (t : Fields) : TomlCrate where
  parse s := if s = text then some t else none
  error _ := { message := "", start := none }

theorem parse_crateOf (text : String) (t : Fields) : (crateOf text t).parse text = some t :=
  if_pos rfl

/-- A file with a global table. -/
def globalFile (fields : Fields) : Fields := [("version", .integer 1), ("global", .table fields)]

theorem isEntry_globalFile {fields : Fields} {context : KeyContext} {chordText : String}
    {value : Toml.Value} : IsEntry (globalFile fields) context chordText value ↔
      context = .global ∧ (chordText, value) ∈ fields := by
  cases context <;> simp [IsEntry, globalFile, Fields.get, contextKey]

theorem loads_globalFile {fields : Fields} :
    Loads (globalFile fields) ↔ ∀ field ∈ fields, ∃ id, field.2 = .string id := by
  constructor
  · intro h
    obtain ⟨held, hheld, hall⟩ := h.entries .global (.table fields) rfl
    rw [Toml.Value.table.injEq] at hheld
    exact hheld ▸ hall
  · refine fun hall => ⟨fun value hget => ?_, fun context value hget => ?_⟩
    · exact ⟨1, (Option.some.inj hget).symm, by decide, by decide⟩
    · cases context with
      | global => exact ⟨fields, (Option.some.inj hget).symm, hall⟩
      | _ => cases hget

/-- The chord of the files below. -/
def altG : KeyChord := { key := .char 'g', mods := { alt := true } }

theorem accepted_altG : Accepted "alt+g" (.string "git.show") altG .gitShow :=
  ⟨rfl, rfl, "git.show", rfl, by decide⟩

theorem honoured_one_line :
    Honoured (crateOf "version = 1\n\n[global]\n\"alt+g\" = \"git.show\"\n"
        (globalFile [("alt+g", .string "git.show")])) ∅
      "version = 1\n\n[global]\n\"alt+g\" = \"git.show\"\n"
      (globalFile [("alt+g", .string "git.show")]) := by
  refine (honoured_iff _ ∅ (parse_crateOf _ _)).mpr (.inl ⟨?_, ?_, ?_⟩)
  · exact loads_globalFile.mpr (by simp)
  · intro context _ _ _ _ chord action₁ action₂ hentry₁ hentry₂ ⟨_, _, id₁, hid₁, haction₁⟩
      ⟨_, _, id₂, hid₂, haction₂⟩
    simp only [isEntry_globalFile, List.mem_singleton, Prod.mk.injEq] at hentry₁ hentry₂
    obtain rfl : id₁ = "git.show" := by simpa using hid₁.symm.trans hentry₁.2.2
    obtain rfl : id₂ = "git.show" := by simpa using hid₂.symm.trans hentry₂.2.2
    exact Option.some.inj (haction₁.symm.trans haction₂)
  · intro context chordText value chord action hentry haccepted hsends
    simp only [isEntry_globalFile, List.mem_singleton, Prod.mk.injEq] at hentry
    obtain ⟨-, rfl, -⟩ := hentry
    obtain rfl : chord = altG := by simpa using haccepted.1.symm.trans accepted_altG.1
    cases hsends.2.1

/-- Two spellings of one chord, a capital under ctrl, and a line that is no text. -/
theorem not_honoured :
    ¬ Honoured (crateOf
          "version = 1\n\n[global]\n\"ALT+g\" = \"lsp.format\"\n\"alt+g\" = \"git.show\"\n"
          (globalFile [("ALT+g", .string "lsp.format"), ("alt+g", .string "git.show")])) ∅
        "version = 1\n\n[global]\n\"ALT+g\" = \"lsp.format\"\n\"alt+g\" = \"git.show\"\n"
        (globalFile [("ALT+g", .string "lsp.format"), ("alt+g", .string "git.show")]) ∧
      ¬ Honoured (crateOf "version = 1\n\n[global]\n\"ctrl+I\" = \"git.show\"\n"
          (globalFile [("ctrl+I", .string "git.show")])) ∅
        "version = 1\n\n[global]\n\"ctrl+I\" = \"git.show\"\n"
        (globalFile [("ctrl+I", .string "git.show")]) ∧
      ¬ Honoured (crateOf
          "version = 1\n\n[global]\n\"alt+g\" = \"git.show\"\n\"alt+x\" = 1\n"
          (globalFile [("alt+g", .string "git.show"), ("alt+x", .integer 1)])) ∅
        "version = 1\n\n[global]\n\"alt+g\" = \"git.show\"\n\"alt+x\" = 1\n"
        (globalFile [("alt+g", .string "git.show"), ("alt+x", .integer 1)]) := by
  refine ⟨fun h => ?_, fun h => ?_, fun h => ?_⟩
  · rcases fits_of_honoured (parse_crateOf _ _) h with ⟨-, hagrees, -⟩ | ⟨hno, -⟩
    · have hupper : Accepted "ALT+g" (.string "lsp.format") altG .lspFormat :=
        ⟨rfl, rfl, "lsp.format", rfl, by decide⟩
      have hsame := hagrees .global _ _ _ _ altG _ _ (isEntry_globalFile.mpr ⟨rfl, by simp⟩)
        (isEntry_globalFile.mpr ⟨rfl, by simp⟩) hupper accepted_altG
      cases hsame
    · exact hno (loads_globalFile.mpr (by simp))
  · rcases fits_of_honoured (parse_crateOf _ _) h with ⟨-, -, hdelivered⟩ | ⟨hno, -⟩
    · exact hdelivered .global "ctrl+I" (.string "git.show")
        { key := .char 'I', mods := { ctrl := true } } .gitShow
        (isEntry_globalFile.mpr ⟨rfl, by simp⟩) ⟨rfl, rfl, "git.show", rfl, by decide⟩
        ⟨rfl, rfl, 'I', rfl, by decide⟩
    · exact hno (loads_globalFile.mpr (by simp))
  · rcases fits_of_honoured (parse_crateOf _ _) h with ⟨hloads, -⟩ | ⟨-, hforce⟩
    · obtain ⟨id, hid⟩ := loads_globalFile.mp hloads ("alt+x", .integer 1) (by simp)
      cases hid
    · obtain ⟨id, -, -, hid, -⟩ := hforce .global "alt+x" (.integer 1)
        (isEntry_globalFile.mpr ⟨rfl, by simp⟩)
      cases hid

end Config

end Termesh
