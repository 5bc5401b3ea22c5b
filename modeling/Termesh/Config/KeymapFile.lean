import Termesh.Config.Keymap
import Termesh.Search.Protocol
import Termesh.Workspace.Session

/-!
# The keymap file

One table for each context, with an action's id for each chord, laid over a keymap.

* `KeymapProblem`, `ConfigDiagnostic`: what is said of a line that is not taken;
* `KeymapFile`, `deserialize`: the tables of a document;
* `bindEntry`, `applyKeymapFile`: the file laid over a keymap;
* `bindings`, **`applyFile_eq`**: what the file binds is bound in turn, the rest is reported.
-/

namespace Termesh

namespace Config

open Decoding (size)
open Search (getTo)
open Toml (Fields)
open Workspace (asString fieldOr)

/-! ## What is said -/

/-- What is wrong with a file or an entry of it. -/
inductive KeymapProblem where
  | toml (message : String)
  | unknownKey (key : String)
  | newerVersion (version : ℕ)
  | badChord (chord reason : String)
  | undeliverable (chord : String)
  | unknownAction (id : String)
deriving DecidableEq, Repr

/-- How a problem reads. -/
def KeymapProblem.text : KeymapProblem → String
  | toml message => message
  | unknownKey key => "unknown key or context '" ++ key ++ "'"
  | newerVersion version =>
    "version " ++ toString version ++ " is newer than this build understands (current: 1)"
  | badChord chord reason => "'" ++ chord ++ "': " ++ reason
  | undeliverable chord => "'" ++ chord ++ "' cannot be delivered by a terminal"
  | unknownAction id => "unknown action id '" ++ id ++ "'"

/-- A problem, where it is and what is used instead. -/
structure ConfigDiagnostic where
  line : Option ℕ
  problem : KeymapProblem
  fallback : String
deriving DecidableEq, Repr

/-- `line_of`: the line of a place in a text. -/
def lineOf (text : List Char) (start : ℕ) : ℕ :=
  ((getTo text (min start (size Char.utf8Size text))).getD text).count '\n' + 1

/-! ## The document -/

/-- The complaint about a text, and where in it. -/
structure TomlError where
  message : String
  start : Option ℕ

/-- `toml::from_str`: what a text says, and the complaint about one that is no document or not the
document asked for. -/
structure TomlCrate where
  parse : String → Option Fields
  error : String → TomlError

/-- `CURRENT_VERSION`. -/
def currentVersion : ℕ := 1

/-- The keys of the document. -/
def knownTopLevelKeys : List String :=
  ["version", "global", "project", "editor", "terminal", "agent"]

/-- The tables of the document. -/
structure KeymapFile where
  version : ℕ
  global : List (String × String)
  project : List (String × String)
  editor : List (String × String)
  terminal : List (String × String)
  agent : List (String × String)

/-- A `u32`. -/
def asU32 : Toml.Value → Option ℕ
  | .integer n => if 0 ≤ n ∧ n < 2 ^ 32 then some n.toNat else none
  | _ => none

/-- A table of strings, in the order of its keys. -/
def asBindings : Toml.Value → Option (List (String × String))
  | .table t => (Fields.sorted t).mapM fun field => (asString field.2).map fun id => (field.1, id)
  | _ => none

/-- The key of a context's table. -/
def contextKey : KeyContext → String
  | .global => "global"
  | .project => "project"
  | .editor => "editor"
  | .terminal => "terminal"
  | .agent => "agent"

namespace KeymapFile

/-- `#[derive(Deserialize)]`, with defaults. -/
def deserialize (t : Fields) : Option KeymapFile := do
  let version ← fieldOr t "version" currentVersion asU32
  let global ← fieldOr t (contextKey .global) [] asBindings
  let project ← fieldOr t (contextKey .project) [] asBindings
  let editor ← fieldOr t (contextKey .editor) [] asBindings
  let terminal ← fieldOr t (contextKey .terminal) [] asBindings
  let agent ← fieldOr t (contextKey .agent) [] asBindings
  return { version, global, project, editor, terminal, agent }

/-- The table of a context. -/
def table (file : KeymapFile) : KeyContext → List (String × String)
  | .global => file.global
  | .project => file.project
  | .editor => file.editor
  | .terminal => file.terminal
  | .agent => file.agent

end KeymapFile

/-! ## The overlay -/

/-- The action of an id. -/
def actionOf (id : String) : Option Action := actions.find? fun a => a.id = id

/-- What is bound for an entry, or why nothing is. -/
def bindEntry (chordText actionId : String) : Except KeymapProblem (KeyChord × Action) :=
  match parseChord chordText with
  | .error reason => .error (.badChord chordText reason)
  | .ok chord =>
    if chord.isTerminalAmbiguous then .error (.undeliverable chordText)
    else
      match actionOf actionId with
      | none => .error (.unknownAction actionId)
      | some action => .ok (chord, action)

/-- One pass of the loop over the entries of a table. -/
def applyEntry (context : KeyContext) (state : Keymap × List ConfigDiagnostic)
    (entry : String × String) : Keymap × List ConfigDiagnostic :=
  match bindEntry entry.1 entry.2 with
  | .error problem =>
    (state.1, state.2 ++ [{ line := none, problem, fallback := "skipping this binding" }])
  | .ok (chord, action) => (state.1.bindIn context chord (.action action), state.2)

/-- The contexts, in the order in which their tables are laid over the keymap. -/
def contexts : List KeyContext := [.global, .project, .editor, .terminal, .agent]

/-- What is said of a document besides its entries. -/
def documentProblems (t : Fields) (file : KeymapFile) : List ConfigDiagnostic :=
  (((Fields.sorted t).map Prod.fst).filter (· ∉ knownTopLevelKeys)).map (fun key =>
      { line := none, problem := .unknownKey key,
        fallback := "ignoring it and keeping the remaining bindings" }) ++
    if currentVersion < file.version then
      [{ line := none, problem := .newerVersion file.version,
         fallback := "loaded what was understood; newer bindings may not have been applied" }]
    else []

/-- A document laid over a keymap. -/
def applyFile (keymap : Keymap) (t : Fields) (file : KeymapFile) : Keymap × List ConfigDiagnostic :=
  contexts.foldl (fun state context => (file.table context).foldl (applyEntry context) state)
    (keymap, documentProblems t file)

/-- `apply_keymap_file`. -/
def applyKeymapFile (toml : TomlCrate) (keymap : Keymap) (text : String) :
    Keymap × List ConfigDiagnostic :=
  match (toml.parse text).bind fun t => (KeymapFile.deserialize t).map (t, ·) with
  | none =>
    let error := toml.error text
    (keymap, [{ line := error.start.map (lineOf text.toList), problem := .toml error.message,
                fallback := "keeping the default keymap" }])
  | some (t, file) => applyFile keymap t file

/-! ## What the file binds -/

/-- The binding of an entry, if it is taken. -/
def boundBy (context : KeyContext) (entry : String × String) :
    Option ((KeyContext × KeyChord) × Command) :=
  match bindEntry entry.1 entry.2 with
  | .error _ => none
  | .ok (chord, action) => some ((context, chord), .action action)

/-- What is said of an entry, if it is not. -/
def saidOf (entry : String × String) : Option ConfigDiagnostic :=
  match bindEntry entry.1 entry.2 with
  | .error problem => some { line := none, problem, fallback := "skipping this binding" }
  | .ok _ => none

/-- All that a file binds, in the order it does. -/
def bindings (file : KeymapFile) : List ((KeyContext × KeyChord) × Command) :=
  contexts.flatMap fun context => (file.table context).filterMap (boundBy context)

theorem foldl_applyEntry (context : KeyContext) (entries : List (String × String))
    (state : Keymap × List ConfigDiagnostic) :
    entries.foldl (applyEntry context) state =
      ((entries.filterMap (boundBy context)).foldl (fun t p => t.insert p.1 p.2) state.1,
        state.2 ++ entries.filterMap saidOf) := by
  induction entries generalizing state with
  | nil => simp
  | cons entry entries ih =>
    rw [List.foldl_cons, ih, List.filterMap_cons, List.filterMap_cons, applyEntry, boundBy, saidOf]
    cases bindEntry entry.1 entry.2 with
    | error problem => simp
    | ok bound => rfl

theorem applyFile_eq (keymap : Keymap) (t : Fields) (file : KeymapFile) :
    applyFile keymap t file = ((bindings file).foldl (fun t p => t.insert p.1 p.2) keymap,
      documentProblems t file ++
        contexts.flatMap fun context => (file.table context).filterMap saidOf) := by
  have hfold (cs : List KeyContext) (state : Keymap × List ConfigDiagnostic) :
      cs.foldl (fun state context => (file.table context).foldl (applyEntry context) state) state =
        ((cs.flatMap fun context => (file.table context).filterMap (boundBy context)).foldl
            (fun t p => t.insert p.1 p.2) state.1,
          state.2 ++ cs.flatMap fun context => (file.table context).filterMap saidOf) := by
    induction cs generalizing state with
    | nil => simp
    | cons context cs ih =>
      rw [List.foldl_cons, ih, foldl_applyEntry, List.flatMap_cons, List.flatMap_cons,
        List.foldl_append, List.append_assoc]
  exact hfold contexts _

theorem mem_contexts (context : KeyContext) : context ∈ contexts := by
  cases context <;> decide

theorem mem_bindings {file : KeymapFile} {context : KeyContext} {chord : KeyChord}
    {command : Command} : ((context, chord), command) ∈ bindings file ↔
      ∃ chordText id action, (chordText, id) ∈ file.table context ∧
        bindEntry chordText id = .ok (chord, action) ∧ command = .action action := by
  simp only [bindings, List.mem_flatMap, List.mem_filterMap]
  constructor
  · rintro ⟨other, -, ⟨chordText, id⟩, hmem, hbound⟩
    rw [boundBy] at hbound
    cases hentry : bindEntry chordText id with
    | error problem => simp [hentry] at hbound
    | ok bound =>
      simp only [hentry, Option.some.injEq, Prod.mk.injEq] at hbound
      obtain ⟨⟨rfl, hchord⟩, hcommand⟩ := hbound
      exact ⟨chordText, id, bound.2, hmem, by rw [hentry, ← hchord], hcommand.symm⟩
  · rintro ⟨chordText, id, action, hmem, hentry, rfl⟩
    exact ⟨context, mem_contexts context, (chordText, id), hmem, by simp [boundBy, hentry]⟩

/-- What is said of the entries. -/
theorem mem_problems {keymap : Keymap} {t : Fields} {file : KeymapFile} {d : ConfigDiagnostic} :
    d ∈ (applyFile keymap t file).2 ↔ d ∈ documentProblems t file ∨
      ∃ context chordText id problem, (chordText, id) ∈ file.table context ∧
        bindEntry chordText id = .error problem ∧
        d = { line := none, problem, fallback := "skipping this binding" } := by
  rw [applyFile_eq, List.mem_append]
  refine or_congr Iff.rfl ?_
  simp only [List.mem_flatMap, List.mem_filterMap]
  constructor
  · rintro ⟨context, -, ⟨chordText, id⟩, hmem, hsaid⟩
    rw [saidOf] at hsaid
    cases hentry : bindEntry chordText id with
    | error problem =>
      simp only [hentry, Option.some.injEq] at hsaid
      exact ⟨context, chordText, id, problem, hmem, hentry, hsaid.symm⟩
    | ok bound => simp [hentry] at hsaid
  · rintro ⟨context, chordText, id, problem, hmem, hentry, rfl⟩
    exact ⟨context, mem_contexts context, (chordText, id), hmem, by simp [saidOf, hentry]⟩

end Config

end Termesh
