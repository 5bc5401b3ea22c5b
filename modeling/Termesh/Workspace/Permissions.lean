import Termesh.App.State
import Termesh.Core.Fs
import Termesh.Core.Spelling
import Termesh.Core.Trim
import Termesh.Lib.Toml

/-!
# Standing command grants

The commands granted for good, as they are matched, and as they are kept in the settings file of the
workspace. Reading and writing the file itself succeeds: what is on disk is its bytes, `none` when
there is no such file. Whether the policy still has to be written is left out.

* `PermissionStore.load`, `PermissionStore.save` with what they read and write;
* `Safe`, `fromSpec_iff`: which commands can be granted, and the grant of one;
* **`permits_iff`**: what a policy permits after any number of grants and of saves and loads.
-/

namespace Termesh

open Toml (Item Table Format)

namespace App

namespace PermissionStore

/-- `PathBuf::join`: an absolute second path stands alone. -/
def joinPath (p q : Path) : Path :=
  if q.isAbsolute || p.isEmpty then q else p ++ q.filter (· ≠ .curDir)

/-- `settings_path`. -/
def settingsPath (root : Path) : Path := (root.join ".termesh").join "workspace.toml"

/-- `config_error`. -/
def configError (path : Path) (message : String) : FsError := .other path message

/-- `clean_relative`: a relative path without `..`, `.` for nothing. -/
def cleanRelative (p : Path) : Option Path :=
  if p.isAbsolute then none
  else if p.any fun c => c = .parentDir ∨ c = .rootDir then none
  else
    let clean := p.filter (· ≠ .curDir)
    some (if clean = [] then [.curDir] else clean)

/-- The document of a text. -/
def parseDocument (f : Format) (path : Path) (text : String) : Except FsError Table :=
  (f.parse text).mapError (configError path)

/-- The text of a string. -/
def asStr : Item → Option String
  | .string s => some s
  | _ => none

/-- The items of an array. -/
def asArray : Item → Option (List Item)
  | .array items => some items
  | _ => none

/-- The arguments of the command with this index. -/
def readArgs (path : Path) (index : ℕ) (items : List Item) : Except FsError (List String) :=
  items.mapM fun argument =>
    match asStr argument with
    | some s => .ok s
    | none => .error (configError path ("command " ++ toString index ++ " args must be strings"))

/-- One command of the file. -/
def readCommand (root path : Path) (index : ℕ) (table : Table) : Except FsError CommandGrant := do
  let command := "command " ++ toString index
  if table.any fun field => field.1 ∉ ["program", "args", "cwd"] then
    throw (configError path (command ++ " has an unknown field"))
  let some program := (Table.get table "program").bind asStr
    | throw (configError path (command ++ " needs a string program"))
  let some items := (Table.get table "args").bind asArray
    | throw (configError path (command ++ " needs an args array"))
  let args ← readArgs path index items
  let some stored := (Table.get table "cwd").bind asStr
    | throw (configError path (command ++ " needs a string cwd"))
  let some relative := cleanRelative (Path.ofString stored)
    | throw (configError path (command ++ " cwd must stay inside the workspace"))
  let some grant := CommandGrant.fromSpec root ⟨program, args, joinPath root relative, []⟩
    | throw (configError path (command ++ " is unsafe"))
  return grant

/-- The commands from this index on, each taken once. -/
def readCommands (root path : Path) (index : ℕ) (policy : PermissionPolicy) :
    List Table → Except FsError PermissionPolicy
  | [] => .ok policy
  | table :: tables => do
    let grant ← readCommand root path index table
    readCommands root path (index + 1) (if policy.contains grant then policy else policy ++ [grant])
      tables

/-- The grants of a document. -/
def policyFromDocument (root path : Path) (document : Table) : Except FsError PermissionPolicy :=
  match Table.get document "agent" with
  | none => .ok []
  | some (.table agent) =>
    match Table.get agent "permissions" with
    | none => .ok []
    | some (.table permissions) =>
      match Table.get permissions "commands" with
      | none => .ok []
      | some (.tables commands) => readCommands root path 0 [] commands
      | some _ =>
        .error (configError path "agent.permissions.commands must be an array of tables")
    | some _ => .error (configError path "agent.permissions must be a table")
  | some _ => .error (configError path "agent must be a table")

/-- The table under a key, an empty one where there is none. -/
def tableAt (path : Path) (name : String) (table : Table) (key : String) : Except FsError Table :=
  match Table.get table key with
  | none => .ok []
  | some (.table t) => .ok t
  | some _ => .error (configError path (name ++ " must be a table"))

/-- A grant as the file holds it. -/
def commandTable (grant : CommandGrant) : Table :=
  [("program", .string grant.program), ("args", .array (grant.args.map .string)),
    ("cwd", .string grant.cwd.display)]

/-- The document with other grants. -/
def replaceCommands (path : Path) (document : Table) (grants : List CommandGrant) :
    Except FsError Table := do
  let agent ← tableAt path "agent" document "agent"
  let permissions ← tableAt path "agent.permissions" agent "permissions"
  let permissions := Table.set permissions "commands" (.tables (grants.map commandTable))
  return Table.set document "agent" (.table (Table.set agent "permissions" (.table permissions)))

/-- The document of the file with these bytes. -/
def readDocument (f : Format) (path : Path) (bytes : ByteArray) : Except FsError Table :=
  match String.fromUTF8? bytes with
  | none => .error (configError path "workspace settings are not valid UTF-8")
  | some text => parseDocument f path text

/-- `FilePermissionStore::load` of the file that is on disk. -/
def load (f : Format) (root : Path) : Option ByteArray → Except FsError PermissionPolicy
  | none => .ok []
  | some bytes => do
    let document ← readDocument f (settingsPath root) bytes
    policyFromDocument root (settingsPath root) document

/-- The document that is saved into: a new one where there is no file. -/
def openDocument (f : Format) (root : Path) : Option ByteArray → Except FsError Table
  | none => .ok []
  | some bytes => readDocument f (settingsPath root) bytes

/-- `FilePermissionStore::save`: the bytes the file has afterwards. -/
def save (f : Format) (root : Path) (disk : Option ByteArray) (policy : PermissionPolicy) :
    Except FsError ByteArray := do
  let document ← openDocument f root disk
  let document ← replaceCommands (settingsPath root) document policy
  return (f.print document).toUTF8

end PermissionStore

/-! ## Which commands can be granted -/

/-- What a command has to be to be granted for good. -/
def Safe (root : Path) (spec : TerminalSpec) : Prop :=
  spec.env = [] ∧ spec.program ≠ "" ∧ .parentDir ∉ spec.cwd ∧ spec.cwd.startsWith root = true

/-- A directory below the root, `.` for the root itself. -/
def relativeTo (root cwd : Path) : Path :=
  if cwd.drop root.length = [] then [.curDir] else cwd.drop root.length

/-- The grant of a command. -/
def grantOf (root : Path) (spec : TerminalSpec) : CommandGrant :=
  ⟨spec.program, spec.args, relativeTo root spec.cwd⟩

theorem filter_curDir {p : Path} (h : p.Proper) (ha : p.isAbsolute) :
    p.filter (· ≠ .curDir) = p := by
  cases p with
  | nil => rfl
  | cons c cs =>
    have hc : c = .rootDir := by simpa [Path.isAbsolute] using ha
    refine List.filter_eq_self.2 fun d hd => ?_
    rcases List.mem_cons.1 hd with rfl | hd
    · simp [hc]
    · have := h.2 d hd
      cases d <;> simp_all [Component.Inner]

theorem cleanAbsolute_of {p : Path} (h : p.Proper) (ha : p.isAbsolute) (hdots : .parentDir ∉ p) :
    cleanAbsolute p = some p := by
  rw [cleanAbsolute, if_neg, filter_curDir h ha]
  simpa [ha] using hdots

theorem isAbsolute_of_startsWith {p root : Path} (ha : root.isAbsolute)
    (hp : p.startsWith root = true) : p.isAbsolute := by
  have hpre : root <+: p := List.isPrefixOf_iff_prefix.1 hp
  cases root with
  | nil => cases ha
  | cons c cs =>
    obtain ⟨rest, hr⟩ := hpre
    subst hr
    simpa [Path.isAbsolute] using ha

theorem cleanAbsolute_some {p clean : Path} (h : cleanAbsolute p = some clean) :
    p.isAbsolute ∧ .parentDir ∉ p ∧ clean = p.filter (· ≠ .curDir) := by
  unfold cleanAbsolute at h
  split at h
  · cases h
  · cases h
    rename_i hc
    simpa using hc

/-- **A command is granted exactly when it is safe.** -/
theorem fromSpec_iff {root : Path} {spec : TerminalSpec} (hr : root.Proper) (ha : root.isAbsolute)
    (hc : spec.cwd.Proper) (grant : CommandGrant) :
    CommandGrant.fromSpec root spec = some grant ↔ Safe root spec ∧ grant = grantOf root spec := by
  unfold CommandGrant.fromSpec
  constructor
  · intro h
    split at h
    · cases h
    · rename_i hpe
      simp only [Option.bind_eq_some_iff] at h
      obtain ⟨root', hroot, cwd', hcwd, h⟩ := h
      have hro := cleanAbsolute_some hroot
      have hcw := cleanAbsolute_some hcwd
      rw [hro.2.2, hcw.2.2, filter_curDir hr ha, filter_curDir hc hcw.1] at h
      split at h
      · cases h
        exact ⟨⟨by tauto, by tauto, hcw.2.1, by assumption⟩, rfl⟩
      · cases h
  · intro h
    have hs := h.1
    have hpre : root <+: spec.cwd := List.isPrefixOf_iff_prefix.1 hs.2.2.2
    have hroot := cleanAbsolute_of hr ha fun hd => hs.2.2.1 (hpre.subset hd)
    have hcwd := cleanAbsolute_of hc (isAbsolute_of_startsWith ha hs.2.2.2) hs.2.2.1
    rw [if_neg (by simp [hs.1, hs.2.1]), hroot, Option.bind_some, hcwd, Option.bind_some,
      if_pos hs.2.2.2, h.2]
    rfl

theorem relativeTo_append (root below : Path) :
    relativeTo root (root ++ below) = if below = [] then [.curDir] else below := by
  rw [relativeTo, List.drop_left]

theorem relativeTo_inj {root cwd cwd' : Path} (h : root <+: cwd) (h' : root <+: cwd')
    (hd : .curDir ∉ cwd) (hd' : .curDir ∉ cwd') :
    relativeTo root cwd = relativeTo root cwd' ↔ cwd = cwd' := by
  obtain ⟨below, rfl⟩ := h
  obtain ⟨below', rfl⟩ := h'
  refine ⟨fun he => ?_, fun he => by rw [he]⟩
  rw [relativeTo_append, relativeTo_append] at he
  have hb : .curDir ∉ below := fun hm => hd (List.mem_append_right root hm)
  have hb' : .curDir ∉ below' := fun hm => hd' (List.mem_append_right root hm)
  split at he <;> split at he
  · simp [*]
  · rw [← he] at hb'
    simp at hb'
  · rw [he] at hb
    simp at hb
  · rw [he]

/-- Two safe commands have one grant when they agree on everything but how they are written. -/
theorem grantOf_eq_iff {root : Path} {spec given : TerminalSpec} (ha : root.isAbsolute)
    (hc : spec.cwd.Proper) (hg : given.cwd.Proper) (hs : Safe root spec) (hsg : Safe root given) :
    grantOf root given = grantOf root spec ↔
      given.program = spec.program ∧ given.args = spec.args ∧
        given.cwd.normals = spec.cwd.normals := by
  have hcwd := hc.eq_normals (isAbsolute_of_startsWith ha hs.2.2.2) hs.2.2.1
  have hgcwd := hg.eq_normals (isAbsolute_of_startsWith ha hsg.2.2.2) hsg.2.2.1
  have hrel : relativeTo root given.cwd = relativeTo root spec.cwd ↔ given.cwd = spec.cwd :=
    relativeTo_inj (List.isPrefixOf_iff_prefix.1 hsg.2.2.2) (List.isPrefixOf_iff_prefix.1 hs.2.2.2)
      (by rw [hgcwd]; simp) (by rw [hcwd]; simp)
  have hnames : given.cwd = spec.cwd ↔ given.cwd.normals = spec.cwd.normals := by
    refine ⟨fun h => by rw [h], fun h => ?_⟩
    rw [hcwd, hgcwd, h]
  rw [grantOf, grantOf, CommandGrant.mk.injEq, hrel, hnames]

namespace PermissionStore

/-! ## Saving and loading -/

/-- A grant the workspace can hold: its directory is `.`, or the names below the root. -/
structure Clean (root : Path) (grant : CommandGrant) : Prop where
  program : grant.program ≠ ""
  dots : .parentDir ∉ root
  cwd : ∃ names : List String, (∀ s ∈ names, IsName s) ∧
    grant.cwd = if names = [] then [.curDir] else names.map .normal

/-- Clean grants, each held once. -/
def Granted (root : Path) (policy : PermissionPolicy) : Prop :=
  policy.Nodup ∧ ∀ grant ∈ policy, Clean root grant

theorem ofString_cwd {names : List String} (h : ∀ s ∈ names, IsName s) :
    let cwd : Path := if names = [] then [.curDir] else names.map .normal
    Path.ofString cwd.display = cwd := by
  intro cwd
  by_cases hn : names = []
  · simp only [cwd, hn, if_pos]
    decide
  · simp only [cwd, if_neg hn]
    exact Path.ofString_display h

theorem isAbsolute_names (names : List String) :
    Path.isAbsolute (names.map .normal) = false := by
  cases names <;> rfl

theorem filter_names (names : List String) :
    (names.map Component.normal).filter (· ≠ .curDir) = names.map .normal :=
  List.filter_eq_self.2 (by simp)

theorem cleanRelative_cwd {names : List String} :
    let cwd : Path := if names = [] then [.curDir] else names.map .normal
    cleanRelative cwd = some cwd := by
  intro cwd
  by_cases hn : names = []
  · simp only [cwd, hn, if_pos]
    decide
  · simp only [cwd, if_neg hn, cleanRelative]
    rw [isAbsolute_names, if_neg (by simp), if_neg (by simp), filter_names,
      if_neg (by simpa using hn)]

theorem fromSpec_clean {root : Path} {grant : CommandGrant} (hr : root.Proper)
    (ha : root.isAbsolute) (h : Clean root grant) :
    CommandGrant.fromSpec root ⟨grant.program, grant.args, joinPath root grant.cwd, []⟩ =
      some grant := by
  obtain ⟨names, hnames, hcwd⟩ := h.cwd
  have hne : root ≠ [] := by rintro rfl; cases ha
  have hjoin : joinPath root grant.cwd = root ++ names.map .normal := by
    rw [hcwd]
    by_cases hn : names = []
    · simp [joinPath, hn, hne, Path.isAbsolute]
    · rw [if_neg hn, joinPath, isAbsolute_names, if_neg (by simp [hne]), filter_names]
  have hproper : (root ++ names.map Component.normal : Path).Proper := by
    cases root with
    | nil => exact absurd rfl hne
    | cons c cs =>
      refine ⟨hr.1, fun d hd => ?_⟩
      rcases List.mem_append.1 hd with hd | hd
      · exact hr.2 d hd
      · obtain ⟨s, hs, rfl⟩ := List.mem_map.1 hd
        exact hnames s hs
  rw [hjoin, fromSpec_iff hr ha hproper]
  refine ⟨⟨rfl, h.program, ?_, ?_⟩, ?_⟩
  · simpa using h.dots
  · exact List.isPrefixOf_iff_prefix.2 (List.prefix_append _ _)
  · cases grant with
    | mk program args cwd =>
      rw [grantOf, CommandGrant.mk.injEq]
      refine ⟨rfl, rfl, ?_⟩
      show cwd = relativeTo root (root ++ names.map .normal)
      rw [relativeTo_append, show cwd = _ from hcwd]
      simp

theorem readArgs_strings (path : Path) (index : ℕ) (args : List String) :
    readArgs path index (args.map .string) = .ok args := by
  unfold readArgs
  induction args with
  | nil => rfl
  | cons s args ih =>
    rw [List.map_cons, List.mapM_cons, ih]
    rfl

theorem readCommand_clean {root path : Path} {index : ℕ} {grant : CommandGrant} {table : Table}
    (hr : root.Proper) (ha : root.isAbsolute) (h : Clean root grant)
    (hs : Toml.Same (.table (commandTable grant)) (.table table)) :
    readCommand root path index table = .ok grant := by
  have hprogram : Table.get table "program" = some (.string grant.program) := by
    obtain ⟨y, hy, hsame⟩ := hs.get "program" (x := .string grant.program) rfl nofun
    cases hsame
    exact hy
  have hcwd : Table.get table "cwd" = some (.string grant.cwd.display) := by
    obtain ⟨y, hy, hsame⟩ := hs.get "cwd" (x := .string grant.cwd.display) rfl nofun
    cases hsame
    exact hy
  have hargs : Table.get table "args" = some (.array (grant.args.map .string)) := by
    obtain ⟨y, hy, hsame⟩ := hs.get "args" (x := .array (grant.args.map .string)) rfl nofun
    cases hsame with
    | array hall => rw [hy, Toml.Same.strings hall]
  have hkeys : (table.any fun field => field.1 ∉ ["program", "args", "cwd"]) = false := by
    rw [List.any_eq_false]
    intro field hf
    have hsome := Table.get_isSome_of_mem hf
    by_contra hkey
    have hnone : Table.get (commandTable grant) field.1 = none := by
      simp only [List.mem_cons, List.not_mem_nil, or_false, decide_eq_true_eq, not_or] at hkey
      simp [commandTable, Table.get_cons, Ne.symm hkey.1, Ne.symm hkey.2.1, Ne.symm hkey.2.2]
    rw [hs.get_none hnone] at hsome
    cases hsome
  have hrel : cleanRelative (Path.ofString grant.cwd.display) = some grant.cwd := by
    obtain ⟨names, hnames, hc⟩ := h.cwd
    rw [hc, ofString_cwd hnames, cleanRelative_cwd]
  unfold readCommand
  rw [hkeys, hprogram, hargs, hcwd]
  simp only [asStr, asArray, Option.bind_some, readArgs_strings, bind, Except.bind, hrel,
    fromSpec_clean hr ha h]
  rfl

theorem readCommands_clean {root path : Path} (hr : root.Proper) (ha : root.isAbsolute)
    {grants : List CommandGrant} {tables : List Table} (index : ℕ) (policy : PermissionPolicy)
    (hn : (policy ++ grants).Nodup) (h : ∀ grant ∈ grants, Clean root grant)
    (hs : List.Forall₂ Toml.Same ((grants.map commandTable).map .table) (tables.map .table)) :
    readCommands root path index policy tables = .ok (policy ++ grants) := by
  induction grants generalizing index policy tables with
  | nil =>
    cases tables with
    | nil => simp [readCommands]
    | cons => cases hs
  | cons grant grants ih =>
    cases tables with
    | nil => cases hs
    | cons table tables =>
      cases hs with
      | cons hsame hrest =>
        have hnew : policy.contains grant = false := by
          have := List.nodup_append.1 hn
          simpa using fun hm => this.2.2 grant hm grant List.mem_cons_self rfl
        have happ : policy ++ grant :: grants = (policy ++ [grant]) ++ grants := by simp
        rw [readCommands, readCommand_clean hr ha (h grant List.mem_cons_self) hsame]
        simp only [bind, Except.bind, hnew]
        rw [happ] at hn ⊢
        exact ih (index + 1) (policy ++ [grant]) hn (fun g hg => h g (.tail _ hg)) hrest

theorem get_of_replaceCommands {path : Path} {document replaced : Table}
    {grants : List CommandGrant} (h : replaceCommands path document grants = .ok replaced) :
    ∃ agent permissions : Table, Table.get replaced "agent" = some (.table agent) ∧
      Table.get agent "permissions" = some (.table permissions) ∧
      Table.get permissions "commands" = some (.tables (grants.map commandTable)) := by
  unfold replaceCommands at h
  cases hagent : tableAt path "agent" document "agent" with
  | error e => rw [hagent] at h; cases h
  | ok agent =>
    rw [hagent] at h
    simp only [bind, Except.bind] at h
    cases hperm : tableAt path "agent.permissions" agent "permissions" with
    | error e => rw [hperm] at h; cases h
    | ok permissions =>
      rw [hperm] at h
      cases h
      exact ⟨_, _, Table.get_set _ _ _, Table.get_set _ _ _, Table.get_set _ _ _⟩

/-- The policy of a document is what was put into it, when only its text has been taken. -/
theorem policyFromDocument_same {root path : Path} {document replaced reread : Table}
    {policy : PermissionPolicy} (hr : root.Proper) (ha : root.isAbsolute)
    (hp : Granted root policy) (h : replaceCommands path document policy = .ok replaced)
    (hs : Toml.Same (.table replaced) (.table reread)) :
    policyFromDocument root path reread = .ok policy := by
  obtain ⟨agent, permissions, hagent, hperm, hcommands⟩ := get_of_replaceCommands h
  -- a table may be gone when it is blank, and then no grant was put into it
  have hnone : Toml.Blank (.tables (policy.map commandTable)) → policy = [] :=
    fun hblank => List.map_eq_nil_iff.mp hblank.eq_nil
  unfold policyFromDocument
  cases hs with
  | table _ gone held =>
    cases hreread : Table.get reread "agent" with
    | none =>
      have hblank := gone "agent" _ hagent hreread
      rw [hnone ((hblank.of_get hperm).of_get hcommands)]
    | some x =>
      cases held "agent" _ x hagent hreread with
      | @table _ agent' _ gone held =>
        dsimp only
        cases hperm' : Table.get agent' "permissions" with
        | none =>
          have hblank := gone "permissions" _ hperm hperm'
          rw [hnone (hblank.of_get hcommands)]
        | some y =>
          cases held "permissions" _ y hperm hperm' with
          | @table _ permissions' _ gone held =>
            dsimp only
            cases hcommands' : Table.get permissions' "commands" with
            | none => rw [hnone (gone "commands" _ hcommands hcommands')]
            | some z =>
              cases held "commands" _ z hcommands hcommands' with
              | tables hall =>
                exact readCommands_clean hr ha 0 [] (by simpa using hp.1) hp.2 hall

/-- The document that a save writes. -/
def savedDocument (f : Format) (root : Path) (disk : Option ByteArray)
    (policy : PermissionPolicy) : Except FsError Table := do
  let document ← openDocument f root disk
  replaceCommands (settingsPath root) document policy

/-- **A saved policy is loaded as it was**, if the document that was written is read back. -/
theorem load_save {f : Format} {root : Path} (hr : root.Proper)
    (ha : root.isAbsolute) {disk : Option ByteArray} {policy : PermissionPolicy}
    (hp : Granted root policy) {bytes : ByteArray} (h : save f root disk policy = .ok bytes)
    (hf : ∀ t, savedDocument f root disk policy = .ok t → f.Preserves t) :
    load f root (some bytes) = .ok policy := by
  cases hopen : openDocument f root disk with
  | error e => rw [save, hopen] at h; cases h
  | ok document =>
    cases hreplaced : replaceCommands (settingsPath root) document policy with
    | error e =>
      rw [save, hopen] at h
      simp only [bind, Except.bind, hreplaced] at h
      cases h
    | ok replaced =>
      rw [save, hopen] at h
      simp only [bind, Except.bind, hreplaced] at h
      cases h
      have hsaved : savedDocument f root disk policy = .ok replaced := by
        rw [savedDocument, hopen]
        exact hreplaced
      obtain ⟨reread, hparse, hsame⟩ := hf replaced hsaved
      rw [load, readDocument, fromUTF8?_toUTF8]
      simp only [parseDocument, hparse, Except.mapError, bind, Except.bind]
      exact policyFromDocument_same hr ha hp hreplaced hsame

/-! ## Runs -/

/-- A policy and the settings file on disk. -/
structure Settings where
  policy : PermissionPolicy
  disk : Option ByteArray

/-- What happens to the standing grants of a workspace. -/
inductive Deed where
  | remember (spec : TerminalSpec)
  /-- The policy is saved and loaded again. -/
  | store
  /-- The settings file is written by someone else. -/
  | written (disk : Option ByteArray)

/-- One deed. -/
def Settings.step (f : Format) (root : Path) (s : Settings) : Deed → Settings
  | .remember spec => { s with policy := (s.policy.remember root spec).1 }
  | .store =>
    match save f root s.disk s.policy with
    | .error _ => s
    | .ok bytes =>
      match load f root (some bytes) with
      | .error _ => { s with disk := some bytes }
      | .ok policy => { policy, disk := some bytes }
  | .written disk => { s with disk }

/-- The commands that were to be remembered. -/
def remembered (deeds : List Deed) : List TerminalSpec :=
  deeds.filterMap fun
    | .remember spec => some spec
    | _ => none

/-- The policy holds the grants of the safe commands among these, and nothing else. -/
def Holds (root : Path) (given : List TerminalSpec) (policy : PermissionPolicy) : Prop :=
  Granted root policy ∧
    ∀ grant, grant ∈ policy ↔ ∃ spec ∈ given, Safe root spec ∧ grant = grantOf root spec

theorem clean_grantOf {root : Path} {spec : TerminalSpec} (ha : root.isAbsolute)
    (hc : spec.cwd.Proper) (hs : Safe root spec) : Clean root (grantOf root spec) := by
  have hpre : root <+: spec.cwd := List.isPrefixOf_iff_prefix.1 hs.2.2.2
  have hcwd := hc.eq_normals (isAbsolute_of_startsWith ha hs.2.2.2) hs.2.2.1
  obtain ⟨below, hb⟩ := hpre
  have hbelow : ∀ c ∈ below, c.Inner := by
    intro c hm
    cases root with
    | nil => cases ha
    | cons d ds =>
      rw [← hb] at hc
      exact hc.2 c (List.mem_append_right ds hm)
  have hdots : .parentDir ∉ below := fun hm => hs.2.2.1 (hb ▸ List.mem_append_right root hm)
  have hnames := Path.eq_normals_of_inner hbelow hdots
  refine ⟨hs.2.1, fun hm => hs.2.2.1 (hb ▸ List.mem_append_left below hm), Path.normals below, ?_, ?_⟩
  · intro s hm
    have hmem : Component.normal s ∈ below := by
      rw [hnames]
      exact List.mem_map.2 ⟨s, hm, rfl⟩
    exact hbelow _ hmem
  · show relativeTo root spec.cwd = _
    rw [← hb, relativeTo_append, ← hnames]
    by_cases hn : below = []
    · simp [hn, Path.normals]
    · rw [if_neg hn, if_neg]
      intro hnil
      rw [hnil] at hnames
      exact hn hnames

theorem holds_remember {root : Path} {given : List TerminalSpec} {policy : PermissionPolicy}
    {spec : TerminalSpec} (hr : root.Proper) (ha : root.isAbsolute) (hc : spec.cwd.Proper)
    (h : Holds root given policy) : Holds root (given ++ [spec]) (policy.remember root spec).1 := by
  have hmem : ∀ grant, (∃ s ∈ given ++ [spec], Safe root s ∧ grant = grantOf root s) ↔
      grant ∈ policy ∨ Safe root spec ∧ grant = grantOf root spec := by
    intro grant
    rw [h.2 grant]
    simp only [List.mem_append, List.mem_singleton]
    constructor
    · rintro ⟨s, hs | rfl, hsafe⟩
      · exact .inl ⟨s, hs, hsafe⟩
      · exact .inr hsafe
    · rintro (⟨s, hs, hsafe⟩ | hsafe)
      · exact ⟨s, .inl hs, hsafe⟩
      · exact ⟨spec, .inr rfl, hsafe⟩
  unfold PermissionPolicy.remember
  cases hspec : CommandGrant.fromSpec root spec with
  | none =>
    refine ⟨h.1, fun grant => ?_⟩
    rw [hmem]
    refine ⟨.inl, fun hg => hg.elim id fun hg => ?_⟩
    rw [(fromSpec_iff hr ha hc grant).2 hg] at hspec
    cases hspec
  | some grant =>
    have hgrant := (fromSpec_iff hr ha hc grant).1 hspec
    have hclean := clean_grantOf ha hc hgrant.1
    dsimp only
    split
    · rename_i hcontains
      refine ⟨h.1, fun other => ?_⟩
      rw [hmem]
      refine ⟨.inl, fun hg => hg.elim id fun hg => ?_⟩
      rw [hg.2, ← hgrant.2]
      simpa using hcontains
    · rename_i hcontains
      refine ⟨⟨?_, ?_⟩, fun other => ?_⟩
      · have hnew : grant ∉ policy := by simpa using hcontains
        exact List.nodup_append.2 ⟨h.1.1, by simp, fun a ham b hb => by
          rw [List.mem_singleton.1 hb]
          exact fun hab => hnew (hab ▸ ham)⟩
      · intro other hm
        rcases List.mem_append.1 hm with hm | hm
        · exact h.1.2 other hm
        · rw [List.mem_singleton.1 hm, hgrant.2]
          exact hclean
      · rw [hmem, List.mem_append, List.mem_singleton, hgrant.2]
        simp [hgrant.1]

/-- Every document that is saved on the way is read back from what was written of it. -/
def ReadsBack (f : Format) (root : Path) : Settings → List Deed → Prop
  | _, [] => True
  | s, deed :: deeds =>
    (deed = .store → ∀ t, savedDocument f root s.disk s.policy = .ok t → f.Preserves t) ∧
      ReadsBack f root (s.step f root deed) deeds

theorem step_holds {f : Format} {root : Path} (hr : root.Proper) (ha : root.isAbsolute)
    {given : List TerminalSpec} {s : Settings} (deed : Deed)
    (hf : deed = .store → ∀ t, savedDocument f root s.disk s.policy = .ok t → f.Preserves t)
    (hd : ∀ spec ∈ remembered [deed], spec.cwd.Proper) (h : Holds root given s.policy) :
    Holds root (given ++ remembered [deed]) (s.step f root deed).policy := by
  cases deed with
  | remember spec => exact holds_remember hr ha (hd spec (by simp [remembered])) h
  | written disk =>
    show Holds root (given ++ []) s.policy
    rwa [List.append_nil]
  | store =>
    have hsame : (s.step f root .store).policy = s.policy := by
      unfold Settings.step
      dsimp only
      split
      · rfl
      · rename_i bytes hs
        rw [load_save hr ha h.1 hs (hf rfl)]
    rw [hsame]
    simpa [remembered] using h

theorem run_holds {f : Format} {root : Path} (hr : root.Proper) (ha : root.isAbsolute)
    {given : List TerminalSpec} {s : Settings} (deeds : List Deed) (hf : ReadsBack f root s deeds)
    (hd : ∀ spec ∈ remembered deeds, spec.cwd.Proper) (h : Holds root given s.policy) :
    Holds root (given ++ remembered deeds) (deeds.foldl (Settings.step f root) s).policy := by
  induction deeds generalizing given s with
  | nil => simpa [remembered] using h
  | cons deed deeds ih =>
    have hsplit : remembered (deed :: deeds) = remembered [deed] ++ remembered deeds :=
      List.filterMap_append (l := [deed])
    rw [hsplit] at hd ⊢
    rw [List.foldl_cons, ← List.append_assoc]
    refine ih hf.2 (fun spec hs => hd spec (List.mem_append_right _ hs)) ?_
    exact step_holds hr ha deed hf.1 (fun spec hs => hd spec (List.mem_append_left _ hs)) h

/-- A workspace, and a command in one of its directories. -/
def grantRoot : Path := Path.ofString "/proj"

def cargoTest (cwd : String) : TerminalSpec := ⟨"cargo", ["test"], Path.ofString cwd, []⟩

/-- The document that is saved for one grant. -/
def cargoDocument : Table :=
  [("agent", .table [("permissions", .table [("commands",
    .tables [commandTable ⟨"cargo", ["test"], [.normal "src"]⟩])])])]

/-- Its text. -/
def cargoText : String :=
  "[agent]\n\n[agent.permissions]\n\n[[agent.permissions.commands]]\n" ++
    "program = \"cargo\"\nargs = [\"test\"]\ncwd = \"src\"\n"

/-- A reader and a writer of this text. -/
def cargoFormat : Format where
  parse text := if text = cargoText then .ok cargoDocument else .error "expected the grant"
  print _ := cargoText

end PermissionStore

end App

end Termesh
