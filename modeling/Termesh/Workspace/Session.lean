import Termesh.Core.Path
import Termesh.Lib.Values

/-!
# The session file

What survives a restart, and how it is read from a document and written to one. Each record but the
lines of the agent's history carries the keys of its table that it does not know. Paths are held as
they are written.

* `PaneGeometry`, `AgentHistoryLine`, `RestoredWorkspace`, `Session`: the records, each with
  `serialize` and `deserialize`;
* `Session.parse`: a session from a text, with what was left aside on the way;
* `Session.record`, `Session.save`: a workspace opened, and the text of a session.
-/

namespace Termesh

namespace Workspace

open Toml (Fields Unknown TextFormat)

/-! ## Reading one key -/

/-- The text of a string. -/
def asString : Toml.Value → Option String
  | .string s => some s
  | _ => none

/-- A `u16`. -/
def asU16 : Toml.Value → Option UInt16
  | .integer n => if 0 ≤ n ∧ n < 2 ^ 16 then some (UInt16.ofNat n.toNat) else none
  | _ => none

/-- A `u32`. -/
def asU32 : Toml.Value → Option UInt32
  | .integer n => if 0 ≤ n ∧ n < 2 ^ 32 then some (UInt32.ofNat n.toNat) else none
  | _ => none

/-- A vector. -/
def asVec {α : Type} (read : Toml.Value → Option α) : Toml.Value → Option (List α)
  | .array items => items.mapM read
  | _ => none

/-- A key that may be missing: `#[serde(default)]`. -/
def fieldOr {α : Type} (t : Fields) (key : String) (default : α) (read : Toml.Value → Option α) :
    Option α :=
  match t.get key with
  | none => some default
  | some value => read value

/-- An array of strings. -/
def strings (l : List String) : Toml.Value := .array (l.map .string)

/-! ## The records -/

/-- The keys that `PaneGeometry` knows. -/
def layoutKeys : List String := ["sidebar_pct", "bottom_pct", "agent_pct"]

/-- The sizes of the panes, in percent. -/
structure PaneGeometry where
  sidebarPct : UInt16
  bottomPct : UInt16
  agentPct : UInt16
  unknown : Unknown layoutKeys

namespace PaneGeometry

/-- `Default`. -/
def default : PaneGeometry where
  sidebarPct := 22
  bottomPct := 32
  agentPct := 26
  unknown := .none

/-- The keys it knows, as they are written. -/
def fields (g : PaneGeometry) : Fields :=
  [("sidebar_pct", .integer g.sidebarPct.toNat), ("bottom_pct", .integer g.bottomPct.toNat),
    ("agent_pct", .integer g.agentPct.toNat)]

/-- The table that is written. -/
def serialize (g : PaneGeometry) : Toml.Value := .table (g.fields ++ g.unknown.fields)

/-- The geometry of a table. -/
def deserialize : Toml.Value → Option PaneGeometry
  | .table t => do
    let sidebarPct ← fieldOr t "sidebar_pct" default.sidebarPct asU16
    let bottomPct ← fieldOr t "bottom_pct" default.bottomPct asU16
    let agentPct ← fieldOr t "agent_pct" default.agentPct asU16
    some { sidebarPct, bottomPct, agentPct, unknown := .rest layoutKeys t }
  | _ => none

end PaneGeometry

/-- Whose line of the history it is. -/
inductive AgentHistorySpeaker where
  | you
  | agent
  | thought
deriving DecidableEq

namespace AgentHistorySpeaker

/-- `#[serde(rename_all = "snake_case")]`. -/
def name : AgentHistorySpeaker → String
  | you => "you"
  | agent => "agent"
  | thought => "thought"

/-- The speaker of a name. -/
def deserialize : Toml.Value → Option AgentHistorySpeaker
  | .string "you" => some you
  | .string "agent" => some agent
  | .string "thought" => some thought
  | _ => none

end AgentHistorySpeaker

/-- The keys that `AgentHistoryLine` knows. -/
def lineKeys : List String := ["speaker", "text"]

/-- One line of the prior agent session. What else its table holds is not kept. -/
structure AgentHistoryLine where
  speaker : AgentHistorySpeaker
  text : String
deriving DecidableEq

namespace AgentHistoryLine

/-- The fields that are written. -/
def fields (line : AgentHistoryLine) : Fields :=
  [("speaker", .string line.speaker.name), ("text", .string line.text)]

/-- The table that is written. -/
def serialize (line : AgentHistoryLine) : Toml.Value := .table line.fields

/-- The line of a table. -/
def deserialize : Toml.Value → Option AgentHistoryLine
  | .table t => do
    let speaker ← (Fields.get t "speaker").bind AgentHistorySpeaker.deserialize
    let text ← (Fields.get t "text").bind asString
    some { speaker, text }
  | _ => none

end AgentHistoryLine

/-- The keys that `RestoredWorkspace` knows. -/
def workspaceKeys : List String :=
  ["root", "open", "active", "layout", "terminals", "agent_history"]

/-- What is remembered of a workspace. -/
structure RestoredWorkspace where
  root : String
  open_ : List String
  active : Option String
  layout : PaneGeometry
  terminals : List String
  agentHistory : List AgentHistoryLine
  unknown : Unknown workspaceKeys

namespace RestoredWorkspace

/-- `Default`. -/
def default : RestoredWorkspace where
  root := ""
  open_ := []
  active := none
  layout := .default
  terminals := []
  agentHistory := []
  unknown := .none

/-- The keys it knows, as they are written; nothing is written for what is `None`. -/
def fields (w : RestoredWorkspace) : Fields :=
  [("root", .string w.root), ("open", strings w.open_)] ++
    (w.active.map fun path => ("active", .string path)).toList ++
    [("layout", w.layout.serialize), ("terminals", strings w.terminals),
      ("agent_history", .array (w.agentHistory.map (·.serialize)))]

/-- The table that is written. -/
def serialize (w : RestoredWorkspace) : Toml.Value := .table (w.fields ++ w.unknown.fields)

/-- The workspace of a table. -/
def deserialize : Toml.Value → Option RestoredWorkspace
  | .table t => do
    let root ← fieldOr t "root" default.root asString
    let open_ ← fieldOr t "open" default.open_ (asVec asString)
    let active ← fieldOr t "active" default.active (fun v => (asString v).map some)
    let layout ← fieldOr t "layout" default.layout PaneGeometry.deserialize
    let terminals ← fieldOr t "terminals" default.terminals (asVec asString)
    let agentHistory ← fieldOr t "agent_history" default.agentHistory
      (asVec AgentHistoryLine.deserialize)
    some { root, open_, active, layout, terminals, agentHistory, unknown := .rest workspaceKeys t }
  | _ => none

end RestoredWorkspace

/-- The keys that `Session` knows. -/
def sessionKeys : List String := ["version", "recent", "workspace"]

/-- What is remembered between two runs. -/
structure Session where
  version : UInt32
  /-- Most recently opened first. -/
  recent : List String
  workspace : Option RestoredWorkspace
  unknown : Unknown sessionKeys

/-- What was wrong with a session file, and what is used instead. -/
structure SessionDiagnostic where
  problem : String
  fallback : String
deriving DecidableEq

namespace Session

/-- `CURRENT_VERSION`. -/
def currentVersion : UInt32 := 1

/-- `MAX_RECENT`. -/
def maxRecent : ℕ := 20

/-- `Default`. -/
def default : Session where
  version := currentVersion
  recent := []
  workspace := none
  unknown := .none

/-- The keys it knows, as they are written. -/
def fields (s : Session) : Fields :=
  [("version", .integer s.version.toNat), ("recent", strings s.recent)] ++
    (s.workspace.map fun w => ("workspace", w.serialize)).toList

/-- The document that is written. -/
def serialize (s : Session) : Fields := s.fields ++ s.unknown.fields

/-- The session of a document. -/
def deserialize (t : Fields) : Option Session := do
  let version ← fieldOr t "version" default.version asU32
  let recent ← fieldOr t "recent" default.recent (asVec asString)
  let workspace ← fieldOr t "workspace" default.workspace
    (fun v => (RestoredWorkspace.deserialize v).map some)
  some { version, recent, workspace, unknown := .rest sessionKeys t }

/-- What is said of the keys of a table that are not known. -/
def unknownDiagnostics {known : List String} (place : String) (e : Unknown known) :
    List SessionDiagnostic :=
  e.fields.map fun field =>
    { problem := "unknown session key '" ++ place ++ field.1 ++ "'"
      fallback := "preserving it unchanged" }

/-- What is said of a version. -/
def versionDiagnostics (version : UInt32) : List SessionDiagnostic :=
  if currentVersion < version then
    [{ problem := "version " ++ toString version ++
          " is newer than this build understands (current: " ++ toString currentVersion ++ ")"
       fallback := "loaded what was understood and preserved newer fields" }]
  else []

/-- `Session::parse`: a session of an older version is one of the current version from here on. -/
def parse (f : TextFormat) (text : String) : Session × List SessionDiagnostic :=
  match (f.parse text).bind deserialize with
  | none => (default, [{ problem := f.error text, fallback := "using an empty session" }])
  | some session =>
    let version := if session.version < currentVersion then currentVersion else session.version
    ({ session with version },
      versionDiagnostics session.version ++ unknownDiagnostics "" session.unknown ++
        session.workspace.toList.flatMap fun w =>
          unknownDiagnostics "workspace." w.unknown ++
            unknownDiagnostics "workspace.layout." w.layout.unknown)

/-- Record a workspace as most recently used. -/
def record (s : Session) (root : String) : Session :=
  let others := s.recent.filter fun p => Path.ofString p ≠ Path.ofString root
  { s with recent := (root :: others).take maxRecent }

/-- The text that `save` writes. -/
def save (f : TextFormat) (s : Session) : String := f.print s.serialize

end Session

end Workspace

end Termesh
