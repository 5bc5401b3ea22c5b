import Termesh.Core.Task
import Termesh.App.Input
import Termesh.Workspace.Permissions
import Termesh.Lib.First

/-!
# Tasks

A task runs in a terminal of its own. The run is joined to it by the terminal's id, and follows the
events of its process; a decoder reads the output before the terminal does.

* `TaskRun`, `TaskDesk`: the model with the runs it keeps;
* `runTask`, `cancelLatestTask`, `attachTaskRun`, `attachAgentTasks`;
* `decodeTaskOutput`, `onPtyEvent`: an event of a process;
* `TaskDesk.step`: one deed.

The picker of tasks and the list of problems on screen are left out.
-/

namespace Termesh

namespace App

/-- A task that was run, and the terminal it runs in. -/
structure TaskRun (δ : Type) where
  id : ℕ
  spec : TaskSpec
  terminal : TerminalId
  origin : TaskOrigin
  status : TaskStatus
  problems : List Problem
  cancelRequested : Bool
  decoder : Option δ
deriving DecidableEq, Repr

/-- The model with its task runs. -/
structure TaskDesk (δ : Type) where
  model : Model
  catalog : List TaskSpec := []
  runs : List (TaskRun δ) := []
  nextTaskRunId : ℕ := 0

/-- The most runs that are remembered. -/
def maxTaskRuns : ℕ := 20

/-- The most problems that are kept of a run. -/
def maxProblems : ℕ := 500

/-- Where a problem is, unless its path climbs. -/
def normalizeProblem (cwd : Path) (problem : Problem) : Option Problem :=
  if Component.parentDir ∈ problem.path then none
  else if problem.path.isAbsolute then some problem
  else some { problem with path := PermissionStore.joinPath cwd problem.path }

/-- Two problems say the same of the same place. -/
def sameProblem (p q : Problem) : Bool :=
  p.path = q.path && p.line = q.line && p.column = q.column && p.message = q.message

/-- Keep a decoded problem, once. -/
def addProblem (cwd : Path) (problems : List Problem) (problem : Problem) : List Problem :=
  match normalizeProblem cwd problem with
  | none => problems
  | some problem =>
    if !problems.any (sameProblem · problem) && decide (problems.length < maxProblems) then
      problems ++ [problem]
    else problems

namespace TaskRun

variable {δ : Type} (σ : TaskService δ)

/-- Decode output of the process, or its end: what is left to show of it. -/
def decode (run : TaskRun δ) (bytes : Option (List UInt8)) : List UInt8 × TaskRun δ :=
  let (decoder, decoded) := σ.decode run.decoder bytes
  (decoded.display,
    { run with
      decoder
      problems := decoded.problems.foldl (addProblem run.spec.cwd) run.problems })

/-- What the end of its process makes of a run. -/
def ended (cancelRequested : Bool) (exit : TerminalExit) : TaskStatus :=
  if cancelRequested then .cancelled
  else if exit.code = some 0 then .succeeded
  else .failed

end TaskRun

namespace TaskDesk

variable {δ : Type} (h : Host) (σ : TaskService δ)

/-- The run attached to a terminal. -/
def runOf (d : TaskDesk δ) (terminal : TerminalId) : Option (TaskRun δ) :=
  d.runs.find? (·.terminal = terminal)

/-- The run of a terminal changes. -/
def modifyRun (d : TaskDesk δ) (terminal : TerminalId) (f : TaskRun δ → TaskRun δ) : TaskDesk δ :=
  { d with runs := Firsts.modifyFirst (·.terminal = terminal) f d.runs }

/-! ## Runs -/

/-- Follow a terminal's process as a run of a task. -/
def attachTaskRun (d : TaskDesk δ) (spec : TaskSpec) (terminal : TerminalId) (origin : TaskOrigin) :
    TaskDesk δ :=
  let run : TaskRun δ :=
    { id := d.nextTaskRunId + 1, spec, terminal, origin, status := .starting, problems := []
      cancelRequested := false, decoder := σ.decoder spec }
  let runs := d.runs ++ [run]
  { d with
    model := d.model.modifyTerminal terminal fun t => { t with title := spec.label }
    nextTaskRunId := d.nextTaskRunId + 1
    runs := if runs.length > maxTaskRuns then runs.eraseIdx 0 else runs }

/-- A task is run in a terminal of its own. -/
def runTask (d : TaskDesk δ) (spec : TaskSpec) : TaskDesk δ :=
  let (terminal, model) := d.model.createTerminalWithLimit
    ⟨spec.program, spec.args, spec.cwd, []⟩ .humanCommand defaultCaptureLimit
  { d with model }.attachTaskRun σ spec terminal .human

/-- The task of the catalog that a terminal's command is. -/
def catalogTask (d : TaskDesk δ) (spec : TerminalSpec) : Option TaskSpec :=
  d.catalog.find? fun task =>
    task.program = spec.program && task.args = spec.args && task.cwd = spec.cwd && spec.env = []

/-- Attach a run to a terminal just created for the agent, if its command is a task. -/
def attachAgentTask (d : TaskDesk δ) (t : TerminalSession) : TaskDesk δ :=
  match t.owner, d.catalogTask t.spec with
  | .agent session, some task => d.attachTaskRun σ task t.id (.agent session)
  | _, _ => d

/-- The terminals numbered above `before` are new. -/
def attachAgentTasks (d : TaskDesk δ) (before : ℕ) : TaskDesk δ :=
  (d.model.terminals.filter fun t => before < t.id.val).foldl (attachAgentTask σ) d

/-- A task that may still be cancelled. -/
def cancellable (run : TaskRun δ) : Bool := run.status.isActive && !run.cancelRequested

/-- The latest task that can be cancelled is killed. -/
def cancelLatestTask (d : TaskDesk δ) : TaskDesk δ :=
  match d.runs.reverse.find? cancellable with
  | none => { d with model := d.model.notify "no running task" }
  | some run =>
    match d.model.terminalWithId run.terminal with
    | none => d
    | some t =>
      { d.modifyRun run.terminal (fun run => { run with cancelRequested := true }) with
        model := d.model.sendPty (.kill t.id t.generation) }

/-! ## Events -/

/-- Decode what a terminal's process wrote, or its end. -/
def decodeTaskOutput (d : TaskDesk δ) (terminal : TerminalId) (bytes : Option (List UInt8)) :
    List UInt8 × TaskDesk δ :=
  match d.runOf terminal with
  | none => (bytes.getD [], d)
  | some run =>
    ((run.decode σ bytes).1, d.modifyRun terminal fun run => (run.decode σ bytes).2)

/-- The event is about the process that its terminal has now. -/
def hears (d : TaskDesk δ) (event : PtyEvent) : Bool :=
  match d.model.terminalWithId (Model.eventTerminal event).1 with
  | none => false
  | some t => t.generation = (Model.eventTerminal event).2 && !t.released

/-- Absorb an event of a terminal that has its generation. -/
def absorbPtyEvent (d : TaskDesk δ) : PtyEvent → TaskDesk δ
  | .spawned terminal generation processId =>
    { d.modifyRun terminal (fun run => { run with status := .running }) with
      model := d.model.onPtyEvent h (.spawned terminal generation processId) }
  | .output terminal generation bytes =>
    -- the decoder reads it, whether or not the terminal still takes it
    let (bytes, d) := d.decodeTaskOutput σ terminal (some bytes)
    { d with model := d.model.onPtyEvent h (.output terminal generation bytes) }
  | .exited terminal generation exit =>
    let (trailing, d) := d.decodeTaskOutput σ terminal none
    let model := d.model.modifyTerminal terminal fun t =>
      { t with captured := t.captured ++ trailing }
    { d.modifyRun terminal (fun run =>
        { run with status := TaskRun.ended run.cancelRequested exit }) with
      model := model.onPtyEvent h (.exited terminal generation exit) }
  | .failed terminal generation message =>
    match d.model.terminalWithId terminal with
    | some { status := .exited _, .. } => d
    | _ =>
      { d.modifyRun terminal (fun run => { run with status := .failed }) with
        model := d.model.onPtyEvent h (.failed terminal generation message) }

/-- An event of a terminal, unless it is out of date. -/
def onPtyEvent (d : TaskDesk δ) (event : PtyEvent) : TaskDesk δ :=
  if d.hears event then d.absorbPtyEvent h σ event else d

/-! ## Deeds -/

/-- What happens to the tasks. -/
inductive TaskDeed where
  | runTask (spec : TaskSpec)
  | cancelLatestTask
  /-- Opening a workspace finds its tasks. -/
  | setCatalog (catalog : List TaskSpec)
  | event (event : Event)

/-- One deed. -/
def step (d : TaskDesk δ) : TaskDeed → Option (TaskDesk δ)
  | .runTask spec => some (d.runTask σ spec)
  | .cancelLatestTask => some d.cancelLatestTask
  | .setCatalog catalog => some { d with catalog }
  | .event (.pty event) => some (d.onPtyEvent h σ event)
  | .event event =>
    (d.model.step h event).map fun model =>
      { d with model }.attachAgentTasks σ d.model.nextTerminalId

end TaskDesk

end App

end Termesh
