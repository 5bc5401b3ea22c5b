import Termesh.App.LanguageEdits
import Termesh.Core.Git

/-!
# The Git part of the application

The latest snapshot of the repository, the requests in flight for it, and the overlays that show it.
`GitDesk` holds what `Model` keeps for Git, with the whole stack of overlays; overlays that are not
about Git are kept without their contents, apart from the prompt for a commit.

* `GitStatusOverlay.ofSnapshot`: the rows of a snapshot;
* `requestGitRefresh`, `onGitEvent`, `refreshGitStatusOverlay`;
* `showGitStatus`, `stageSelectedGitRow` and the other commands;
* `GitDesk.step`: everything that happens to this part of the model.
-/

namespace Termesh

namespace App

/-- The three groups of the status list. -/
inductive GitGroup where
  | conflicts
  | staged
  | changes
deriving DecidableEq, Repr

/-- Groups are listed in this order. -/
def GitGroup.rank : GitGroup → ℕ
  | conflicts => 0
  | staged => 1
  | changes => 2

/-- A row of the status list. -/
structure GitStatusRow where
  group : GitGroup
  path : Path
  target : GitDiffTarget
  kind : GitChangeKind
  outsideWorkspace : Bool
deriving DecidableEq, Repr

/-- Rows are listed by group, and by path in a group. -/
def GitStatusRow.le (l r : GitStatusRow) : Bool :=
  if l.group = r.group then l.path.le r.path else decide (l.group.rank < r.group.rank)

/-- The status list, with the row under the cursor. -/
structure GitStatusOverlay where
  rows : List GitStatusRow
  selected : ℕ
  previousFocus : Pane
deriving DecidableEq, Repr

namespace GitStatusOverlay

/-- The workspace below its repository, when it is below it. -/
def workspacePrefix (s : GitRepositorySnapshot) : Option Path :=
  if s.workspaceRoot.startsWith s.repositoryRoot then
    some (s.workspaceRoot.drop s.repositoryRoot.length)
  else none

/-- A file of the repository that the workspace does not hold. -/
def outsideWorkspace (s : GitRepositorySnapshot) (path : Path) : Bool :=
  match workspacePrefix s with
  | none => true
  | some below => below ≠ [] && !path.startsWith below

/-- The rows of one changed file. -/
def fileRows (s : GitRepositorySnapshot) (file : GitFileStatus) : List GitStatusRow :=
  let outside := outsideWorkspace s file.path
  if file.index = some .conflicted ∨ file.worktree = some .conflicted then
    [⟨.conflicts, file.path, .worktree, .conflicted, outside⟩]
  else
    (file.index.map fun kind => ⟨.staged, file.path, .index, kind, outside⟩).toList ++
      (file.worktree.map fun kind => ⟨.changes, file.path, .worktree, kind, outside⟩).toList

/-- The rows of a snapshot, in order. -/
def statusRows (s : GitRepositorySnapshot) : List GitStatusRow :=
  (s.files.flatMap (fileRows s)).insertionSort fun l r => l.le r = true

/-- `GitStatusOverlay::new`. -/
def ofSnapshot (s : GitRepositorySnapshot) (previousFocus : Pane) : GitStatusOverlay :=
  ⟨statusRows s, 0, previousFocus⟩

/-- `selected`: the row under the cursor. -/
def row (o : GitStatusOverlay) : Option GitStatusRow := o.rows[o.selected]?

def moveUp (o : GitStatusOverlay) : GitStatusOverlay :=
  if o.rows = [] then o
  else { o with selected := (o.selected + o.rows.length - 1) % o.rows.length }

def moveDown (o : GitStatusOverlay) : GitStatusOverlay :=
  if o.rows = [] then o else { o with selected := (o.selected + 1) % o.rows.length }

end GitStatusOverlay

/-- A diff under review. How far it is scrolled is left out. -/
structure GitDiffOverlay where
  path : Path
  target : GitDiffTarget
  text : Option String := none
  truncated : Bool := false
  error : Option String := none
  notice : Option String := none
deriving DecidableEq, Repr

/-- The branch list, with the row under the cursor. -/
structure GitBranchesOverlay where
  branches : List GitBranch
  selected : ℕ
  previousFocus : Pane
deriving DecidableEq, Repr

namespace GitBranchesOverlay

/-- The list of the branches, with the cursor on the current one. -/
def ofBranches (branches : List GitBranch) (previousFocus : Pane) : GitBranchesOverlay :=
  ⟨branches, (branches.findIdx? (·.current)).getD 0, previousFocus⟩

def moveUp (o : GitBranchesOverlay) : GitBranchesOverlay :=
  if o.branches = [] then o
  else { o with selected := (o.selected + o.branches.length - 1) % o.branches.length }

def moveDown (o : GitBranchesOverlay) : GitBranchesOverlay :=
  if o.branches = [] then o else { o with selected := (o.selected + 1) % o.branches.length }

end GitBranchesOverlay

/-- What lies over the panes, bottom first. -/
inductive Surface where
  | gitStatus (status : GitStatusOverlay)
  | gitDiff (diff : GitDiffOverlay)
  | gitBranches (branches : GitBranchesOverlay)
  /-- The prompt for a commit message. -/
  | gitCommit
  /-- The palette, the help, another prompt, and every other overlay. -/
  | other
deriving DecidableEq, Repr

/-- What is known of the repository. -/
inductive GitLoadState where
  | idle
  | loading
  | ready
  | unavailable (failure : GitFailure)
  | stale (failure : GitFailure)
deriving DecidableEq, Repr

/-- What the model knows of Git, and what it is waiting for. -/
structure GitState where
  load : GitLoadState := .idle
  snapshot : Option GitRepositorySnapshot := none
  diff : Option GitFileDiff := none
  branches : List GitBranch := []
  activeRefresh : Option GitRequestId := none
  activeDiff : Option GitRequestId := none
  activeBranches : Option GitRequestId := none
  activeOperation : Option (GitRequestId × GitOperation) := none
  pendingRefresh : Bool := false
deriving DecidableEq, Repr

/-- What the model keeps for Git, and what it shares with it. -/
structure GitDesk where
  git : GitState := {}
  outbox : List GitRequest := []
  nextRequestId : ℕ := 0
  /-- The workspace that is open. -/
  root : Option Path := none
  overlays : List Surface := []
  focus : Pane := .project
  notification : Option String := none
deriving DecidableEq, Repr

namespace GitDesk

/-- A message for the human. -/
def notify (d : GitDesk) (message : String) : GitDesk := { d with notification := some message }

/-- One more overlay. -/
def push (d : GitDesk) (o : Surface) : GitDesk := { d with overlays := d.overlays ++ [o] }

/-- Queue a request under the next id. -/
def queue (d : GitDesk) (request : GitRequestId → GitRequest) : GitDesk :=
  { d with outbox := d.outbox ++ [request ⟨d.nextRequestId + 1⟩]
           nextRequestId := d.nextRequestId + 1 }

/-- Replace the overlay on top. -/
def setTop (d : GitDesk) (o : Surface) : GitDesk :=
  { d with overlays := d.overlays.dropLast ++ [o] }

/-! ## Refreshing -/

/-- A refresh is sent, or left pending behind the one in flight. -/
def requestGitRefresh (d : GitDesk) : GitDesk :=
  match d.root with
  | none => d
  | some root =>
    if d.git.activeRefresh.isSome then { d with git := { d.git with pendingRefresh := true } }
    else
      { d with git := { d.git with activeRefresh := some ⟨d.nextRequestId + 1⟩
                                   load := .loading } }.queue fun id => .refresh id root

/-- The refresh in flight is over, and the pending one is sent. -/
def finishGitRefresh (d : GitDesk) : GitDesk :=
  let pending := d.git.pendingRefresh
  let d := { d with git := { d.git with activeRefresh := none, pendingRefresh := false } }
  if pending then d.requestGitRefresh else d

/-- A status overlay against a newer snapshot: the cursor stays on its group and path, or else on
its index. -/
def reanchored (status : GitStatusOverlay) (snapshot : GitRepositorySnapshot) : GitStatusOverlay :=
  let refreshed := GitStatusOverlay.ofSnapshot snapshot status.previousFocus
  let anchor := status.row.bind fun row =>
    refreshed.rows.findIdx? fun r => r.group = row.group ∧ r.path = row.path
  { refreshed with selected := anchor.getD (min status.selected (refreshed.rows.length - 1)) }

/-- The status list on top shows the new snapshot. -/
def refreshGitStatusOverlay (d : GitDesk) (snapshot : GitRepositorySnapshot) : GitDesk :=
  match d.overlays.getLast? with
  | some (.gitStatus status) => d.setTop (.gitStatus (reanchored status snapshot))
  | _ => d

/-- A failure that leaves what is known. -/
def staleOrUnavailable (d : GitDesk) (failure : GitFailure) (known : Bool) : GitLoadState :=
  if d.git.snapshot.isSome && known then .stale failure else .unavailable failure

/-- A request failed; which one, its id tells. -/
def onGitFailed (d : GitDesk) (id : GitRequestId) (operationApplied : Bool)
    (failure : GitFailure) : GitDesk :=
  if d.git.activeRefresh = some id then
    let notRepository := failure.kind = .notRepository
    let load := d.staleOrUnavailable failure (¬ notRepository)
    let d := { d with git := { d.git with load } }
    let d := if notRepository then d else d.notify ("Git: " ++ failure.message)
    d.finishGitRefresh
  else if d.git.activeDiff = some id then
    let d := { d with git := { d.git with activeDiff := none } }
    let d := match d.overlays.getLast? with
      | some (.gitDiff o) => d.setTop (.gitDiff { o with error := some failure.message })
      | _ => d
    d.notify ("Git: " ++ failure.message)
  else if d.git.activeBranches = some id then
    { d with git := { d.git with activeBranches := none } }.notify ("Git: " ++ failure.message)
  else if d.git.activeOperation.map Prod.fst = some id then
    if operationApplied then
      { d with git := { d.git with activeOperation := none
                                   load := d.staleOrUnavailable failure true } }.notify
        ("Git operation completed, but status refresh failed: " ++ failure.message)
    else
      { d with git := { d.git with activeOperation := none } }.notify ("Git: " ++ failure.message)
  else d

/-- Absorb a result from the Git worker. -/
def onGitEvent (d : GitDesk) : GitEvent → GitDesk
  | .started _ => d
  | .snapshotLoaded id snapshot =>
    if d.git.activeRefresh ≠ some id then d
    else
      let d := d.refreshGitStatusOverlay snapshot
      { d with git := { d.git with snapshot := some snapshot, load := .ready } }.finishGitRefresh
  | .diffLoaded id diff =>
    if d.git.activeDiff ≠ some id then d
    else
      let d := match d.overlays.getLast? with
        | some (.gitDiff o) =>
          if o.path = diff.path ∧ o.target = diff.target then
            d.setTop (.gitDiff { o with text := some diff.text, truncated := diff.truncated
                                        error := none })
          else d
        | _ => d
      { d with git := { d.git with diff := some diff, activeDiff := none } }
  | .branchesLoaded id branches =>
    if d.git.activeBranches ≠ some id then d
    else
      let d := { d with git := { d.git with branches, activeBranches := none } }
      if branches = [] then d.notify "No local Git branches are available"
      else d.push (.gitBranches (GitBranchesOverlay.ofBranches branches d.focus))
  | .operationFinished id _ message snapshot =>
    if d.git.activeOperation.map Prod.fst ≠ some id then d
    else
      let d := { d with git := { d.git with activeOperation := none } }
      let d := d.refreshGitStatusOverlay snapshot
      { d with git := { d.git with snapshot := some snapshot, load := .ready } }.notify message
  | .failed id operationApplied failure => d.onGitFailed id operationApplied failure

/-- The snapshot that an event brings and that is taken over. -/
def takes (d : GitDesk) : GitEvent → Option GitRepositorySnapshot
  | .snapshotLoaded id s => if d.git.activeRefresh = some id then some s else none
  | .operationFinished id _ _ s =>
    if d.git.activeOperation.map Prod.fst = some id then some s else none
  | _ => none

/-! ## Commands -/

/-- The status overlay, when it is on top. -/
def statusOnTop (d : GitDesk) : Option GitStatusOverlay :=
  match d.overlays.getLast? with
  | some (.gitStatus status) => some status
  | _ => none

/-- The status list is opened, if it is not on top. -/
def showGitStatus (d : GitDesk) : GitDesk :=
  let d := d.requestGitRefresh
  if d.statusOnTop.isSome then d
  else
    match d.git.snapshot with
    | none =>
      d.notify <| match d.git.load with
        | .loading => "Git status is still loading"
        | .unavailable failure => "Git status unavailable: " ++ failure.message
        | _ => "No Git repository status is available for this workspace"
    | some snapshot => d.push (.gitStatus (GitStatusOverlay.ofSnapshot snapshot d.focus))

/-- The row under the cursor of the status list. -/
def selectedGitStatusRow (d : GitDesk) : Option GitStatusRow := d.statusOnTop.bind (·.row)

/-- The diff of the row under the cursor is asked for. -/
def openSelectedGitDiff (d : GitDesk) : GitDesk :=
  if d.git.activeDiff.isSome then d.notify "A Git diff is already loading"
  else
    match d.selectedGitStatusRow with
    | none => d.notify "No changed file is selected"
    | some selected =>
      match d.root with
      | none => d.notify "Open a workspace before reviewing Git changes"
      | some root =>
        if selected.kind = .untracked then
          d.push (.gitDiff
            { path := selected.path, target := selected.target
              notice := some ("Untracked: Git has no recorded version to diff against.\n" ++
                "Stage it (s) to review it as a diff, or open it in the editor.") })
        else
          ({ d with git := { d.git with activeDiff := some ⟨d.nextRequestId + 1⟩, diff := none } }.queue
            fun id => .diff id root selected.path selected.target).push
              (.gitDiff { path := selected.path, target := selected.target })

/-- An operation is sent, one at a time. -/
def queueGitOperation (d : GitDesk) (operation : GitOperation) : GitDesk :=
  if d.git.activeOperation.isSome then d.notify "A Git operation is already running"
  else
    match d.root with
    | none => d.notify "Open a workspace before running Git"
    | some root =>
      { d with git := { d.git with
                          activeOperation := some (⟨d.nextRequestId + 1⟩, operation) } }.queue
        fun id => .execute id root operation

/-- The file under the cursor is staged. -/
def stageSelectedGitRow (d : GitDesk) : GitDesk :=
  match d.selectedGitStatusRow with
  | none =>
    let d := d.showGitStatus
    if d.statusOnTop.isSome then d.notify "Select a changed file to stage" else d
  | some row =>
    if row.target ≠ .worktree then d.notify "Select a worktree change to stage"
    else d.queueGitOperation (.stage row.path)

/-- The file under the cursor is unstaged. -/
def unstageSelectedGitRow (d : GitDesk) : GitDesk :=
  match d.selectedGitStatusRow with
  | none => d.notify "Open Git Changes and select a staged file"
  | some row =>
    if row.target ≠ .index then d.notify "Select a staged change to unstage"
    else d.queueGitOperation (.unstage row.path)

/-- The commit message is asked for, if something is staged and nothing in conflict. -/
def promptGitCommit (d : GitDesk) : GitDesk :=
  let files := (d.git.snapshot.map (·.files)).getD []
  if files.any fun f => f.index = some .conflicted ∨ f.worktree = some .conflicted then
    d.notify "Resolve and stage the conflicts before committing"
  else if files.all fun f => f.index = none then d.notify "There is nothing staged to commit"
  else if d.git.activeOperation.isSome then d.notify "A Git operation is already running"
  else d.push .gitCommit

/-- The branches are asked for. -/
def requestGitBranches (d : GitDesk) : GitDesk :=
  if d.git.activeBranches.isSome then d.notify "Git branches are already loading"
  else if d.git.activeOperation.isSome then d.notify "A Git operation is already running"
  else
    match d.root with
    | none => d.notify "Open a workspace before switching branches"
    | some root =>
      { d with git := { d.git with activeBranches := some ⟨d.nextRequestId + 1⟩ } }.queue
        fun id => .branches id root

/-- What opening a workspace does to Git. -/
def openWorkspace (d : GitDesk) (root : Path) : GitDesk :=
  { d with root := some root, focus := .project, git := {}, outbox := [] }.requestGitRefresh

/-! ## Keys -/

/-- Escape, in front of an overlay. -/
def close (d : GitDesk) : GitDesk :=
  match d.overlays.getLast? with
  | some (.gitStatus o) => { d with overlays := d.overlays.dropLast, focus := o.previousFocus }
  | some (.gitBranches o) => { d with overlays := d.overlays.dropLast, focus := o.previousFocus }
  | _ => { d with overlays := d.overlays.dropLast }

/-- The arrows, in front of a list. -/
def move (d : GitDesk) (down : Bool) : GitDesk :=
  match d.overlays.getLast? with
  | some (.gitStatus o) => d.setTop (.gitStatus (if down then o.moveDown else o.moveUp))
  | some (.gitBranches o) => d.setTop (.gitBranches (if down then o.moveDown else o.moveUp))
  | _ => d

/-- Enter, in front of the branches. -/
def checkoutSelected (d : GitDesk) : GitDesk :=
  match d.overlays.getLast? with
  | some (.gitBranches o) =>
    match o.branches[o.selected]? with
    | some branch =>
      { d with overlays := d.overlays.dropLast }.queueGitOperation (.checkout branch.name)
    | none => d
  | _ => d

/-- Enter, in front of the commit prompt; `name` is its input, trimmed. -/
def confirmCommit (d : GitDesk) (name : String) : GitDesk :=
  match d.overlays.getLast? with
  | some .gitCommit =>
    let d := { d with overlays := d.overlays.dropLast }
    if name = "" then d.notify "commit message cannot be empty"
    else d.queueGitOperation (.commit name)
  | _ => d

end GitDesk

/-! ## What stays -/

namespace GitDesk

variable (d : GitDesk)

theorem requestGitRefresh_overlays : d.requestGitRefresh.overlays = d.overlays := by
  unfold requestGitRefresh
  split
  · rfl
  · split <;> rfl

theorem requestGitRefresh_snapshot : d.requestGitRefresh.git.snapshot = d.git.snapshot := by
  unfold requestGitRefresh
  split
  · rfl
  · split <;> rfl

theorem finishGitRefresh_overlays : d.finishGitRefresh.overlays = d.overlays := by
  unfold finishGitRefresh
  dsimp only
  split
  · exact requestGitRefresh_overlays _
  · rfl

theorem finishGitRefresh_snapshot : d.finishGitRefresh.git.snapshot = d.git.snapshot := by
  unfold finishGitRefresh
  dsimp only
  split
  · exact requestGitRefresh_snapshot _
  · rfl

theorem queueGitOperation_overlays (operation : GitOperation) :
    (d.queueGitOperation operation).overlays = d.overlays := by
  unfold queueGitOperation
  split
  · rfl
  · split <;> rfl

theorem queueGitOperation_snapshot (operation : GitOperation) :
    (d.queueGitOperation operation).git.snapshot = d.git.snapshot := by
  unfold queueGitOperation
  split
  · rfl
  · split <;> rfl

theorem refreshGitStatusOverlay_eq (snapshot : GitRepositorySnapshot) :
    ∃ overlays, d.refreshGitStatusOverlay snapshot = { d with overlays } := by
  unfold refreshGitStatusOverlay
  split
  · exact ⟨_, rfl⟩
  · exact ⟨d.overlays, rfl⟩

end GitDesk

/-! ## Runs -/

/-- What happens to the Git part of the model. -/
inductive GitDeed where
  | event (event : GitEvent)
  /-- Files of the workspace changed, or a terminal ended. -/
  | trigger
  | openWorkspace (root : Path)
  | show
  | stage
  | unstage
  | commit
  | branches
  /-- Fetch, pull or push. -/
  | operation (operation : GitOperation)
  | openDiff
  | close
  | move (down : Bool)
  | checkoutSelected
  | confirmCommit (name : String)
  /-- An overlay that is not about Git opens. -/
  | pushOther
  | setFocus (pane : Pane)
  /-- The requests are handed to the worker. -/
  | take
deriving DecidableEq, Repr

/-- One deed. -/
def GitDesk.step (d : GitDesk) : GitDeed → GitDesk
  | .event event => d.onGitEvent event
  | .trigger => d.requestGitRefresh
  | .openWorkspace root => d.openWorkspace root
  | .show => d.showGitStatus
  | .stage => d.stageSelectedGitRow
  | .unstage => d.unstageSelectedGitRow
  | .commit => d.promptGitCommit
  | .branches => d.requestGitBranches
  | .operation operation => d.queueGitOperation operation
  | .openDiff => d.openSelectedGitDiff
  | .close => d.close
  | .move down => d.move down
  | .checkoutSelected => d.checkoutSelected
  | .confirmCommit name => d.confirmCommit name
  | .pushOther => d.push .other
  | .setFocus pane => { d with focus := pane }
  | .take => { d with outbox := [] }

end App

end Termesh
