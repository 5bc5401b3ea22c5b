import Termesh.Core.Path

/-!
# Git vocabulary

What the model exchanges with the Git worker. The branch line and the context diff of a snapshot are
only shown, and left out.
-/

namespace Termesh

/-- Correlates a Git request with its result. -/
structure GitRequestId where
  val : ℕ
deriving DecidableEq, Repr

/-- What happened to a file. -/
inductive GitChangeKind where
  | modified
  | added
  | deleted
  | renamed (source : Path)
  | untracked
  | conflicted
deriving DecidableEq, Repr

/-- A changed file; its path is relative to the repository. -/
structure GitFileStatus where
  path : Path
  index : Option GitChangeKind
  worktree : Option GitChangeKind
deriving DecidableEq, Repr

/-- The state of a repository at one time. -/
structure GitRepositorySnapshot where
  repositoryRoot : Path
  workspaceRoot : Path
  files : List GitFileStatus
deriving DecidableEq, Repr

/-- The side of the index a diff is of. -/
inductive GitDiffTarget where
  | worktree
  | index
deriving DecidableEq, Repr

/-- The diff of one file, cut to a limit. -/
structure GitFileDiff where
  path : Path
  target : GitDiffTarget
  text : String
  truncated : Bool
deriving DecidableEq, Repr

/-- A branch, and whether it is checked out. -/
structure GitBranch where
  name : String
  current : Bool
deriving DecidableEq, Repr

/-- The operations that change a repository. -/
inductive GitOperation where
  | stage (path : Path)
  | unstage (path : Path)
  | commit (message : String)
  | checkout (branch : String)
  | fetch
  | pull
  | push
deriving DecidableEq, Repr

/-- What the model asks of the Git worker. -/
inductive GitRequest where
  | refresh (id : GitRequestId) (root : Path)
  | diff (id : GitRequestId) (root path : Path) (target : GitDiffTarget)
  | branches (id : GitRequestId) (root : Path)
  | execute (id : GitRequestId) (root : Path) (operation : GitOperation)
deriving DecidableEq, Repr

/-- Why a request failed. -/
inductive GitFailureKind where
  | notRepository
  | unavailable
  | invalidOutput
  | command
deriving DecidableEq, Repr

/-- A failure with its message for the human. -/
structure GitFailure where
  kind : GitFailureKind
  message : String
deriving DecidableEq, Repr

/-- What the Git worker tells the model. -/
inductive GitEvent where
  | started (id : GitRequestId)
  | snapshotLoaded (id : GitRequestId) (snapshot : GitRepositorySnapshot)
  | diffLoaded (id : GitRequestId) (diff : GitFileDiff)
  | branchesLoaded (id : GitRequestId) (branches : List GitBranch)
  | operationFinished (id : GitRequestId) (operation : GitOperation) (message : String)
      (snapshot : GitRepositorySnapshot)
  | failed (id : GitRequestId) (operationApplied : Bool) (failure : GitFailure)
deriving DecidableEq, Repr

/-- The id a request is answered under. -/
def GitRequest.id : GitRequest → GitRequestId
  | refresh id _ | diff id _ _ _ | branches id _ | execute id _ _ => id

/-- What the Git service makes of one request. -/
structure GitAnswers where
  snapshot : Except GitFailure GitRepositorySnapshot
  diff : Except GitFailure GitFileDiff
  branches : Except GitFailure (List GitBranch)
  execute : Except GitFailure String

/-- `run_request`: the event that ends a request, behind the one that starts it. -/
def GitRequest.outcome (a : GitAnswers) : GitRequest → GitEvent
  | refresh id _ =>
    match a.snapshot with
    | .ok snapshot => .snapshotLoaded id snapshot
    | .error failure => .failed id false failure
  | diff id _ _ _ =>
    match a.diff with
    | .ok loaded => .diffLoaded id loaded
    | .error failure => .failed id false failure
  | branches id _ =>
    match a.branches with
    | .ok loaded => .branchesLoaded id loaded
    | .error failure => .failed id false failure
  | execute id _ operation =>
    match a.execute with
    | .ok message =>
      match a.snapshot with
      | .ok snapshot => .operationFinished id operation message snapshot
      | .error failure => .failed id true failure
    | .error failure => .failed id false failure

/-- `run_request`: what the worker publishes for one request. -/
def GitRequest.run (a : GitAnswers) (r : GitRequest) : List GitEvent :=
  [.started r.id, r.outcome a]

end Termesh
