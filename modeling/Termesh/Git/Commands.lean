import Termesh.Git.Diff
import Termesh.Git.Status
import Termesh.Lib.Asking
import Termesh.Lib.Splits

/-!
# Commands run by the Git service

The service runs `git` and reads what it prints. What a command prints may depend on everything that
ran before it.

* `Command`, `Reply`: a command, and what it left;
* `snapshot`, `diff`, `branches`, `execute`: the service;
* `Passive`, `Acts`: commands that only read, and the one that an operation stands for;
* `Located`, `Listed`, `Born`, `AtHead`, `Upstream`: what Git answered that it depends on;
* **`commands_run`**: a refresh only reads, and an operation runs its one command last;
* `BranchRef`, **`branches_read`**: local branches are read as they are printed.
-/

namespace Termesh

namespace Git

open Decoding Sorting Utf8
open Search (getTo)

/-- One run of `git`. -/
structure Command where
  cwd : Path
  args : List String
deriving DecidableEq

/-- What a run left: its status and output, or why it did not start. -/
inductive Reply where
  | output (success : Bool) (stdout stderr : List UInt8)
  | notFound (error : String)
  | failed (error : String)

/-- `RealGitService` at work. -/
abbrev GitRun (α : Type) := Asking Command Reply GitFailure α

open Asking (ask fail ofExcept bind_of_error bind_of_ok)

/-- The bytes that are kept of a diff. -/
def diffLimit : ℕ := 262144

/-- The bytes that are kept of an error. -/
def errorLimit : ℕ := 16384

/-- `bounded_error`. -/
def boundedError (bytes : List UInt8) : Text :=
  let text := fromUtf8Lossy bytes
  trimText ((getTo text (floorBoundary text (min errorLimit (byteLen text)))).getD [])

/-- The output of a command that succeeded. -/
def checkOutput : Reply → Except GitFailure (List UInt8)
  | .output true stdout _ => .ok stdout
  | .output false _ stderr =>
    let message := boundedError stderr
    let kind := if "not a git repository".toList <:+: message.map Char.toLower then
      GitFailureKind.notRepository else .command
    .error ⟨kind, if message = [] then "Git command failed" else String.ofList message⟩
  | .notFound _ => .error ⟨.unavailable, "Git executable not found"⟩
  | .failed error => .error ⟨.command, "could not run Git: " ++ error⟩

/-- `run_os` and `run_checked`. -/
def runChecked (cwd : Path) (args : List String) : GitRun (List UInt8) := do
  let reply ← ask ⟨cwd, args⟩
  ofExcept (checkOutput reply)

/-- `trim_end`. -/
def trimEnd (t : Text) : Text := t.rdropWhile isWhitespace

/-- The repository and the workspace in it. -/
structure Roots where
  repositoryRoot : Path
  workspaceRoot : Path
  scope : String

/-- The roots, as Git tells them. -/
def roots (workspace : Path) : GitRun Roots := do
  let root ← runChecked workspace ["rev-parse", "--show-toplevel"]
  let repository := trimEnd (fromUtf8Lossy root)
  if repository = [] then fail ⟨.invalidOutput, "Git reported an empty repository root"⟩
  else do
    let repositoryRoot := Path.ofString (String.ofList repository)
    let shown ← runChecked workspace ["rev-parse", "--show-prefix"]
    let shown := String.ofList (trimEnd (fromUtf8Lossy shown))
    return {
      repositoryRoot
      workspaceRoot := if shown = "" then repositoryRoot
        else App.PermissionStore.joinPath repositoryRoot (Path.ofString shown)
      scope := if shown = "" then "." else shown }

/-- The arguments of the status. -/
def statusArgs : List String :=
  ["--no-optional-locks", "status", "--porcelain=v2", "--branch", "-z"]

/-- The arguments of a diff. -/
def diffArgs (index : Bool) (path : String) : List String :=
  ["--no-optional-locks", "diff", "--no-ext-diff", "--no-color", "--unified=3"] ++
    (if index then ["--cached"] else []) ++ ["--", path]

/-- `GitRepositorySnapshot`. -/
structure Snapshot where
  roots : Roots
  branch : BranchStatus
  files : List FileStatus
  contextDiff : ContextDiff

/-- The state of the repository. -/
def snapshot (workspace : Path) : GitRun Snapshot := do
  let roots ← roots workspace
  let status ← runChecked roots.repositoryRoot statusArgs
  let (branch, files) ← ofExcept (parseStatus roots.repositoryRoot status)
  let worktree ← runChecked roots.repositoryRoot (diffArgs false roots.scope)
  let index ← runChecked roots.repositoryRoot (diffArgs true roots.scope)
  -- a bounded text never fails
  let contextDiff := (boundedContextDiff index worktree diffLimit).getD ⟨[], [], false, false⟩
  return { roots, branch, files, contextDiff }

/-- The diff of one file. -/
def diff (workspace path : Path) (target : GitDiffTarget) : GitRun GitFileDiff := do
  let roots ← roots workspace
  let output ← runChecked roots.repositoryRoot (diffArgs (target = .index) path.display)
  return (boundedDiff path target output diffLimit).getD ⟨path, target, "", false⟩

/-- The arguments that list the branches. -/
def forEachRefArgs : List String :=
  ["for-each-ref", "--format=%(HEAD)%00%(refname:short)", "refs/heads"]

/-- One line of the branches. -/
def branchOf (line : List UInt8) : Except GitFailure GitBranch :=
  if 0 ∈ line then
    match fromUtf8 (line.dropWhile (· ≠ 0)).tail with
    | .error _ => .error ⟨.invalidOutput, "branch name is not valid UTF-8"⟩
    | .ok name => .ok ⟨String.ofList name, line.takeWhile (· ≠ 0) = [ascii '*']⟩
  else .error ⟨.invalidOutput, "malformed local branch record"⟩

/-- What is read of the branches. -/
def readBranches (stdout : List UInt8) : Except GitFailure (List GitBranch) :=
  (((stdout.splitOn (ascii '\n')).filter (· ≠ [])).mapM branchOf).map
    (sortBy fun branch => branch.name.toList)

/-- The branches. -/
def branches (workspace : Path) : GitRun (List GitBranch) := do
  let roots ← roots workspace
  let stdout ← runChecked roots.repositoryRoot forEachRefArgs
  ofExcept (readBranches stdout)

/-! ## Operations -/

/-- The arguments of an operation. -/
def operationArgs (operation : GitOperation) (headExists : Bool) : List String :=
  match operation with
  | .stage path => ["add", "--", path.display]
  | .unstage path =>
    if headExists then ["restore", "--staged", "--", path.display]
    else ["rm", "--cached", "--ignore-unmatch", "--", path.display]
  | .commit message => ["commit", "-m", message]
  | .checkout branch => ["switch", "--", branch]
  | .fetch => ["fetch"]
  | .pull => ["pull", "--ff-only"]
  | .push => ["push"]

/-- The arguments of a push. -/
def pushArgs (branch : Text) (hasUpstream : Bool) : List String :=
  if hasUpstream then ["push"] else ["push", "--set-upstream", "origin", String.ofList branch]

/-- What `run_raw` makes of a reply. -/
def Reply.raw : Reply → Except String (Bool × List UInt8)
  | .output success stdout _ => .ok (success, stdout)
  | .notFound error | .failed error => .error error

/-- What is published: the branch at `HEAD`, with its name when it has no upstream. -/
def pushArgsForRepository (repositoryRoot : Path) : GitRun (List String) := do
  let head ← ask ⟨repositoryRoot, ["symbolic-ref", "--quiet", "--short", "HEAD"]⟩
  match head.raw with
  | .error error => fail ⟨.command, "could not inspect Git branch: " ++ error⟩
  | .ok (false, _) => fail ⟨.command, "cannot publish a detached HEAD"⟩
  | .ok (true, stdout) =>
    match fromUtf8 stdout with
    | .error _ => fail ⟨.invalidOutput, "Git branch is not valid UTF-8"⟩
    | .ok name =>
      if trimEnd name = [] then fail ⟨.invalidOutput, "Git reported an empty branch"⟩
      else do
        let upstream ← ask ⟨repositoryRoot,
          ["rev-parse", "--abbrev-ref", "--symbolic-full-name", "@\x7bupstream\x7d"]⟩
        match upstream.raw with
        | .error error => fail ⟨.command, "could not inspect Git upstream: " ++ error⟩
        | .ok (success, stdout) =>
          return pushArgs (trimEnd name) (success && !(trimText (fromUtf8Lossy stdout)).isEmpty)

/-- What `execute` refuses before it runs anything for the operation. -/
def checkOperation (workspace : Path) : GitOperation → GitRun Unit
  | .commit message =>
    if trimText message.toList = [] then fail ⟨.command, "commit message cannot be empty"⟩
    else return
  | .checkout branch => do
    let branches ← branches workspace
    if branches.any (·.name = branch) then return
    else fail ⟨.command, "branch is not a local branch"⟩
  | _ => return

/-- The arguments for an operation, in a repository with a commit or without one. -/
def argsFor (repositoryRoot : Path) (operation : GitOperation) (headExists : Bool) :
    GitRun (List String) :=
  if operation = .push then pushArgsForRepository repositoryRoot
  else return operationArgs operation headExists

/-- The arguments of the command that `execute` runs for an operation, and where. -/
def commandFor (workspace : Path) (operation : GitOperation) : GitRun (Path × List String) := do
  checkOperation workspace operation
  let roots ← roots workspace
  let head ← ask ⟨roots.repositoryRoot, ["rev-parse", "--verify", "HEAD"]⟩
  let args ← argsFor roots.repositoryRoot operation (head.raw.toOption.any Prod.fst)
  return (roots.repositoryRoot, args)

/-- An operation is run. -/
def execute (workspace : Path) (operation : GitOperation) : GitRun String := do
  let (repositoryRoot, args) ← commandFor workspace operation
  let output ← runChecked repositoryRoot args
  let summary := trimText (fromUtf8Lossy output)
  return if summary = [] then "Git operation completed" else String.ofList summary

/-! ## What is run -/

/-- The commands that only read, and take no lock of the index. -/
inductive Passive : Command → Prop
  | toplevel (cwd : Path) : Passive ⟨cwd, ["rev-parse", "--show-toplevel"]⟩
  | shown (cwd : Path) : Passive ⟨cwd, ["rev-parse", "--show-prefix"]⟩
  | head (cwd : Path) : Passive ⟨cwd, ["rev-parse", "--verify", "HEAD"]⟩
  | branch (cwd : Path) : Passive ⟨cwd, ["symbolic-ref", "--quiet", "--short", "HEAD"]⟩
  | upstream (cwd : Path) :
    Passive ⟨cwd, ["rev-parse", "--abbrev-ref", "--symbolic-full-name", "@\x7bupstream\x7d"]⟩
  | refs (cwd : Path) : Passive ⟨cwd, forEachRefArgs⟩
  | status (cwd : Path) : Passive ⟨cwd, statusArgs⟩
  | diff (cwd : Path) (index : Bool) (path : String) : Passive ⟨cwd, diffArgs index path⟩

section

open Asking (Answered)

variable (o : Oracle Command Reply) (start log : List Command) (workspace repository : Path)

/-- Git named the repository of the workspace. -/
def Located : Prop :=
  ∃ stdout stderr, Answered o start log ⟨workspace, ["rev-parse", "--show-toplevel"]⟩
      (.output true stdout stderr) ∧
    trimEnd (fromUtf8Lossy stdout) ≠ [] ∧
    repository = Path.ofString (String.ofList (trimEnd (fromUtf8Lossy stdout)))

/-- Git listed the branch, in a repository that it named for the workspace. -/
def Listed (branch : String) : Prop :=
  ∃ repository stdout stderr branches, Located o start log workspace repository ∧
    Answered o start log ⟨repository, forEachRefArgs⟩ (.output true stdout stderr) ∧
    readBranches stdout = .ok branches ∧ ∃ b ∈ branches, b.name = branch

/-- Git said whether the repository has a commit at `HEAD`. -/
def Born (born : Bool) : Prop :=
  ∃ reply, Answered o start log ⟨repository, ["rev-parse", "--verify", "HEAD"]⟩ reply ∧
    (born = true ↔ ∃ stdout stderr, reply = .output true stdout stderr)

/-- Git named the branch at `HEAD`. -/
def AtHead (branch : Text) : Prop :=
  ∃ stdout stderr name, Answered o start log
      ⟨repository, ["symbolic-ref", "--quiet", "--short", "HEAD"]⟩ (.output true stdout stderr) ∧
    fromUtf8 stdout = .ok name ∧ trimEnd name = branch ∧ branch ≠ []

/-- Git said whether the branch at `HEAD` has an upstream: it named one, or not. -/
def Upstream (named : Bool) : Prop :=
  ∃ success stdout stderr, Answered o start log
      ⟨repository, ["rev-parse", "--abbrev-ref", "--symbolic-full-name", "@\x7bupstream\x7d"]⟩
      (.output success stdout stderr) ∧
    (named = true ↔ success = true ∧ trimText (fromUtf8Lossy stdout) ≠ [])

/-- The command of an operation, by what Git answered behind `start`. -/
inductive Acts : GitOperation → List String → Prop
  | stage (path : Path) : Acts (.stage path) ["add", "--", path.display]
  | unstage (path : Path) (h : Born o start log repository true) :
    Acts (.unstage path) ["restore", "--staged", "--", path.display]
  | unstageUnborn (path : Path) (h : Born o start log repository false) :
    Acts (.unstage path) ["rm", "--cached", "--ignore-unmatch", "--", path.display]
  | commit {message : String} (h : trimText message.toList ≠ []) :
    Acts (.commit message) ["commit", "-m", message]
  | checkout {branch : String} (h : Listed o start log workspace branch) :
    Acts (.checkout branch) ["switch", "--", branch]
  | fetch : Acts .fetch ["fetch"]
  | pull : Acts .pull ["pull", "--ff-only"]
  | push {branch : Text} (h : AtHead o start log repository branch)
    (hup : Upstream o start log repository true) : Acts .push ["push"]
  | publish {branch : Text} (h : AtHead o start log repository branch)
    (hup : Upstream o start log repository false) :
    Acts .push ["push", "--set-upstream", "origin", String.ofList branch]

end

section

variable {o : Oracle Command Reply} {start log log' : List Command} {workspace repository : Path}

open Asking (Asks Answered)

theorem checkOutput_ok {reply : Reply} {stdout : List UInt8} (h : checkOutput reply = .ok stdout) :
    ∃ stderr, reply = .output true stdout stderr := by
  unfold checkOutput at h
  split at h
  · cases h
    exact ⟨_, rfl⟩
  all_goals cases h

theorem raw_iff {reply : Reply} :
    reply.raw.toOption.any Prod.fst = true ↔ ∃ stdout stderr, reply = .output true stdout stderr := by
  cases reply <;> simp [Reply.raw, Except.toOption]

theorem asks_runChecked {cwd : Path} {args : List String} (hstart : start <+: log)
    (h : Passive ⟨cwd, args⟩) :
    Asks Passive o log (runChecked cwd args) fun log' stdout =>
      ∃ stderr, Answered o start log' ⟨cwd, args⟩ (.output true stdout stderr) := by
  have hask : Asks Passive o log (ask ⟨cwd, args⟩ : GitRun Reply) fun log' reply =>
      Answered o start log' ⟨cwd, args⟩ reply := .ask h (.here hstart _)
  refine Asks.bind hask fun log' reply _ hasked => ?_
  refine Asks.ofExcept fun stdout hout => ?_
  obtain ⟨stderr, rfl⟩ := checkOutput_ok hout
  exact ⟨stderr, hasked⟩

theorem asks_passive {cwd : Path} {args : List String} (h : Passive ⟨cwd, args⟩) :
    Asks Passive o log (runChecked cwd args) fun _ _ => True :=
  (asks_runChecked List.prefix_rfl h).mono fun _ _ _ _ => trivial

theorem log_runChecked {cwd : Path} {args : List String} {α : Type} (f : List UInt8 → α) :
    ((runChecked cwd args >>= fun stdout => pure (f stdout) : GitRun α) o log).2 =
      log ++ [⟨cwd, args⟩] := by
  have hrun : (runChecked cwd args o log).2 = log ++ [⟨cwd, args⟩] := Asking.log_ofExcept _
  cases hres : (runChecked cwd args o log).1 with
  | error failure => rw [bind_of_error hres, hrun]
  | ok stdout =>
    rw [bind_of_ok hres, hrun]
    rfl

theorem ok_runChecked {cwd : Path} {args : List String} {α : Type} (f : List UInt8 → α) :
    (∃ a, ((runChecked cwd args >>= fun stdout => pure (f stdout) : GitRun α) o log).1 = .ok a) ↔
      ∃ stdout stderr, o log ⟨cwd, args⟩ = .output true stdout stderr := by
  have hrun : (runChecked cwd args o log).1 = checkOutput (o log ⟨cwd, args⟩) := by
    rw [runChecked, bind_of_ok (a := o log ⟨cwd, args⟩) rfl]
    cases checkOutput (o log ⟨cwd, args⟩) <;> rfl
  cases hres : (runChecked cwd args o log).1 with
  | error failure =>
    rw [bind_of_error hres]
    rw [hres] at hrun
    refine iff_of_false (by simp) fun ⟨stdout, stderr, hout⟩ => ?_
    simp [hout, checkOutput] at hrun
  | ok stdout =>
    rw [bind_of_ok hres]
    obtain ⟨stderr, hout⟩ := checkOutput_ok (hrun.symm.trans hres)
    exact iff_of_true ⟨f stdout, rfl⟩ ⟨stdout, stderr, hout⟩

theorem Located.mono (h : Located o start log workspace repository) (hlog : log <+: log') :
    Located o start log' workspace repository := by
  obtain ⟨stdout, stderr, hanswer, hrest⟩ := h
  exact ⟨stdout, stderr, hanswer.mono hlog, hrest⟩

theorem asks_roots (hstart : start <+: log) :
    Asks Passive o log (roots workspace) fun log' roots =>
      Located o start log' workspace roots.repositoryRoot := by
  refine Asks.bind (asks_runChecked hstart (.toplevel _)) fun log' root _ hroot => ?_
  obtain ⟨stderr, hanswer⟩ := hroot
  dsimp only
  split_ifs with hempty
  · exact .fail
  · refine Asks.bind (asks_passive (.shown _)) fun log' shown hlog _ => .pure ?_
    exact ⟨root, stderr, hanswer.mono hlog, hempty, rfl⟩

theorem asks_snapshot : Asks Passive o log (snapshot workspace) fun _ _ => True := by
  refine Asks.bind (asks_roots List.prefix_rfl) fun _ roots _ _ => ?_
  refine Asks.bind (asks_passive (.status _)) fun _ status _ _ => ?_
  refine Asks.bind Asks.ofExcept_true fun _ parsed _ _ => ?_
  refine Asks.bind (asks_passive (.diff _ _ _)) fun _ worktree _ _ => ?_
  exact Asks.bind (asks_passive (.diff _ _ _)) fun _ index _ _ => .pure trivial

theorem asks_diff {path : Path} {target : GitDiffTarget} :
    Asks Passive o log (diff workspace path target) fun _ _ => True :=
  Asks.bind (asks_roots List.prefix_rfl) fun _ _ _ _ =>
    Asks.bind (asks_passive (.diff _ _ _)) fun _ _ _ _ => .pure trivial

theorem asks_branches (hstart : start <+: log) :
    Asks Passive o log (branches workspace) fun log' branches =>
      ∀ b ∈ branches, Listed o start log' workspace b.name := by
  refine Asks.bind (asks_roots hstart) fun log₁ roots hlog₁ hlocated => ?_
  refine Asks.bind (asks_runChecked (hstart.trans hlog₁) (.refs _)) fun log₂ stdout hlog₂ hrun => ?_
  obtain ⟨stderr, hanswer⟩ := hrun
  refine Asks.ofExcept fun branches hread b hb => ?_
  exact ⟨roots.repositoryRoot, stdout, stderr, branches, hlocated.mono hlog₂, hanswer, hread, b, hb,
    rfl⟩

theorem Listed.mono {branch : String} (h : Listed o start log workspace branch)
    (hlog : log <+: log') : Listed o start log' workspace branch := by
  obtain ⟨repository, stdout, stderr, branches, hlocated, hanswer, hrest⟩ := h
  exact ⟨repository, stdout, stderr, branches, hlocated.mono hlog, hanswer.mono hlog, hrest⟩

/-- What `execute` makes sure of. -/
def Checked (o : Oracle Command Reply) (start log : List Command) (workspace : Path) :
    GitOperation → Prop
  | .commit message => trimText message.toList ≠ []
  | .checkout branch => Listed o start log workspace branch
  | _ => True

theorem Checked.mono {operation : GitOperation} (h : Checked o start log workspace operation)
    (hlog : log <+: log') : Checked o start log' workspace operation := by
  cases operation with
  | checkout branch => exact Listed.mono h hlog
  | _ => exact h

theorem asks_checkOperation {operation : GitOperation} (hstart : start <+: log) :
    Asks Passive o log (checkOperation workspace operation) fun log' _ =>
      Checked o start log' workspace operation := by
  cases operation with
  | commit message =>
    show Asks Passive o log (if _ then _ else _) _
    split_ifs with hempty
    · exact .fail
    · exact .pure hempty
  | checkout branch =>
    refine Asks.bind (asks_branches hstart) fun log' branches _ hlisted => ?_
    split_ifs with hany
    · obtain ⟨b, hb, hname⟩ := List.any_eq_true.mp hany
      obtain rfl := of_decide_eq_true hname
      exact .pure (hlisted b hb)
    · exact .fail
  | _ => exact .pure trivial

theorem asks_pushArgsForRepository (hstart : start <+: log) :
    Asks Passive o log (pushArgsForRepository repository) fun log' args =>
      Acts o start log' workspace repository .push args := by
  have hask : Asks Passive o log (ask
      ⟨repository, ["symbolic-ref", "--quiet", "--short", "HEAD"]⟩ : GitRun Reply) fun log' reply =>
        Answered o start log' ⟨repository, ["symbolic-ref", "--quiet", "--short", "HEAD"]⟩ reply :=
    .ask (.branch _) (.here hstart _)
  refine Asks.bind hask fun log₁ head hlog₁ hanswer => ?_
  split
  · exact .fail
  · exact .fail
  · rename_i stdout hraw
    obtain ⟨stderr, rfl⟩ : ∃ stderr, head = .output true stdout stderr := by
      cases head <;> simp_all [Reply.raw]
    split
    · exact .fail
    · rename_i name hname
      split_ifs with hempty
      · exact .fail
      · have hup : Asks Passive o log₁ (ask ⟨repository, ["rev-parse", "--abbrev-ref",
            "--symbolic-full-name", "@\x7bupstream\x7d"]⟩ : GitRun Reply) fun log' reply =>
              Answered o start log' ⟨repository, ["rev-parse", "--abbrev-ref",
                "--symbolic-full-name", "@\x7bupstream\x7d"]⟩ reply :=
          .ask (.upstream _) (.here (hstart.trans hlog₁) _)
        refine Asks.bind hup fun log₂ upstream hlog₂ hsaid => ?_
        split
        · exact .fail
        · rename_i success shown hraw'
          obtain ⟨stderr', rfl⟩ : ∃ stderr', upstream = .output success shown stderr' := by
            cases upstream <;> simp_all [Reply.raw]
          have hhead : AtHead o start log₂ repository (trimEnd name) :=
            ⟨stdout, stderr, name, hanswer.mono hlog₂, hname, rfl, hempty⟩
          refine .pure ?_
          unfold pushArgs
          split_ifs with hnamed
          · exact .push hhead ⟨success, shown, stderr', hsaid, by simpa using hnamed⟩
          · exact .publish hhead ⟨success, shown, stderr', hsaid, by simpa using hnamed⟩

theorem acts_operationArgs {operation : GitOperation} {headExists : Bool}
    (hpush : operation ≠ .push) (h : Checked o start log workspace operation)
    (hborn : Born o start log repository headExists) :
    Acts o start log workspace repository operation (operationArgs operation headExists) := by
  cases operation with
  | stage path => exact .stage path
  | unstage path =>
    cases headExists with
    | true => exact .unstage path hborn
    | false => exact .unstageUnborn path hborn
  | commit message => exact .commit h
  | checkout branch => exact .checkout h
  | fetch => exact .fetch
  | pull => exact .pull
  | push => exact absurd rfl hpush

theorem asks_argsFor {operation : GitOperation} {headExists : Bool} (hstart : start <+: log)
    (h : Checked o start log workspace operation)
    (hborn : Born o start log repository headExists) :
    Asks Passive o log (argsFor repository operation headExists) fun log' args =>
      Acts o start log' workspace repository operation args := by
  unfold argsFor
  split_ifs with hpush
  · subst hpush
    exact asks_pushArgsForRepository hstart
  · exact .pure (acts_operationArgs hpush h hborn)

theorem asks_commandFor {operation : GitOperation} :
    Asks Passive o log (commandFor workspace operation) fun log' command =>
      Located o log log' workspace command.1 ∧
        Acts o log log' workspace command.1 operation command.2 := by
  refine Asks.bind (asks_checkOperation List.prefix_rfl) fun log₁ _ hlog₁ hchecked => ?_
  refine Asks.bind (asks_roots hlog₁) fun log₂ roots hlog₂ hlocated => ?_
  have hask : Asks Passive o log₂ (ask ⟨roots.repositoryRoot, ["rev-parse", "--verify", "HEAD"]⟩ :
      GitRun Reply) fun log' head =>
        Born o log log' roots.repositoryRoot (head.raw.toOption.any Prod.fst) :=
    .ask (.head _) ⟨_, .here (hlog₁.trans hlog₂) _, raw_iff⟩
  refine Asks.bind hask fun log₃ head hlog₃ hborn => ?_
  have hall := (hlog₁.trans hlog₂).trans hlog₃
  refine Asks.bind (asks_argsFor hall (hchecked.mono (hlog₂.trans hlog₃)) hborn)
    fun log₄ args hlog₄ hacts => .pure ⟨?_, hacts⟩
  exact hlocated.mono (hlog₃.trans hlog₄)

end

/-- **Commands that Git runs.** A refresh, a diff and a list of branches only read. An operation is
refused without a trace, or one command is run for it, after others that only read, in a repository
that Git named for the workspace; its paths stand behind `--`, a commit has a message, a checkout is
of a branch that Git listed, and what is pushed is the branch that Git named at `HEAD`. -/
theorem commands_run (o : Oracle Command Reply) (log : List Command) (workspace path : Path)
    (target : GitDiffTarget) (operation : GitOperation) :
    (∃ asked, (snapshot workspace o log).2 = log ++ asked ∧ ∀ c ∈ asked, Passive c) ∧
    (∃ asked, (diff workspace path target o log).2 = log ++ asked ∧ ∀ c ∈ asked, Passive c) ∧
    (∃ asked, (branches workspace o log).2 = log ++ asked ∧ ∀ c ∈ asked, Passive c) ∧
    ∃ asked, (∀ c ∈ asked, Passive c) ∧
      (((execute workspace operation o log).2 = log ++ asked ∧
          ∃ failure, (execute workspace operation o log).1 = .error failure) ∨
        ∃ repository args,
          (execute workspace operation o log).2 = log ++ asked ++ [⟨repository, args⟩] ∧
          Located o log (log ++ asked) workspace repository ∧
          Acts o log (log ++ asked) workspace repository operation args ∧
          ((∃ summary, (execute workspace operation o log).1 = .ok summary) ↔
            ∃ stdout stderr, o (log ++ asked) ⟨repository, args⟩ = .output true stdout stderr)) := by
  refine ⟨asks_snapshot.asked, asks_diff.asked, (asks_branches List.prefix_rfl).asked, ?_⟩
  obtain ⟨asked, hlog, hasked, hacts⟩ :
      Asking.Asks Passive o log (commandFor workspace operation) fun log' command =>
        Located o log log' workspace command.1 ∧
          Acts o log log' workspace command.1 operation command.2 := asks_commandFor
  refine ⟨asked, hasked, ?_⟩
  cases hres : (commandFor workspace operation o log).1 with
  | error failure =>
    rw [execute, bind_of_error hres]
    exact .inl ⟨hlog, failure, rfl⟩
  | ok command =>
    obtain ⟨hlocated, hcommand⟩ := hacts command hres
    rw [execute, bind_of_ok hres, hlog]
    exact .inr ⟨command.1, command.2, log_runChecked _, hlocated, hcommand, ok_runChecked _⟩

/-! ## Reading branches -/

/-- A local branch, by the bytes of its name. -/
structure BranchRef where
  name : List UInt8
  current : Bool
  oneLine : ascii '\n' ∉ name

namespace BranchRef

/-- What `for-each-ref` prints of a branch, in front of the line break. -/
def line (r : BranchRef) : List UInt8 := (if r.current then ascii '*' else ascii ' ') :: 0 :: r.name

/-- What is read of a branch, if its name is text. -/
def read (r : BranchRef) : Option GitBranch :=
  match fromUtf8 r.name with
  | .ok name => some ⟨String.ofList name, r.current⟩
  | .error _ => none

end BranchRef

theorem branchOf_line (r : BranchRef) : branchOf r.line =
    match r.read with
    | some branch => .ok branch
    | none => .error ⟨.invalidOutput, "branch name is not valid UTF-8"⟩ := by
  have hmark : ∀ c : Bool, (if c then ascii '*' else ascii ' ') ≠ 0 := by decide
  have hstar : ∀ c : Bool, ([if c then ascii '*' else ascii ' '] = [ascii '*']) ↔ c = true := by
    decide
  have hdrop : (r.line.dropWhile (· ≠ 0)).tail = r.name := by
    simp [BranchRef.line, hmark]
  have htake : r.line.takeWhile (· ≠ 0) = [if r.current then ascii '*' else ascii ' '] := by
    simp [BranchRef.line, hmark]
  have hmem : 0 ∈ r.line := by simp [BranchRef.line]
  rw [branchOf, if_pos hmem, hdrop, htake, BranchRef.read]
  cases fromUtf8 r.name with
  | error e => rfl
  | ok name => simp [hstar]

theorem mapM_branchOf (refs : List BranchRef) : (refs.map BranchRef.line).mapM branchOf =
    match refs.mapM BranchRef.read with
    | some branches => .ok branches
    | none => .error ⟨.invalidOutput, "branch name is not valid UTF-8"⟩ := by
  induction refs with
  | nil => rfl
  | cons r refs ih =>
    rw [List.map_cons, List.mapM_cons, List.mapM_cons, branchOf_line, ih]
    cases r.read with
    | none => rfl
    | some branch =>
      cases refs.mapM BranchRef.read <;> rfl

theorem length_of_mapM {α β ε : Type} {f : α → Except ε β} {l : List α} {r : List β}
    (h : l.mapM f = .ok r) : r.length = l.length := by
  induction l generalizing r with
  | nil =>
    cases h
    rfl
  | cons a l ih =>
    rw [List.mapM_cons] at h
    cases ha : f a with
    | error e =>
      rw [ha] at h
      cases h
    | ok b =>
      cases hl : l.mapM f with
      | error e =>
        rw [ha, hl] at h
        cases h
      | ok bs =>
        rw [ha, hl] at h
        cases h
        rw [List.length_cons, List.length_cons, ih hl]

/-- **Local branches are read as they are printed**: by name, with the current one marked, and not
at all where a name is not text. No line of any output is passed over. -/
theorem branches_read :
    (∀ refs : List BranchRef,
      readBranches ((refs.map BranchRef.line).flatMap (· ++ [ascii '\n'])) =
        match refs.mapM BranchRef.read with
        | some branches => .ok (sortBy (fun branch => branch.name.toList) branches)
        | none => .error ⟨.invalidOutput, "branch name is not valid UTF-8"⟩) ∧
    ∀ stdout branches, readBranches stdout = .ok branches →
      branches.length = ((stdout.splitOn (ascii '\n')).filter (· ≠ [])).length := by
  constructor
  · intro refs
    have hlines : ∀ l ∈ refs.map BranchRef.line, l ≠ [] ∧ ascii '\n' ∉ l := by
      intro l hl
      obtain ⟨r, -, rfl⟩ := List.mem_map.mp hl
      refine ⟨by simp [BranchRef.line], ?_⟩
      have hmark : ∀ c : Bool, ascii '\n' ≠ if c then ascii '*' else ascii ' ' := by decide
      have hzero : ascii '\n' ≠ 0 := by decide
      simp [BranchRef.line, hmark, hzero, r.oneLine]
    rw [readBranches, Splits.filter_splitOn_flatMap hlines, mapM_branchOf]
    cases refs.mapM BranchRef.read <;> rfl
  · intro stdout branches h
    unfold readBranches at h
    generalize (stdout.splitOn (ascii '\n')).filter (· ≠ []) = lines at h ⊢
    cases hm : lines.mapM branchOf with
    | error e =>
      rw [hm] at h
      cases h
    | ok read =>
      rw [hm] at h
      cases h
      rw [length_sortBy, length_of_mapM hm]

end Git

end Termesh
