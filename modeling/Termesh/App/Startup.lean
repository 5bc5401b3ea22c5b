import Termesh.App.Worker
import Termesh.Filesystem.Explorer

/-!
# Starting up

`run` opens a workspace, offers the recovery drafts that are there and enters its loop. One queue
holds the listings the explorer asks for and the requests of the model. The worker executes it when
the loop hands it over; a draft whose file is not open is read on the main thread, which serves the
queue as it stands and for which a watch is nothing to do.

* `Job`, `Desktop`: the model with its explorer and the queue of both;
* `FileService`, `settleFsSync`, `openFileSync`, `restoreDrafts`: the executor on the main thread;
* `Opening`, `Turn`, `Desktop.step`: how a workspace opens, and the loop;
* `Grows`: a step that only adds to the queue, and no watch;
* **`startup_kept_iff`**: the watch and all else that was queued for the workspace reach an executor
  if and only if no draft is found.
-/

namespace Termesh

open Filesystem Runs

/-- Work for the filesystem worker: a listing, or another request. -/
inductive Job where
  | readDir (id : NodeId) (path : Path)
  | request (r : FsRequest)
deriving DecidableEq, Repr

/-- A job that is no watch. -/
def Job.Unwatched : Job → Prop
  | readDir .. => True
  | request r => r.Unwatched

/-- The filesystem as the main thread reaches it. Every call may change its state. -/
structure FileService (σ : Type*) where
  readDir : σ → Path → Except FsError (List DirEntryInfo) × σ
  readFile : σ → Path → Except FsError (Option (List Char)) × σ
  writeFile : σ → Path → List Char → Except FsError Unit × σ
  createFile : σ → Path → Except FsError Unit × σ
  createDir : σ → Path → Except FsError Unit × σ
  rename : σ → Path → Path → Except FsError Unit × σ
  removeFile : σ → Path → Except FsError Unit × σ
  removeDirAll : σ → Path → Except FsError Unit × σ
  canonicalize : σ → Path → Except FsError Path × σ

/-- Success is reported as a change. -/
def mutationEvent (outcome : Except FsError Unit) (paths : List Path) : FsEvent :=
  match outcome with
  | .ok _ => .changed paths
  | .error e => .mutationFailed e

/-- What comes of a request. A watch and a shutdown need a worker. -/
def FileService.answer {σ : Type*} (S : FileService σ) (s : σ) : FsRequest → Option (FsEvent × σ)
  | .readFile buffer path =>
    let (outcome, s) := S.readFile s path
    match outcome with
    | .ok contents => some (.fileLoaded buffer path contents, s)
    | .error e => some (.fileFailed buffer e, s)
  | .writeFile buffer path contents version =>
    let (outcome, s) := S.writeFile s path contents
    match outcome with
    | .ok _ => some (.fileSaved buffer version, s)
    | .error e => some (.fileFailed buffer e, s)
  | .resolvePath request path =>
    let (outcome, s) := S.canonicalize s path
    match outcome with
    | .ok path => some (.pathResolved request path, s)
    | .error e => some (.pathResolveFailed request path e, s)
  | .createFile path =>
    let (outcome, s) := S.createFile s path
    some (mutationEvent outcome [path], s)
  | .createDir path =>
    let (outcome, s) := S.createDir s path
    some (mutationEvent outcome [path], s)
  | .rename source target =>
    let (outcome, s) := S.rename s source target
    some (mutationEvent outcome [source, target], s)
  | .remove path recursive =>
    let (outcome, s) := if recursive then S.removeDirAll s path else S.removeFile s path
    some (mutationEvent outcome [path], s)
  | .watch _ | .shutdown => none

namespace App

/-- A model with the explorer it shows. What either asks for is in one queue. -/
structure Desktop where
  model : Model
  explorer : Option Explorer := none
  outbox : List Job := []
  /-- What the main thread saw to itself. -/
  served : List Job := []
  /-- What the worker was handed, in order. -/
  executed : List Job := []
  /-- The model's own queue is always empty. -/
  clear : model.outbox = []

namespace Desktop

/-- Nothing is queued yet. -/
def fresh (m : Model) : Desktop where
  model := { m with outbox := [] }
  clear := rfl

/-- Put a model in place; what it asks for goes behind what is queued. -/
def collect (d : Desktop) (m : Model) : Desktop :=
  { d with
    model := { m with outbox := [] }
    outbox := d.outbox ++ m.outbox.map .request
    clear := rfl }

/-- A move of the explorer, with the listings it asks for. -/
def move (d : Desktop) (mv : Move) : Option Desktop :=
  match d.explorer with
  | none => some d
  | some x => (x.step mv).map fun x' =>
    { d with
      explorer := some x'
      outbox := d.outbox ++ (x'.reads.drop x.reads.length).map fun r => .readDir r.1 r.2 }

/-- Absorb a result about files; a change is one for the explorer too. -/
def onFsEvent (h : Host) (d : Desktop) : FsEvent → Option Desktop
  | .changed paths =>
    (d.move (.changed paths)).bind fun d =>
      (d.model.onFsEvent h (.changed paths)).map d.collect
  | e => (d.model.onFsEvent h e).map d.collect

/-- A directory could not be listed. -/
def dirFailed (d : Desktop) (id : NodeId) (error : FsError) : Option Desktop :=
  match d.explorer, error with
  | none, _ => some d
  | some _, .notFound _ => d.move (.failed id error)
  | some _, _ => (d.collect (d.model.notify error.toString)).move (.failed id error)

/-! ## Opening a workspace -/

/-- Open a workspace: the watch is queued before the first listing. -/
def openWorkspace (d : Desktop) (root : Path) (name : String) (configured : List ConfiguredRecipe) :
    Option Desktop :=
  let d := d.collect (d.model.openWorkspace root configured)
  let x := Explorer.new root name
  { d with explorer := some x }.move (.expand x.tree.root)

/-- How `run` opens the workspace: one that was named, or the one of the session. -/
inductive Opening where
  | configured (root : Path) (name : String) (recipes : List ConfiguredRecipe)
  | session (name : String) (w : RestoredWorkspace)

/-- The root that is opened. -/
def Opening.root : Opening → Path
  | configured root _ _ => root
  | session _ w => w.root

/-- `open_workspace_configured`, or `restore_session`. -/
def start (h : Host) (d : Desktop) : Opening → Option Desktop
  | .configured root name recipes => d.openWorkspace root name recipes
  | .session name w =>
    (d.openWorkspace w.root name w.configured).map fun d => d.collect (d.model.reopen h w)

/-! ## The executor on the main thread -/

section Service

variable {σ : Type*} (h : Host) (S : FileService σ)

/-- Serve one request. -/
def serve (s : σ) (d : Desktop) : Job → Option (σ × Desktop)
  | .readDir id path =>
    let served := { d with served := d.served ++ [Job.readDir id path] }
    match S.readDir s path with
    | (.ok entries, s) => (served.move (.listed id path entries)).map fun d => (s, d)
    | (.error e, s) => (served.dirFailed id e).map fun d => (s, d)
  | .request r =>
    match S.answer s r with
    | none => some (s, d)
    | some (e, s) =>
      ({ d with served := d.served ++ [Job.request r] }.onFsEvent h e).map fun d => (s, d)

/-- Jobs are served in order. -/
def serveAll : σ → Desktop → List Job → Option (σ × Desktop)
  | s, d, [] => some (s, d)
  | s, d, j :: js => (serve h S s d j).bind fun (s, d) => serveAll s d js

/-- Serve what is queued until nothing more is asked, for so many rounds. -/
def settleFsSync : ℕ → σ → Desktop → Option (σ × Desktop)
  | 0, s, d => some (s, d)
  | rounds + 1, s, d =>
    if d.outbox = [] then some (s, d)
    else
      (serveAll h S s { d with outbox := [] } d.outbox).bind fun (s, d) => settleFsSync rounds s d

/-- Open a file and satisfy the read on this thread. -/
def openFileSync (s : σ) (d : Desktop) (path : Path) : Option (σ × Desktop) :=
  settleFsSync h S 64 s (d.collect (d.model.openFile path))

/-- Read the files of the drafts that are not open. -/
def openDrafts : σ → Desktop → List Draft → Option (σ × Desktop)
  | s, d, [] => some (s, d)
  | s, d, draft :: rest =>
    if d.model.buffers.any (·.path = some draft.path) then openDrafts s d rest
    else (openFileSync h S s d draft.path).bind fun (s, d) => openDrafts s d rest

/-- What the directory of the drafts holds: the failure to reap it, and the drafts of the workspace
with what was wrong about others. -/
structure Found where
  unreaped : Option String
  drafts : Except String (List Draft × List String)

/-- Say that reaping failed. -/
def Found.reaped (found : Found) (m : Model) : Model :=
  match found.unreaped with
  | some e => m.appendNotification ("could not reap recovery drafts: " ++ e)
  | none => m

/-- Whether a draft is there to be offered. -/
def Found.any (found : Found) : Bool :=
  h.draftsDir.isSome && match found.drafts with
    | .ok (drafts, _) => drafts ≠ []
    | .error _ => false

/-- Load the drafts without applying them, and offer them. -/
def restoreDrafts (found : Found) (s : σ) (d : Desktop) : Option (σ × Desktop) :=
  if h.draftsDir.isNone ∨ d.explorer.isNone then some (s, d)
  else
    let m := found.reaped d.model
    match found.drafts with
    | .error e =>
      some (s, d.collect (m.appendNotification ("could not load recovery drafts: " ++ e)))
    | .ok (drafts, diagnostics) =>
      let m := diagnostics.foldl Model.appendNotification m
      if drafts = [] then some (s, d.collect m)
      else
        let known := drafts.foldl (fun known draft =>
          known.filter (· ≠ draft.path) ++ [draft.path]) m.knownDrafts
        (openDrafts h S s (d.collect { m with knownDrafts := known }) drafts).map fun (s, d) =>
          (s, d.collect
            (d.model.pushOverlay (.draftRecovery (drafts.map (·, true)) d.model.focus)))

end Service

end Desktop

/-- The events of the loop: it opens no workspace, and it hands its queue over in one place. -/
def Event.inLoop : Event → Bool
  | openWorkspace .. | restoreSession _ | takeFsRequests => false
  | _ => true

/-- What the loop does next. -/
inductive Turn where
  | event (ev : Event)
  /-- A key for the explorer, or a listing that arrived. -/
  | move (mv : Filesystem.Move)
  | dirFailed (id : NodeId) (error : FsError)
  /-- The queue goes to the worker. -/
  | forward

namespace Desktop

/-- One turn. -/
def step (h : Host) (d : Desktop) : Turn → Option Desktop
  | .event ev =>
    if ev.inLoop then
      match ev with
      | .fs e => d.onFsEvent h e
      | ev => (d.model.step h ev).map d.collect
    else none
  | .move mv => d.move mv
  | .dirFailed id error => d.dirFailed id error
  | .forward => some { d with outbox := [], executed := d.executed ++ d.outbox }

/-- The watch of `root` was handed to the worker, before any listing. -/
def Watches (d : Desktop) (root : Path) : Prop :=
  ∃ before after, d.executed = before ++ .request (.watch root) :: after ∧
    ∀ id path, .readDir id path ∉ before

/-- The jobs were handed to the worker or seen to. -/
def Kept (d : Desktop) (jobs : List Job) : Prop := ∀ j ∈ jobs, j ∈ d.executed ∨ j ∈ d.served

/-! ## What a step adds -/

/-- A step that adds to the queue and sees to requests, none of them a watch. -/
structure Grows (d d' : Desktop) : Prop where
  outbox : ∃ js, d'.outbox = d.outbox ++ js ∧ ∀ j ∈ js, j.Unwatched
  served : ∃ js, d'.served = d.served ++ js ∧ ∀ j ∈ js, j.Unwatched
  executed : d'.executed = d.executed

variable {h : Host} {d d' d'' : Desktop}

theorem Grows.of_eq (ho : d'.outbox = d.outbox) (hs : d'.served = d.served)
    (he : d'.executed = d.executed) : Grows d d' :=
  ⟨⟨[], by rw [ho, List.append_nil], by simp⟩, ⟨[], by rw [hs, List.append_nil], by simp⟩, he⟩

theorem Grows.queue {js : List Job} (ho : d'.outbox = d.outbox ++ js) (hjs : ∀ j ∈ js, j.Unwatched)
    (hs : d'.served = d.served) (he : d'.executed = d.executed) : Grows d d' :=
  ⟨⟨js, ho, hjs⟩, ⟨[], by rw [hs, List.append_nil], by simp⟩, he⟩

theorem Grows.trans (hg : Grows d d') (hg' : Grows d' d'') : Grows d d'' := by
  obtain ⟨js, ho, hjs⟩ := hg.outbox
  obtain ⟨js', ho', hjs'⟩ := hg'.outbox
  obtain ⟨ks, hs, hks⟩ := hg.served
  obtain ⟨ks', hs', hks'⟩ := hg'.served
  refine ⟨⟨js ++ js', ?_, List.forall_mem_append.mpr ⟨hjs, hjs'⟩⟩,
    ⟨ks ++ ks', ?_, List.forall_mem_append.mpr ⟨hks, hks'⟩⟩, hg'.executed.trans hg.executed⟩
  · rw [ho', ho, List.append_assoc]
  · rw [hs', hs, List.append_assoc]

theorem collect_grows {m : Model} (hm : ∃ rs, m.outbox = d.model.outbox ++ rs ∧
    ∀ r ∈ rs, r.Unwatched) : Grows d (d.collect m) := by
  obtain ⟨rs, ho, hrs⟩ := hm
  rw [d.clear, List.nil_append] at ho
  have hqueue : (d.collect m).outbox = d.outbox ++ rs.map .request := by rw [collect, ho]
  refine .queue hqueue ?_ rfl rfl
  intro j hj
  obtain ⟨r, hr, rfl⟩ := List.mem_map.mp hj
  exact hrs r hr

theorem collect_same {m : Model} (hm : m.outbox = d.model.outbox) : Grows d (d.collect m) :=
  collect_grows ⟨[], by rw [hm, List.append_nil], by simp⟩

theorem collect_step {ev : Event} {m : Model} (hl : ev.inLoop = true)
    (hs : d.model.step h ev = some m) : Grows d (d.collect m) := by
  have hclosed : ¬ ev.Opens := by
    cases ev with
    | openWorkspace | restoreSession => cases hl
    | _ => exact id
  have ht : ev ≠ .takeFsRequests := by
    rintro rfl
    cases hl
  obtain ⟨rs, ho, hrs⟩ := (Model.step_requested hs ht).outbox (fun _ _ => .inl trivial)
    fun _ _ _ _ => .inl trivial
  exact collect_grows ⟨rs, ho, fun r hr => (hrs r hr).resolve_right hclosed⟩

theorem move_grows {mv : Filesystem.Move} (hm : d.move mv = some d') : Grows d d' := by
  unfold move at hm
  split at hm
  · exact Option.some.inj hm ▸ .of_eq rfl rfl rfl
  · obtain ⟨x', -, rfl⟩ := Option.map_eq_some_iff.mp hm
    refine .queue rfl (fun j hj => ?_) rfl rfl
    obtain ⟨r, -, rfl⟩ := List.mem_map.mp hj
    trivial

theorem onFsEvent_grows {e : FsEvent} (he : d.onFsEvent h e = some d') : Grows d d' := by
  have hmodel : ∀ {d : Desktop}, (d.model.onFsEvent h e).map d.collect = some d' → Grows d d' := by
    intro d he
    obtain ⟨m, hm, rfl⟩ := Option.map_eq_some_iff.mp he
    exact @collect_step h d (.fs e) m rfl hm
  cases e with
  | changed paths =>
    obtain ⟨d₁, hmove, he⟩ := Option.bind_eq_some_iff.mp he
    exact (move_grows hmove).trans (hmodel he)
  | mutationFailed | fileLoaded | fileSaved | fileFailed | pathResolved | pathResolveFailed =>
    exact hmodel he

theorem dirFailed_grows {id : NodeId} {error : FsError} (hf : d.dirFailed id error = some d') :
    Grows d d' := by
  have hnotify : ∀ text, Grows d (d.collect (d.model.notify text)) := fun _ => collect_same rfl
  unfold dirFailed at hf
  split at hf
  · exact Option.some.inj hf ▸ .of_eq rfl rfl rfl
  · exact move_grows hf
  · exact (hnotify _).trans (move_grows hf)

/-- **A turn of the loop adds no watch**, and only the loop hands the queue over. -/
theorem step_grows {turn : Turn} (hs : d.step h turn = some d') :
    Grows d d' ∨ turn = .forward := by
  cases turn with
  | event ev =>
    simp only [step] at hs
    split_ifs at hs with hl
    refine .inl ?_
    split at hs
    · exact onFsEvent_grows hs
    · obtain ⟨m, hm, rfl⟩ := Option.map_eq_some_iff.mp hs
      exact collect_step hl hm
  | move mv => exact .inl (move_grows hs)
  | dirFailed id error => exact .inl (dirFailed_grows hs)
  | forward => exact .inr rfl

/-! ## No draft: the queue reaches the worker -/

theorem queued_of_step {jobs : List Job} {turn : Turn} (hp : jobs <+: d.executed ++ d.outbox)
    (hs : d.step h turn = some d') : jobs <+: d'.executed ++ d'.outbox := by
  rcases step_grows hs with hg | rfl
  · obtain ⟨js, ho, -⟩ := hg.outbox
    rw [hg.executed, ho, ← List.append_assoc]
    exact hp.trans (List.prefix_append _ _)
  · rw [← Option.some.inj hs, List.append_nil]
    exact hp

theorem handed_of_step {turn : Turn} (hs : d.step h turn = some d') :
    d.executed <+: d'.executed := by
  rcases step_grows hs with hg | rfl
  · rw [hg.executed]
  · rw [← Option.some.inj hs]
    exact List.prefix_append _ _

theorem handed_of_run {turns : List Turn} (hr : run (step h) d turns = some d') :
    d.executed <+: d'.executed := by
  induction turns generalizing d with
  | nil =>
    obtain rfl : d = d' := Option.some.inj hr
    exact List.prefix_rfl
  | cons turn turns ih =>
    obtain ⟨d₁, hs, hr⟩ := Option.bind_eq_some_iff.mp hr
    exact (handed_of_step hs).trans (ih hr)

/-- **The first time the loop hands its queue over, what was there goes first.** -/
theorem queued_of_run {jobs : List Job} {turns : List Turn} (hp : jobs <+: d.executed ++ d.outbox)
    (hr : run (step h) d turns = some d') (hf : Turn.forward ∈ turns) : jobs <+: d'.executed := by
  induction turns generalizing d with
  | nil => cases hf
  | cons turn turns ih =>
    obtain ⟨d₁, hs, hrest⟩ := Option.bind_eq_some_iff.mp hr
    rcases List.mem_cons.mp hf with rfl | hf
    · have hnow : jobs <+: d₁.executed := by
        rw [← Option.some.inj hs]
        exact hp
      exact hnow.trans (handed_of_run hrest)
    · exact ih (queued_of_step hp hs) hrest hf

/-! ## A draft: the watch is gone -/

/-- No watch is queued, and none was seen to or handed over. -/
def Quiet (d : Desktop) : Prop := ∀ j ∈ d.executed ++ d.outbox ++ d.served, j.Unwatched

theorem Grows.quiet (hg : Grows d d') (hq : d.Quiet) : d'.Quiet := by
  obtain ⟨js, ho, hjs⟩ := hg.outbox
  obtain ⟨ks, hs, hks⟩ := hg.served
  simp only [Quiet, List.forall_mem_append] at hq ⊢
  rw [hg.executed, ho, hs, List.forall_mem_append, List.forall_mem_append]
  exact ⟨⟨hq.1.1, hq.1.2, hjs⟩, hq.2, hks⟩

theorem Quiet.emptied (hq : d.Quiet) : { d with outbox := [] }.Quiet := by
  simp only [Quiet, List.forall_mem_append] at hq ⊢
  exact ⟨⟨hq.1.1, by simp⟩, hq.2⟩

theorem Quiet.collect {m : Model} (hq : { d with outbox := [] }.Quiet) :
    { d.collect m with outbox := [] }.Quiet := hq

theorem quiet_of_run {turns : List Turn} (hq : d.Quiet) (hr : run (step h) d turns = some d') :
    d'.Quiet := by
  induction turns generalizing d with
  | nil =>
    obtain rfl : d = d' := Option.some.inj hr
    exact hq
  | cons turn turns ih =>
    obtain ⟨d₁, hs, hr⟩ := Option.bind_eq_some_iff.mp hr
    refine ih ?_ hr
    rcases step_grows hs with hg | rfl
    · exact hg.quiet hq
    · rw [← Option.some.inj hs]
      simp only [Quiet, List.forall_mem_append] at hq ⊢
      exact ⟨⟨hq.1, by simp⟩, hq.2⟩

/-! ## The start -/

/-- What a workspace that was just opened has queued. -/
structure Started (m : Model) (root : Path) (d : Desktop) : Prop where
  outbox : ∃ js, d.outbox = .request (.watch root) :: js
  executed : d.executed = []
  served : d.served = []
  explorer : d.explorer.isSome
  buffers : d.model.buffers = m.buffers

theorem openWorkspace_started {m : Model} {root : Path} {name : String}
    {recipes : List ConfiguredRecipe} (hs : (fresh m).openWorkspace root name recipes = some d) :
    Started m root d := by
  rw [openWorkspace, move] at hs
  obtain ⟨x', -, rfl⟩ := Option.map_eq_some_iff.mp hs
  exact ⟨⟨_, rfl⟩, rfl, rfl, rfl, rfl⟩

/-- **However the workspace opens, its watch is queued first.** -/
theorem start_started {m : Model} {o : Opening} (hs : (fresh m).start h o = some d) :
    Started m o.root d := by
  cases o with
  | configured root name recipes => exact openWorkspace_started hs
  | session name w =>
    rw [start] at hs
    obtain ⟨d₁, hopen, rfl⟩ := Option.map_eq_some_iff.mp hs
    obtain ⟨⟨js, ho⟩, hexecuted, hserved, hexplorer, hbuffers⟩ := openWorkspace_started hopen
    refine ⟨⟨js ++ (d₁.model.reopen h w).outbox.map .request, ?_⟩, hexecuted, hserved, hexplorer,
      (Model.reopen_still h d₁.model w).1.trans hbuffers⟩
    rw [collect, ho, List.cons_append]
    rfl

section Service

variable {σ : Type*} {S : FileService σ} {s s' : σ}

theorem serve_grows {j : Job} (hs : serve h S s d j = some (s', d')) : Grows d d' := by
  have hseen : ∀ j : Job, j.Unwatched → Grows d { d with served := d.served ++ [j] } := fun j hj =>
    ⟨⟨[], (List.append_nil _).symm, by simp⟩, ⟨[j], rfl, by simpa using hj⟩, rfl⟩
  cases j with
  | readDir id path =>
    have hread := hseen (.readDir id path) trivial
    unfold serve at hs
    dsimp only at hs
    split at hs
    · obtain ⟨d₁, hmove, heq⟩ := Option.map_eq_some_iff.mp hs
      exact (Prod.mk.inj heq).2 ▸ hread.trans (move_grows hmove)
    · obtain ⟨d₁, hfail, heq⟩ := Option.map_eq_some_iff.mp hs
      exact (Prod.mk.inj heq).2 ▸ hread.trans (dirFailed_grows hfail)
  | request r =>
    unfold serve at hs
    dsimp only at hs
    split at hs
    · exact (Prod.mk.inj (Option.some.inj hs)).2 ▸ .of_eq rfl rfl rfl
    · rename_i e s₁ hanswer
      obtain ⟨d₁, he, heq⟩ := Option.map_eq_some_iff.mp hs
      -- the requests that the service answers are no watches
      have hr : r.Unwatched := by
        cases r with
        | watch => cases hanswer
        | _ => trivial
      exact (Prod.mk.inj heq).2 ▸ (hseen (.request r) hr).trans (onFsEvent_grows he)

theorem serveAll_grows {js : List Job} (hs : serveAll h S s d js = some (s', d')) :
    Grows d d' := by
  induction js generalizing s d with
  | nil =>
    obtain ⟨-, rfl⟩ := Prod.mk.inj (Option.some.inj hs)
    exact .of_eq rfl rfl rfl
  | cons j js ih =>
    obtain ⟨⟨s₁, d₁⟩, hone, hs⟩ := Option.bind_eq_some_iff.mp hs
    exact (serve_grows hone).trans (ih hs)

theorem settleFsSync_quiet (rounds : ℕ) (hq : { d with outbox := [] }.Quiet)
    (hs : settleFsSync h S (rounds + 1) s d = some (s', d')) : d'.Quiet := by
  induction rounds generalizing s d with
  | zero =>
    rw [settleFsSync] at hs
    split_ifs at hs with hempty
    · obtain ⟨-, rfl⟩ := Prod.mk.inj (Option.some.inj hs)
      rwa [← hempty] at hq
    · obtain ⟨⟨s₁, d₁⟩, hone, hs⟩ := Option.bind_eq_some_iff.mp hs
      obtain ⟨-, rfl⟩ := Prod.mk.inj (Option.some.inj hs)
      exact (serveAll_grows hone).quiet hq
  | succ rounds ih =>
    rw [settleFsSync] at hs
    split_ifs at hs with hempty
    · obtain ⟨-, rfl⟩ := Prod.mk.inj (Option.some.inj hs)
      rwa [← hempty] at hq
    · obtain ⟨⟨s₁, d₁⟩, hone, hs⟩ := Option.bind_eq_some_iff.mp hs
      exact ih ((serveAll_grows hone).quiet hq).emptied hs

theorem openFileSync_quiet {path : Path} (hq : { d with outbox := [] }.Quiet)
    (hs : openFileSync h S s d path = some (s', d')) : d'.Quiet :=
  settleFsSync_quiet 63 hq.collect hs

theorem openDrafts_quiet {drafts : List Draft} (hq : d.Quiet)
    (hs : openDrafts h S s d drafts = some (s', d')) : d'.Quiet := by
  induction drafts generalizing s d with
  | nil =>
    obtain ⟨-, rfl⟩ := Prod.mk.inj (Option.some.inj hs)
    exact hq
  | cons draft rest ih =>
    rw [openDrafts] at hs
    split_ifs at hs
    · exact ih hq hs
    · obtain ⟨⟨s₁, d₁⟩, hone, hs⟩ := Option.bind_eq_some_iff.mp hs
      exact ih (openFileSync_quiet hq.emptied hone) hs

theorem appendAll_mail (texts : List String) (m : Model) :
    (texts.foldl Model.appendNotification m).mail = m.mail :=
  Model.mail_foldl Model.appendNotification_mail texts m

theorem appendAll_still (texts : List String) (m : Model) :
    Model.Still m (texts.foldl Model.appendNotification m) :=
  Model.still_foldl Model.still_appendNotification texts m

theorem reaped_mail (found : Found) (m : Model) : (found.reaped m).mail = m.mail := by
  unfold Found.reaped
  split
  · exact Model.appendNotification_mail m _
  · rfl

theorem reaped_still (found : Found) (m : Model) : Model.Still m (found.reaped m) := by
  unfold Found.reaped
  split
  · exact Model.still_appendNotification m _
  · exact ⟨rfl, rfl, rfl⟩

theorem restoreDrafts_none {found : Found} (hf : found.any h = false)
    (hs : restoreDrafts h S found s d = some (s', d')) : Grows d d' := by
  have hreap : (found.reaped d.model).outbox = d.model.outbox :=
    congrArg Mail.outbox (reaped_mail found d.model)
  unfold restoreDrafts at hs
  split_ifs at hs with hno
  · exact (Prod.mk.inj (Option.some.inj hs)).2 ▸ .of_eq rfl rfl rfl
  · dsimp only at hs
    split at hs
    · have happend := fun text =>
        congrArg Mail.outbox (Model.appendNotification_mail (found.reaped d.model) text)
      exact (Prod.mk.inj (Option.some.inj hs)).2 ▸ collect_same ((happend _).trans hreap)
    · rename_i drafts diagnostics hfound
      have hdir : h.draftsDir.isSome = true :=
        Option.isSome_iff_ne_none.mpr fun hnone => hno (.inl (Option.isNone_iff_eq_none.mpr hnone))
      have hempty : drafts = [] := by
        simpa [Found.any, hdir, hfound] using hf
      have happend := congrArg Mail.outbox (appendAll_mail diagnostics (found.reaped d.model))
      rw [if_pos hempty] at hs
      exact (Prod.mk.inj (Option.some.inj hs)).2 ▸ collect_same (happend.trans hreap)

/-- With a draft the queue is served on the main thread, and the watch with it. -/
theorem restoreDrafts_quiet {found : Found} (hf : found.any h = true)
    (hx : d.explorer.isSome) (hb : d.model.buffers = []) (hq : { d with outbox := [] }.Quiet)
    (hs : restoreDrafts h S found s d = some (s', d')) : d'.Quiet := by
  obtain ⟨hdir, hfound⟩ := Bool.and_eq_true_iff.mp hf
  have hready : ¬ (h.draftsDir.isNone ∨ d.explorer.isNone) := by
    rw [Option.isNone_eq_false_iff.mpr hdir, Option.isNone_eq_false_iff.mpr hx]
    simp
  unfold restoreDrafts at hs
  rw [if_neg hready] at hs
  dsimp only at hs
  split at hs
  · rename_i hdrafts
    rw [hdrafts] at hfound
    cases hfound
  · rename_i drafts diagnostics hdrafts
    rw [hdrafts] at hfound
    rw [if_neg (of_decide_eq_true hfound)] at hs
    obtain ⟨⟨s₁, d₁⟩, hopen, heq⟩ := Option.map_eq_some_iff.mp hs
    obtain ⟨-, rfl⟩ := Prod.mk.inj heq
    have hpush : Grows d₁ (d₁.collect (d₁.model.pushOverlay
        (.draftRecovery (drafts.map (·, true)) d₁.model.focus))) := collect_same rfl
    refine hpush.quiet ?_
    cases drafts with
    | nil => exact absurd rfl (of_decide_eq_true hfound)
    | cons draft rest =>
      -- nothing is open yet, so the first draft's file is read here
      have hclosed : (diagnostics.foldl Model.appendNotification (found.reaped d.model)).buffers = [] :=
        ((reaped_still found d.model).trans (appendAll_still diagnostics _)).1.trans hb
      rw [openDrafts, if_neg (by rw [collect]; simp [hclosed])] at hopen
      obtain ⟨⟨s₂, d₂⟩, hone, hopen⟩ := Option.bind_eq_some_iff.mp hopen
      exact openDrafts_quiet (openFileSync_quiet hq.collect hone) hopen

/-- **The watch and what else was queued for the workspace reach an executor** if and only if no
draft is found. -/
theorem startup_kept_iff {m : Model} {o : Opening} {found : Found} {d₀ d₁ : Desktop}
    {turns : List Turn} (hm : m.buffers = []) (hstart : (fresh m).start h o = some d₀)
    (hdrafts : restoreDrafts h S found s d₀ = some (s', d₁)) (hrun : run (step h) d₁ turns = some d)
    (hf : Turn.forward ∈ turns) :
    (d.Watches o.root ∧ d.Kept d₀.outbox) ↔ found.any h = false := by
  have hstarted := start_started hstart
  obtain ⟨js, ho⟩ := hstarted.outbox
  refine ⟨fun hw => ?_, fun hnone => ?_⟩
  · by_contra hsome
    have hempty : { d₀ with outbox := [] }.Quiet := by
      simp [Quiet, hstarted.executed, hstarted.served]
    have hquiet := restoreDrafts_quiet (by simpa using hsome) hstarted.explorer
      (hstarted.buffers.trans hm) hempty hdrafts
    obtain ⟨before, after, heq, -⟩ := hw.1
    have hwatch := quiet_of_run hquiet hrun (.request (.watch o.root))
    rw [heq] at hwatch
    exact hwatch (by simp)
  · obtain ⟨ks, hqueue, -⟩ := (restoreDrafts_none hnone hdrafts).outbox
    have hfirst : d₀.outbox <+: d₁.executed ++ d₁.outbox := by
      rw [(restoreDrafts_none hnone hdrafts).executed, hstarted.executed, hqueue]
      exact List.prefix_append _ _
    obtain ⟨after, hexecuted⟩ := queued_of_run hfirst hrun hf
    refine ⟨⟨[], js ++ after, ?_, by simp⟩, fun j hj => .inl ?_⟩
    · rw [← hexecuted, ho]
      rfl
    · rw [← hexecuted]
      exact List.mem_append_left _ hj

end Service

/-! ## A start with a draft and one without -/

def workRoot : Path := [.rootDir, .normal "w"]

def draftedFile : Path := [.rootDir, .normal "w", .normal "n.md"]

/-- A filesystem where every file is one letter and every directory is empty. -/
def oneLetter : FileService Unit where
  readDir s _ := (.ok [], s)
  readFile s _ := (.ok (some ['a']), s)
  writeFile s _ _ := (.ok (), s)
  createFile s _ := (.ok (), s)
  createDir s _ := (.ok (), s)
  rename s _ _ := (.ok (), s)
  removeFile s _ := (.ok (), s)
  removeDirAll s _ := (.ok (), s)
  canonicalize s path := (.ok path, s)

def drafting : Host := { Host.plain with draftsDir := some [.rootDir, .normal "drafts"] }

def byPath : Opening := .configured workRoot "w" []

def noDraft : Found := ⟨none, .ok ([], [])⟩

def oneDraft : Found := ⟨none, .ok ([⟨draftedFile, ['b']⟩], [])⟩

def opened : Desktop := ((fresh {}).start drafting byPath).get (by decide)

/-- Nothing is found, and the loop hands its queue over. -/
def plainStart : Unit × Desktop :=
  (restoreDrafts drafting oneLetter noDraft () opened).get (by decide)

theorem plainStart_eq : restoreDrafts drafting oneLetter noDraft () opened = some plainStart :=
  (Option.some_get _).symm

def plainLoop : Desktop := (run (step drafting) plainStart.2 [.forward]).get (by decide)

theorem plainLoop_eq : run (step drafting) plainStart.2 [.forward] = some plainLoop :=
  (Option.some_get _).symm

/-- The draft's file is read on the main thread first. -/
def draftedStart : Unit × Desktop :=
  (restoreDrafts drafting oneLetter oneDraft () opened).get (by decide)

theorem draftedStart_eq :
    restoreDrafts drafting oneLetter oneDraft () opened = some draftedStart :=
  (Option.some_get _).symm

def draftedLoop : Desktop := (run (step drafting) draftedStart.2 [.forward]).get (by decide)

theorem startup_kept_plain :
    (plainLoop.Watches workRoot ∧ plainLoop.Kept opened.outbox) ↔ noDraft.any drafting = false :=
  startup_kept_iff (S := oneLetter) (o := byPath) (m := {}) rfl (Option.some_get _).symm plainStart_eq
    plainLoop_eq (List.mem_singleton.mpr rfl)

/-- **A draft costs the workspace its watch.** -/
theorem draft_drops_watch :
    ¬ ∀ (h : Host) (S : FileService Unit) (m : Model) (o : Opening) (found : Found)
      (turns : List Turn) (s s' : Unit) (d₀ d₁ d : Desktop), m.buffers = [] →
      (fresh m).start h o = some d₀ → restoreDrafts h S found s d₀ = some (s', d₁) →
      run (step h) d₁ turns = some d → Turn.forward ∈ turns →
      d.Watches o.root ∧ d.Kept d₀.outbox := by
  intro hall
  obtain ⟨⟨before, after, heq, -⟩, -⟩ := hall drafting oneLetter {} byPath oneDraft [.forward] ()
    draftedStart.1 opened draftedStart.2 draftedLoop rfl (Option.some_get _).symm draftedStart_eq
    (Option.some_get _).symm (by simp)
  have hnothing : draftedLoop.executed = [] := by decide
  rw [hnothing] at heq
  simp at heq

end Desktop

end App

end Termesh
