import Termesh.App.Exits
import Termesh.Lib.Run

/-!
# Task runs

A run follows the process of its terminal: how it stands, what became of a request to cancel it, and
what was decoded of its output. It is joined to the terminal and not to the process, so a restart of
the terminal leaves it as the last process left it.

* `TaskWatch`: the desk, which processes were to be cancelled, and the events that were absorbed;
* `Follows`: the run is that of its terminal's process;
* `Tracks`, `step_tracks`: the invariant;
* **`task_follows`**: runs follow, unless a terminal is restarted whose run has started.
-/

namespace Termesh

namespace App

variable {δ : Type}

/-- The desk, with the processes that were to be cancelled and the events absorbed. -/
structure TaskWatch (δ : Type) where
  desk : TaskDesk δ
  cancels : List (TerminalId × TerminalGeneration) := []
  heard : List PtyEvent := []

/-- How a task stands whose process stands so. -/
def taskStatus (cancelRequested : Bool) : TerminalStatus → TaskStatus
  | .starting => .starting
  | .running _ => .running
  | .exited exit => TaskRun.ended cancelRequested exit
  | .failed _ => .failed

/-- What a decoder reads of the events of one process. -/
def readOf (terminal : TerminalId) (generation : TerminalGeneration) :
    List PtyEvent → List (Option (List UInt8)) :=
  List.filterMap fun
    | .output t g bytes => if t = terminal ∧ g = generation then some (some bytes) else none
    | .exited t g _ => if t = terminal ∧ g = generation then some none else none
    | _ => none

/-- What a fresh run has decoded once it has read this. -/
def replay (σ : TaskService δ) (spec : TaskSpec) (read : List (Option (List UInt8))) :
    Option δ × List Problem :=
  read.foldl (fun kept bytes =>
    ((σ.decode kept.1 bytes).1,
      (σ.decode kept.1 bytes).2.problems.foldl (addProblem spec.cwd) kept.2)) (σ.decoder spec, [])

namespace TaskWatch

variable (h : Host) (σ : TaskService δ)

/-- The process that a cancellation is for. -/
def cancelling (d : TaskDesk δ) : Option (TerminalId × TerminalGeneration) :=
  (d.runs.reverse.find? TaskDesk.cancellable).bind fun run =>
    (d.model.terminalWithId run.terminal).map fun t => (t.id, t.generation)

def step (w : TaskWatch δ) (deed : TaskDesk.TaskDeed) : Option (TaskWatch δ) :=
  (w.desk.step h σ deed).map fun desk =>
    { desk
      cancels := match deed with
        | .cancelLatestTask => w.cancels ++ (cancelling w.desk).toList
        | _ => w.cancels
      heard := match deed with
        | .event (.pty e) => if w.desk.hears e then w.heard ++ [e] else w.heard
        | _ => w.heard }

/-- A run is that of its terminal's process: it is starting, running or ended just as the process
is; it is cancelled only if that was asked for this process, and has succeeded just when the process
exited with code 0 without it; and what it has decoded is what this process wrote. -/
structure Follows (w : TaskWatch δ) (run : TaskRun δ) (t : TerminalSession) : Prop where
  starting : run.status = .starting ↔ t.status = .starting
  running : run.status = .running ↔ ∃ processId, t.status = .running processId
  ended : run.status.isActive = false ↔ t.status.isLive = false
  cancelled : run.status = .cancelled → (t.id, t.generation) ∈ w.cancels
  succeeded : run.status = .succeeded ↔
    (∃ exit, t.status = .exited exit ∧ exit.code = some 0) ∧ (t.id, t.generation) ∉ w.cancels
  decoded : (run.decoder, run.problems) = replay σ run.spec (readOf t.id t.generation w.heard)

/-- The run is as it was when it was attached. -/
def Fresh (run : TaskRun δ) : Prop :=
  run.status = .starting ∧ run.cancelRequested = false ∧ run.problems = [] ∧
    run.decoder = σ.decoder run.spec

/-- A restart replaces no process that a run has followed. -/
def Unrestarted (w : TaskWatch δ) (deed : TaskDesk.TaskDeed) : Prop :=
  deed = .event (.dispatch .terminalRestart) → ∀ t, w.desk.model.restarting = some t →
    ∀ run ∈ w.desk.runs, run.terminal = t.id → Fresh σ run

/-- No task has been run, and no terminal is numbered above the newest. -/
def Start (w : TaskWatch δ) : Prop :=
  w.desk.runs = [] ∧ w.cancels = [] ∧ w.heard = [] ∧ Model.Numbered w.desk.model.pane

/-! ## The invariant -/

/-- A process's events come from terminals there have been, and from generations no later than the
current one. -/
def Past (ps : List Process) (next : ℕ) (c : TerminalId × TerminalGeneration) : Prop :=
  c.1.val ≤ next ∧ ∀ p ∈ ps, p.terminal = c.1 → c.2.val ≤ p.generation.val

/-- A run tracks a process. -/
structure Tracked (cancels : List (TerminalId × TerminalGeneration)) (heard : List PtyEvent)
    (run : TaskRun δ) (p : Process) : Prop where
  status : run.status = taskStatus run.cancelRequested p.status
  cancel : run.cancelRequested = true ↔ (p.terminal, p.generation) ∈ cancels
  decoded : (run.decoder, run.problems) = replay σ run.spec (readOf p.terminal p.generation heard)

structure Tracks (ps : List Process) (next : ℕ) (runs : List (TaskRun δ))
    (cancels : List (TerminalId × TerminalGeneration)) (heard : List PtyEvent) : Prop where
  unique : (ps.map (·.terminal)).Nodup
  numbered : ∀ p ∈ ps, p.terminal.val ≤ next
  distinct : (runs.map (·.terminal)).Nodup
  attached : ∀ run ∈ runs, run.terminal.val ≤ next
  heardPast : ∀ e ∈ heard, Past ps next (Model.eventTerminal e)
  cancelsPast : ∀ c ∈ cancels, Past ps next c
  follows : ∀ run ∈ runs, ∀ p ∈ ps, p.terminal = run.terminal → Tracked σ cancels heard run p

variable {σ} {ps ps' : List Process} {next next' : ℕ} {runs runs' : List (TaskRun δ)}
  {cancels : List (TerminalId × TerminalGeneration)} {heard : List PtyEvent}

theorem readOf_append (terminal : TerminalId) (generation : TerminalGeneration)
    (l l' : List PtyEvent) : readOf terminal generation (l ++ l') =
      readOf terminal generation l ++ readOf terminal generation l' := List.filterMap_append ..

theorem readOf_eq_nil {terminal : TerminalId} {generation : TerminalGeneration}
    (hn : ∀ e ∈ heard, Model.eventTerminal e ≠ (terminal, generation)) :
    readOf terminal generation heard = [] := by
  refine List.filterMap_eq_nil_iff.mpr fun e he => ?_
  have hne := hn e he
  cases e with
  | spawned | failed => rfl
  | output t g bytes => exact if_neg fun hc => hne (Prod.ext hc.1 hc.2)
  | exited t g exit => exact if_neg fun hc => hne (Prod.ext hc.1 hc.2)

/-- What an event of its process makes of a run. -/
def runAfter (σ : TaskService δ) (status : TerminalStatus) (e : PtyEvent) (run : TaskRun δ) :
    TaskRun δ :=
  match e with
  | .spawned _ _ _ => { run with status := .running }
  | .output _ _ bytes => (run.decode σ (some bytes)).2
  | .exited _ _ exit =>
    { (run.decode σ none).2 with status := TaskRun.ended run.cancelRequested exit }
  | .failed _ _ _ =>
    match status with
    | .exited _ => run
    | _ => { run with status := .failed }

theorem runAfter_terminal (status : TerminalStatus) (e : PtyEvent) (run : TaskRun δ) :
    (runAfter σ status e run).terminal = run.terminal := by
  cases e with
  | failed => cases status <;> rfl
  | spawned | output | exited => rfl

theorem Tracked.absorb {run : TaskRun δ} {p : Process} (hf : Tracked σ cancels heard run p)
    {e : PtyEvent} (he : Model.eventTerminal e = (p.terminal, p.generation)) :
    Tracked σ cancels (heard ++ [e]) (runAfter σ p.status e run)
      { p with status := Model.statusAfter p.status e } := by
  obtain ⟨hstatus, hcancel, hdecoded⟩ := hf
  have hread : ∀ bytes, readOf p.terminal p.generation [e] = [bytes] →
      ((run.decode σ bytes).2.decoder, (run.decode σ bytes).2.problems) =
        replay σ run.spec (readOf p.terminal p.generation (heard ++ [e])) := by
    intro bytes hb
    rw [readOf_append, hb, replay, List.foldl_append]
    change _ = List.foldl _ (replay σ run.spec _) _
    rw [← hdecoded]
    rfl
  have hquiet : readOf p.terminal p.generation [e] = [] → (run.decoder, run.problems) =
      replay σ run.spec (readOf p.terminal p.generation (heard ++ [e])) := by
    intro hnil
    rw [readOf_append, hnil, List.append_nil]
    exact hdecoded
  cases e with
  | spawned t g processId => exact ⟨rfl, hcancel, hquiet rfl⟩
  | output t g bytes =>
    obtain ⟨rfl, rfl⟩ := Prod.ext_iff.mp he
    exact ⟨hstatus, hcancel, hread (some bytes) (by simp [readOf])⟩
  | exited t g exit =>
    obtain ⟨rfl, rfl⟩ := Prod.ext_iff.mp he
    exact ⟨rfl, hcancel, hread none (by simp [readOf])⟩
  | failed t g message =>
    cases hp : p.status with
    | exited exit => exact ⟨by rw [hp] at hstatus; exact hstatus, hcancel, hquiet rfl⟩
    | starting | running | failed => exact ⟨rfl, hcancel, hquiet rfl⟩

theorem Tracked.ignore {run : TaskRun δ} {p : Process} (hf : Tracked σ cancels heard run p)
    {e : PtyEvent} (he : (Model.eventTerminal e).1 ≠ p.terminal) :
    Tracked σ cancels (heard ++ [e]) run p := by
  refine ⟨hf.status, hf.cancel, ?_⟩
  have hnil : readOf p.terminal p.generation [e] = [] := readOf_eq_nil fun e' he' hc => by
    rw [List.mem_singleton.mp he'] at hc
    exact he (congrArg Prod.fst hc)
  rw [readOf_append, hnil, List.append_nil]
  exact hf.decoded

namespace Tracks

theorem eq_of_terminal (hi : Tracks σ ps next runs cancels heard) {p q : Process} (hp : p ∈ ps)
    (hq : q ∈ ps) (he : p.terminal = q.terminal) : p = q :=
  List.inj_on_of_nodup_map hi.unique hp hq he

theorem past_kept {c : TerminalId × TerminalGeneration} (hc : Past ps next c) (hn : next ≤ next')
    (hk : ∀ p ∈ ps', p ∈ ps ∨ next < p.terminal.val ∧ p.generation = ⟨1⟩ ∧ p.status = .starting) :
    Past ps' next' c := by
  refine ⟨hc.1.trans hn, fun p hp ht => ?_⟩
  rcases hk p hp with hp | ⟨hlt, -⟩
  · exact hc.2 p hp ht
  · have := hc.1
    rw [← ht] at this
    omega

theorem settled (hi : Tracks σ ps next runs cancels heard) (hn : next ≤ next')
    (hk : ∀ p ∈ ps', p ∈ ps ∨ next < p.terminal.val ∧ p.generation = ⟨1⟩ ∧ p.status = .starting)
    (hu : (ps'.map (·.terminal)).Nodup) (hm : ∀ p ∈ ps', p.terminal.val ≤ next') :
    Tracks σ ps' next' runs cancels heard where
  unique := hu
  numbered := hm
  distinct := hi.distinct
  attached run hr := (hi.attached run hr).trans hn
  heardPast e he := past_kept (hi.heardPast e he) hn hk
  cancelsPast c hc := past_kept (hi.cancelsPast c hc) hn hk
  follows run hr p hp ht := by
    rcases hk p hp with hp | ⟨hlt, -⟩
    · exact hi.follows run hr p hp ht
    · have := hi.attached run hr
      rw [← ht] at this
      omega

/-- A run attached to a new terminal, and the oldest run gone if there are too many. -/
theorem attach (hi : Tracks σ ps next runs cancels heard) {terminal : TerminalId}
    (hp : ⟨terminal, ⟨1⟩, .starting⟩ ∈ ps) (hr : terminal ∉ runs.map (·.terminal))
    (hh : ∀ e ∈ heard, (Model.eventTerminal e).1 ≠ terminal) (hc : ∀ c ∈ cancels, c.1 ≠ terminal)
    {run : TaskRun δ} (ht : run.terminal = terminal) (hf : Fresh σ run)
    (hsub : runs'.Sublist (runs ++ [run])) : Tracks σ ps next runs' cancels heard := by
  have hdistinct : ((runs ++ [run]).map (·.terminal)).Nodup := by
    rw [List.map_append]
    refine List.nodup_append.mpr ⟨hi.distinct, List.nodup_singleton _, ?_⟩
    rintro id hid new hnew rfl
    have hid' : run.terminal ∈ runs.map (·.terminal) := by
      rwa [List.mem_singleton.mp hnew] at hid
    exact hr (ht ▸ hid')
  have hrun : ∀ q ∈ ps, q.terminal = run.terminal → Tracked σ cancels heard run q := by
    intro q hq he
    obtain rfl := hi.eq_of_terminal hq hp (he.trans ht)
    obtain ⟨hstatus, hcancel, hproblems, hdecoder⟩ := hf
    refine ⟨hstatus, ?_, ?_⟩
    · rw [hcancel]
      exact iff_of_false Bool.false_ne_true fun hm => hc _ hm rfl
    · rw [readOf_eq_nil fun e he hc => hh e he (congrArg Prod.fst hc), hproblems, hdecoder]
      rfl
  refine ⟨hi.unique, hi.numbered, hdistinct.sublist (hsub.map _), fun r hr => ?_, hi.heardPast,
    hi.cancelsPast, fun r hr q hq he => ?_⟩
  · rcases List.mem_append.mp (hsub.subset hr) with hr | hr
    · exact hi.attached r hr
    · rw [List.mem_singleton.mp hr, ht]
      exact hi.numbered _ hp
  · rcases List.mem_append.mp (hsub.subset hr) with hr | hr
    · exact hi.follows r hr q hq he
    · obtain rfl := List.mem_singleton.mp hr
      exact hrun q hq he

theorem cancel (hi : Tracks σ ps next runs cancels heard) {run : TaskRun δ} (hr : run ∈ runs)
    (ha : run.status.isActive = true) (hc : run.cancelRequested = false) {p : Process} (hp : p ∈ ps)
    (ht : p.terminal = run.terminal) :
    Tracks σ ps next (runs.map fun r =>
        if r.terminal = run.terminal then { r with cancelRequested := true } else r)
      (cancels ++ [(p.terminal, p.generation)]) heard := by
  have hterminals : (runs.map fun r =>
      if r.terminal = run.terminal then { r with cancelRequested := true } else r).map (·.terminal) =
        runs.map (·.terminal) := by
    rw [List.map_map]
    refine List.map_congr_left fun r _ => ?_
    dsimp only [Function.comp_def]
    split_ifs <;> rfl
  refine ⟨hi.unique, hi.numbered, hterminals ▸ hi.distinct, ?_, hi.heardPast, ?_, ?_⟩
  · intro r' hr'
    obtain ⟨r, hr, rfl⟩ := List.mem_map.mp hr'
    split_ifs <;> exact hi.attached r hr
  · intro c hcm
    rcases List.mem_append.mp hcm with hcm | hcm
    · exact hi.cancelsPast c hcm
    · obtain rfl := List.mem_singleton.mp hcm
      refine ⟨hi.numbered p hp, fun q hq he => ?_⟩
      rw [hi.eq_of_terminal hq hp he]
  · intro r' hr' q hq he
    obtain ⟨r, hrm, rfl⟩ := List.mem_map.mp hr'
    by_cases hrun : r.terminal = run.terminal
    · rw [if_pos hrun] at he ⊢
      obtain rfl := List.inj_on_of_nodup_map hi.distinct hrm hr hrun
      obtain rfl := hi.eq_of_terminal hq hp (he.trans ht.symm)
      have hf := hi.follows r hr q hq he
      have hstatus := hf.status
      rw [hc] at hstatus
      refine ⟨?_, ?_, hf.decoded⟩
      · change r.status = taskStatus true q.status
        cases hq' : q.status with
        | starting | running | failed => rwa [hq'] at hstatus
        | exited exit =>
          rw [hq'] at hstatus
          rw [hstatus, taskStatus, TaskRun.ended] at ha
          split_ifs at ha <;> cases ha
      · simp
    · rw [if_neg hrun] at he ⊢
      have hf := hi.follows r hrm q hq he
      refine ⟨hf.status, hf.cancel.trans ?_, hf.decoded⟩
      have hne : q.terminal ≠ p.terminal := fun hqp => hrun ((he.symm.trans hqp).trans ht)
      simp [hne]

theorem restart (hi : Tracks σ ps next runs cancels heard) {p : Process} {i : ℕ}
    (hp : ps[i]? = some p) (hf : ∀ run ∈ runs, run.terminal = p.terminal → Fresh σ run) :
    Tracks σ (ps.set i ⟨p.terminal, ⟨p.generation.val + 1⟩, .starting⟩) next runs cancels heard := by
  have hpm : p ∈ ps := List.mem_of_getElem? hp
  have hterminals : (ps.set i ⟨p.terminal, ⟨p.generation.val + 1⟩, .starting⟩).map (·.terminal) =
      ps.map (·.terminal) := Firsts.map_set_of_eq hp rfl
  have hunique := hterminals ▸ hi.unique
  have hnew : ⟨p.terminal, ⟨p.generation.val + 1⟩, .starting⟩ ∈
      ps.set i ⟨p.terminal, ⟨p.generation.val + 1⟩, .starting⟩ := by
    obtain ⟨hlt, -⟩ := List.getElem?_eq_some_iff.mp hp
    exact List.mem_set hlt _
  have hcases : ∀ q ∈ ps.set i ⟨p.terminal, ⟨p.generation.val + 1⟩, .starting⟩,
      q = ⟨p.terminal, ⟨p.generation.val + 1⟩, .starting⟩ ∨ q ∈ ps ∧ q.terminal ≠ p.terminal := by
    intro q hq
    by_cases he : q.terminal = p.terminal
    · exact .inl (List.inj_on_of_nodup_map hunique hq hnew he)
    · rcases List.mem_or_eq_of_mem_set hq with hq | rfl
      · exact .inr ⟨hq, he⟩
      · exact absurd rfl he
  have hpast : ∀ c, Past ps next c → Past
      (ps.set i ⟨p.terminal, ⟨p.generation.val + 1⟩, .starting⟩) next c := by
    refine fun c hc => ⟨hc.1, fun q hq he => ?_⟩
    rcases hcases q hq with rfl | ⟨hq, -⟩
    · exact Nat.le_succ_of_le (hc.2 p hpm he)
    · exact hc.2 q hq he
  refine ⟨hunique, fun q hq => ?_, hi.distinct, hi.attached, fun e he => hpast _ (hi.heardPast e he),
    fun c hc => hpast c (hi.cancelsPast c hc), fun run hr q hq he => ?_⟩
  · rcases hcases q hq with rfl | ⟨hq, -⟩
    · exact hi.numbered p hpm
    · exact hi.numbered q hq
  · rcases hcases q hq with rfl | ⟨hq, -⟩
    · obtain ⟨hstatus, hcancel, hproblems, hdecoder⟩ := hf run hr he.symm
      refine ⟨hstatus, ?_, ?_⟩
      · rw [hcancel]
        refine iff_of_false Bool.false_ne_true fun hm => ?_
        have := (hi.cancelsPast _ hm).2 p hpm rfl
        exact Nat.not_succ_le_self _ this
      · rw [readOf_eq_nil, hproblems, hdecoder]
        · rfl
        · intro e hem hc
          have := (hi.heardPast e hem).2 p hpm (congrArg Prod.fst hc).symm
          rw [congrArg Prod.snd hc] at this
          exact Nat.not_succ_le_self _ this
    · exact hi.follows run hr q hq he

theorem absorb (hi : Tracks σ ps next runs cancels heard) {p : Process} (hp : p ∈ ps)
    {e : PtyEvent} (he : Model.eventTerminal e = (p.terminal, p.generation)) :
    Tracks σ (ps.map fun q => if q.terminal = p.terminal then
        { q with status := Model.statusAfter q.status e } else q) next
      (runs.map fun r => if r.terminal = p.terminal then runAfter σ p.status e r else r) cancels
      (heard ++ [e]) := by
  have hterminal : ∀ q : Process, (if q.terminal = p.terminal then
      { q with status := Model.statusAfter q.status e } else q).terminal = q.terminal := by
    intro q
    split_ifs <;> rfl
  have hgeneration : ∀ q : Process, (if q.terminal = p.terminal then
      { q with status := Model.statusAfter q.status e } else q).generation = q.generation := by
    intro q
    split_ifs <;> rfl
  have hrun : ∀ r : TaskRun δ, (if r.terminal = p.terminal then runAfter σ p.status e r
      else r).terminal = r.terminal := by
    intro r
    split_ifs
    · exact runAfter_terminal ..
    · rfl
  have hpast : ∀ c, Past ps next c → Past (ps.map fun q => if q.terminal = p.terminal then
      { q with status := Model.statusAfter q.status e } else q) next c := by
    refine fun c hc => ⟨hc.1, fun q hq ht => ?_⟩
    obtain ⟨q₀, hq₀, rfl⟩ := List.mem_map.mp hq
    rw [hterminal] at ht
    rw [hgeneration]
    exact hc.2 q₀ hq₀ ht
  have hself : Past ps next (p.terminal, p.generation) :=
    ⟨hi.numbered p hp, fun q hq ht => by rw [hi.eq_of_terminal hq hp ht]⟩
  refine ⟨?_, fun q hq => ?_, ?_, fun r hr => ?_, fun e' he' => hpast _ ?_,
    fun c hc => hpast c (hi.cancelsPast c hc), fun r hr q hq ht => ?_⟩
  · rw [List.map_map]
    exact (List.map_congr_left fun q _ => hterminal q) ▸ hi.unique
  · obtain ⟨q₀, hq₀, rfl⟩ := List.mem_map.mp hq
    exact (hterminal q₀).symm ▸ hi.numbered q₀ hq₀
  · rw [List.map_map]
    exact (List.map_congr_left fun r _ => hrun r) ▸ hi.distinct
  · obtain ⟨r₀, hr₀, rfl⟩ := List.mem_map.mp hr
    exact (hrun r₀).symm ▸ hi.attached r₀ hr₀
  · rcases List.mem_append.mp he' with he' | he'
    · exact hi.heardPast e' he'
    · rw [List.mem_singleton.mp he', he]
      exact hself
  · obtain ⟨r₀, hr₀, rfl⟩ := List.mem_map.mp hr
    obtain ⟨q₀, hq₀, rfl⟩ := List.mem_map.mp hq
    rw [hterminal, hrun] at ht
    have hf := hi.follows r₀ hr₀ q₀ hq₀ ht
    by_cases hself : q₀.terminal = p.terminal
    · rw [if_pos hself, if_pos (ht ▸ hself)]
      obtain rfl := hi.eq_of_terminal hq₀ hp hself
      exact hf.absorb he
    · rw [if_neg hself, if_neg (ht ▸ hself)]
      exact hf.ignore fun hc => hself (hc.symm.trans (congrArg Prod.fst he))

end Tracks

/-! ## Deeds -/

variable {d d' : TaskDesk δ} {m : Model}

/-- The invariant of a desk. -/
def Tracking (σ : TaskService δ) (d : TaskDesk δ)
    (cancels : List (TerminalId × TerminalGeneration)) (heard : List PtyEvent) : Prop :=
  Tracks σ d.model.processes d.model.nextTerminalId d.runs cancels heard

theorem numbered_iff : Model.Numbered m.pane ↔ (m.processes.map (·.terminal)).Nodup ∧
    ∀ p ∈ m.processes, p.terminal.val ≤ m.nextTerminalId := by
  have hids : m.processes.map (·.terminal) = m.pane.1.tabs := List.map_map ..
  constructor
  · rintro ⟨hu, hm⟩
    refine ⟨hids ▸ hu, fun p hp => hm p.terminal ?_⟩
    exact hids ▸ List.mem_map_of_mem hp
  · rintro ⟨hu, hm⟩
    refine ⟨hids ▸ hu, fun id hid => ?_⟩
    obtain ⟨p, hp, rfl⟩ := List.mem_map.mp (hids.symm ▸ hid : id ∈ m.processes.map (·.terminal))
    exact hm p hp

/-- What there has been is not of this terminal. -/
def Unheard (terminal : TerminalId) (cancels : List (TerminalId × TerminalGeneration))
    (heard : List PtyEvent) : Prop :=
  (∀ e ∈ heard, (Model.eventTerminal e).1 ≠ terminal) ∧ ∀ c ∈ cancels, c.1 ≠ terminal

theorem attachTaskRun_tracking (hi : Tracking σ d cancels heard) {terminal : TerminalId}
    (hp : ⟨terminal, ⟨1⟩, .starting⟩ ∈ d.model.processes)
    (hr : terminal ∉ d.runs.map (·.terminal)) (hu : Unheard terminal cancels heard)
    (spec : TaskSpec) (origin : TaskOrigin) :
    Tracking σ (d.attachTaskRun σ spec terminal origin) cancels heard ∧
      (d.attachTaskRun σ spec terminal origin).model.processes = d.model.processes ∧
      ∀ id ∈ (d.attachTaskRun σ spec terminal origin).runs.map (·.terminal),
        id ∈ d.runs.map (·.terminal) ∨ id = terminal := by
  have hps : (d.attachTaskRun σ spec terminal origin).model.processes = d.model.processes :=
    Model.modifyTerminal_processes d.model terminal
      (f := fun t => { t with title := spec.label }) fun _ => rfl
  have hnext : (d.attachTaskRun σ spec terminal origin).model.nextTerminalId =
      d.model.nextTerminalId := Model.modifyTerminal_next ..
  have hsub : (d.attachTaskRun σ spec terminal origin).runs.Sublist
      (d.runs ++ [⟨d.nextTaskRunId + 1, spec, terminal, origin, .starting, [], false,
        σ.decoder spec⟩]) := by
    unfold TaskDesk.attachTaskRun
    dsimp only
    split_ifs
    · exact List.eraseIdx_sublist ..
    · exact List.Sublist.refl _
  refine ⟨?_, hps, fun id hid => ?_⟩
  · unfold Tracking
    rw [hps, hnext]
    exact hi.attach hp hr hu.1 hu.2 rfl ⟨rfl, rfl, rfl, rfl⟩ hsub
  · have hid := (hsub.map (·.terminal)).subset hid
    rw [List.map_append] at hid
    exact (List.mem_append.mp hid).imp_right List.mem_singleton.mp

theorem attachAgentTask_tracking (hi : Tracking σ d cancels heard) {t : TerminalSession}
    (hp : ⟨t.id, ⟨1⟩, .starting⟩ ∈ d.model.processes) (hr : t.id ∉ d.runs.map (·.terminal))
    (hu : Unheard t.id cancels heard) :
    Tracking σ (d.attachAgentTask σ t) cancels heard ∧
      (d.attachAgentTask σ t).model.processes = d.model.processes ∧
      ∀ id ∈ (d.attachAgentTask σ t).runs.map (·.terminal),
        id ∈ d.runs.map (·.terminal) ∨ id = t.id := by
  unfold TaskDesk.attachAgentTask
  split
  · exact attachTaskRun_tracking hi hp hr hu ..
  · exact ⟨hi, rfl, fun id hid => .inl hid⟩

theorem attachAgentTasks_tracking (ts : List TerminalSession) (hi : Tracking σ d cancels heard)
    (hp : ∀ t ∈ ts, ⟨t.id, ⟨1⟩, .starting⟩ ∈ d.model.processes) (hn : (ts.map (·.id)).Nodup)
    (hr : ∀ t ∈ ts, t.id ∉ d.runs.map (·.terminal)) (hu : ∀ t ∈ ts, Unheard t.id cancels heard) :
    Tracking σ (ts.foldl (TaskDesk.attachAgentTask σ) d) cancels heard := by
  induction ts generalizing d with
  | nil => exact hi
  | cons t ts ih =>
    obtain ⟨ht, hn⟩ := List.nodup_cons.mp hn
    obtain ⟨hi', hps, hruns⟩ := attachAgentTask_tracking hi (hp t List.mem_cons_self)
      (hr t List.mem_cons_self) (hu t List.mem_cons_self)
    refine ih hi' (fun t' ht' => ?_) hn (fun t' ht' hm => ?_)
      fun t' ht' => hu t' (List.mem_cons_of_mem t ht')
    · rw [hps]
      exact hp t' (List.mem_cons_of_mem t ht')
    · rcases hruns _ hm with hm | he
      · exact hr t' (List.mem_cons_of_mem t ht') hm
      · exact ht (List.mem_map.mpr ⟨t', ht', he⟩)

theorem Tracks.unheard (hi : Tracks σ ps next runs cancels heard) {terminal : TerminalId}
    (ht : next < terminal.val) :
    terminal ∉ runs.map (·.terminal) ∧ Unheard terminal cancels heard := by
  refine ⟨fun hm => ?_, fun e he hc => ?_, fun c hm hc => ?_⟩
  · obtain ⟨run, hr, rfl⟩ := List.mem_map.mp hm
    exact absurd (hi.attached run hr) (Nat.not_le.mpr ht)
  · exact absurd (hc ▸ (hi.heardPast e he).1) (Nat.not_le.mpr ht)
  · exact absurd (hc ▸ (hi.cancelsPast c hm).1) (Nat.not_le.mpr ht)

theorem settled_tracking (hi : Tracking σ d cancels heard) (hs : Model.Settled d.model m)
    (hn : Model.Numbered m.pane) :
    Tracking σ ({ d with model := m }.attachAgentTasks σ d.model.nextTerminalId) cancels heard := by
  obtain ⟨hu, hm⟩ := numbered_iff.mp hn
  have hsettled : Tracking σ { d with model := m } cancels heard := hi.settled hs.next hs.kept hu hm
  have hnew : ∀ t ∈ m.terminals.filter (fun t => d.model.nextTerminalId < t.id.val),
      d.model.nextTerminalId < t.id.val ∧ ⟨t.id, ⟨1⟩, .starting⟩ ∈ m.processes := by
    intro t ht
    obtain ⟨ht, hlt⟩ := List.mem_filter.mp ht
    have hlt := of_decide_eq_true hlt
    have hp : t.process ∈ m.processes := List.mem_map_of_mem ht
    rcases hs.kept _ hp with hold | ⟨-, hg, hst⟩
    · exact absurd (hi.numbered _ hold) (Nat.not_le.mpr hlt)
    · refine ⟨hlt, ?_⟩
      have heq : t.process = ⟨t.id, ⟨1⟩, .starting⟩ := by
        rw [← hg, ← hst]
        rfl
      exact heq ▸ hp
  refine attachAgentTasks_tracking _ hsettled (fun t ht => (hnew t ht).2) ?_
    (fun t ht => (hi.unheard (hnew t ht).1).1) fun t ht => (hi.unheard (hnew t ht).1).2
  exact hn.1.sublist (List.filter_sublist.map _)

theorem runTask_tracking (hi : Tracking σ d cancels heard) (hn : Model.Numbered d.model.pane)
    (spec : TaskSpec) : Tracking σ (d.runTask σ spec) cancels heard := by
  unfold TaskDesk.runTask
  obtain ⟨t, ht, hnext, hp, -⟩ := Model.createTerminalWithLimit_terminals d.model
    ⟨spec.program, spec.args, spec.cwd, []⟩ .humanCommand defaultCaptureLimit
  have hs := Model.createTerminalWithLimit_settled d.model
    ⟨spec.program, spec.args, spec.cwd, []⟩ .humanCommand defaultCaptureLimit
  have hpane := Model.createTerminalWithLimit_pane d.model
    ⟨spec.program, spec.args, spec.cwd, []⟩ .humanCommand defaultCaptureLimit
  have hid : (d.model.createTerminalWithLimit ⟨spec.program, spec.args, spec.cwd, []⟩ .humanCommand
      defaultCaptureLimit).1 = ⟨d.model.nextTerminalId + 1⟩ := rfl
  dsimp only
  rw [hid]
  generalize (d.model.createTerminalWithLimit ⟨spec.program, spec.args, spec.cwd, []⟩
    .humanCommand defaultCaptureLimit).2 = m at *
  have hn' : Model.Numbered m.pane := hpane ▸ Model.Numbered.append hn _
  obtain ⟨hu, hm⟩ := numbered_iff.mp hn'
  have hsettled : Tracking σ { d with model := m } cancels heard := hi.settled hs.next hs.kept hu hm
  have hmem : ⟨⟨d.model.nextTerminalId + 1⟩, ⟨1⟩, .starting⟩ ∈ m.processes := by
    rw [Model.processes, ht, ← hp]
    exact List.mem_map_of_mem (List.mem_append_right _ (List.mem_singleton.mpr rfl))
  have hlt : d.model.nextTerminalId < (⟨d.model.nextTerminalId + 1⟩ : TerminalId).val :=
    Nat.lt_succ_self _
  have hnew := hi.unheard hlt
  exact (attachTaskRun_tracking hsettled hmem hnew.1 hnew.2 spec .human).1

theorem process_of_terminalWithId {terminal : TerminalId} {t : TerminalSession}
    (ht : m.terminalWithId terminal = some t) : t.process ∈ m.processes ∧ t.id = terminal :=
  ⟨List.mem_map_of_mem (List.mem_of_find?_eq_some ht),
    of_decide_eq_true (List.find?_some (p := fun t : TerminalSession => t.id = terminal) ht)⟩

theorem cancelLatestTask_tracking (hi : Tracking σ d cancels heard) :
    Tracking σ d.cancelLatestTask (cancels ++ (cancelling d).toList) heard := by
  unfold TaskDesk.cancelLatestTask cancelling
  split
  · rename_i hnone
    rw [hnone, Option.bind_none, Option.toList_none, List.append_nil]
    exact hi
  · rename_i run hrun
    rw [hrun, Option.bind_some]
    have hmem : run ∈ d.runs := List.mem_reverse.mp (List.mem_of_find?_eq_some hrun)
    have hcan : run.status.isActive = true ∧ run.cancelRequested = false := by
      simpa [TaskDesk.cancellable] using List.find?_some hrun
    split
    · rename_i hnone
      rw [hnone, Option.map_none, Option.toList_none, List.append_nil]
      exact hi
    · rename_i t ht
      rw [ht, Option.map_some, Option.toList_some]
      obtain ⟨hp, hid⟩ := process_of_terminalWithId ht
      have hmodify : (d.modifyRun run.terminal fun run =>
          { run with cancelRequested := true }).runs = _ := Firsts.modifyFirst_eq_map hi.distinct
      unfold Tracking
      rw [show (TaskDesk.runs { d.modifyRun run.terminal _ with model := _ }) = _ from hmodify]
      exact hi.cancel hmem hcan.1 hcan.2 hp hid

theorem decodeTaskOutput_runs (hn : (d.runs.map (·.terminal)).Nodup) (terminal : TerminalId)
    (bytes : Option (List UInt8)) : (d.decodeTaskOutput σ terminal bytes).2.model = d.model ∧
      (d.decodeTaskOutput σ terminal bytes).2.runs = d.runs.map fun run =>
        if run.terminal = terminal then (run.decode σ bytes).2 else run := by
  unfold TaskDesk.decodeTaskOutput
  cases hrun : d.runOf terminal with
  | none =>
    refine ⟨rfl, ((List.map_congr_left fun run hr => ?_).trans (List.map_id _)).symm⟩
    exact if_neg fun ht => absurd (decide_eq_true ht) (List.find?_eq_none.mp hrun run hr)
  | some run => exact ⟨rfl, Firsts.modifyFirst_eq_map hn⟩

/-- **An event absorbed**: what it makes of the runs. -/
theorem absorbPtyEvent_runs (h : Host) (hn : (d.runs.map (·.terminal)).Nodup) {e : PtyEvent}
    {t : TerminalSession} (ht : d.model.terminalWithId (Model.eventTerminal e).1 = some t) :
    (d.absorbPtyEvent h σ e).runs = d.runs.map fun run =>
      if run.terminal = t.id then runAfter σ t.status e run else run := by
  obtain ⟨-, hid⟩ := process_of_terminalWithId ht
  rw [hid]
  cases e with
  | spawned terminal generation processId => exact Firsts.modifyFirst_eq_map hn
  | output terminal generation bytes => exact (decodeTaskOutput_runs hn terminal (some bytes)).2
  | exited terminal generation exit =>
    obtain ⟨-, hruns⟩ := decodeTaskOutput_runs (σ := σ) hn terminal none
    have hterminals : ((d.decodeTaskOutput σ terminal none).2.runs.map (·.terminal)).Nodup := by
      rw [hruns, List.map_map]
      refine (List.map_congr_left fun run _ => ?_) ▸ hn
      dsimp only [Function.comp_apply]
      split_ifs <;> rfl
    refine (Firsts.modifyFirst_eq_map hterminals).trans ?_
    rw [hruns, List.map_map]
    refine List.map_congr_left fun run _ => ?_
    change _ = if run.terminal = terminal then _ else _
    by_cases hrun : run.terminal = terminal
    · rw [Function.comp_apply, if_pos hrun, if_pos (by exact hrun), if_pos hrun]
      rfl
    · rw [Function.comp_apply, if_neg hrun, if_neg hrun, if_neg hrun]
  | failed terminal generation message =>
    change d.model.terminalWithId terminal = some t at ht
    by_cases he : ∃ exit, t.status = .exited exit
    · obtain ⟨exit, he⟩ := he
      rw [TaskDesk.absorb_failed_ended ht he]
      refine ((List.map_congr_left fun run _ => ?_).trans (List.map_id _)).symm
      rw [he]
      split_ifs <;> rfl
    · have hlive : ∀ exit, t.status ≠ .exited exit := fun exit hexit => he ⟨exit, hexit⟩
      rw [TaskDesk.absorb_failed_live ht hlive]
      refine (Firsts.modifyFirst_eq_map hn).trans (List.map_congr_left fun run _ => ?_)
      cases hs : t.status with
      | exited exit => exact absurd hs (hlive exit)
      | starting | running | failed => rfl

theorem absorbPtyEvent_processes (h : Host) (hn : Model.Numbered d.model.pane) {e : PtyEvent}
    {t : TerminalSession} (ht : d.model.terminalWithId (Model.eventTerminal e).1 = some t)
    (hg : t.generation = (Model.eventTerminal e).2) (hr : t.released = false) :
    (d.absorbPtyEvent h σ e).model.pane = d.model.pane ∧
      (d.absorbPtyEvent h σ e).model.processes = d.model.processes.map fun p =>
        if p.terminal = t.id then { p with status := Model.statusAfter p.status e } else p := by
  obtain ⟨-, hid⟩ := process_of_terminalWithId ht
  rw [hid]
  cases e with
  | spawned terminal generation processId =>
    exact ⟨Model.onPtyEvent_pane .., Model.onPtyEvent_processes hn.1 ht hg hr⟩
  | output terminal generation bytes =>
    obtain ⟨-, hmodel, -⟩ := TaskDesk.decodeTaskOutput_eq (σ := σ) d terminal (some bytes)
    unfold TaskDesk.absorbPtyEvent
    dsimp only
    rw [hmodel]
    exact ⟨Model.onPtyEvent_pane .., Model.onPtyEvent_processes
      (e := .output terminal generation (d.decodeTaskOutput σ terminal (some bytes)).1)
      hn.1 ht hg hr⟩
  | exited terminal generation exit =>
    obtain ⟨-, hmodel, -⟩ := TaskDesk.decodeTaskOutput_eq (σ := σ) d terminal none
    have hfind : (d.model.modifyTerminal terminal fun t =>
        { t with captured := t.captured ++ (d.decodeTaskOutput σ terminal none).1 }).terminalWithId
          terminal = (d.model.terminalWithId terminal).map fun t =>
            { t with captured := t.captured ++ (d.decodeTaskOutput σ terminal none).1 } :=
      Model.terminalWithId_modifyTerminal (f := fun t =>
        { t with captured := t.captured ++ (d.decodeTaskOutput σ terminal none).1 }) fun _ => rfl
    have hpane : (d.model.modifyTerminal terminal fun t =>
        { t with captured := t.captured ++ (d.decodeTaskOutput σ terminal none).1 }).pane =
          d.model.pane := Model.modifyTerminal_pane _ _ fun _ => rfl
    have hps : (d.model.modifyTerminal terminal fun t =>
        { t with captured := t.captured ++ (d.decodeTaskOutput σ terminal none).1 }).processes =
          d.model.processes := Model.modifyTerminal_processes _ _ fun _ => rfl
    rw [show d.model.terminalWithId terminal = some t from ht] at hfind
    unfold TaskDesk.absorbPtyEvent
    dsimp only
    rw [hmodel]
    generalize (d.model.modifyTerminal terminal fun t =>
      { t with captured := t.captured ++ (d.decodeTaskOutput σ terminal none).1 }) = m at *
    rw [← hps, ← hpane]
    exact ⟨Model.onPtyEvent_pane .., Model.onPtyEvent_processes
      (e := .exited terminal generation exit) (hpane ▸ hn).1 hfind hg hr⟩
  | failed terminal generation message =>
    change d.model.terminalWithId terminal = some t at ht
    by_cases he : ∃ exit, t.status = .exited exit
    · obtain ⟨exit, he⟩ := he
      rw [TaskDesk.absorb_failed_ended ht he]
      have hsame : d.model.onPtyEvent h (.failed terminal generation message) = d.model := by
        rw [Model.onPtyEvent_current ht hg hr, Model.absorbPtyEvent, he]
      have hps := Model.onPtyEvent_processes (h := h) (e := .failed terminal generation message)
        hn.1 ht hg hr
      rw [hsame] at hps
      exact ⟨rfl, hps⟩
    · have hlive : ∀ exit, t.status ≠ .exited exit := fun exit hexit => he ⟨exit, hexit⟩
      rw [TaskDesk.absorb_failed_live ht hlive]
      exact ⟨Model.onPtyEvent_pane .., Model.onPtyEvent_processes
        (e := .failed terminal generation message) hn.1 ht hg hr⟩

theorem onPtyEvent_tracking (h : Host) (hi : Tracking σ d cancels heard) (e : PtyEvent) :
    Tracking σ (d.onPtyEvent h σ e) cancels (if d.hears e then heard ++ [e] else heard) := by
  by_cases hears : d.hears e = true
  · rw [TaskDesk.onPtyEvent, if_pos hears, if_pos hears]
    unfold TaskDesk.hears at hears
    split at hears
    · cases hears
    · rename_i t ht
      obtain ⟨hg, hr⟩ : t.generation = (Model.eventTerminal e).2 ∧ t.released = false := by
        simpa using hears
      obtain ⟨hp, hid⟩ := process_of_terminalWithId ht
      have hn := numbered_iff.mpr ⟨hi.unique, hi.numbered⟩
      obtain ⟨hpane, hps⟩ := absorbPtyEvent_processes (σ := σ) h hn ht hg hr
      have hnext : (d.absorbPtyEvent h σ e).model.nextTerminalId = d.model.nextTerminalId :=
        congrArg Prod.snd hpane
      unfold Tracking
      rw [hps, hnext, absorbPtyEvent_runs h hi.distinct ht]
      exact hi.absorb hp (Prod.ext hid.symm hg.symm)
  · rw [TaskDesk.onPtyEvent, if_neg hears, if_neg hears]
    exact hi

theorem restart_tracking {h : Host} (hi : Tracking σ d cancels heard)
    (hok : ∀ t, d.model.restarting = some t → ∀ run ∈ d.runs, run.terminal = t.id → Fresh σ run)
    (hs : d.model.step h (.dispatch .terminalRestart) = some m) :
    Tracking σ ({ d with model := m }.attachAgentTasks σ d.model.nextTerminalId) cancels heard := by
  have hn := Model.step_numbered hs (numbered_iff.mpr ⟨hi.unique, hi.numbered⟩)
  rcases Model.restart_cases hs with ⟨-, hsettled⟩ | ⟨i, t, hre, ht, hnext, hps⟩
  · exact settled_tracking hi hsettled hn
  · have hnone : m.terminals.filter (fun t => d.model.nextTerminalId < t.id.val) = [] := by
      refine List.filter_eq_nil_iff.mpr fun t ht => ?_
      have hle := (numbered_iff.mp hn).2 t.process (List.mem_map_of_mem ht)
      rw [hnext] at hle
      rw [decide_eq_true_iff]
      exact Nat.not_lt.mpr hle
    unfold TaskDesk.attachAgentTasks Tracking
    rw [show TaskDesk.model { d with model := m } = m from rfl, hnone, List.foldl_nil, hps, hnext]
    have hp : d.model.processes[i]? = some t.process := by
      rw [Model.processes, List.getElem?_map, ht]
      rfl
    exact hi.restart hp (hok t hre)

/-- Every deed but an event of a process is one of the model, behind which runs are attached. -/
theorem step_event (h : Host) (d : TaskDesk δ) {ev : Event} (hp : ∀ e, ev ≠ .pty e) :
    d.step h σ (.event ev) = (d.model.step h ev).map fun model =>
      { d with model }.attachAgentTasks σ d.model.nextTerminalId := by
  cases ev with
  | pty e => exact absurd rfl (hp e)
  | _ => rfl

/-- **One deed.** -/
theorem step_tracks {h : Host} {w w' : TaskWatch δ} {deed : TaskDesk.TaskDeed}
    (hi : Tracking σ w.desk w.cancels w.heard) (hok : Unrestarted σ w deed)
    (hs : w.step h σ deed = some w') : Tracking σ w'.desk w'.cancels w'.heard := by
  have hn := numbered_iff.mpr ⟨hi.unique, hi.numbered⟩
  obtain ⟨d, hd, rfl⟩ := Option.map_eq_some_iff.mp hs
  cases deed with
  | runTask spec => exact Option.some.inj hd ▸ runTask_tracking hi hn spec
  | cancelLatestTask => exact Option.some.inj hd ▸ cancelLatestTask_tracking hi
  | setCatalog catalog => exact Option.some.inj hd ▸ hi
  | event ev =>
    by_cases hp : ∃ e, ev = .pty e
    · obtain ⟨e, rfl⟩ := hp
      exact Option.some.inj hd ▸ onPtyEvent_tracking h hi e
    · have hp' : ∀ e, ev ≠ .pty e := fun e he => hp ⟨e, he⟩
      rw [step_event h _ hp'] at hd
      obtain ⟨m, hm, rfl⟩ := Option.map_eq_some_iff.mp hd
      have htracking : Tracking σ ({ w.desk with model := m }.attachAgentTasks σ
          w.desk.model.nextTerminalId) w.cancels w.heard := by
        by_cases hr : ev = .dispatch .terminalRestart
        · subst hr
          exact restart_tracking hi (hok rfl) hm
        · exact settled_tracking hi (Model.step_settled hm hp' hr) (Model.step_numbered hm hn)
      cases ev with
      | pty e => exact absurd rfl (hp' e)
      | _ => exact htracking

theorem Tracked.follows {w : TaskWatch δ} {run : TaskRun δ} {t : TerminalSession}
    (hf : Tracked σ w.cancels w.heard run t.process) : w.Follows σ run t := by
  obtain ⟨hstatus, hcancel, hdecoded⟩ := hf
  change run.status = taskStatus run.cancelRequested t.status at hstatus
  cases hs : t.status with
  | starting | running | failed =>
    rw [hs] at hstatus
    refine ⟨?_, ?_, ?_, ?_, ?_, hdecoded⟩ <;> simp [hstatus, hs, taskStatus, TaskStatus.isActive,
      TerminalStatus.isLive]
  | exited exit =>
    rw [hs, taskStatus, TaskRun.ended] at hstatus
    change run.cancelRequested = true ↔ (t.id, t.generation) ∈ w.cancels at hcancel
    cases hc : run.cancelRequested with
    | true =>
      rw [hc, if_pos rfl] at hstatus
      refine ⟨?_, ?_, ?_, fun _ => hcancel.mp hc, ?_, hdecoded⟩ <;>
        simp [hstatus, hs, TaskStatus.isActive, TerminalStatus.isLive, hcancel.mp hc]
    | false =>
      rw [hc, if_neg Bool.false_ne_true] at hstatus
      have hnot : (t.id, t.generation) ∉ w.cancels := fun hm => by
        rw [hcancel.mpr hm] at hc
        cases hc
      by_cases hcode : exit.code = some 0
      · rw [if_pos hcode] at hstatus
        refine ⟨?_, ?_, ?_, ?_, ?_, hdecoded⟩ <;>
          simp [hstatus, hs, TaskStatus.isActive, TerminalStatus.isLive, hnot, hcode]
      · rw [if_neg hcode] at hstatus
        refine ⟨?_, ?_, ?_, ?_, ?_, hdecoded⟩ <;>
          simp [hstatus, hs, TaskStatus.isActive, TerminalStatus.isLive, hcode]

/-- **A task's status is that of its terminal's process**, in every run in which no terminal is
restarted whose run has started: whatever events come, of whatever generation and in whatever order,
and whatever is cancelled. -/
theorem task_follows {h : Host} {w : TaskWatch δ}
    (hr : Runs.Reach (TaskWatch.step h σ) (Unrestarted σ) Start w) {run : TaskRun δ}
    (hrun : run ∈ w.desk.runs) {t : TerminalSession} (ht : t ∈ w.desk.model.terminals)
    (hid : t.id = run.terminal) : w.Follows σ run t := by
  have htracks : Tracking σ w.desk w.cancels w.heard := by
    refine hr.inv (I := fun w => Tracking σ w.desk w.cancels w.heard) ?_ fun _ _ _ hi hok hs =>
      step_tracks hi hok hs
    rintro w ⟨hruns, hcancels, hheard, hn⟩
    obtain ⟨hu, hm⟩ := numbered_iff.mp hn
    unfold Tracking
    rw [hruns, hcancels, hheard]
    exact ⟨hu, hm, List.nodup_nil, by simp, by simp, by simp, by simp⟩
  exact (htracks.follows run hrun t.process (List.mem_map_of_mem ht) hid).follows

/-- A restart is let through while no task has been run. -/
def checked (w : TaskWatch δ) : TaskDesk.TaskDeed → Bool
  | .event (.dispatch .terminalRestart) => w.desk.runs.isEmpty
  | _ => true

theorem unrestarted_of_checked {w : TaskWatch δ} {deed : TaskDesk.TaskDeed}
    (hc : checked w deed = true) : Unrestarted σ w deed := by
  rintro rfl t - run hr -
  rw [checked, List.isEmpty_iff] at hc
  rw [hc] at hr
  cases hr

def checkTask : TaskSpec := ⟨"cargo.check", "cargo check", "cargo", ["check"], [.rootDir]⟩

/-- A shell is restarted; then a task runs to its end. -/
def ranToEnd : List TaskDesk.TaskDeed :=
  [.event (.dispatch .terminalNew), .event (.dispatch .terminalRestart), .runTask checkTask,
    .event (.pty (.spawned ⟨2⟩ ⟨1⟩ (some 42))), .event (.pty (.output ⟨2⟩ ⟨1⟩ [111, 107])),
    .event (.pty (.exited ⟨2⟩ ⟨1⟩ ⟨some 0, none⟩))]

def nothingRun : TaskWatch (List UInt8) := { desk := { model := {} } }

theorem nothingRun_start : Start nothingRun := by
  refine ⟨rfl, rfl, rfl, List.nodup_nil, fun id hid => ?_⟩
  cases hid

def atEnd : TaskWatch (List UInt8) :=
  (Runs.checkedRun (TaskWatch.step Host.plain TaskDesk.lineTasks) checked nothingRun ranToEnd).get
    (by decide +kernel)

theorem task_follows_checked : ∃ run ∈ atEnd.desk.runs, ∃ t ∈ atEnd.desk.model.terminals,
    atEnd.Follows TaskDesk.lineTasks run t ∧ run.status = .succeeded := by
  have hreach : Runs.Reach (TaskWatch.step Host.plain TaskDesk.lineTasks)
      (Unrestarted TaskDesk.lineTasks) Start atEnd :=
    .of_checkedRun (fun _ _ hc => unrestarted_of_checked hc) ranToEnd (.start nothingRun_start)
      (Option.some_get _).symm
  have hsome : ∃ run ∈ atEnd.desk.runs, ∃ t ∈ atEnd.desk.model.terminals,
      t.id = run.terminal ∧ run.status = .succeeded := by decide +kernel
  obtain ⟨run, hrun, t, ht, hid, hs⟩ := hsome
  exact ⟨run, hrun, t, ht, task_follows hreach hrun ht hid, hs⟩

/-- A cancelled task is run again by restarting its terminal, and exits with code 0. -/
def ranAgain : List TaskDesk.TaskDeed :=
  [.runTask checkTask, .event (.pty (.spawned ⟨1⟩ ⟨1⟩ (some 42))), .cancelLatestTask,
    .event (.pty (.exited ⟨1⟩ ⟨1⟩ ⟨none, some "SIGTERM"⟩)), .event (.dispatch .terminalRestart),
    .event (.pty (.spawned ⟨1⟩ ⟨2⟩ (some 43))), .event (.pty (.exited ⟨1⟩ ⟨2⟩ ⟨some 0, none⟩))]

def atEndAgain : TaskWatch (List UInt8) :=
  (Runs.run (TaskWatch.step Host.plain TaskDesk.lineTasks) nothingRun ranAgain).get
    (by decide +kernel)

/-- **The defect.** The run is cancelled though its process was not. -/
theorem task_not_followed :
    Runs.Reach (TaskWatch.step Host.plain TaskDesk.lineTasks) (fun _ _ => True) Start atEndAgain ∧
      ∃ run ∈ atEndAgain.desk.runs, ∃ t ∈ atEndAgain.desk.model.terminals,
        t.id = run.terminal ∧ ¬ atEndAgain.Follows TaskDesk.lineTasks run t := by
  refine ⟨.of_run (fun _ _ => trivial) ranAgain (.start nothingRun_start)
    (Option.some_get _).symm, ?_⟩
  have hsome : ∃ run ∈ atEndAgain.desk.runs, ∃ t ∈ atEndAgain.desk.model.terminals,
      t.id = run.terminal ∧ run.status = .cancelled ∧
        (t.id, t.generation) ∉ atEndAgain.cancels := by decide +kernel
  obtain ⟨run, hrun, t, ht, hid, hs, hnot⟩ := hsome
  exact ⟨run, hrun, t, ht, hid, fun hf => hnot (hf.cancelled hs)⟩

end TaskWatch

end App

end Termesh
