import Termesh.App.Tasks
import Termesh.App.Processes

/-!
# Exits

A process's output and its exit come from the threads that watch it, the failure of a write or a
resize from the thread that serves requests, so a failure may be absorbed on either side of the
exit. Behind the exit it is ignored. Before it, it ends the terminal: the waits are answered with the
failure, and what the process still writes is not captured.

* `Happening`, `happen`: what is absorbed of one process, and the waits the agent asks for;
* `Watched`, `Watches.happens`: what it does to the terminal, its waits and its task;
* `Costless`: no failure before the exit finds a wait, or output behind it;
* **`exit_kept_iff`**: just then the exit is kept.
-/

namespace Termesh

namespace App

variable {δ : Type}

/-! ## One process -/

/-- What concerns one process: its events, and a wait for it. -/
inductive Happening where
  | spawned (processId : Option ℕ)
  | output (bytes : List UInt8)
  | exited (exit : TerminalExit)
  | failed (message : String)
  | wait (request : AgentTerminalRequestId)
deriving DecidableEq

namespace Happening

/-- It may come between the spawn and the exit. -/
def during : Happening → Bool
  | .output _ | .failed _ | .wait _ => true
  | _ => false

/-- It may come behind the exit, which is published behind the last output. -/
def behind : Happening → Bool
  | .failed _ | .wait _ => true
  | _ => false

/-- The terminal could not be started. -/
def isFailed : Happening → Bool
  | .failed _ => true
  | _ => false

/-- What comes before the first failure. -/
def unharmed (xs : List Happening) : List Happening := xs.takeWhile (!·.isFailed)

/-- The first failure and what comes behind it. -/
def harmed (xs : List Happening) : List Happening := xs.dropWhile (!·.isFailed)

/-- What was written. -/
def outputs : List Happening → List (Option (List UInt8)) :=
  List.filterMap fun
    | .output bytes => some (some bytes)
    | _ => none

/-- The calls that wait for the end. -/
def calls : List Happening → List AgentTerminalRequestId :=
  List.filterMap fun
    | .wait request => some request
    | _ => none

end Happening

/-- What is shown of what a decoder reads. -/
def displayed (σ : TaskService δ) : Option δ → List (Option (List UInt8)) → List UInt8
  | _, [] => []
  | decoder, bytes :: rest =>
    (σ.decode decoder bytes).2.display ++ displayed σ (σ.decode decoder bytes).1 rest

/-- The decoder behind what it has read. -/
def decoderAfter (σ : TaskService δ) : Option δ → List (Option (List UInt8)) → Option δ :=
  List.foldl fun decoder bytes => (σ.decode decoder bytes).1

theorem displayed_append (σ : TaskService δ) (decoder : Option δ)
    (l l' : List (Option (List UInt8))) : displayed σ decoder (l ++ l') =
      displayed σ decoder l ++ displayed σ (decoderAfter σ decoder l) l' := by
  induction l generalizing decoder with
  | nil => rfl
  | cons bytes l ih => simp [displayed, decoderAfter, ih, List.append_assoc]

namespace TaskDesk

variable (h : Host) (σ : TaskService δ)

/-- Absorb what concerns one process. -/
def happen (d : TaskDesk δ) (terminal : TerminalId) (generation : TerminalGeneration)
    (session : SessionId) : Happening → TaskDesk δ
  | .spawned processId => d.onPtyEvent h σ (.spawned terminal generation processId)
  | .output bytes => d.onPtyEvent h σ (.output terminal generation bytes)
  | .exited exit => d.onPtyEvent h σ (.exited terminal generation exit)
  | .failed message => d.onPtyEvent h σ (.failed terminal generation message)
  | .wait request =>
    { d with model := d.model.handleAgentTerminal h session request (.waitForExit terminal) }

end TaskDesk

/-! ## What it does to its terminal -/

/-- A wait that is answered with an exit. -/
def exitAnswer : AgentRequest → Option (AgentTerminalRequestId × TerminalExit)
  | .terminalResponse request (.exited exit) => some (request, exit)
  | _ => none

/-- What there is of a process: how its terminal and its task stand, the waits for it, and the waits
answered with an exit. -/
structure Watched (δ : Type) where
  status : TerminalStatus
  captured : List UInt8
  waits : List AgentTerminalRequestId
  decoder : Option δ
  /-- The status of the task, and whether it is to be cancelled. -/
  task : Option (TaskStatus × Bool)
  answers : List (AgentTerminalRequestId × TerminalExit)

namespace Watched

variable (σ : TaskService δ)

def happen (w : Watched δ) : Happening → Watched δ
  | .spawned processId =>
    { w with
      status := .running processId
      task := w.task.map fun task => (.running, task.2) }
  | .output bytes =>
    let (decoder, decoded) := σ.decode w.decoder (some bytes)
    { w with
      decoder
      captured := if w.status.isLive then w.captured ++ decoded.display else w.captured }
  | .exited exit =>
    let (decoder, decoded) := σ.decode w.decoder none
    { status := .exited exit
      captured := w.captured ++ decoded.display
      waits := []
      decoder
      task := w.task.map fun task => (TaskRun.ended task.2 exit, task.2)
      answers := w.answers ++ w.waits.map (·, exit) }
  | .failed message =>
    match w.status with
    | .exited _ => w
    | _ =>
      { w with
        status := .failed message
        waits := []
        task := w.task.map fun task => (.failed, task.2) }
  | .wait request =>
    match w.status with
    | .exited exit => { w with answers := w.answers ++ [(request, exit)] }
    | .failed _ => w
    | _ => { w with waits := w.waits ++ [request] }

end Watched

namespace Model

/-- What the model holds of a terminal and the waits for it. -/
structure Custody where
  session : Option TerminalSession
  waits : List AgentTerminalRequestId
  answers : List (AgentTerminalRequestId × TerminalExit)
  agent : Option AgentSession

variable {m : Model} {terminal : TerminalId}

def custody (m : Model) (terminal : TerminalId) : Custody where
  session := m.terminalWithId terminal
  waits := (m.pendingTerminalWaits.filter (·.terminal = terminal)).map (·.request)
  answers := m.agentOutbox.filterMap exitAnswer
  agent := m.agent

theorem custody_modifyTerminal {f : TerminalSession → TerminalSession} (hf : ∀ t, (f t).id = t.id) :
    (m.modifyTerminal terminal f).custody terminal =
      ⟨(m.terminalWithId terminal).map f, (m.custody terminal).waits, (m.custody terminal).answers,
        (m.custody terminal).agent⟩ := by
  rw [modifyTerminal_first]
  unfold custody terminalWithId
  dsimp only
  rw [Firsts.find?_modifyFirst fun t => by rw [hf]]

theorem terminalWithId_modifyTerminal {f : TerminalSession → TerminalSession}
    (hf : ∀ t, (f t).id = t.id) :
    (m.modifyTerminal terminal f).terminalWithId terminal = (m.terminalWithId terminal).map f :=
  congrArg Custody.session (custody_modifyTerminal hf)

theorem custody_completeTerminalWaits (response : AgentTerminalResponse) :
    (m.completeTerminalWaits terminal response).custody terminal =
      ⟨(m.custody terminal).session, [], (m.custody terminal).answers ++
        ((m.custody terminal).waits.map fun request =>
          AgentRequest.terminalResponse request response).filterMap exitAnswer,
        (m.custody terminal).agent⟩ := by
  unfold custody completeTerminalWaits
  simp [List.filter_filter, List.filterMap_append, List.map_map, Function.comp_def]
  rfl

theorem custody_completeTerminalCreate (p : PendingTerminalCreate → Bool)
    {response : AgentTerminalResponse} (hr : ∀ exit, response ≠ .exited exit) :
    (m.completeTerminalCreate p response).custody terminal = m.custody terminal := by
  have hnone : ∀ request, exitAnswer (.terminalResponse request response) = none := by
    intro request
    cases response with
    | exited exit => exact absurd rfl (hr exit)
    | _ => rfl
  unfold completeTerminalCreate
  split
  · rfl
  · split
    · rfl
    · simp [custody, respondTerminal, reply, terminalWithId, List.filterMap_append, hnone]

theorem custody_notify (text : String) : (m.notify text).custody terminal = m.custody terminal := rfl

variable {h : Host} {t : TerminalSession}

theorem custody_spawned (ht : m.terminalWithId terminal = some t) (hr : t.released = false)
    (processId : Option ℕ) :
    (m.onPtyEvent h (.spawned terminal t.generation processId)).custody terminal =
      ⟨some { t with status := .running processId }, (m.custody terminal).waits,
        (m.custody terminal).answers, (m.custody terminal).agent⟩ := by
  rw [onPtyEvent_current ht rfl hr, absorbPtyEvent, custody_completeTerminalCreate _ (by simp),
    custody_modifyTerminal, ht]
  · rfl
  · exact fun _ => rfl

theorem custody_output (ht : m.terminalWithId terminal = some t) (hr : t.released = false)
    (bytes : List UInt8) : (m.onPtyEvent h (.output terminal t.generation bytes)).custody terminal =
      ⟨some { t with captured := if t.status.isLive then t.captured ++ bytes else t.captured },
        (m.custody terminal).waits, (m.custody terminal).answers, (m.custody terminal).agent⟩ := by
  rw [onPtyEvent_current ht rfl hr, absorbPtyEvent]
  cases hlive : t.status.isLive with
  | false => exact congrArg (Custody.mk · _ _ _) ht
  | true =>
    have hmodify : (m.modifyTerminal terminal fun t =>
        { t with captured := t.captured ++ bytes }).custody terminal = _ :=
      custody_modifyTerminal fun _ => rfl
    rw [ht] at hmodify
    exact hmodify

theorem custody_exited (ht : m.terminalWithId terminal = some t) (hr : t.released = false)
    (exit : TerminalExit) : (m.onPtyEvent h (.exited terminal t.generation exit)).custody terminal =
      ⟨some { t with captureFinished := true, status := .exited exit }, [],
        (m.custody terminal).answers ++ (m.custody terminal).waits.map (·, exit),
        (m.custody terminal).agent⟩ := by
  rw [onPtyEvent_current ht rfl hr, absorbPtyEvent, custody_completeTerminalWaits,
    custody_modifyTerminal, ht, List.filterMap_map]
  · rw [show exitAnswer ∘ _ = some ∘ fun request => (request, exit) from rfl,
      List.filterMap_eq_map]
    rfl
  · exact fun _ => rfl

theorem custody_failed (ht : m.terminalWithId terminal = some t) (hr : t.released = false)
    (he : ∀ exit, t.status ≠ .exited exit) (message : String) :
    (m.onPtyEvent h (.failed terminal t.generation message)).custody terminal =
      ⟨some { t with captureFinished := true, status := .failed message }, [],
        (m.custody terminal).answers, (m.custody terminal).agent⟩ := by
  rw [onPtyEvent_current ht rfl hr, absorbPtyEvent]
  split
  · rename_i exit hexit
    exact absurd hexit (he exit)
  · rw [custody_completeTerminalWaits, custody_completeTerminalCreate _ (by simp), custody_notify,
      custody_modifyTerminal, ht, List.filterMap_map]
    · simp [Function.comp_def, exitAnswer]
    · exact fun _ => rfl

theorem custody_wait {agent : AgentSession} (ht : m.terminalWithId terminal = some t)
    (hr : t.released = false) (ha : m.agent = some agent) (ho : t.owner = .agent agent.id)
    (request : AgentTerminalRequestId) :
    (m.handleAgentTerminal h agent.id request (.waitForExit terminal)).custody terminal =
      match t.status with
      | .exited exit =>
        { m.custody terminal with answers := (m.custody terminal).answers ++ [(request, exit)] }
      | .failed _ => m.custody terminal
      | _ => { m.custody terminal with waits := (m.custody terminal).waits ++ [request] } := by
  have hid : t.id = terminal := by simpa using List.find?_some ht
  obtain ⟨i, hi, hget, hbefore⟩ := List.find?_eq_some_iff_getElem.mp ht |>.2
  have hfound : (m.terminals.findIdx? fun t =>
      t.id = terminal && t.owner = .agent agent.id && !t.released) = some i := by
    refine List.findIdx?_eq_some_iff_getElem.mpr ⟨hi, ?_, fun j hj => ?_⟩
    · rw [hget]
      simp [hid, ho, hr]
    · have := hbefore j hj
      simp_all
  have hat : m.terminals[i]? = some t := by rw [List.getElem?_eq_getElem hi, hget]
  unfold handleAgentTerminal
  rw [if_neg (by simp [ha])]
  dsimp only [withAgentTerminal]
  rw [hfound]
  simp only [Option.bind_some, hat, Option.map_some]
  cases t.status with
  | exited exit =>
    simp [custody, respondTerminal, reply, terminalWithId, List.filterMap_append, exitAnswer]
  | failed message =>
    simp [custody, respondTerminal, reply, terminalWithId, List.filterMap_append, exitAnswer]
  | starting | running => simp [custody, terminalWithId, List.filter_append]

end Model

namespace TaskDesk

variable {h : Host} {σ : TaskService δ} {d : TaskDesk δ} {terminal : TerminalId}
  {t : TerminalSession} {w : Watched δ} {agent : Option AgentSession}

@[simp] theorem modifyRun_model (f : TaskRun δ → TaskRun δ) :
    (d.modifyRun terminal f).model = d.model := rfl

theorem runOf_modifyRun {f : TaskRun δ → TaskRun δ} (hf : ∀ run, (f run).terminal = run.terminal) :
    (d.modifyRun terminal f).runOf terminal = (d.runOf terminal).map f :=
  Firsts.find?_modifyFirst fun run => by rw [hf]

theorem decodeTaskOutput_eq (d : TaskDesk δ) (terminal : TerminalId)
    (bytes : Option (List UInt8)) :
    (d.decodeTaskOutput σ terminal bytes).1 =
        (σ.decode ((d.runOf terminal).bind (·.decoder)) bytes).2.display ∧
      (d.decodeTaskOutput σ terminal bytes).2.model = d.model ∧
      (d.decodeTaskOutput σ terminal bytes).2.runOf terminal =
        (d.runOf terminal).map fun run => (run.decode σ bytes).2 := by
  unfold decodeTaskOutput
  cases hrun : d.runOf terminal with
  | none => exact ⟨rfl, rfl, hrun⟩
  | some run =>
    have hmodify : (d.modifyRun terminal fun run => (run.decode σ bytes).2).runOf terminal = _ :=
      runOf_modifyRun fun _ => rfl
    exact ⟨rfl, rfl, hmodify.trans (congrArg _ hrun)⟩

theorem absorb_failed_ended (ht : d.model.terminalWithId terminal = some t) {exit : TerminalExit}
    (he : t.status = .exited exit) (generation : TerminalGeneration) (message : String) :
    d.absorbPtyEvent h σ (.failed terminal generation message) = d := by
  rw [TaskDesk.absorbPtyEvent, ht]
  split
  · rfl
  · rename_i hne
    exact (hne t.id t.generation t.spec t.owner t.title exit t.captureLimit t.captured
      t.captureFinished t.released (congrArg some (he ▸ rfl))).elim

theorem absorb_failed_live (ht : d.model.terminalWithId terminal = some t)
    (he : ∀ exit, t.status ≠ .exited exit) (generation : TerminalGeneration) (message : String) :
    d.absorbPtyEvent h σ (.failed terminal generation message) =
      { d.modifyRun terminal (fun run => { run with status := .failed }) with
        model := d.model.onPtyEvent h (.failed terminal generation message) } := by
  rw [TaskDesk.absorbPtyEvent, ht]
  split
  · rename_i exit _ _ _ _ heq
    exact absurd (congrArg TerminalSession.status (Option.some.inj heq)) (he exit)
  · rfl

/-- `w` is what there is of a terminal's process. -/
structure Watches (d : TaskDesk δ) (terminal : TerminalId) (t : TerminalSession)
    (agent : Option AgentSession) (w : Watched δ) : Prop where
  custody : d.model.custody terminal = ⟨some t, w.waits, w.answers, agent⟩
  released : t.released = false
  status : t.status = w.status
  captured : t.captured = w.captured
  decoder : (d.runOf terminal).bind (·.decoder) = w.decoder
  task : (d.runOf terminal).map (fun run => (run.status, run.cancelRequested)) = w.task

namespace Watches

theorem session (hw : d.Watches terminal t agent w) : d.model.terminalWithId terminal = some t :=
  congrArg Model.Custody.session hw.custody

theorem hears (hw : d.Watches terminal t agent w) {e : PtyEvent}
    (he : Model.eventTerminal e = (terminal, t.generation)) : d.hears e = true := by
  unfold TaskDesk.hears
  rw [he, hw.session]
  simp [hw.released]

theorem onPtyEvent (hw : d.Watches terminal t agent w) {e : PtyEvent}
    (he : Model.eventTerminal e = (terminal, t.generation)) :
    d.onPtyEvent h σ e = d.absorbPtyEvent h σ e := by
  rw [TaskDesk.onPtyEvent, if_pos (hw.hears he)]

theorem spawned (hw : d.Watches terminal t agent w) (processId : Option ℕ) :
    (d.onPtyEvent h σ (.spawned terminal t.generation processId)).Watches terminal
      { t with status := .running processId } agent (w.happen σ (.spawned processId)) := by
  rw [hw.onPtyEvent rfl]
  have hrun : (d.modifyRun terminal fun run => { run with status := .running }).runOf terminal =
      (d.runOf terminal).map fun run => { run with status := .running } :=
    runOf_modifyRun fun _ => rfl
  refine ⟨?_, hw.released, rfl, hw.captured, ?_, ?_⟩
  · refine (Model.custody_spawned hw.session hw.released processId).trans ?_
    rw [hw.custody]
    rfl
  · refine (congrArg (Option.bind · _) hrun).trans ?_
    rw [← show _ = (w.happen σ _).decoder from hw.decoder, Option.bind_map]
    rfl
  · refine (congrArg (Option.map _) hrun).trans ?_
    simp only [Watched.happen, ← hw.task, Option.map_map]
    rfl

theorem output (hw : d.Watches terminal t agent w) (bytes : List UInt8) :
    (d.onPtyEvent h σ (.output terminal t.generation bytes)).Watches terminal
      { t with captured := (w.happen σ (.output bytes)).captured } agent
      (w.happen σ (.output bytes)) := by
  rw [hw.onPtyEvent rfl]
  obtain ⟨hshown, hmodel, hrun⟩ := decodeTaskOutput_eq (σ := σ) d terminal (some bytes)
  rw [hw.decoder] at hshown
  unfold TaskDesk.absorbPtyEvent
  dsimp only
  rw [hshown, hmodel]
  refine ⟨?_, hw.released, hw.status, rfl, ?_, ?_⟩
  · refine (Model.custody_output hw.session hw.released _).trans ?_
    rw [hw.custody, hw.status, hw.captured]
    rfl
  · refine (congrArg (Option.bind · _) hrun).trans ?_
    simp only [Watched.happen, ← hw.decoder, Option.bind_map]
    cases d.runOf terminal with
    | none => rfl
    | some run => rfl
  · refine (congrArg (Option.map _) hrun).trans ?_
    simp only [Watched.happen, ← hw.task, Option.map_map]
    rfl

theorem exited (hw : d.Watches terminal t agent w) (exit : TerminalExit) :
    (d.onPtyEvent h σ (.exited terminal t.generation exit)).Watches terminal
      { t with
        captured := (w.happen σ (.exited exit)).captured
        captureFinished := true
        status := .exited exit } agent (w.happen σ (.exited exit)) := by
  rw [hw.onPtyEvent rfl]
  obtain ⟨hshown, hmodel, hrun⟩ := decodeTaskOutput_eq (σ := σ) d terminal none
  rw [hw.decoder] at hshown
  unfold TaskDesk.absorbPtyEvent
  dsimp only
  rw [hshown, hmodel]
  generalize (d.decodeTaskOutput σ terminal none).2 = d₁ at hrun ⊢
  have hended : (d₁.modifyRun terminal fun run =>
      { run with status := TaskRun.ended run.cancelRequested exit }).runOf terminal = _ :=
    runOf_modifyRun fun _ => rfl
  rw [hrun, Option.map_map] at hended
  have htrailing : (d.model.modifyTerminal terminal fun t =>
      { t with captured := t.captured ++ (σ.decode w.decoder none).2.display }).custody terminal =
        _ := Model.custody_modifyTerminal fun _ => rfl
  rw [hw.custody, hw.session] at htrailing
  refine ⟨?_, hw.released, rfl, rfl, ?_, ?_⟩
  · refine (Model.custody_exited (congrArg Model.Custody.session htrailing) hw.released _).trans ?_
    rw [htrailing]
    simp only [Watched.happen, hw.captured]
  · refine (congrArg (Option.bind · _) hended).trans ?_
    simp only [Watched.happen, ← hw.decoder, Option.bind_map]
    cases d.runOf terminal with
    | none => rfl
    | some run => rfl
  · refine (congrArg (Option.map _) hended).trans ?_
    simp only [Watched.happen, ← hw.task, Option.map_map]
    rfl

theorem failed (hw : d.Watches terminal t agent w) (message : String) :
    ∃ t', (d.onPtyEvent h σ (.failed terminal t.generation message)).Watches terminal t' agent
      (w.happen σ (.failed message)) ∧ t'.generation = t.generation ∧ t'.owner = t.owner := by
  rw [hw.onPtyEvent rfl]
  by_cases he : ∃ exit, t.status = .exited exit
  · obtain ⟨exit, he⟩ := he
    rw [absorb_failed_ended hw.session he]
    have hstay : w.happen σ (.failed message) = w := by rw [Watched.happen, ← hw.status, he]
    exact ⟨t, hstay.symm ▸ hw, rfl, rfl⟩
  · have hlive : ∀ exit, t.status ≠ .exited exit := fun exit hexit => he ⟨exit, hexit⟩
    rw [absorb_failed_live hw.session hlive]
    have hfail : w.happen σ (.failed message) =
        { w with
          status := .failed message
          waits := []
          task := w.task.map fun task => (.failed, task.2) } := by
      rw [Watched.happen, ← hw.status]
      split
      · rename_i exit hexit
        exact absurd hexit (hlive exit)
      · rfl
    have hrun : (d.modifyRun terminal fun run => { run with status := .failed }).runOf terminal =
        (d.runOf terminal).map fun run => { run with status := .failed } :=
      runOf_modifyRun fun _ => rfl
    rw [hfail]
    refine ⟨{ t with captureFinished := true, status := .failed message },
      ⟨?_, hw.released, rfl, hw.captured, ?_, ?_⟩, rfl, rfl⟩
    · refine (Model.custody_failed hw.session hw.released hlive message).trans ?_
      rw [hw.custody]
    · refine (congrArg (Option.bind · _) hrun).trans ?_
      rw [← hw.decoder, Option.bind_map]
      rfl
    · refine (congrArg (Option.map _) hrun).trans ?_
      simp only [← hw.task, Option.map_map]
      rfl

theorem wait (hw : d.Watches terminal t agent w) {session : AgentSession}
    (ha : agent = some session) (ho : t.owner = .agent session.id)
    (request : AgentTerminalRequestId) :
    (d.happen h σ terminal t.generation session.id (.wait request)).Watches terminal t agent
      (w.happen σ (.wait request)) := by
  have hagent : d.model.agent = some session :=
    (congrArg Model.Custody.agent hw.custody).trans ha
  have hcustody := Model.custody_wait (h := h) hw.session hw.released hagent ho request
  rw [hw.custody, hw.status] at hcustody
  obtain ⟨status, captured, waits, decoder, task, answers⟩ := w
  cases status with
  | exited | failed | starting | running =>
    exact ⟨hcustody, hw.released, hw.status, hw.captured, hw.decoder, hw.task⟩

/-- **What one happening does** to the process watched. -/
theorem happen (hw : d.Watches terminal t agent w) {session : SessionId} {x : Happening}
    (hx : ∀ request, x = .wait request →
      (∃ a, agent = some a ∧ a.id = session) ∧ t.owner = .agent session) :
    ∃ t', (d.happen h σ terminal t.generation session x).Watches terminal t' agent (w.happen σ x) ∧
      t'.generation = t.generation ∧ t'.owner = t.owner := by
  cases x with
  | spawned processId => exact ⟨_, hw.spawned processId, rfl, rfl⟩
  | output bytes => exact ⟨_, hw.output bytes, rfl, rfl⟩
  | exited exit => exact ⟨_, hw.exited exit, rfl, rfl⟩
  | failed message => exact hw.failed message
  | wait request =>
    obtain ⟨⟨a, ha, rfl⟩, ho⟩ := hx request rfl
    exact ⟨t, hw.wait ha ho request, rfl, rfl⟩

/-- What a list of happenings does to it. -/
theorem happens (hw : d.Watches terminal t agent w) {session : SessionId} {xs : List Happening}
    (hx : Happening.calls xs ≠ [] →
      (∃ a, agent = some a ∧ a.id = session) ∧ t.owner = .agent session) :
    ∃ t', (xs.foldl (fun d x => d.happen h σ terminal t.generation session x) d).Watches terminal t'
      agent (xs.foldl (Watched.happen σ) w) := by
  induction xs generalizing d t w with
  | nil => exact ⟨t, hw⟩
  | cons x xs ih =>
    have hone : ∀ request, x = .wait request →
        (∃ a, agent = some a ∧ a.id = session) ∧ t.owner = .agent session := by
      rintro request rfl
      exact hx (by simp [Happening.calls])
    obtain ⟨t₁, hw₁, hg, ho⟩ := hw.happen (h := h) (σ := σ) hone
    obtain ⟨t', hw'⟩ := ih hw₁ fun hc => by
      rw [ho]
      refine hx fun he => hc (List.filterMap_eq_nil_iff.mpr fun y hy => ?_)
      exact List.filterMap_eq_nil_iff.mp he y (List.mem_cons_of_mem x hy)
    rw [hg] at hw'
    exact ⟨t', hw'⟩

end Watches

end TaskDesk

/-! ## The whole of a process -/

namespace Watched

variable {σ : TaskService δ} {w : Watched δ} {xs : List Happening}

/-- Before the exit the decoder reads all output, no wait is answered with an exit, and the request
to cancel stays. -/
theorem run_during (hd : ∀ x ∈ xs, x.during) (he : ∀ exit, w.status ≠ .exited exit) :
    (xs.foldl (happen σ) w).decoder = decoderAfter σ w.decoder (Happening.outputs xs) ∧
      (xs.foldl (happen σ) w).answers = w.answers ∧
      (xs.foldl (happen σ) w).task.map Prod.snd = w.task.map Prod.snd := by
  induction xs generalizing w with
  | nil => exact ⟨rfl, rfl, rfl⟩
  | cons x xs ih =>
    have hrest : ∀ y ∈ xs, y.during := fun y hy => hd y (List.mem_cons_of_mem x hy)
    have hx := hd x List.mem_cons_self
    obtain ⟨status, captured, waits, decoder, task, answers⟩ := w
    cases x with
    | spawned | exited => cases hx
    | output bytes => exact ih hrest he
    | failed message =>
      cases status with
      | exited exit => exact absurd rfl (he exit)
      | starting | running | failed =>
        have hended := ih (w := ⟨.failed message, captured, [], decoder,
          task.map fun task => (.failed, task.2), answers⟩) hrest (by simp)
        exact ⟨hended.1, hended.2.1, hended.2.2.trans (by simp [Function.comp_def])⟩
    | wait request =>
      cases status with
      | exited exit => exact absurd rfl (he exit)
      | starting | running | failed => exact ih hrest he

theorem run_live (hd : ∀ x ∈ xs, x.during) (hn : ∀ message, .failed message ∉ xs)
    (hl : w.status.isLive = true) :
    (xs.foldl (happen σ) w).status.isLive = true ∧
      (xs.foldl (happen σ) w).captured =
        w.captured ++ displayed σ w.decoder (Happening.outputs xs) ∧
      (xs.foldl (happen σ) w).waits = w.waits ++ Happening.calls xs := by
  induction xs generalizing w with
  | nil => simp [hl, Happening.outputs, Happening.calls, displayed]
  | cons x xs ih =>
    have hrest : ∀ y ∈ xs, y.during := fun y hy => hd y (List.mem_cons_of_mem x hy)
    have hnone : ∀ message, .failed message ∉ xs := fun message hm =>
      hn message (List.mem_cons_of_mem x hm)
    have hx := hd x List.mem_cons_self
    obtain ⟨status, captured, waits, decoder, task, answers⟩ := w
    cases x with
    | spawned | exited => cases hx
    | failed message => exact absurd List.mem_cons_self (hn message)
    | output bytes =>
      obtain ⟨hlive, hcaptured, hwaits⟩ :=
        ih (w := happen σ ⟨status, captured, waits, decoder, task, answers⟩ (.output bytes)) hrest
          hnone hl
      refine ⟨hlive, hcaptured.trans ?_, hwaits⟩
      have hl' : status.isLive = true := hl
      simp [happen, hl', Happening.outputs, displayed, List.append_assoc]
    | wait request =>
      cases status with
      | exited | failed => cases hl
      | starting | running =>
        have hlast := ih (w := ⟨_, captured, waits ++ [request], decoder, task, answers⟩) hrest hnone hl
        refine ⟨hlast.1, hlast.2.1, hlast.2.2.trans ?_⟩
        simp [Happening.calls]

theorem happen_failed_live (hl : w.status.isLive = true) (message : String) :
    (w.happen σ (.failed message)).status = .failed message ∧
      (w.happen σ (.failed message)).captured = w.captured ∧
      (w.happen σ (.failed message)).waits = [] := by
  obtain ⟨status, captured, waits, decoder, task, answers⟩ := w
  cases status with
  | exited => cases hl
  | starting | running | failed => exact ⟨rfl, rfl, rfl⟩

theorem run_failed (hd : ∀ x ∈ xs, x.during) {message : String} (hs : w.status = .failed message)
    (hw : w.waits = []) :
    (xs.foldl (happen σ) w).captured = w.captured ∧ (xs.foldl (happen σ) w).waits = [] := by
  induction xs generalizing w message with
  | nil => exact ⟨rfl, hw⟩
  | cons x xs ih =>
    have hrest : ∀ y ∈ xs, y.during := fun y hy => hd y (List.mem_cons_of_mem x hy)
    have hx := hd x List.mem_cons_self
    obtain ⟨status, captured, waits, decoder, task, answers⟩ := w
    obtain rfl : status = .failed message := hs
    cases x with
    | spawned | exited => cases hx
    | output | wait => exact ih hrest rfl hw
    | failed => exact ih hrest rfl rfl

theorem run_behind (hb : ∀ x ∈ xs, x.behind) {exit : TerminalExit} (hs : w.status = .exited exit) :
    xs.foldl (happen σ) w =
      { w with answers := w.answers ++ (Happening.calls xs).map (·, exit) } := by
  induction xs generalizing w with
  | nil => simp [Happening.calls]
  | cons x xs ih =>
    have hrest : ∀ y ∈ xs, y.behind := fun y hy => hb y (List.mem_cons_of_mem x hy)
    have hx := hb x List.mem_cons_self
    obtain ⟨status, captured, waits, decoder, task, answers⟩ := w
    obtain rfl : status = .exited exit := hs
    cases x with
    | spawned | exited | output => cases hx
    | failed message => exact ih hrest rfl
    | wait request =>
      refine (ih (w := ⟨_, captured, waits, decoder, task, answers ++ [(request, exit)]⟩) hrest
        rfl).trans ?_
      simp [Happening.calls]

/-- No failure is absorbed between the spawn and the exit; or no wait is asked for before the exit,
and what is written behind the failure shows nothing. -/
def Costless (σ : TaskService δ) (decoder : Option δ) (waits : List AgentTerminalRequestId)
    (xs : List Happening) : Prop :=
  Happening.harmed xs = [] ∨ waits = [] ∧ Happening.calls xs = [] ∧
    displayed σ (decoderAfter σ decoder (Happening.outputs (Happening.unharmed xs)))
      (Happening.outputs (Happening.harmed xs)) = []

/-- **What a process loses before its exit.** -/
theorem run_keeps_iff (hd : ∀ x ∈ xs, x.during) (hl : w.status.isLive = true) :
    ((xs.foldl (happen σ) w).captured =
        w.captured ++ displayed σ w.decoder (Happening.outputs xs) ∧
      (xs.foldl (happen σ) w).waits = w.waits ++ Happening.calls xs) ↔
    Costless σ w.decoder w.waits xs := by
  have hxs : Happening.unharmed xs ++ Happening.harmed xs = xs := List.takeWhile_append_dropWhile
  have hdu : ∀ x ∈ Happening.unharmed xs, x.during := fun x hx =>
    hd x (hxs ▸ List.mem_append_left _ hx)
  have hn : ∀ message, .failed message ∉ Happening.unharmed xs := fun message hm => by
    have hall := List.all_eq_true.mp (List.all_takeWhile (l := xs)) _ hm
    simp [Happening.isFailed] at hall
  obtain ⟨hlive, hcaptured, hwaits⟩ := run_live (σ := σ) hdu hn hl
  unfold Costless
  cases hharmed : Happening.harmed xs with
  | nil =>
    rw [hharmed, List.append_nil] at hxs
    rw [hxs] at hcaptured hwaits
    exact iff_of_true ⟨hcaptured, hwaits⟩ (.inl rfl)
  | cons x behind =>
    have hfailed : x.isFailed = true := by
      have hhead := List.head?_dropWhile_not (fun x : Happening => !x.isFailed) xs
      rw [show xs.dropWhile (fun x => !x.isFailed) = x :: behind from hharmed] at hhead
      simpa using hhead
    cases x with
    | spawned | output | exited | wait => cases hfailed
    | failed message =>
    rw [hharmed] at hxs
    have hdb : ∀ x ∈ behind, x.during := fun x hx =>
      hd x (hxs ▸ List.mem_append_right _ (List.mem_cons_of_mem _ hx))
    have hcalls : Happening.calls xs = Happening.calls (Happening.unharmed xs ++ behind) := by
      conv_lhs => rw [← hxs]
      simp [Happening.calls]
    have houtputs : Happening.outputs xs = Happening.outputs (Happening.unharmed xs) ++
        Happening.outputs (.failed message :: behind) := by
      conv_lhs => rw [← hxs]
      exact List.filterMap_append ..
    have hrun : xs.foldl (happen σ) w = behind.foldl (happen σ)
        (((Happening.unharmed xs).foldl (happen σ) w).happen σ (.failed message)) := by
      conv_lhs => rw [← hxs]
      exact List.foldl_append ..
    obtain ⟨hstatus, hkept, hnone⟩ := happen_failed_live (σ := σ) hlive message
    obtain ⟨hcaptured', hwaits'⟩ := run_failed (σ := σ) hdb hstatus hnone
    rw [hrun, hcaptured', hwaits', hkept, hcaptured, houtputs, displayed_append,
      ← List.append_assoc, List.self_eq_append_right, eq_comm (a := []), List.append_eq_nil_iff]
    constructor
    · rintro ⟨hshown, hw, hc⟩
      exact .inr ⟨hw, hc, hshown⟩
    · rintro (hnil | ⟨hw, hc, hshown⟩)
      · cases hnil
      · exact ⟨hshown, hw, hc⟩

end Watched

namespace TaskDesk

variable (h : Host) {σ : TaskService δ} {d d' : TaskDesk δ} {terminal : TerminalId}
  {t : TerminalSession}

/-- What is shown of all that a process writes, and of its end. -/
def shownOf (σ : TaskService δ) (d : TaskDesk δ) (terminal : TerminalId) (xs : List Happening) :
    List UInt8 :=
  displayed σ ((d.runOf terminal).bind (·.decoder)) (Happening.outputs xs ++ [none])

/-- The exit is kept: every wait is answered with it, the terminal and its task have ended with it,
and everything the process wrote has been captured. -/
structure ExitKept (σ : TaskService δ) (d d' : TaskDesk δ) (terminal : TerminalId)
    (exit : TerminalExit) (before behind : List Happening) : Prop where
  answered : (d'.model.custody terminal).answers = (d.model.custody terminal).answers ++
    ((d.model.custody terminal).waits ++ Happening.calls before ++ Happening.calls behind).map
      (·, exit)
  status : (d'.model.terminalWithId terminal).map (·.status) = some (.exited exit)
  captured : (d'.model.terminalWithId terminal).map (·.captured) =
    (d.model.terminalWithId terminal).map fun t => t.captured ++ shownOf σ d terminal before
  task : (d'.runOf terminal).map (·.status) =
    (d.runOf terminal).map fun run => TaskRun.ended run.cancelRequested exit

/-- A process from its spawn to behind its exit. -/
def course (processId : Option ℕ) (before : List Happening) (exit : TerminalExit)
    (behind : List Happening) : List Happening :=
  .spawned processId :: before ++ .exited exit :: behind

/-- **An exit is kept just when no failure before it costs anything**, however the output, the
failures and the waits of the process interleave. -/
theorem exit_kept_iff (ht : d.model.terminalWithId terminal = some t) (hr : t.released = false)
    {session : SessionId} {before behind : List Happening} (hb : ∀ x ∈ before, x.during)
    (hbehind : ∀ x ∈ behind, x.behind)
    (hcalls : Happening.calls (before ++ behind) ≠ [] →
      (∃ agent, d.model.agent = some agent ∧ agent.id = session) ∧ t.owner = .agent session)
    (processId : Option ℕ) (exit : TerminalExit) :
    ExitKept σ d ((course processId before exit behind).foldl
        (fun d x => d.happen h σ terminal t.generation session x) d) terminal exit before behind ↔
      Watched.Costless σ ((d.runOf terminal).bind (·.decoder))
        (d.model.custody terminal).waits before := by
  let w : Watched δ :=
    { status := t.status
      captured := t.captured
      waits := (d.model.custody terminal).waits
      decoder := (d.runOf terminal).bind (·.decoder)
      task := (d.runOf terminal).map fun run => (run.status, run.cancelRequested)
      answers := (d.model.custody terminal).answers }
  have hcustody : d.model.custody terminal = ⟨some t, w.waits, w.answers, d.model.agent⟩ :=
    congrArg (Model.Custody.mk · w.waits w.answers d.model.agent) ht
  have hw : d.Watches terminal t d.model.agent w := ⟨hcustody, hr, rfl, rfl, rfl, rfl⟩
  have hattends : Happening.calls (course processId before exit behind) ≠ [] →
      (∃ a, d.model.agent = some a ∧ a.id = session) ∧ t.owner = .agent session :=
    fun hc => hcalls fun he => hc (by simpa [course, Happening.calls] using he)
  obtain ⟨t', hw'⟩ := hw.happens (h := h) (σ := σ) hattends
  generalize (course processId before exit behind).foldl _ d = d' at hw' ⊢
  have hlive : (w.happen σ (.spawned processId)).status.isLive = true := rfl
  have hne : ∀ exit, (w.happen σ (.spawned processId)).status ≠ .exited exit := by
    simp [Watched.happen]
  have hkeeps := Watched.run_keeps_iff (σ := σ) hb hlive
  obtain ⟨hdecoder, hanswers, htask⟩ := Watched.run_during (σ := σ) hb hne
  rw [course, List.foldl_append, List.foldl_cons, List.foldl_cons] at hw'
  generalize before.foldl (Watched.happen σ) (w.happen σ (.spawned processId)) = w₂ at *
  have hended : (w₂.happen σ (.exited exit)).status = .exited exit := rfl
  rw [Watched.run_behind (σ := σ) hbehind hended] at hw'
  have hshown : shownOf σ d terminal before = displayed σ w.decoder (Happening.outputs before) ++
      (σ.decode w₂.decoder none).2.display := by
    rw [shownOf, displayed_append, hdecoder]
    simp [displayed, w, Watched.happen]
  have hlast : (d'.runOf terminal).map (·.status) =
      (d.runOf terminal).map fun run => TaskRun.ended run.cancelRequested exit := by
    have hended : w₂.task.map (fun task => TaskRun.ended task.2 exit) =
        (w.task.map Prod.snd).map (TaskRun.ended · exit) := by
      rw [show w.task.map Prod.snd = w₂.task.map Prod.snd by
        rw [htask]; simp [Watched.happen, Function.comp_def], Option.map_map]
      rfl
    have hmap := congrArg (Option.map Prod.fst) hw'.task
    simp only [Watched.happen, Option.map_map, Function.comp_def] at hmap
    rw [hmap, hended, Option.map_map, Option.map_map]
    rfl
  have hpair : Function.Injective fun request : AgentTerminalRequestId => (request, exit) :=
    fun _ _ he => congrArg Prod.fst he
  have hansw : (d'.model.custody terminal).answers = w.answers ++
      (w₂.waits ++ Happening.calls behind).map (·, exit) := by
    rw [hw'.custody, List.map_append, ← List.append_assoc]
    exact congrArg (· ++ _ ++ _) hanswers
  have hcapt : t'.captured = w₂.captured ++ (σ.decode w₂.decoder none).2.display := hw'.captured
  refine Iff.trans ?_ hkeeps
  refine ⟨fun hk => ⟨?_, ?_⟩, fun hk => ⟨?_, ?_, ?_, hlast⟩⟩
  · have hk := hk.captured
    rw [hw'.session, ht, hshown, Option.map_some, Option.map_some, hcapt, ← List.append_assoc] at hk
    exact List.append_cancel_right (Option.some.inj hk)
  · have hk := hk.answered
    rw [hansw, List.append_right_inj] at hk
    exact List.append_cancel_right (List.map_injective_iff.mpr hpair hk)
  · rw [hansw, hk.2]
    rfl
  · rw [hw'.session]
    exact congrArg some hw'.status
  · rw [hw'.session, ht, hshown, Option.map_some, Option.map_some, hcapt, hk.1, List.append_assoc]
    rfl

/-- An adapter that shows the output of every task by the line. -/
def lineTasks : TaskService (List UInt8) where
  decoder _ := some []
  push undecoded bytes :=
    if 10 ∈ bytes then ([], { display := undecoded ++ bytes }) else (undecoded ++ bytes, {})
  finish undecoded := ([], { display := undecoded })

/-- The agent has called for a task that is in the catalog. -/
def checkStarting : TaskDesk (List UInt8) :=
  ({ model := { agent := some { id := ⟨0⟩ } }
     catalog := [⟨"cargo.check", "cargo check", "cargo", ["check"], [.rootDir]⟩] } :
    TaskDesk (List UInt8)).step Host.plain lineTasks (.event (.agent (.terminalRequest ⟨0⟩ ⟨6⟩
      (.create ⟨"cargo", ["check"], [.rootDir], []⟩ 1000 true)))) |>.get (by decide +kernel)

/-- What it prints is cut in two, the agent waits for it, and a write fails behind the exit. -/
theorem exit_kept_behind :
    ExitKept lineTasks checkStarting
      ((course (some 42) [.output [111], .wait ⟨7⟩, .output [107, 10, 33]] ⟨some 0, none⟩
        [.failed "Input/output error"]).foldl
          (fun d x => d.happen Host.plain lineTasks ⟨1⟩ ⟨1⟩ ⟨0⟩ x) checkStarting)
      ⟨1⟩ ⟨some 0, none⟩ [.output [111], .wait ⟨7⟩, .output [107, 10, 33]]
      [.failed "Input/output error"] := by
  have ht : ∃ t, checkStarting.model.terminalWithId ⟨1⟩ = some t ∧ t.released = false ∧
      t.generation = ⟨1⟩ ∧ t.owner = .agent ⟨0⟩ := ⟨_, rfl, rfl, rfl, rfl⟩
  obtain ⟨t, ht, hr, hg, ho⟩ := ht
  have hb : ∀ x ∈ [Happening.output [111], .wait ⟨7⟩, .output [107, 10, 33]], x.during := by decide
  have hbehind : ∀ x ∈ [Happening.failed "Input/output error"], x.behind := by decide
  have hkept := exit_kept_iff Host.plain (σ := lineTasks) ht hr hb hbehind
    (fun _ => ⟨⟨_, rfl, rfl⟩, ho⟩) (some 42) ⟨some 0, none⟩
  rw [hg] at hkept
  exact hkept.mpr (.inl (by decide))

/-- **The defect.** The failure is absorbed before the exit: the agent's wait is answered with it. -/
theorem exit_lost :
    ¬ ExitKept lineTasks checkStarting
      ((course (some 42) [.wait ⟨7⟩, .failed "Input/output error"] ⟨some 0, none⟩ []).foldl
          (fun d x => d.happen Host.plain lineTasks ⟨1⟩ ⟨1⟩ ⟨0⟩ x) checkStarting)
      ⟨1⟩ ⟨some 0, none⟩ [.wait ⟨7⟩, .failed "Input/output error"] [] ∧
    AgentRequest.terminalResponse ⟨7⟩ (.error "Input/output error") ∈
      ((course (some 42) [.wait ⟨7⟩, .failed "Input/output error"] ⟨some 0, none⟩ []).foldl
          (fun d x => d.happen Host.plain lineTasks ⟨1⟩ ⟨1⟩ ⟨0⟩ x)
            checkStarting).model.agentOutbox := by
  refine ⟨fun hk => ?_, by decide +kernel⟩
  have hanswered := hk.answered
  revert hanswered
  decide +kernel

end TaskDesk

end App

end Termesh
