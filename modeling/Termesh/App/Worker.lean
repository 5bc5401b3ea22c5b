import Termesh.App.Requests
import Termesh.App.Sources

/-!
# The filesystem worker

A model together with the worker that answers its requests one by one, the oldest first. Nothing is
assumed of what a file holds or of which request fails.

* `World`, `Deed`, `World.step`: an event, the loop handing over the queue, an answer;
* `Buffer.Later`: a buffer after any works on it;
* **`step_requested`**: what an event asks of the worker, and of which buffers;
* `World.Turn`, **`turn_of_step`**: what one deed does to buffers, requests and files.
-/

namespace Termesh

/-- The answers the worker may give to a request; `watch` and `shutdown` get none. -/
def FsRequest.answeredBy : FsRequest → Option FsEvent → Bool
  | readFile buffer path, some (.fileLoaded b p _) => b = buffer ∧ p = path
  | readFile buffer _, some (.fileFailed b _) => b = buffer
  | resolvePath request _, some (.pathResolved r _) => r = request
  | resolvePath request path, some (.pathResolveFailed r p _) => r = request ∧ p = path
  | writeFile buffer _ _ version, some (.fileSaved b v) => b = buffer ∧ v = version
  | writeFile buffer _ _ _, some (.fileFailed b _) => b = buffer
  | createFile path, some (.changed ps) => ps = [path]
  | createDir path, some (.changed ps) => ps = [path]
  | remove path _, some (.changed ps) => ps = [path]
  | rename source target, some (.changed ps) => ps = [source, target]
  | createFile _, some (.mutationFailed _) => true
  | createDir _, some (.mutationFailed _) => true
  | remove _ _, some (.mutationFailed _) => true
  | rename _ _, some (.mutationFailed _) => true
  | watch _, none => true
  | shutdown, none => true
  | _, _ => false

/-- A read under an id. -/
def FsRequest.reads (id : BufferId) : FsRequest → Bool
  | readFile buffer _ => buffer = id
  | _ => false

/-- A write under an id. -/
def FsRequest.writes (id : BufferId) : FsRequest → Bool
  | writeFile buffer _ _ _ => buffer = id
  | _ => false

namespace App

/-- The events that only the worker, or handing over its queue, gives rise to. The watcher reports
changes at any time. -/
def Event.ofWorker : Event → Bool
  | fs (.changed _) => false
  | fs _ | takeFsRequests => true
  | _ => false

instance (m : Model) (buffer : BufferId) : Decidable (m.ForBuffer buffer) :=
  inferInstanceAs (Decidable (_ ∧ _))

/-- A model with its worker. -/
structure World where
  model : Model
  /-- The requests handed over and not answered, the oldest first. -/
  inFlight : List FsRequest := []
  /-- The text last confirmed as written, or last absorbed, under each id. -/
  onDisk : BufferId → Option Text := fun _ => none

inductive Deed where
  | event (ev : Event)
  /-- The loop hands the queue over. -/
  | take
  /-- The worker is done with its oldest request. -/
  | answer (reply : Option FsEvent)

namespace World

/-- Every request that has no answer yet. -/
def unanswered (w : World) : List FsRequest := w.inFlight ++ w.model.outbox

/-- What is known of the files once a request is answered. -/
def absorb (w : World) (r : FsRequest) (reply : Option FsEvent) : BufferId → Option Text :=
  match r, reply with
  | .readFile buffer _, some (.fileLoaded _ _ (some text)) =>
    if w.model.ForBuffer buffer then Function.update w.onDisk buffer (some text) else w.onDisk
  | .writeFile buffer _ contents _, some (.fileSaved _ _) =>
    Function.update w.onDisk buffer (some contents)
  | _, _ => w.onDisk

def step (h : Host) (w : World) : Deed → Option World
  | .event ev =>
    if ev.ofWorker then none else (w.model.step h ev).map fun model => { w with model }
  | .take =>
    some { w with
      model := { w.model with outbox := [] }
      inFlight := w.inFlight ++ w.model.outbox }
  | .answer reply =>
    match w.inFlight with
    | [] => none
    | r :: rest =>
      if r.answeredBy reply then
        let model := match reply with
          | some e => w.model.step h (.fs e)
          | none => some w.model
        model.map fun model => ⟨model, rest, w.absorb r reply⟩
      else none

/-- Nothing is open and nothing is asked. -/
def Fresh (w : World) : Prop :=
  w.model.buffers = [] ∧ w.model.outbox = [] ∧ w.inFlight = []

end World

end App

/-! ## Buffers over time -/

namespace Buffer

/-- A buffer after any works: its file is to it what it was, and a revision has one text. -/
structure Later (b b' : Buffer) : Prop where
  id : b'.id = b.id
  lineEnding : b'.lineEnding = b.lineEnding
  savedVersion : b'.savedVersion = b.savedVersion
  version : b.version ≤ b'.version
  text : b'.version = b.version → b'.text = b.text

theorem Works.later {T : Prop} {P : Document → Selection → Prop} {b b' : Buffer}
    (h : Works T P b b') : Later b b' := by
  obtain ⟨hid, -, hending, hsaved⟩ := h.moves.keeps
  exact ⟨hid, hending, hsaved, h.moves.version_le, h.moves.text_eq⟩

theorem later_of_document {b b' : Buffer} (h : b'.document = b.document) : Later b b' := by
  have hversion : b'.version = b.version := congrArg Document.version h
  exact ⟨congrArg Document.id h, congrArg Document.lineEnding h, congrArg Document.savedVersion h,
    Nat.le_of_eq hversion.symm, fun _ => congrArg Document.text h⟩

variable {b b' : Buffer}

theorem Later.isDirty (h : Later b b') (hv : b'.version = b.version) : b'.isDirty = b.isDirty := by
  rw [Buffer.isDirty, Buffer.isDirty, h.savedVersion, hv]

theorem Later.toDiskString (h : Later b b') (hv : b'.version = b.version) :
    b'.toDiskString = b.toDiskString := by
  rw [Buffer.toDiskString, Buffer.toDiskString, h.lineEnding, h.text hv]

end Buffer

namespace App.Model

variable {h : Host} {m m' : Model}

/-! ## What an event asks -/

/-- What an event asks of the worker: something new that meets `A`, a save of the buffer on screen,
or clean buffers' files again. The documents stay in the last two cases. -/
inductive Requested (A : FsRequest → Prop) (m m' : Model) : Prop
  | new (hq : Queues A m m')
  | save (b : Buffer) (path : Path) (hb : b ∈ m'.buffers) (hd : b.isDirty = true)
      (hn : m'.nextBufferId = m.nextBufferId)
      (ho : m'.outbox = m.outbox ++ [.writeFile b.id path b.toDiskString b.version])
  | again (rs : List FsRequest) (hn : m'.nextBufferId = m.nextBufferId)
      (ho : m'.outbox = m.outbox ++ rs)
      (hrs : ∀ r ∈ rs, ∃ b ∈ m'.buffers, ∃ path, r = .readFile b.id path ∧ b.isDirty = false)

variable {A : FsRequest → Prop}

theorem Requested.mono {B : FsRequest → Prop} (hAB : ∀ r, A r → B r) (hr : Requested A m m') :
    Requested B m m' := by
  cases hr with
  | new hq => exact .new (hq.mono hAB)
  | save b path hb hd hn ho => exact .save b path hb hd hn ho
  | again rs hn ho hrs => exact .again rs hn ho hrs

theorem Requested.outbox (hread : ∀ buffer path, A (.readFile buffer path))
    (hwrite : ∀ buffer path contents version, A (.writeFile buffer path contents version))
    (hr : Requested A m m') : ∃ rs, m'.outbox = m.outbox ++ rs ∧ ∀ r ∈ rs, A r := by
  cases hr with
  | new hq =>
    obtain ⟨rs, hasks, ho⟩ := hq
    exact ⟨rs, ho, hasks.all hread⟩
  | save b path hb hd hn ho =>
    exact ⟨_, ho, List.forall_mem_singleton.mpr (hwrite _ _ _ _)⟩
  | again rs hn ho hrs =>
    refine ⟨rs, ho, fun r hr => ?_⟩
    obtain ⟨b, -, path, rfl, -⟩ := hrs r hr
    exact hread _ _

theorem dispatch_save_requested (hd : m.dispatch h .save = some m') : Requested A m m' := by
  obtain ⟨m₁, h₁, hs⟩ := Option.bind_eq_some_iff.mp hd
  have hsave := saveActiveBuffer_mail { m with notification := none }
  have hstill := saveActiveBuffer_still { m with notification := none }
  obtain rfl : saveActiveBuffer { m with notification := none } = m₁ := Option.some.inj h₁
  have hmail := mail_of_outline (syncAll_outline hs)
  have hdocs := (syncAll_worked (T := False) (P := fun _ _ => False) hs).documents
  rcases hsave with hsave | ⟨b, path, hactive, -, hdirty, hsave⟩
  · exact .new (.of_mail (hmail.trans (hsave.trans rfl)))
  · have hmem : b.document ∈ m'.documents := by
      rw [hdocs, documents_of_buffers hstill.1]
      obtain ⟨i, -, hi⟩ := Option.bind_eq_some_iff.mp hactive
      exact List.mem_map_of_mem (List.mem_of_getElem? hi)
    obtain ⟨b', hb', heq⟩ := List.mem_map.mp hmem
    have hlater := Buffer.later_of_document heq
    have hversion : b'.version = b.version := congrArg Document.version heq
    refine .save b' path hb' ?_ ?_ ?_
    · rw [hlater.isDirty hversion, hdirty]
    · exact (congrArg Mail.nextBufferId hmail).trans (congrArg Mail.nextBufferId hsave)
    · rw [hlater.id, hlater.toDiskString hversion, hversion]
      exact (congrArg Mail.outbox hmail).trans (congrArg Mail.outbox hsave)

theorem changed_requested (m : Model) (paths : List Path) :
    Requested A m (if (m.notifyLspWatchedFiles paths).root.isSome then
      (m.notifyLspWatchedFiles paths).reloadChangedBuffers paths
        else m.notifyLspWatchedFiles paths) := by
  have hnotify := notifyLspWatchedFiles_mail m paths
  split_ifs
  · obtain ⟨rs, hm, hrs⟩ := reloadChangedBuffers_mail (m.notifyLspWatchedFiles paths) paths
    have hn := congrArg Mail.nextBufferId hm
    have ho := congrArg Mail.outbox hm
    refine .again rs (hn.trans (congrArg Mail.nextBufferId hnotify)) (ho.trans ?_) fun r hr => ?_
    · exact congrArg (· ++ rs) (congrArg Mail.outbox hnotify)
    · obtain ⟨b, hb, path, rfl, -, hclean⟩ := hrs r hr
      rw [(reloadChangedBuffers_still (m.notifyLspWatchedFiles paths) paths).1]
      exact ⟨b, hb, path, rfl, hclean⟩
  · exact .new (.of_mail hnotify)

theorem openWorkspace_queues (m : Model) (root : Path) (configured : List ConfiguredRecipe)
    (hA : A (.watch root)) : Queues A m (m.openWorkspace root configured) :=
  .send (r := .watch root) trivial hA rfl rfl

/-- **What an event asks of the worker.** A watch is asked for only when a workspace opens. -/
theorem step_requested {ev : Event} (hs : m.step h ev = some m') (ht : ev ≠ .takeFsRequests) :
    Requested (fun r => r.Unwatched ∨ ev.Opens) m m' := by
  have unwatched : Queues FsRequest.Unwatched m m' →
      Requested (fun r => r.Unwatched ∨ ev.Opens) m m' := fun hq => .new (hq.mono fun _ => .inl)
  by_cases hw : ev.Writes
  · cases ev with
    | dispatch cmd =>
      cases cmd with
      | save => exact dispatch_save_requested hs
      | _ => exact hw.elim
    | openWorkspace root configured =>
      exact .new (Option.some.inj hs ▸ openWorkspace_queues m root configured (.inr trivial))
    | restoreSession session =>
      have hopen := openWorkspace_queues m session.root session.configured
        (A := fun r => r.Unwatched ∨ (Event.restoreSession session).Opens) (.inr trivial)
      have hrest := (reopen_posts h (m.openWorkspace session.root session.configured) session).queues
      exact .new (Option.some.inj hs ▸ hopen.trans (hrest.mono fun _ => .inl))
    | discardRecoveryDrafts =>
      exact unwatched (Option.some.inj hs ▸ discardRecoveryDrafts_queues h m)
    | tick seconds =>
      refine unwatched (Option.some.inj hs ▸ ?_)
      exact queueDueDrafts_queues h { m with clock := m.clock + seconds }
    | takeFsRequests => exact absurd rfl ht
    | confirmPrompt prompt =>
      refine unwatched ?_
      cases hk : prompt.kind with
      | newFile | newDir | rename | confirmDelete =>
        rw [step, confirmPrompt, hk] at hs
        exact Option.some.inj hs ▸ confirmFile_queues m prompt _
      | agentPrompt | find | replace | confirmCloseBuffer | terminalRun | gitCommit | lspRename
      | confirmCloseTerminal =>
        simp only [Event.Writes, hk] at hw
    | fs e =>
      cases e with
      | changed paths => exact Option.some.inj hs ▸ changed_requested m paths
      | fileSaved buffer version => exact unwatched (Option.some.inj hs ▸ fileSaved_queues h m _ _)
      | fileFailed buffer error => exact unwatched (Option.some.inj hs ▸ fileFailed_queues h m _ _)
      | fileLoaded | pathResolved | pathResolveFailed | mutationFailed => exact hw.elim
    | typeChar | openFile | openFileAt | navigateProblem | setOverlays
    | acceptSelectedRecoveryDrafts | acceptCompletion | acceptCodeAction | openLspLocation
    | applyTextEdits | applyWorkspaceEdit | setAgentMode | decidePermission | typeTerminal
    | setTerminalSize | agent | pty | lsp | shutdownTerminals | takeAgentRequests
    | takePtyRequests | takeLspRequests => exact hw.elim
  · exact unwatched (step_posts hs hw).queues

theorem step_asks {ev : Event} (hs : m.step h ev = some m') (ht : ev ≠ .takeFsRequests) :
    Requested (fun _ => True) m m' := (step_requested hs ht).mono fun _ _ => trivial

end App.Model

namespace App

open Buffer

variable {bs bs' : List Buffer}

theorem forall₂_later {T : Prop} {P : Document → Selection → Prop}
    (h : List.Forall₂ (Works T P) bs bs') : List.Forall₂ Later bs bs' :=
  List.Forall₂.imp (fun _ _ hw => hw.later) h

theorem forall₂_later_refl (bs : List Buffer) : List.Forall₂ Later bs bs :=
  List.forall₂_same.mpr fun _ _ => later_of_document rfl

theorem mem_later (h : List.Forall₂ Later bs bs') {b' : Buffer} (hb : b' ∈ bs') :
    ∃ b ∈ bs, Later b b' := by
  induction h with
  | nil => cases hb
  | @cons x y _ _ hxy _ ih =>
    rcases List.mem_cons.mp hb with rfl | hb
    · exact ⟨x, List.mem_cons_self, hxy⟩
    · obtain ⟨b, hm, hl⟩ := ih hb
      exact ⟨b, List.mem_cons_of_mem _ hm, hl⟩

theorem map_id_later (h : List.Forall₂ Later bs bs') : bs'.map (·.id) = bs.map (·.id) := by
  induction h with
  | nil => rfl
  | cons hxy _ ih => rw [List.map_cons, List.map_cons, hxy.id, ih]

namespace World

variable {h : Host} {w w' : World} {d : Deed}

/-- The deed reads a file into a buffer. -/
def loads (w : World) : Deed → Option BufferId
  | .answer (some (.fileLoaded buffer _ (some _))) =>
    if w.model.ForBuffer buffer then some buffer else none
  | _ => none

/-- What one deed does. -/
inductive Turn (w : World) (d : Deed) (w' : World) : Prop
  /-- The queue is handed over. -/
  | take (hb : w'.model.buffers = w.model.buffers)
      (hn : w'.model.nextBufferId = w.model.nextBufferId) (hu : w'.unanswered = w.unanswered)
      (hd : w.loads d = none) (hdisk : w'.onDisk = w.onDisk)
  /-- Nothing is read and nothing confirmed. -/
  | event (rs : List FsRequest) (bs : List Buffer)
      (hf : w.inFlight = rs ++ w'.inFlight) (hsub : bs.Subperm w.model.buffers)
      (hl : List.Forall₂ Later bs w'.model.buffers) (hr : w.model.Requested (fun _ => True) w'.model)
      (hd : w.loads d = none) (hdisk : w'.onDisk = w.onDisk)
  /-- A file is read for a buffer. -/
  | loaded (buffer : BufferId) (path : Path) (text : Text) (bs : List Buffer)
      (hanswer : d = .answer (some (.fileLoaded buffer path (some text))))
      (hf : w.inFlight = .readFile buffer path :: w'.inFlight)
      (hbs : (∃ i old, w.model.buffers[i]? = some old ∧ old.id = buffer ∧
          bs = w.model.buffers.set i (Model.reloaded buffer path text old)) ∨
        (∀ b ∈ w.model.buffers, b.id ≠ buffer) ∧
          bs.Perm (w.model.buffers ++ [fromText buffer (some path) text]))
      (hl : List.Forall₂ Later bs w'.model.buffers) (hr : w.model.Requested (fun _ => True) w'.model)
      (hd : w.loads d = some buffer)
      (hdisk : w'.onDisk = Function.update w.onDisk buffer (some text))
  /-- A write is confirmed, for a buffer or for a draft. -/
  | saved (buffer : BufferId) (file : Path) (contents : Text) (version : Version)
      (bs : List Buffer) (hanswer : d = .answer (some (.fileSaved buffer version)))
      (hf : w.inFlight = .writeFile buffer file contents version :: w'.inFlight)
      (hbs : bs.Subperm w.model.buffers ∨ ∃ i old, w.model.buffers[i]? = some old ∧
        old.id = buffer ∧ bs = w.model.buffers.set i (old.markSaved version))
      (hl : List.Forall₂ Later bs w'.model.buffers) (hr : w.model.Requested (fun _ => True) w'.model)
      (hd : w.loads d = none)
      (hdisk : w'.onDisk = Function.update w.onDisk buffer (some contents))

theorem absorb_none (w : World) (r : FsRequest) : w.absorb r none = w.onDisk := by
  cases r <;> rfl

/-- The buffers of an event that neither reads a file for one nor confirms a write. -/
theorem kept_of_step {m m' : Model} {ev : Event} (hs : m.step h ev = some m')
    (hload : ∀ buffer path text, ev = .fs (.fileLoaded buffer path (some text)) →
      ¬ m.ForBuffer buffer)
    (hsave : ∀ buffer version, ev ≠ .fs (.fileSaved buffer version)) :
    ∃ bs : List Buffer, bs.Subperm m.buffers ∧ List.Forall₂ Later bs m'.buffers := by
  obtain ⟨⟨bs, hsource, hworks⟩, -⟩ :=
    Model.step_sources (P := fun _ _ => True) (fun _ _ _ => trivial) (fun _ _ _ => trivial) hs
  refine ⟨bs, ?_, forall₂_later hworks⟩
  cases hsource with
  | kept hsub => exact hsub
  | opened he hr | reloaded he hr => exact absurd hr (hload _ _ _ he)
  | saved he => exact absurd he (hsave _ _)

/-- The answers that neither read a file for a buffer nor confirm a write. -/
theorem turn_of_event {e : FsEvent} {r : FsRequest} {rest : List FsRequest} {m' : Model}
    (hf : w.inFlight = r :: rest) (hm : w.model.step h (.fs e) = some m')
    (habsorb : w.absorb r (some e) = w.onDisk)
    (hload : ∀ buffer path text, e = .fileLoaded buffer path (some text) →
      ¬ w.model.ForBuffer buffer)
    (hsave : ∀ buffer version, e ≠ .fileSaved buffer version) :
    Turn w (.answer (some e)) ⟨m', rest, w.absorb r (some e)⟩ := by
  obtain ⟨bs, hsub, hl⟩ := kept_of_step hm
    (fun buffer path text he => hload buffer path text (Event.fs.inj he))
    fun buffer version he => hsave buffer version (Event.fs.inj he)
  refine .event [r] bs hf hsub hl (Model.step_asks hm (by simp)) ?_ habsorb
  cases e with
  | fileLoaded buffer path contents =>
    cases contents with
    | none => rfl
    | some text => exact if_neg (hload buffer path text rfl)
  | fileSaved | fileFailed | pathResolved | pathResolveFailed | mutationFailed | changed => rfl

theorem turn_of_loaded {buffer : BufferId} {path : Path} {text : Text} {rest : List FsRequest}
    {m' : Model} {disk : BufferId → Option Text} (hf : w.inFlight = .readFile buffer path :: rest)
    (hr : w.model.ForBuffer buffer)
    (hm : w.model.step h (.fs (.fileLoaded buffer path (some text))) = some m')
    (hdisk : disk = Function.update w.onDisk buffer (some text)) :
    Turn w (.answer (some (.fileLoaded buffer path (some text)))) ⟨m', rest, disk⟩ := by
  obtain ⟨bs, hbs, hworks⟩ :=
    Model.fileLoaded_worked (P := fun _ _ => True) (fun _ _ _ => trivial) hr hm
  refine .loaded buffer path text bs rfl hf ?_ (forall₂_later hworks.1)
    (Model.step_asks hm (by simp)) (if_pos hr) hdisk
  rcases hbs with ⟨i, old, hi, hold, rfl⟩ | ⟨hnone, hperm⟩
  · exact .inl ⟨i, old, hold, Model.id_of_findIdx hi hold, rfl⟩
  · refine .inr ⟨fun b hb => ?_, hperm⟩
    have hno := List.findIdx?_eq_none_iff.mp hnone b hb
    simpa using hno

theorem turn_of_saved {buffer : BufferId} {file : Path} {contents : Text} {version : Version}
    {rest : List FsRequest} {m' : Model} {disk : BufferId → Option Text}
    (hf : w.inFlight = .writeFile buffer file contents version :: rest)
    (hm : w.model.step h (.fs (.fileSaved buffer version)) = some m')
    (hdisk : disk = Function.update w.onDisk buffer (some contents)) :
    Turn w (.answer (some (.fileSaved buffer version))) ⟨m', rest, disk⟩ := by
  obtain ⟨⟨bs, hsource, hworks⟩, -⟩ :=
    Model.step_sources (P := fun _ _ => True) (fun _ _ _ => trivial) (fun _ _ _ => trivial) hm
  refine .saved buffer file contents version bs rfl hf ?_ (forall₂_later hworks)
    (Model.step_asks hm (by simp)) rfl hdisk
  cases hsource with
  | kept hsub => exact .inl hsub
  | opened he | reloaded he => cases he
  | saved he _ hi hold =>
    obtain ⟨rfl, rfl⟩ := FsEvent.fileSaved.inj (Event.fs.inj he)
    exact .inr ⟨_, _, hold, Model.id_of_findIdx hi hold, rfl⟩

/-- **What one deed does.** -/
theorem turn_of_step (hs : w.step h d = some w') : Turn w d w' := by
  cases d with
  | event ev =>
    rw [step] at hs
    split_ifs at hs with hworker
    obtain ⟨m', hm, rfl⟩ := Option.map_eq_some_iff.mp hs
    obtain ⟨bs, hsub, hl⟩ := kept_of_step hm
      (by rintro buffer path text rfl; exact absurd rfl hworker)
      (by rintro buffer version rfl; exact hworker rfl)
    refine .event [] bs rfl hsub hl (Model.step_asks hm ?_) rfl rfl
    rintro rfl
    exact hworker rfl
  | take =>
    rw [← Option.some.inj hs]
    exact .take rfl rfl (List.append_nil _) rfl rfl
  | answer reply =>
    unfold step at hs
    dsimp only at hs
    split at hs
    · cases hs
    · rename_i r rest hflight
      split_ifs at hs with hanswered
      obtain ⟨m', hm, rfl⟩ := Option.map_eq_some_iff.mp hs
      cases reply with
      | none =>
        obtain rfl : w.model = m' := Option.some.inj hm
        exact .event [r] w.model.buffers hflight (List.Subperm.refl _) (forall₂_later_refl _)
          (.new (.of_mail rfl)) rfl (w.absorb_none r)
      | some e =>
        cases e with
        | fileLoaded buffer path contents =>
          cases r with
          | readFile id file =>
            obtain ⟨rfl, rfl⟩ : buffer = id ∧ path = file := by
              simpa [FsRequest.answeredBy] using hanswered
            by_cases hr : w.model.ForBuffer buffer
            · cases contents with
              | none => exact turn_of_event hflight hm rfl (by simp) (by simp)
              | some text => exact turn_of_loaded hflight hr hm (if_pos hr)
            · refine turn_of_event hflight hm ?_ ?_ (by simp)
              · cases contents with
                | none => rfl
                | some text => exact if_neg hr
              · intro buffer' path' text he
                rw [← (FsEvent.fileLoaded.inj he).1]
                exact hr
          | writeFile | resolvePath | watch | createFile | createDir | rename | remove
          | shutdown => cases hanswered
        | fileSaved buffer version =>
          cases r with
          | writeFile id file contents revision =>
            obtain ⟨rfl, rfl⟩ : buffer = id ∧ version = revision := by
              simpa [FsRequest.answeredBy] using hanswered
            exact turn_of_saved hflight hm rfl
          | readFile | resolvePath | watch | createFile | createDir | rename | remove
          | shutdown => cases hanswered
        | fileFailed | pathResolved | pathResolveFailed | mutationFailed | changed =>
          refine turn_of_event hflight hm ?_ (by simp) (by simp)
          cases r <;> rfl

end World

end App

end Termesh
