import Termesh.App.Aside
import Termesh.App.Dealings
import Termesh.App.Recovery

/-!
# What is asked of the filesystem worker

`mail` is the part of a model that talks to the filesystem worker: its queue, the counter of the ids
under which files are read, and which files of drafts are being written or are there. Most events
only ask for files under new ids.

* `Mail`, `mail_of_shell`, `mail_of_desk`;
* `Asks`: reads under ids counted up from one, and requests that are about no buffer;
* `Posts`: a step that adds such requests to the queue and leaves the rest of the mail alone;
* **`step_posts`**: every event but those that save, write drafts, change files or answer posts.
-/

namespace Termesh

/-- The requests that name no buffer, change no file and start no watch. -/
def FsRequest.Plain : FsRequest → Prop
  | resolvePath .. => True
  | _ => False

/-- The requests that start no watch. -/
def FsRequest.Unwatched : FsRequest → Prop
  | watch _ => False
  | _ => True

/-- The requests that are neither reads nor writes under an id. -/
def FsRequest.Nameless : FsRequest → Prop
  | readFile .. | writeFile .. => False
  | _ => True

theorem FsRequest.Plain.nameless {r : FsRequest} (h : r.Plain) : r.Nameless := by
  cases r with
  | resolvePath => trivial
  | readFile | writeFile | watch | createFile | createDir | rename | remove | shutdown => exact h.elim

theorem FsRequest.Plain.unwatched {r : FsRequest} (h : r.Plain) : r.Unwatched := by
  cases r with
  | resolvePath => trivial
  | readFile | writeFile | watch | createFile | createDir | rename | remove | shutdown => exact h.elim

namespace App

/-- What a model has to do with the filesystem worker. -/
structure Mail where
  outbox : List FsRequest
  nextBufferId : ℕ
  pendingDraftWrites : List (BufferId × Path)
  knownDrafts : List Path

/-- Requests under new ids, counted from `n` up to `k`, and requests that name no buffer. All of
them but the reads meet `A`. -/
inductive Asks (A : FsRequest → Prop) : ℕ → List FsRequest → ℕ → Prop
  | nil (n : ℕ) : Asks A n [] n
  | read {n k : ℕ} {rs : List FsRequest} (path : Path) (h : Asks A (n + 1) rs k) :
      Asks A n (.readFile ⟨n + 1⟩ path :: rs) k
  | write {n k : ℕ} {rs : List FsRequest} {file : Path} {contents : Text} {version : Version}
      (hA : A (.writeFile ⟨n + 1⟩ file contents version)) (h : Asks A (n + 1) rs k) :
      Asks A n (.writeFile ⟨n + 1⟩ file contents version :: rs) k
  | nameless {n k : ℕ} {rs : List FsRequest} {r : FsRequest} (hr : r.Nameless) (hA : A r)
      (h : Asks A n rs k) : Asks A n (r :: rs) k

section Asks

variable {A B : FsRequest → Prop} {n k l : ℕ} {rs rs' : List FsRequest}

theorem Asks.append (h : Asks A n rs k) (h' : Asks A k rs' l) : Asks A n (rs ++ rs') l := by
  induction h with
  | nil => exact h'
  | read path _ ih => exact .read path (ih h')
  | write hA _ ih => exact .write hA (ih h')
  | nameless hr hA _ ih => exact .nameless hr hA (ih h')

theorem Asks.mono (hAB : ∀ r, A r → B r) (h : Asks A n rs k) : Asks B n rs k := by
  induction h with
  | nil => exact .nil _
  | read path _ ih => exact .read path ih
  | write hA _ ih => exact .write (hAB _ hA) ih
  | nameless hr hA _ ih => exact .nameless hr (hAB _ hA) ih

theorem Asks.all (hread : ∀ buffer path, A (.readFile buffer path)) (h : Asks A n rs k) :
    ∀ r ∈ rs, A r := by
  induction h with
  | nil => simp
  | read path _ ih => exact List.forall_mem_cons.mpr ⟨hread _ path, ih⟩
  | write hA _ ih => exact List.forall_mem_cons.mpr ⟨hA, ih⟩
  | nameless _ hA _ ih => exact List.forall_mem_cons.mpr ⟨hA, ih⟩

theorem Asks.le (h : Asks A n rs k) : n ≤ k := by
  induction h with
  | nil => exact Nat.le_refl _
  | read _ _ ih => exact Nat.le_of_succ_le ih
  | write _ _ ih => exact Nat.le_of_succ_le ih
  | nameless _ _ _ ih => exact ih

end Asks

namespace Model

def mail (m : Model) : Mail where
  outbox := m.outbox
  nextBufferId := m.nextBufferId
  pendingDraftWrites := m.pendingDraftWrites
  knownDrafts := m.knownDrafts

variable {h : Host} {m m' m₁ : Model}

/-- The model without what edits, terminals, the conversation and the servers change. -/
def aloof (m : Model) : Model := { m.outline.desk with agent := none }

theorem aloof_of_outline (ho : m'.outline = m.outline) : m'.aloof = m.aloof := by
  rw [aloof, aloof, ho]

theorem aloof_of_desk (hd : m'.desk = m.desk) : m'.aloof = m.aloof := by
  have key : ∀ m : Model, m.aloof = { m.desk.outline with agent := none } := fun _ => rfl
  rw [key, key, hd]

theorem mail_of_aloof (ha : m'.aloof = m.aloof) : m'.mail = m.mail :=
  show m'.aloof.mail = m.aloof.mail by rw [ha]

theorem mail_of_shell (hs : m'.shell = m.shell) : m'.mail = m.mail :=
  show m'.shell.mail = m.shell.mail by rw [hs]

theorem mail_of_outline (ho : m'.outline = m.outline) : m'.mail = m.mail :=
  mail_of_aloof (aloof_of_outline ho)

theorem mail_of_desk (hd : m'.desk = m.desk) : m'.mail = m.mail :=
  mail_of_aloof (aloof_of_desk hd)

/-- A step that adds to the queue what changes no file. -/
def Posts (m m' : Model) : Prop :=
  ∃ rs, Asks FsRequest.Plain m.nextBufferId rs m'.nextBufferId ∧
    m'.mail = { m.mail with outbox := m.outbox ++ rs, nextBufferId := m'.nextBufferId }

theorem Posts.of_mail (hm : m'.mail = m.mail) : Posts m m' := by
  have hn : m'.nextBufferId = m.nextBufferId := congrArg Mail.nextBufferId hm
  refine ⟨[], ?_, ?_⟩
  · rw [hn]
    exact .nil _
  · rw [hm, hn, List.append_nil]
    rfl

theorem Posts.of_shell (hs : m'.shell = m.shell) : Posts m m' := .of_mail (mail_of_shell hs)

theorem Posts.of_aloof (ha : m'.aloof = m.aloof) : Posts m m' := .of_mail (mail_of_aloof ha)

theorem Posts.of_outline (ho : m'.outline = m.outline) : Posts m m' :=
  .of_aloof (aloof_of_outline ho)

theorem Posts.of_desk (hd : m'.desk = m.desk) : Posts m m' := .of_aloof (aloof_of_desk hd)

theorem Posts.trans (hp : Posts m m₁) (hp' : Posts m₁ m') : Posts m m' := by
  obtain ⟨rs, ha, hm⟩ := hp
  obtain ⟨rs', ha', hm'⟩ := hp'
  refine ⟨rs ++ rs', ha.append ha', ?_⟩
  have hout : m₁.outbox = m.outbox ++ rs := congrArg Mail.outbox hm
  rw [hm', hout, hm, List.append_assoc]

theorem Posts.read (path : Path) (hm : m'.mail = (m.queueRead path).2.mail) : Posts m m' := by
  have hn : m'.nextBufferId = m.nextBufferId + 1 := congrArg Mail.nextBufferId hm
  refine ⟨[.readFile ⟨m.nextBufferId + 1⟩ path], ?_, ?_⟩
  · rw [hn]
    exact .read path (.nil _)
  · rw [hm, hn]
    rfl

theorem Posts.send {r : FsRequest} (hr : r.Plain) (hm : m'.mail = (m.send r).mail) :
    Posts m m' := by
  have hn : m'.nextBufferId = m.nextBufferId := congrArg Mail.nextBufferId hm
  refine ⟨[r], ?_, ?_⟩
  · rw [hn]
    exact .nameless hr.nameless hr (.nil _)
  · rw [hm, hn]
    rfl

/-! ## Opening files -/

theorem openFile_posts (m : Model) (path : Path) : Posts m (m.openFile path) := by
  unfold openFile
  split
  · exact .of_mail rfl
  · split_ifs
    · exact .of_mail rfl
    · exact .read path rfl

theorem openFileAt_posts (m : Model) (path : Path) (line column : ℕ) :
    Posts m (m.openFileAt path line column) := by
  have hpos := positionOpenBuffer_shell m path line column
  unfold openFileAt
  split
  · rename_i m₁ heq
    rw [heq] at hpos
    exact .of_shell hpos
  · rename_i m₁ heq
    rw [heq] at hpos
    have hopen := openFile_posts { m₁ with pendingOpenLocation := some (path, line, column) } path
    exact (Posts.of_shell hpos).trans hopen

theorem openLspLocation_posts (m : Model) (location : Location) :
    Posts m (m.openLspLocation location) := by
  unfold openLspLocation
  split_ifs
  · exact openFileAt_posts m _ _ _
  · exact .of_mail rfl

theorem queueTargets_posts (m : Model) (paths : List Path) : Posts m (m.queueTargets paths).1 := by
  induction paths generalizing m with
  | nil => exact .of_mail rfl
  | cons path rest ih =>
    unfold queueTargets
    split_ifs
    · exact ih m
    · split
      · exact ih m
      · have hread : Posts m { (m.queueRead path).2 with
            opening := m.opening ++ [(⟨m.nextBufferId + 1⟩, path)] } := .read path rfl
        exact hread.trans (ih _)

theorem applyWorkspaceEdit_posts {edit : WorkspaceEdit}
    (ha : m.applyWorkspaceEdit h edit = some m') : Posts m m' := by
  unfold applyWorkspaceEdit at ha
  split_ifs at ha
  · exact Option.some.inj ha ▸ .of_mail rfl
  · exact Option.some.inj ha ▸ .of_mail rfl
  · split at ha
    · exact Option.some.inj ha ▸ .of_mail rfl
    · dsimp only at ha
      split at ha
      · exact Option.some.inj ha ▸ .of_mail rfl
      · split at ha
        · exact Option.some.inj ha ▸ .of_mail rfl
        · have hpend := Posts.of_shell (finishPendingWorkspaceEdit_shell ha)
          exact (queueTargets_posts m _).trans hpend

theorem acceptCodeAction_posts {action : CodeAction} (ha : m.acceptCodeAction h action = some m') :
    Posts m m' := by
  unfold acceptCodeAction at ha
  split at ha
  · exact applyWorkspaceEdit_posts ha
  · exact Option.some.inj ha ▸ .of_mail rfl

theorem onLspEvent_posts {server : LspServerId} {event : LspEvent}
    (he : m.onLspEvent h server event = some m') : Posts m m' := by
  rcases onLspEvent_cases he with hb | ⟨lsp, ⟨location, rfl⟩ | ⟨edit, he⟩ | ⟨edits, he⟩⟩
  · exact .of_shell (shell_of_bare hb.1)
  · exact openLspLocation_posts { m with lsp } location
  · exact applyWorkspaceEdit_posts (m := { m with lsp }) he
  · exact .of_outline ((applyTextEdits_outline he).trans rfl)

theorem openRestored_posts (m : Model) (paths : List Path) : Posts m (m.openRestored paths).1 := by
  induction paths generalizing m with
  | nil => exact .of_mail rfl
  | cons path rest ih => exact (openFile_posts m path).trans (ih _)

theorem mail_foldl {α : Type*} {f : Model → α → Model} (hf : ∀ m a, (f m a).mail = m.mail)
    (l : List α) (m : Model) : (l.foldl f m).mail = m.mail := by
  induction l generalizing m with
  | nil => rfl
  | cons a l ih => exact (ih _).trans (hf m a)

theorem reopen_posts (h : Host) (m : Model) (w : RestoredWorkspace) : Posts m (m.reopen h w) := by
  have hread := openRestored_posts m w.openPaths
  have hterm : ∀ m₁ : Model, Posts m m₁ → Posts m (w.terminals.foldl (fun m cwd =>
      m.createTerminal (h.shell cwd) .humanShell) m₁) := fun m₁ hm =>
    hm.trans (.of_mail (mail_foldl (fun m cwd => mail_of_desk (createTerminal_desk ..)) _ _))
  unfold reopen
  dsimp only
  split_ifs
  · exact hterm _ hread
  · exact hterm _ hread

theorem queueConfigReload_posts (m : Model) (kind : ConfigReloadKind) (path : Path) :
    Posts m (m.queueConfigReload kind path) := .read path rfl

theorem reloadConfig_posts (h : Host) (m : Model) : Posts m (m.reloadConfig h) := by
  unfold reloadConfig
  split
  · split
    · exact (queueConfigReload_posts m _ _).trans (queueConfigReload_posts _ _ _)
    · exact queueConfigReload_posts m _ _
  · split
    · exact queueConfigReload_posts m _ _
    · exact .of_mail rfl

/-! ## The agent -/

theorem serveRead_posts (m : Model) (session : SessionId) (request : ReadRequestId) (path : Path) :
    Posts m (m.serveRead session request path) := by
  unfold serveRead
  split
  · exact .of_mail rfl
  · split_ifs
    · exact .read path rfl
    · exact .of_mail rfl

theorem startSession_aloof (h : Host) (m : Model) (session : SessionId) :
    (m.startSession h session).aloof = m.aloof :=
  startSession_spec (P := fun m' => m'.aloof = m.aloof) (R := fun m' => m'.aloof = m.aloof)
    (Q := fun m' => m'.aloof = m.aloof) h session rfl rfl (fun _ h₁ _ => h₁)
    (fun _ _ h₁ _ => (aloof_of_desk (cancelAgentTerminals_desk ..)).trans h₁) (fun _ h₂ => h₂)
    fun _ _ h₂ => (aloof_of_desk (sendPrompt_desk ..)).trans h₂

theorem syncProposals_aloof (hs : m.syncProposals h = some m') : m'.aloof = m.aloof :=
  aloof_of_outline (syncProposals_outline hs)

theorem decidePermission_aloof {decision : PermissionDecision}
    (hd : m.decidePermission h decision = some m') : m'.aloof = m.aloof := by
  rcases decidePermission_cases hd with rfl | ⟨agent, m₁, -, hdesk, rfl | ⟨reviewed, hs⟩⟩
  · rfl
  · exact (aloof_of_desk hdesk).trans rfl
  · exact (aloof_of_desk hdesk).trans ((syncProposals_aloof hs).trans rfl)

theorem resolveProposal_aloof {accept : Bool} (hr : m.resolveProposal h accept = some m') :
    m'.aloof = m.aloof := by
  unfold resolveProposal at hr
  by_cases hg : m.gatedFirst = true
  · rw [if_pos hg] at hr
    obtain ⟨m₁, h₁, rfl⟩ := Option.map_eq_some_iff.mp hr
    exact (decidePermission_aloof h₁).trans rfl
  · rw [if_neg hg] at hr
    split at hr
    · exact Option.some.inj hr ▸ rfl
    · split at hr
      · exact Option.some.inj hr ▸ rfl
      · obtain ⟨⟨m₁, n⟩, h₁, rfl⟩ := Option.map_eq_some_iff.mp hr
        have hm : m₁.aloof = m.aloof := by
          split_ifs at h₁
          · exact (aloof_of_outline (applyReview_outline h₁)).trans rfl
          · exact (Prod.mk.inj (Option.some.inj h₁)).1 ▸ rfl
        exact hm

theorem receiveProposal_aloof {id : ProposalId} {path : Path} {oldText : Option Text} {newText : Text}
    (hr : m.receiveProposal h id path oldText newText = some m') : m'.aloof = m.aloof := by
  unfold receiveProposal at hr
  split_ifs at hr
  · exact Option.some.inj hr ▸ rfl
  · split at hr
    · exact Option.some.inj hr ▸ rfl
    · obtain ⟨p, -, hr⟩ := Option.bind_eq_some_iff.mp hr
      exact (syncProposals_aloof (m := m.modifyAgent _) hr).trans rfl

theorem receivePermission_aloof {session : SessionId} {request : PermissionRequestId}
    {summary : String} {command : List String} {spec : Option TerminalSpec}
    {edit : Option ProposedEditDiff}
    (hr : m.receivePermission h session request summary command spec edit = some m') :
    m'.aloof = m.aloof := by
  unfold receivePermission at hr
  split_ifs at hr
  · obtain ⟨⟨m₁, review, summary'⟩, h₁, rfl⟩ := Option.map_eq_some_iff.mp hr
    have hm₁ : m₁.aloof = m.aloof := by
      cases edit with
      | none => exact (Prod.mk.inj (Option.some.inj h₁)).1 ▸ rfl
      | some edit =>
        dsimp only at h₁
        unfold reviewForPermission at h₁
        dsimp only at h₁
        split at h₁
        · exact (Prod.mk.inj (Option.some.inj h₁)).1 ▸ rfl
        · split at h₁
          · exact (Prod.mk.inj (Option.some.inj h₁)).1 ▸ rfl
          · exact (Prod.mk.inj (Option.some.inj h₁)).1 ▸ rfl
          · obtain ⟨p, -, h₁⟩ := Option.bind_eq_some_iff.mp h₁
            obtain ⟨m₂, h₂, hx⟩ := Option.map_eq_some_iff.mp h₁
            rw [← (Prod.mk.inj hx).1]
            exact (syncProposals_aloof (m := m.modifyAgent _) h₂).trans rfl
    exact hm₁
  · exact Option.some.inj hr ▸ rfl

theorem onAgentEvent_posts {e : AgentEvent} (he : m.onAgentEvent h e = some m') : Posts m m' := by
  cases e with
  | sessionStarted session => exact Option.some.inj he ▸ .of_aloof (startSession_aloof h m session)
  | readFileRequested => exact Option.some.inj he ▸ serveRead_posts ..
  | proposedEdit => exact .of_aloof (receiveProposal_aloof he)
  | permissionRequested => exact .of_aloof (receivePermission_aloof he)
  | ready | modesAvailable | modeChanged | messageChunk | thoughtChunk | terminalRequest
  | terminalAttached | turnEnded | failed => exact .of_desk (onAgentEvent_desk he trivial)

/-! ## Loaded files -/

theorem applyConfig_mail (h : Host) (m : Model) (kind : ConfigReloadKind) (contents : Option Text) :
    (m.applyConfig h kind contents).mail = m.mail := by
  unfold applyConfig
  split <;> rfl

theorem finishRestoredRead_mail (m : Model) (buffer : BufferId) :
    (m.finishRestoredRead buffer).mail = m.mail := by
  unfold finishRestoredRead
  split <;> rfl

theorem appendNotification_mail (m : Model) (s : String) : (m.appendNotification s).mail = m.mail :=
  mail_of_desk (desk_appendNotification m s)

theorem abandonPendingWorkspaceEdit_mail (m : Model) (s : String) :
    (m.abandonPendingWorkspaceEdit s).mail = m.mail := by
  unfold abandonPendingWorkspaceEdit
  split
  · rename_i pending _
    exact (mail_of_shell (shell_restoreActiveBuffer { m with pendingWorkspaceEdit := none }
      pending.previousActive)).trans rfl
  · rfl

theorem stopWaiting_mail {buffer : BufferId}
    (hf : (m.stopWaiting buffer).finishPendingWorkspaceEdit h = some m') : m'.mail = m.mail :=
  (mail_of_shell (finishPendingWorkspaceEdit_shell hf)).trans rfl

theorem reloadBuffer_mail {i : ℕ} {old : Buffer} {buffer : BufferId} {path : Path} {text : Text}
    (hr : m.reloadBuffer h i old buffer path text = some m') : m'.mail = m.mail := by
  unfold reloadBuffer at hr
  obtain ⟨m₁, h₁, hr⟩ := Option.bind_eq_some_iff.mp hr
  exact (stopWaiting_mail hr).trans ((mail_of_outline (syncAll_outline h₁)).trans rfl)

theorem showLoaded_mail {buffer : BufferId} {path : Path} {text : Text} {restored : Bool}
    (hs : m.showLoaded h buffer path text restored = some m') : m'.mail = m.mail := by
  unfold showLoaded at hs
  obtain ⟨m₁, h₁, hs⟩ := Option.bind_eq_some_iff.mp hs
  have hm₁ : m₁.mail = m.mail := by
    refine (mail_of_outline (syncSyntax_outline h₁)).trans ?_
    split_ifs
    · exact (finishRestoredRead_mail ..).trans rfl
    · rfl
    · rfl
  refine (stopWaiting_mail hs).trans ((mail_of_outline (syncLspDocuments_outline _)).trans ?_)
  split
  · split_ifs
    · exact (mail_of_shell (positionOpenBuffer_shell ..)).trans hm₁
    · exact hm₁
  · exact hm₁

theorem refuseLoaded_mail (m : Model) (buffer : BufferId) (path : Path) (restored : Bool) :
    (m.refuseLoaded buffer path restored).mail = m.mail := by
  unfold refuseLoaded
  dsimp only
  split_ifs
  · exact (appendNotification_mail ..).trans (finishRestoredRead_mail ..)
  · exact abandonPendingWorkspaceEdit_mail ..
  · rfl

theorem fileLoaded_mail {buffer : BufferId} {path : Path} {contents : Option Text}
    (hf : m.fileLoaded h buffer path contents = some m') : m'.mail = m.mail := by
  unfold fileLoaded at hf
  split at hf
  · exact Option.some.inj hf ▸ (applyConfig_mail ..).trans rfl
  · split at hf
    · exact Option.some.inj hf ▸ rfl
    · dsimp only at hf
      split at hf
      · exact Option.some.inj hf ▸ (refuseLoaded_mail ..).trans rfl
      · split at hf
        · exact (reloadBuffer_mail hf).trans rfl
        · exact (showLoaded_mail hf).trans rfl

/-! ## Writes and changes of files -/

/-- A step that adds to the queue what is about no open buffer. -/
def Queues (A : FsRequest → Prop) (m m' : Model) : Prop :=
  ∃ rs, Asks A m.nextBufferId rs m'.nextBufferId ∧ m'.outbox = m.outbox ++ rs

variable {A : FsRequest → Prop}

theorem Queues.mono {B : FsRequest → Prop} (hAB : ∀ r, A r → B r) (hq : Queues A m m') :
    Queues B m m' := by
  obtain ⟨rs, ha, ho⟩ := hq
  exact ⟨rs, ha.mono hAB, ho⟩

theorem Posts.queues (hp : Posts m m') : Queues FsRequest.Unwatched m m' := by
  obtain ⟨rs, ha, hm⟩ := hp
  exact ⟨rs, ha.mono fun _ hr => hr.unwatched, congrArg Mail.outbox hm⟩

theorem Queues.of_eq (hn : m'.nextBufferId = m.nextBufferId) (ho : m'.outbox = m.outbox) :
    Queues A m m' := by
  refine ⟨[], ?_, by rw [ho, List.append_nil]⟩
  rw [hn]
  exact .nil _

theorem Queues.of_mail (hm : m'.mail = m.mail) : Queues A m m' :=
  .of_eq (congrArg Mail.nextBufferId hm) (congrArg Mail.outbox hm)

theorem Queues.trans (hq : Queues A m m₁) (hq' : Queues A m₁ m') : Queues A m m' := by
  obtain ⟨rs, ha, ho⟩ := hq
  obtain ⟨rs', ha', ho'⟩ := hq'
  exact ⟨rs ++ rs', ha.append ha', by rw [ho', ho, List.append_assoc]⟩

theorem Queues.send {r : FsRequest} (hr : r.Nameless) (hA : A r)
    (hn : m'.nextBufferId = m.nextBufferId) (ho : m'.outbox = m.outbox ++ [r]) : Queues A m m' := by
  refine ⟨[r], ?_, ho⟩
  rw [hn]
  exact .nameless hr hA (.nil _)

theorem queues_foldl {α : Type*} {f : Model → α → Model} (hf : ∀ m a, Queues A m (f m a))
    (l : List α) (m : Model) : Queues A m (l.foldl f m) := by
  induction l generalizing m with
  | nil => exact .of_mail rfl
  | cons a l ih => exact (hf m a).trans (ih _)

theorem confirmFile_queues (m : Model) (prompt : Prompt) (name : String) :
    Queues FsRequest.Unwatched m (m.confirmFile prompt name) := by
  unfold confirmFile
  split_ifs
  · exact .of_mail rfl
  · exact .of_mail rfl
  · split
    · exact .send (r := .createFile _) trivial trivial rfl rfl
    · exact .send (r := .createDir _) trivial trivial rfl rfl
    · split
      · exact .send (r := .rename _ _) trivial trivial rfl rfl
      · exact .of_mail rfl
    · exact .send (r := .remove _ _) trivial trivial rfl rfl
    · exact .of_mail rfl

theorem discardRecoveryDrafts_queues (h : Host) (m : Model) :
    Queues FsRequest.Unwatched m (m.discardRecoveryDrafts h) := by
  unfold discardRecoveryDrafts
  split
  · rename_i drafts focus _
    dsimp only
    split
    · exact .of_mail rfl
    · rename_i dir hdir
      have hone : ∀ (m : Model) (d : Draft × Bool), Queues FsRequest.Unwatched m
          ({ m with knownDrafts := m.knownDrafts.filter (· ≠ d.1.path) }.send
            (.remove (dir.join (h.draftFileName d.1.path)) false)) := fun m d =>
        .send (r := .remove (dir.join (h.draftFileName d.1.path)) false) trivial trivial rfl rfl
      exact (Queues.of_mail rfl).trans (queues_foldl hone drafts
        { m with overlays := m.overlays.dropLast, focus := focus })
  · exact .of_mail rfl

theorem queueDraft_queues (h : Host) (dir : Path) (m : Model) (b : Buffer) :
    Queues FsRequest.Unwatched m (m.queueDraft h dir b) := by
  unfold queueDraft
  dsimp only
  split
  · exact .of_mail (appendNotification_mail ..)
  · rename_i contents he
    exact ⟨[_], .write trivial (.nil _), rfl⟩

theorem queueDueDrafts_queues (h : Host) (m : Model) :
    Queues FsRequest.Unwatched m (m.queueDueDrafts h) := by
  unfold queueDueDrafts
  split
  · exact .of_mail rfl
  · split_ifs
    · exact .of_mail rfl
    · dsimp only
      split
      · exact .of_mail rfl
      · rename_i dir hdir
        split_ifs
        · exact .of_mail rfl
        · have hdirs : Queues FsRequest.Unwatched m
              ({ m with draftDeadline := none }.send (.createDir dir)) :=
            .send (r := .createDir dir) trivial trivial rfl rfl
          exact hdirs.trans (queues_foldl (queueDraft_queues h dir) _ _)

theorem fileSaved_queues (h : Host) (m : Model) (buffer : BufferId) (version : Version) :
    Queues FsRequest.Unwatched m (m.fileSaved h buffer version) := by
  unfold fileSaved
  split
  · exact .of_eq rfl rfl
  · split
    · exact .of_mail rfl
    · dsimp only
      split
      · exact .of_mail rfl
      · split
        · split_ifs
          · exact .send (r := .remove _ false) trivial trivial rfl rfl
          · exact .of_eq rfl rfl
        · exact .of_eq rfl rfl

theorem fileFailed_queues (h : Host) (m : Model) (buffer : BufferId) (error : FsError) :
    Queues A m (m.fileFailed h buffer error) := by
  unfold fileFailed
  split
  · rename_i source hfind
    have hm := appendNotification_mail
      { m with pendingDraftWrites := m.pendingDraftWrites.filter (·.1 ≠ buffer) }
      ("could not write recovery draft for " ++ source.display ++ ": " ++ error.toString)
    exact .of_eq (congrArg Mail.nextBufferId hm) (congrArg Mail.outbox hm)
  · split
    · exact (Queues.of_mail rfl).trans (.of_mail (applyConfig_mail ..))
    · split
      · exact .of_mail rfl
      · dsimp only
        split_ifs
        · exact .of_mail ((appendNotification_mail ..).trans (finishRestoredRead_mail ..))
        · exact .of_mail (abandonPendingWorkspaceEdit_mail ..)
        · exact .of_mail rfl

theorem saveActiveBuffer_mail (m : Model) :
    m.saveActiveBuffer.mail = m.mail ∨ ∃ b path, m.active = some b ∧ b.path = some path ∧
      b.isDirty = true ∧ m.saveActiveBuffer.mail =
        { m.mail with outbox := m.outbox ++ [.writeFile b.id path b.toDiskString b.version] } := by
  unfold saveActiveBuffer
  split
  · exact .inl rfl
  · rename_i b hb
    split
    · exact .inl rfl
    · rename_i path hp
      by_cases hd : b.isDirty = true
      · refine .inr ⟨b, path, hb, hp, hd, ?_⟩
        rw [hd]
        rfl
      · rw [if_pos (by simpa using hd)]
        exact .inl rfl

theorem notifyLspWatchedFiles_mail (m : Model) (paths : List Path) :
    (m.notifyLspWatchedFiles paths).mail = m.mail := by
  unfold notifyLspWatchedFiles
  split
  · rfl
  · dsimp only
    split_ifs <;> rfl

/-- A file that changed on disk is read again if its first buffer is clean. -/
theorem reloadChanged_mail (m : Model) (path : Path) :
    (m.reloadChanged path).mail = m.mail ∨ ∃ b, m.bufferAt path = some b ∧ b.isDirty = false ∧
      (m.reloadChanged path).mail =
        { m.mail with outbox := m.outbox ++ [.readFile b.id path] } := by
  unfold reloadChanged
  split
  · exact .inl rfl
  · rename_i b hb
    by_cases hd : b.isDirty = true
    · rw [if_pos hd]
      exact .inl rfl
    · rw [if_neg hd]
      exact .inr ⟨b, hb, by simpa using hd, rfl⟩

theorem reloadChangedBuffers_mail (m : Model) (paths : List Path) :
    ∃ rs, (m.reloadChangedBuffers paths).mail = { m.mail with outbox := m.outbox ++ rs } ∧
      ∀ r ∈ rs, ∃ b ∈ m.buffers, ∃ path, r = .readFile b.id path ∧ b.path = some path ∧
        b.isDirty = false := by
  unfold reloadChangedBuffers
  induction paths generalizing m with
  | nil => exact ⟨[], by rw [List.append_nil]; rfl, by simp⟩
  | cons path rest ih =>
    obtain ⟨rs, hm, hrs⟩ := ih (m.reloadChanged path)
    rw [(reloadChanged_still m path).1] at hrs
    rcases reloadChanged_mail m path with hone | ⟨b, hb, hd, hone⟩
    · have hout : (m.reloadChanged path).outbox = m.outbox := congrArg Mail.outbox hone
      refine ⟨rs, ?_, hrs⟩
      rw [List.foldl_cons, hm, hone, hout]
    · have hout : (m.reloadChanged path).outbox = m.outbox ++ [.readFile b.id path] :=
        congrArg Mail.outbox hone
      refine ⟨.readFile b.id path :: rs, ?_, fun r hr => ?_⟩
      · rw [List.foldl_cons, hm, hone, hout, List.append_assoc]
        rfl
      · rcases List.mem_cons.mp hr with rfl | hr
        · have hfound := List.find?_some hb
          exact ⟨b, List.mem_of_find?_eq_some hb, path, rfl, by simpa using hfound, hd⟩
        · exact hrs r hr

/-! ## Events -/

end Model

/-- The events that open a workspace. -/
def Event.Opens : Event → Prop
  | openWorkspace .. | restoreSession _ => True
  | _ => False

/-- The commands and events whose requests are not those of `Posts`. -/
def Event.Writes : Event → Prop
  | dispatch .save | discardRecoveryDrafts | tick _ | takeFsRequests => True
  | openWorkspace .. | restoreSession _ => True
  | confirmPrompt prompt =>
    match prompt.kind with
    | .newFile _ | .newDir _ | .rename _ | .confirmDelete .. => True
    | _ => False
  | fs (.changed _) | fs (.fileSaved ..) | fs (.fileFailed ..) => True
  | _ => False

namespace Model

theorem dispatchInner_posts {cmd : Command} (hd : m.dispatchInner h cmd = some m')
    (hw : ¬ (Event.dispatch cmd).Writes) : Posts m m' := by
  have hedit : ∀ {f : Buffer → Option (Buffer × Except EditError Unit)},
      m.editActive f = some m' → Posts m m' := fun he => .of_outline (editActive_outline he)
  cases cmd with
  | save => exact absurd trivial hw
  | restoreDrafts => exact .of_outline (applyRecoveryDrafts_outline hd)
  | reloadConfig => exact Option.some.inj hd ▸ reloadConfig_posts h m
  | cursor => exact Option.some.inj hd ▸ .of_outline (withBuffer_outline m _)
  | newline | backspace | deleteForward => exact hedit hd
  | undo | redo => exact .of_outline (replayActive_outline hd)
  | findNext | findPrev => exact .of_outline (stepMatch_outline hd)
  | nextTab | prevTab => exact Option.some.inj hd ▸ .of_shell (cycleTab_shell m _)
  | closeTab => exact Option.some.inj hd ▸ .of_shell (closeTab_shell m)
  | lspRestart =>
    refine Option.some.inj hd ▸ .of_mail ?_
    unfold restartLanguageServers
    split
    · split_ifs <;> rfl
    · rfl
  | proposalAccept | proposalReject => exact .of_aloof (resolveProposal_aloof hd)
  | agentAllowOnce | agentAllowAlways | agentDeny => exact .of_aloof (decidePermission_aloof hd)
  | find | replace | lspAtCursor | lspDocumentSymbols | lspWorkspaceSymbols | lspFormat | lspRename
  | lspCodeAction | agentSessionNew | agentPrompt | agentMode | terminalFocus | terminalNew
  | terminalRun | terminalNext | terminalPrevious | terminalRestart | terminalClose | focusPane
  | focusNext | focusPrev | closeOverlay | quit | other =>
    exact .of_desk (dispatchInner_desk hd trivial)

theorem confirmPrompt_posts {prompt : Prompt} (hc : m.confirmPrompt h prompt = some m')
    (hw : ¬ (Event.confirmPrompt prompt).Writes) : Posts m m' := by
  have aside : prompt.kind.Aside → Posts m m' := fun ha => .of_desk (confirmPrompt_desk hc ha)
  cases hk : prompt.kind with
  | agentPrompt | terminalRun | gitCommit | lspRename | confirmCloseTerminal =>
    exact aside (by rw [hk]; trivial)
  | find =>
    simp only [confirmPrompt, hk] at hc
    split_ifs at hc
    · exact Option.some.inj hc ▸ .of_outline (clearFind_outline m)
    · exact .of_outline (runFind_outline hc)
  | replace =>
    simp only [confirmPrompt, hk] at hc
    exact .of_outline (replaceAll_outline hc)
  | confirmCloseBuffer buffer =>
    simp only [confirmPrompt, hk] at hc
    exact Option.some.inj hc ▸ .of_shell (discardBuffer_shell m buffer)
  | newFile | newDir | rename | confirmDelete =>
    refine absurd ?_ hw
    simp only [Event.Writes, hk]

theorem onFsEvent_posts {e : FsEvent} (hs : m.onFsEvent h e = some m')
    (hw : ¬ (Event.fs e).Writes) : Posts m m' := by
  cases e with
  | fileLoaded => exact .of_mail (fileLoaded_mail hs)
  | fileSaved | fileFailed | changed => exact absurd trivial hw
  | pathResolved request path =>
    rw [onFsEvent] at hs
    split at hs
    · exact Option.some.inj hs ▸ .of_mail rfl
    · rename_i pending _
      dsimp only at hs
      split at hs
      · exact Option.some.inj hs ▸ .of_mail rfl
      · split at hs
        · rw [← Option.some.inj hs]
          exact openFileAt_posts { m with pendingProblemNavigation := none } path pending.line
            pending.column
        · exact Option.some.inj hs ▸ .of_mail rfl
  | pathResolveFailed =>
    rw [onFsEvent] at hs
    split_ifs at hs <;> exact Option.some.inj hs ▸ .of_mail rfl
  | mutationFailed =>
    rw [← Option.some.inj hs]
    split_ifs <;> exact .of_mail rfl

/-- **What most events ask of the filesystem worker**: files under new ids. -/
theorem step_posts {ev : Event} (hs : m.step h ev = some m') (hw : ¬ ev.Writes) : Posts m m' := by
  cases ev with
  | dispatch cmd =>
    obtain ⟨m₁, h₁, hs⟩ := Option.bind_eq_some_iff.mp hs
    have hinner : Posts { m with notification := none } m₁ := dispatchInner_posts h₁ hw
    exact hinner.trans (.of_outline (syncAll_outline hs))
  | typeChar c =>
    obtain ⟨m₁, h₁, hs⟩ := Option.bind_eq_some_iff.mp hs
    exact .of_outline ((syncAll_outline hs).trans ((editActive_outline h₁).trans rfl))
  | confirmPrompt prompt => exact confirmPrompt_posts hs hw
  | openFile path => exact Option.some.inj hs ▸ openFile_posts m path
  | openFileAt => exact Option.some.inj hs ▸ openFileAt_posts m _ _ _
  | navigateProblem path => exact Option.some.inj hs ▸ .send (r := .resolvePath _ path) trivial rfl
  | acceptSelectedRecoveryDrafts => exact .of_outline (applyRecoveryDrafts_outline hs)
  | acceptCompletion item => exact .of_outline (acceptCompletion_outline hs)
  | acceptCodeAction action => exact acceptCodeAction_posts hs
  | openLspLocation location => exact Option.some.inj hs ▸ openLspLocation_posts m location
  | applyTextEdits edits => exact .of_outline (applyTextEdits_outline hs)
  | applyWorkspaceEdit edit => exact applyWorkspaceEdit_posts hs
  | decidePermission decision => exact .of_aloof (decidePermission_aloof hs)
  | fs event => exact onFsEvent_posts hs hw
  | agent event => exact onAgentEvent_posts hs
  | lsp server event => exact onLspEvent_posts hs
  | openWorkspace | restoreSession | discardRecoveryDrafts | tick | takeFsRequests =>
    exact absurd trivial hw
  | setOverlays | setAgentMode | typeTerminal | setTerminalSize | pty | shutdownTerminals
  | takeAgentRequests | takePtyRequests | takeLspRequests => exact .of_desk (step_desk hs trivial)

end Model

end App

end Termesh
