import Termesh.App.Worker

/-!
# A workspace edit that waits for files

A server edit whose targets are not all open waits for reads, its own and those that others started.
It goes on when the last of them is answered, and is given up when one fails.

* `errands`: the ids under which something else than a tab is on its way;
* `Underway`: every file being opened has a read without an answer, and an edit waits for such files;
* `Rests`, `Underway.read`, `Underway.errand`, `finish_timely`: what the operations do to it;
* `Timely`, **`step_timely`**: events between the answers;
* `Jams`: the failed read that a restored session and the edit both wait for;
* **`edit_never_stuck`**: while no read jams, an edit only waits for reads without an answer.
-/

namespace Termesh

namespace App

namespace Model

/-- The ids under which something else than a tab is written or read. -/
def errands (m : Model) : List BufferId :=
  m.pendingDraftWrites.map Prod.fst ++ m.pendingConfigReloads.map PendingConfigReload.buffer ++
    m.pendingAgentReads.map PendingAgentRead.buffer

/-- What is on its way when the worker holds the requests `asked`. -/
structure Underway (asked : List FsRequest) (m : Model) : Prop where
  opening : ∀ o ∈ m.opening, .readFile o.1 o.2 ∈ asked ++ m.outbox
  low : ∀ o ∈ m.opening, o.1.val ≤ m.nextBufferId
  lowErrand : ∀ id ∈ m.errands, id.val ≤ m.nextBufferId
  apart : ∀ o ∈ m.opening, o.1 ∉ m.errands
  waiting : ∀ p, m.pendingWorkspaceEdit = some p → ∀ o ∈ p.waiting, o ∈ m.opening

/-- A pending edit waits for something. -/
def Waits (m : Model) : Prop := ∀ p, m.pendingWorkspaceEdit = some p → p.waiting ≠ []

variable {h : Host} {m m' m₁ : Model} {asked : List FsRequest}

/-! ## Steps that open nothing -/

/-- The step asks for no file to show, and the edit stays as it is. -/
structure Rests (m m' : Model) : Prop where
  opening : m'.opening = m.opening
  errands : ∀ id ∈ m'.errands, id ∈ m.errands
  edit : m'.pendingWorkspaceEdit = m.pendingWorkspaceEdit
  next : m.nextBufferId ≤ m'.nextBufferId
  outbox : m.outbox <+: m'.outbox

theorem Rests.refl (m : Model) : Rests m m :=
  ⟨rfl, fun _ h => h, rfl, Nat.le_refl _, List.prefix_rfl⟩

theorem Rests.trans (hr : Rests m m₁) (hr' : Rests m₁ m') : Rests m m' :=
  ⟨hr'.opening.trans hr.opening, fun id hid => hr.errands id (hr'.errands id hid),
    hr'.edit.trans hr.edit, hr.next.trans hr'.next, hr.outbox.trans hr'.outbox⟩

theorem Rests.of_aloof (ha : m'.aloof = m.aloof) : Rests m m' where
  opening := show m'.aloof.opening = m.aloof.opening by rw [ha]
  errands := fun id hid => show id ∈ m.aloof.errands from ha ▸ hid
  edit := show m'.aloof.pendingWorkspaceEdit = m.aloof.pendingWorkspaceEdit by rw [ha]
  next := Nat.le_of_eq (congrArg Mail.nextBufferId (mail_of_aloof ha)).symm
  outbox := by
    have ho : m'.outbox = m.outbox := congrArg Mail.outbox (mail_of_aloof ha)
    exact ho ▸ List.prefix_rfl

theorem Rests.of_outline (ho : m'.outline = m.outline) : Rests m m' :=
  .of_aloof (aloof_of_outline ho)

theorem Rests.of_desk (hd : m'.desk = m.desk) : Rests m m' := .of_aloof (aloof_of_desk hd)

theorem Rests.send (m : Model) (r : FsRequest) : Rests m (m.send r) :=
  ⟨rfl, fun _ h => h, rfl, Nat.le_refl _, List.prefix_append _ _⟩

theorem rests_foldl {α : Type*} {f : Model → α → Model} (hf : ∀ m a, Rests m (f m a)) (l : List α)
    (m : Model) : Rests m (l.foldl f m) := by
  induction l generalizing m with
  | nil => exact .refl m
  | cons a l ih => exact (hf m a).trans (ih _)

theorem Underway.rests (hu : Underway asked m) (hr : Rests m m') : Underway asked m' := by
  constructor
  case opening =>
    intro o ho
    rw [hr.opening] at ho
    exact (List.prefix_append_right_inj asked).mpr hr.outbox |>.subset (hu.opening o ho)
  case low =>
    intro o ho
    rw [hr.opening] at ho
    exact (hu.low o ho).trans hr.next
  case lowErrand => exact fun id hid => (hu.lowErrand id (hr.errands id hid)).trans hr.next
  case apart =>
    intro o ho hid
    rw [hr.opening] at ho
    exact hu.apart o ho (hr.errands _ hid)
  case waiting =>
    intro p hp
    rw [hr.edit] at hp
    rw [hr.opening]
    exact hu.waiting p hp

theorem Waits.rests (hw : m.Waits) (hr : Rests m m') : m'.Waits := by
  intro p hp
  rw [hr.edit] at hp
  exact hw p hp

/-! ## New reads and writes -/

/-- Ask for a file to show. -/
theorem Underway.read (hu : Underway asked m) (path : Path) :
    Underway asked { (m.queueRead path).2 with
      opening := m.opening ++ [(⟨m.nextBufferId + 1⟩, path)] } := by
  have hnew : ∀ id : BufferId, id.val ≤ m.nextBufferId → id ≠ ⟨m.nextBufferId + 1⟩ := by
    rintro id hid rfl
    exact absurd hid (Nat.not_succ_le_self _)
  have hcases : ∀ o ∈ m.opening ++ [((⟨m.nextBufferId + 1⟩ : BufferId), path)],
      o ∈ m.opening ∨ o = (⟨m.nextBufferId + 1⟩, path) := by
    simp
  constructor
  case opening =>
    intro o ho
    change FsRequest.readFile o.1 o.2 ∈ asked ++ (m.outbox ++ [.readFile ⟨m.nextBufferId + 1⟩ path])
    rw [← List.append_assoc]
    rcases hcases o ho with ho | rfl
    · exact List.mem_append_left _ (hu.opening o ho)
    · simp
  case low =>
    intro o ho
    rcases hcases o ho with ho | rfl
    · exact Nat.le_succ_of_le (hu.low o ho)
    · exact Nat.le_refl _
  case lowErrand => exact fun id hid => Nat.le_succ_of_le (hu.lowErrand id hid)
  case apart =>
    intro o ho hid
    rcases hcases o ho with ho | rfl
    · exact hu.apart o ho hid
    · exact hnew _ (hu.lowErrand _ hid) rfl
  case waiting => exact fun p hp o ho => List.mem_append_left _ (hu.waiting p hp o ho)

/-- Read or write something else under a new id. -/
theorem Underway.errand (hu : Underway asked m) (ho : m'.opening = m.opening)
    (he : ∀ id ∈ m'.errands, id ∈ m.errands ∨ id = ⟨m.nextBufferId + 1⟩)
    (hp : m'.pendingWorkspaceEdit = m.pendingWorkspaceEdit)
    (hn : m'.nextBufferId = m.nextBufferId + 1) (hq : m.outbox <+: m'.outbox) :
    Underway asked m' := by
  constructor
  case opening =>
    intro o hmem
    rw [ho] at hmem
    exact (List.prefix_append_right_inj asked).mpr hq |>.subset (hu.opening o hmem)
  case low =>
    intro o hmem
    rw [ho] at hmem
    have := hu.low o hmem
    omega
  case lowErrand =>
    intro id hid
    rcases he id hid with hid | rfl
    · have := hu.lowErrand id hid
      omega
    · exact Nat.le_of_eq hn.symm
  case apart =>
    intro o hmem hid
    rw [ho] at hmem
    rcases he _ hid with hid | heq
    · exact hu.apart o hmem hid
    · have := hu.low o hmem
      rw [heq] at this
      exact absurd this (Nat.not_succ_le_self _)
  case waiting =>
    intro p hpend
    rw [hp] at hpend
    rw [ho]
    exact hu.waiting p hpend

/-- Nothing is forgotten: what is on its way is asked for, and an edit waits for some of it. -/
structure Timely (asked : List FsRequest) (m : Model) : Prop extends Underway asked m where
  waits : m.Waits

theorem Timely.rests (ht : Timely asked m) (hr : Rests m m') : Timely asked m' :=
  ⟨ht.toUnderway.rests hr, ht.waits.rests hr⟩

theorem Timely.aloof (ht : Timely asked m) (ha : m'.aloof = m.aloof) : Timely asked m' :=
  ht.rests (.of_aloof ha)

theorem Timely.outline (ht : Timely asked m) (ho : m'.outline = m.outline) : Timely asked m' :=
  ht.rests (.of_outline ho)

/-! ## Opening -/

theorem positionOpenBuffer_rests (m : Model) (path : Path) (line column : ℕ) :
    Rests m (m.positionOpenBuffer path line column).1 := by
  unfold positionOpenBuffer
  split <;> exact ⟨rfl, fun _ h => h, rfl, Nat.le_refl _, List.prefix_rfl⟩

theorem restoreActiveBuffer_rests (m : Model) (b : Option BufferId) :
    Rests m (m.restoreActiveBuffer b) := by
  unfold restoreActiveBuffer
  split <;> exact ⟨rfl, fun _ h => h, rfl, Nat.le_refl _, List.prefix_rfl⟩

theorem Timely.openFile (ht : Timely asked m) (path : Path) : Timely asked (m.openFile path) := by
  unfold Model.openFile
  split
  · exact ht.rests ⟨rfl, fun _ h => h, rfl, Nat.le_refl _, List.prefix_rfl⟩
  · split_ifs
    · exact ht
    · exact ⟨ht.toUnderway.read path, ht.waits⟩

theorem Timely.openFileAt (ht : Timely asked m) (path : Path) (line column : ℕ) :
    Timely asked (m.openFileAt path line column) := by
  have hpos := ht.rests (positionOpenBuffer_rests m path line column)
  unfold Model.openFileAt
  split
  · rename_i m₁ heq
    rwa [heq] at hpos
  · rename_i m₁ heq
    rw [heq] at hpos
    have hjump : Timely asked { m₁ with pendingOpenLocation := some (path, line, column) } :=
      hpos.rests ⟨rfl, fun _ h => h, rfl, Nat.le_refl _, List.prefix_rfl⟩
    exact hjump.openFile path

theorem Timely.openLspLocation (ht : Timely asked m) (location : Location) :
    Timely asked (m.openLspLocation location) := by
  unfold Model.openLspLocation
  split_ifs
  · exact ht.openFileAt _ _ _
  · exact ht.outline rfl

theorem Timely.openRestored (ht : Timely asked m) (paths : List Path) :
    Timely asked (m.openRestored paths).1 := by
  induction paths generalizing m with
  | nil => exact ht
  | cons path rest ih => exact ih (ht.openFile path)

theorem Timely.reopen (ht : Timely asked m) (w : RestoredWorkspace) :
    Timely asked (m.reopen h w) := by
  have hread := ht.openRestored w.openPaths
  have hterm : ∀ m₁ : Model, Timely asked m₁ → Timely asked (w.terminals.foldl (fun m cwd =>
      m.createTerminal (h.shell cwd) .humanShell) m₁) := fun m₁ hm =>
    hm.rests (rests_foldl (fun m cwd => .of_desk (createTerminal_desk ..)) _ _)
  unfold Model.reopen
  dsimp only
  split_ifs
  · exact (hterm _ hread).outline rfl
  · refine (hterm _ (hread.rests ?_)).outline rfl
    exact ⟨rfl, fun _ h => h, rfl, Nat.le_refl _, List.prefix_rfl⟩

/-! ## Other reads and writes -/

theorem Timely.queueConfigReload (ht : Timely asked m) (kind : ConfigReloadKind) (path : Path) :
    Timely asked (m.queueConfigReload kind path) := by
  refine ⟨ht.toUnderway.errand rfl (fun id hid => ?_) rfl rfl (List.prefix_append _ _), ht.waits⟩
  simp only [errands, Model.queueConfigReload, queueRead, send, List.map_append, List.mem_append,
    List.map_cons, List.map_nil, List.mem_singleton] at hid ⊢
  tauto

theorem Timely.reloadConfig (ht : Timely asked m) : Timely asked (m.reloadConfig h) := by
  unfold Model.reloadConfig
  split
  · split
    · exact (ht.queueConfigReload _ _).queueConfigReload _ _
    · exact ht.queueConfigReload _ _
  · split
    · exact ht.queueConfigReload _ _
    · exact ht

theorem Timely.serveRead (ht : Timely asked m) (session : SessionId) (request : ReadRequestId)
    (path : Path) : Timely asked (m.serveRead session request path) := by
  unfold Model.serveRead
  split
  · exact ht.aloof rfl
  · split_ifs
    · refine ⟨ht.toUnderway.errand rfl (fun id hid => ?_) rfl rfl (List.prefix_append _ _),
        ht.waits⟩
      simp only [errands, queueRead, send, List.map_append, List.mem_append, List.map_cons,
        List.map_nil, List.mem_singleton] at hid ⊢
      tauto
    · exact ht.aloof rfl

theorem Timely.queueDraft (ht : Timely asked m) (dir : Path) (b : Buffer) :
    Timely asked (m.queueDraft h dir b) := by
  unfold Model.queueDraft
  dsimp only
  split
  · exact ht.outline (outline_appendNotification m _)
  · refine ⟨ht.toUnderway.errand rfl (fun id hid => ?_) rfl rfl (List.prefix_append _ _), ht.waits⟩
    simp only [errands, send, List.map_append, List.mem_append, List.map_cons, List.map_nil,
      List.mem_singleton] at hid ⊢
    tauto

theorem Timely.queueDueDrafts (ht : Timely asked m) : Timely asked (m.queueDueDrafts h) := by
  have hall : ∀ (dir : Path) (bs : List Buffer) (m : Model), Timely asked m →
      Timely asked (bs.foldl (Model.queueDraft h dir) m) := by
    intro dir bs
    induction bs with
    | nil => exact fun m ht => ht
    | cons b bs ih => exact fun m ht => ih _ (ht.queueDraft dir b)
  unfold Model.queueDueDrafts
  split
  · exact ht
  · split_ifs
    · exact ht
    · have hdue : Timely asked { m with draftDeadline := none } := ht.outline rfl
      dsimp only
      split
      · exact hdue
      · rename_i dir _
        split_ifs
        · exact hdue
        · exact hall dir _ _ (hdue.rests (.send _ (.createDir dir)))

/-! ## Server edits -/

/-- An edit is finished as soon as it waits for nothing. -/
theorem finish_timely (hu : Underway asked m) (hf : m.finishPendingWorkspaceEdit h = some m') :
    Timely asked m' := by
  rcases finishPendingWorkspaceEdit_cases hf with ⟨rfl, hw⟩ | ⟨changes, m₁, r, hx, hactive⟩
  · exact ⟨hu, hw⟩
  · have hgone : Timely asked { m with pendingWorkspaceEdit := none } :=
      ⟨⟨hu.opening, hu.low, hu.lowErrand, hu.apart, by simp⟩, by simp [Waits]⟩
    have hm₁ := hgone.outline (applyPrepared_outline hx)
    rcases hactive with hsame | ⟨b, hback⟩
    · exact hm₁.outline hsame
    · exact (hm₁.rests (restoreActiveBuffer_rests m₁ b)).outline hback

theorem queueTargets_timely (ht : Timely asked m) (paths : List Path) :
    Timely asked (m.queueTargets paths).1 ∧ m.opening <+: (m.queueTargets paths).1.opening ∧
      ∀ o ∈ (m.queueTargets paths).2, o ∈ (m.queueTargets paths).1.opening := by
  induction paths generalizing m with
  | nil => exact ⟨ht, List.prefix_rfl, by simp [queueTargets]⟩
  | cons path rest ih =>
    unfold queueTargets
    split_ifs
    · exact ih ht
    · split
      · rename_i buffer found hfind
        obtain ⟨hrest, hprefix, hwaiting⟩ := ih ht
        refine ⟨hrest, hprefix, fun o ho => ?_⟩
        rcases List.mem_cons.mp ho with rfl | ho
        · have hpath : found = path := by simpa using List.find?_some hfind
          exact hprefix.subset (hpath ▸ List.mem_of_find?_eq_some hfind)
        · exact hwaiting o ho
      · obtain ⟨hrest, hprefix, hwaiting⟩ := ih ⟨ht.toUnderway.read path, ht.waits⟩
        refine ⟨hrest, (List.prefix_append _ _).trans hprefix, fun o ho => ?_⟩
        rcases List.mem_cons.mp ho with rfl | ho
        · exact hprefix.subset (by simp [queueRead])
        · exact hwaiting o ho

theorem Timely.applyWorkspaceEdit {edit : WorkspaceEdit} (ht : Timely asked m)
    (ha : m.applyWorkspaceEdit h edit = some m') : Timely asked m' := by
  unfold Model.applyWorkspaceEdit at ha
  split_ifs at ha
  · exact Option.some.inj ha ▸ ht.outline rfl
  · exact Option.some.inj ha ▸ ht.outline rfl
  · split at ha
    · exact Option.some.inj ha ▸ ht.outline rfl
    · dsimp only at ha
      split at ha
      · exact Option.some.inj ha ▸ ht.outline rfl
      · split at ha
        · exact Option.some.inj ha ▸ ht.outline rfl
        · obtain ⟨hread, -, hwaiting⟩ :=
            queueTargets_timely ht (sortPaths (edit.edits.map (·.path)))
          refine finish_timely ?_ ha
          refine ⟨hread.opening, hread.low, hread.lowErrand, hread.apart, fun p hp => ?_⟩
          rw [← Option.some.inj hp]
          exact hwaiting

theorem Timely.onLspEvent {server : LspServerId} {event : LspEvent} (ht : Timely asked m)
    (he : m.onLspEvent h server event = some m') : Timely asked m' := by
  rcases onLspEvent_cases he with hb | ⟨lsp, hcase⟩
  · exact ht.outline (outline_of_bare hb.1)
  · have htold : Timely asked { m with lsp } := ht.outline rfl
    rcases hcase with ⟨location, rfl⟩ | ⟨edit, he⟩ | ⟨edits, he⟩
    · exact htold.openLspLocation location
    · exact htold.applyWorkspaceEdit he
    · exact htold.outline (applyTextEdits_outline he)

theorem Timely.acceptCodeAction {action : CodeAction} (ht : Timely asked m)
    (ha : m.acceptCodeAction h action = some m') : Timely asked m' := by
  unfold Model.acceptCodeAction at ha
  split at ha
  · exact ht.applyWorkspaceEdit ha
  · exact Option.some.inj ha ▸ ht.outline rfl

/-! ## Events between the answers -/

theorem onAgentEvent_timely {e : AgentEvent} (ht : Timely asked m)
    (he : m.onAgentEvent h e = some m') : Timely asked m' := by
  cases e with
  | sessionStarted session => exact Option.some.inj he ▸ ht.aloof (startSession_aloof h m session)
  | readFileRequested => exact Option.some.inj he ▸ ht.serveRead ..
  | proposedEdit => exact ht.aloof (receiveProposal_aloof he)
  | permissionRequested => exact ht.aloof (receivePermission_aloof he)
  | ready | modesAvailable | modeChanged | messageChunk | thoughtChunk | terminalRequest
  | terminalAttached | turnEnded | failed =>
    exact ht.rests (.of_desk (onAgentEvent_desk he trivial))

theorem cycleTab_rests (m : Model) (step : Int) : Rests m (m.cycleTab step) := by
  unfold cycleTab
  split_ifs
  · exact .refl m
  · split <;> exact ⟨rfl, fun _ h => h, rfl, Nat.le_refl _, List.prefix_rfl⟩

theorem discardBuffer_rests (m : Model) (id : BufferId) : Rests m (m.discardBuffer id) := by
  unfold discardBuffer
  split <;> exact ⟨rfl, fun _ h => h, rfl, Nat.le_refl _, List.prefix_rfl⟩

theorem closeTab_rests (m : Model) : Rests m m.closeTab := by
  unfold closeTab
  split
  · exact .of_outline rfl
  · split_ifs
    · exact .of_outline rfl
    · exact discardBuffer_rests m _

theorem saveActiveBuffer_rests (m : Model) : Rests m m.saveActiveBuffer := by
  unfold saveActiveBuffer
  split
  · exact .of_outline rfl
  · split
    · exact .of_outline rfl
    · split_ifs
      · exact .of_outline rfl
      · exact .send m _

theorem dispatchInner_timely {cmd : Command} (ht : Timely asked m)
    (hd : m.dispatchInner h cmd = some m') : Timely asked m' := by
  have hedit : ∀ {f : Buffer → Option (Buffer × Except EditError Unit)},
      m.editActive f = some m' → Timely asked m' := fun he => ht.outline (editActive_outline he)
  cases cmd with
  | save => exact Option.some.inj hd ▸ ht.rests (saveActiveBuffer_rests m)
  | restoreDrafts => exact ht.outline (applyRecoveryDrafts_outline hd)
  | reloadConfig => exact Option.some.inj hd ▸ ht.reloadConfig
  | cursor => exact Option.some.inj hd ▸ ht.outline (withBuffer_outline m _)
  | newline | backspace | deleteForward => exact hedit hd
  | undo | redo => exact ht.outline (replayActive_outline hd)
  | findNext | findPrev => exact ht.outline (stepMatch_outline hd)
  | nextTab | prevTab => exact Option.some.inj hd ▸ ht.rests (cycleTab_rests m _)
  | closeTab => exact Option.some.inj hd ▸ ht.rests (closeTab_rests m)
  | lspRestart =>
    refine Option.some.inj hd ▸ ht.outline ?_
    unfold restartLanguageServers
    split
    · split_ifs <;> rfl
    · rfl
  | proposalAccept | proposalReject => exact ht.aloof (resolveProposal_aloof hd)
  | agentAllowOnce | agentAllowAlways | agentDeny => exact ht.aloof (decidePermission_aloof hd)
  | find | replace | lspAtCursor | lspDocumentSymbols | lspWorkspaceSymbols | lspFormat | lspRename
  | lspCodeAction | agentSessionNew | agentPrompt | agentMode | terminalFocus | terminalNew
  | terminalRun | terminalNext | terminalPrevious | terminalRestart | terminalClose | focusPane
  | focusNext | focusPrev | closeOverlay | quit | other =>
    exact ht.rests (.of_desk (dispatchInner_desk hd trivial))

theorem confirmFile_rests (m : Model) (prompt : Prompt) (name : String) :
    Rests m (m.confirmFile prompt name) := by
  unfold confirmFile
  split_ifs
  · exact .of_outline rfl
  · exact .of_outline rfl
  · split
    · exact .send m _
    · exact .send m _
    · split
      · exact .send m _
      · exact .refl m
    · exact .send m _
    · exact .refl m

theorem confirmPrompt_timely {prompt : Prompt} (ht : Timely asked m)
    (hc : m.confirmPrompt h prompt = some m') : Timely asked m' := by
  have aside : prompt.kind.Aside → Timely asked m' := fun ha =>
    ht.rests (.of_desk (confirmPrompt_desk hc ha))
  cases hk : prompt.kind with
  | agentPrompt | terminalRun | gitCommit | lspRename | confirmCloseTerminal =>
    exact aside (by rw [hk]; trivial)
  | find =>
    simp only [confirmPrompt, hk] at hc
    split_ifs at hc
    · exact Option.some.inj hc ▸ ht.outline (clearFind_outline m)
    · exact ht.outline (runFind_outline hc)
  | replace =>
    simp only [confirmPrompt, hk] at hc
    exact ht.outline (replaceAll_outline hc)
  | confirmCloseBuffer buffer =>
    simp only [confirmPrompt, hk] at hc
    exact Option.some.inj hc ▸ ht.rests (discardBuffer_rests m buffer)
  | newFile | newDir | rename | confirmDelete =>
    simp only [confirmPrompt, hk] at hc
    exact Option.some.inj hc ▸ ht.rests (confirmFile_rests m prompt _)

theorem discardRecoveryDrafts_rests (h : Host) (m : Model) :
    Rests m (m.discardRecoveryDrafts h) := by
  unfold discardRecoveryDrafts
  split
  · rename_i drafts focus _
    dsimp only
    split
    · exact .of_outline rfl
    · rename_i dir _
      have hone : ∀ (m : Model) (d : Draft × Bool), Rests m
          ({ m with knownDrafts := m.knownDrafts.filter (· ≠ d.1.path) }.send
            (.remove (dir.join (h.draftFileName d.1.path)) false)) := fun m d =>
        ⟨rfl, fun _ h => h, rfl, Nat.le_refl _, List.prefix_append _ _⟩
      have hdown : Rests m { m with overlays := m.overlays.dropLast, focus := focus } :=
        .of_outline rfl
      exact hdown.trans (rests_foldl hone drafts _)
  · exact .of_outline rfl

theorem changed_rests (m : Model) (paths : List Path) : Rests m (m.reloadChangedBuffers paths) := by
  refine rests_foldl (fun m path => ?_) paths m
  unfold reloadChanged
  split
  · exact .refl m
  · split_ifs
    · exact .of_outline rfl
    · exact .send m _

theorem openWorkspace_rests (m : Model) (root : Path) (recipes : List ConfiguredRecipe) :
    Rests m (m.openWorkspace root recipes) :=
  ⟨rfl, fun _ h => h, rfl, Nat.le_refl _, List.prefix_append _ _⟩

theorem onChanged_timely {paths : List Path} (ht : Timely asked m)
    (hs : m.onFsEvent h (.changed paths) = some m') : Timely asked m' := by
  have hnotify : (m.notifyLspWatchedFiles paths).outline = m.outline := by
    unfold notifyLspWatchedFiles
    split
    · rfl
    · dsimp only
      split_ifs <;> rfl
  rw [onFsEvent] at hs
  rw [← Option.some.inj hs]
  split_ifs
  · exact (ht.outline hnotify).rests (changed_rests _ paths)
  · exact ht.outline hnotify

/-- **Events between the answers keep what is on its way.** -/
theorem step_timely {ev : Event} (ht : Timely asked m) (hev : ev.ofWorker = false)
    (hs : m.step h ev = some m') : Timely asked m' := by
  cases ev with
  | dispatch cmd =>
    obtain ⟨m₁, h₁, hs⟩ := Option.bind_eq_some_iff.mp hs
    have hquiet : Timely asked { m with notification := none } := ht.outline rfl
    exact (dispatchInner_timely hquiet h₁).outline (syncAll_outline hs)
  | typeChar c =>
    obtain ⟨m₁, h₁, hs⟩ := Option.bind_eq_some_iff.mp hs
    exact ht.outline ((syncAll_outline hs).trans ((editActive_outline h₁).trans rfl))
  | confirmPrompt prompt => exact confirmPrompt_timely ht hs
  | openFile path => exact Option.some.inj hs ▸ ht.openFile path
  | openFileAt => exact Option.some.inj hs ▸ ht.openFileAt _ _ _
  | navigateProblem path =>
    exact Option.some.inj hs ▸
      ht.rests ⟨rfl, fun _ h => h, rfl, Nat.le_refl _, List.prefix_append _ _⟩
  | openWorkspace root recipes =>
    exact Option.some.inj hs ▸ ht.rests (openWorkspace_rests m root recipes)
  | restoreSession w =>
    exact Option.some.inj hs ▸ (ht.rests (openWorkspace_rests m w.root w.configured)).reopen w
  | acceptSelectedRecoveryDrafts => exact ht.outline (applyRecoveryDrafts_outline hs)
  | discardRecoveryDrafts => exact Option.some.inj hs ▸ ht.rests (discardRecoveryDrafts_rests h m)
  | acceptCompletion item => exact ht.outline (acceptCompletion_outline hs)
  | acceptCodeAction action => exact ht.acceptCodeAction hs
  | openLspLocation location => exact Option.some.inj hs ▸ ht.openLspLocation location
  | applyTextEdits edits => exact ht.outline (applyTextEdits_outline hs)
  | applyWorkspaceEdit edit => exact ht.applyWorkspaceEdit hs
  | decidePermission decision => exact ht.aloof (decidePermission_aloof hs)
  | fs event =>
    cases event with
    | changed paths => exact onChanged_timely (h := h) ht hs
    | fileLoaded | fileSaved | fileFailed | pathResolved | pathResolveFailed | mutationFailed =>
      cases hev
  | agent event => exact onAgentEvent_timely ht hs
  | lsp server event => exact ht.onLspEvent hs
  | tick seconds =>
    have hlater : Timely asked { m with clock := m.clock + seconds } := ht.outline rfl
    exact Option.some.inj hs ▸ hlater.queueDueDrafts
  | takeFsRequests => cases hev
  | setOverlays | setAgentMode | typeTerminal | setTerminalSize | pty | shutdownTerminals
  | takeAgentRequests | takePtyRequests | takeLspRequests =>
    exact ht.rests (.of_desk (step_desk hs trivial))

/-! ## Answers -/

theorem Timely.tail {r : FsRequest} (ht : Timely (r :: asked) m)
    (hr : ∀ o ∈ m.opening, .readFile o.1 o.2 ≠ r) : Timely asked m := by
  refine ⟨⟨fun o ho => ?_, ht.low, ht.lowErrand, ht.apart, ht.waiting⟩, ht.waits⟩
  exact (List.mem_cons.mp (ht.opening o ho)).resolve_left (hr o ho)

theorem Timely.done {r : FsRequest} {b : BufferId} (ht : Timely (r :: asked) m)
    (hr : ∀ o : BufferId × Path, o.1 ≠ b → .readFile o.1 o.2 ≠ r) (hb : b ∈ m.errands) :
    Timely asked m :=
  ht.tail fun o ho => hr o fun heq => ht.apart o ho (heq ▸ hb)

/-- What is left when nothing more is being opened under an id, and no edit waits for it. -/
theorem Underway.drop {r : FsRequest} {b : BufferId} (hu : Underway (r :: asked) m)
    (hr : ∀ o : BufferId × Path, o.1 ≠ b → .readFile o.1 o.2 ≠ r)
    (hrest : Rests { m with opening := m.opening.filter (·.1 ≠ b), pendingWorkspaceEdit := none }
      { m' with pendingWorkspaceEdit := none })
    (hp : ∀ p, m'.pendingWorkspaceEdit = some p → ∃ p₀, m.pendingWorkspaceEdit = some p₀ ∧
      ∀ o ∈ p.waiting, o ∈ p₀.waiting ∧ o.1 ≠ b) : Underway asked m' := by
  have hleft : ∀ o, o ∈ m'.opening ↔ o ∈ m.opening ∧ o.1 ≠ b := fun o => by
    rw [show m'.opening = m.opening.filter (·.1 ≠ b) from hrest.opening, List.mem_filter,
      decide_eq_true_eq]
  constructor
  case opening =>
    intro o ho
    obtain ⟨ho, hne⟩ := (hleft o).mp ho
    have hread := (List.mem_cons.mp (hu.opening o ho)).resolve_left (hr o hne)
    exact (List.prefix_append_right_inj asked).mpr hrest.outbox |>.subset hread
  case low => exact fun o ho => (hu.low o ((hleft o).mp ho).1).trans hrest.next
  case lowErrand => exact fun id hid => (hu.lowErrand id (hrest.errands id hid)).trans hrest.next
  case apart => exact fun o ho hid => hu.apart o ((hleft o).mp ho).1 (hrest.errands _ hid)
  case waiting =>
    intro p hpend o ho
    obtain ⟨p₀, hp₀, hsub⟩ := hp p hpend
    obtain ⟨hmem, hne⟩ := hsub o ho
    exact (hleft o).mpr ⟨hu.waiting p₀ hp₀ o hmem, hne⟩

theorem Timely.refused {r : FsRequest} {b : BufferId} (ht : Timely (r :: asked) m)
    (hr : ∀ o : BufferId × Path, o.1 ≠ b → .readFile o.1 o.2 ≠ r)
    (hrest : Rests { m with opening := m.opening.filter (·.1 ≠ b), pendingWorkspaceEdit := none }
      { m' with pendingWorkspaceEdit := none })
    (hp : m'.pendingWorkspaceEdit = none ∨ m'.pendingWorkspaceEdit = m.pendingWorkspaceEdit ∧
      ¬ (m.pendingWorkspaceEdit.any fun p => p.waiting.any (·.1 = b)) = true) :
    Timely asked m' := by
  rcases hp with hnone | ⟨hsame, hfree⟩
  · exact ⟨ht.toUnderway.drop hr hrest (by simp [hnone]), by simp [Waits, hnone]⟩
  · refine ⟨ht.toUnderway.drop hr hrest fun p hpend => ?_, fun p hpend => ?_⟩
    · rw [hsame] at hpend
      refine ⟨p, hpend, fun o ho => ⟨ho, ?_⟩⟩
      rintro rfl
      refine hfree ?_
      rw [hpend, Option.any_some, List.any_eq_true]
      exact ⟨o, ho, decide_eq_true rfl⟩
    · rw [hsame] at hpend
      exact ht.waits p hpend

theorem arrived_timely {r : FsRequest} {b : BufferId} (ht : Timely (r :: asked) m)
    (hr : ∀ o : BufferId × Path, o.1 ≠ b → .readFile o.1 o.2 ≠ r)
    (hrest : Rests { m with opening := m.opening.filter (·.1 ≠ b) } m₁)
    (hf : (m₁.stopWaiting b).finishPendingWorkspaceEdit h = some m') : Timely asked m' := by
  refine finish_timely (ht.toUnderway.drop hr ?_ fun p hp => ?_) hf
  · exact ⟨hrest.opening, hrest.errands, rfl, hrest.next, hrest.outbox⟩
  · obtain ⟨p₀, hp₀, rfl⟩ := Option.map_eq_some_iff.mp hp
    refine ⟨p₀, hrest.edit.symm.trans hp₀, fun o ho => ?_⟩
    simpa using ho

theorem finishRestoredRead_rests (m : Model) (buffer : BufferId) :
    Rests m (m.finishRestoredRead buffer) := by
  unfold finishRestoredRead
  split <;> exact ⟨rfl, fun _ h => h, rfl, Nat.le_refl _, List.prefix_rfl⟩

theorem reloadBuffer_timely {i : ℕ} {old : Buffer} {b : BufferId} {path : Path} {text : Text}
    (ht : Timely (.readFile b path :: asked) m)
    (hf : { m with opening := m.opening.filter (·.1 ≠ b) }.reloadBuffer h i old b path text =
      some m') : Timely asked m' := by
  unfold reloadBuffer at hf
  obtain ⟨m₁, h₁, hf⟩ := Option.bind_eq_some_iff.mp hf
  refine arrived_timely ht (fun o ho heq => ho (FsRequest.readFile.inj heq).1) ?_ hf
  exact .of_outline ((syncAll_outline h₁).trans rfl)

theorem showLoaded_timely {b : BufferId} {path : Path} {text : Text} {restored : Bool}
    (ht : Timely (.readFile b path :: asked) m)
    (hf : { m with opening := m.opening.filter (·.1 ≠ b) }.showLoaded h b path text restored =
      some m') : Timely asked m' := by
  unfold showLoaded at hf
  obtain ⟨m₁, h₁, hf⟩ := Option.bind_eq_some_iff.mp hf
  refine arrived_timely ht (fun o ho heq => ho (FsRequest.readFile.inj heq).1) ?_ hf
  have hshow : Rests { m with opening := m.opening.filter (·.1 ≠ b) } m₁ := by
    refine Rests.trans ?_ (.of_outline (syncSyntax_outline h₁))
    split_ifs
    · refine Rests.trans ?_ (finishRestoredRead_rests _ b)
      exact .of_outline rfl
    · exact ⟨rfl, fun _ h => h, rfl, Nat.le_refl _, List.prefix_rfl⟩
    · exact ⟨rfl, fun _ h => h, rfl, Nat.le_refl _, List.prefix_rfl⟩
  refine Rests.trans ?_ (.of_outline (syncLspDocuments_outline _))
  split
  · split_ifs
    · refine (hshow.trans ?_).trans (positionOpenBuffer_rests _ _ _ _)
      exact ⟨rfl, fun _ h => h, rfl, Nat.le_refl _, List.prefix_rfl⟩
    · exact hshow
  · exact hshow

/-- A restored session and a pending edit both wait for the id. -/
def Jams (m : Model) (b : BufferId) : Prop :=
  (m.pendingSessionRestore.any (·.pending.contains b)) = true ∧
    (m.pendingWorkspaceEdit.any fun p => p.waiting.any (·.1 = b)) = true

instance (m : Model) (b : BufferId) : Decidable (m.Jams b) := inferInstanceAs (Decidable (_ ∧ _))

theorem abandon_rests (m : Model) (message : String) :
    (m.abandonPendingWorkspaceEdit message).pendingWorkspaceEdit = none ∧
      Rests { m with pendingWorkspaceEdit := none }
        { m.abandonPendingWorkspaceEdit message with pendingWorkspaceEdit := none } := by
  unfold abandonPendingWorkspaceEdit
  split
  · rename_i pending _
    have hback := restoreActiveBuffer_rests { m with pendingWorkspaceEdit := none }
      pending.previousActive
    exact ⟨hback.edit, hback.opening, hback.errands, rfl, hback.next, hback.outbox⟩
  · rename_i hnone
    exact ⟨hnone, .of_outline rfl⟩

theorem refuse_timely {r : FsRequest} {b : BufferId} (ht : Timely (r :: asked) m)
    (hr : ∀ o : BufferId × Path, o.1 ≠ b → .readFile o.1 o.2 ≠ r) (hj : ¬ m.Jams b)
    (note message quiet : String) :
    Timely asked
      (if (m.pendingSessionRestore.any (·.pending.contains b)) = true then
        ({ m with opening := m.opening.filter (·.1 ≠ b) }.finishRestoredRead b).appendNotification
          note
      else if (m.pendingWorkspaceEdit.any fun p => p.waiting.any (·.1 = b)) = true then
        { m with opening := m.opening.filter (·.1 ≠ b) }.abandonPendingWorkspaceEdit message
      else { m with opening := m.opening.filter (·.1 ≠ b) }.notify quiet) := by
  split_ifs with hrestored hwaited
  · have hrest := (finishRestoredRead_rests { m with opening := m.opening.filter (·.1 ≠ b) } b).trans
      (.of_outline (outline_appendNotification _ note))
    refine ht.refused hr ?_ (.inr ⟨hrest.edit, fun hw => hj ⟨hrestored, hw⟩⟩)
    exact ⟨hrest.opening, hrest.errands, rfl, hrest.next, hrest.outbox⟩
  · obtain ⟨hnone, hrest⟩ :=
      abandon_rests { m with opening := m.opening.filter (·.1 ≠ b) } message
    exact ht.refused hr hrest (.inl hnone)
  · exact ht.refused hr (.of_outline rfl) (.inr ⟨rfl, hwaited⟩)

theorem applyConfig_rests (h : Host) (m : Model) (kind : ConfigReloadKind) (contents : Option Text) :
    Rests m (m.applyConfig h kind contents) := by
  unfold applyConfig
  split <;> exact ⟨rfl, fun _ h => h, rfl, Nat.le_refl _, List.prefix_rfl⟩

theorem mem_errands_config {b : BufferId} {c : PendingConfigReload}
    (hc : m.pendingConfigReloads.find? (·.buffer = b) = some c) : b ∈ m.errands := by
  have hb : c.buffer = b := by simpa using List.find?_some hc
  refine List.mem_append_left _ (List.mem_append_right _ (List.mem_map.mpr ⟨c, ?_, hb⟩))
  exact List.mem_of_find?_eq_some hc

theorem mem_errands_agent {b : BufferId} {a : PendingAgentRead}
    (ha : m.pendingAgentReads.find? (·.buffer = b) = some a) : b ∈ m.errands := by
  have hb : a.buffer = b := by simpa using List.find?_some ha
  exact List.mem_append_right _ (List.mem_map.mpr ⟨a, List.mem_of_find?_eq_some ha, hb⟩)

theorem mem_errands_draft {b : BufferId} {d : BufferId × Path}
    (hd : m.pendingDraftWrites.find? (·.1 = b) = some d) : b ∈ m.errands := by
  have hb : d.1 = b := by simpa using List.find?_some hd
  refine List.mem_append_left _ (List.mem_append_left _ (List.mem_map.mpr ⟨d, ?_, hb⟩))
  exact List.mem_of_find?_eq_some hd

theorem config_rests (m : Model) (b : BufferId) :
    Rests m { m with pendingConfigReloads := m.pendingConfigReloads.eraseP (·.buffer = b) } := by
  refine ⟨rfl, fun id hid => ?_, rfl, Nat.le_refl _, List.prefix_rfl⟩
  simp only [errands, List.mem_append] at hid ⊢
  exact hid.imp_left (.imp_right fun hc => ((List.eraseP_sublist).map _).subset hc)

theorem agentRead_rests (m : Model) (b : BufferId) (r : AgentRequest) :
    Rests m (Model.reply
      { m with pendingAgentReads := m.pendingAgentReads.eraseP (·.buffer = b) } r) := by
  refine ⟨rfl, fun id hid => ?_, rfl, Nat.le_refl _, List.prefix_rfl⟩
  simp only [errands, Model.reply, List.mem_append] at hid ⊢
  exact hid.imp_right fun hc => ((List.eraseP_sublist).map _).subset hc

theorem draft_rests (m : Model) (b : BufferId) :
    Rests m { m with pendingDraftWrites := m.pendingDraftWrites.filter (·.1 ≠ b) } := by
  refine ⟨rfl, fun id hid => ?_, rfl, Nat.le_refl _, List.prefix_rfl⟩
  simp only [errands, List.mem_append] at hid ⊢
  exact hid.imp_left (.imp_left fun hc => ((List.filter_sublist).map _).subset hc)

/-- **A file that was read is no longer on its way**, and no edit waits for it. -/
theorem fileLoaded_timely {b : BufferId} {path : Path} {contents : Option Text}
    (ht : Timely (.readFile b path :: asked) m) (hj : contents = none → ¬ m.Jams b)
    (hf : m.fileLoaded h b path contents = some m') : Timely asked m' := by
  have hr : ∀ o : BufferId × Path, o.1 ≠ b → FsRequest.readFile o.1 o.2 ≠ .readFile b path :=
    fun o ho heq => ho (FsRequest.readFile.inj heq).1
  unfold fileLoaded at hf
  split at hf
  · rename_i c hc
    rw [← Option.some.inj hf]
    exact (ht.done hr (mem_errands_config hc)).rests
      ((config_rests m b).trans (applyConfig_rests h _ _ _))
  · split at hf
    · rename_i a ha
      rw [← Option.some.inj hf]
      exact (ht.done hr (mem_errands_agent ha)).rests (agentRead_rests m b _)
    · dsimp only at hf
      split at hf
      · rw [← Option.some.inj hf]
        exact refuse_timely ht hr (hj rfl) _ _ _
      · split at hf
        · exact reloadBuffer_timely ht hf
        · exact showLoaded_timely ht hf

/-- **A read or a write that failed.** -/
theorem fileFailed_timely {r : FsRequest} {b : BufferId} {error : FsError}
    (ht : Timely (r :: asked) m)
    (hr : ∀ o : BufferId × Path, o.1 ≠ b → .readFile o.1 o.2 ≠ r) (hj : ¬ m.Jams b) :
    Timely asked (m.fileFailed h b error) := by
  unfold fileFailed
  split
  · rename_i d source hd
    exact (ht.done hr (mem_errands_draft hd)).rests
      ((draft_rests m b).trans (.of_outline (outline_appendNotification _ _)))
  · split
    · rename_i c hc
      exact (ht.done hr (mem_errands_config hc)).rests
        ((config_rests m b).trans (applyConfig_rests h _ _ _))
    · split
      · rename_i a ha
        exact (ht.done hr (mem_errands_agent ha)).rests (agentRead_rests m b _)
      · exact refuse_timely ht hr hj _ _ _

theorem fileSaved_rests (h : Host) (m : Model) (b : BufferId) (version : Version) :
    Rests m (m.fileSaved h b version) := by
  unfold fileSaved
  split
  · refine (draft_rests m b).trans ⟨rfl, fun _ h => h, rfl, Nat.le_refl _, List.prefix_rfl⟩
  · split
    · exact .refl m
    · dsimp only
      split
      · exact .of_outline rfl
      · split
        · split_ifs
          · exact ⟨rfl, fun _ h => h, rfl, Nat.le_refl _, List.prefix_append _ _⟩
          · exact ⟨rfl, fun _ h => h, rfl, Nat.le_refl _, List.prefix_rfl⟩
        · exact ⟨rfl, fun _ h => h, rfl, Nat.le_refl _, List.prefix_rfl⟩

theorem onFsEvent_timely {e : FsEvent} (ht : Timely asked m) (hs : m.onFsEvent h e = some m')
    (hload : ∀ b path contents, e ≠ .fileLoaded b path contents)
    (hfail : ∀ b error, e ≠ .fileFailed b error) : Timely asked m' := by
  cases e with
  | changed paths => exact onChanged_timely ht hs
  | fileLoaded => exact absurd rfl (hload _ _ _)
  | fileFailed => exact absurd rfl (hfail _ _)
  | fileSaved b version => exact Option.some.inj hs ▸ ht.rests (fileSaved_rests h m b version)
  | mutationFailed error =>
    rw [← Option.some.inj hs]
    split_ifs
    · exact ht.outline rfl
    · exact ht
  | pathResolveFailed request path error =>
    rw [onFsEvent] at hs
    split_ifs at hs
    · exact Option.some.inj hs ▸ ht.rests ⟨rfl, fun _ h => h, rfl, Nat.le_refl _, List.prefix_rfl⟩
    · exact Option.some.inj hs ▸ ht
  | pathResolved request path =>
    have hdone : Timely asked { m with pendingProblemNavigation := none } :=
      ht.rests ⟨rfl, fun _ h => h, rfl, Nat.le_refl _, List.prefix_rfl⟩
    rw [onFsEvent] at hs
    split at hs
    · exact Option.some.inj hs ▸ ht
    · dsimp only at hs
      split at hs
      · exact Option.some.inj hs ▸ ht
      · split at hs
        · exact Option.some.inj hs ▸ hdone.openFileAt _ _ _
        · exact Option.some.inj hs ▸ hdone.outline rfl

end Model

namespace World

open Model

variable {h : Host} {w w' : World} {d : Deed}

/-- Nothing was asked yet. -/
def Idle (w : World) : Prop :=
  w.inFlight = [] ∧ w.model.opening = [] ∧ w.model.errands = [] ∧
    w.model.pendingWorkspaceEdit = none

/-- The answer fails no read that a restored session and a pending edit both wait for. -/
def smooth (w : World) : Deed → Bool
  | .answer (some (.fileFailed b _)) | .answer (some (.fileLoaded b _ none)) =>
    !decide (w.model.Jams b)
  | _ => true

theorem Idle.timely (hi : w.Idle) : Timely w.inFlight w.model := by
  obtain ⟨-, hopening, herrands, hnone⟩ := hi
  exact ⟨⟨by simp [hopening], by simp [hopening], by simp [herrands], by simp [hopening],
    by simp [hnone]⟩, by simp [Waits, hnone]⟩

theorem answer_timely {r : FsRequest} {rest : List FsRequest} {e : FsEvent} {m' : Model}
    (ht : Timely (r :: rest) w.model) (ha : r.answeredBy (some e) = true)
    (hok : w.smooth (.answer (some e)) = true) (hs : w.model.onFsEvent h e = some m') :
    Timely rest m' := by
  have hother : (∀ b path, r ≠ .readFile b path) → Timely rest w.model := fun hr =>
    ht.tail fun o _ heq => hr _ _ heq.symm
  cases e with
  | fileLoaded b path contents =>
    cases r with
    | readFile id file =>
      obtain ⟨rfl, rfl⟩ : b = id ∧ path = file := by simpa [FsRequest.answeredBy] using ha
      refine fileLoaded_timely ht ?_ hs
      rintro rfl
      simpa [smooth] using hok
    | writeFile | resolvePath | watch | createFile | createDir | rename | remove | shutdown =>
      cases ha
  | fileFailed b error =>
    have hj : ¬ w.model.Jams b := by simpa [smooth] using hok
    have hr : ∀ o : BufferId × Path, o.1 ≠ b → .readFile o.1 o.2 ≠ r := by
      rintro o ho rfl
      have heq : b = o.1 := by simpa [FsRequest.answeredBy] using ha
      exact ho heq.symm
    exact Option.some.inj hs ▸ fileFailed_timely ht hr hj
  | changed | mutationFailed | fileSaved | pathResolved | pathResolveFailed =>
    refine onFsEvent_timely (hother ?_) hs (by simp) (by simp)
    rintro b path rfl
    simp [FsRequest.answeredBy] at ha

/-- **A deed keeps what is on its way.** -/
theorem step_keeps_timely (ht : Timely w.inFlight w.model) (hok : w.smooth d = true)
    (hs : w.step h d = some w') : Timely w'.inFlight w'.model := by
  cases d with
  | event ev =>
    rw [World.step] at hs
    split_ifs at hs with hworker
    obtain ⟨m', hm, rfl⟩ := Option.map_eq_some_iff.mp hs
    exact step_timely ht (by simpa using hworker) hm
  | take =>
    rw [← Option.some.inj hs]
    refine ⟨⟨fun o ho => ?_, ht.low, ht.lowErrand, ht.apart, ht.waiting⟩, ht.waits⟩
    exact List.mem_append_left _ (ht.opening o ho)
  | answer reply =>
    unfold World.step at hs
    dsimp only at hs
    split at hs
    · cases hs
    · rename_i r rest hflight
      split_ifs at hs with hanswered
      obtain ⟨m', hm, rfl⟩ := Option.map_eq_some_iff.mp hs
      rw [hflight] at ht
      cases reply with
      | some e => exact answer_timely ht hanswered hok hm
      | none =>
        obtain rfl : w.model = m' := Option.some.inj hm
        refine ht.tail ?_
        rintro o - rfl
        cases hanswered

/-- **A pending edit is never stuck.** It waits for reads without an answer, and once every read is
answered there is none. -/
theorem edit_never_stuck (h : Host)
    (hr : Runs.Reach (World.step h) (fun w d => w.smooth d = true) Idle w) :
    (∀ p, w.model.pendingWorkspaceEdit = some p →
      ∀ o ∈ p.waiting, .readFile o.1 o.2 ∈ w.unanswered) ∧
    ((∀ b path, .readFile b path ∉ w.unanswered) → w.model.pendingWorkspaceEdit = none) := by
  have ht : Timely w.inFlight w.model :=
    hr.inv (fun _ => Idle.timely) fun _ _ _ ht hok hs => step_keeps_timely ht hok hs
  have hasked : ∀ p, w.model.pendingWorkspaceEdit = some p →
      ∀ o ∈ p.waiting, .readFile o.1 o.2 ∈ w.unanswered := fun p hp o ho =>
    ht.opening o (ht.waiting p hp o ho)
  refine ⟨hasked, fun hnone => ?_⟩
  by_contra hsome
  obtain ⟨p, hp⟩ := Option.ne_none_iff_exists'.mp hsome
  obtain ⟨o, ho⟩ := List.exists_mem_of_ne_nil _ (ht.waits p hp)
  exact hnone _ _ (hasked p hp o ho)

/-! ## A rename in a file that is being restored -/

def restoredNote : Path := [.rootDir, .normal "w", .normal "n.md"]

/-- An edit of the note, which is not open yet. -/
def noteRename : WorkspaceEdit := ⟨[⟨restoredNote, ⟨⟨0, 0⟩, ⟨0, 1⟩⟩, ['b']⟩], []⟩

/-- A session with the note is restored, and a server's edit of it waits for the same read. -/
def restoring : List Deed :=
  [.event (.restoreSession ⟨[.rootDir, .normal "w"], [], [restoredNote], none, []⟩),
    .event (.applyWorkspaceEdit noteRename), .take, .answer none]

/-- The note is gone. -/
def restoreFailed : List Deed :=
  restoring ++ [.answer (some (.fileFailed ⟨1⟩ (.notFound restoredNote)))]

def waitingNote : World :=
  (Runs.checkedRun (World.step Host.plain) smooth { model := {} } restoring).get (by decide)

def stuckNote : World :=
  (Runs.run (World.step Host.plain) { model := {} } restoreFailed).get (by decide)

theorem edit_never_stuck_note :
    (∀ p, waitingNote.model.pendingWorkspaceEdit = some p →
      ∀ o ∈ p.waiting, .readFile o.1 o.2 ∈ waitingNote.unanswered) ∧
    ((∀ b path, .readFile b path ∉ waitingNote.unanswered) →
      waitingNote.model.pendingWorkspaceEdit = none) :=
  edit_never_stuck Host.plain (.of_checkedRun (fun _ _ h => h) restoring
    (.start ⟨rfl, rfl, rfl, rfl⟩) (Option.some_get _).symm)

/-- **An edit that is stuck.** The restored file is missing, and nothing tells the edit. -/
theorem edit_stuck :
    ¬ ∀ (h : Host) (w : World), Runs.Reach (World.step h) (fun _ _ => True) Idle w →
      (∀ p, w.model.pendingWorkspaceEdit = some p →
        ∀ o ∈ p.waiting, .readFile o.1 o.2 ∈ w.unanswered) ∧
      ((∀ b path, .readFile b path ∉ w.unanswered) → w.model.pendingWorkspaceEdit = none) := by
  intro hall
  have hreach : Runs.Reach (World.step Host.plain) (fun _ _ => True) Idle stuckNote :=
    .of_run (fun _ _ => trivial) restoreFailed (.start ⟨rfl, rfl, rfl, rfl⟩)
      (Option.some_get _).symm
  have hanswered : stuckNote.unanswered = [] := by decide
  have hnone := (hall _ _ hreach).2 (by simp [hanswered])
  revert hnone
  decide

end World

end App

end Termesh
