import Termesh.App.TerminalTabs
import Termesh.App.OnDisk

/-!
# Tabs

The open buffers and the one on screen are a row of tabs, as the terminals are. A buffer that is
closed leaves the tab before it on screen, whichever was there.

* `bufferRow`, `finish_keeps`, `showLoaded_keeps`: opening and editing keep the buffers;
* **`step_buffers`**: every event keeps the buffers, or closes one;
* `Tidy`, **`tabs_follow`**: the steps after which both rows are valid and follow the tab on screen;
* **`tab_lost`**: a buffer in the background is closed, and another one comes on screen.
-/

namespace Termesh

namespace App.Model

open Tabs Buffer Document

variable {T : Prop} {P : Document → Selection → Prop} {h : Host} {m m' m₁ : Model}

/-- The tabs of the buffers. -/
def bufferRow (m : Model) : Row BufferId := ⟨m.buffers.map (·.id), m.activeBuffer⟩

theorem length_bufferRow (m : Model) : m.bufferRow.tabs.length = m.buffers.length :=
  List.length_map _

theorem row_of_works (hw : List.Forall₂ (Works T P) m.buffers m'.buffers)
    (ha : m'.activeBuffer = m.activeBuffer) : m'.bufferRow = m.bufferRow := by
  rw [bufferRow, bufferRow, ha, map_id_later (forall₂_later hw)]

theorem Worked.row (hw : Worked T P m m') (ho : m'.outline = m.outline) :
    m.bufferRow.Keeps m'.bufferRow :=
  .of_eq (row_of_works hw.1 (show m'.outline.activeBuffer = m.outline.activeBuffer by rw [ho]))

theorem row_of_aloof (hw : Worked T P m m') (ha : m'.aloof = m.aloof) :
    m.bufferRow.Keeps m'.bufferRow :=
  .of_eq (row_of_works hw.1 (show m'.aloof.activeBuffer = m.aloof.activeBuffer by rw [ha]))

theorem row_of_desk (hd : m'.desk = m.desk) : m.bufferRow.Keeps m'.bufferRow :=
  row_of_aloof (T := True) (P := fun _ _ => True) (.of_desk hd) (aloof_of_desk hd)

theorem row_of_still (hs : Still m m') (ha : m'.activeBuffer = m.activeBuffer) :
    m.bufferRow.Keeps m'.bufferRow := by
  refine .of_eq ?_
  rw [bufferRow, bufferRow, ha, hs.1]

theorem active_foldl {α : Type*} {f : Model → α → Model}
    (hf : ∀ m a, (f m a).activeBuffer = m.activeBuffer) (l : List α) (m : Model) :
    (l.foldl f m).activeBuffer = m.activeBuffer := by
  induction l generalizing m with
  | nil => rfl
  | cons a l ih => rw [List.foldl_cons, ih, hf]

theorem row_select {i : ℕ} (hb : m'.buffers.map (·.id) = m.buffers.map (·.id))
    (hi : i < m.buffers.length) (ha : m'.activeBuffer = some i) : m.bufferRow.Keeps m'.bufferRow := by
  have hselect := Row.keeps_select (r := m.bufferRow) ((length_bufferRow m).symm ▸ hi)
  rwa [show m'.bufferRow = { m.bufferRow with active := some i } from by rw [bufferRow, hb, ha]; rfl]

/-! ## Opening -/

theorem openFile_keeps (m : Model) (path : Path) :
    m.bufferRow.Keeps (m.openFile path).bufferRow := by
  unfold openFile
  split
  · rename_i i hi
    obtain ⟨hlt, -⟩ := List.findIdx?_eq_some_iff_getElem.mp hi
    exact row_select rfl hlt rfl
  · split_ifs <;> exact .refl _

theorem positionOpenBuffer_keeps (m : Model) (path : Path) (line column : ℕ) :
    m.bufferRow.Keeps (m.positionOpenBuffer path line column).1.bufferRow := by
  unfold positionOpenBuffer
  split
  · exact .refl _
  · rename_i i b hl
    obtain ⟨hlt, -⟩ := List.getElem?_eq_some_iff.mp (located_some hl).1
    refine row_select ?_ hlt rfl
    exact map_id_set_id (located_some hl).1 rfl

theorem openFileAt_keeps (m : Model) (path : Path) (line column : ℕ) :
    m.bufferRow.Keeps (m.openFileAt path line column).bufferRow := by
  have hpos := positionOpenBuffer_keeps m path line column
  unfold openFileAt
  split
  · rename_i m₁ heq
    rwa [heq] at hpos
  · rename_i m₁ heq
    rw [heq] at hpos
    have hjump : m₁.bufferRow.Keeps
        { m₁ with pendingOpenLocation := some (path, line, column) }.bufferRow := .refl _
    exact (hpos.trans hjump).trans (openFile_keeps _ path)

theorem openLspLocation_keeps (m : Model) (location : Location) :
    m.bufferRow.Keeps (m.openLspLocation location).bufferRow := by
  unfold openLspLocation
  split_ifs
  · exact openFileAt_keeps ..
  · exact .refl _

theorem openRestored_keeps (m : Model) (paths : List Path) :
    m.bufferRow.Keeps (m.openRestored paths).1.bufferRow := by
  induction paths generalizing m with
  | nil => exact .refl _
  | cons path rest ih => exact (openFile_keeps m path).trans (ih _)

theorem restoreSession_keeps (h : Host) (m : Model) (w : RestoredWorkspace) :
    m.bufferRow.Keeps (m.restoreSession h w).bufferRow := by
  have hread := openRestored_keeps (m.openWorkspace w.root w.configured) w.openPaths
  have hterm : ∀ (ts : List Path) (m₁ : Model), m.bufferRow.Keeps m₁.bufferRow →
      m.bufferRow.Keeps (ts.foldl (fun m cwd =>
        m.createTerminal (h.shell cwd) .humanShell) m₁).bufferRow := by
    intro ts
    induction ts with
    | nil => exact fun m₁ hm => hm
    | cons t ts ih => exact fun m₁ hm => ih _ (hm.trans (row_of_desk (createTerminal_desk ..)))
  unfold restoreSession
  dsimp only
  split_ifs
  · exact hterm w.terminals _ hread
  · exact hterm w.terminals _ hread

theorem cycleTab_keeps (m : Model) (step : Int) :
    m.bufferRow.Keeps (m.cycleTab step).bufferRow := by
  unfold cycleTab
  split_ifs with hfew
  · exact .refl _
  · split
    · exact .refl _
    · rename_i current _
      refine row_select rfl ?_ rfl
      have hmod := Int.emod_lt_of_pos (current + step)
        (show (0 : ℤ) < m.buffers.length by omega)
      omega

theorem restoreActiveBuffer_keeps (m : Model) (b : Option BufferId) :
    m.bufferRow.Keeps (m.restoreActiveBuffer b).bufferRow := by
  unfold restoreActiveBuffer
  split
  · rename_i i hi
    obtain ⟨id, -, hi⟩ := Option.bind_eq_some_iff.mp hi
    obtain ⟨hlt, -⟩ := List.findIdx?_eq_some_iff_getElem.mp hi
    exact row_select rfl hlt rfl
  · exact .refl _

/-! ## Server edits -/

/-- An edit that is finished may put the tab back that was on screen. -/
theorem finish_keeps (hf : m.finishPendingWorkspaceEdit h = some m') :
    m.bufferRow.Keeps m'.bufferRow := by
  have hids := map_id_later (forall₂_later
    (finishPendingWorkspaceEdit_worked (P := fun _ _ => True) hf).1)
  rcases finishPendingWorkspaceEdit_cases hf with ⟨rfl, -⟩ | ⟨changes, m₁, r, hx, hactive⟩
  · exact .refl _
  · have hm₁ : m.bufferRow.Keeps m₁.bufferRow := by
      have happly := (applyPrepared_worked (P := fun _ _ => True) hx).row (applyPrepared_outline hx)
      exact happly
    have hids₁ := map_id_later (forall₂_later (applyPrepared_worked (P := fun _ _ => True) hx).1)
    have hrow : ∀ m₂ : Model, m₂.buffers = m₁.buffers → m'.outline = m₂.outline →
        m'.bufferRow = m₂.bufferRow := by
      intro m₂ hb ho
      have ha : m'.activeBuffer = m₂.activeBuffer :=
        show m'.outline.activeBuffer = m₂.outline.activeBuffer by rw [ho]
      rw [bufferRow, bufferRow, hids, ha, hb, hids₁]
    rcases hactive with hsame | ⟨b, hback⟩
    · exact hm₁.trans (.of_eq (hrow m₁ rfl hsame))
    · refine (hm₁.trans (restoreActiveBuffer_keeps m₁ b)).trans (.of_eq (hrow _ ?_ hback))
      exact (restoreActiveBuffer_still m₁ b).1

theorem queueTargets_keeps (m : Model) (paths : List Path) :
    m.bufferRow.Keeps (m.queueTargets paths).1.bufferRow := by
  refine row_of_still (queueTargets_still m paths) ?_
  induction paths generalizing m with
  | nil => rfl
  | cons path rest ih =>
    unfold queueTargets
    split_ifs
    · exact ih m
    · split
      · exact ih m
      · exact (ih _).trans rfl

theorem applyWorkspaceEdit_keeps {edit : WorkspaceEdit}
    (ha : m.applyWorkspaceEdit h edit = some m') : m.bufferRow.Keeps m'.bufferRow := by
  unfold applyWorkspaceEdit at ha
  split_ifs at ha
  · exact Option.some.inj ha ▸ .refl _
  · exact Option.some.inj ha ▸ .refl _
  · split at ha
    · exact Option.some.inj ha ▸ .refl _
    · dsimp only at ha
      split at ha
      · exact Option.some.inj ha ▸ .refl _
      · split at ha
        · exact Option.some.inj ha ▸ .refl _
        · have hread := queueTargets_keeps m (sortPaths (edit.edits.map (·.path)))
          have hdone := finish_keeps ha
          exact hread.trans hdone

theorem applyTextEdits_keeps {edits : List TextEdit} (ha : m.applyTextEdits h edits = some m') :
    m.bufferRow.Keeps m'.bufferRow :=
  (applyTextEdits_worked (P := fun _ _ => True) ha).row (applyTextEdits_outline ha)

theorem onLspEvent_keeps {server : LspServerId} {event : LspEvent}
    (he : m.onLspEvent h server event = some m') : m.bufferRow.Keeps m'.bufferRow := by
  rcases onLspEvent_cases he with hb | ⟨lsp, ⟨location, rfl⟩ | ⟨edit, he⟩ | ⟨edits, he⟩⟩
  · exact (Worked.of_bare (T := True) (P := fun _ _ => True) hb.1).row (outline_of_bare hb.1)
  · exact openLspLocation_keeps { m with lsp } location
  · exact applyWorkspaceEdit_keeps (m := { m with lsp }) he
  · exact applyTextEdits_keeps (m := { m with lsp }) he

theorem acceptCodeAction_keeps {action : CodeAction}
    (ha : m.acceptCodeAction h action = some m') : m.bufferRow.Keeps m'.bufferRow := by
  unfold acceptCodeAction at ha
  split at ha
  · exact applyWorkspaceEdit_keeps ha
  · exact Option.some.inj ha ▸ .refl _

/-! ## Files -/

/-- A restored session's tabs are put in order, and one of them on screen. -/
theorem finishRestoredRead_valid {restore : PendingSessionRestore}
    (hr : m.pendingSessionRestore = some restore) (buffer : BufferId) :
    (m.finishRestoredRead buffer).bufferRow.Valid := by
  unfold finishRestoredRead
  rw [hr]
  dsimp only
  generalize m.buffers.insertionSort (fun a b =>
    restoreKey restore.order a ≤ restoreKey restore.order b) = sorted
  have hlen : (sorted.map (·.id)).length = sorted.length := List.length_map _
  cases hi : restore.active.bind fun path => sorted.findIdx? fun b => b.path = some path with
  | some i =>
    obtain ⟨path, -, hfound⟩ := Option.bind_eq_some_iff.mp hi
    obtain ⟨hlt, -⟩ := List.findIdx?_eq_some_iff_getElem.mp hfound
    exact Row.valid_some (hlen.symm ▸ hlt)
  | none =>
    by_cases hnil : sorted = []
    · subst hnil
      simp [bufferRow, Row.Valid]
    · simp only [bufferRow, if_neg hnil]
      have hpos := List.length_pos_of_ne_nil hnil
      exact Row.valid_some (by rw [hlen]; omega)

theorem finishRestoredRead_keeps (m : Model) (buffer : BufferId) :
    m.bufferRow.Keeps (m.finishRestoredRead buffer).bufferRow := by
  cases hr : m.pendingSessionRestore with
  | none =>
    refine .of_eq ?_
    unfold finishRestoredRead
    rw [hr]
  | some restore =>
    exact Row.keeps_perm ((finishRestoredRead_perm m buffer).map _)
      (finishRestoredRead_valid hr buffer)

theorem stopWaiting_keeps {buffer : BufferId}
    (hf : (m.stopWaiting buffer).finishPendingWorkspaceEdit h = some m') :
    m.bufferRow.Keeps m'.bufferRow := by
  have hdone := finish_keeps hf
  exact hdone

theorem reloadBuffer_keeps {i : ℕ} {old : Buffer} {buffer : BufferId} {path : Path} {text : Text}
    (hold : m.buffers[i]? = some old) (hid : old.id = buffer)
    (hr : m.reloadBuffer h i old buffer path text = some m') : m.bufferRow.Keeps m'.bufferRow := by
  unfold reloadBuffer at hr
  obtain ⟨m₁, h₁, hr⟩ := Option.bind_eq_some_iff.mp hr
  refine Row.Keeps.trans ?_ (stopWaiting_keeps hr)
  refine Row.Keeps.trans (.of_eq ?_)
    ((syncAll_worked (T := True) (P := fun _ _ => True) h₁).row (syncAll_outline h₁))
  exact congrArg (Row.mk · m.activeBuffer) (map_id_set_id hold hid.symm)

/-- A file that is opened comes behind the other tabs, and on screen unless a session is restored. -/
theorem showLoaded_keeps {buffer : BufferId} {path : Path} {text : Text} {restored : Bool}
    (hrestored : restored = true → ∃ restore, m.pendingSessionRestore = some restore)
    (hs : m.showLoaded h buffer path text restored = some m') : m.bufferRow.Keeps m'.bufferRow := by
  let opened : Model := { m with buffers := m.buffers ++ [fromText buffer (some path) text] }
  have hids : opened.bufferRow.tabs = m.bufferRow.tabs ++ [buffer] := List.map_append
  unfold showLoaded at hs
  obtain ⟨m₁, h₁, hs⟩ := Option.bind_eq_some_iff.mp hs
  have hshown : m.bufferRow.Keeps m₁.bufferRow := by
    refine Row.Keeps.trans ?_ ((Worked.of_bare (T := True) (P := fun _ _ => True)
      (syncSyntax_bare h₁)).row (syncSyntax_outline h₁))
    cases restored with
    | true =>
      obtain ⟨restore, hr⟩ := hrestored rfl
      have hperm : (opened.finishRestoredRead buffer).bufferRow.tabs.Perm opened.bufferRow.tabs :=
        (finishRestoredRead_perm opened buffer).map _
      refine ⟨fun id hid => hperm.symm.subset ?_,
        fun _ => finishRestoredRead_valid (m := opened) hr buffer⟩
      rw [hids]
      exact List.mem_append_left _ hid
    | false =>
      have hopen := Row.keeps_append m.bufferRow buffer
      rw [← hids, length_bufferRow] at hopen
      have hlast : opened.buffers.length - 1 = m.buffers.length := by
        rw [show opened.buffers = m.buffers ++ [_] from rfl, List.length_append]
        rfl
      rw [← hlast] at hopen
      exact hopen
  have hplaced : ∀ m₂ : Model, m.bufferRow.Keeps m₂.bufferRow →
      (m₂.syncLspDocuments.stopWaiting buffer).finishPendingWorkspaceEdit h = some m' →
      m.bufferRow.Keeps m'.bufferRow := by
    intro m₂ h₂ hs
    have hsynced : m₂.bufferRow.Keeps m₂.syncLspDocuments.bufferRow :=
      (Worked.of_bare (T := True) (P := fun _ _ => True) (syncLspDocuments_bare m₂)).row
        (syncLspDocuments_outline m₂)
    exact (h₂.trans hsynced).trans (stopWaiting_keeps hs)
  dsimp only at hs
  split at hs
  · split_ifs at hs
    · have hcleared : m.bufferRow.Keeps { m₁ with pendingOpenLocation := none }.bufferRow := hshown
      exact hplaced _ (hcleared.trans (positionOpenBuffer_keeps _ path _ _)) hs
    · exact hplaced _ hshown hs
  · exact hplaced _ hshown hs

theorem abandonPendingWorkspaceEdit_keeps (m : Model) (message : String) :
    m.bufferRow.Keeps (m.abandonPendingWorkspaceEdit message).bufferRow := by
  unfold abandonPendingWorkspaceEdit
  split
  · rename_i pending _
    have hback := restoreActiveBuffer_keeps { m with pendingWorkspaceEdit := none }
      pending.previousActive
    exact hback
  · exact .refl _

theorem appendNotification_row (m : Model) (s : String) :
    (m.appendNotification s).bufferRow = m.bufferRow := by
  unfold appendNotification
  split
  · split_ifs <;> rfl
  · rfl

theorem refuseLoaded_keeps (m : Model) (buffer : BufferId) (path : Path) (restored : Bool) :
    m.bufferRow.Keeps (m.refuseLoaded buffer path restored).bufferRow := by
  unfold refuseLoaded
  dsimp only
  split_ifs
  · rw [appendNotification_row]
    exact finishRestoredRead_keeps m buffer
  · exact abandonPendingWorkspaceEdit_keeps m _
  · exact .refl _

theorem applyConfig_keeps (h : Host) (m : Model) (kind : ConfigReloadKind) (c : Option Text) :
    m.bufferRow.Keeps (m.applyConfig h kind c).bufferRow := by
  unfold applyConfig
  split <;> exact .refl _

theorem fileLoaded_keeps {buffer : BufferId} {path : Path} {contents : Option Text}
    (hs : m.fileLoaded h buffer path contents = some m') : m.bufferRow.Keeps m'.bufferRow := by
  unfold fileLoaded at hs
  split at hs
  · rename_i pending _
    rw [← Option.some.inj hs]
    exact applyConfig_keeps h { m with
      pendingConfigReloads := m.pendingConfigReloads.eraseP (·.buffer = buffer) } pending.kind contents
  · split at hs
    · exact Option.some.inj hs ▸ .refl _
    · dsimp only at hs
      split at hs
      · rw [← Option.some.inj hs]
        exact refuseLoaded_keeps { m with opening := m.opening.filter (·.1 ≠ buffer) } buffer path _
      · split at hs
        · rename_i i old hidx
          obtain ⟨j, hj, hidx⟩ := Option.bind_eq_some_iff.mp hidx
          obtain ⟨b, hb, hx⟩ := Option.map_eq_some_iff.mp hidx
          obtain ⟨rfl, rfl⟩ := Prod.mk.inj hx
          exact reloadBuffer_keeps (m := { m with opening := m.opening.filter (·.1 ≠ buffer) }) hb
            (id_of_findIdx hj hb) hs
        · refine showLoaded_keeps (m := { m with opening := m.opening.filter (·.1 ≠ buffer) })
            (fun hany => ?_) hs
          obtain ⟨restore, hr, -⟩ := (Option.any_eq_true _ _).mp hany
          exact ⟨restore, hr⟩

theorem fileSaved_keeps (h : Host) (m : Model) (buffer : BufferId) (version : Version) :
    m.bufferRow.Keeps (m.fileSaved h buffer version).bufferRow := by
  have hactive : (m.fileSaved h buffer version).activeBuffer = m.activeBuffer := by
    unfold fileSaved
    split
    · rfl
    · split
      · rfl
      · dsimp only
        split
        · rfl
        · split
          · split_ifs <;> rfl
          · rfl
  refine .of_eq ?_
  rw [bufferRow, bufferRow, hactive]
  obtain ⟨-, -, hsame | ⟨i, b, -, hb, hset⟩⟩ := fileSaved_spec h m buffer version
  · rw [hsame]
  · have hid : (b.markSaved version).id = b.id := rfl
    rw [hset, map_id_set_id hb hid]

theorem fileFailed_keeps (h : Host) (m : Model) (buffer : BufferId) (error : FsError) :
    m.bufferRow.Keeps (m.fileFailed h buffer error).bufferRow := by
  unfold fileFailed
  split
  · rw [appendNotification_row]
    exact .refl _
  · split
    · rename_i pending _
      exact applyConfig_keeps h { m with
        pendingConfigReloads := m.pendingConfigReloads.eraseP (·.buffer = buffer) } pending.kind _
    · split
      · exact .refl _
      · dsimp only
        split_ifs
        · rw [appendNotification_row]
          exact finishRestoredRead_keeps { m with opening := m.opening.filter (·.1 ≠ buffer) } buffer
        · exact abandonPendingWorkspaceEdit_keeps { m with opening := m.opening.filter (·.1 ≠ buffer) } _
        · exact .refl _

theorem onFsEvent_keeps {e : FsEvent} (hs : m.onFsEvent h e = some m') :
    m.bufferRow.Keeps m'.bufferRow := by
  cases e with
  | fileLoaded buffer path contents => exact fileLoaded_keeps hs
  | fileSaved buffer version => exact Option.some.inj hs ▸ fileSaved_keeps h m buffer version
  | fileFailed buffer error => exact Option.some.inj hs ▸ fileFailed_keeps h m buffer error
  | pathResolved request path =>
    rw [onFsEvent] at hs
    split at hs
    · exact Option.some.inj hs ▸ .refl _
    · dsimp only at hs
      split at hs
      · exact Option.some.inj hs ▸ .refl _
      · split at hs
        · exact Option.some.inj hs ▸ openFileAt_keeps { m with pendingProblemNavigation := none } ..
        · exact Option.some.inj hs ▸ .refl _
  | pathResolveFailed =>
    rw [onFsEvent] at hs
    split_ifs at hs <;> exact Option.some.inj hs ▸ .refl _
  | mutationFailed =>
    rw [← Option.some.inj hs]
    split_ifs <;> exact .refl _
  | changed paths =>
    have hnotify : (m.notifyLspWatchedFiles paths).bufferRow = m.bufferRow := by
      unfold notifyLspWatchedFiles
      split
      · rfl
      · dsimp only
        split_ifs <;> rfl
    have hone : ∀ (m : Model) (path : Path), (m.reloadChanged path).activeBuffer = m.activeBuffer := by
      intro m path
      unfold reloadChanged
      split
      · rfl
      · split_ifs <;> rfl
    rw [← Option.some.inj hs]
    split_ifs
    · rw [← hnotify]
      exact row_of_still (reloadChangedBuffers_still _ paths) (active_foldl hone paths _)
    · exact .of_eq hnotify

/-! ## Closing -/

/-- A buffer that is closed leaves the tab before it on screen. -/
theorem discardBuffer_row (m : Model) (id : BufferId) :
    (m.buffers.findIdx? (·.id = id) = none ∧ (m.discardBuffer id).bufferRow = m.bufferRow) ∨
      ∃ k, m.buffers.findIdx? (·.id = id) = some k ∧ k < m.buffers.length ∧
        (m.discardBuffer id).bufferRow =
          m.bufferRow.close k (min (k - 1) (m.buffers.length - 1 - 1)) := by
  unfold discardBuffer
  split
  · rename_i hnone
    exact .inl ⟨hnone, rfl⟩
  · rename_i k hk
    obtain ⟨hlt, -, -⟩ := List.findIdx?_eq_some_iff_getElem.mp hk
    refine .inr ⟨k, hk, hlt, ?_⟩
    have hids : (m.buffers.eraseIdx k).map (·.id) = (m.buffers.map (·.id)).eraseIdx k :=
      (List.eraseIdx_map ..).symm
    have hlen : (m.buffers.eraseIdx k).length = m.buffers.length - 1 :=
      List.length_eraseIdx_of_lt hlt
    have hnil : m.buffers.eraseIdx k = [] ↔ (m.buffers.map (·.id)).eraseIdx k = [] := by
      rw [← hids, List.map_eq_nil_iff]
    change Row.mk ((m.buffers.eraseIdx k).map (·.id)) (if m.buffers.eraseIdx k = [] then none
      else some (min (k - 1) ((m.buffers.eraseIdx k).length - 1))) = _
    rw [hids, hlen]
    unfold Row.close bufferRow
    by_cases he : m.buffers.eraseIdx k = []
    · rw [if_pos he, if_pos (hnil.mp he)]
    · rw [if_neg he, if_neg fun hc => he (hnil.mpr hc)]

/-- The tab of the buffer that an event closes. -/
def closes (m : Model) : Event → Option ℕ
  | .confirmPrompt prompt =>
    match prompt.kind with
    | .confirmCloseBuffer buffer => m.buffers.findIdx? (·.id = buffer)
    | _ => none
  | .dispatch .closeTab =>
    m.active.bind fun b => if b.isDirty then none else m.buffers.findIdx? (·.id = b.id)
  | _ => none

/-- What an event does to the open buffers: none goes, or the one it closes. -/
def Minds (m : Model) (ev : Event) (m' : Model) : Prop :=
  (m.closes ev = none ∧ m.bufferRow.Keeps m'.bufferRow) ∨
    ∃ k, m.closes ev = some k ∧ k < m.buffers.length ∧
      m'.bufferRow = m.bufferRow.close k (min (k - 1) (m.buffers.length - 1 - 1))

variable {ev : Event}

theorem minds_discard {id : BufferId} (hc : m.closes ev = m.buffers.findIdx? (·.id = id)) :
    m.Minds ev (m.discardBuffer id) := by
  rcases discardBuffer_row m id with ⟨hnone, hrow⟩ | ⟨k, hk, hlt, hrow⟩
  · exact .inl ⟨hc.trans hnone, .of_eq hrow⟩
  · exact .inr ⟨k, hc.trans hk, hlt, hrow⟩

theorem Minds.of_row (hm : m.Minds ev m₁) (hr : m'.bufferRow = m₁.bufferRow) : m.Minds ev m' := by
  rw [Minds, hr]
  exact hm

theorem dispatchInner_minds {cmd : Command} (hd : m.dispatchInner h cmd = some m') :
    m.Minds (.dispatch cmd) m' := by
  have keep : cmd ≠ .closeTab → m.bufferRow.Keeps m'.bufferRow → m.Minds (.dispatch cmd) m' := by
    intro hne hk
    refine .inl ⟨?_, hk⟩
    unfold closes
    split
    · rename_i heq
      cases heq
    · rename_i heq
      exact absurd (Event.dispatch.inj heq) hne
    · rfl
  have worked : cmd ≠ .closeTab → Worked True (fun _ _ => True) m m' → m'.outline = m.outline →
      m.Minds (.dispatch cmd) m' := fun hne hw ho => keep hne (hw.row ho)
  cases cmd with
  | closeTab =>
    obtain rfl := Option.some.inj hd
    unfold closeTab
    cases ha : m.active with
    | none => exact .inl ⟨by rw [closes, ha]; rfl, .refl _⟩
    | some b =>
      dsimp only
      split_ifs with hdirty
      · exact .inl ⟨by rw [closes, ha, Option.bind_some, if_pos hdirty], .refl _⟩
      · exact minds_discard (by rw [closes, ha, Option.bind_some, if_neg hdirty])
  | save =>
    refine keep (by simp) (row_of_still (Option.some.inj hd ▸ saveActiveBuffer_still m) ?_)
    rw [← Option.some.inj hd]
    unfold saveActiveBuffer
    split
    · rfl
    · split
      · rfl
      · split_ifs <;> rfl
  | restoreDrafts =>
    exact worked (by simp) (applyRecoveryDrafts_worked hd) (applyRecoveryDrafts_outline hd)
  | reloadConfig =>
    refine keep (by simp) (row_of_still (Option.some.inj hd ▸ reloadConfig_still h m) ?_)
    rw [← Option.some.inj hd]
    unfold reloadConfig
    split <;> split <;> rfl
  | cursor motion =>
    obtain rfl := Option.some.inj hd
    exact worked (by simp) (withBuffer_worked (motion_works (fun _ _ _ => trivial) motion) m)
      (withBuffer_outline m _)
  | newline =>
    exact worked (by simp) (editActive_worked (fun _ _ _ => insert_works) hd) (editActive_outline hd)
  | backspace =>
    exact worked (by simp) (editActive_worked (fun _ _ _ => deleteBackward_works) hd)
      (editActive_outline hd)
  | deleteForward =>
    exact worked (by simp) (editActive_worked (fun _ _ _ => deleteForward_works) hd)
      (editActive_outline hd)
  | undo =>
    exact worked (by simp) (replayActive_worked (fun _ _ _ hu => .single (.undo trivial hu)) hd)
      (replayActive_outline hd)
  | redo =>
    exact worked (by simp) (replayActive_worked (fun _ _ _ hu => .single (.redo trivial hu)) hd)
      (replayActive_outline hd)
  | findNext | findPrev =>
    exact worked (by simp) (stepMatch_worked (fun _ _ _ _ _ _ _ _ _ => trivial) hd)
      (stepMatch_outline hd)
  | nextTab | prevTab => exact keep (by simp) (Option.some.inj hd ▸ cycleTab_keeps m _)
  | lspRestart =>
    obtain rfl := Option.some.inj hd
    refine worked (by simp) (.of_docs (restartLanguageServers_docs m).1
      (.of_eq (restartLanguageServers_docs m).2)) ?_
    unfold restartLanguageServers
    split
    · split_ifs <;> rfl
    · rfl
  | proposalAccept | proposalReject =>
    exact keep (by simp) (row_of_aloof (resolveProposal_worked (P := fun _ _ => True) hd)
      (resolveProposal_aloof hd))
  | agentAllowOnce | agentAllowAlways | agentDeny =>
    exact keep (by simp) (row_of_aloof (decidePermission_worked (T := True) (P := fun _ _ => True) hd)
      (decidePermission_aloof hd))
  | find | replace | lspAtCursor | lspDocumentSymbols | lspWorkspaceSymbols | lspFormat | lspRename
  | lspCodeAction | agentSessionNew | agentPrompt | agentMode | terminalFocus | terminalNew
  | terminalRun | terminalNext | terminalPrevious | terminalRestart | terminalClose | focusPane
  | focusNext | focusPrev | closeOverlay | quit | other =>
    exact keep (by simp) (row_of_desk (dispatchInner_desk hd trivial))

theorem confirmPrompt_minds {prompt : Prompt} (hs : m.confirmPrompt h prompt = some m') :
    m.Minds (.confirmPrompt prompt) m' := by
  cases hk : prompt.kind with
  | agentPrompt | terminalRun | gitCommit | lspRename | confirmCloseTerminal =>
    refine .inl ⟨by rw [closes, hk], row_of_desk (confirmPrompt_desk hs ?_)⟩
    rw [hk]
    trivial
  | find =>
    refine .inl ⟨by rw [closes, hk], ?_⟩
    simp only [confirmPrompt, hk] at hs
    split_ifs at hs
    · exact Option.some.inj hs ▸ (clearFind_worked (T := True) (P := fun _ _ => True) m).row
        (clearFind_outline m)
    · refine .of_eq (row_of_works (T := True) (P := fun _ _ => True)
        (runFind_worked (fun _ _ _ _ _ _ _ => trivial) hs) ?_)
      exact show m'.outline.activeBuffer = m.outline.activeBuffer by rw [runFind_outline hs]
  | replace =>
    refine .inl ⟨by rw [closes, hk], ?_⟩
    simp only [confirmPrompt, hk] at hs
    exact (replaceAll_worked (P := fun _ _ => True) hs).row (replaceAll_outline hs)
  | confirmCloseBuffer buffer =>
    simp only [confirmPrompt, hk] at hs
    exact Option.some.inj hs ▸ minds_discard (by rw [closes, hk])
  | newFile | newDir | rename | confirmDelete =>
    refine .inl ⟨by rw [closes, hk], ?_⟩
    simp only [confirmPrompt, hk] at hs
    refine row_of_still (Option.some.inj hs ▸ confirmFile_still m prompt _) ?_
    rw [← Option.some.inj hs]
    unfold confirmFile
    split_ifs
    · rfl
    · rfl
    · split
      · rfl
      · rfl
      · split <;> rfl
      · rfl
      · rfl

theorem onAgentEvent_keeps {e : AgentEvent} (he : m.onAgentEvent h e = some m') :
    m.bufferRow.Keeps m'.bufferRow := by
  have hw := onAgentEvent_worked (T := True) (P := fun _ _ => True) he
  cases e with
  | sessionStarted session =>
    exact row_of_aloof hw (Option.some.inj he ▸ startSession_aloof h m session)
  | readFileRequested session request path =>
    obtain rfl := Option.some.inj he
    refine row_of_still (serveRead_still m session request path) ?_
    unfold serveRead
    split
    · rfl
    · split_ifs <;> rfl
  | proposedEdit => exact row_of_aloof hw (receiveProposal_aloof he)
  | permissionRequested => exact row_of_aloof hw (receivePermission_aloof he)
  | ready | modesAvailable | modeChanged | messageChunk | thoughtChunk | terminalRequest
  | terminalAttached | turnEnded | failed => exact row_of_desk (onAgentEvent_desk he trivial)

theorem queueDueDrafts_active (h : Host) (m : Model) :
    (m.queueDueDrafts h).activeBuffer = m.activeBuffer := by
  have happend : ∀ (m : Model) (s : String), (m.appendNotification s).activeBuffer = m.activeBuffer :=
    fun m s => congrArg Row.active (appendNotification_row m s)
  unfold queueDueDrafts
  split
  · rfl
  · split_ifs
    · rfl
    · dsimp only
      split
      · rfl
      · split_ifs
        · rfl
        · refine (active_foldl (fun m b => ?_) _ _).trans rfl
          split
          · exact happend m _
          · rfl

/-- **What an event does to the buffers.** -/
theorem step_buffers (hs : m.step h ev = some m') : m.Minds ev m' := by
  cases ev with
  | dispatch cmd =>
    obtain ⟨m₁, h₁, hs⟩ := Option.bind_eq_some_iff.mp hs
    have hinner := dispatchInner_minds h₁
    have hsync : m'.bufferRow = m₁.bufferRow := row_of_works
      (syncAll_worked (T := True) (P := fun _ _ => True) hs).1
      (show m'.outline.activeBuffer = m₁.outline.activeBuffer by rw [syncAll_outline hs])
    exact hinner.of_row hsync
  | confirmPrompt prompt => exact confirmPrompt_minds hs
  | typeChar c =>
    obtain ⟨m₁, h₁, hs⟩ := Option.bind_eq_some_iff.mp hs
    have hedit := (editActive_worked (P := fun _ _ => True) (fun _ _ _ => insert_works) h₁).row
      (editActive_outline h₁)
    refine .inl ⟨rfl, hedit.trans ?_⟩
    exact (syncAll_worked (T := True) (P := fun _ _ => True) hs).row (syncAll_outline hs)
  | openFile path => exact .inl ⟨rfl, Option.some.inj hs ▸ openFile_keeps m path⟩
  | openFileAt => exact .inl ⟨rfl, Option.some.inj hs ▸ openFileAt_keeps m _ _ _⟩
  | restoreSession w => exact .inl ⟨rfl, Option.some.inj hs ▸ restoreSession_keeps h m w⟩
  | acceptSelectedRecoveryDrafts =>
    exact .inl ⟨rfl, (applyRecoveryDrafts_worked (P := fun _ _ => True) hs).row
      (applyRecoveryDrafts_outline hs)⟩
  | discardRecoveryDrafts =>
    refine .inl ⟨rfl, row_of_still (Option.some.inj hs ▸ discardRecoveryDrafts_still h m) ?_⟩
    rw [← Option.some.inj hs]
    unfold discardRecoveryDrafts
    split
    · dsimp only
      split
      · rfl
      · refine (active_foldl ?_ _ _).trans rfl
        exact fun m d => rfl
    · rfl
  | acceptCompletion item =>
    exact .inl ⟨rfl, (acceptCompletion_worked (P := fun _ _ => True) hs).row
      (acceptCompletion_outline hs)⟩
  | acceptCodeAction action => exact .inl ⟨rfl, acceptCodeAction_keeps hs⟩
  | openLspLocation location =>
    exact .inl ⟨rfl, Option.some.inj hs ▸ openLspLocation_keeps m location⟩
  | applyTextEdits edits => exact .inl ⟨rfl, applyTextEdits_keeps hs⟩
  | applyWorkspaceEdit edit => exact .inl ⟨rfl, applyWorkspaceEdit_keeps hs⟩
  | decidePermission decision =>
    exact .inl ⟨rfl, row_of_aloof (decidePermission_worked (T := True) (P := fun _ _ => True) hs)
      (decidePermission_aloof hs)⟩
  | fs event => exact .inl ⟨rfl, onFsEvent_keeps hs⟩
  | agent event => exact .inl ⟨rfl, onAgentEvent_keeps hs⟩
  | lsp server event => exact .inl ⟨rfl, onLspEvent_keeps hs⟩
  | tick seconds =>
    have htick : Still m { m with clock := m.clock + seconds } := ⟨rfl, rfl, rfl⟩
    have hdue := htick.trans (queueDueDrafts_still h { m with clock := m.clock + seconds })
    exact .inl ⟨rfl, Option.some.inj hs ▸ row_of_still hdue (queueDueDrafts_active h _)⟩
  | navigateProblem | openWorkspace | takeFsRequests =>
    exact .inl ⟨rfl, Option.some.inj hs ▸ .refl _⟩
  | setOverlays | setAgentMode | typeTerminal | setTerminalSize | pty | shutdownTerminals
  | takeAgentRequests | takePtyRequests | takeLspRequests =>
    exact .inl ⟨rfl, row_of_desk (step_desk hs trivial)⟩

theorem step_nodup (hs : m.step h ev = some m') (hn : m.bufferRow.tabs.Nodup) :
    m'.bufferRow.tabs.Nodup := by
  obtain ⟨⟨bs, hsource, hworks⟩, -⟩ :=
    step_sources (P := fun _ _ => True) (fun _ _ _ => trivial) (fun _ _ _ => trivial) hs
  change (m'.buffers.map (·.id)).Nodup
  change (m.buffers.map (·.id)).Nodup at hn
  rw [map_id_later (forall₂_later hworks)]
  cases hsource with
  | kept hsub =>
    obtain ⟨l, hperm, hsub⟩ := hsub
    exact (hperm.map _).nodup_iff.mp ((hsub.map _).nodup hn)
  | @opened bs buffer path text he hr hnone hperm =>
    rw [(hperm.map _).nodup_iff, List.map_append]
    refine List.nodup_append.mpr ⟨hn, List.nodup_singleton _, ?_⟩
    rintro i hi j hj rfl
    obtain ⟨b, hb, hid⟩ := List.mem_map.mp hi
    have hno := List.findIdx?_eq_none_iff.mp hnone b hb
    rw [List.mem_singleton.mp hj] at hid
    exact of_decide_eq_false hno hid
  | reloaded he hr hi hold => rwa [map_id_set_id hold (id_of_findIdx hi hold).symm]
  | saved he hd hi hold =>
    have hid : ∀ (b : Buffer) (v : Version), (b.markSaved v).id = b.id := fun _ _ => rfl
    rwa [map_id_set_id hold (hid _ _)]

/-- **When the buffers are tended**: a buffer that is closed in the background is next to the one on
screen, behind it or in front of all others. -/
theorem buffers_tended_iff (hs : m.step h ev = some m') (hv : m.bufferRow.Valid)
    (hn : m.bufferRow.tabs.Nodup) :
    m.bufferRow.Tends m'.bufferRow ↔ ∀ k a, m.closes ev = some k → m.activeBuffer = some a →
      a = k ∨ a + 1 = k ∨ k = 0 ∧ a = 1 := by
  rcases step_buffers hs with ⟨hnone, hkeeps⟩ | ⟨k, hk, hlt, hrow⟩
  · exact ⟨fun _ k a hk => (Option.some_ne_none k (hk.symm.trans hnone)).elim, fun _ => hkeeps.tends⟩
  · have hlen := length_bufferRow m
    have hvalid : (m.bufferRow.close k (min (k - 1) (m.buffers.length - 1 - 1))).Valid := by
      refine Row.valid_close fun hne => ?_
      have hpos := List.length_pos_of_ne_nil hne
      rw [List.length_eraseIdx_of_lt (hlen.symm ▸ hlt), hlen] at hpos ⊢
      omega
    have hslide : ∀ a, m.activeBuffer = some a → a ≠ k →
        (min (k - 1) (m.buffers.length - 1 - 1) = slide k a ↔ a + 1 = k ∨ k = 0 ∧ a = 1) := by
      intro a ha hne
      have hlta : a < m.buffers.length := hlen ▸ hv.2 a ha
      unfold slide
      split_ifs <;> omega
    have hfollows := Row.follows_close_iff (j := min (k - 1) (m.buffers.length - 1 - 1)) hv hn
      (hlen.symm ▸ hlt)
    rw [hrow]
    constructor
    · intro htends k' a hk' ha
      obtain rfl := Option.some.inj (hk.symm.trans hk')
      by_cases hne : a = k
      · exact .inl hne
      · exact .inr ((hslide a ha hne).mp (hfollows.mp (htends.follows hv) a ha hne))
    · intro hnear
      refine ⟨fun _ => hvalid, fun _ => hfollows.mpr fun a ha hne => ?_⟩
      exact (hslide a ha hne).mpr ((hnear k a hk ha).resolve_left hne)

/-! ## Runs -/

/-- Nothing is open yet. -/
def Bare (m : Model) : Prop :=
  m.buffers = [] ∧ m.activeBuffer = none ∧ m.terminals = [] ∧ m.activeTerminal = none

/-- A buffer that the event closes in the background is next to the one on screen, and a terminal of
the agent does not come into an empty pane that has the focus. -/
def Tidy (m : Model) (ev : Event) : Prop :=
  (∀ k a, m.closes ev = some k → m.activeBuffer = some a → a = k ∨ a + 1 = k ∨ k = 0 ∧ a = 1) ∧
    ¬ (m.Spawns ev ∧ m.focus = .terminal ∧ m.terminals = [])

/-- Both rows are valid, and no tab is there twice. -/
structure Tabbed (m : Model) : Prop where
  buffers : m.bufferRow.Valid
  bufferIds : m.bufferRow.tabs.Nodup
  terminals : m.terminalRow.Valid
  numbered : Numbered m.pane

theorem Bare.tabbed (hb : m.Bare) : m.Tabbed := by
  obtain ⟨hbuffers, hactive, hterminals, hshown⟩ := hb
  constructor
  · simp [Row.Valid, bufferRow, hbuffers, hactive]
  · simp [bufferRow, hbuffers]
  · simp [Row.Valid, terminalRow, hterminals, hshown]
  · simp [Numbered, pane, terminalRow, hterminals]

theorem step_tabbed (hi : m.Tabbed) (ht : m.Tidy ev) (hs : m.step h ev = some m') : m'.Tabbed where
  buffers := ((buffers_tended_iff hs hi.buffers hi.bufferIds).mpr ht.1).valid hi.buffers
  bufferIds := step_nodup hs hi.bufferIds
  terminals := ((terminals_tended_iff hs hi.terminals).mpr ht.2).valid hi.terminals
  numbered := step_numbered hs hi.numbered

/-- **Selections are valid and follow the tab on screen.** After every run of tidy steps a buffer is
on screen unless none is open, and a terminal likewise, no two of them under one id; and a further
step leaves both rows valid and on screen what was there, if it closes something else, just when it
is tidy. -/
theorem tabs_follow (h : Host)
    (hr : Runs.Reach (step h) Tidy Bare m) :
    (m.bufferRow.Valid ∧ m.bufferRow.tabs.Nodup) ∧
    (m.terminalRow.Valid ∧ m.terminalRow.tabs.Nodup) ∧
    ∀ ev m', m.step h ev = some m' →
      ((m'.bufferRow.Valid ∧ m.bufferRow.Follows m'.bufferRow) ∧
        (m'.terminalRow.Valid ∧ m.terminalRow.Follows m'.terminalRow) ↔ m.Tidy ev) := by
  have hi : m.Tabbed := hr.inv (fun _ => Bare.tabbed) fun _ _ _ hi ht hs => step_tabbed hi ht hs
  refine ⟨⟨hi.buffers, hi.bufferIds⟩, ⟨hi.terminals, hi.numbered.1⟩, fun ev m' hs => ?_⟩
  have hbuffers := buffers_tended_iff hs hi.buffers hi.bufferIds
  have hterminals := terminals_tended_iff hs hi.terminals
  constructor
  · rintro ⟨⟨hb, hbf⟩, ht, htf⟩
    exact ⟨hbuffers.mp ⟨fun _ => hb, fun _ => hbf⟩, hterminals.mp ⟨fun _ => ht, fun _ => htf⟩⟩
  · rintro ⟨hnear, hspawn⟩
    have hb := hbuffers.mpr hnear
    have ht := hterminals.mpr hspawn
    exact ⟨⟨hb.valid hi.buffers, hb.follows hi.buffers⟩,
      ht.valid hi.terminals, ht.follows hi.terminals⟩

/-! ## A close confirmed late -/

def tabFile (name : String) : Path := [.rootDir, .normal name]

/-- The first note is edited, and closing it waits for the human to confirm. -/
def asking : List Event :=
  [.openFile (tabFile "a"), .fs (.fileLoaded ⟨1⟩ (tabFile "a") (some ['a'])), .typeChar 'x',
    .dispatch .closeTab]

/-- Two more files are opened meanwhile. -/
def arriving : List Event :=
  [.openFile (tabFile "b"), .openFile (tabFile "c"),
    .fs (.fileLoaded ⟨2⟩ (tabFile "b") (some ['b'])),
    .fs (.fileLoaded ⟨3⟩ (tabFile "c") (some ['c']))]

def closeFirst : Event :=
  .confirmPrompt { title := "a has unsaved changes", input := "", kind := .confirmCloseBuffer ⟨1⟩ }

def crowded : Model := (Runs.run (step Host.plain) {} (asking ++ arriving)).get (by decide)

def thinned : Model := (crowded.step Host.plain closeFirst).get (by decide)

/-- Files that are opened, and nothing else. -/
def opensOnly (_ : Model) : Event → Bool
  | .openFile _ | .fs _ => true
  | _ => false

theorem tidy_of_opensOnly (m : Model) (ev : Event) (ho : opensOnly m ev = true) : m.Tidy ev := by
  cases ev with
  | openFile | fs =>
    refine ⟨fun k a hk => ?_, fun hc => hc.1⟩
    cases hk
  | _ => cases ho

/-- The two files alone. -/
def paired : Model := (Runs.checkedRun (step Host.plain) opensOnly {} arriving).get (by decide)

theorem tabs_follow_paired : paired.bufferRow.Valid := by
  have hrun : Runs.checkedRun (step Host.plain) opensOnly {} arriving = some paired :=
    (Option.some_get _).symm
  have hreach : Runs.Reach (step Host.plain) Tidy Bare paired :=
    .of_checkedRun tidy_of_opensOnly arriving (.start ⟨rfl, rfl, rfl, rfl⟩) hrun
  exact (tabs_follow Host.plain hreach).1.1

/-- **Another tab comes on screen.** The third file is on screen when the first is closed, and the
second one is shown then. -/
theorem tab_lost :
    ¬ ∀ (h : Host) (m : Model), Runs.Reach (step h) (fun _ _ => True) Bare m →
      m.bufferRow.Valid ∧ m.terminalRow.Valid ∧ ∀ ev m', m.step h ev = some m' →
        m.bufferRow.Follows m'.bufferRow ∧ m.terminalRow.Follows m'.terminalRow := by
  intro hall
  have hreach : Runs.Reach (step Host.plain) (fun _ _ => True) Bare crowded :=
    .of_run (fun _ _ => trivial) (asking ++ arriving) (.start ⟨rfl, rfl, rfl, rfl⟩)
      (Option.some_get _).symm
  have hstep : crowded.step Host.plain closeFirst = some thinned := (Option.some_get _).symm
  have hbefore : crowded.bufferRow.shown = some ⟨3⟩ := by decide
  have hafter : thinned.bufferRow.shown = some ⟨2⟩ := by decide
  have hfollows := ((hall _ _ hreach).2.2 _ _ hstep).1 ⟨1⟩ (by decide) (by decide) (by decide)
  rw [hbefore, hafter] at hfollows
  revert hfollows
  decide

/-- An agent's session starts while the human looks at the pane of terminals, where there is none. -/
def waitingPane : List Event :=
  [.agent (.sessionStarted ⟨1⟩), .dispatch (.focusPane .terminal),
    .agent (.terminalRequest ⟨1⟩ ⟨1⟩ (.create ⟨"ls", [], tabFile "w", []⟩ 100 true))]

/-- **A terminal that nothing selects.** -/
theorem terminal_unselected :
    (Runs.run (step Host.plain) {} waitingPane).map (fun m => (m.terminals.length, m.activeTerminal)) =
      some (1, none) := by decide

end App.Model

end Termesh
