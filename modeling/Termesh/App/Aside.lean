import Termesh.App.Moves

/-!
# Events aside

Most commands and events are about terminals, the conversation, an overlay or a question to a
language server: they keep the desk.

* `Command.Aside`, `Event.Aside`;
* **`step_desk`**: an event aside keeps the desk, but for the refreshes at the end of a command.
-/

namespace Termesh

namespace App

/-- The commands that touch neither documents, nor proposals, nor the filesystem worker. -/
def Command.Aside : Command → Prop
  | find | replace | lspAtCursor _ | lspDocumentSymbols | lspWorkspaceSymbols | lspFormat | lspRename
  | lspCodeAction | agentSessionNew | agentPrompt | agentMode | terminalFocus | terminalNew
  | terminalRun | terminalNext | terminalPrevious | terminalRestart | terminalClose | focusPane _
  | focusNext | focusPrev | closeOverlay | quit | other => True
  | _ => False

/-- The prompts that touch neither. -/
def PromptKind.Aside : PromptKind → Prop
  | agentPrompt _ | terminalRun | gitCommit | lspRename | confirmCloseTerminal _ => True
  | _ => False

end App

/-- The agent's events that touch neither. -/
def AgentEvent.Aside : AgentEvent → Prop
  | sessionStarted _ | readFileRequested .. | proposedEdit .. | permissionRequested .. => False
  | _ => True

namespace App

/-- The events that touch neither, commands left out. -/
def Event.Aside : Event → Prop
  | confirmPrompt prompt => prompt.kind.Aside
  | agent e => e.Aside
  | setOverlays _ | setAgentMode _ | typeTerminal _ | setTerminalSize _ | pty _ | shutdownTerminals
  | takeAgentRequests | takePtyRequests | takeLspRequests => True
  | _ => False

namespace Model

variable {h : Host} {m m' : Model}

/-! ## Questions to language servers -/

theorem requestAtCursor_desk (m : Model) (kind : LspCall) :
    (m.requestAtCursor kind).desk = m.desk := by
  unfold requestAtCursor
  split <;> rfl

theorem requestDocument_desk (m : Model) (kind : LspCall) :
    (m.requestDocument kind).desk = m.desk := by
  unfold requestDocument
  split
  · rfl
  · split <;> rfl

theorem requestLspDocumentSymbols_desk (m : Model) :
    m.requestLspDocumentSymbols.desk = m.desk := by
  unfold requestLspDocumentSymbols
  dsimp only
  split
  · exact requestDocument_desk m _
  · exact requestDocument_desk m _

theorem promptLspRename_desk (m : Model) : m.promptLspRename.desk = m.desk := by
  unfold promptLspRename
  split_ifs <;> rfl

theorem requestLspRename_desk (m : Model) (name : String) :
    (m.requestLspRename name).desk = m.desk := by
  unfold requestLspRename
  split <;> rfl

theorem requestLspCodeActions_desk (m : Model) : m.requestLspCodeActions.desk = m.desk := by
  unfold requestLspCodeActions
  split
  · rfl
  · split <;> rfl

theorem openFindPrompt_desk (m : Model) (kind : PromptKind) (title : String) :
    (m.openFindPrompt kind title).desk = m.desk := by
  unfold openFindPrompt
  split_ifs <;> rfl

/-! ## Commands and prompts -/

theorem dispatchInner_desk {cmd : Command}
    (hd : m.dispatchInner h cmd = some m') (ha : cmd.Aside) : m'.desk = m.desk := by
  cases cmd with
  | find => exact Option.some.inj hd ▸ openFindPrompt_desk ..
  | replace =>
    rw [← Option.some.inj hd]
    split_ifs
    · rfl
    · exact openFindPrompt_desk ..
  | lspAtCursor kind => exact Option.some.inj hd ▸ requestAtCursor_desk m kind
  | lspDocumentSymbols => exact Option.some.inj hd ▸ requestLspDocumentSymbols_desk m
  | lspFormat => exact Option.some.inj hd ▸ requestDocument_desk m _
  | lspRename => exact Option.some.inj hd ▸ promptLspRename_desk m
  | lspCodeAction => exact Option.some.inj hd ▸ requestLspCodeActions_desk m
  | agentSessionNew => exact Option.some.inj hd ▸ newAgentSession_desk m
  | agentPrompt => exact Option.some.inj hd ▸ promptAgent_desk m
  | agentMode => exact Option.some.inj hd ▸ openAgentModes_desk m
  | terminalFocus => exact Option.some.inj hd ▸ toggleTerminalFocus_desk h m
  | terminalNew => exact Option.some.inj hd ▸ newShellTerminal_desk h m
  | terminalNext | terminalPrevious => exact Option.some.inj hd ▸ cycleTerminal_desk h m _
  | terminalRestart => exact restartTerminal_desk hd
  | terminalClose => exact Option.some.inj hd ▸ closeTerminal_desk m
  | lspWorkspaceSymbols | terminalRun | focusPane | focusNext | focusPrev | closeOverlay | quit
  | other => exact Option.some.inj hd ▸ rfl
  | save | restoreDrafts | reloadConfig | cursor | newline | backspace | deleteForward | undo | redo
  | findNext | findPrev | nextTab | prevTab | closeTab | lspRestart | proposalAccept
  | proposalReject | agentAllowOnce | agentAllowAlways | agentDeny => exact ha.elim

theorem confirmPrompt_desk {prompt : Prompt}
    (hc : m.confirmPrompt h prompt = some m') (ha : prompt.kind.Aside) : m'.desk = m.desk := by
  unfold confirmPrompt at hc
  dsimp only at hc
  cases hk : prompt.kind with
  | agentPrompt session =>
    rw [hk] at hc
    rw [← Option.some.inj hc]
    split_ifs
    · rfl
    · exact sendPrompt_desk h m session _
    · rw [desk_notify, newAgentSession_desk]
      rfl
  | terminalRun =>
    rw [hk] at hc
    rw [← Option.some.inj hc]
    split_ifs
    · rfl
    · exact createTerminal_desk ..
  | gitCommit =>
    rw [hk] at hc
    rw [← Option.some.inj hc]
    split_ifs <;> rfl
  | lspRename =>
    rw [hk] at hc
    rw [← Option.some.inj hc]
    split_ifs
    · rfl
    · exact requestLspRename_desk ..
  | confirmCloseTerminal terminal =>
    rw [hk] at hc
    exact Option.some.inj hc ▸ removeTerminal_desk m terminal true
  | newFile | newDir | rename | confirmDelete | find | replace | confirmCloseBuffer =>
    rw [hk] at ha
    exact ha.elim

/-! ## The agent -/

theorem onAgentEvent_desk {e : AgentEvent} (he : m.onAgentEvent h e = some m') (ha : e.Aside) :
    m'.desk = m.desk := by
  have hidle : (m.modifyAgent fun agent => { agent with turnActive := false }).desk = m.desk :=
    desk_modifyAgent m fun _ => ⟨rfl, rfl⟩
  cases e with
  | ready => exact Option.some.inj he ▸ rfl
  | modesAvailable =>
    rw [← Option.some.inj he]
    exact desk_modifyAgent m fun a => by split_ifs <;> exact ⟨rfl, rfl⟩
  | modeChanged session mode =>
    rw [onAgentEvent] at he
    split at he
    · rw [← Option.some.inj he]
    · rename_i agent hagent
      have hm := (Option.filter_eq_some_iff.mp hagent).1
      rw [← Option.some.inj he]
      simp only [desk, notify, hm, Option.map_some]
  | messageChunk | thoughtChunk => exact Option.some.inj he ▸ pushTranscript_desk m _ _
  | terminalRequest => exact Option.some.inj he ▸ handleAgentTerminal_desk ..
  | terminalAttached =>
    rw [← Option.some.inj he]
    exact desk_modifyAgent m fun a => by split_ifs <;> exact ⟨rfl, rfl⟩
  | turnEnded session reason =>
    rw [← Option.some.inj he]
    split_ifs
    · exact (cancelAgentTerminals_desk ..).trans hidle
    · exact hidle
  | failed session message =>
    rw [← Option.some.inj he]
    exact (desk_notify ..).trans ((cancelAgentTerminals_desk ..).trans hidle)
  | sessionStarted | readFileRequested | proposedEdit | permissionRequested => exact ha.elim

/-- **An event aside keeps the desk.** -/
theorem step_desk {ev : Event} (hs : m.step h ev = some m') (ha : ev.Aside) : m'.desk = m.desk := by
  cases ev with
  | confirmPrompt prompt => exact confirmPrompt_desk hs ha
  | agent e => exact onAgentEvent_desk hs ha
  | setAgentMode mode => exact Option.some.inj hs ▸ setAgentMode_desk m mode
  | typeTerminal bytes => exact Option.some.inj hs ▸ typeTerminal_desk m bytes
  | setTerminalSize size => exact Option.some.inj hs ▸ setTerminalSize_desk m size
  | pty event => exact Option.some.inj hs ▸ onPtyEvent_desk h m event
  | shutdownTerminals => exact Option.some.inj hs ▸ shutdownTerminals_desk m
  | setOverlays | takeAgentRequests | takePtyRequests | takeLspRequests =>
    exact Option.some.inj hs ▸ rfl
  | dispatch | typeChar | openFile | openFileAt | navigateProblem | openWorkspace | restoreSession
  | acceptSelectedRecoveryDrafts | discardRecoveryDrafts | acceptCompletion | acceptCodeAction
  | openLspLocation | applyTextEdits | applyWorkspaceEdit | decidePermission | fs | lsp | tick
  | takeFsRequests => exact ha.elim

end Model

end App

end Termesh
