/-!
# Actions

* `Action`, `Action.id`: the named actions and their stable ids;
* `actions`: the registry;
* `Command`: what a chord can be bound to.
-/

namespace Termesh

/-- A named, invocable action. -/
inductive Action where
  | fileOpen
  | fileSave
  | fileNew
  | folderNew
  | fileRename
  | fileDelete
  | workspaceSearch
  | workspaceRestoreDrafts
  | paneSplitRight
  | focusProject
  | focusEditor
  | focusAgent
  | terminalNew
  | terminalRun
  | terminalFocus
  | terminalNext
  | terminalPrevious
  | terminalRestart
  | terminalClose
  | terminalCopyMode
  | gitShow
  | gitStage
  | gitUnstage
  | gitCommit
  | gitBranchCheckout
  | gitFetch
  | gitPull
  | gitPush
  | taskRun
  | taskCancel
  | problemsShow
  | problemsNext
  | problemsPrevious
  | editorGotoDefinition
  | lspHover
  | lspCompletion
  | lspReferences
  | lspDocumentSymbols
  | lspWorkspaceSymbols
  | lspRename
  | lspCodeAction
  | lspFormat
  | lspRestart
  | editorApplyTransaction
  | agentSessionNew
  | agentPrompt
  | agentMode
  | agentProposalAccept
  | agentProposalReject
  | helpShow
  | configReload
deriving DecidableEq, Repr

/-- The stable id of an action. -/
def Action.id : Action → String
  | fileOpen => "file.open"
  | fileSave => "file.save"
  | fileNew => "file.new"
  | folderNew => "file.new_folder"
  | fileRename => "file.rename"
  | fileDelete => "file.delete"
  | workspaceSearch => "workspace.search"
  | workspaceRestoreDrafts => "workspace.restore_drafts"
  | paneSplitRight => "pane.split_right"
  | focusProject => "focus.project"
  | focusEditor => "focus.editor"
  | focusAgent => "focus.agent"
  | terminalNew => "terminal.new"
  | terminalRun => "terminal.run"
  | terminalFocus => "terminal.focus"
  | terminalNext => "terminal.next"
  | terminalPrevious => "terminal.previous"
  | terminalRestart => "terminal.restart"
  | terminalClose => "terminal.close"
  | terminalCopyMode => "terminal.copy_mode"
  | gitShow => "git.show"
  | gitStage => "git.stage"
  | gitUnstage => "git.unstage"
  | gitCommit => "git.commit"
  | gitBranchCheckout => "git.branch.checkout"
  | gitFetch => "git.fetch"
  | gitPull => "git.pull"
  | gitPush => "git.push"
  | taskRun => "task.run"
  | taskCancel => "task.cancel"
  | problemsShow => "problems.show"
  | problemsNext => "problems.next"
  | problemsPrevious => "problems.previous"
  | editorGotoDefinition => "editor.goto_definition"
  | lspHover => "lsp.hover"
  | lspCompletion => "lsp.completion"
  | lspReferences => "lsp.references"
  | lspDocumentSymbols => "lsp.symbols.document"
  | lspWorkspaceSymbols => "lsp.symbols.workspace"
  | lspRename => "lsp.rename"
  | lspCodeAction => "lsp.code_action"
  | lspFormat => "lsp.format"
  | lspRestart => "lsp.restart"
  | editorApplyTransaction => "editor.apply_transaction"
  | agentSessionNew => "agent.session.new"
  | agentPrompt => "agent.prompt"
  | agentMode => "agent.mode"
  | agentProposalAccept => "agent.proposal.accept"
  | agentProposalReject => "agent.proposal.reject"
  | helpShow => "help.show"
  | configReload => "config.reload"

/-- `ActionRegistry::with_defaults`. -/
def actions : List Action :=
  [.fileOpen, .fileSave, .fileNew, .folderNew, .fileRename, .fileDelete, .workspaceSearch,
    .workspaceRestoreDrafts, .paneSplitRight, .focusProject, .focusEditor, .focusAgent,
    .terminalNew, .terminalRun, .terminalFocus, .terminalNext, .terminalPrevious, .terminalRestart,
    .terminalClose, .terminalCopyMode, .gitShow, .gitStage, .gitUnstage, .gitCommit,
    .gitBranchCheckout, .gitFetch, .gitPull, .gitPush, .taskRun, .taskCancel, .problemsShow,
    .problemsNext, .problemsPrevious, .editorGotoDefinition, .lspHover, .lspCompletion,
    .lspReferences, .lspDocumentSymbols, .lspWorkspaceSymbols, .lspRename, .lspCodeAction,
    .lspFormat, .lspRestart, .editorApplyTransaction, .agentSessionNew, .agentPrompt, .agentMode,
    .agentProposalAccept, .agentProposalReject, .helpShow, .configReload]

/-- What a chord can be bound to: an action, or one of the shell's own commands, by its name. -/
inductive Command where
  | action (action : Action)
  | shell (name : String)
deriving DecidableEq, Repr

end Termesh
