import Termesh.Lib.Run
import Termesh.Editor.Laws
import Termesh.Core.Ids
import Termesh.Core.Path
import Termesh.Editor.Selection
import Termesh.Editor.Decoration
import Termesh.Editor.Transaction
import Termesh.Editor.History
import Termesh.Editor.Buffer
import Termesh.Editor.UndoRedo
import Termesh.Editor.Positions
import Termesh.Agent.LineDiff
import Termesh.Agent.Proposal
import Termesh.Agent.Rebase
import Termesh.Editor.Lines
import Termesh.Lib.Table
import Termesh.Core.Terminal
import Termesh.Core.Agent
import Termesh.Agent.Json
import Termesh.Agent.Protocol
import Termesh.Agent.Accounting
import Termesh.Core.Lsp
import Termesh.Core.Fs
import Termesh.Editor.Search
import Termesh.Editor.Span
import Termesh.App.LspState
import Termesh.App.State
import Termesh.App.Sync
import Termesh.App.Editing
import Termesh.App.LanguageEdits
import Termesh.App.Terminals
import Termesh.Agent.Review
import Termesh.App.Session
import Termesh.App.Files
import Termesh.App.Input
import Termesh.App.Frames
import Termesh.Core.Lexical
import Termesh.App.Confine
import Termesh.App.Documents
import Termesh.App.Anchoring
import Termesh.App.Desk
import Termesh.App.Moves
import Termesh.App.InSync
import Termesh.Agent.Grants
import Termesh.App.Accepting
import Termesh.App.Calls
import Termesh.App.Foreign
import Termesh.App.Serving
import Termesh.App.Turns
import Termesh.App.Painted
import Termesh.App.Inside
import Termesh.App.Replacing
import Termesh.App.Recovery
import Termesh.App.Requests
import Termesh.App.Worker
import Termesh.App.OnDisk
import Termesh.App.Rereads
import Termesh.Lib.Toml
import Termesh.Core.Spelling
import Termesh.Workspace.Permissions
import Termesh.Lsp.Wire
import Termesh.Lsp.Shapes
import Termesh.Lsp.Translator
import Termesh.Lsp.Correlation
import Termesh.Core.Trim
import Termesh.Agent.Codec
import Termesh.Lsp.Answering
import Termesh.App.ServerEdits
import Termesh.Lib.Forest
import Termesh.Filesystem.Tree
import Termesh.Filesystem.Shape
import Termesh.Filesystem.Listing
import Termesh.Filesystem.Explorer
import Termesh.App.Startup
import Termesh.App.Loading
import Termesh.App.Tabs
import Termesh.App.Echo
import Termesh.App.Quitting
import Termesh.App.Deferred
import Termesh.Workspace.Rejected
import Termesh.Core.Task
import Termesh.App.Tasks
import Termesh.App.Processes
import Termesh.App.Exits
import Termesh.App.TaskRuns
import Termesh.Core.Git
import Termesh.App.GitState
import Termesh.App.GitStatus
import Termesh.App.GitRefresh
import Termesh.Filesystem.Ignore
import Termesh.Filesystem.Rulings
import Termesh.Filesystem.PatternFiles
import Termesh.Filesystem.Watching
import Termesh.Filesystem.Walking
import Termesh.Editor.Mirror
import Termesh.Lsp.Stream
import Termesh.Lsp.Session
import Termesh.Lsp.Orderly
import Termesh.App.Courses
import Termesh.App.Spoken
import Termesh.App.Talking
import Termesh.App.Servers
import Termesh.App.Streams
import Termesh.App.Replaced
import Termesh.Lib.Traces
import Termesh.Editor.Composing
import Termesh.Editor.Casing
import Termesh.Agent.RoundTrip
import Termesh.App.Splicing
import Termesh.Lib.Utf8
import Termesh.Lsp.Framing
import Termesh.Lsp.Stranded
import Termesh.Core.Search
import Termesh.Search.Worker
import Termesh.Lib.Halves
import Termesh.Editor.Batches
import Termesh.Lib.Values
import Termesh.Workspace.Session
import Termesh.Workspace.Surviving
import Termesh.Lib.Inverses
import Termesh.Editor.Inverting
import Termesh.Editor.Covering
import Termesh.Editor.Breaks
import Termesh.Editor.Utf16
import Termesh.Editor.Motions
import Termesh.Editor.Endings
import Termesh.App.Jumps
import Termesh.Agent.Widening
import Termesh.Lib.Decoding
import Termesh.Lib.WellFormed
import Termesh.Terminal.Capture
import Termesh.Lib.Inodes
import Termesh.Filesystem.Mutations
import Termesh.Search.Protocol
import Termesh.Search.Streaming
import Termesh.App.Outdated
import Termesh.Editor.Reading
import Termesh.Lsp.Replica
import Termesh.App.Sessions
import Termesh.App.Copies
import Termesh.App.Versions
import Termesh.App.Declared
import Termesh.App.Replicas
import Termesh.Lib.Splits
import Termesh.Ui.Text
import Termesh.Ui.Layouts
import Termesh.Ui.Wrapping
import Termesh.Lib.Scanning
import Termesh.Lib.Sorting
import Termesh.Search.Fuzzy
import Termesh.App.QuickOpen
import Termesh.Lib.Lines
import Termesh.Core.Texts
import Termesh.Tasks.TextProblems
import Termesh.Tasks.Output
import Termesh.Tasks.Shapes
import Termesh.Lib.Leftmost
import Termesh.Search.Literal
import Termesh.Git.Status
import Termesh.Git.Porcelain
import Termesh.Core.Action
import Termesh.Core.Input
import Termesh.Config.Keymap
import Termesh.Config.KeymapFile
import Termesh.Config.Honoured
import Termesh.App.Debounce
import Termesh.App.Accounts
import Termesh.App.Covered
import Termesh.Lsp.Uris
import Termesh.Lib.OrderedSet
import Termesh.Filesystem.Coalescing
import Termesh.App.LiveSearch
import Termesh.Git.Diff
import Termesh.Lib.Asking
import Termesh.Git.Commands
import Termesh.Syntax.Highlight
import Termesh.Filesystem.Rows
import Termesh.Workspace.Root
import Termesh.Workspace.Snapshot
import Termesh.Terminal.Keys
import Termesh.Terminal.Threads
import Termesh.Terminal.Worker
