import GrokBuild.Lib.NestedReach
import GrokBuild.Lib.StepRun
import GrokBuild.Lib.Replay
import GrokBuild.Lib.SecondaryIndex
import GrokBuild.Text.Str
import GrokBuild.Text.Lines
import GrokBuild.Text.PathBuf
import GrokBuild.Permission.Types
import GrokBuild.Permission.CommandWords
import GrokBuild.Permission.InlineShell
import GrokBuild.Permission.PathForms
import GrokBuild.Permission.Policy
import GrokBuild.Permission.RuleMatch
import GrokBuild.Permission.BashGate
import GrokBuild.Permission.RuleSet
import GrokBuild.Permission.BashAllow
import GrokBuild.Permission.ShellAccess
import GrokBuild.Permission.ShellGate
import GrokBuild.Permission.PeelChain
import GrokBuild.Permission.ShellSurround
import GrokBuild.Delivery.Lifecycle
import GrokBuild.Delivery.ExactlyOnce
import GrokBuild.HunkTracker.Diff
import GrokBuild.HunkTracker.Blocks
import GrokBuild.HunkTracker.PatchRoundTrip
import GrokBuild.HunkTracker.RejectAll
import GrokBuild.HunkTracker.Matching
import GrokBuild.HunkTracker.Recompute
import GrokBuild.HunkTracker.EventLog
import GrokBuild.HunkTracker.Actor
import GrokBuild.HunkTracker.Actions
import GrokBuild.HunkTracker.TurnIndex
import GrokBuild.ApplyPatch.Apply
import GrokBuild.ApplyPatch.Tool
import GrokBuild.ApplyPatch.Sequential
import GrokBuild.Lib.Substitution
import GrokBuild.Lib.KeepLast
import GrokBuild.Lib.Sections
import GrokBuild.Text.Terminators
import GrokBuild.Text.Json
import GrokBuild.Text.Slices
import GrokBuild.Text.Segments
import GrokBuild.Breaker.CircuitBreaker
import GrokBuild.Breaker.Runs
import GrokBuild.Workflow.Journal
import GrokBuild.Workflow.JournalFaults
import GrokBuild.Lib.Since
import GrokBuild.Lib.FiniteMap
import GrokBuild.Lib.UndoLog
import GrokBuild.ChatRebuild.Reducer
import GrokBuild.Transcript.Rewind
import GrokBuild.Transcript.Runs
import GrokBuild.Transcript.PromptDrift
import GrokBuild.Transcript.RebuiltRewinds
import GrokBuild.Transcript.Cursor
import GrokBuild.Transcript.Seam
import GrokBuild.Transcript.Readers
import GrokBuild.Summary.Write
import GrokBuild.Summary.LostUpdates
import GrokBuild.Chat.Conversation
import GrokBuild.Chat.Repair
import GrokBuild.Chat.RepairRuns
import GrokBuild.Chat.Messages
import GrokBuild.Chat.Pairing
import GrokBuild.Chat.RequestPairing
import GrokBuild.Chat.Actor
import GrokBuild.Chat.TurnCapture
import GrokBuild.Scheduler.Clock
import GrokBuild.Scheduler.Actor
import GrokBuild.Scheduler.Versions
import GrokBuild.Text.Utf8
import GrokBuild.Text.Utf8Decode
import GrokBuild.Lib.Overlay
import GrokBuild.Config.Override
import GrokBuild.Config.Guards
import GrokBuild.Config.Identity
import GrokBuild.UnifiedList.Cursor
import GrokBuild.UnifiedList.Page
import GrokBuild.UnifiedList.Walk
import GrokBuild.Workspace.PathVirtualization
import GrokBuild.Workspace.CheckpointStore
import GrokBuild.Workspace.CheckpointFaults
import GrokBuild.Workspace.CheckpointSync
import GrokBuild.Workspace.FileState
import GrokBuild.Workspace.RewindSession
import GrokBuild.Workspace.RewindRestore
import GrokBuild.PlanMode.Tracker
import GrokBuild.PlanMode.Belief
import GrokBuild.HunkTracker.FailedReject
import GrokBuild.HunkTracker.HunkPatch
import GrokBuild.Lib.StableSort
import GrokBuild.ApplyPatch.Collisions
import GrokBuild.Permission.InlineScan
import GrokBuild.Permission.WordSpelling
import GrokBuild.Permission.WrapperGrammar
import GrokBuild.Permission.WrapperPeel
import GrokBuild.Permission.PathCollapse
import GrokBuild.Permission.PathSpelling
import GrokBuild.Permission.ShellPath
import GrokBuild.Permission.PeelFront
import GrokBuild.Permission.WritePaths
import GrokBuild.Permission.ShellFailClosed
import GrokBuild.ApplyPatch.Seek
import GrokBuild.ApplyPatch.Parser
import GrokBuild.ApplyPatch.PrintPatch
import GrokBuild.Permission.RuleParse
import GrokBuild.Permission.UrlPath
import GrokBuild.Permission.UrlDotSegments
import GrokBuild.Permission.RelativeForms
import GrokBuild.Permission.NormalForm
import GrokBuild.Chat.Rewind
import GrokBuild.Lib.Spans
import GrokBuild.Text.ByteSlices
import GrokBuild.Textarea.Graphemes
import GrokBuild.Textarea.AtomicRanges
import GrokBuild.Textarea.Editor
import GrokBuild.Textarea.PlanApplies
import GrokBuild.Textarea.Area
import GrokBuild.Textarea.UndoGroups
import GrokBuild.Textarea.ElementsIntact
import GrokBuild.Textarea.AtomicRun
import GrokBuild.Monitor.RateLimiter
import GrokBuild.Monitor.Overload
import GrokBuild.Scheduler.Interval
import GrokBuild.Compaction.Item
import GrokBuild.Compaction.Select
import GrokBuild.Compaction.Fit
import GrokBuild.Text.Tags
import GrokBuild.Text.Search
import GrokBuild.Compaction.UserQueries
import GrokBuild.Compaction.SummaryText
import GrokBuild.Compaction.SummaryKept
import GrokBuild.Compaction.SummaryBody
import GrokBuild.Compaction.QueryRounds
import GrokBuild.Chat.RetainedPrune
import GrokBuild.Chat.TokenBudget
import GrokBuild.Chat.BudgetFit
import GrokBuild.Chat.ItemJson
import GrokBuild.Chat.ImageBudget
import GrokBuild.Chat.ImageEviction
import GrokBuild.Chat.ImageSizes
import GrokBuild.Chat.ImageReclaim
import GrokBuild.Text.Lowercase
import GrokBuild.WebFetch.Domain
import GrokBuild.WebFetch.DomainUnion
import GrokBuild.UnifiedList.Requests
import GrokBuild.AttemptStore.ContentMembers
import GrokBuild.AttemptStore.ContentCheck
import GrokBuild.AttemptStore.ScanSafe
import GrokBuild.AttemptStore.ContentScan
import GrokBuild.Lib.JsonGrammar
import GrokBuild.ChunkMerge.ChunkIds
import GrokBuild.ChunkMerge.Runs
import GrokBuild.ChunkMerge.Steps
import GrokBuild.ChunkMerge.ReplayBuffer
import GrokBuild.Permission.GitSubcommand
import GrokBuild.Permission.GitWalk
import GrokBuild.Permission.Peelers
import GrokBuild.PagerDiff.Stitch
import GrokBuild.PagerDiff.Compose
import GrokBuild.PagerDiff.Fold
import GrokBuild.Chat.TwoPass
import GrokBuild.Lib.LastWrite
import GrokBuild.Workspace.RewindOrder
import GrokBuild.Transcript.Emission
import GrokBuild.Transcript.Collapse
import GrokBuild.Transcript.Survivors
import GrokBuild.Transcript.DeltaOrder
import GrokBuild.Storage.JsonlAppend
import GrokBuild.Storage.CwdSwitch
import GrokBuild.Usage.File
import GrokBuild.Transcript.ForkCopy
import GrokBuild.ToolUtil.Truncate
import GrokBuild.Transcript.PeekedRewinds
import GrokBuild.Lib.TokenCuts
import GrokBuild.Workspace.PathText
import GrokBuild.Workspace.PathRoundTrip
import GrokBuild.Workspace.PathClip
import GrokBuild.Workspace.RewindLines
