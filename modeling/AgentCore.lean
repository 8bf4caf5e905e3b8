import AgentCore.Lib.Groups
import AgentCore.Text
import AgentCore.Messages
import AgentCore.Spill
import AgentCore.SpillBudget
import AgentCore.SpillFooter
import AgentCore.SpillPreview
import AgentCore.SpillWrite
import AgentCore.Pairing
import AgentCore.Lib.Double
import AgentCore.Lib.Slots
import AgentCore.Lib.Runs
import AgentCore.Lib.Semaphore
import AgentCore.Lib.Keyed
import AgentCore.Lib.Cursor
import AgentCore.Lib.Halting
import AgentCore.Lib.Delimited
import AgentCore.Lib.Cut
import AgentCore.Lib.Blocks
import AgentCore.Lib.Trim
import AgentCore.Lib.Json
import AgentCore.Lib.Search
import AgentCore.Lib.Bisect
import AgentCore.ImageAttach
import AgentCore.ImageBound
import AgentCore.PngContainer
import AgentCore.JpegSize
import AgentCore.Compaction.Compact
import AgentCore.Compaction.Llm
import AgentCore.Compaction.Tiered
import AgentCore.Compaction.Pairing
import AgentCore.Compaction.Task
import AgentCore.Compaction.Unseen
import AgentCore.Compaction.Recovery
import AgentCore.Compaction.Manifest
import AgentCore.Compaction.Projections
import AgentCore.Loop.History
import AgentCore.Loop.Turn
import AgentCore.Loop.Compactors
import AgentCore.Loop.Run
import AgentCore.Loop.Budget
import AgentCore.Loop.Pairing
import AgentCore.Loop.Rollback
import AgentCore.Loop.Replay
import AgentCore.Loop.ThinkTags
import AgentCore.Loop.Arguments
import AgentCore.Loop.Runaway
import AgentCore.Loop.Call
import AgentCore.Loop.Ledger
import AgentCore.Loop.Rounds
import AgentCore.Loop.RunawayLimits
import AgentCore.Loop.Deadline
import AgentCore.Loop.ToolExec
import AgentCore.Loop.ToolBatch
import AgentCore.Loop.StreamTools
import AgentCore.Loop.Thinking
import AgentCore.Loop.LeakedReasoning
import AgentCore.Lib.JsonGrammar
import AgentCore.Lib.JsonLiterals
import AgentCore.Loop.ToolCallParser
import AgentCore.Loop.ToolCallRepair
import AgentCore.Loop.TruncatedCall
import AgentCore.AgentBus.SpawnGuard
import AgentCore.AgentBus.Accounting
import AgentCore.AgentBus.Boundaries
import AgentCore.AgentBus.Trimmer
import AgentCore.AgentBus.Identity
import AgentCore.AgentBus.Board
import AgentCore.AgentBus.Bus
import AgentCore.AgentBus.Moves
import AgentCore.AgentBus.Invariant
import AgentCore.AgentBus.Status
import AgentCore.AgentBus.Collect
import AgentCore.AgentBus.Rehydration
import AgentCore.AgentBus.Queue
import AgentCore.AgentBus.Serial
import AgentCore.AgentBus.Sessions
import AgentCore.AgentBus.Exchange
import AgentCore.AgentBus.Cleanup
import AgentCore.AgentBus.Reports
import AgentCore.AgentBus.FanIn
import AgentCore.AgentBus.Comm
import AgentCore.AgentBus.Overlap
import AgentCore.Loop.Usage
import AgentCore.Dag.MiniDag
import AgentCore.Dag.Resume
import AgentCore.Dag.Reach
import AgentCore.Dag.Fresh
import AgentCore.Providers.Errors
import AgentCore.Providers.Stream
import AgentCore.Providers.Chain
import AgentCore.Providers.Legs
import AgentCore.Loop.RequestBound
import AgentCore.Providers.Cooldown
import AgentCore.Providers.Wire
import AgentCore.Providers.Responses
import AgentCore.Providers.AnthropicWire
import AgentCore.Providers.WirePairing
import AgentCore.Providers.AnthropicCache
import AgentCore.Lib.Indexed
import AgentCore.Providers.AnthropicStream
import AgentCore.Providers.StreamAgreement
import AgentCore.Lib.JsonSort
import AgentCore.Context.Journal
import AgentCore.Context.Blobs
import AgentCore.Context.Faithful
import AgentCore.Context.Interleaving
import AgentCore.Lease
import AgentCore.Scheduling.Scheduler
import AgentCore.Scheduling.WallTime
import AgentCore.Cycle.WriteAudit
import AgentCore.Cycle.Auditors
import AgentCore.Lib.Spans
import AgentCore.Observers.Trajectory
import AgentCore.Observers.LeakedToolCallRetry
import AgentCore.Observers.TargetHosts
import AgentCore.Observers.TargetVerdicts
import AgentCore.Observers.StuckTarget
import AgentCore.Observers.Spool
import AgentCore.Middleware.LlmProxy
import AgentCore.Providers.StreamActivity
import AgentCore.Providers.DoneSentinel
import AgentCore.Providers.Retriable
import AgentCore.Lib.Window
import AgentCore.Loop.Guardrails
import AgentCore.Loop.ContextBudget
import AgentCore.SessionHistory
import AgentCore.Finalization.ReplayProtocol
import AgentCore.Deliverables.Paths
import AgentCore.Deliverables.Manifest
import AgentCore.Deliverables.Claims
import AgentCore.Lib.JsonDecoder
import AgentCore.Cycle.AuditJson
import AgentCore.Cycle.AuditReports
import AgentCore.Lib.Buckets
import AgentCore.Cycle.Consensus
import AgentCore.Middleware.Summarization
import AgentCore.Lib.Meter
import AgentCore.Lib.Lines
import AgentCore.Lib.BigEndian
import AgentCore.Lib.Repeats
import AgentCore.Middleware.StreamRepetition
import AgentCore.Middleware.LoopDetection
import AgentCore.Lib.Matches
import AgentCore.Middleware.ThinkingTags
import AgentCore.Middleware.OutputRepair
import AgentCore.Middleware.RateLimit
import AgentCore.Models.TaskBudget
import AgentCore.WallTimeLease
import AgentCore.Observers.WallClock
import AgentCore.Providers.NonBlockingStream
import AgentCore.Lib.Noninterference
import AgentCore.Registries.ServiceScope
import AgentCore.Dag.GraphBuilder
import AgentCore.Dag.NodeWrapper
import AgentCore.AgentBus.Once
import AgentCore.Observers.RepetitionGuard
import AgentCore.Observers.TextRepetitionGuard
import AgentCore.Observers.ContextSizeGuard
import AgentCore.UsageMeter
import AgentCore.Loop.Observers
import AgentCore.Observers.InLoop
