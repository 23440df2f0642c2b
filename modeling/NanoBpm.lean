import NanoBpm.Lib.Index
import NanoBpm.Model
import NanoBpm.State
import NanoBpm.Event
import NanoBpm.Apply
import NanoBpm.Command
import NanoBpm.Engine
import NanoBpm.Memory
import NanoBpm.JobIndex
import NanoBpm.JobRuns
import NanoBpm.Seglog.Segment
import NanoBpm.Seglog.TornTail
import NanoBpm.Lib.Tiling
import NanoBpm.Replay
import NanoBpm.Seglog.Store
import NanoBpm.Seglog.Layout
import NanoBpm.Seglog.Recover
import NanoBpm.Seglog.Multi
import NanoBpm.Seglog.MultiRecover
import NanoBpm.Seglog.MultiRuns
import NanoBpm.Lib.Latest
import NanoBpm.Seglog.Deployments
import NanoBpm.Planner.Activate
import NanoBpm.Planner.Command
import NanoBpm.Planner.Sound
import NanoBpm.Seglog.CatchUp
import NanoBpm.Seglog.Mixed
import NanoBpm.Seglog.Retention
import NanoBpm.Seglog.Writer
import NanoBpm.Lib.Overwrite
import NanoBpm.Cells
import NanoBpm.Lib.Search
import NanoBpm.Planner.Emits
import NanoBpm.Planner.InclusiveJoin
import NanoBpm.Arrivals
import NanoBpm.Lib.Values
import NanoBpm.Planner.Continuations
import NanoBpm.Planner.StartTriggers
import NanoBpm.Leases
import NanoBpm.Planner.LeaseRuns
import NanoBpm.Lib.Counted
import NanoBpm.Lib.Filed
import NanoBpm.Planner.Inflight
import NanoBpm.Lib.Greatest
import NanoBpm.Planner.Publishing
import NanoBpm.Raft.Fence
import NanoBpm.Raft.Snapshots
import NanoBpm.Planner.Deploying
import NanoBpm.Raft.LogStore
import NanoBpm.Raft.LogStoreCrash
import NanoBpm.Lib.KeepFirst
import NanoBpm.ReadModel.Decisions
import NanoBpm.ReadModel.Redelivery
import NanoBpm.Dmn.Compose
import NanoBpm.Raft.LogReaderRuns
import NanoBpm.Planner.Debug
import NanoBpm.Feel.Ast
import NanoBpm.Feel.Builtins
import NanoBpm.Feel.Eval
import NanoBpm.Feel.Expression
import NanoBpm.Feel.Termination
import NanoBpm.Feel.Calendar
import NanoBpm.Feel.Integers
import NanoBpm.Lib.Smooth
import NanoBpm.Placement
import NanoBpm.Feel.Regex
import NanoBpm.Feel.RegexCompile
import NanoBpm.Feel.RegexFinds
import NanoBpm.Feel.RegexLanguage
import NanoBpm.Feel.RegexMatches
import NanoBpm.Feel.Arithmetic
import NanoBpm.Feel.Lexical
import NanoBpm.Raft.Batcher
import NanoBpm.Raft.BatcherRuns
import NanoBpm.Raft.LogStoreCounters
import NanoBpm.ArrivalBags
import NanoBpm.Dmn.Policies
import NanoBpm.DrainGuard
import NanoBpm.DrainGuardRuns
import NanoBpm.Failover
import NanoBpm.Feel.DurationGrammar
import NanoBpm.Feel.Intervals
import NanoBpm.Feel.Positions
import NanoBpm.Feel.Sorting
import NanoBpm.Feel.TemporalText
import NanoBpm.Inlining
import NanoBpm.Lib.Base64
import NanoBpm.Lib.Climb
import NanoBpm.Lib.Paging
import NanoBpm.Lib.Radix
import NanoBpm.Lib.Reorder
import NanoBpm.Lib.Utf8Scan
import NanoBpm.Lib.Wildcard
import NanoBpm.Planner.IoMappings
import NanoBpm.Query.Cursors
import NanoBpm.Query.Like
import NanoBpm.Query.Paginate
import NanoBpm.Query.Walks
import NanoBpm.ReadModel.Roots
import NanoBpm.Xml.Entities
import NanoBpm.Xml.Tags
import NanoBpm.Xml.Tokens
import NanoBpm.Xml.Trees
