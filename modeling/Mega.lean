import Mega.Lib.Lineage
import Mega.Lib.Table
import Mega.Lib.PathCone
import Mega.Lib.PointedEnd
import Mega.Lib.Prog
import Mega.Lib.SortBy
import Mega.Lib.Sql
import Mega.Push.Chain
import Mega.Push.Accepted
import Mega.Push.KnownTip
import Mega.Push.Sticky
import Mega.PushQueue.Storage
import Mega.PushQueue.Moves
import Mega.PushQueue.Exclusive
import Mega.PushQueue.Progress
import Mega.PushQueue.Successors
import Mega.RootChain.Storage
import Mega.RootChain.Halted
import Mega.RootChain.Integrity
import Mega.View.Filter
import Mega.View.Canonical
import Mega.View.Semantics
import Mega.View.Invert
import Mega.View.Validate
import Mega.View.SourcePaths
import Mega.View.PrintUnique
import Mega.View.TreeSource
import Mega.View.FilterTree
import Mega.View.Meaning
import Mega.View.Excluded
import Mega.View.Exclusion
import Mega.View.Shape
import Mega.View.FilterLaws
import Mega.View.Independence
import Mega.View.EvalState
import Mega.View.EvalRefines
import Mega.View.StructuralHash
import Mega.View.Contract
import Mega.View.CommitMessage
import Mega.RootChain.Budget
import Mega.View.MemoTransparent
import Mega.View.Parse
import Mega.View.ParseTotal
import Mega.View.Reload
import Mega.View.NormalForm
import Mega.View.Admission
import Mega.View.AdmissionRight
import Mega.Snapshot.Paths
import Mega.Snapshot.ChunkMapIndex
import Mega.Snapshot.RetentionDag
import Mega.Snapshot.PathBudget
import Mega.Lib.Run
import Mega.Lib.Lines
import Mega.Lib.Bisect
import Mega.Lib.Fallible
import Mega.Lib.Explore
import Mega.Lib.DepthFirst
import Mega.Lib.Kahn
import Mega.Lib.Interleave
import Mega.Lib.Phases
import Mega.Lib.PrefixCode
import Mega.Pack.Store
import Mega.Pack.Traverse
import Mega.Pack.Monorepo
import Mega.Pack.MonorepoSpec
import Mega.Pack.Balanced
import Mega.Pack.Complete
import Mega.Capture.Ingest
import Mega.Capture.IngestRight
import Mega.Media.Protocol
import Mega.Media.Paging
import Mega.Media.Service
import Mega.Media.Calls
import Mega.Media.TaskStates
import Mega.Media.Published
import Mega.Media.Programs
import Mega.Receipts.Request
import Mega.Receipts.Replay
import Mega.ReceivePack.Unpack
import Mega.Traces.Objects
import Mega.Traces.Fetch
import Mega.Traces.FetchExact
import Mega.Traces.Publication
import Mega.Traces.RawLinks
import Mega.Traces.ClosureExact
import Mega.Lib.Windows
import Mega.History.Pages
import Mega.Mono.PathTrees
import Mega.Traces.Fragments
import Mega.Lib.GreedySplit
import Mega.Json.Strings
import Mega.Media.PageSplit
import Mega.Media.EntryRows
import Mega.Media.PageRows
import Mega.Lib.Firsts
import Mega.Media.MissingPages
import Mega.Traces.HashingReader
import Mega.Traces.PackDecode
import Mega.Traces.PackStream
import Mega.Traces.PackHeader
import Mega.Lib.Decimal
import Mega.Lib.Weights
import Mega.Lib.Splits
import Mega.Json.Numerals
import Mega.Json.Values
import Mega.Json.Decimals
import Mega.Json.Meaning
import Mega.Diff.Similarity
import Mega.Mono.RefPath
import Mega.View.MemoAccounting
import Mega.Receipts.RequestDigest
import Mega.Lib.Calendar
import Mega.Policy.Timestamps
import Mega.Lib.Recency
import Mega.Media.CacheAccounting
import Mega.Lib.Utf8
import Mega.GithubSync.Diagnostics
