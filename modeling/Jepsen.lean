import Jepsen.Library.Bits
import Jepsen.Library.Runs
import Jepsen.Generator.TranslationTable
import Jepsen.Generator.Context
import Jepsen.Generator.ContextInvariant
import Jepsen.Generator.ContextHistory
import Jepsen.History.Op
import Jepsen.Generator.Protocol
import Jepsen.Generator.Validate
import Jepsen.Generator.Interpreter
import Jepsen.Generator.InterpreterInvariant
import Jepsen.Generator.OpMap
import Jepsen.Generator.InterpreterJournal
import Jepsen.Generator.Combinators
import Jepsen.Independent.ConcurrentGenerator
import Jepsen.Independent.Walk
import Jepsen.Independent.Ledger
import Jepsen.Independent.Groups
import Jepsen.Independent.ClientView
import Jepsen.Independent.Traced
import Jepsen.Independent.TracedInvariant
import Jepsen.Independent.KeyPartition
import Jepsen.Independent.Completeness
import Jepsen.Independent.Routing
import Jepsen.Independent.UpdateThrows
import Jepsen.Library.Assoc
import Jepsen.Generator.ValidateGate
import Jepsen.Checker.SetFull
import Jepsen.Checker.SetFullTimeline
import Jepsen.Checker.SetFullOutcome
import Jepsen.Checker.SetFullVerdict
import Jepsen.Checker.SetFullStale
import Jepsen.Checker.CounterBounds
import Jepsen.Library.Multimap
import Jepsen.Library.ChunkedFold
import Jepsen.Tests.Kafka.Op
import Jepsen.Tests.Kafka.ByType
import Jepsen.Tests.Kafka.Logs
import Jepsen.Tests.Kafka.VersionOrders
import Jepsen.Tests.Kafka.VersionOrdersSpec
import Jepsen.Tests.Kafka.LogIndex
import Jepsen.Tests.Kafka.LostWrite
import Jepsen.Tests.Kafka.Unseen
import Jepsen.Tests.Kafka.PollSkip
import Jepsen.Tests.Kafka.WwGraph
import Jepsen.Tests.Kafka.PollUnseen
import Jepsen.Tests.Kafka.ConsumeCounts
import Jepsen.Tests.Kafka.RealtimeLag
import Jepsen.Tests.CausalReverseSpec
import Jepsen.Tests.LongForkSpec
import Jepsen.Independent.Subhistories
import Jepsen.Resources.CorruptFileRoundTrip
import Jepsen.ReconnectSafety
import Jepsen.Checker.TotalQueue
import Jepsen.Cockroach.Monotonic
import Jepsen.MongodbSmartos.TransferIsolation
import Jepsen.Tidb.Nemesis
import Jepsen.Control.EscapeWords
import Jepsen.Generator.ThreadNames
import Jepsen.Generator.SoonestFairness
import Jepsen.Generator.Reserve
import Jepsen.Generator.ReserveRanges
import Jepsen.Generator.UntilOk
import Jepsen.Generator.CycleTimes
import Jepsen.Generator.EachProcessCopies
import Jepsen.Resources.OverflowFree
import Jepsen.Chronos.Targets
import Jepsen.Hazelcast.FenceTenures
import Jepsen.Faunadb.MonotonicStates
import Jepsen.Nemesis.Combined
import Jepsen.Stolon.Ledger
import Jepsen.Faunadb.Pages
import Jepsen.MongodbSmartos.TransferFinish
import Jepsen.Resources.StrobeTime
import Jepsen.Tidb.WrTxns
import Jepsen.Store.Tests
import Jepsen.Db.LocalNames
import Jepsen.Control.ArchiveRetries
import Jepsen.Control.ScpUpload
import Jepsen.Control.DownloadFrame
import Jepsen.Checker.ShortNodeNames
import Jepsen.Util.IntegerIntervals
import Jepsen.Util.NemesisIntervals
import Jepsen.Control.ChangeDir
import Jepsen.Library.DateTime
import Jepsen.Faunadb.TimestampValues
import Jepsen.Faunadb.Timestamps
import Jepsen.Dgraph.MergedWindows
import Jepsen.Dgraph.Sequential
import Jepsen.Faunadb.Topologies
import Jepsen.Store.PartialMap
import Jepsen.Library.Bytes
import Jepsen.Store.Blocks
import Jepsen.Store.BlockStream
import Jepsen.Store.Handle
import Jepsen.Store.Preparation
import Jepsen.Library.FileWrites
import Jepsen.Store.Sessions
import Jepsen.Store.IndexBlocks
import Jepsen.Store.StoredBlocks
import Jepsen.Store.IndexedFiles
import Jepsen.Store.SessionWrites
import Jepsen.Store.CrashConsistency
import Jepsen.Library.Descent
import Jepsen.Store.Copying
import Jepsen.Store.GarbageCollection
import Jepsen.Generator.Drives
import Jepsen.Generator.Scheduling
import Jepsen.Generator.Limits
import Jepsen.Generator.Phases
import Jepsen.Generator.Choices
import Jepsen.Generator.Transforms
