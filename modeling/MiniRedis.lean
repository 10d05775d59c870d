import MiniRedis.Client.Lines
import MiniRedis.Client.Link
import MiniRedis.Client.Liveness
import MiniRedis.Client.OneShot
import MiniRedis.Client.PrintValue
import MiniRedis.Client.Progress
import MiniRedis.Client.Repl
import MiniRedis.Client.SendCommand
import MiniRedis.Client.Session
import MiniRedis.Common.Bytes
import MiniRedis.Data.Balance
import MiniRedis.Data.Double
import MiniRedis.Data.HeapOrder
import MiniRedis.Data.Ledger
import MiniRedis.Data.Linked
import MiniRedis.Data.LittleEndian
import MiniRedis.Data.MachineInt
import MiniRedis.Data.Passes
import MiniRedis.Data.Program
import MiniRedis.Data.Runs
import MiniRedis.Data.SearchTree
import MiniRedis.Data.Slots
import MiniRedis.Data.StreamSplit
import MiniRedis.Data.Threads
import MiniRedis.Data.TreeContext
import MiniRedis.Ds.Avl
import MiniRedis.Ds.AvlChecked
import MiniRedis.Ds.AvlDel
import MiniRedis.Ds.AvlFix
import MiniRedis.Ds.AvlHeight
import MiniRedis.Ds.AvlLayout
import MiniRedis.Ds.AvlOffset
import MiniRedis.Ds.AvlRuns
import MiniRedis.Ds.DList
import MiniRedis.Ds.DListRuns
import MiniRedis.Ds.Heap
import MiniRedis.Ds.HeapSpec
import MiniRedis.Ds.Timers
import MiniRedis.Ds.ZNodes
import MiniRedis.Ds.ZSet
import MiniRedis.Ds.ZSetIndex
import MiniRedis.Ds.ZSetPasses
import MiniRedis.Ds.ZSetRuns
import MiniRedis.Ds.ZSetWalk
import MiniRedis.Net.Socket
import MiniRedis.Protocol.Serialize
import MiniRedis.Protocol.Wire
import MiniRedis.Server.ActiveExpiry
import MiniRedis.Server.BackPressure
import MiniRedis.Server.Command
import MiniRedis.Server.Connection
import MiniRedis.Server.DatabaseRuns
import MiniRedis.Server.Descriptors
import MiniRedis.Server.Dispatch
import MiniRedis.Server.EventLoop
import MiniRedis.Server.EventLoopSpec
import MiniRedis.Server.Expiry
import MiniRedis.Server.ExpiryProgress
import MiniRedis.Server.FrameRuns
import MiniRedis.Server.Framing
import MiniRedis.Server.FramingClose
import MiniRedis.Server.History
import MiniRedis.Server.IdleList
import MiniRedis.Server.IdleReaping
import MiniRedis.Server.Isolation
import MiniRedis.Server.Keyspace
import MiniRedis.Server.KeyspaceRuns
import MiniRedis.Server.Linearizable
import MiniRedis.Server.LoopEvents
import MiniRedis.Server.NeverFails
import MiniRedis.Server.NumericArguments
import MiniRedis.Server.Ownership
import MiniRedis.Server.OwnershipRuns
import MiniRedis.Server.PollTimeout
import MiniRedis.Server.RangeQuery
import MiniRedis.Server.RangeReplies
import MiniRedis.Server.Refinement
import MiniRedis.Server.Replies
import MiniRedis.Server.ReplyFrames
import MiniRedis.Server.Request
import MiniRedis.Server.RequestSpec
import MiniRedis.Server.Returns
import MiniRedis.Server.Service
import MiniRedis.Server.SortedSets
import MiniRedis.Server.Streams
import MiniRedis.Server.Teardown
import MiniRedis.Server.TeardownRuns
import MiniRedis.Server.TtlRuns
import MiniRedis.Store.Amortized
import MiniRedis.Store.Chains
import MiniRedis.Store.ChainsRefine
import MiniRedis.Store.Congruence
import MiniRedis.Store.Database
import MiniRedis.Store.DatabaseInv
import MiniRedis.Store.DatabaseOps
import MiniRedis.Store.HashMapRuns
import MiniRedis.Store.HashTable
import MiniRedis.Store.KeyIndex
import MiniRedis.Store.LoadFactor
import MiniRedis.Store.Migration
import MiniRedis.Store.MigrationWork
import MiniRedis.Store.Ownership
import MiniRedis.Store.Reaping
import MiniRedis.Store.Rehashing
import MiniRedis.Threadpool.CondVar
import MiniRedis.Threadpool.Progress
import MiniRedis.Threadpool.ThreadPool
