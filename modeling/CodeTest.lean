import CodeTest.Foundations.Circular
import CodeTest.Net.LoopBuffer
import CodeTest.Foundations.Machine
import CodeTest.Net.Stored
import CodeTest.Net.Fifo
import CodeTest.Net.Sending
import CodeTest.Foundations.Table
import CodeTest.Net.Receiving
import CodeTest.Net.Holes
import CodeTest.Net.Armed
import CodeTest.TimeOut.Manager
import CodeTest.TimeOut.Expiry
import CodeTest.Foundations.BinaryHeap
import CodeTest.Foundations.Memory
import CodeTest.Timer.MinHeapTimer
import CodeTest.Timer.Rearranged
import CodeTest.Timer.Valid
import CodeTest.Timer.Expire
import CodeTest.BanWord.Trie
import CodeTest.BanWord.Search
import CodeTest.Foundations.Chain
import CodeTest.SkipList.SkipList
import CodeTest.SkipList.Descent
import CodeTest.SkipList.Links
import CodeTest.SkipList.FiniteMap
import CodeTest.Foundations.Double
import CodeTest.Rpc.Route
import CodeTest.Rpc.Pending
import CodeTest.Rpc.Correlation
import CodeTest.Foundations.Ledger
import CodeTest.Rpc.Answered
import CodeTest.Rpc.MultiCall
import CodeTest.Rpc.Grouped
import CodeTest.Rpc.Coordinated
import CodeTest.Rpc.Collected
import CodeTest.MultiTask.Packs
import CodeTest.MultiTask.Completion
import CodeTest.ThreadPool.Tasks
import CodeTest.FrameExcutor.Batches
import CodeTest.Reactor.Echo
import CodeTest.LuaTable.DeepCopy
import CodeTest.LuaTable.DeepMerge
import CodeTest.Foundations.Tree
import CodeTest.LuaTable.TamperCheck
import CodeTest.LuaTable.Tampered
import CodeTest.LuaTable.TreeShaped
import CodeTest.Net.Messages
import CodeTest.Net.Bounds
import CodeTest.MynetEasy.FdList
import CodeTest.MynetEasy.Forgotten
import CodeTest.TimeManager.CTimerManager
import CodeTest.TimeManager.Flags
import CodeTest.Text.Unicode
import CodeTest.Text.Utf8sub
import CodeTest.Text.Version
import CodeTest.Foundations.StrictWeak
import CodeTest.Util.GetTop
import CodeTest.Util.Selected
import CodeTest.Util.OrderList
import CodeTest.Reactor.Failed
import CodeTest.Foundations.Dispatch
import CodeTest.TimeOut.Entries
import CodeTest.MultiTask.Expired
import CodeTest.Rpc.Expired
import CodeTest.Foundations.DepthFirst
import CodeTest.OnlineReload.Reloader
import CodeTest.OnlineReload.Order
import CodeTest.OnlineReload.Parent
import CodeTest.Timer.Due
import CodeTest.Timer.Clock
import CodeTest.Timer.Early
import CodeTest.Foundations.GreedyMatches
import CodeTest.BanWord.Reported
import CodeTest.Foundations.Positions
import CodeTest.ThreeSum.Sweep
import CodeTest.ThreeSum.Triples
import CodeTest.LuaTable.AllSame
import CodeTest.LuaTable.Merged
import CodeTest.Util.Bisection
import CodeTest.Foundations.ListTable
import CodeTest.Util.Union
import CodeTest.Foundations.Shuffle
import CodeTest.Util.Disorder
import CodeTest.Foundations.FirstOccurrences
import CodeTest.Util.Duplicates
import CodeTest.Foundations.Occurrences
import CodeTest.Text.Split
import CodeTest.Text.Scanners
import CodeTest.Net.ReadAll
import CodeTest.NtyReactor.Callbacks
import CodeTest.NtyReactor.Bounds
import CodeTest.Text.Chinese
import CodeTest.CppNet.BufferBlock
import CodeTest.CppNet.BlockStored
import CodeTest.CppNet.BufferQueue
import CodeTest.CppNet.QueueStored
import CodeTest.CppNet.BlockFifo
import CodeTest.CppNet.QueueWritten
import CodeTest.CppNet.QueueFifo
import CodeTest.CppNet.RWSocket
import CodeTest.CppNet.Sent
import CodeTest.CppNet.Received
import CodeTest.CppNet.Closed
import CodeTest.Foundations.Regions
import CodeTest.CppNet.PoolAlloter
import CodeTest.CppNet.PoolLayout
import CodeTest.CppNet.PoolBlocks
import CodeTest.UvLua.MinHeap
import CodeTest.UvLua.Sifted
import CodeTest.UvLua.Holds
import CodeTest.UvLua.TcpServer
import CodeTest.UvLua.Watched
import CodeTest.UvLua.Idle
import CodeTest.Foundations.Binary64
import CodeTest.UvLua.Decoder
import CodeTest.UvLua.Unpacked
import CodeTest.UvLua.StreamDecoder
import CodeTest.UvLua.Streamed
import CodeTest.Foundations.Absorb
import CodeTest.CppNet.Md5
import CodeTest.CppNet.Digest
import CodeTest.CppNet.FindStr
