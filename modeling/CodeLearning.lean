import CodeLearning.Avl.Tree
import CodeLearning.Avl.Insert
import CodeLearning.Avl.Delete
import CodeLearning.OpenServer.Client
import CodeLearning.OpenServer.Select
import CodeLearning.OpenServer.Poll
import CodeLearning.Lib.ByteFile
import CodeLearning.Lib.Decimal
import CodeLearning.Lib.FileProgram
import CodeLearning.Lib.LinkedList
import CodeLearning.Lib.RelyGuarantee
import CodeLearning.Lib.LockOrder
import CodeLearning.Lib.Overtaking
import CodeLearning.Db.Code
import CodeLearning.Db.LockDiscipline
import CodeLearning.Db.Layout
import CodeLearning.Db.Chain
import CodeLearning.Db.Ghost
import CodeLearning.Db.Rules
import CodeLearning.Db.LockRules
import CodeLearning.Db.Functions
import CodeLearning.Db.Operations
import CodeLearning.Db.Requests
import CodeLearning.Db.Stored
import CodeLearning.Db.Sessions
import CodeLearning.Db.Refinement
import CodeLearning.Db.OnDisk
import CodeLearning.Db.Serial
import CodeLearning.Lib.Words
import CodeLearning.OpenServer.Request
import CodeLearning.OpenServer.Reply
import CodeLearning.Lcx.Drain
import CodeLearning.Polls.Vote
import CodeLearning.Threads.JobQueue
import CodeLearning.Aio.Rot13
import CodeLearning.Threads.RefCount
import CodeLearning.Threads.RefCountInv
import CodeLearning.Threads.RefCountStep
import CodeLearning.Threads.RefCountRuns
import CodeLearning.Transwarp.Db
import CodeLearning.Transwarp.Nesting
import CodeLearning.Transwarp.Transactions
import CodeLearning.DisjSet.Partition
import CodeLearning.DisjSet.Height
import CodeLearning.PriorityQueue.Leftist
import CodeLearning.Lib.BinaryHeap
import CodeLearning.PriorityQueue.ArrayHeap
import CodeLearning.HashQuad.Table
import CodeLearning.PriorityQueue.Binomial
import CodeLearning.HashQuad.HalfFull
import CodeLearning.HashQuad.Range
import CodeLearning.DevZero.Alternation
import CodeLearning.Lib.InternetChecksum
import CodeLearning.Tun.Packet
import CodeLearning.Tun.IcmpEcho
import CodeLearning.Tun.DiscardTcp
import CodeLearning.Tun.Checksum
import CodeLearning.Tun.Acknowledgement
import CodeLearning.OpenServer.BufArgs
import CodeLearning.Markdown.ReadMd
import CodeLearning.Lib.Regex
import CodeLearning.Markdown.Rules
import CodeLearning.Markdown.Dispatch
import CodeLearning.Lib.CInt
import CodeLearning.Clrs.MaxSubarray
import CodeLearning.Db.Codec
import CodeLearning.Transwarp.Exit
import CodeLearning.Db.Scan
import CodeLearning.Db.Pointer
import CodeLearning.Db.ScanFetch
import CodeLearning.Lcx.Options
import CodeLearning.Lib.StringBuffer
import CodeLearning.Ftw.Walk
import CodeLearning.Ftw.Statistics
import CodeLearning.Popen.ChildTable
import CodeLearning.HashQuad.Rehash
import CodeLearning.Bst.Delete
import CodeLearning.Clrs.SubRange
import CodeLearning.Clrs.Windows
import CodeLearning.Clrs.Inversions
import CodeLearning.Clrs.CRandom
import CodeLearning.Ftw.PathBuffer
import CodeLearning.Lib.Rearrangement
import CodeLearning.Clrs.Swap
import CodeLearning.Clrs.ExchangeSorts
import CodeLearning.Lib.ArrayParts
import CodeLearning.Lib.MergeParts
import CodeLearning.Clrs.MergeSort
import CodeLearning.Clrs.Partition
import CodeLearning.Clrs.QuickSort
import CodeLearning.Sort.MedianPartition
import CodeLearning.Sort.MedianQuickSort
import CodeLearning.Clrs.FindSum
import CodeLearning.Clrs.BinarySearch
import CodeLearning.Lib.SiftDown
import CodeLearning.Clrs.HeapSort
import CodeLearning.Lib.Machine
import CodeLearning.Threads.WorkQueue
import CodeLearning.Pipe.ReadnWriten
import CodeLearning.Avl.Runs
import CodeLearning.Lib.ListFamily
import CodeLearning.Lists.HeaderList
import CodeLearning.HashSep.Chains
import CodeLearning.Tun.Handshake
import CodeLearning.Daemon.AlreadyRunning
import CodeLearning.Signals.Deadlock
import CodeLearning.Lcx.Connections
import CodeLearning.Lib.PrefixReader
import CodeLearning.Markdown.ReadBack
import CodeLearning.Terminal.Modes
import CodeLearning.XsiIpc.PollQueues
