import TinyRpc.Core.Stream
import TinyRpc.Core.Meter
import TinyRpc.Core.Format
import TinyRpc.Core.SortedInsert
import TinyRpc.Core.Bytes
import TinyRpc.Core.Window
import TinyRpc.Core.Machine
import TinyRpc.Core.Registry
import TinyRpc.Core.Buckets
import TinyRpc.Core.Chain
import TinyRpc.Core.Tally
import TinyRpc.Core.Buffer
import TinyRpc.Core.DigitWriter
import TinyRpc.Core.Decimal
import TinyRpc.Core.Literal
import TinyRpc.Core.BinaryFloat
import TinyRpc.Protocol.Endian
import TinyRpc.Protocol.Archive
import TinyRpc.Protocol.Accept
import TinyRpc.Protocol.Work
import TinyRpc.Protocol.NetworkOrder
import TinyRpc.Protocol.Frame
import TinyRpc.Protocol.Rpc
import TinyRpc.Protocol.Dispatch
import TinyRpc.Common.CoroutinePool
import TinyRpc.Common.CoroutineSwitch
import TinyRpc.Common.Itoa
import TinyRpc.Common.Ptrtoa
import TinyRpc.Common.DiyFp
import TinyRpc.Common.Grisu
import TinyRpc.Common.DigitTrace
import TinyRpc.Common.Dtoa
import TinyRpc.Common.LogStream
import TinyRpc.Common.DtoaRead
import TinyRpc.Common.LogMessage
import TinyRpc.Common.MagicGet
import TinyRpc.Async.Task
import TinyRpc.Async.AtomicEvent
import TinyRpc.Async.AtomicEventRuns
import TinyRpc.Async.WhenAll
import TinyRpc.Async.ThreadPool
import TinyRpc.Async.ThreadPoolShutdown
import TinyRpc.Async.TaskContainer
import TinyRpc.Async.TaskContainerReuse
import TinyRpc.Async.TaskContainerLifetime
import TinyRpc.Async.SyncWait
import TinyRpc.Async.Generator
import TinyRpc.Async.Handles
import TinyRpc.Async.Ownership
import TinyRpc.Net.TcpBuffer
import TinyRpc.Net.ByteQueue
import TinyRpc.Net.TcpConnection
import TinyRpc.Net.TcpSession
import TinyRpc.Net.TcpClient
import TinyRpc.Net.TcpServer
import TinyRpc.Net.ReactorTasks
import TinyRpc.Net.Reactor
import TinyRpc.Net.Registration
import TinyRpc.Net.Unregistration
import TinyRpc.Net.FdEventContainer
import TinyRpc.Net.FdTable
import TinyRpc.Net.Timer
import TinyRpc.Net.TimerRuns
import TinyRpc.Net.TimerArming
import TinyRpc.Net.TimeWheel
import TinyRpc.Net.Hook
import TinyRpc.Net.HookResume
import TinyRpc.Net.Channel
import TinyRpc.Net.Wakeup
import TinyRpc.Net.Clients
import TinyRpc.Net.ServerLoop
