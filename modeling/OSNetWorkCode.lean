import OSNetWorkCode.Lib.Fifo
import OSNetWorkCode.Pthread.Ledger
import OSNetWorkCode.Pthread.Monitor
import OSNetWorkCode.Pthread.Quiescence
import OSNetWorkCode.RingQueue.Model
import OSNetWorkCode.RingQueue.Permits
import OSNetWorkCode.RingQueue.Refinement
import OSNetWorkCode.Pthread.Wakeups
import OSNetWorkCode.Pthread.Schedule
import OSNetWorkCode.BlockQueue.Model
import OSNetWorkCode.BlockQueue.Refinement
import OSNetWorkCode.BlockQueue.Wakeups
import OSNetWorkCode.Pthread.Trace
import OSNetWorkCode.ThreadPool.Model
import OSNetWorkCode.ThreadPool.Tasks
import OSNetWorkCode.ThreadPool.Wakeups
import OSNetWorkCode.Lib.CString
import OSNetWorkCode.Lib.Decimal
import OSNetWorkCode.Net.Sockaddr
import OSNetWorkCode.UdpServer.Model
import OSNetWorkCode.UdpServer.Relay
import OSNetWorkCode.TcpServer.Model
import OSNetWorkCode.TcpServer.Descriptors
import OSNetWorkCode.Lib.FdTable
import OSNetWorkCode.Lib.Word
import OSNetWorkCode.ProcessPool.Model
import OSNetWorkCode.ProcessPool.Descriptors
import OSNetWorkCode.ProcessPool.Commands
import OSNetWorkCode.ProcessPool.Shutdown
import OSNetWorkCode.Lib.Block
import OSNetWorkCode.Shell.Model
import OSNetWorkCode.Shell.Tokens
import OSNetWorkCode.Shell.Parse
import OSNetWorkCode.RingQueue.Slots
import OSNetWorkCode.RingQueue.Progress
import OSNetWorkCode.BlockQueue.Progress
import OSNetWorkCode.UdpServer.Users
import OSNetWorkCode.TcpServer.Isolation
import OSNetWorkCode.MyFile.Model
import OSNetWorkCode.MyFile.Bytes
import OSNetWorkCode.Pthread.DoubleChecked
import OSNetWorkCode.Singleton.Instances
import OSNetWorkCode.Ownership.Model
import OSNetWorkCode.Ownership.Sound
import OSNetWorkCode.TcpClient.Model
import OSNetWorkCode.TcpClient.Standstill
import OSNetWorkCode.ShmPipe.Model
import OSNetWorkCode.ShmPipe.Delivery
import OSNetWorkCode.RingQueue.Interrupts
import OSNetWorkCode.UdpServer.Client
import OSNetWorkCode.TcpClient.Stream
import OSNetWorkCode.TcpServer.Echo
import OSNetWorkCode.Shell.Redirection
import OSNetWorkCode.Shell.Safety
import OSNetWorkCode.ShmPipe.Books
import OSNetWorkCode.ShmPipe.Channel
import OSNetWorkCode.MyCond.Model
import OSNetWorkCode.MyCond.Stop
import OSNetWorkCode.Lib.Stream
import OSNetWorkCode.NamedPipe.Messages
import OSNetWorkCode.Lib.Checked
import OSNetWorkCode.MyMath.AddToTarget
import OSNetWorkCode.Pthread.Starter
import OSNetWorkCode.Tickets.Model
import OSNetWorkCode.Tickets.Sale
import OSNetWorkCode.MyFile.Bounds
import OSNetWorkCode.Shell.Session
import OSNetWorkCode.RingQueue.Throws
import OSNetWorkCode.ForkServer.Descriptors
import OSNetWorkCode.ForkServer.Echo
import OSNetWorkCode.Lib.Inevitable
import OSNetWorkCode.Pipe.Model
import OSNetWorkCode.Pipe.Run
import OSNetWorkCode.ProcessPool.Drained
import OSNetWorkCode.Pthread.Rank
import OSNetWorkCode.RingQueue.Workload
import OSNetWorkCode.Shell.Commands
import OSNetWorkCode.Shell.Confinement
import OSNetWorkCode.Shell.Outputs
import OSNetWorkCode.Tickets.Ends
import OSNetWorkCode.BlockQueue.Workload
import OSNetWorkCode.ThreadPool.Rest
import OSNetWorkCode.TcpServer.Capacity
import OSNetWorkCode.UdpServer.Chat
import OSNetWorkCode.MySignal.Handler
import OSNetWorkCode.MySignal.Masked
