import Libk2.Foundation.StepSystem
import Libk2.Foundation.WhileLoop
import Libk2.Foundation.CString
import Libk2.Foundation.Blocks
import Libk2.Foundation.Gregorian
import Libk2.Memory.MemPoolTeardown
import Libk2.Memory.SharedPoolAllocator
import Libk2.Memory.SizeLimits
import Libk2.Memory.MemPoolStack
import Libk2.Runtime.AtexitStack
import Libk2.Runtime.AtexitOrder
import Libk2.Runtime.AtexitNested
import Libk2.Runtime.AtexitThrow
import Libk2.Foundation.Linearizability
import Libk2.Threading.Atomic
import Libk2.Threading.ThreadOnce
import Libk2.Threading.ThreadOnceGnu
import Libk2.Threading.SpinLock
import Libk2.Threading.SpinProgress
import Libk2.Foundation.LockedObject
import Libk2.Foundation.Ownership
import Libk2.Threading.SpinGuard
import Libk2.Memory.MemPoolCode
import Libk2.Memory.MemPoolThreads
import Libk2.Runtime.AtexitThreads
import Libk2.Runtime.Singleton
import Libk2.Runtime.SingletonThreads
import Libk2.Foundation.WaitChain
import Libk2.Runtime.SingletonWaits
import Libk2.Foundation.Interleaving
import Libk2.Foundation.Monitor
import Libk2.Foundation.MonitorProgram
import Libk2.Threading.Thread
import Libk2.Threading.ThreadMoves
import Libk2.Threading.ThreadLifeCycle
import Libk2.Threading.ThreadCancel
import Libk2.Threading.ThreadJoin
import Libk2.Threading.ThreadTimedJoin
import Libk2.Threading.ThreadContext
import Libk2.Foundation.ObjectHeap
import Libk2.Threading.TlsPtr
import Libk2.Threading.TlsThreads
import Libk2.Threading.TlsObjects
import Libk2.Runtime.FunctorCopies
import Libk2.Threading.FunctorSpawn
import Libk2.Runtime.FunctorExit
import Libk2.Runtime.Exception
import Libk2.Runtime.ProcessArgv
import Libk2.Runtime.ProcessChildren
import Libk2.Timing.Timestamp
import Libk2.Timing.TimeArithmetic
import Libk2.Timing.WaitTimes
import Libk2.Timing.Calendar
import Libk2.Timing.CalendarThreads
import Libk2.Net.ByteOrder
import Libk2.Net.ReverseByteorder
import Libk2.Net.Addr
import Libk2.Net.SockAddr
import Libk2.Net.GetAddrInfo
import Libk2.Net.SocketDesc
import Libk2.Net.TcpTransfer
import Libk2.Net.TcpConversation
import Libk2.Net.TimedTransfer
import Libk2.Net.TimedBudget
import Libk2.Net.LargeTransfer
import Libk2.Net.TimedConnect
import Libk2.Net.Transports
import Libk2.Foundation.LossyNet
import Libk2.Net.UdpExchange
