import SocketLib.TransitionSystem
import SocketLib.ThreadFamily
import SocketLib.ExclusiveSharedMutex
import SocketLib.ExclusiveSharedMutexAccounting
import SocketLib.ExclusiveSharedMutexExclusion
import SocketLib.ExclusiveSharedMutexWakeup
import SocketLib.SocketHandler
import SocketLib.ExclusiveSharedMutexDeadlock
import SocketLib.ServerCallbacks
import SocketLib.ServerCallbacksDeadlock
import SocketLib.ServerSocket
import SocketLib.ServerSocketCustody
import SocketLib.ServerSocketSweep
import SocketLib.ServerSocketLock
import SocketLib.ServerSocketEvents
import SocketLib.Channel
import SocketLib.ChannelDelivery
import SocketLib.ChannelStream
import SocketLib.ClientSocket
import SocketLib.ClientSocketDescriptor
import SocketLib.ExclusiveSharedMutexWriters
import SocketLib.CommutingWords
import SocketLib.StreamQueue
import SocketLib.BufferHeap
import SocketLib.Message
import SocketLib.MessageValue
import SocketLib.StreamQueueDequeue
import SocketLib.ChannelShutdown
import SocketLib.ChannelSend
import SocketLib.Exceptions
import SocketLib.SetContainer
import SocketLib.EventCallback
import SocketLib.EventCallbackSubscriptions
import SocketLib.ChannelListeners
import SocketLib.Socket
import SocketLib.ServerSocketAccept
import SocketLib.ServerSocketThreadLoop
import SocketLib.ExclusiveSharedMutexProgress
import SocketLib.ServerSocketMutex
import SocketLib.ServerSocketMutexAccept
import SocketLib.ServerSocketMutexThreadLoop
import SocketLib.ServerSocketBind
import SocketLib.ServerSocketService
import SocketLib.ServerSocketMutexService
import SocketLib.ClientThreads
import SocketLib.SocketService
import SocketLib.ClientSocketConnect
import SocketLib.ClientSocketEvents
import SocketLib.SocketResources
import SocketLib.ChannelSendPrefix
import SocketLib.StreamQueueElementLoop
import SocketLib.ExclusiveSharedMutexReaders
import SocketLib.LightweightSemaphore
import SocketLib.LightweightSemaphoreUnits
import SocketLib.BulkQueue
import SocketLib.ConcurrentQueue
import SocketLib.ConcurrentQueueClaims
import SocketLib.ConcurrentQueueElements
import SocketLib.ConcurrentQueueProgress
import SocketLib.BlockingConcurrentQueue
import SocketLib.BlockingConcurrentQueueDequeue
import SocketLib.ChannelConnection
import SocketLib.ChannelConnectionMessages
import SocketLib.EventCallbackThreads
import SocketLib.EventCallbackThreadsDeadlock
import SocketLib.ChannelConnectionDrains
import SocketLib.Logger
