import TcpClb.Common.Runs
import TcpClb.Common.Heap
import TcpClb.Common.LinkedList
import TcpClb.Common.ChainSurgery
import TcpClb.Common.ListSurgery
import TcpClb.Records
import TcpClb.IdTable
import TcpClb.MessageQueue
import TcpClb.RoundRobin
import TcpClb.IdTableEntries
import TcpClb.Common.KeyedQueue
import TcpClb.MessageOrder
import TcpClb.IdTableRouting
import TcpClb.IdTableMap
import TcpClb.Responses
import TcpClb.CallbackOnce
import TcpClb.RegistrationKept
import TcpClb.Wire
import TcpClb.Framing
import TcpClb.Fragmentation
import TcpClb.Common.PartialTransfers
import TcpClb.ReceiveCalls
import TcpClb.ReceivedBuffer
import TcpClb.ReceiveReturns
import TcpClb.Connections
import TcpClb.Common.ListUpdates
import TcpClb.MessageQueuePop
import TcpClb.Threads
import TcpClb.ThreadSteps
import TcpClb.WakeUp
import TcpClb.WakeUpTest
import TcpClb.AssignmentSearch
import TcpClb.ReadyToSend
import TcpClb.DisconnectDetection
import TcpClb.SendDelivery
import TcpClb.SendCalls
import TcpClb.SendSteps
import TcpClb.FrameStreams
import TcpClb.PeerOwnership
import TcpClb.Descriptors
import TcpClb.HealthyConnections
import TcpClb.ConnectionLock
import TcpClb.DescriptorAccounting
import TcpClb.Deadlines
import TcpClb.TimeoutFlag
import TcpClb.Common.Rotation
import TcpClb.RoundRobinFairness
import TcpClb.Common.Occurrences
import TcpClb.XmlAttribute
import TcpClb.XmlExtraction
import TcpClb.Bodies
import TcpClb.Dispatch
import TcpClb.MessagePass
import TcpClb.MessageDisposal
import TcpClb.Common.TaskLanes
import TcpClb.ThreadPool
import TcpClb.ThreadPoolShape
import TcpClb.TaskOrder
import TcpClb.PoolLifecycle
import TcpClb.Common.WaitGraph
import TcpClb.QueueAssignment
import TcpClb.Common.Tokens
import TcpClb.PeerConfig
import TcpClb.PeerList
import TcpClb.EndpointValidation
import TcpClb.EndpointBuffers
import TcpClb.IdCalls
import TcpClb.ElapsedTime
import TcpClb.IdLinks
import TcpClb.BackLinks
import TcpClb.ScanBounds
import TcpClb.Common.Census
import TcpClb.Common.StackLog
import TcpClb.DeliveryOrder
import TcpClb.ConnectionOwners
import TcpClb.PeerDelivery
import TcpClb.WorkQueue
import TcpClb.WorkQueueList
import TcpClb.WorkQueueJobs
import TcpClb.WorkQueueMutex
import TcpClb.WorkQueueWakeUp
import TcpClb.WorkQueueDrain
import TcpClb.WorkQueueShutdown
import TcpClb.WorkQueueEnd
import TcpClb.BlockingQueues
import TcpClb.BlockingWakeUp
import TcpClb.BlockingOrder
import TcpClb.ResponseOrigin
import TcpClb.ConfigText
import TcpClb.ConfigRoundTrip
import TcpClb.CallbackService
import TcpClb.ReceiveSide
import TcpClb.ThreadUpkeep
import TcpClb.DeliveryProgress
import TcpClb.Common.OwnedBlocks
import TcpClb.PassMemory
