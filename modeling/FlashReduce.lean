import FlashReduce.Library.Transition
import FlashReduce.Library.Product
import FlashReduce.Library.OrderedDict
import FlashReduce.Library.Fallible
import FlashReduce.Library.Triple
import FlashReduce.Library.Renaming
import FlashReduce.Library.ListUpdate
import FlashReduce.Library.Linked
import FlashReduce.Library.Simulation
import FlashReduce.Library.ChannelFifo
import FlashReduce.Library.Executor
import FlashReduce.Library.RoundRobin
import FlashReduce.Library.ByteStream
import FlashReduce.Library.LittleEndian
import FlashReduce.Library.Varint
import FlashReduce.Library.WireFormat
import FlashReduce.Library.WireRuntime
import FlashReduce.Controller.Rendezvous
import FlashReduce.Controller.RendezvousInvariant
import FlashReduce.Controller.FineRendezvous
import FlashReduce.Controller.Cohort
import FlashReduce.Controller.Lockstep
import FlashReduce.Controller.Barrier
import FlashReduce.Controller.Bookkeeping
import FlashReduce.Controller.SessionIsolation
import FlashReduce.Controller.SessionExchange
import FlashReduce.Controller.Broadcast
import FlashReduce.Controller.BroadcastOps
import FlashReduce.Controller.BroadcastLedger
import FlashReduce.Controller.BroadcastIndex
import FlashReduce.Controller.BroadcastAgreement
import FlashReduce.Controller.BroadcastWaiters
import FlashReduce.Controller.BroadcastSection
import FlashReduce.Controller.BroadcastAlignment
import FlashReduce.Controller.BroadcastFailure
import FlashReduce.Controller.Executor
import FlashReduce.Controller.Program
import FlashReduce.Controller.Placement
import FlashReduce.Controller.ProgramBroadcast
import FlashReduce.Controller.ProgramSessions
import FlashReduce.Controller.ProgramProgress
import FlashReduce.Controller.FineProgram
import FlashReduce.Controller.Server
import FlashReduce.Controller.Reset
import FlashReduce.Wire.Messages
import FlashReduce.Wire.Session
import FlashReduce.Wire.Broadcast
import FlashReduce.Proxy.Handler
import FlashReduce.Proxy.Chains
import FlashReduce.Proxy.Represents
import FlashReduce.Proxy.System
import FlashReduce.Proxy.Invariant
import FlashReduce.Proxy.Ownership
import FlashReduce.Proxy.Fifo
import FlashReduce.Proxy.Fairness
import FlashReduce.Proxy.FineSystem
import FlashReduce.Proxy.EmptyQueue
import FlashReduce.Proxy.Shutdown
import FlashReduce.Proxy.Lifecycle
import FlashReduce.Proxy.Drain
import FlashReduce.Proxy.Yield
import FlashReduce.Proxy.PoolSize
import FlashReduce.Socket.Endpoint
import FlashReduce.Socket.Exchange
import FlashReduce.Socket.Handshake
import FlashReduce.Socket.Construct
import FlashReduce.Socket.Resources
import FlashReduce.Rdma.QueuePair
import FlashReduce.Rdma.Transitions
import FlashReduce.Benchmark.Recv
import FlashReduce.Benchmark.Send
import FlashReduce.WriteTest.Script
import FlashReduce.WriteTest.System
import FlashReduce.WriteTest.Synchronised
import FlashReduce.WriteTest.Safety
import FlashReduce.WriteTest.Programs
import FlashReduce.WriteTest.Completion
import FlashReduce.WriteTest.Ending
