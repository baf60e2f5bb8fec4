import IPv4Media.Library.Execution
import IPv4Media.Library.CyclicStore
import IPv4Media.Library.Octets
import IPv4Media.Library.CyclicSearch
import IPv4Media.Library.Gaps
import IPv4Media.Library.NumberTable
import IPv4Media.Proto
import IPv4Media.Socket
import IPv4Media.ClientRing
import IPv4Media.Receiver
import IPv4Media.ClientThreads
import IPv4Media.ClientTrace
import IPv4Media.ClientStream
import IPv4Media.TokenBucket
import IPv4Media.TimerModule
import IPv4Media.TimerLifeCycle
import IPv4Media.TokenLaw
import IPv4Media.Playlist
import IPv4Media.ReadTermination
import IPv4Media.ChannelSender
import IPv4Media.ServerStream
import IPv4Media.LossAccounting
import IPv4Media.MediaLibrary
import IPv4Media.ChannelIds
import IPv4Media.ListCodec
import IPv4Media.ListReception
import IPv4Media.Formats
import IPv4Media.ChannelRegistry
import IPv4Media.ListPublication
import IPv4Media.HostOrder
import IPv4Media.Shutdown
import IPv4Media.Descriptors
import IPv4Media.FlowControl
import IPv4Media.Library.Locking
import IPv4Media.TokenPool
import IPv4Media.PoolLaw
import IPv4Media.PoolLocks
import IPv4Media.AlarmLocks
import IPv4Media.Cancellation
import IPv4Media.CleanExit
import IPv4Media.LockLeak
import IPv4Media.Library.Loops
import IPv4Media.ListWalk
import IPv4Media.ReadPasses
import IPv4Media.ChannelSetUp
import IPv4Media.Library.QueueCalls
import IPv4Media.RingCalls
import IPv4Media.ReceiverBooks
import IPv4Media.ReadCharge
import IPv4Media.ClientCalls
import IPv4Media.BucketWakeups
import IPv4Media.PacketCounters
import IPv4Media.IndependentLibrary
import IPv4Media.FairShares
import IPv4Media.BucketTable
import IPv4Media.Library.Interleaving
import IPv4Media.Server
import IPv4Media.Bandwidth
import IPv4Media.Broadcast
import IPv4Media.ChannelChoice
import IPv4Media.StartUp
import IPv4Media.ServerExit
import IPv4Media.TuneIn
import IPv4Media.Progress
import IPv4Media.FlexibleList
import IPv4Media.IndependentCleanup
import IPv4Media.MeteredCopy
import IPv4Media.PoolModule
import IPv4Media.StatsReports
import IPv4Media.AlarmStuck
import IPv4Media.Audience
import IPv4Media.PoolService
import IPv4Media.PoolStuck
import IPv4Media.RingStatements
import IPv4Media.TimerCalls
import IPv4Media.TokenSupply
import IPv4Media.Library.CStrings
import IPv4Media.ScanPaths
import IPv4Media.ServerLocks
import IPv4Media.ServerProgress
import IPv4Media.LockedBroadcast
