import Zookeeper.Transition
import Zookeeper.Majority
import Zookeeper.KeyedList
import Zookeeper.CompareExchange
import Zookeeper.Paxos.LogFile
import Zookeeper.Paxos.Sync
import Zookeeper.Paxos.SnapRestart
import Zookeeper.Paxos.Quorum
import Zookeeper.Paxos.Join
import Zookeeper.Paxos.StepDown
import Zookeeper.Paxos.Epoch
import Zookeeper.Paxos.PeerEpoch
import Zookeeper.Paxos.Identity
import Zookeeper.Ofs.LeaseVersion
import Zookeeper.Ofs.Replication
import Zookeeper.Ofs.Trimming
import Zookeeper.Ofs.CrashScan
import Zookeeper.Ofs.RpcPairing
import Zookeeper.Ofs.UserManager
import Zookeeper.Ofs.Sessions
import Zookeeper.Ofs.Directory
import Zookeeper.Ofs.ClientService
import Zookeeper.Ofs.Authorisation
import Zookeeper.Ofs.Archive
import Zookeeper.Ofs.RemoteFile
import Zookeeper.Ofs.Transfer
import Zookeeper.Paxos.Elected
import Zookeeper.Paxos.VoteOrder
import Zookeeper.Paxos.ConfirmWindow
import Zookeeper.Paxos.VoteIdentity
import Zookeeper.Paxos.RoleLoop
import Zookeeper.Paxos.Messages
import Zookeeper.Paxos.Agreement
import Zookeeper.Spider.Completeness
import Zookeeper.Paxos.Dialing
import Zookeeper.Paxos.BrokenCheck
import Zookeeper.Paxos.Lockstep
import Zookeeper.Paxos.DraftLock
import Zookeeper.Paxos.FailureNotices
import Zookeeper.Paxos.Orphans
import Zookeeper.Paxos.FollowerSlots
import Zookeeper.Paxos.ExecutorTerm
import Zookeeper.Paxos.SessionLog
import Zookeeper.Paxos.LogSelection
import Zookeeper.Paxos.TermIds
import Zookeeper.Paxos.CommitAtomic
import Zookeeper.Paxos.SnapFallback
import Zookeeper.Paxos.LogReading
import Zookeeper.Paxos.TruncRestart
import Zookeeper.Paxos.RefusedProposal
import Zookeeper.Paxos.DamagedLog
import Zookeeper.Paxos.Ledger
import Zookeeper.Paxos.Rollback
import Zookeeper.Zk.Persistence
import Zookeeper.Ofs.ReplicaList
import Zookeeper.Ofs.Tokens
import Zookeeper.Ofs.FileStream
import Zookeeper.Ofs.PathWalk
import Zookeeper.Ofs.Collector
import Zookeeper.Ofs.FileIndex
import Zookeeper.Ofs.RandomAccess
import Zookeeper.Ofs.BlockBounds
import Zookeeper.Ofs.FailedWrite
import Zookeeper.RandomChoice
import Zookeeper.Ofs.Topology
import Zookeeper.Ofs.Placement
import Zookeeper.Ofs.ReplicaCount
import Zookeeper.Ofs.RackDiversity
import Zookeeper.Ofs.OfsId
import Zookeeper.Ofs.FileSizes
import Zookeeper.Spider.HtmlQuery
import Zookeeper.Spider.HtmlSearch
import Zookeeper.Ofs.ClientPaths
import Zookeeper.Ofs.Addresses
import Zookeeper.Ofs.FileObject
import Zookeeper.Pieces
import Zookeeper.Ofs.BlockRecovery
import Zookeeper.References
import Zookeeper.Ofs.NodeReferences
import Zookeeper.Ofs.MessageQueue
import Zookeeper.Paxos.Proposal
import Zookeeper.Paxos.VoteFraming
import Zookeeper.Glob
import Zookeeper.Olib.FileFinder
import Zookeeper.DepthFirst
import Zookeeper.Olib.XmlReader
import Zookeeper.Spider.HtmlClone
import Zookeeper.Spider.TokenParser
import Zookeeper.Spider.ScriptBody
import Zookeeper.Spider.Attributes
import Zookeeper.StackMoves
import Zookeeper.Spider.HtmlParser
import Zookeeper.Spider.TagStack
import Zookeeper.BitField
import Zookeeper.Ofs.BlockIds
import Zookeeper.SortedVector
import Zookeeper.Ofs.Registry
import Zookeeper.Ofs.RegistryView
import Zookeeper.Ofs.MasterTasks
import Zookeeper.Ofs.SettledSizes
import Zookeeper.Ofs.ReportOrder
import Zookeeper.Spider.HtmlRoundTrip
import Zookeeper.PathMap
import Zookeeper.Ofs.NameMap
import Zookeeper.Ofs.Namespace
import Zookeeper.Paxos.Durability
import Zookeeper.Paxos.Replicas
import Zookeeper.Ofs.ClientCache
import Zookeeper.Ofs.Neighbors
