import RaftEtcd.Proto
import RaftEtcd.Storage
import RaftEtcd.RaftLog
import RaftEtcd.Progress
import RaftEtcd.Lib.AssocMap
import RaftEtcd.Raft
import RaftEtcd.Node
import RaftEtcd.Cluster
import RaftEtcd.Lib.Consensus.Basic
import RaftEtcd.Lib.Consensus.Model
import RaftEtcd.Lib.Consensus.Local
import RaftEtcd.Lib.Consensus.Votes
import RaftEtcd.Lib.Consensus.Logs
import RaftEtcd.Lib.Consensus.Commit
import RaftEtcd.Lib.Consensus.Safety
import RaftEtcd.Refine.Log
import RaftEtcd.Refine.Abs
import RaftEtcd.Refine.Moves
import RaftEtcd.Refine.Sends
import RaftEtcd.Refine.Elect
import RaftEtcd.Handlers
import RaftEtcd.Refine.Step
import RaftEtcd.Refine.Lead
import RaftEtcd.Refine.Run
import RaftEtcd.Refine.Durable
import RaftEtcd.Refine.Cluster
import RaftEtcd.Refine.Trace
import RaftEtcd.Election
import RaftEtcd.Agreement
import RaftEtcd.Lib.Framing
import RaftEtcd.Lib.MessagePack
import RaftEtcd.Msgpack
import RaftEtcd.Wal
import RaftEtcd.WalScan
import RaftEtcd.WalReplay
import RaftEtcd.WalGuard
import RaftEtcd.Transport
import RaftEtcd.RedisStore
import RaftEtcd.Acknowledge
import RaftEtcd.Evolve.Basic
import RaftEtcd.Evolve.Step
import RaftEtcd.NodeRun
import RaftEtcd.CatchUp
import RaftEtcd.Reads
import RaftEtcd.ReadQuorum
import RaftEtcd.LogicalLog.Basic
import RaftEtcd.LogicalLog.Stable
import RaftEtcd.LogicalLog.Run
import RaftEtcd.Delivery
import RaftEtcd.Lib.Outcome
import RaftEtcd.Spared
import RaftEtcd.NoFatal
import RaftEtcd.RedisSession
import RaftEtcd.Snapshotter
import RaftEtcd.Lib.Journal
import RaftEtcd.RaftNode
import RaftEtcd.WalView
import RaftEtcd.SnapFiles
import RaftEtcd.Recover
import RaftEtcd.Round
import RaftEtcd.Posts
import RaftEtcd.Roles
import RaftEtcd.Leading
import RaftEtcd.Forwarding
import RaftEtcd.Elected
import RaftEtcd.Replicates
import RaftEtcd.Members
import RaftEtcd.QuorumCheck
import RaftEtcd.PendingConf
import RaftEtcd.Threads
import RaftEtcd.Cursor
import RaftEtcd.LocalSnapshot
import RaftEtcd.QuorumCommit
import RaftEtcd.MaybeAppend
import RaftEtcd.Restore
import RaftEtcd.ReadDelivery
import RaftEtcd.Reshape
import RaftEtcd.Unapplied
import RaftEtcd.PeerStream
import RaftEtcd.SnapTrigger
import RaftEtcd.FirstBoot
import RaftEtcd.Lib.Ring
import RaftEtcd.Window
import RaftEtcd.Windowed
import RaftEtcd.Termless
import RaftEtcd.Serving
import RaftEtcd.Healthy
import RaftEtcd.Restart
import RaftEtcd.Recovered
import RaftEtcd.Draining
import RaftEtcd.Lib.Limit
import RaftEtcd.Slicing
import RaftEtcd.StoredLog
import RaftEtcd.FlowControl
import RaftEtcd.ReadQueue
import RaftEtcd.Dropped
import RaftEtcd.Lib.Loop
import RaftEtcd.Reign
import RaftEtcd.Indexing
import RaftEtcd.Pipeline
import RaftEtcd.NextIndex
import RaftEtcd.SendLoop
import RaftEtcd.Voterless
import RaftEtcd.ReadyFlags
import RaftEtcd.Uncommitted
import RaftEtcd.PreVote
import RaftEtcd.Lib.Glob
import RaftEtcd.StringMatch
import RaftEtcd.Lib.Resp
import RaftEtcd.RedisReply
import RaftEtcd.WalNames
import RaftEtcd.Lib.Pointer
import RaftEtcd.MatchBounds
import RaftEtcd.ErrorReply
import RaftEtcd.Matching
import RaftEtcd.Feeding
import RaftEtcd.Probing
import RaftEtcd.Durability
import RaftEtcd.Replicas
import RaftEtcd.Network
import RaftEtcd.Clocks
import RaftEtcd.Lease
import RaftEtcd.Reelection
import RaftEtcd.Comeback
import RaftEtcd.Conversation
import RaftEtcd.Answers
import RaftEtcd.ClientView
import RaftEtcd.ClientDurability
