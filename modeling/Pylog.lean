import Pylog.Raft.Runs
import Pylog.Raft.Votes
import Pylog.Raft.Elections
import Pylog.Raft.Fixed
import Pylog.Base.Replication
import Pylog.Raft.Refine
import Pylog.Raft.Logs
import Pylog.Raft.Commit
import Pylog.Raft.Joint
import Pylog.Raft.Config
import Pylog.Base.Files
import Pylog.Base.Bisect
import Pylog.Log.Holes
import Pylog.Raft.Durable
import Pylog.Raft.DurableFacts
import Pylog.Raft.Mirror
import Pylog.Raft.Restart
import Pylog.Raft.Core
import Pylog.Raft.Apply
import Pylog.Raft.Aligned
import Pylog.Raft.Indexes
import Pylog.Raft.CatchUp
import Pylog.Raft.Payloads
import Pylog.Raft.Tracking
import Pylog.Raft.Prevote
import Pylog.Raft.Commands
import Pylog.Log.Checksum
import Pylog.Base.Utf8
import Pylog.Topics.Broker
import Pylog.Topics.Retention
import Pylog.Topics.Partitions
import Pylog.Topics.Api
import Pylog.Topics.Runs
import Pylog.Topics.Groups
import Pylog.Sim.Cluster
import Pylog.Sim.Runs
import Pylog.Sim.Partitions
import Pylog.Raft.Faults
import Pylog.Raft.TlaSpec
import Pylog.Raft.Marks
import Pylog.Sim.Restart
import Pylog.Log.Batch
import Pylog.Log.Accepted
import Pylog.Log.Rolling
import Pylog.Raft.Rolling
import Pylog.Log.Signposts
import Pylog.Topics.Sweep
import Pylog.Raft.Repair
import Pylog.Base.Base64
import Pylog.Net.Frames
import Pylog.Net.Wire
import Pylog.Net.Batches
import Pylog.Raft.Orphans
import Pylog.Raft.Shape
import Pylog.Base.Rounds
import Pylog.Topics.Balance
import Pylog.Base.Lockstep
import Pylog.Base.Paths
import Pylog.Topics.Site
import Pylog.Topics.Directories
import Pylog.Topics.Reopen
import Pylog.Raft.Tenure
import Pylog.Raft.Permanence
import Pylog.Raft.Replicas
import Pylog.Base.Clock
import Pylog.Raft.Timers
import Pylog.Raft.Contact
import Pylog.Sim.Progress
import Pylog.Log.Outages
import Pylog.Net.Json
import Pylog.Net.Messages
import Pylog.Net.Serve
import Pylog.Topics.Tcp
import Pylog.Topics.Consumer
