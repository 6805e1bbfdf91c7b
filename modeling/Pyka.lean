import Pyka.Base.Struct
import Pyka.Base.Framing
import Pyka.Base.Bisect
import Pyka.Base.Crc32
import Pyka.Base.Circle
import Pyka.Base.Machine
import Pyka.Base.Grouping
import Pyka.Storage.Types
import Pyka.Storage.Record
import Pyka.Storage.RecordFormat
import Pyka.Storage.Disk
import Pyka.Storage.Index
import Pyka.Storage.Segment
import Pyka.Storage.Log
import Pyka.Storage.Scan
import Pyka.Storage.SegmentSpec
import Pyka.Storage.Chain
import Pyka.Storage.LogSpec
import Pyka.Storage.AppendOnly
import Pyka.Storage.CrashRecovery
import Pyka.Storage.Outcomes
import Pyka.Storage.BitFlip
import Pyka.Storage.Hints
import Pyka.Storage.Opening
import Pyka.Storage.Interleaving
import Pyka.Storage.Growth
import Pyka.Storage.CleanReads
import Pyka.Cluster.Ring
import Pyka.Topic.Partitioner
import Pyka.Topic.Volume
import Pyka.Topic.Topic
import Pyka.Topic.Catalog
import Pyka.Topic.TopicSpec
import Pyka.Topic.Lives
import Pyka.Broker.Tail
import Pyka.Broker.Store
import Pyka.Broker.Handler
import Pyka.Broker.StoreSpec
import Pyka.Broker.Node
import Pyka.Cluster.Cluster
import Pyka.Cluster.Creation
import Pyka.Broker.LiveTail
import Pyka.Broker.LiveTailSpec
import Pyka.Broker.Cancellation
import Pyka.Topic.Syncing
import Pyka.Storage.Handles
import Pyka.Topic.Sharing
import Pyka.Storage.Faults
import Pyka.Broker.Outage
import Pyka.Client.Client
import Pyka.Client.Serving
import Pyka.Client.Delivery
import Pyka.Client.Retries
import Pyka.Broker.Refusal
import Pyka.Broker.Redirect
import Pyka.Topic.Refused
import Pyka.Base.Rounds
import Pyka.Topic.Spread
import Pyka.Storage.Reached
import Pyka.Storage.Untouched
import Pyka.Storage.Sizes
import Pyka.Storage.WellFormed
import Pyka.Base.Sparse
import Pyka.Storage.SparseIndex
import Pyka.Storage.Damage
import Pyka.Storage.Loud
import Pyka.Storage.RefusedOpen
import Pyka.Broker.Resizing
import Pyka.Base.Paging
import Pyka.Broker.PagedReads
import Pyka.Broker.Acknowledged
import Pyka.Storage.Burst
import Pyka.Broker.Admin
import Pyka.Client.Undelivered
import Pyka.Broker.Registrations
import Pyka.Storage.FailedRoll
import Pyka.Broker.Ledger
import Pyka.Cluster.OneBroker
import Pyka.Broker.Control
import Pyka.Broker.ControlSpec
import Pyka.Cluster.Migration
import Pyka.Broker.PowerLoss
import Pyka.Client.Stale
import Pyka.Broker.Process
import Pyka.Broker.Drain
import Pyka.Client.Resume
import Pyka.Cluster.Metadata
