import BunnyMQ.Proof.Storage.Reconfigured
import BunnyMQ.Proof.Storage.RetentionRules
import BunnyMQ.Proof.Storage.Salvage
import BunnyMQ.Proof.Storage.WakeUp
import BunnyMQ.Proof.Partition.RecoveryCrash
import BunnyMQ.Proof.Partition.RetentionCrash
import BunnyMQ.Proof.Client.Consumable
import BunnyMQ.Proof.Client.Delivery
import BunnyMQ.Proof.Client.Fetch
import BunnyMQ.Proof.Client.Polling
import BunnyMQ.Proof.Client.Producing
import BunnyMQ.Proof.Client.Retry
import BunnyMQ.Proof.Client.RoundTrip
import BunnyMQ.Proof.Client.StartOffsets
import BunnyMQ.Proof.Api.Errors
import BunnyMQ.Proof.Metadata.LeaderReports
import BunnyMQ.Proof.Metadata.Totality
import BunnyMQ.Proof.Group.CommitOrder
import BunnyMQ.Proof.Group.Eviction
import BunnyMQ.Proof.Group.Fencing
import BunnyMQ.Proof.Group.Lookups
import BunnyMQ.Proof.Group.Ownership
import BunnyMQ.Proof.Group.SessionTimeout
import BunnyMQ.Proof.Group.Settling
import BunnyMQ.Proof.Cluster.Assignment
import BunnyMQ.Proof.Cluster.Directories
import BunnyMQ.Proof.Cluster.Effects
import BunnyMQ.Proof.Cluster.Leaders
import BunnyMQ.Proof.Cluster.ReplicaSets
import BunnyMQ.Proof.Cluster.RetentionRun
import BunnyMQ.Proof.Cluster.Routing
