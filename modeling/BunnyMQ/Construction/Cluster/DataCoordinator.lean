/-
This file models the routing of requests to the shards of a node.
-/

import BunnyMQ.Construction.Metadata.MetadataFSM

namespace BunnyMQ.Cluster
open Foundation Metadata

structure ShardEntry where
  shardID : Nat
  topic : String
  partitionID : Int
  deriving DecidableEq, Repr

/-- The registry is keyed by topic and partition. -/
abbrev ShardRegistry := KeyMap PartitionKey ShardEntry

def startPartitionReplica (registry : ShardRegistry) (topic : String) (partitionID : Int) (shardID : Nat) :
    ShardRegistry :=
  registry.insert ⟨topic, partitionID⟩ ⟨shardID, topic, partitionID⟩

/-- The shard plays no part in the deletion. -/
def stopPartitionReplica (registry : ShardRegistry) (topic : String) (partitionID : Int) (_shardID : Nat) :
    ShardRegistry :=
  registry.erase ⟨topic, partitionID⟩

inductive RouteError where
  | unavailable
  | partitionNotFound
  | notLeader (leaderNodeID : Nat) (leaderAddress : String)
  deriving DecidableEq, Repr

/-- This is the part of `leaderCheck` before the registry. It ends with the partition that it has looked up. -/
def checkLeader (nodeID : Nat) (address : Nat → String) (lookup : Except LookupError (Option PartitionMeta)) :
    Except RouteError PartitionMeta :=
  match lookup with
  | .error _ => .error .unavailable
  | .ok none => .error .partitionNotFound
  | .ok (some pm) =>
    if pm.leaderNodeID ≠ nodeID then .error (.notLeader pm.leaderNodeID (address pm.leaderNodeID)) else .ok pm

/-- This is the part of `leaderCheck` that reads the registry. -/
def registeredShard (registry : ShardRegistry) (topic : String) (partitionID : Int) : Except RouteError Nat :=
  match registry.lookup ⟨topic, partitionID⟩ with
  | none => .error .unavailable
  | some entry => .ok entry.shardID

/-- This is `leaderCheck` with nothing in between. -/
def leaderCheck (nodeID : Nat) (address : Nat → String) (state : MetadataState) (registry : ShardRegistry)
    (topic : String) (partitionID : Int) : Except RouteError Nat := do
  let _ ← checkLeader nodeID address ((state.getPartition topic partitionID).map some)
  registeredShard registry topic partitionID

end BunnyMQ.Cluster
