/-
This file defines the replicated metadata of the cluster and the commands that change it.
-/

import BunnyMQ.Library.ByteOrder
import BunnyMQ.Library.KeyMap
import Mathlib.Data.Prod.Lex
import Mathlib.Data.String.Basic

namespace BunnyMQ.Metadata
open Foundation

/-- A partition of a topic is a key of the offsets of a group. -/
structure TopicPartition where
  topic : String
  partitionID : Int
  deriving DecidableEq, Repr

/-- The coordinator stores this record for each member of a group. -/
structure MemberState where
  memberID : String
  subscribedTopics : List String
  sessionTimeoutMs : Int
  heartbeatIntervalMs : Int
  joinedAt : Int
  deriving DecidableEq, Repr

/-- The assignments are computed by the coordinator and stored as they come. -/
structure GroupState where
  groupID : String
  members : KeyMap String MemberState
  generationID : Int
  assignments : KeyMap String (List TopicPartition)
  offsets : KeyMap TopicPartition Int
  deriving DecidableEq

structure PartitionKey where
  topic : String
  partitionID : Int
  deriving DecidableEq, Repr

/-- Partition keys are ordered by topic and then by number. -/
@[reducible] def PartitionKey.order : LinearOrder PartitionKey :=
  LinearOrder.lift' (fun key => toLex (key.topic, key.partitionID)) fun first second same => by
    cases first
    cases second
    simpa using same

structure TopicMeta where
  name : String
  partitionCount : Int
  replicationFactor : Int
  retentionMs : Int
  retentionBytes : Int
  createdAtMs : Int
  deriving DecidableEq, Repr

structure PartitionMeta where
  topic : String
  partitionID : Int
  shardID : Nat
  replicaNodeIDs : List Nat
  leaderNodeID : Nat
  leaderEpoch : Int
  deriving DecidableEq, Repr

structure NodeInfo where
  nodeID : Nat
  address : String
  deriving DecidableEq, Repr

structure MemberInfo where
  memberID : String
  clientHost : String
  subscribedTopics : List String
  assignedPartitions : List PartitionKey
  lastHeartbeatMs : Int
  deriving DecidableEq, Repr

/-- The metadata computes the assignments of these older groups itself. -/
structure ConsumerGroupMeta where
  groupID : String
  generationID : Int
  members : KeyMap String MemberInfo
  committedOffsets : KeyMap PartitionKey Int
  deriving DecidableEq

structure MetadataState where
  topics : KeyMap String TopicMeta
  partitions : KeyMap PartitionKey PartitionMeta
  nodes : KeyMap Nat NodeInfo
  groups : KeyMap String ConsumerGroupMeta
  groupStates : KeyMap String GroupState
  nextShardID : Nat
  deriving DecidableEq

structure CreateTopicCmd where
  name : String
  partitionCount : Int
  replicationFactor : Int
  retentionMs : Int
  retentionBytes : Int
  createdAtMs : Int
  replicaNodeIDs : List (List Nat)
  deriving DecidableEq, Repr

structure DeleteTopicCmd where
  name : String
  deriving DecidableEq, Repr

structure AlterTopicPartCountCmd where
  name : String
  newPartitionCount : Int
  newReplicaAssignments : List (List Nat)
  deriving DecidableEq, Repr

structure AlterTopicRetentionCmd where
  name : String
  retentionMs : Int
  retentionBytes : Int
  deriving DecidableEq, Repr

structure RegisterNodeCmd where
  nodeID : Nat
  address : String
  deriving DecidableEq, Repr

structure AssignPartitionLeaderCmd where
  topic : String
  partitionID : Int
  leaderNodeID : Nat
  leaderEpoch : Int
  deriving DecidableEq, Repr

/-- A command with a member carries an assignment that the coordinator has computed. -/
structure JoinConsumerGroupCmd where
  groupID : String
  memberID : String
  clientHost : String
  subscribedTopics : List String
  joinedAtMs : Int
  member : Option MemberState
  newAssignment : Option (KeyMap String (List TopicPartition))
  deriving DecidableEq

structure LeaveConsumerGroupCmd where
  groupID : String
  memberID : String
  reason : String
  newAssignment : Option (KeyMap String (List TopicPartition))
  deriving DecidableEq

structure HeartbeatConsumerGroupCmd where
  groupID : String
  memberID : String
  generationID : Int
  timestampMs : Int
  deriving DecidableEq, Repr

structure CommittedOffset where
  topic : String
  partitionID : Int
  offset : Int
  deriving DecidableEq, Repr

/-- The command names neither the member nor its generation. -/
structure CommitConsumerOffsetCmd where
  groupID : String
  offsets : List CommittedOffset
  groupOffsets : Option (KeyMap TopicPartition Int)
  deriving DecidableEq

structure RebalanceConsumerGroupCmd where
  groupID : String
  expiredMemberIDs : List String
  timestampMs : Int
  deriving DecidableEq, Repr

inductive MetadataCommand where
  | createTopic (cmd : CreateTopicCmd)
  | deleteTopic (cmd : DeleteTopicCmd)
  | alterTopicPartCount (cmd : AlterTopicPartCountCmd)
  | alterTopicRetention (cmd : AlterTopicRetentionCmd)
  | registerNode (cmd : RegisterNodeCmd)
  | assignPartitionLeader (cmd : AssignPartitionLeaderCmd)
  | joinConsumerGroup (cmd : JoinConsumerGroupCmd)
  | leaveConsumerGroup (cmd : LeaveConsumerGroupCmd)
  | heartbeatConsumerGroup (cmd : HeartbeatConsumerGroupCmd)
  | commitConsumerOffset (cmd : CommitConsumerOffsetCmd)
  | rebalanceConsumerGroup (cmd : RebalanceConsumerGroupCmd)
  | unknown
  deriving DecidableEq

/-- A field with `omitempty` loses an empty map on its way through the log. -/
def omitEmpty {Key Value : Type} [DecidableEq Key] [DecidableEq Value] (entries : Option (KeyMap Key Value)) :
    Option (KeyMap Key Value) :=
  entries.filter fun entries => entries ≠ ∅

/-- This is the command that the state machine decodes after it was proposed. -/
def MetadataCommand.roundTrip : MetadataCommand → MetadataCommand
  | .joinConsumerGroup cmd => .joinConsumerGroup { cmd with newAssignment := omitEmpty cmd.newAssignment }
  | .leaveConsumerGroup cmd => .leaveConsumerGroup { cmd with newAssignment := omitEmpty cmd.newAssignment }
  | .commitConsumerOffset cmd => .commitConsumerOffset { cmd with groupOffsets := omitEmpty cmd.groupOffsets }
  | cmd => cmd

structure JoinResult where
  memberID : String
  assignedPartitions : List PartitionKey
  generationID : Int
  deriving DecidableEq, Repr

/-- A result carries no data, the text of an error or the answer to a join. -/
inductive ResultData where
  | none
  | message (text : String)
  | join (result : JoinResult)
  deriving DecidableEq, Repr

structure Result where
  value : Nat
  data : ResultData
  deriving DecidableEq, Repr

def resultOK : Nat := 0

def resultErrAlreadyExists : Nat := 1

def resultErrNotFound : Nat := 2

def resultErrInvalidArg : Nat := 3

def okResult : Result := ⟨resultOK, .none⟩

def errorResult (code : Nat) (message : String) : Result := ⟨code, .message message⟩

end BunnyMQ.Metadata
