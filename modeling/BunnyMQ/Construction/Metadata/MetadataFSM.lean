/-
This file models the metadata state machine with its commands and its queries.
-/

import BunnyMQ.Construction.Metadata.Types

namespace BunnyMQ.Metadata
open Foundation

/-- This is the state of a fresh machine. -/
def MetadataState.initial : MetadataState where
  topics := ∅
  partitions := ∅
  nodes := ∅
  groups := ∅
  groupStates := ∅
  nextShardID := 1

/-- New partitions get consecutive numbers and consecutive shards. -/
def addPartitions (partitions : KeyMap PartitionKey PartitionMeta) (topic : String) (firstID : Int)
    (nextShardID : Nat) (replicas : List (List Nat)) (count : Nat) : KeyMap PartitionKey PartitionMeta :=
  (List.range count).foldl (fun partitions (i : Nat) => partitions.insert ⟨topic, firstID + i⟩ {
    topic := topic
    partitionID := firstID + i
    shardID := (nextShardID + i) % 2 ^ 64
    replicaNodeIDs := replicas.getD i []
    leaderNodeID := 0
    leaderEpoch := 0 }) partitions

/-- The loop visits the keys of the partitions in any order. -/
def collectEligiblePartitions (visited : List PartitionKey) (members : KeyMap String MemberInfo)
    (topics : KeyMap String TopicMeta) : List PartitionKey :=
  let subscribed := members.sortedKeys.flatMap fun memberID =>
    ((members.lookup memberID).map MemberInfo.subscribedTopics).getD []
  visited.filter fun key => subscribed.contains key.topic && (topics.lookup key.topic).isSome

/-- The eligible partitions are cut into one range for each member. -/
def rebalanceInOrder (memberOrder : List String) (partitionOrder : List PartitionKey) (group : ConsumerGroupMeta)
    (topics : KeyMap String TopicMeta) : ConsumerGroupMeta :=
  letI := PartitionKey.order
  let eligible := (collectEligiblePartitions partitionOrder group.members topics).insertionSort (· ≤ ·)
  let memberIDs := memberOrder.insertionSort (· ≤ ·)
  { group with
    members := memberIDs.zipIdx.foldl (fun members entry =>
      match members.lookup entry.1 with
      | none => members
      | some member =>
        let lo := entry.2 * eligible.length / memberIDs.length
        let hi := (entry.2 + 1) * eligible.length / memberIDs.length
        members.insert entry.1 { member with assignedPartitions := (eligible.take hi).drop lo }) group.members }

def rebalance (group : ConsumerGroupMeta) (topics : KeyMap String TopicMeta)
    (partitions : KeyMap PartitionKey PartitionMeta) : ConsumerGroupMeta :=
  rebalanceInOrder group.members.sortedKeys (@KeyMap.sortedKeys _ _ PartitionKey.order partitions) group topics

namespace MetadataState

def applyCreateTopic (state : MetadataState) (cmd : CreateTopicCmd) : MetadataState × Result :=
  if (state.topics.lookup cmd.name).isSome then
    (state, errorResult resultErrAlreadyExists "topic already exists")
  else if cmd.partitionCount ≤ 0 ∨ cmd.replicationFactor ≤ 0 then
    (state, errorResult resultErrInvalidArg "partition_count and replication_factor must be positive")
  else if int32 cmd.replicaNodeIDs.length ≠ cmd.partitionCount then
    (state, errorResult resultErrInvalidArg "replica_node_ids length must equal partition_count")
  else
    ({ state with
      topics := state.topics.insert cmd.name {
        name := cmd.name
        partitionCount := cmd.partitionCount
        replicationFactor := cmd.replicationFactor
        retentionMs := cmd.retentionMs
        retentionBytes := cmd.retentionBytes
        createdAtMs := cmd.createdAtMs }
      partitions := addPartitions state.partitions cmd.name 0 state.nextShardID cmd.replicaNodeIDs
        cmd.partitionCount.toNat
      nextShardID := (state.nextShardID + uint64 cmd.partitionCount) % 2 ^ 64 }, okResult)

def applyDeleteTopic (state : MetadataState) (cmd : DeleteTopicCmd) : MetadataState × Result :=
  match state.topics.lookup cmd.name with
  | none => (state, okResult)
  | some topic =>
    ({ state with
      partitions := (List.range topic.partitionCount.toNat).foldl
        (fun partitions (i : Nat) => partitions.erase ⟨cmd.name, i⟩) state.partitions
      topics := state.topics.erase cmd.name }, okResult)

def applyAlterTopicPartCount (state : MetadataState) (cmd : AlterTopicPartCountCmd) : MetadataState × Result :=
  match state.topics.lookup cmd.name with
  | none => (state, errorResult resultErrNotFound "topic not found")
  | some topic =>
    if cmd.newPartitionCount ≤ topic.partitionCount then
      (state, errorResult resultErrInvalidArg "new_partition_count must be greater than current")
    else
      let addCount := int32 (cmd.newPartitionCount - topic.partitionCount)
      ({ state with
        partitions := addPartitions state.partitions cmd.name topic.partitionCount state.nextShardID
          cmd.newReplicaAssignments addCount.toNat
        nextShardID := (state.nextShardID + uint64 addCount) % 2 ^ 64
        topics := state.topics.insert cmd.name { topic with partitionCount := cmd.newPartitionCount } }, okResult)

def applyAlterTopicRetention (state : MetadataState) (cmd : AlterTopicRetentionCmd) : MetadataState × Result :=
  match state.topics.lookup cmd.name with
  | none => (state, errorResult resultErrNotFound "topic not found")
  | some topic =>
    ({ state with
      topics := state.topics.insert cmd.name
        { topic with retentionMs := cmd.retentionMs, retentionBytes := cmd.retentionBytes } }, okResult)

def applyRegisterNode (state : MetadataState) (cmd : RegisterNodeCmd) : MetadataState × Result :=
  ({ state with nodes := state.nodes.insert cmd.nodeID ⟨cmd.nodeID, cmd.address⟩ }, okResult)

/-- A leader counts when its epoch is greater than the stored one. -/
def applyAssignPartitionLeader (state : MetadataState) (cmd : AssignPartitionLeaderCmd) : MetadataState × Result :=
  match state.partitions.lookup ⟨cmd.topic, cmd.partitionID⟩ with
  | none => (state, errorResult resultErrNotFound "partition not found")
  | some partition =>
    if cmd.leaderEpoch ≤ partition.leaderEpoch then
      (state, errorResult resultErrInvalidArg "leader_epoch must be greater than current")
    else
      ({ state with
        partitions := state.partitions.insert ⟨cmd.topic, cmd.partitionID⟩
          { partition with leaderNodeID := cmd.leaderNodeID, leaderEpoch := cmd.leaderEpoch } }, okResult)

/-- The member and the assignment are stored as the coordinator has computed them. -/
def applyGroupStateJoin (state : MetadataState) (cmd : JoinConsumerGroupCmd) (member : MemberState) :
    MetadataState × Result :=
  let group := (state.groupStates.lookup cmd.groupID).getD ⟨cmd.groupID, ∅, 0, ∅, ∅⟩
  ({ state with groupStates := state.groupStates.insert cmd.groupID { group with
      members := group.members.insert cmd.memberID member
      assignments := cmd.newAssignment.getD group.assignments
      generationID := int32 (group.generationID + 1) } }, okResult)

def applyJoinConsumerGroup (state : MetadataState) (cmd : JoinConsumerGroupCmd) : MetadataState × Result :=
  match cmd.member with
  | some member => state.applyGroupStateJoin cmd member
  | none =>
    let group := (state.groups.lookup cmd.groupID).getD ⟨cmd.groupID, 0, ∅, ∅⟩
    let memberID := if cmd.memberID = "" then s!"member-{cmd.clientHost}-{cmd.joinedAtMs}" else cmd.memberID
    let joined := { group with
      members := group.members.insert memberID ⟨memberID, cmd.clientHost, cmd.subscribedTopics, [], cmd.joinedAtMs⟩ }
    let rebalanced := rebalance joined state.topics state.partitions
    let group := { rebalanced with generationID := int32 (rebalanced.generationID + 1) }
    let assigned := ((group.members.lookup memberID).map MemberInfo.assignedPartitions).getD []
    ({ state with groups := state.groups.insert cmd.groupID group },
      ⟨resultOK, .join ⟨memberID, assigned, group.generationID⟩⟩)

/-- A group without members keeps its entry and its offsets. -/
def applyGroupStateLeave (state : MetadataState) (cmd : LeaveConsumerGroupCmd) (group : GroupState) :
    MetadataState × Result :=
  if (group.members.lookup cmd.memberID).isNone then (state, errorResult resultErrNotFound "member not found")
  else
    let members := group.members.erase cmd.memberID
    ({ state with groupStates := state.groupStates.insert cmd.groupID { group with
        members := members
        assignments := if members.keys = ∅ then ∅ else cmd.newAssignment.getD ∅
        generationID := int32 (group.generationID + 1) } }, okResult)

def applyLeaveConsumerGroup (state : MetadataState) (cmd : LeaveConsumerGroupCmd) : MetadataState × Result :=
  match state.groupStates.lookup cmd.groupID with
  | some group => state.applyGroupStateLeave cmd group
  | none =>
    match state.groups.lookup cmd.groupID with
    | none => (state, errorResult resultErrNotFound "group not found")
    | some group =>
      if (group.members.lookup cmd.memberID).isNone then
        (state, errorResult resultErrNotFound "member not found")
      else
        let group := rebalance { group with members := group.members.erase cmd.memberID } state.topics
          state.partitions
        ({ state with
          groups := state.groups.insert cmd.groupID
            { group with generationID := int32 (group.generationID + 1) } }, okResult)

/-- The time of the heartbeat is stored also for a stale generation. -/
def applyHeartbeatConsumerGroup (state : MetadataState) (cmd : HeartbeatConsumerGroupCmd) : MetadataState × Result :=
  match state.groups.lookup cmd.groupID with
  | none => (state, errorResult resultErrNotFound "group not found")
  | some group =>
    match group.members.lookup cmd.memberID with
    | none => (state, errorResult resultErrNotFound "member not found")
    | some member =>
      ({ state with groups := state.groups.insert cmd.groupID { group with
          members := group.members.insert cmd.memberID { member with lastHeartbeatMs := cmd.timestampMs } } },
        if cmd.generationID ≠ group.generationID then ⟨1, .none⟩ else okResult)

/-- The offsets of the command replace those of the group. -/
def applyGroupStateCommitOffset (state : MetadataState) (groupID : String) (groupOffsets : KeyMap TopicPartition Int) :
    MetadataState × Result :=
  match state.groupStates.lookup groupID with
  | none => (state, errorResult resultErrNotFound "group not found")
  | some group =>
    ({ state with
      groupStates := state.groupStates.insert groupID
        { group with offsets := groupOffsets ∪ group.offsets } }, okResult)

def applyCommitConsumerOffset (state : MetadataState) (cmd : CommitConsumerOffsetCmd) : MetadataState × Result :=
  match cmd.groupOffsets with
  | some groupOffsets => state.applyGroupStateCommitOffset cmd.groupID groupOffsets
  | none =>
    match state.groups.lookup cmd.groupID with
    | none => (state, errorResult resultErrNotFound "group not found")
    | some group =>
      ({ state with groups := state.groups.insert cmd.groupID { group with
          committedOffsets := cmd.offsets.foldl
            (fun offsets o => offsets.insert ⟨o.topic, o.partitionID⟩ o.offset) group.committedOffsets } }, okResult)

def applyRebalanceConsumerGroup (state : MetadataState) (cmd : RebalanceConsumerGroupCmd) : MetadataState × Result :=
  match state.groups.lookup cmd.groupID with
  | none => (state, errorResult resultErrNotFound "group not found")
  | some group =>
    let group := rebalance { group with
      members := cmd.expiredMemberIDs.foldl (fun members memberID => members.erase memberID) group.members }
      state.topics state.partitions
    ({ state with
      groups := state.groups.insert cmd.groupID
        { group with generationID := int32 (group.generationID + 1) } }, okResult)

def applyCommand (state : MetadataState) : MetadataCommand → MetadataState × Result
  | .createTopic cmd => state.applyCreateTopic cmd
  | .deleteTopic cmd => state.applyDeleteTopic cmd
  | .alterTopicPartCount cmd => state.applyAlterTopicPartCount cmd
  | .alterTopicRetention cmd => state.applyAlterTopicRetention cmd
  | .registerNode cmd => state.applyRegisterNode cmd
  | .assignPartitionLeader cmd => state.applyAssignPartitionLeader cmd
  | .joinConsumerGroup cmd => state.applyJoinConsumerGroup cmd
  | .leaveConsumerGroup cmd => state.applyLeaveConsumerGroup cmd
  | .heartbeatConsumerGroup cmd => state.applyHeartbeatConsumerGroup cmd
  | .commitConsumerOffset cmd => state.applyCommitConsumerOffset cmd
  | .rebalanceConsumerGroup cmd => state.applyRebalanceConsumerGroup cmd
  | .unknown => (state, errorResult resultErrInvalidArg "unknown command type")

/-- A proposed command passes through the log before the machine applies it. -/
def update (state : MetadataState) (cmd : MetadataCommand) : MetadataState × Result :=
  state.applyCommand cmd.roundTrip

end MetadataState

/-- A lookup fails because the entry is missing or because the read itself fails. -/
inductive LookupError where
  | notFound
  | failed (text : String)
  deriving DecidableEq, Repr

namespace MetadataState

def found {Value : Type} : Option Value → Except LookupError Value
  | some value => .ok value
  | none => .error .notFound

def getTopic (state : MetadataState) (name : String) : Except LookupError TopicMeta := found (state.topics.lookup name)

def listTopics (state : MetadataState) : List TopicMeta := state.topics.sortedKeys.filterMap state.topics.lookup

def getPartition (state : MetadataState) (topic : String) (partitionID : Int) : Except LookupError PartitionMeta :=
  found (state.partitions.lookup ⟨topic, partitionID⟩)

/-- The partitions of one topic are sorted by their number. -/
def getPartitions (state : MetadataState) (topic : String) : Except LookupError (List PartitionMeta) :=
  if (state.topics.lookup topic).isNone then .error .notFound
  else .ok (((@KeyMap.sortedKeys _ _ PartitionKey.order state.partitions).filter fun key => key.topic = topic).filterMap
    state.partitions.lookup)

def getNode (state : MetadataState) (nodeID : Nat) : Except LookupError NodeInfo := found (state.nodes.lookup nodeID)

def listNodes (state : MetadataState) : List NodeInfo := state.nodes.sortedKeys.filterMap state.nodes.lookup

def getGroup (state : MetadataState) (groupID : String) : Except LookupError ConsumerGroupMeta :=
  found (state.groups.lookup groupID)

def getCommittedOffset (state : MetadataState) (groupID : String) (key : PartitionKey) : Except LookupError Int :=
  (state.getGroup groupID).map fun group => (group.committedOffsets.lookup key).getD 0

/-- A missing group is no error here. -/
def getGroupState (state : MetadataState) (groupID : String) : Option GroupState := state.groupStates.lookup groupID

/-- A partition without a committed offset gets minus one. -/
def lookupGroupOffsets (state : MetadataState) (groupID : String) (partitions : List TopicPartition) :
    KeyMap TopicPartition Int :=
  partitions.foldl (fun offsets tp =>
    offsets.insert tp (((state.groupStates.lookup groupID).bind fun group => group.offsets.lookup tp).getD (-1))) ∅

def getAllGroupStates (state : MetadataState) : KeyMap String GroupState := state.groupStates

end MetadataState

inductive MetadataQuery where
  | getTopic (topicName : String)
  | listTopics
  | getPartition (topicName : String) (partitionID : Int)
  | getPartitions (topicName : String)
  | getNode (nodeID : Nat)
  | listNodes
  | getGroup (groupID : String)
  | getCommittedOffset (groupID : String) (partKey : PartitionKey)
  | getGroupState (groupID : String)
  | getGroupOffsets (groupID : String) (partitions : List TopicPartition)
  | getAllGroupStates
  | unknown (type : String)
  deriving DecidableEq, Repr

inductive LookupAnswer where
  | topic (tm : TopicMeta)
  | topics (tms : List TopicMeta)
  | partition (pm : PartitionMeta)
  | partitions (pms : List PartitionMeta)
  | node (info : NodeInfo)
  | nodes (infos : List NodeInfo)
  | group (group : ConsumerGroupMeta)
  | offset (offset : Int)
  | groupState (group : Option GroupState)
  | offsets (offsets : KeyMap TopicPartition Int)
  | groupStates (groups : KeyMap String GroupState)
  deriving DecidableEq

namespace MetadataState

def lookup (state : MetadataState) : MetadataQuery → Except LookupError LookupAnswer
  | .getTopic topicName => (state.getTopic topicName).map .topic
  | .listTopics => .ok (.topics state.listTopics)
  | .getPartition topicName partitionID => (state.getPartition topicName partitionID).map .partition
  | .getPartitions topicName => (state.getPartitions topicName).map .partitions
  | .getNode nodeID => (state.getNode nodeID).map .node
  | .listNodes => .ok (.nodes state.listNodes)
  | .getGroup groupID => (state.getGroup groupID).map .group
  | .getCommittedOffset groupID partKey => (state.getCommittedOffset groupID partKey).map .offset
  | .getGroupState groupID => .ok (.groupState (state.getGroupState groupID))
  | .getGroupOffsets groupID partitions => .ok (.offsets (state.lookupGroupOffsets groupID partitions))
  | .getAllGroupStates => .ok (.groupStates state.getAllGroupStates)
  | .unknown type => .error (.failed s!"unknown query type: {type.quote}")

end MetadataState

end BunnyMQ.Metadata
