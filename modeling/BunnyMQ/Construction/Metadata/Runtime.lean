/-
This file models the metadata state machine as it runs, with maps and pointers that may be nil and with run-time panics.
-/

import BunnyMQ.Construction.Metadata.Snapshot
import BunnyMQ.Library.Runtime

namespace BunnyMQ.Metadata
open Foundation Runtime

structure RuntimeGroup where
  groupID : String
  generationID : Int
  members : NilMap String (Pointer MemberInfo)
  committedOffsets : NilMap PartitionKey Int

structure RuntimeGroupState where
  groupID : String
  members : NilMap String MemberState
  generationID : Int
  assignments : NilMap String (List TopicPartition)
  offsets : NilMap TopicPartition Int

structure RuntimeState where
  topics : NilMap String (Pointer TopicMeta)
  partitions : NilMap PartitionKey (Pointer PartitionMeta)
  nodes : NilMap Nat (Pointer NodeInfo)
  groups : NilMap String (Pointer RuntimeGroup)
  groupStates : NilMap String (Pointer RuntimeGroupState)
  nextShardID : Nat

/-- This is `NewMetadataFSM`. -/
def RuntimeState.new : RuntimeState where
  topics := some ∅
  partitions := some ∅
  nodes := some ∅
  groups := some ∅
  groupStates := some ∅
  nextShardID := 1

inductive CommandType where
  | createTopic
  | deleteTopic
  | alterTopicPartCount
  | alterTopicRetention
  | registerNode
  | assignPartitionLeader
  | joinConsumerGroup
  | leaveConsumerGroup
  | heartbeatConsumerGroup
  | commitConsumerOffset
  | rebalanceConsumerGroup
  | other
  deriving DecidableEq, Repr

/-- A decoded command has a type and one pointer for each payload. -/
structure RuntimeCommand where
  type : CommandType
  createTopic : Pointer CreateTopicCmd
  deleteTopic : Pointer DeleteTopicCmd
  alterTopicPartCount : Pointer AlterTopicPartCountCmd
  alterTopicRetention : Pointer AlterTopicRetentionCmd
  registerNode : Pointer RegisterNodeCmd
  assignPartitionLeader : Pointer AssignPartitionLeaderCmd
  joinConsumerGroup : Pointer JoinConsumerGroupCmd
  leaveConsumerGroup : Pointer LeaveConsumerGroupCmd
  heartbeatConsumerGroup : Pointer HeartbeatConsumerGroupCmd
  commitConsumerOffset : Pointer CommitConsumerOffsetCmd
  rebalanceConsumerGroup : Pointer RebalanceConsumerGroupCmd

namespace RuntimeGroup

/-- Every member is read through its pointer. -/
def collectEligiblePartitions (members : NilMap String (Pointer MemberInfo))
    (topics : NilMap String (Pointer TopicMeta))
    (partitions : NilMap PartitionKey (Pointer PartitionMeta)) : Except Panic (List PartitionKey) := do
  let subscribed ← (members.visited inferInstance).mapM fun memberID => do
    let member ← deref (members.lookup memberID).join
    return member.subscribedTopics
  return (partitions.visited PartitionKey.order).filter fun key =>
    subscribed.flatten.contains key.topic && (topics.lookup key.topic).isSome

/-- The block of a member is a slice of the eligible partitions. -/
def handOut (eligible : List PartitionKey) (memberCount : Nat) (members : NilMap String (Pointer MemberInfo))
    (entry : String × Nat) : Except Panic (NilMap String (Pointer MemberInfo)) := do
  let lo ← quotient (entry.2 * eligible.length) memberCount
  let hi ← quotient ((entry.2 + 1) * eligible.length) memberCount
  let assigned ← slice eligible lo hi
  let member ← deref (members.lookup entry.1).join
  return members.modify entry.1 (some { member with assignedPartitions := assigned })

def rebalance (group : RuntimeGroup) (topics : NilMap String (Pointer TopicMeta))
    (partitions : NilMap PartitionKey (Pointer PartitionMeta)) : Except Panic RuntimeGroup :=
  letI := PartitionKey.order
  do
    let collected ← collectEligiblePartitions group.members topics partitions
    let eligible := collected.insertionSort (· ≤ ·)
    let memberIDs := (group.members.visited inferInstance).insertionSort (· ≤ ·)
    if memberIDs.length = 0 then return group
    else
      let members ← memberIDs.zipIdx.foldlM (handOut eligible memberIDs.length) group.members
      return { group with members := members }

end RuntimeGroup

namespace RuntimeState

def applyCreateTopic (state : RuntimeState) (payload : Pointer CreateTopicCmd) :
    Except Panic (RuntimeState × Result) := do
  let cmd ← deref payload
  if (state.topics.lookup cmd.name).isSome then
    return (state, errorResult resultErrAlreadyExists "topic already exists")
  else if cmd.partitionCount ≤ 0 ∨ cmd.replicationFactor ≤ 0 then
    return (state, errorResult resultErrInvalidArg "partition_count and replication_factor must be positive")
  else if int32 cmd.replicaNodeIDs.length ≠ cmd.partitionCount then
    return (state, errorResult resultErrInvalidArg "replica_node_ids length must equal partition_count")
  else
    let topics ← state.topics.store cmd.name (some {
      name := cmd.name
      partitionCount := cmd.partitionCount
      replicationFactor := cmd.replicationFactor
      retentionMs := cmd.retentionMs
      retentionBytes := cmd.retentionBytes
      createdAtMs := cmd.createdAtMs })
    let partitions ← (List.range cmd.partitionCount.toNat).foldlM (fun partitions (i : Nat) => do
      let replicas ← index cmd.replicaNodeIDs i
      partitions.store ⟨cmd.name, i⟩ (some {
        topic := cmd.name
        partitionID := i
        shardID := (state.nextShardID + i) % 2 ^ 64
        replicaNodeIDs := replicas
        leaderNodeID := 0
        leaderEpoch := 0 })) state.partitions
    return ({ state with
      topics := topics
      partitions := partitions
      nextShardID := (state.nextShardID + uint64 cmd.partitionCount) % 2 ^ 64 }, okResult)

def applyDeleteTopic (state : RuntimeState) (payload : Pointer DeleteTopicCmd) :
    Except Panic (RuntimeState × Result) := do
  let cmd ← deref payload
  match state.topics.lookup cmd.name with
  | none => return (state, okResult)
  | some pointer =>
    let topic ← deref pointer
    return ({ state with
      partitions := (List.range topic.partitionCount.toNat).foldl
        (fun partitions (i : Nat) => partitions.delete ⟨cmd.name, i⟩) state.partitions
      topics := state.topics.delete cmd.name }, okResult)

/-- A missing assignment leaves the replicas of a new partition at nil. -/
def newReplicas (assignments : List (List Nat)) (i : Nat) : Except Panic (List Nat) :=
  if i < assignments.length then index assignments i else .ok []

def applyAlterTopicPartCount (state : RuntimeState) (payload : Pointer AlterTopicPartCountCmd) :
    Except Panic (RuntimeState × Result) := do
  let cmd ← deref payload
  match state.topics.lookup cmd.name with
  | none => return (state, errorResult resultErrNotFound "topic not found")
  | some pointer =>
    let topic ← deref pointer
    if cmd.newPartitionCount ≤ topic.partitionCount then
      return (state, errorResult resultErrInvalidArg "new_partition_count must be greater than current")
    else
      let addCount := int32 (cmd.newPartitionCount - topic.partitionCount)
      let partitions ← (List.range addCount.toNat).foldlM (fun partitions (i : Nat) => do
        let replicas ← newReplicas cmd.newReplicaAssignments i
        partitions.store ⟨cmd.name, topic.partitionCount + i⟩ (some {
          topic := cmd.name
          partitionID := topic.partitionCount + i
          shardID := (state.nextShardID + i) % 2 ^ 64
          replicaNodeIDs := replicas
          leaderNodeID := 0
          leaderEpoch := 0 })) state.partitions
      return ({ state with
        partitions := partitions
        nextShardID := (state.nextShardID + uint64 addCount) % 2 ^ 64
        topics := state.topics.modify cmd.name (some { topic with partitionCount := cmd.newPartitionCount }) },
        okResult)

def applyAlterTopicRetention (state : RuntimeState) (payload : Pointer AlterTopicRetentionCmd) :
    Except Panic (RuntimeState × Result) := do
  let cmd ← deref payload
  match state.topics.lookup cmd.name with
  | none => return (state, errorResult resultErrNotFound "topic not found")
  | some pointer =>
    let topic ← deref pointer
    return ({ state with
      topics := state.topics.modify cmd.name
        (some { topic with retentionMs := cmd.retentionMs, retentionBytes := cmd.retentionBytes }) }, okResult)

def applyRegisterNode (state : RuntimeState) (payload : Pointer RegisterNodeCmd) :
    Except Panic (RuntimeState × Result) := do
  let cmd ← deref payload
  let nodes ← state.nodes.store cmd.nodeID (some ⟨cmd.nodeID, cmd.address⟩)
  return ({ state with nodes := nodes }, okResult)

def applyAssignPartitionLeader (state : RuntimeState) (payload : Pointer AssignPartitionLeaderCmd) :
    Except Panic (RuntimeState × Result) := do
  let cmd ← deref payload
  match state.partitions.lookup ⟨cmd.topic, cmd.partitionID⟩ with
  | none => return (state, errorResult resultErrNotFound "partition not found")
  | some pointer =>
    let partition ← deref pointer
    if cmd.leaderEpoch ≤ partition.leaderEpoch then
      return (state, errorResult resultErrInvalidArg "leader_epoch must be greater than current")
    else
      return ({ state with
        partitions := state.partitions.modify ⟨cmd.topic, cmd.partitionID⟩
          (some { partition with leaderNodeID := cmd.leaderNodeID, leaderEpoch := cmd.leaderEpoch }) }, okResult)

/-- A missing map of newer groups is made first. -/
def applyGroupStateJoin (state : RuntimeState) (cmd : JoinConsumerGroupCmd) (member : MemberState) :
    Except Panic (RuntimeState × Result) := do
  let groupStates : NilMap String (Pointer RuntimeGroupState) := some (state.groupStates.getD ∅)
  let group ← groupStates.derefOr cmd.groupID ⟨cmd.groupID, some ∅, 0, some ∅, some ∅⟩
  let members ← group.members.store cmd.memberID member
  let groupStates ← groupStates.store cmd.groupID (some { group with
    members := members
    assignments := if cmd.newAssignment.isSome then cmd.newAssignment else group.assignments
    generationID := int32 (group.generationID + 1) })
  return ({ state with groupStates := groupStates }, okResult)

def applyJoinConsumerGroup (state : RuntimeState) (payload : Pointer JoinConsumerGroupCmd) :
    Except Panic (RuntimeState × Result) := do
  let cmd ← deref payload
  match cmd.member with
  | some member => state.applyGroupStateJoin cmd member
  | none =>
    let group ← state.groups.derefOr cmd.groupID ⟨cmd.groupID, 0, some ∅, some ∅⟩
    let memberID := if cmd.memberID = "" then s!"member-{cmd.clientHost}-{cmd.joinedAtMs}" else cmd.memberID
    let members ← group.members.store memberID
      (some ⟨memberID, cmd.clientHost, cmd.subscribedTopics, [], cmd.joinedAtMs⟩)
    let rebalanced ← RuntimeGroup.rebalance { group with members := members } state.topics state.partitions
    let group := { rebalanced with generationID := int32 (rebalanced.generationID + 1) }
    let member ← deref (group.members.lookup memberID).join
    let groups ← state.groups.store cmd.groupID (some group)
    return ({ state with groups := groups },
      ⟨resultOK, .join ⟨memberID, member.assignedPartitions, group.generationID⟩⟩)

def applyGroupStateLeave (state : RuntimeState) (cmd : LeaveConsumerGroupCmd) : Except Panic (RuntimeState × Result) :=
  match state.groupStates.lookup cmd.groupID with
  | none => return (state, errorResult resultErrNotFound "group not found")
  | some pointer => do
      let group ← deref pointer
      if (group.members.lookup cmd.memberID).isNone then
        return (state, errorResult resultErrNotFound "member not found")
      else
        let members := group.members.delete cmd.memberID
        let assignments := if members.visited inferInstance = [] then some ∅ else some (cmd.newAssignment.getD ∅)
        return ({ state with
          groupStates := state.groupStates.modify cmd.groupID (some { group with
            members := members
            assignments := assignments
            generationID := int32 (group.generationID + 1) }) }, okResult)

def applyLeaveConsumerGroup (state : RuntimeState) (payload : Pointer LeaveConsumerGroupCmd) :
    Except Panic (RuntimeState × Result) := do
  let cmd ← deref payload
  if (state.groupStates.lookup cmd.groupID).isSome then state.applyGroupStateLeave cmd
  else
    match state.groups.lookup cmd.groupID with
    | none => return (state, errorResult resultErrNotFound "group not found")
    | some pointer =>
      let group ← deref pointer
      if (group.members.lookup cmd.memberID).isNone then
        return (state, errorResult resultErrNotFound "member not found")
      else
        let rebalanced ← RuntimeGroup.rebalance { group with members := group.members.delete cmd.memberID }
          state.topics state.partitions
        return ({ state with
          groups := state.groups.modify cmd.groupID
            (some { rebalanced with generationID := int32 (rebalanced.generationID + 1) }) }, okResult)

def applyHeartbeatConsumerGroup (state : RuntimeState) (payload : Pointer HeartbeatConsumerGroupCmd) :
    Except Panic (RuntimeState × Result) := do
  let cmd ← deref payload
  match state.groups.lookup cmd.groupID with
  | none => return (state, errorResult resultErrNotFound "group not found")
  | some pointer =>
    let group ← deref pointer
    match group.members.lookup cmd.memberID with
    | none => return (state, errorResult resultErrNotFound "member not found")
    | some pointer =>
      let member ← deref pointer
      return ({ state with
        groups := state.groups.modify cmd.groupID (some { group with
          members := group.members.modify cmd.memberID (some { member with lastHeartbeatMs := cmd.timestampMs }) }) },
        if cmd.generationID ≠ group.generationID then ⟨1, .none⟩ else okResult)

/-- The loop over the offsets of a command writes one of them. -/
def storeOffset (groupOffsets : KeyMap TopicPartition Int) (offsets : NilMap TopicPartition Int) (tp : TopicPartition) :
    Except Panic (NilMap TopicPartition Int) :=
  match groupOffsets.lookup tp with
  | none => .ok offsets
  | some offset => offsets.store tp offset

/-- Offsets that are nil are made before the first of them is written. -/
def applyGroupStateCommitOffset (state : RuntimeState) (groupID : String) (groupOffsets : KeyMap TopicPartition Int) :
    Except Panic (RuntimeState × Result) :=
  match state.groupStates.lookup groupID with
  | none => return (state, errorResult resultErrNotFound "group not found")
  | some pointer => do
      let group ← deref pointer
      let offsets ← (@KeyMap.sortedKeys _ _ TopicPartition.order groupOffsets).foldlM (storeOffset groupOffsets)
        (some (group.offsets.getD ∅))
      return ({ state with
        groupStates := state.groupStates.modify groupID (some { group with offsets := offsets }) }, okResult)

def applyCommitConsumerOffset (state : RuntimeState) (payload : Pointer CommitConsumerOffsetCmd) :
    Except Panic (RuntimeState × Result) := do
  let cmd ← deref payload
  match cmd.groupOffsets with
  | some groupOffsets => state.applyGroupStateCommitOffset cmd.groupID groupOffsets
  | none =>
    match state.groups.lookup cmd.groupID with
    | none => return (state, errorResult resultErrNotFound "group not found")
    | some pointer =>
      let group ← deref pointer
      let committedOffsets ← cmd.offsets.foldlM
        (fun offsets o => NilMap.store offsets ⟨o.topic, o.partitionID⟩ o.offset) group.committedOffsets
      return ({ state with
        groups := state.groups.modify cmd.groupID
          (some { group with committedOffsets := committedOffsets }) }, okResult)

def applyRebalanceConsumerGroup (state : RuntimeState) (payload : Pointer RebalanceConsumerGroupCmd) :
    Except Panic (RuntimeState × Result) := do
  let cmd ← deref payload
  match state.groups.lookup cmd.groupID with
  | none => return (state, errorResult resultErrNotFound "group not found")
  | some pointer =>
    let group ← deref pointer
    let rebalanced ← RuntimeGroup.rebalance { group with
      members := cmd.expiredMemberIDs.foldl (fun members memberID => members.delete memberID) group.members }
      state.topics state.partitions
    return ({ state with
      groups := state.groups.modify cmd.groupID
        (some { rebalanced with generationID := int32 (rebalanced.generationID + 1) }) }, okResult)

def applyCommand (state : RuntimeState) (cmd : RuntimeCommand) : Except Panic (RuntimeState × Result) :=
  match cmd.type with
  | .createTopic => state.applyCreateTopic cmd.createTopic
  | .deleteTopic => state.applyDeleteTopic cmd.deleteTopic
  | .alterTopicPartCount => state.applyAlterTopicPartCount cmd.alterTopicPartCount
  | .alterTopicRetention => state.applyAlterTopicRetention cmd.alterTopicRetention
  | .registerNode => state.applyRegisterNode cmd.registerNode
  | .assignPartitionLeader => state.applyAssignPartitionLeader cmd.assignPartitionLeader
  | .joinConsumerGroup => state.applyJoinConsumerGroup cmd.joinConsumerGroup
  | .leaveConsumerGroup => state.applyLeaveConsumerGroup cmd.leaveConsumerGroup
  | .heartbeatConsumerGroup => state.applyHeartbeatConsumerGroup cmd.heartbeatConsumerGroup
  | .commitConsumerOffset => state.applyCommitConsumerOffset cmd.commitConsumerOffset
  | .rebalanceConsumerGroup => state.applyRebalanceConsumerGroup cmd.rebalanceConsumerGroup
  | .other => .ok (state, errorResult resultErrInvalidArg "unknown command type")

/-- An entry that is no command is answered with an error. -/
def update (state : RuntimeState) (entry : Option RuntimeCommand) : Except Panic (RuntimeState × Result) :=
  match entry with
  | none => .ok (state, errorResult resultErrInvalidArg "invalid command JSON")
  | some cmd => state.applyCommand cmd

end RuntimeState

open Json

namespace RuntimeGroup

def membersCodec : Codec (NilMap String (Pointer MemberInfo)) :=
  nilableMap inferInstance textKey (pointer MemberInfo.codec fun _ => by simp [MemberInfo.codec])

def committedOffsetsCodec : Codec (NilMap PartitionKey Int) := nilableMap PartitionKey.order PartitionKey.codec number

def codec : Codec RuntimeGroup where
  encode group := .object [("group_id", text.encode group.groupID), ("generation_id", number.encode group.generationID),
    ("members", membersCodec.encode group.members),
    ("committed_offsets", committedOffsetsCodec.encode group.committedOffsets)]
  decode written := do
    let groupID ← text.decode (written.field "group_id")
    let generationID ← number.decode (written.field "generation_id")
    let members ← membersCodec.decode (written.field "members")
    let committedOffsets ← committedOffsetsCodec.decode (written.field "committed_offsets")
    return ⟨groupID, generationID, members, committedOffsets⟩
  Admits group := membersCodec.Admits group.members ∧ committedOffsetsCodec.Admits group.committedOffsets
  faithful _ admitted := text.read trivial <| number.read trivial <| membersCodec.read admitted.1 <|
    committedOffsetsCodec.read admitted.2 rfl

end RuntimeGroup

namespace RuntimeGroupState

def membersCodec : Codec (NilMap String MemberState) := nilableMap inferInstance textKey MemberState.codec

def assignmentsCodec : Codec (NilMap String (List TopicPartition)) :=
  nilableMap inferInstance textKey (list (ofText TopicPartition.codec))

def offsetsCodec : Codec (NilMap TopicPartition Int) := nilableMap TopicPartition.order TopicPartition.codec number

def codec : Codec RuntimeGroupState where
  encode group := .object [("group_id", text.encode group.groupID), ("members", membersCodec.encode group.members),
    ("generation_id", number.encode group.generationID), ("assignments", assignmentsCodec.encode group.assignments),
    ("offsets", offsetsCodec.encode group.offsets)]
  decode written := do
    let groupID ← text.decode (written.field "group_id")
    let members ← membersCodec.decode (written.field "members")
    let generationID ← number.decode (written.field "generation_id")
    let assignments ← assignmentsCodec.decode (written.field "assignments")
    let offsets ← offsetsCodec.decode (written.field "offsets")
    return ⟨groupID, members, generationID, assignments, offsets⟩
  Admits group := assignmentsCodec.Admits group.assignments ∧ offsetsCodec.Admits group.offsets
  faithful _ admitted := text.read trivial <| membersCodec.read (fun _ _ _ _ _ => ⟨trivial, trivial⟩) <|
    number.read trivial <| assignmentsCodec.read admitted.1 <| offsetsCodec.read admitted.2 rfl

end RuntimeGroupState

namespace RuntimeState

def topicsCodec : Codec (NilMap String (Pointer TopicMeta)) :=
  nilableMap inferInstance textKey (pointer TopicMeta.codec fun _ => by simp [TopicMeta.codec])

def partitionsCodec : Codec (NilMap PartitionKey (Pointer PartitionMeta)) :=
  nilableMap PartitionKey.order PartitionKey.codec (pointer PartitionMeta.codec fun _ => by simp [PartitionMeta.codec])

def nodesCodec : Codec (NilMap Nat (Pointer NodeInfo)) :=
  nilableMap inferInstance naturalKey (pointer NodeInfo.codec fun _ => by simp [NodeInfo.codec])

def groupsCodec : Codec (NilMap String (Pointer RuntimeGroup)) :=
  nilableMap inferInstance textKey (pointer RuntimeGroup.codec fun _ => by simp [RuntimeGroup.codec])

def groupStatesCodec : Codec (NilMap String (Pointer RuntimeGroupState)) :=
  nilableMap inferInstance textKey (pointer RuntimeGroupState.codec fun _ => by simp [RuntimeGroupState.codec])

def codec : Codec RuntimeState where
  encode state := .object
    [("Topics", topicsCodec.encode state.topics), ("Partitions", partitionsCodec.encode state.partitions),
    ("Nodes", nodesCodec.encode state.nodes), ("Groups", groupsCodec.encode state.groups),
    ("GroupStates", groupStatesCodec.encode state.groupStates), ("NextShardID", natural.encode state.nextShardID)]
  decode written := do
    let topics ← topicsCodec.decode (written.field "Topics")
    let partitions ← partitionsCodec.decode (written.field "Partitions")
    let nodes ← nodesCodec.decode (written.field "Nodes")
    let groups ← groupsCodec.decode (written.field "Groups")
    let groupStates ← groupStatesCodec.decode (written.field "GroupStates")
    let nextShardID ← natural.decode (written.field "NextShardID")
    return ⟨topics, partitions, nodes, groups, groupStates, nextShardID⟩
  Admits state := partitionsCodec.Admits state.partitions ∧ groupsCodec.Admits state.groups ∧
    groupStatesCodec.Admits state.groupStates
  faithful _ admitted := topicsCodec.read (fun _ _ _ _ _ => ⟨trivial, fun _ _ => trivial⟩) <|
    partitionsCodec.read admitted.1 <| nodesCodec.read (fun _ _ _ _ _ => ⟨trivial, fun _ _ => trivial⟩) <|
    groupsCodec.read admitted.2.1 <| groupStatesCodec.read admitted.2.2 <| natural.read trivial rfl

def saveSnapshot (state : RuntimeState) : Value := codec.encode state

/-- A snapshot that cannot be read leaves the machine as it is. -/
def recoverFromSnapshot (held : RuntimeState) (snapshot : Value) : RuntimeState :=
  match codec.decode snapshot with
  | none => held
  | some state => { state with groupStates := some (state.groupStates.getD ∅) }

end RuntimeState

end BunnyMQ.Metadata
