/-
This file models how the metadata are written to a snapshot and read back.
-/

import BunnyMQ.Construction.Metadata.MetadataFSM
import BunnyMQ.Library.Json

namespace BunnyMQ.Metadata
open Foundation Json

/-- The parts of a text before and behind the last separator. -/
def splitLast (separator : Char) : List Char → Option (List Char × List Char)
  | [] => none
  | c :: rest =>
    match splitLast separator rest with
    | some (before, behind) => some (c :: before, behind)
    | none => if c = separator then some ([], rest) else none

theorem splitLast_append {separator : Char} (before : List Char) {behind : List Char} (last : separator ∉ behind) :
    splitLast separator (before ++ separator :: behind) = some (before, behind) := by
  have none (behind : List Char) (absent : separator ∉ behind) : splitLast separator behind = none := by
    induction behind with
    | nil => rfl
    | cons c rest ih =>
      obtain ⟨here, later⟩ := not_or.mp (mt List.mem_cons.mpr absent)
      rw [splitLast, ih later]
      exact if_neg fun same => here same.symm
  induction before with
  | nil =>
    rw [List.nil_append, splitLast, none behind last]
    exact if_pos rfl
  | cons c rest ih => rw [List.cons_append, splitLast, ih]

/-- The topic, a zero character and the number in decimal. -/
def marshalKey (topic : String) (partitionID : Int) : String :=
  String.ofList (topic.toList ++ '\x00' :: Decimal.formatInt partitionID)

/-- The topic may itself contain the zero character, because the last one counts. -/
def unmarshalKey (written : String) : Option (String × Int) := do
  let (topic, number) ← splitLast '\x00' written.toList
  let partitionID ← Decimal.parseInt 32 number
  return (String.ofList topic, partitionID)

/-- A partition number is a signed 32-bit number. -/
def Int32Range (partitionID : Int) : Prop := -2 ^ 31 ≤ partitionID ∧ partitionID < 2 ^ 31

/-- The text of a key is read back for every topic. -/
theorem unmarshalKey_marshalKey (topic : String) {partitionID : Int} (range : Int32Range partitionID) :
    unmarshalKey (marshalKey topic partitionID) = some (topic, partitionID) := by
  have digits : '\x00' ∉ Decimal.formatInt partitionID := Decimal.notMem_formatInt (by decide) (by decide)
  have parsed : Decimal.parseInt 32 (Decimal.formatInt partitionID) = some partitionID :=
    Decimal.parseInt_formatInt range.1 range.2
  unfold unmarshalKey marshalKey
  rw [String.toList_ofList, splitLast_append _ digits]
  simp only [Option.bind_eq_bind, Option.bind_some, parsed, String.ofList_toList]
  rfl

@[reducible] def TopicPartition.order : LinearOrder TopicPartition :=
  LinearOrder.lift' (fun tp => toLex (tp.topic, tp.partitionID)) fun first second same => by
    cases first
    cases second
    simpa using same

def TopicPartition.codec : TextCodec TopicPartition where
  marshalText tp := marshalKey tp.topic tp.partitionID
  unmarshalText written := (unmarshalKey written).map fun parts => ⟨parts.1, parts.2⟩
  Admits tp := Int32Range tp.partitionID
  faithful tp range := by rw [unmarshalKey_marshalKey tp.topic range, Option.map_some]

def PartitionKey.codec : TextCodec PartitionKey where
  marshalText key := marshalKey key.topic key.partitionID
  unmarshalText written := (unmarshalKey written).map fun parts => ⟨parts.1, parts.2⟩
  Admits key := Int32Range key.partitionID
  faithful key range := by rw [unmarshalKey_marshalKey key.topic range, Option.map_some]

def TopicMeta.codec : Codec TopicMeta where
  encode tm := .object [("name", text.encode tm.name), ("partition_count", number.encode tm.partitionCount),
    ("replication_factor", number.encode tm.replicationFactor), ("retention_ms", number.encode tm.retentionMs),
    ("retention_bytes", number.encode tm.retentionBytes), ("created_at_ms", number.encode tm.createdAtMs)]
  decode written := do
    let name ← text.decode (written.field "name")
    let partitionCount ← number.decode (written.field "partition_count")
    let replicationFactor ← number.decode (written.field "replication_factor")
    let retentionMs ← number.decode (written.field "retention_ms")
    let retentionBytes ← number.decode (written.field "retention_bytes")
    let createdAtMs ← number.decode (written.field "created_at_ms")
    return ⟨name, partitionCount, replicationFactor, retentionMs, retentionBytes, createdAtMs⟩
  Admits _ := True
  faithful _ _ := rfl

def PartitionMeta.codec : Codec PartitionMeta where
  encode pm := .object [("topic", text.encode pm.topic), ("partition_id", number.encode pm.partitionID),
    ("shard_id", natural.encode pm.shardID), ("replica_node_ids", (list natural).encode pm.replicaNodeIDs),
    ("leader_node_id", natural.encode pm.leaderNodeID), ("leader_epoch", number.encode pm.leaderEpoch)]
  decode written := do
    let topic ← text.decode (written.field "topic")
    let partitionID ← number.decode (written.field "partition_id")
    let shardID ← natural.decode (written.field "shard_id")
    let replicaNodeIDs ← (list natural).decode (written.field "replica_node_ids")
    let leaderNodeID ← natural.decode (written.field "leader_node_id")
    let leaderEpoch ← number.decode (written.field "leader_epoch")
    return ⟨topic, partitionID, shardID, replicaNodeIDs, leaderNodeID, leaderEpoch⟩
  Admits _ := True
  faithful _ _ := text.read trivial <| number.read trivial <| natural.read trivial <|
    (list natural).read (fun _ _ => trivial) <| natural.read trivial <| number.read trivial rfl

def NodeInfo.codec : Codec NodeInfo where
  encode info := .object [("node_id", natural.encode info.nodeID), ("address", text.encode info.address)]
  decode written := do
    let nodeID ← natural.decode (written.field "node_id")
    let address ← text.decode (written.field "address")
    return ⟨nodeID, address⟩
  Admits _ := True
  faithful _ _ := natural.read trivial <| text.read trivial rfl

def MemberInfo.codec : Codec MemberInfo where
  encode info := .object [("member_id", text.encode info.memberID), ("client_host", text.encode info.clientHost),
    ("subscribed_topics", (list text).encode info.subscribedTopics),
    ("assigned_partitions", (list (ofText PartitionKey.codec)).encode info.assignedPartitions),
    ("last_heartbeat_ms", number.encode info.lastHeartbeatMs)]
  decode written := do
    let memberID ← text.decode (written.field "member_id")
    let clientHost ← text.decode (written.field "client_host")
    let subscribedTopics ← (list text).decode (written.field "subscribed_topics")
    let assignedPartitions ← (list (ofText PartitionKey.codec)).decode (written.field "assigned_partitions")
    let lastHeartbeatMs ← number.decode (written.field "last_heartbeat_ms")
    return ⟨memberID, clientHost, subscribedTopics, assignedPartitions, lastHeartbeatMs⟩
  Admits info := (list (ofText PartitionKey.codec)).Admits info.assignedPartitions
  faithful _ admitted := text.read trivial <| text.read trivial <| (list text).read (fun _ _ => trivial) <|
    (list (ofText PartitionKey.codec)).read admitted <| number.read trivial rfl

/-- The members of an older group are keyed by their names and its offsets by their partitions. -/
def ConsumerGroupMeta.membersCodec : Codec (KeyMap String MemberInfo) := map inferInstance textKey MemberInfo.codec

def ConsumerGroupMeta.committedOffsetsCodec : Codec (KeyMap PartitionKey Int) :=
  map PartitionKey.order PartitionKey.codec number

def ConsumerGroupMeta.codec : Codec ConsumerGroupMeta where
  encode group := .object [("group_id", text.encode group.groupID), ("generation_id", number.encode group.generationID),
    ("members", membersCodec.encode group.members),
    ("committed_offsets", committedOffsetsCodec.encode group.committedOffsets)]
  decode written := do
    let groupID ← text.decode (written.field "group_id")
    let generationID ← number.decode (written.field "generation_id")
    let members ← membersCodec.decode (written.field "members")
    let committedOffsets ← committedOffsetsCodec.decode (written.field "committed_offsets")
    return ⟨groupID, generationID, members, committedOffsets⟩
  Admits group := membersCodec.Admits group.members ∧ committedOffsetsCodec.Admits group.committedOffsets
  faithful _ admitted := text.read trivial <| number.read trivial <| membersCodec.read admitted.1 <|
    committedOffsetsCodec.read admitted.2 rfl

/-- The time of a join is its number here. -/
def MemberState.codec : Codec MemberState where
  encode ms := .object [("member_id", text.encode ms.memberID),
    ("subscribed_topics", (list text).encode ms.subscribedTopics),
    ("session_timeout_ms", number.encode ms.sessionTimeoutMs),
    ("heartbeat_interval_ms", number.encode ms.heartbeatIntervalMs), ("joined_at", number.encode ms.joinedAt)]
  decode written := do
    let memberID ← text.decode (written.field "member_id")
    let subscribedTopics ← (list text).decode (written.field "subscribed_topics")
    let sessionTimeoutMs ← number.decode (written.field "session_timeout_ms")
    let heartbeatIntervalMs ← number.decode (written.field "heartbeat_interval_ms")
    let joinedAt ← number.decode (written.field "joined_at")
    return ⟨memberID, subscribedTopics, sessionTimeoutMs, heartbeatIntervalMs, joinedAt⟩
  Admits _ := True
  faithful _ _ := text.read trivial <| (list text).read (fun _ _ => trivial) <| number.read trivial <|
    number.read trivial <| number.read trivial rfl

def GroupState.membersCodec : Codec (KeyMap String MemberState) := map inferInstance textKey MemberState.codec

def GroupState.assignmentsCodec : Codec (KeyMap String (List TopicPartition)) :=
  map inferInstance textKey (list (ofText TopicPartition.codec))

def GroupState.offsetsCodec : Codec (KeyMap TopicPartition Int) := map TopicPartition.order TopicPartition.codec number

def GroupState.codec : Codec GroupState where
  encode group := .object [("group_id", text.encode group.groupID), ("members", membersCodec.encode group.members),
    ("generation_id", number.encode group.generationID), ("assignments", assignmentsCodec.encode group.assignments),
    ("offsets", offsetsCodec.encode group.offsets)]
  decode written := do
    let groupID ← text.decode (written.field "group_id")
    let members ← membersCodec.decode (written.field "members")
    let generationID ← number.decode (written.field "generation_id")
    let assignments ← assignmentsCodec.decode (written.field "assignments")
    let offsets ← offsetsCodec.decode (written.field "offsets")
    return ⟨groupID, members, generationID, assignments, offsets⟩
  Admits group := assignmentsCodec.Admits group.assignments ∧ offsetsCodec.Admits group.offsets
  faithful _ admitted := text.read trivial <| membersCodec.read (fun _ _ _ => ⟨trivial, trivial⟩) <|
    number.read trivial <| assignmentsCodec.read admitted.1 <| offsetsCodec.read admitted.2 rfl

namespace MetadataState

def topicsCodec : Codec (KeyMap String TopicMeta) := map inferInstance textKey TopicMeta.codec

def partitionsCodec : Codec (KeyMap PartitionKey PartitionMeta) :=
  map PartitionKey.order PartitionKey.codec PartitionMeta.codec

def nodesCodec : Codec (KeyMap Nat NodeInfo) := map inferInstance naturalKey NodeInfo.codec

def groupsCodec : Codec (KeyMap String ConsumerGroupMeta) := map inferInstance textKey ConsumerGroupMeta.codec

def groupStatesCodec : Codec (Option (KeyMap String GroupState)) := nilableMap inferInstance textKey GroupState.codec

/-- Newer groups that come back as nil are made empty. -/
def codec : Codec MetadataState where
  encode state := .object
    [("Topics", topicsCodec.encode state.topics), ("Partitions", partitionsCodec.encode state.partitions),
    ("Nodes", nodesCodec.encode state.nodes), ("Groups", groupsCodec.encode state.groups),
    ("GroupStates", groupStatesCodec.encode (some state.groupStates)),
    ("NextShardID", natural.encode state.nextShardID)]
  decode written := do
    let topics ← topicsCodec.decode (written.field "Topics")
    let partitions ← partitionsCodec.decode (written.field "Partitions")
    let nodes ← nodesCodec.decode (written.field "Nodes")
    let groups ← groupsCodec.decode (written.field "Groups")
    let groupStates ← groupStatesCodec.decode (written.field "GroupStates")
    let nextShardID ← natural.decode (written.field "NextShardID")
    return ⟨topics, partitions, nodes, groups, groupStates.getD ∅, nextShardID⟩
  Admits state := partitionsCodec.Admits state.partitions ∧ groupsCodec.Admits state.groups ∧
    groupStatesCodec.Admits (some state.groupStates)
  faithful _ admitted := topicsCodec.read (fun _ _ _ => ⟨trivial, trivial⟩) <| partitionsCodec.read admitted.1 <|
    nodesCodec.read (fun _ _ _ => ⟨trivial, trivial⟩) <| groupsCodec.read admitted.2.1 <|
    groupStatesCodec.read admitted.2.2 <| natural.read trivial rfl

def saveSnapshot (state : MetadataState) : Value := codec.encode state

/-- A snapshot replaces the state that the machine holds. The answer is whether the snapshot could be read. -/
def recoverFromSnapshot (held : MetadataState) (snapshot : Value) : MetadataState × Bool :=
  match codec.decode snapshot with
  | none => (held, false)
  | some state => (state, true)

end MetadataState

end BunnyMQ.Metadata
