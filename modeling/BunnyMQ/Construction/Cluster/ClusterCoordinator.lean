/-
This file models the coordinator that keeps the shards of a node in line with the metadata.
-/

import BunnyMQ.Construction.Cluster.DataCoordinator

namespace BunnyMQ.Cluster
open Foundation Metadata

/-- The data directory is a list of names. -/
structure CoordinatorConfig where
  nodeID : Nat
  dataDir : List String
  peers : KeyMap Nat String
  deriving DecidableEq

structure ShardInfo where
  topic : String
  partitionID : Int
  shardID : Nat
  peers : KeyMap Nat String
  deriving DecidableEq

/-- A replica without a known address is left out. -/
def buildPeerMap (replicaIDs : List Nat) (raftPeers : KeyMap Nat String) : KeyMap Nat String :=
  replicaIDs.foldl (fun peers id =>
    match raftPeers.lookup id with
    | some addr => peers.insert id addr
    | none => peers) ∅

/-- The results of the lookups that one reconciliation makes. -/
structure ClusterReads where
  listTopics : Except LookupError (List TopicMeta)
  getPartitions : String → Except LookupError (List PartitionMeta)

def shardInfo (config : CoordinatorConfig) (pm : PartitionMeta) : ShardInfo :=
  ⟨pm.topic, pm.partitionID, pm.shardID, buildPeerMap pm.replicaNodeIDs config.peers⟩

/-- The shards of one topic that this node has to run. -/
def expectPartitions (config : CoordinatorConfig) (expected : KeyMap Nat ShardInfo) (partitions : List PartitionMeta) :
    KeyMap Nat ShardInfo :=
  partitions.foldl (fun expected pm =>
    if config.nodeID ∈ pm.replicaNodeIDs then expected.insert pm.shardID (shardInfo config pm) else expected) expected

/-- A topic whose lookup fails is skipped. -/
def expectTopics (config : CoordinatorConfig) (getPartitions : String → Except LookupError (List PartitionMeta))
    (topics : List TopicMeta) : KeyMap Nat ShardInfo :=
  topics.foldl (fun expected tm =>
    match getPartitions tm.name with
    | .error _ => expected
    | .ok partitions => expectPartitions config expected partitions) ∅

/-- The shards to start and to stop, each with its information. -/
structure Reconciliation where
  starts : List (Nat × ShardInfo)
  stops : List (Nat × ShardInfo)
  deriving DecidableEq

/-- The entries of the first map whose keys the second one lacks. -/
def missingFrom (shards others : KeyMap Nat ShardInfo) : List (Nat × ShardInfo) :=
  (shards.sortedKeys.filter fun shardID => shardID ∉ others).filterMap fun shardID =>
    (shards.lookup shardID).map fun info => (shardID, info)

/-- Expected shards that do not run are started, and running shards that are not expected are stopped. -/
def reconcileOnce (config : CoordinatorConfig) (reads : ClusterReads) (runningShards : KeyMap Nat ShardInfo) :
    Reconciliation :=
  match reads.listTopics with
  | .error _ => ⟨[], []⟩
  | .ok topics =>
    let expected := expectTopics config reads.getPartitions topics
    ⟨missingFrom expected runningShards, missingFrom runningShards expected⟩

/-- Names of a path are joined to a directory. A dot stays, and two dots lead to the parent. -/
def joinPath (dir : List String) (names : List String) : List String :=
  (names.flatMap fun name => name.splitOn "/").foldl (fun dir name =>
    if name = "" ∨ name = "." then dir else if name = ".." then dir.dropLast else dir ++ [name]) dir

def partitionDir (dataDir : List String) (topic : String) (partitionID : Int) : List String :=
  joinPath dataDir ["partitions", topic, toString partitionID]

/-- The state machine of a shard creates this directory. -/
def shardDir (dataDir : List String) (shardID : Nat) : List String :=
  joinPath dataDir ["partitions", s!"shard-{shardID}"]

inductive StartStep where
  | launch
  | register
  | record
  deriving DecidableEq, Repr

inductive StopStep where
  | unregister
  | halt
  | forget
  | removeAll
  deriving DecidableEq, Repr

/-- A running `startShard` or `stopShard` with the step that it takes next. -/
inductive Worker where
  | startShard (shardID : Nat) (info : ShardInfo) (next : StartStep)
  | stopShard (shardID : Nat) (info : ShardInfo) (next : StopStep)
  deriving DecidableEq

/-- The routing and the shards of one node. The hosted shards are those that the Raft library runs. -/
structure Node where
  registry : ShardRegistry
  runningShards : KeyMap Nat ShardInfo
  hosted : Finset Nat
  directories : Finset (List String)

/-- One step of a worker, and what is left of the worker. The start of a hosted shard fails, and another start may
fail as well. The stop of a shard that is not hosted is only logged. -/
def Worker.step (config : CoordinatorConfig) (fails : Bool) (node : Node) : Worker → Node × Option Worker
  | .startShard shardID info .launch =>
    if fails ∨ shardID ∈ node.hosted then (node, none)
    else ({ node with
      hosted := insert shardID node.hosted
      directories := insert (shardDir config.dataDir shardID) node.directories },
      some (.startShard shardID info .register))
  | .startShard shardID info .register =>
    ({ node with registry := startPartitionReplica node.registry info.topic info.partitionID shardID },
      some (.startShard shardID info .record))
  | .startShard shardID info .record =>
    ({ node with runningShards := node.runningShards.insert shardID info }, none)
  | .stopShard shardID info .unregister =>
    ({ node with registry := stopPartitionReplica node.registry info.topic info.partitionID shardID },
      some (.stopShard shardID info .halt))
  | .stopShard shardID info .halt =>
    ({ node with hosted := node.hosted.erase shardID }, some (.stopShard shardID info .forget))
  | .stopShard shardID info .forget =>
    ({ node with runningShards := node.runningShards.erase shardID }, some (.stopShard shardID info .removeAll))
  | .stopShard _ info .removeAll =>
    ({ node with
      directories := node.directories.filter fun dir =>
        ¬ partitionDir config.dataDir info.topic info.partitionID <+: dir }, none)

def Reconciliation.workers (reconciliation : Reconciliation) : List Worker :=
  (reconciliation.starts.map fun entry => .startShard entry.1 entry.2 .launch) ++
    reconciliation.stops.map fun entry => .stopShard entry.1 entry.2 .unregister

/-- The leader of a shard and its term as the coordinator last stored them. -/
structure LeaderRecord where
  nodeID : Nat
  term : Nat
  deriving DecidableEq, Repr

/-- An answer of `GetLeaderID`. -/
structure LeaderAnswer where
  leaderID : Nat
  term : Nat
  valid : Bool
  deriving DecidableEq, Repr

/-- The loop of `sweepLeaders` proposes this for one running shard. A failed call has no answer. -/
def proposeLeader (lastKnownLeader : KeyMap Nat LeaderRecord) (shardID : Nat) (info : ShardInfo)
    (answer : Option LeaderAnswer) : Option AssignPartitionLeaderCmd :=
  match answer with
  | none => none
  | some answer =>
    let last := (lastKnownLeader.lookup shardID).getD ⟨0, 0⟩
    if ¬ answer.valid ∨ (answer.leaderID = last.nodeID ∧ answer.term = last.term) then none
    else some ⟨info.topic, info.partitionID, answer.leaderID, int64 answer.term⟩

/-- A leader is stored when its command was accepted. -/
def recordLeader (lastKnownLeader : KeyMap Nat LeaderRecord) (shardID : Nat) (answer : Option LeaderAnswer)
    (accepted : Bool) : KeyMap Nat LeaderRecord :=
  match answer with
  | none => lastKnownLeader
  | some answer => if accepted then lastKnownLeader.insert shardID ⟨answer.leaderID, answer.term⟩ else lastKnownLeader

/-- This is the hash function FNV-1a. -/
def fnv32a (text : String) : UInt32 :=
  text.toUTF8.toList.foldl (fun hash byte => (hash ^^^ byte.toUInt32) * 16777619) 2166136261

/-- The replicas of a partition are consecutive nodes in the order of their numbers. Without nodes, with a negative
factor or with a negative place the call panics. -/
def assignReplicas (nodes : List NodeInfo) (topicName : String) (partitionID rf : Int) : Option (List Nat) :=
  let sorted := nodes.insertionSort fun first second => first.nodeID ≤ second.nodeID
  if sorted.length = 0 ∨ rf < 0 then none
  else
    let start := (fnv32a topicName).toNat % sorted.length
    (List.range rf.toNat).mapM fun (r : Nat) =>
      let place := ((start : Int) + partitionID + r).tmod sorted.length
      if place < 0 then none else sorted[place.toNat]?.map NodeInfo.nodeID

/-- The expression `^[a-zA-Z0-9._-]{1,255}$`. -/
def topicNameRe (name : String) : Bool :=
  1 ≤ name.length ∧ name.length ≤ 255 ∧ name.toList.all fun c =>
    c.isAlpha || c.isDigit || c = '.' || c = '_' || c = '-'

structure TopicConfigOverrides where
  retentionMs : Option Int
  retentionBytes : Option Int
  deriving DecidableEq, Repr

inductive AdminError where
  | invalidArgument (text : String)
  | topicNotFound
  | lookup (failure : LookupError)
  | panics
  deriving DecidableEq, Repr

/-- The checks of `CreateTopic` end with the command that is proposed. -/
def createTopic (listNodes : Except LookupError (List NodeInfo)) (name : String)
    (partitionCount replicationFactor : Int) (configOverrides : TopicConfigOverrides) (now : Int) :
    Except AdminError CreateTopicCmd :=
  if ¬ topicNameRe name then .error (.invalidArgument s!"topic name {name.quote} is invalid")
  else if partitionCount < 1 then .error (.invalidArgument "partitionCount must be >= 1")
  else if replicationFactor < 1 then .error (.invalidArgument "replicationFactor must be >= 1")
  else
    match listNodes with
    | .error failure => .error (.lookup failure)
    | .ok nodes =>
      if replicationFactor > nodes.length then
        .error (.invalidArgument s!"replicationFactor {replicationFactor} exceeds cluster size {nodes.length}")
      else
        match (List.range partitionCount.toNat).mapM fun (p : Nat) => assignReplicas nodes name p replicationFactor with
        | none => .error .panics
        | some replicaNodeIDs => .ok {
            name := name
            partitionCount := partitionCount
            replicationFactor := replicationFactor
            retentionMs := configOverrides.retentionMs.getD 0
            retentionBytes := configOverrides.retentionBytes.getD (-1)
            createdAtMs := now
            replicaNodeIDs := replicaNodeIDs }

/-- A lookup that finds nothing is an error of its own. -/
def topicLookupError : LookupError → AdminError
  | .notFound => .topicNotFound
  | .failed text => .lookup (.failed text)

def deleteTopic (getTopic : Except LookupError TopicMeta) (name : String) : Except AdminError DeleteTopicCmd :=
  match getTopic with
  | .error failure => .error (topicLookupError failure)
  | .ok _ => .ok ⟨name⟩

/-- The checks of `AlterTopicPartitionCount` end with the command that is proposed. -/
def alterTopicPartitionCount (getTopic : Except LookupError TopicMeta) (listNodes : Except LookupError (List NodeInfo))
    (name : String) (newCount : Int) : Except AdminError AlterTopicPartCountCmd :=
  match getTopic with
  | .error failure => .error (topicLookupError failure)
  | .ok tm =>
    if newCount ≤ tm.partitionCount then
      .error (.invalidArgument s!"newCount {newCount} must be greater than current {tm.partitionCount}")
    else
      match listNodes with
      | .error failure => .error (.lookup failure)
      | .ok nodes =>
        let addCount := int32 (newCount - tm.partitionCount)
        match (List.range addCount.toNat).mapM fun (i : Nat) =>
            assignReplicas nodes name (tm.partitionCount + i) tm.replicationFactor with
        | none => .error .panics
        | some newAssignments => .ok ⟨name, newCount, newAssignments⟩

/-- The checks of `AlterTopicRetention` end with the command that is proposed. -/
def alterTopicRetention (getTopic : Except LookupError TopicMeta) (name : String) (retentionMs retentionBytes : Int) :
    Except AdminError AlterTopicRetentionCmd :=
  match getTopic with
  | .error failure => .error (topicLookupError failure)
  | .ok _ => .ok ⟨name, retentionMs, retentionBytes⟩

/-- The new setting is proposed to these shards behind the command. A failed lookup is only logged. -/
def retentionShards (getPartitions : Except LookupError (List PartitionMeta)) : List Nat :=
  match getPartitions with
  | .error _ => []
  | .ok pms => pms.map PartitionMeta.shardID

end BunnyMQ.Cluster
