/-
This file models the consumer of the client library.
-/

import BunnyMQ.Construction.Client.BatchDecoder
import BunnyMQ.Construction.Group.GroupCoordinator

namespace BunnyMQ.Client
open Foundation Metadata BunnyMQ.Group

/-- A topic partition, as the client names it. -/
structure TP where
  topic : String
  partitionID : Int
  deriving DecidableEq, Repr

/-- The order in which the model visits a map of partitions. -/
@[reducible] def TP.order : LinearOrder TP :=
  LinearOrder.lift' (fun tp => toLex (tp.topic, tp.partitionID)) fun first second same => by
    cases first
    cases second
    simpa using same

/-- The keys of a map of partitions. -/
def visit (offsets : KeyMap TP Int) : List TP := @KeyMap.sortedKeys _ _ TP.order offsets

def protoToTP (protos : List TopicPartition) : List TP := protos.map fun tp => ⟨tp.topic, tp.partitionID⟩

/-- The client distinguishes these codes of an error detail. -/
inductive DetailCode where
  | notLeader
  | notGroupMember
  | staleGeneration
  | unavailable
  | other
  deriving DecidableEq, Repr

/-- An error carries the code of its detail, the leader that it names and whether its status is `Unavailable`. -/
structure RpcError where
  code : Option DetailCode
  leaderAddress : String
  statusUnavailable : Bool
  text : String
  deriving DecidableEq, Repr

def errNoReachableServer : RpcError := ⟨none, "", false, "client: no reachable server"⟩

def errStaleGeneration : RpcError := ⟨none, "", false, "client: stale generation — consumer must rejoin the group"⟩

inductive OffsetResetPolicy where
  | latest
  | earliest
  deriving DecidableEq, Repr

structure ConsumerConfig where
  bootstrapServers : List String
  groupID : String
  maxFetchBytes : Int
  maxFetchWaitMs : Int
  autoOffsetReset : OffsetResetPolicy
  heartbeatIntervalMs : Int
  sessionTimeoutMs : Int
  deriving DecidableEq, Repr

structure Consumer where
  config : ConsumerConfig
  knownAddrs : List String
  fetchOffsets : KeyMap TP Int
  soughtPartitions : List TP
  subscribedTopics : List String
  memberID : String
  generationID : Int
  coordAddr : String
  assignedPartitions : List TP
  rebalancing : Bool
  deriving DecidableEq

/-- A bound that is not positive gets its default. -/
def orDefault (value default : Int) : Int := if value ≤ 0 then default else value

def newConsumer (config : ConsumerConfig) : Except String Consumer :=
  if config.bootstrapServers.length = 0 then .error "client: BootstrapServers must not be empty"
  else .ok {
    config := { config with
      maxFetchBytes := orDefault config.maxFetchBytes (2 ^ 20)
      maxFetchWaitMs := orDefault config.maxFetchWaitMs 500
      heartbeatIntervalMs := orDefault config.heartbeatIntervalMs 3000 }
    knownAddrs := config.bootstrapServers
    fetchOffsets := ∅
    soughtPartitions := []
    subscribedTopics := []
    memberID := ""
    generationID := 0
    coordAddr := ""
    assignedPartitions := []
    rebalancing := false }

structure CommitOffsetRequest where
  groupID : String
  memberID : String
  generationID : Int
  offsets : KeyMap TP Int
  deriving DecidableEq

/-- The answers to the calls that a consumer makes when it joins. A call that can happen twice gets its number, and
an unreachable server answers with an error. -/
structure Rpcs where
  describeCluster : Nat → String → Except RpcError (List String)
  joinGroup : Nat → String → JoinGroupRequest → Except RpcError JoinGroupResponse
  fetchCommittedOffsets : String → List TP → Except RpcError (List (TP × Int))
  latestOffset : TP → Except RpcError Int
  commitOffset : String → CommitOffsetRequest → Except RpcError Unit

namespace Consumer

/-- A partition that already has an offset is not appended again. -/
def seek (c : Consumer) (tp : TP) (offset : Int) : Consumer :=
  { c with
    soughtPartitions := if tp ∈ c.fetchOffsets then c.soughtPartitions else c.soughtPartitions ++ [tp]
    fetchOffsets := c.fetchOffsets.insert tp offset }

/-- The first reachable server names the first node of the cluster, or is taken itself. -/
def firstCoordinator (describe : String → Except RpcError (List String)) : List String → Option String
  | [] => none
  | addr :: rest =>
    match describe addr with
    | .error _ => firstCoordinator describe rest
    | .ok nodes => some (nodes.headD addr)

def findCoordinator (describe : String → Except RpcError (List String)) (c : Consumer) : Consumer × Option RpcError :=
  match firstCoordinator describe c.knownAddrs with
  | none => (c, some errNoReachableServer)
  | some addr => ({ c with coordAddr := addr }, none)

def doJoinGroup (call : String → JoinGroupRequest → Except RpcError JoinGroupResponse) (c : Consumer)
    (topics : List String) : Except RpcError JoinGroupResponse :=
  call c.coordAddr {
    groupID := c.config.groupID
    memberID := c.memberID
    topics := topics
    sessionTimeoutMs := c.config.sessionTimeoutMs
    heartbeatIntervalMs := int32 c.config.heartbeatIntervalMs }

/-- The coordinator that an error names, or one that is looked up again. -/
def refreshCoordinator (rpcs : Rpcs) (c : Consumer) (failure : RpcError) : Consumer × Option RpcError :=
  if failure.leaderAddress ≠ "" then ({ c with coordAddr := failure.leaderAddress }, none)
  else c.findCoordinator (rpcs.describeCluster 1)

/-- This is the part of `joinGroup` that calls the coordinator, once again when it has moved. -/
def requestJoin (rpcs : Rpcs) (c : Consumer) (topics : List String) : Consumer × Except RpcError JoinGroupResponse :=
  match c.findCoordinator (rpcs.describeCluster 0) with
  | (c, some failure) => (c, .error failure)
  | (c, none) =>
    match c.doJoinGroup (rpcs.joinGroup 0) topics with
    | .ok resp => (c, .ok resp)
    | .error failure =>
      if failure.code ≠ some .notLeader then (c, .error failure)
      else
        match refreshCoordinator rpcs c failure with
        | (c, some _) => (c, .error failure)
        | (c, none) => (c, c.doJoinGroup (rpcs.joinGroup 1) topics)

def storeJoin (c : Consumer) (resp : JoinGroupResponse) : Consumer :=
  { c with
    memberID := resp.memberID
    generationID := resp.generationID
    assignedPartitions := protoToTP resp.assignments }

/-- A later offset of the answer replaces an earlier one of the same partition. -/
def committedOffsets (offsets : List (TP × Int)) : KeyMap TP Int :=
  offsets.foldl (fun committed entry => committed.insert entry.1 entry.2) ∅

/-- The offset from which the policy starts a partition without a committed offset. -/
def resetOffset (policy : OffsetResetPolicy) (latestOffset : Except RpcError Int) : Except RpcError Int :=
  match policy with
  | .earliest => .ok 0
  | .latest => latestOffset

def startOffset (policy : OffsetResetPolicy) (latestOffset : TP → Except RpcError Int) (committed : KeyMap TP Int)
    (tp : TP) : Except RpcError Int :=
  match committed.lookup tp with
  | some off => if off > -1 then .ok off else resetOffset policy (latestOffset tp)
  | none => resetOffset policy (latestOffset tp)

/-- The loop stops at the first partition without an offset. -/
def seekAll (start : TP → Except RpcError Int) : List TP → Consumer → Consumer × Option RpcError
  | [], c => (c, none)
  | tp :: rest, c =>
    match start tp with
    | .error failure => (c, some failure)
    | .ok offset => seekAll start rest (c.seek tp offset)

def initFetchOffsets (rpcs : Rpcs) (c : Consumer) : Consumer × Option RpcError :=
  let assigned := c.assignedPartitions
  if assigned.length = 0 then (c, none)
  else
    match rpcs.fetchCommittedOffsets c.coordAddr assigned with
    | .error failure => (c, some failure)
    | .ok offsets => seekAll (startOffset c.config.autoOffsetReset rpcs.latestOffset (committedOffsets offsets))
        assigned c

def joinGroup (rpcs : Rpcs) (c : Consumer) (topics : List String) : Consumer × Option RpcError :=
  match c.requestJoin rpcs topics with
  | (c, .error failure) => (c, some failure)
  | (c, .ok resp) => (c.storeJoin resp).initFetchOffsets rpcs

/-- The background loop starts when a consumer of a group has joined. -/
def subscribe (rpcs : Rpcs) (c : Consumer) (topics : List String) : Consumer × Option RpcError :=
  let c := { c with subscribedTopics := topics }
  if c.config.groupID = "" then (c, none) else c.joinGroup rpcs topics

def commitOffsets (rpcs : Rpcs) (c : Consumer) (offsets : KeyMap TP Int) : Option RpcError :=
  if c.config.groupID = "" then none
  else
    match rpcs.commitOffset c.coordAddr ⟨c.config.groupID, c.memberID, c.generationID, offsets⟩ with
    | .ok () => none
    | .error failure => some (if failure.code = some .staleGeneration then errStaleGeneration else failure)

/-- The positions that are taken away when a rebalance starts. -/
def clearPositions (c : Consumer) : Consumer := { c with soughtPartitions := [], fetchOffsets := ∅ }

/-- The saved positions of the partitions that are still assigned. -/
def toCommit (saved : KeyMap TP Int) (assigned : List TP) : KeyMap TP Int :=
  ((visit saved).filter (· ∈ assigned)).foldl (fun offsets tp => offsets.insert tp ((saved.lookup tp).getD 0)) ∅

def seekCommitted (offsets : KeyMap TP Int) (c : Consumer) : Consumer :=
  (visit offsets).foldl (fun c tp => c.seek tp ((offsets.lookup tp).getD 0)) c

/-- The positions that a finished rebalance commits, and seeks when the commit succeeds. -/
def commitSaved (rpcs : Rpcs) (saved : KeyMap TP Int) (c : Consumer) : Consumer :=
  let offsets := toCommit saved c.assignedPartitions
  if (visit offsets).length > 0 then
    match c.commitOffsets rpcs offsets with
    | none => seekCommitted offsets c
    | some _ => c
  else c

def rebalance (rpcs : Rpcs) (c : Consumer) : Consumer :=
  let saved := c.fetchOffsets
  match c.clearPositions.joinGroup rpcs c.subscribedTopics with
  | (c, some _) => { c with rebalancing := false }
  | (c, none) => { commitSaved rpcs saved c with rebalancing := false }

end Consumer

/-- The record that an application receives. -/
structure PolledRecord extends DecodedRecord where
  topic : String
  partitionID : Int
  deriving DecidableEq

structure FetchResponse where
  records : Bytes
  nextOffset : Int
  deriving DecidableEq, Repr

inductive FetchError where
  | rpc (failure : RpcError)
  | decode (failure : GoError)
  deriving DecidableEq, Repr

/-- This is the part of `fetchPartition` behind its call. -/
def fetchPartition (answer : Except RpcError FetchResponse) (tp : TP) : Except FetchError (List PolledRecord × Int) :=
  match answer with
  | .error failure => .error (.rpc failure)
  | .ok resp =>
    if resp.records.length = 0 then .ok ([], resp.nextOffset)
    else
      match decode resp.records with
      | (_, some failure) => .error (.decode failure)
      | (decoded, none) => .ok (decoded.map fun record => ⟨record, tp.topic, tp.partitionID⟩, resp.nextOffset)

/-- A partition whose leader is unknown or unreachable is tried again by the next poll. -/
def FetchError.transient : FetchError → Bool
  | .rpc failure => failure.code = some .notLeader || failure = errNoReachableServer || failure.statusUnavailable
  | .decode _ => false

structure PartitionWork where
  tp : TP
  off : Int
  deriving DecidableEq, Repr

/-- The answer to a fetch is missing when the deadline has passed before it. -/
abbrev FetchAnswers := PartitionWork → Option (Except RpcError FetchResponse)

namespace Consumer

def pollWork (c : Consumer) : List PartitionWork :=
  c.soughtPartitions.map fun tp => ⟨tp, (c.fetchOffsets.lookup tp).getD 0⟩

def storeFetched (c : Consumer) (tp : TP) (nextOff : Int) : Consumer :=
  { c with fetchOffsets := c.fetchOffsets.insert tp nextOff }

def pollLoop (answer : FetchAnswers) :
    List PartitionWork → Consumer → List PolledRecord → Consumer × Except FetchError (List PolledRecord)
  | [], c, out => (c, .ok out)
  | pw :: rest, c, out =>
    match answer pw with
    | none => (c, .ok out)
    | some response =>
      match fetchPartition response pw.tp with
      | .ok (recs, nextOff) => pollLoop answer rest (c.storeFetched pw.tp nextOff) (out ++ recs)
      | .error failure => if failure.transient then pollLoop answer rest c out else (c, .error failure)

/-- This is `Poll` behind the wait for the end of a rebalance. -/
def poll (answer : FetchAnswers) (c : Consumer) :
    Consumer × Except FetchError (List PolledRecord) :=
  pollLoop answer c.pollWork c []

/-- The position from which a partition is fetched next. -/
def fetchOffset (c : Consumer) (tp : TP) : Int := (c.fetchOffsets.lookup tp).getD 0

/-- The positions of the sought partitions. -/
def positions (c : Consumer) : KeyMap TP Int :=
  c.soughtPartitions.foldl (fun offsets tp => offsets.insert tp (c.fetchOffset tp)) ∅

def commit (rpcs : Rpcs) (c : Consumer) : Option RpcError :=
  if c.config.groupID = "" then none else c.commitOffsets rpcs c.positions

end Consumer

end BunnyMQ.Client
