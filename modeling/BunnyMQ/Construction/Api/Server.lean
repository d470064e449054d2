/-
This file models the Produce and Fetch requests and the offset lookup by timestamp from the Data API down to the shard.
-/

import BunnyMQ.Construction.Api.Validate
import BunnyMQ.Construction.Cluster.DataCoordinator
import BunnyMQ.Construction.Partition.PartitionFSM

namespace BunnyMQ.Api
open Foundation Storage Metadata Cluster BunnyMQ.Partition

inductive ContextError where
  | canceled
  | deadlineExceeded
  deriving DecidableEq, Repr

/-- The storage and the Raft host have their own errors. The storage's range error is not the coordinator's. -/
inductive DataError where
  | route (failure : RouteError)
  | offsetNotFound
  | offsetOutOfRange
  | context (failure : ContextError)
  | other (failure : GoError)
  deriving DecidableEq, Repr

/-- These are the codes in the details of a status. -/
inductive ErrorCode where
  | partitionNotFound
  | notLeader
  | offsetOutOfRange
  | batchTooLarge
  | unavailable
  | invalidMessageFormat
  | offsetNotFound
  deriving DecidableEq, Repr

inductive StatusCode where
  | canceled
  | invalidArgument
  | deadlineExceeded
  | notFound
  | failedPrecondition
  | outOfRange
  | internal
  deriving DecidableEq, Repr

structure NotLeaderDetail where
  leaderNodeId : Nat
  leaderAddress : String
  deriving DecidableEq, Repr

/-- The detail of an error repeats the message of its status. -/
structure RpcFailure where
  status : StatusCode
  message : String
  code : Option ErrorCode
  leader : Option NotLeaderDetail
  deriving DecidableEq, Repr

def BunnyErrorCode.detail : BunnyErrorCode → ErrorCode
  | .invalidMessageFormat => .invalidMessageFormat
  | .batchTooLarge => .batchTooLarge

def invalidBatch (failure : BunnyError) : RpcFailure :=
  ⟨.invalidArgument, failure.message, some failure.code.detail, none⟩

def fromContextError : ContextError → RpcFailure
  | .canceled => ⟨.canceled, "context canceled", none, none⟩
  | .deadlineExceeded => ⟨.deadlineExceeded, "context deadline exceeded", none, none⟩

def internalError : RpcFailure := ⟨.internal, "internal server error", none, none⟩

def mapDataError : DataError → RpcFailure
  | .route (.notLeader leaderNodeID leaderAddress) =>
    ⟨.failedPrecondition, s!"not leader: leader is node {leaderNodeID} at {leaderAddress}", some .notLeader,
      some ⟨leaderNodeID, leaderAddress⟩⟩
  | .route .unavailable => internalError
  | .route .partitionNotFound => internalError
  | .offsetOutOfRange => ⟨.outOfRange, "offset out of range", some .offsetOutOfRange, none⟩
  | .offsetNotFound => ⟨.notFound, "offset not found", some .offsetNotFound, none⟩
  | .context _ => internalError
  | .other _ => internalError

inductive AcksMode where
  | all
  | zero
  deriving DecidableEq, Repr

structure ProduceRequest where
  topic : String
  partitionId : Int
  batchData : Bytes
  acks : AcksMode
  deriving DecidableEq, Repr

structure ProduceResponse where
  partitionId : Int
  offset : Int
  deriving DecidableEq, Repr

structure FetchRequest where
  topic : String
  partitionId : Int
  offset : Int
  maxBytes : Int
  maxWaitMs : Int
  deriving DecidableEq, Repr

structure FetchResponse where
  records : Bytes
  nextOffset : Int
  deriving DecidableEq, Repr

/-- A node holds a replica of the metadata, its registry and the shards that its Raft host runs. -/
structure DataNode where
  nodeID : Nat
  address : Nat → String
  metadata : MetadataState
  registry : ShardRegistry
  shards : Nat → Option (PartitionFSM × StorageDisk)

/-- These are the answers of the Raft host to a proposal. -/
structure Proposals where
  syncPropose : Nat → Bytes → Except GoError Nat
  propose : Nat → Bytes → Except GoError Unit

/-- What the wait of a long poll ends with. -/
inductive Wake where
  | newData
  | timeout
  | done (failure : ContextError)
  deriving DecidableEq, Repr

/-- One pass of the polling loop sees whether the deadline has passed and how its wait ends. -/
structure PollWait where
  expired : Bool
  wake : Wake
  deriving DecidableEq, Repr

/-- One pass of the polling loop with the answers that it gets. -/
structure PollRound extends PollWait where
  channel : Except GoError PartitionAnswer
  partition : Except LookupError (Option PartitionMeta)
  read : Except GoError PartitionAnswer

def errInterfaceConversion : GoError := .panic "interface conversion"

/-- The answer to a read query is asserted to hold batches. -/
def lookupResult : Except GoError PartitionAnswer → Except DataError (Bytes × Int)
  | .error failure => .error (.other failure)
  | .ok (.batches batches nextOffset) => .ok (batches, nextOffset)
  | .ok (.offset _) => .error (.other errInterfaceConversion)
  | .ok .newDataCh => .error (.other errInterfaceConversion)

/-- The call has not returned when its passes end without a result. An absent partition counts as unavailable. -/
def fetchWithLongPoll (nodeID : Nat) (address : Nat → String) :
    List PollRound → Option (Except DataError (Bytes × Int))
  | [] => none
  | round :: rest =>
    if round.expired then some (.ok ([], 0))
    else match round.channel with
      | .error failure => some (.error (.other failure))
      | .ok _ =>
        match round.partition with
        | .error _ => some (.error (.route .unavailable))
        | .ok none => some (.error (.route .unavailable))
        | .ok (some pm) =>
          if pm.leaderNodeID ≠ nodeID then
            some (.error (.route (.notLeader pm.leaderNodeID (address pm.leaderNodeID))))
          else match lookupResult round.read with
            | .error failure => some (.error failure)
            | .ok (batches, nextOffset) =>
              if batches.length > 0 then some (.ok (batches, nextOffset))
              else match round.wake with
                | .newData => fetchWithLongPoll nodeID address rest
                | .timeout => some (.ok ([], 0))
                | .done failure => some (.error (.context failure))

def defaultFetchMaxBytes : Int := 1024 * 1024

def fetchMaxBytes (maxBytes : Int) : Int := if maxBytes ≤ 0 then defaultFetchMaxBytes else maxBytes

namespace DataNode

def lookupPartition (node : DataNode) (shardID : Nat) (query : PartitionQuery) : Except GoError PartitionAnswer :=
  match node.shards shardID with
  | none => .error (.error "shard not found")
  | some (fsm, disk) => fsm.lookup disk query

def leaderCheck (node : DataNode) (topic : String) (partitionID : Int) : Except RouteError Nat :=
  Cluster.leaderCheck node.nodeID node.address node.metadata node.registry topic partitionID

/-- This is the coordinator's part of a produce request. -/
def produceBatch (node : DataNode) (host : Proposals) (topic : String) (partitionID : Int) (batch : Bytes)
    (acks : AcksMode) : Except DataError Int :=
  match node.leaderCheck topic partitionID with
  | .error failure => .error (.route failure)
  | .ok shardID =>
    match acks with
    | .all =>
      match host.syncPropose shardID (cmdAppendBatch :: batch) with
      | .error failure => .error (.other failure)
      | .ok value => .ok (int64 value)
    | .zero =>
      match host.propose shardID (cmdAppendBatch :: batch) with
      | .error failure => .error (.other failure)
      | .ok () => .ok (-1)

/-- This is a pass of the polling loop while the node stays as it is. -/
def pollRound (node : DataNode) (topic : String) (partitionID : Int) (shardID : Nat) (offset maxBytes : Int)
    (wait : PollWait) : PollRound where
  toPollWait := wait
  channel := node.lookupPartition shardID .getNewDataCh
  partition := (node.metadata.getPartition topic partitionID).map some
  read := node.lookupPartition shardID (.read offset maxBytes)

/-- This is the coordinator's part of a fetch request. -/
def fetchBatches (node : DataNode) (waits : List PollWait) (topic : String)
    (partitionID offset maxBytes maxWaitMs : Int) :
    Option (Except DataError (Bytes × Int)) :=
  match node.leaderCheck topic partitionID with
  | .error failure => some (.error (.route failure))
  | .ok shardID =>
    if maxWaitMs = 0 then some (lookupResult (node.lookupPartition shardID (.read offset maxBytes)))
    else fetchWithLongPoll node.nodeID node.address
      (waits.map (node.pollRound topic partitionID shardID offset maxBytes))

/-- This is the coordinator's part of an offset request for a timestamp. The answer is the base offset of the first
batch that the read returns. -/
def getOffsetByTimestamp (node : DataNode) (topic : String) (partitionID : Int) (timestampMs : Int64) :
    Except DataError Int :=
  match node.leaderCheck topic partitionID with
  | .error failure => .error (.route failure)
  | .ok shardID =>
    match node.lookupPartition shardID (.readByTime timestampMs 512) with
    | .error failure => if failure = errTimestampNotFound then .error .offsetNotFound else .error (.other failure)
    | .ok (.batches batches _) => if batches.length < 8 then .error .offsetNotFound else .ok (baseOffsetOf batches)
    | .ok (.offset _) => .error (.other errInterfaceConversion)
    | .ok .newDataCh => .error (.other errInterfaceConversion)

/-- The batch is checked before the partition. -/
def produce (node : DataNode) (host : Proposals) (request : ProduceRequest) : Except RpcFailure ProduceResponse :=
  match validateBatch request.batchData with
  | .error failure => .error (invalidBatch failure)
  | .ok () =>
    match node.produceBatch host request.topic request.partitionId request.batchData request.acks with
    | .error failure => .error (mapDataError failure)
    | .ok offset => .ok ⟨request.partitionId, offset⟩

/-- An ended context takes the place of any other error. -/
def fetch (node : DataNode) (waits : List PollWait) (ctxErr : Option ContextError) (request : FetchRequest) :
    Option (Except RpcFailure FetchResponse) :=
  if request.offset < 0 then some (.error ⟨.invalidArgument, "offset must be >= 0", none, none⟩)
  else (node.fetchBatches waits request.topic request.partitionId request.offset (fetchMaxBytes request.maxBytes)
      request.maxWaitMs).map fun
    | .error failure => .error ((ctxErr.map fromContextError).getD (mapDataError failure))
    | .ok (records, nextOffset) =>
      .ok ⟨records, if records = [] then request.offset else nextOffset⟩

end DataNode

end BunnyMQ.Api
