/-
This file models the producer of the client library.
-/

import BunnyMQ.Construction.Api.Server
import BunnyMQ.Construction.Client.Consumer

namespace BunnyMQ.Client
open Foundation Storage BunnyMQ.Api

structure TopicMeta where
  partitionCount : Int
  leaders : KeyMap Int String
  fetchedAt : Int
  deriving DecidableEq

structure MetaCache where
  cache : KeyMap String TopicMeta
  ttl : Int
  deriving DecidableEq

namespace MetaCache

def get (mc : MetaCache) (now : Int) (topic : String) : Option TopicMeta :=
  (mc.cache.lookup topic).filter fun held => now - held.fetchedAt ≤ mc.ttl

def put (mc : MetaCache) (topic : String) (held : TopicMeta) : MetaCache :=
  { mc with cache := mc.cache.insert topic held }

/-- A topic without an entry stays without one. -/
def setLeader (mc : MetaCache) (topic : String) (partitionID : Int) (addr : String) : MetaCache :=
  match mc.cache.lookup topic with
  | none => mc
  | some held => mc.put topic { held with leaders := held.leaders.insert partitionID addr }

def invalidate (mc : MetaCache) (topic : String) : MetaCache := { mc with cache := mc.cache.erase topic }

end MetaCache

/-- The answers of a server to `DescribeTopic` and `DescribeCluster`, with the time of their arrival. -/
structure TopicDescription where
  topicPartitionCount : Option Int
  partitions : List (Int × Nat)
  nodes : List (Nat × String)
  fetchedAt : Int
  deriving DecidableEq, Repr

/-- A partition whose leader has no address gets no leader. -/
def TopicDescription.toMeta (described : TopicDescription) : TopicMeta :=
  let nodeAddrs : KeyMap Nat String := described.nodes.foldl (fun addrs node => addrs.insert node.1 node.2) ∅
  { partitionCount := (described.topicPartitionCount.filter (0 < ·)).getD (int32 described.partitions.length)
    leaders := described.partitions.foldl (fun leaders part =>
      match nodeAddrs.lookup part.2 with
      | none => leaders
      | some addr => leaders.insert part.1 addr) ∅
    fetchedAt := described.fetchedAt }

/-- The producer distinguishes these codes of an error detail. -/
inductive SendCode where
  | notLeader
  | unavailable
  | timeout
  | other
  deriving DecidableEq, Repr

structure ProduceError where
  code : Option SendCode
  leaderAddress : String
  statusUnavailable : Bool
  text : String
  deriving DecidableEq, Repr

inductive SendError where
  | noReachableServer
  | noLeader (topic : String) (partID : Int)
  | dial (text : String)
  | encode (failure : GoError)
  | rpc (failure : ProduceError)
  deriving DecidableEq, Repr

def sendCode : ErrorCode → SendCode
  | .notLeader => .notLeader
  | .unavailable => .unavailable
  | .partitionNotFound | .offsetOutOfRange | .batchTooLarge | .invalidMessageFormat | .offsetNotFound => .other

/-- No status of the Data API is `Unavailable`. -/
def extractErr (failure : RpcFailure) : ProduceError :=
  ⟨failure.code.map sendCode, (failure.leader.map NotLeaderDetail.leaderAddress).getD "", false, failure.message⟩

/-- A call does not reach a node, or a node serves it and its answer arrives or is lost. -/
inductive Delivery where
  | refused (statusUnavailable : Bool) (text : String)
  | answered (node : DataNode) (host : Proposals)
  | lost (node : DataNode) (host : Proposals) (statusUnavailable : Bool) (text : String)

def Delivery.answer (request : ProduceRequest) : Delivery → Except ProduceError Int
  | .refused statusUnavailable text => .error ⟨none, "", statusUnavailable, text⟩
  | .answered node host =>
    match node.produce host request with
    | .ok resp => .ok resp.offset
    | .error failure => .error (extractErr failure)
  | .lost _ _ statusUnavailable text => .error ⟨none, "", statusUnavailable, text⟩

/-- What an attempt to send meets. An attempt refreshes its metadata at most twice, and a server that fails one of the
two calls of a refresh has no description. -/
structure SendRound where
  now : Int
  describe : Nat → String → Option TopicDescription
  dial : String → Option String
  deliver : String → Delivery

structure ProducerConfig where
  bootstrapServers : List String
  maxRetries : Int
  metadataCacheTTL : Int
  deriving DecidableEq, Repr

structure Producer where
  maxRetries : Int
  metaCache : MetaCache
  roundRobinCounter : Int
  knownAddrs : List String
  deriving DecidableEq

def newProducer (config : ProducerConfig) : Except String Producer :=
  if config.bootstrapServers.length = 0 then .error "client: BootstrapServers must not be empty"
  else .ok {
    maxRetries := if config.maxRetries = 0 then 3 else config.maxRetries
    metaCache := ⟨∅, orDefault config.metadataCacheTTL (60 * 10 ^ 9)⟩
    roundRobinCounter := 0
    knownAddrs := config.bootstrapServers }

/-- This is the hash function FNV-1a. -/
def hashKey (key : Bytes) : UInt32 :=
  key.foldl (fun hash byte => (hash ^^^ byte.toUInt32) * 16777619) 2166136261

/-- A keyless record takes the next number of the counter. A division by zero panics. -/
def selectPartition (key : Bytes) (partitionCount counter : Int) : Option Int × Int :=
  if key.length = 0 then
    let next := int64 (counter + 1)
    (if partitionCount = 0 then none else some (int32 ((int64 (next - 1)).tmod partitionCount)), next)
  else (if partitionCount = 0 then none else some (int32 ((hashKey key).toNat % (partitionCount % 2 ^ 32))), counter)

/-- The call returns or goes round its loop again, if there is an attempt left. -/
inductive RoundEnd where
  | done (result : Except SendError Int)
  | again (failure : SendError)

/-- The loop with the calls that it has made. -/
structure Sent where
  result : Except SendError Int
  producer : Producer
  calls : List Delivery

namespace Producer

def refreshMeta (p : Producer) (describe : String → Option TopicDescription) (topic : String) :
    Except SendError TopicMeta × Producer :=
  match p.knownAddrs.findSome? describe with
  | none => (.error .noReachableServer, p)
  | some described => (.ok described.toMeta, { p with metaCache := p.metaCache.put topic described.toMeta })

def metaFor (p : Producer) (now : Int) (describe : String → Option TopicDescription) (topic : String) :
    Except SendError TopicMeta × Producer :=
  match p.metaCache.get now topic with
  | some held => (.ok held, p)
  | none => p.refreshMeta describe topic

/-- The leader is unknown without an address. -/
def knownLeader (held : TopicMeta) (partID : Int) : Option String := (held.leaders.lookup partID).filter (· ≠ "")

def leaderFor (p : Producer) (round : SendRound) (topic : String) (partID : Int) :
    Except SendError String × Producer :=
  match p.metaFor round.now (round.describe 0) topic with
  | (.error failure, p) => (.error failure, p)
  | (.ok held, p) =>
    match knownLeader held partID with
    | some addr => (.ok addr, p)
    | none =>
      match p.refreshMeta (round.describe 1) topic with
      | (.error failure, p) => (.error failure, p)
      | (.ok held, p) =>
        match knownLeader held partID with
        | some addr => (.ok addr, p)
        | none => (.error (.noLeader topic partID), p)

/-- What follows from the answer to a call. -/
def handle (p : Producer) (request : ProduceRequest) : Except ProduceError Int → RoundEnd × Producer
  | .ok offset => (.done (.ok offset), p)
  | .error failure =>
    match failure.code with
    | none =>
      if failure.statusUnavailable then
        (.again (.rpc failure), { p with metaCache := p.metaCache.invalidate request.topic })
      else (.done (.error (.rpc failure)), p)
    | some .notLeader =>
      (.again (.rpc failure),
        if failure.leaderAddress ≠ "" then
          { p with metaCache := p.metaCache.setLeader request.topic request.partitionId failure.leaderAddress }
        else p)
    | some .unavailable => (.again (.rpc failure), p)
    | some .timeout => (.again (.rpc failure), p)
    | some .other => (.done (.error (.rpc failure)), p)

/-- One pass of the loop of `sendToPartition`. -/
def sendRound (p : Producer) (request : ProduceRequest) (round : SendRound) : RoundEnd × Producer × List Delivery :=
  match p.leaderFor round request.topic request.partitionId with
  | (.error .noReachableServer, p) => (.again .noReachableServer, p, [])
  | (.error failure, p) => (.done (.error failure), p, [])
  | (.ok addr, p) =>
    match round.dial addr with
    | some text => (.again (.dial text), p, [])
    | none =>
      let delivery := round.deliver addr
      let (ended, p) := p.handle request (delivery.answer request)
      (ended, p, [delivery])

/-- The loop with the number of its attempt and the number of those behind it. -/
def sendLoop (request : ProduceRequest) (rounds : Nat → SendRound) : (attempt left : Nat) → Producer → Sent
  | attempt, left, p =>
    match p.sendRound request (rounds attempt), left with
    | (.done result, p, calls), _ => ⟨result, p, calls⟩
    | (.again failure, p, calls), 0 => ⟨.error failure, p, calls⟩
    | (.again _, p, calls), left + 1 =>
      let rest := sendLoop request rounds (attempt + 1) left p
      { rest with calls := calls ++ rest.calls }

def sendToPartition (p : Producer) (rounds : Nat → SendRound) (topic : String) (partID : Int) (batchData : Bytes)
    (acks : AcksMode) : Sent :=
  sendLoop ⟨topic, partID, batchData, acks⟩ rounds 0 p.maxRetries.toNat p

def sendBatch (p : Producer) (rounds : Nat → SendRound) (topic : String) (partitionID : Int) (batchData : Bytes)
    (acks : AcksMode) : Sent :=
  p.sendToPartition rounds topic partitionID batchData acks

/-- The headers come in the order in which their map is visited. -/
def encode (key : Option Bytes) (value : Bytes) (headers : List (String × Bytes)) (timestampMs : Int64) :
    Except GoError Bytes :=
  encodeBatch [⟨timestampMs, key, value, headers.map fun header => ⟨header.1.toUTF8.toList, header.2⟩⟩]

/-- The call panics for a topic without partitions. -/
def send (p : Producer) (now : Int) (describe : String → Option TopicDescription) (rounds : Nat → SendRound)
    (timestampMs : Int64) (topic : String) (key : Option Bytes) (value : Bytes) (headers : List (String × Bytes))
    (acks : AcksMode) : Option Sent :=
  match p.metaFor now describe topic with
  | (.error failure, p) => some ⟨.error failure, p, []⟩
  | (.ok held, p) =>
    match selectPartition (key.getD []) held.partitionCount p.roundRobinCounter with
    | (none, _) => none
    | (some partID, counter) =>
      let p := { p with roundRobinCounter := counter }
      match encode key value headers timestampMs with
      | .error failure => some ⟨.error (.encode failure), p, []⟩
      | .ok batchData => some (p.sendToPartition rounds topic partID batchData acks)

end Producer

end BunnyMQ.Client
