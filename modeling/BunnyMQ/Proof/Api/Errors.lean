/-
This file shows which of the Data API's errors tell the client what went wrong.
-/

import BunnyMQ.Construction.Api.Server

namespace BunnyMQ.Api
open Foundation Storage Metadata Cluster BunnyMQ.Partition

/-- A request comes with the answers of the Raft host, or with the course of its long poll and the state of its
context when the coordinator returns. -/
inductive DataRequest where
  | produce (request : ProduceRequest) (host : Proposals)
  | fetch (request : FetchRequest) (waits : List PollWait) (ctxErr : Option ContextError)

namespace DataRequest

def topic : DataRequest → String
  | .produce request _ => request.topic
  | .fetch request _ _ => request.topic

def partitionId : DataRequest → Int
  | .produce request _ => request.partitionId
  | .fetch request _ _ => request.partitionId

def fetchOffset : DataRequest → Option Int
  | .produce _ _ => none
  | .fetch request _ _ => some request.offset

/-- The request passes the checks that come before or after the coordinator. -/
def Admitted : DataRequest → Prop
  | .produce request _ => validateBatch request.batchData = .ok ()
  | .fetch request _ ctxErr => 0 ≤ request.offset ∧ ctxErr = none

end DataRequest

/-- The failure that the client sees. -/
def DataNode.failure (node : DataNode) : DataRequest → Option RpcFailure
  | .produce request host =>
    match node.produce host request with
    | .error failure => some failure
    | .ok _ => none
  | .fetch request waits ctxErr =>
    match node.fetch waits ctxErr request with
    | some (.error failure) => some failure
    | some (.ok _) => none
    | none => none

/-- These are the situations of which the client is to be told. -/
inductive Situation where
  | absent
  | unregistered
  | belowEarliest
  | ledElsewhere
  deriving DecidableEq, Repr

def Situation.code : Situation → ErrorCode
  | .absent => .partitionNotFound
  | .unregistered => .unavailable
  | .belowEarliest => .offsetOutOfRange
  | .ledElsewhere => .notLeader

namespace DataNode

def partition (node : DataNode) (request : DataRequest) : Except LookupError PartitionMeta :=
  node.metadata.getPartition request.topic request.partitionId

/-- The node leads the partition that the metadata holds. -/
def Leads (node : DataNode) (request : DataRequest) : Prop :=
  ∃ pm, node.partition request = .ok pm ∧ pm.leaderNodeID = node.nodeID

def Shows (node : DataNode) (request : DataRequest) : Situation → Prop
  | .absent => node.partition request = .error .notFound
  | .unregistered => node.Leads request ∧ node.registry.lookup ⟨request.topic, request.partitionId⟩ = none
  | .belowEarliest => node.Leads request ∧
      ∃ entry fsm disk offset, node.registry.lookup ⟨request.topic, request.partitionId⟩ = some entry ∧
        node.shards entry.shardID = some (fsm, disk) ∧ request.fetchOffset = some offset ∧
        offset < fsm.storage.earliestOffset
  | .ledElsewhere => ∃ pm, node.partition request = .ok pm ∧ pm.leaderNodeID ≠ node.nodeID

/-- Each situation is reported under its own code and not as an internal error. -/
def ErrorsTruthful (node : DataNode) (request : DataRequest) : Prop :=
  ∀ situation, node.Shows request situation →
    ∃ failure, node.failure request = some failure ∧ failure.code = some situation.code ∧ failure.status ≠ .internal

end DataNode

/-- No layer below the mapping uses the coordinator's own offset errors. -/
def DataError.Unmapped : DataError → Prop
  | .route _ => True
  | .offsetNotFound => False
  | .offsetOutOfRange => False
  | .context _ => True
  | .other _ => True

theorem mapDataError_code {failure : DataError} (unmapped : failure.Unmapped) :
    (mapDataError failure).code = none ∨ (mapDataError failure).code = some .notLeader := by
  cases failure with
  | route failure => cases failure <;> simp [mapDataError, internalError]
  | offsetNotFound => exact unmapped.elim
  | offsetOutOfRange => exact unmapped.elim
  | context failure => exact .inl rfl
  | other failure => exact .inl rfl

theorem lookupResult_unmapped {answer : Except GoError PartitionAnswer} {failure : DataError}
    (failed : lookupResult answer = .error failure) : failure.Unmapped := by
  unfold lookupResult at failed
  split at failed <;> cases failed <;> exact trivial

/-- The polling loop passes errors on and adds its own for the leader and the context. -/
theorem fetchWithLongPoll_unmapped {nodeID : Nat} {address : Nat → String} {rounds : List PollRound}
    {failure : DataError} (failed : fetchWithLongPoll nodeID address rounds = some (.error failure)) :
    failure.Unmapped := by
  induction rounds with
  | nil => exact absurd failed nofun
  | cons round rest ih =>
    unfold fetchWithLongPoll at failed
    split at failed
    · cases failed
    · split at failed
      · cases failed
        exact trivial
      · split at failed
        · cases failed
          exact trivial
        · cases failed
          exact trivial
        · split at failed
          · cases failed
            exact trivial
          · split at failed
            · next read =>
              cases failed
              exact lookupResult_unmapped read
            · split at failed
              · cases failed
              · split at failed
                · exact ih failed
                · cases failed
                · cases failed
                  exact trivial

section
variable {node : DataNode} {topic : String} {partitionID : Int}

theorem fetchBatches_unmapped {waits : List PollWait} {offset maxBytes maxWaitMs : Int} {failure : DataError}
    (failed : node.fetchBatches waits topic partitionID offset maxBytes maxWaitMs = some (.error failure)) :
    failure.Unmapped := by
  unfold DataNode.fetchBatches at failed
  split at failed
  · cases failed
    exact trivial
  · split at failed
    · exact lookupResult_unmapped (Option.some.inj failed)
    · exact fetchWithLongPoll_unmapped failed

theorem produceBatch_unmapped {host : Proposals} {batch : Bytes} {acks : AcksMode} {failure : DataError}
    (failed : node.produceBatch host topic partitionID batch acks = .error failure) : failure.Unmapped := by
  unfold DataNode.produceBatch at failed
  split at failed
  · cases failed
    exact trivial
  · split at failed <;> split at failed <;> cases failed <;> exact trivial

/-- A node that another one leads sends the client there. -/
theorem leaderCheck_elsewhere {pm : PartitionMeta} (found : node.metadata.getPartition topic partitionID = .ok pm)
    (elsewhere : pm.leaderNodeID ≠ node.nodeID) :
    node.leaderCheck topic partitionID = .error (.notLeader pm.leaderNodeID (node.address pm.leaderNodeID)) := by
  unfold DataNode.leaderCheck Cluster.leaderCheck
  rw [found]
  change (checkLeader node.nodeID node.address (.ok (some pm)) >>= fun _ => registeredShard _ _ _) = _
  have refused : checkLeader node.nodeID node.address (.ok (some pm)) =
      .error (.notLeader pm.leaderNodeID (node.address pm.leaderNodeID)) := if_pos elsewhere
  rw [refused]
  rfl

end

section
variable {node : DataNode} {failure : RpcFailure}

/-- The only code of the four that ever reaches a client is the one for another leader, and the client sees it
only when the request is admitted. -/
theorem failure_codes {request : DataRequest} (failed : node.failure request = some failure) :
    failure.code ≠ some .partitionNotFound ∧ failure.code ≠ some .unavailable ∧
      failure.code ≠ some .offsetOutOfRange ∧ (failure.code = some .notLeader → request.Admitted) := by
  cases request with
  | produce request host =>
    simp only [DataNode.failure, DataNode.produce] at failed
    cases checked : validateBatch request.batchData with
    | error refusal =>
      rw [checked] at failed
      obtain rfl := Option.some.inj failed
      cases kind : refusal.code <;> simp [invalidBatch, kind, BunnyErrorCode.detail]
    | ok =>
      rw [checked] at failed
      dsimp only at failed
      cases produced : node.produceBatch host request.topic request.partitionId request.batchData request.acks with
      | ok offset =>
        rw [produced] at failed
        cases failed
      | error inner =>
        rw [produced] at failed
        obtain rfl := Option.some.inj failed
        rcases mapDataError_code (produceBatch_unmapped produced) with code | code <;>
          simp [code, DataRequest.Admitted, checked]
  | fetch request waits ctxErr =>
    simp only [DataNode.failure, DataNode.fetch] at failed
    by_cases negative : request.offset < 0
    · rw [if_pos negative] at failed
      obtain rfl := Option.some.inj failed
      simp
    · rw [if_neg negative] at failed
      cases fetched : node.fetchBatches waits request.topic request.partitionId request.offset
          (fetchMaxBytes request.maxBytes) request.maxWaitMs with
      | none =>
        rw [fetched] at failed
        cases failed
      | some result =>
        cases result with
        | ok found =>
          rw [fetched] at failed
          cases failed
        | error inner =>
          rw [fetched] at failed
          obtain rfl := Option.some.inj failed
          cases ctxErr with
          | some ended => cases ended <;> simp [fromContextError]
          | none =>
            have admitted : (DataRequest.fetch request waits none).Admitted := ⟨not_lt.mp negative, rfl⟩
            rcases mapDataError_code (fetchBatches_unmapped fetched) with code | code <;>
              simp [code, admitted]

/-- An admitted request to a node that does not lead the partition is told of the leader. -/
theorem failure_elsewhere {request : DataRequest} {pm : PartitionMeta} (admitted : request.Admitted)
    (found : node.partition request = .ok pm) (elsewhere : pm.leaderNodeID ≠ node.nodeID) :
    node.failure request =
      some (mapDataError (.route (.notLeader pm.leaderNodeID (node.address pm.leaderNodeID)))) := by
  cases request with
  | produce request host =>
    have routed := leaderCheck_elsewhere found elsewhere
    change validateBatch request.batchData = .ok () at admitted
    simp only [DataNode.failure, DataNode.produce, admitted, DataNode.produceBatch]
    change node.leaderCheck request.topic request.partitionId = _ at routed
    rw [routed]
  | fetch request waits ctxErr =>
    have routed := leaderCheck_elsewhere found elsewhere
    change node.leaderCheck request.topic request.partitionId = _ at routed
    obtain ⟨nonneg, rfl⟩ := admitted
    simp only [DataNode.failure, DataNode.fetch, if_neg (not_lt.mpr nonneg), DataNode.fetchBatches, routed,
      Option.map_some, Option.map_none, Option.getD_none]

end

/-- The errors are truthful exactly when the partition exists, has a registered shard on the node that leads it,
and is not fetched below its earliest offset. A node that does not lead it has to admit the request. -/
theorem errors_truthful_iff (node : DataNode) (request : DataRequest) :
    node.ErrorsTruthful request ↔
      (¬ node.Shows request .absent ∧ ¬ node.Shows request .unregistered ∧ ¬ node.Shows request .belowEarliest) ∧
        (node.Shows request .ledElsewhere → request.Admitted) := by
  constructor
  · intro truthful
    refine ⟨⟨?_, ?_, ?_⟩, ?_⟩
    · intro shown
      obtain ⟨failure, failed, code, _⟩ := truthful .absent shown
      exact (failure_codes failed).1 code
    · intro shown
      obtain ⟨failure, failed, code, _⟩ := truthful .unregistered shown
      exact (failure_codes failed).2.1 code
    · intro shown
      obtain ⟨failure, failed, code, _⟩ := truthful .belowEarliest shown
      exact (failure_codes failed).2.2.1 code
    · intro shown
      obtain ⟨failure, failed, code, _⟩ := truthful .ledElsewhere shown
      exact (failure_codes failed).2.2.2 code
  · intro condition situation shown
    obtain ⟨⟨present, registered, within⟩, admitted⟩ := condition
    cases situation with
    | absent => exact absurd shown present
    | unregistered => exact absurd shown registered
    | belowEarliest => exact absurd shown within
    | ledElsewhere =>
      obtain ⟨pm, found, elsewhere⟩ := shown
      exact ⟨_, failure_elsewhere (admitted ⟨pm, found, elsewhere⟩) found elsewhere, rfl, nofun⟩

/-- A node that knows no topic. -/
def emptyNode : DataNode := ⟨1, fun _ => "", .initial, ∅, fun _ => none⟩

/-- A fetch from a partition that does not exist is answered with an internal error. -/
theorem absent_partition_internal :
    emptyNode.Shows (.fetch ⟨"topic", 0, 0, 0, 0⟩ [] none) .absent ∧
      emptyNode.failure (.fetch ⟨"topic", 0, 0, 0, 0⟩ [] none) = some internalError ∧
      ¬ emptyNode.ErrorsTruthful (.fetch ⟨"topic", 0, 0, 0, 0⟩ [] none) := by
  have shown : emptyNode.Shows (.fetch ⟨"topic", 0, 0, 0, 0⟩ [] none) .absent := by
    change emptyNode.partition _ = _
    decide +kernel
  have failed : emptyNode.failure (.fetch ⟨"topic", 0, 0, 0, 0⟩ [] none) = some internalError := by decide +kernel
  refine ⟨shown, failed, ?_⟩
  intro truthful
  obtain ⟨failure, seen, _, status⟩ := truthful .absent shown
  rw [failed] at seen
  obtain rfl := Option.some.inj seen
  exact status rfl

end BunnyMQ.Api
