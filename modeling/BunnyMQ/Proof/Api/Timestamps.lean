/-
This file says when the offset lookup by timestamp returns the first batch that is not older.
-/

import BunnyMQ.Construction.Api.Server
import BunnyMQ.Proof.Storage.Progress
import BunnyMQ.Proof.Storage.TimeIndex

namespace BunnyMQ.Api
open Foundation FileStore Transition Storage StorageImpl Metadata Cluster BunnyMQ.Partition

/-- The first candidate that is not older than the timestamp. -/
def firstSince (timestampMs : Int64) (candidates : List Bytes) : Except DataError Int :=
  match candidates.find? fun batch => decide (timestampMs ≤ maxTimestampOf batch) with
  | none => .error .offsetNotFound
  | some batch => .ok (baseOffsetOf batch)

/-- A sublist answers like the whole list exactly when it contains the answer. -/
theorem firstSince_sublist_iff {picked batches : List Bytes} (inside : picked.Sublist batches)
    (increasing : (batches.map baseOffsetOf).Pairwise (· < ·)) (timestampMs : Int64) :
    firstSince timestampMs picked = firstSince timestampMs batches ↔
      ∀ batch, (batches.find? fun batch => decide (timestampMs ≤ maxTimestampOf batch)) = some batch →
        baseOffsetOf batch ∈ picked.map baseOffsetOf := by
  have bases : (batches.map baseOffsetOf).Nodup := increasing.imp fun below => below.ne
  have distinct : batches.Nodup := bases.of_map
  constructor
  · intro same batch found
    rw [firstSince, firstSince, found] at same
    cases early : picked.find? fun batch => decide (timestampMs ≤ maxTimestampOf batch) with
    | none =>
      rw [early] at same
      cases same
    | some other =>
      rw [early] at same
      exact (Except.ok.inj same) ▸ List.mem_map_of_mem (List.mem_of_find?_eq_some early)
  · intro contains
    rw [firstSince, firstSince]
    cases found : batches.find? fun batch => decide (timestampMs ≤ maxTimestampOf batch) with
    | none =>
      have missing : (picked.find? fun batch => decide (timestampMs ≤ maxTimestampOf batch)) = none :=
        List.find?_eq_none.mpr fun batch member => List.find?_eq_none.mp found batch (inside.subset member)
      rw [missing]
    | some batch =>
      obtain ⟨other, member, same⟩ := List.mem_map.mp (contains batch found)
      have equal : other = batch :=
        List.inj_on_of_nodup_map bases (inside.subset member) (List.mem_of_find?_eq_some found) same
      rw [Search.find?_of_sublist inside distinct found (equal ▸ member)]

section
variable {cfg : StorageConfig} {node : DataNode} {topic : String} {partitionID : Int} {shardID : Nat}
  {fsm : PartitionFSM} {disk : StorageDisk} {log : PartitionLog}

/-- The coordinator answers with the first batch that has an index entry and is not older. -/
theorem getOffsetByTimestamp_run (indexable : cfg.Indexable) (leads : node.leaderCheck topic partitionID = .ok shardID)
    (runs : node.shards shardID = some (fsm, disk)) (rep : Represents True cfg disk fsm.storage log)
    (seekable : log.Seekable) (ordered : TimeOrdered log.contents) (timestampMs : Int64) :
    node.getOffsetByTimestamp topic partitionID timestampMs = firstSince timestampMs (log.sampledBatches cfg) := by
  have finds := readByTime_run indexable rep seekable ordered timestampMs 512
  have looked : node.lookupPartition shardID (.readByTime timestampMs 512) =
      (fsm.storage.readByTime disk timestampMs 512).map fun found => .batches found.1 found.2 := by
    rw [DataNode.lookupPartition, runs]
    simp only [PartitionFSM.lookup, rep.opened, Bool.false_eq_true, if_false]
  rw [DataNode.getOffsetByTimestamp, leads]
  simp only [looked]
  rw [FindsByTime] at finds
  rw [firstSince]
  cases found : (log.sampledBatches cfg).find? fun batch => decide (timestampMs ≤ maxTimestampOf batch) with
  | none =>
    rw [found] at finds
    simp only [finds, Except.map, if_true]
  | some batch =>
    rw [found] at finds
    obtain ⟨rest, nextOffset, answer⟩ := finds
    have member := (log.sampledBatches_sublist cfg).subset (List.mem_of_find?_eq_some found)
    have long : 38 ≤ batch.length := by
      obtain ⟨seg, listed, inside⟩ := List.mem_flatMap.mp member
      exact ((rep.valid.segment seg listed).stored batch inside).long
    simp only [answer, Except.map]
    have base : baseOffsetOf (batch ++ rest) = baseOffsetOf batch := by
      rw [← baseOffsetOf_take (batch ++ rest) (by omega : 8 ≤ batch.length), List.take_left]
    rw [if_neg (by rw [List.length_append]; omega), base]

end

/-- In every orderly run over batches in the order of their newest records, the lookup is exact for a timestamp
exactly when the first batch that is not older has an entry in a time index. -/
theorem offset_by_timestamp_exact_iff (cfg : StorageConfig) (indexable : cfg.Indexable) (state : Serving)
    (reached : (serving cfg).Reaches Orderly state) (node : DataNode) (topic : String) (partitionID : Int)
    (shardID : Nat) (leads : node.leaderCheck topic partitionID = .ok shardID) (fsm : PartitionFSM)
    (runs : node.shards shardID = some (fsm, state.disk)) (opened : fsm.storage = state.storage)
    (ordered : TimeOrdered (state.storage.segments.flatMap fun seg => seg.batches state.disk)) (timestampMs : Int64) :
    node.getOffsetByTimestamp topic partitionID timestampMs =
        firstSince timestampMs (state.storage.segments.flatMap fun seg => seg.batches state.disk) ↔
      ∀ batch, ((state.storage.segments.flatMap fun seg => seg.batches state.disk).find?
          fun batch => decide (timestampMs ≤ maxTimestampOf batch)) = some batch →
        baseOffsetOf batch ∈ state.storage.timeIndexed := by
  obtain ⟨log, rep, readable⟩ := Serving.holds_of_reaches indexable reached
  have seekable := readable.seekable rep.valid.segment
  obtain ⟨chained, _, growing⟩ := rep.chained readable
  rw [rep.scanned] at ordered ⊢
  rw [timeIndexed_eq indexable rep seekable]
  rw [← opened] at rep
  rw [getOffsetByTimestamp_run indexable leads runs rep seekable ordered]
  exact firstSince_sublist_iff (log.sampledBatches_sublist cfg) (growing.increasing chained) timestampMs

def leadingMetadata : MetadataState :=
  { MetadataState.initial with
    partitions := (∅ : KeyMap PartitionKey PartitionMeta).insert ⟨"topic", 0⟩ ⟨"topic", 0, 7, [1], 1, 1⟩ }

/-- A node that leads its only partition. -/
def leadingNode (state : Serving) : DataNode where
  nodeID := 1
  address _ := ""
  metadata := leadingMetadata
  registry := startPartitionReplica ∅ "topic" 0 7
  shards shardID := if shardID = 7 then some (⟨state.storage, 0⟩, state.disk) else none

theorem leadingNode_leads (state : Serving) : (leadingNode state).leaderCheck "topic" 0 = .ok 7 := by
  change Cluster.leaderCheck 1 (fun _ => "") leadingMetadata (startPartitionReplica ∅ "topic" 0 7) "topic" 0 = .ok 7
  decide +kernel

/-- The second of two batches has the only entry of its segment, and a lookup of its time is exact. -/
theorem offset_by_timestamp_exact_of_indexed :
    (leadingNode pairState).getOffsetByTimestamp "topic" 0 6 = .ok 1 ∧ 1 ∈ pairState.storage.timeIndexed := by
  have ordered : TimeOrdered (pairState.storage.segments.flatMap fun seg => seg.batches pairState.disk) := by
    unfold TimeOrdered
    decide +kernel
  have entry : (1 : Int) ∈ pairState.storage.timeIndexed := by decide +kernel
  have first : ((pairState.storage.segments.flatMap fun seg => seg.batches pairState.disk).find?
      fun batch => decide ((6 : Int64) ≤ maxTimestampOf batch)) = some (patchBaseOffset (stampedBatch 6) 1) := by
    decide +kernel
  have exactly := (offset_by_timestamp_exact_iff pairConfig pairConfig_indexable pairState pairState_reached
    (leadingNode pairState) "topic" 0 7 (leadingNode_leads _) ⟨pairState.storage, 0⟩ rfl rfl ordered 6).mpr (by
      intro batch found
      rw [first] at found
      cases found
      decide +kernel)
  refine ⟨exactly.trans ?_, entry⟩
  rw [firstSince, first]
  decide +kernel

/-- The only batch of a segment has no entry, whatever the sampling is. -/
def lonelyState : Serving :=
  (follow (Serving.step smallConfig) freshServing [.append (stampedBatch 5)]).get (by decide +kernel)

/-- The lookup of an older time reports no batch, although the log holds one that is not older. -/
theorem offset_by_timestamp_misses_batch :
    (serving smallConfig).Reaches Orderly lonelyState ∧
      (lonelyState.storage.segments.flatMap fun seg => seg.batches lonelyState.disk) =
        [patchBaseOffset (stampedBatch 5) 0] ∧
      maxTimestampOf (patchBaseOffset (stampedBatch 5) 0) = 5 ∧
      (leadingNode lonelyState).getOffsetByTimestamp "topic" 0 3 = .error .offsetNotFound := by
  have followed : follow (Serving.step smallConfig) freshServing [.append (stampedBatch 5)] = some lonelyState :=
    (Option.some_get _).symm
  have encoded : ∀ event ∈ [ServingEvent.append (stampedBatch 5)], Encoded event :=
    List.forall_mem_singleton.mpr (stampedBatch_encoded 5)
  have reached := System.Reaches.follow (serving_steps encoded) (.start freshServing_start)
    (by decide +kernel : permits _ Orderly _ _) followed
  refine ⟨reached, by decide +kernel, by decide +kernel, ?_⟩
  rw [DataNode.getOffsetByTimestamp, leadingNode_leads]
  decide +kernel

end BunnyMQ.Api
