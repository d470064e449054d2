/-
This file shows which shards a reconciliation stops.
-/

import BunnyMQ.Construction.Cluster.ClusterCoordinator
import BunnyMQ.Proof.Metadata.Structure

namespace BunnyMQ.Cluster
open Foundation Metadata
variable {topics : List TopicMeta} {shardID : Nat} {info : ShardInfo}

/-- The partitions of the topics whose lookup succeeds. -/
def returned (getPartitions : String → Except LookupError (List PartitionMeta)) (topics : List TopicMeta) :
    List PartitionMeta :=
  topics.flatMap fun tm => (getPartitions tm.name).toOption.getD []

/-- These partitions have a replica on this node. -/
def replicated (config : CoordinatorConfig) (partitions : List PartitionMeta) : List PartitionMeta :=
  partitions.filter fun pm => config.nodeID ∈ pm.replicaNodeIDs

section
variable {config : CoordinatorConfig} {getPartitions : String → Except LookupError (List PartitionMeta)}

theorem expectPartitions_eq (config : CoordinatorConfig) (expected : KeyMap Nat ShardInfo)
    (partitions : List PartitionMeta) :
    expectPartitions config expected partitions = (replicated config partitions).foldl
      (fun expected pm => expected.insert pm.shardID (shardInfo config pm)) expected := by
  simp only [expectPartitions, replicated, List.foldl_filter, decide_eq_true_eq]

/-- The expected shards are those of the returned partitions with a replica on this node. -/
theorem expectTopics_eq (config : CoordinatorConfig) (getPartitions : String → Except LookupError (List PartitionMeta))
    (topics : List TopicMeta) :
    expectTopics config getPartitions topics = expectPartitions config ∅ (returned getPartitions topics) := by
  unfold expectTopics
  generalize (∅ : KeyMap Nat ShardInfo) = expected
  induction topics generalizing expected with
  | nil => rfl
  | cons tm topics ih =>
    have split : returned getPartitions (tm :: topics) =
        (getPartitions tm.name).toOption.getD [] ++ returned getPartitions topics := List.flatMap_cons
    rw [List.foldl_cons, ih, split, expectPartitions, expectPartitions, List.foldl_append]
    cases getPartitions tm.name with
    | error failure => rfl
    | ok partitions => rfl

theorem expectTopics_lookup (found : (expectTopics config getPartitions topics).lookup shardID = some info) :
    ∃ pm ∈ replicated config (returned getPartitions topics), pm.shardID = shardID ∧ shardInfo config pm = info := by
  rw [expectTopics_eq, expectPartitions_eq] at found
  rcases KeyMap.lookup_insertAll_cases PartitionMeta.shardID (shardInfo config) found with stored | before
  · exact stored
  · cases before

theorem mem_expectTopics :
    shardID ∈ expectTopics config getPartitions topics ↔
      ∃ pm ∈ replicated config (returned getPartitions topics), pm.shardID = shardID := by
  rw [expectTopics_eq, expectPartitions_eq, KeyMap.mem_insertAll PartitionMeta.shardID (shardInfo config)]
  exact or_iff_left Finmap.notMem_empty

theorem mem_missingFrom {shards others : KeyMap Nat ShardInfo} :
    (shardID, info) ∈ missingFrom shards others ↔ shards.lookup shardID = some info ∧ shardID ∉ others := by
  simp only [missingFrom, List.mem_filterMap, List.mem_filter, decide_eq_true_eq, Option.map_eq_some_iff]
  constructor
  · rintro ⟨key, ⟨_, absent⟩, found, stored, same⟩
    cases same
    exact ⟨stored, absent⟩
  · rintro ⟨stored, absent⟩
    exact ⟨shardID, ⟨KeyMap.mem_sortedKeys.mpr (Finmap.mem_of_lookup_eq_some stored), absent⟩, info, stored, rfl⟩

end

/-- The lookups see this state, except for those that fail. -/
def readsWith (state : MetadataState) (listFailure : Option LookupError) (failures : String → Option LookupError) :
    ClusterReads where
  listTopics := match listFailure with
    | some failure => .error failure
    | none => .ok state.listTopics
  getPartitions topic := match failures topic with
    | some failure => .error failure
    | none => state.getPartitions topic

/-- The metadata has this shard with a replica on this node. -/
def Wanted (config : CoordinatorConfig) (state : MetadataState) (shardID : Nat) : Prop :=
  ∃ key pm, state.partitions.lookup key = some pm ∧ pm.shardID = shardID ∧ config.nodeID ∈ pm.replicaNodeIDs

/-- The reconciliation asked for the partitions of this topic and got an error. -/
def LookupFailed (reads : ClusterReads) (topic : String) : Prop :=
  ∃ topics, reads.listTopics = .ok topics ∧ topic ∈ topics.map TopicMeta.name ∧
    ∃ failure, reads.getPartitions topic = .error failure

/-- A successful lookup returned this shard with a replica on this node. -/
def Returned (config : CoordinatorConfig) (reads : ClusterReads) (shardID : Nat) : Prop :=
  ∃ topics, reads.listTopics = .ok topics ∧ ∃ tm ∈ topics, ∃ partitions, reads.getPartitions tm.name = .ok partitions ∧
    ∃ pm ∈ partitions, pm.shardID = shardID ∧ config.nodeID ∈ pm.replicaNodeIDs

section
variable {config : CoordinatorConfig} {reads : ClusterReads} {runningShards : KeyMap Nat ShardInfo}

theorem returned_iff (listed : reads.listTopics = .ok topics) (shardID : Nat) :
    Returned config reads shardID ↔ shardID ∈ expectTopics config reads.getPartitions topics := by
  rw [mem_expectTopics]
  unfold Returned
  simp only [listed, Except.ok.injEq, exists_eq_left', replicated, returned, List.mem_filter, List.mem_flatMap,
    decide_eq_true_eq]
  constructor
  · rintro ⟨tm, member, partitions, found, pm, inside, same, replica⟩
    refine ⟨pm, ⟨⟨tm, member, ?_⟩, replica⟩, same⟩
    rw [found]
    exact inside
  · rintro ⟨pm, ⟨⟨tm, member, inside⟩, replica⟩, same⟩
    cases found : reads.getPartitions tm.name with
    | error failure =>
      rw [found] at inside
      cases inside
    | ok partitions =>
      rw [found] at inside
      exact ⟨tm, member, partitions, found, pm, inside, same, replica⟩

/-- A reconciliation stops the running shards that no successful lookup has returned. -/
theorem mem_stops :
    (shardID, info) ∈ (reconcileOnce config reads runningShards).stops ↔
      (∃ topics, reads.listTopics = .ok topics) ∧ runningShards.lookup shardID = some info ∧
        ¬ Returned config reads shardID := by
  unfold reconcileOnce
  cases listed : reads.listTopics with
  | error failure => simp
  | ok topics => simp only [mem_missingFrom, returned_iff listed, Except.ok.injEq, exists_eq', true_and]

theorem mem_starts :
    (shardID, info) ∈ (reconcileOnce config reads runningShards).starts ↔
      ∃ topics, reads.listTopics = .ok topics ∧
        (expectTopics config reads.getPartitions topics).lookup shardID = some info ∧ shardID ∉ runningShards := by
  unfold reconcileOnce
  cases listed : reads.listTopics with
  | error failure => simp
  | ok topics => simp only [mem_missingFrom, Except.ok.injEq, exists_eq_left']

end

/-- A reconciliation stops only unwanted shards, and none of a topic whose lookup fails, exactly when every running
shard of the other kinds was returned by a successful lookup. -/
theorem reconcile_stops_unwanted_iff (config : CoordinatorConfig) (state : MetadataState)
    (runningShards : KeyMap Nat ShardInfo) (listFailure : Option LookupError) (failures : String → Option LookupError) :
    (∀ shardID info, (shardID, info) ∈
      (reconcileOnce config (readsWith state listFailure failures) runningShards).stops →
      ¬ Wanted config state shardID ∧ ¬ LookupFailed (readsWith state listFailure failures) info.topic) ↔
    (listFailure = none → ∀ shardID info, runningShards.lookup shardID = some info →
      Wanted config state shardID ∨ LookupFailed (readsWith state listFailure failures) info.topic →
      Returned config (readsWith state listFailure failures) shardID) := by
  have listed : (∃ topics, (readsWith state listFailure failures).listTopics = .ok topics) ↔ listFailure = none := by
    cases listFailure with
    | none => simp [readsWith]
    | some failure => simp [readsWith]
  simp only [mem_stops, listed]
  constructor
  · intro unwanted succeeded shardID info running reason
    by_contra missing
    obtain ⟨notWanted, notFailed⟩ := unwanted shardID info ⟨succeeded, running, missing⟩
    exact reason.elim notWanted notFailed
  · rintro returned shardID info ⟨succeeded, running, missing⟩
    refine ⟨?_, ?_⟩
    · intro wanted
      exact missing (returned succeeded shardID info running (.inl wanted))
    · intro failed
      exact missing (returned succeeded shardID info running (.inr failed))

/-- A topic with one partition on the first node. -/
def auditState : MetadataState := (MetadataState.initial.update (.createTopic ⟨"audit", 1, 1, 0, 0, 0, [[1]]⟩)).1

def firstNode : CoordinatorConfig := ⟨1, ["data"], (∅ : KeyMap Nat String).insert 1 "node-1:7000"⟩

def auditShard : ShardInfo := ⟨"audit", 0, 1, (∅ : KeyMap Nat String).insert 1 "node-1:7000"⟩

/-- A failed lookup of its topic stops a shard that is still wanted. -/
theorem failed_lookup_stops_wanted_shard :
    (reconcileOnce firstNode (readsWith auditState none fun _ => some (.failed "timeout"))
      ((∅ : KeyMap Nat ShardInfo).insert 1 auditShard)).stops = [(1, auditShard)] ∧
    (reconcileOnce firstNode (readsWith auditState none fun _ => none)
      ((∅ : KeyMap Nat ShardInfo).insert 1 auditShard)).stops = [] ∧
    Wanted firstNode auditState 1 ∧
    LookupFailed (readsWith auditState none fun _ => some (.failed "timeout")) auditShard.topic := by
  refine ⟨by decide +kernel, by decide +kernel, ?_, ?_⟩
  · exact ⟨⟨"audit", 0⟩, ⟨"audit", 0, 1, [1], 0, 0⟩, by decide +kernel, rfl, by decide⟩
  · exact ⟨auditState.listTopics, rfl, by decide +kernel, .failed "timeout", rfl⟩

end BunnyMQ.Cluster
