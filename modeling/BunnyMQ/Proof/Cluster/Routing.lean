/-
This file shows when requests are routed to the shard that the metadata names.
-/

import BunnyMQ.Proof.Cluster.Registry

namespace BunnyMQ.Cluster
open Foundation Metadata Transition ClusterRun

/-- The metadata has no other shard under this key. -/
def Fits (state : MetadataState) (key : PartitionKey) (shardID : Nat) : Prop :=
  ∀ pm ∈ state.partitions.lookup key, pm.shardID = shardID

instance (state : MetadataState) (key : PartitionKey) (shardID : Nat) : Decidable (Fits state key shardID) :=
  inferInstanceAs (Decidable (∀ _ ∈ _, _))

/-- A partition is created only under a free key of the registry, a shard is registered only under a key that
the metadata has not given to another one, and a request finds its partition as it was at its lookup. -/
def Current (run : ClusterRun) : ClusterEvent → Prop
  | .command command => Bounded run.history command ∧ ∀ key ∈ run.node.registry.keys,
      run.history.current.partitions.lookup key = none →
        (run.history.current.update command).1.partitions.lookup key = none
  | .work (.startShard shardID info .register) _ => Fits run.history.current info.key shardID
  | .route check =>
    (run.history.current.partitions.lookup check.key).map PartitionMeta.shardID = some check.pm.shardID
  | _ => True

instance (run : ClusterRun) : (event : ClusterEvent) → Decidable (Current run event)
  | .command _ => inferInstanceAs (Decidable (_ ∧ _))
  | .work (.startShard _ _ .register) _ => inferInstanceAs (Decidable (Fits _ _ _))
  | .route _ => inferInstanceAs (Decidable (_ = _))
  | .work (.startShard _ _ .launch) _ | .work (.startShard _ _ .record) _ | .work (.stopShard _ _ _) _
  | .reconcile _ _ | .lookup _ _ _ => .isTrue trivial

/-- Every entry of the registry names the shard of its partition, and so does every answer. -/
structure Routed (run : ClusterRun) : Prop where
  recorded : Recorded run.history
  entries : ∀ key entry, run.node.registry.lookup key = some entry → Fits run.history.current key entry.shardID
  answers : ∀ check shardID, (check, shardID) ∈ run.answers → shardID = check.pm.shardID

section
variable {config : CoordinatorConfig} {run next : ClusterRun}

theorem Routed.start : Routed ClusterRun.start := by
  refine ⟨Recorded.start, ?_, ?_⟩
  · intro key entry found
    cases found
  · intro check shardID member
    cases member

theorem Routed.command (routed : Routed run) {command : MetadataCommand} (current : Current run (.command command)) :
    Routed { run with history := run.history.apply command } := by
  obtain ⟨bounded, free⟩ := current
  refine ⟨routed.recorded.apply bounded, ?_, routed.answers⟩
  intro key entry found pm stored
  have structured := routed.recorded.structured _ run.history.current_mem
  have reshaped := update_reshaped bounded structured.nonneg
  cases before : run.history.current.partitions.lookup key with
  | none =>
    have absent := free key (Finmap.mem_keys.mpr (Finmap.mem_of_lookup_eq_some found)) before
    exact absurd (absent.symm.trans stored) (by simp)
  | some old =>
    have same := structured.keeps_identity reshaped before stored
    have shards : pm.shardID = old.shardID := congrArg (fun part => part.2.2.1) same
    rw [shards]
    exact routed.entries key entry found old before

/-- Only two steps of the workers change the registry. -/
theorem Routed.work (routed : Routed run) {worker : Worker} {fails : Bool}
    (current : Current run (.work worker fails)) :
    Routed (run.work config worker fails) := by
  refine ⟨routed.recorded, ?_, routed.answers⟩
  intro key entry found
  cases worker with
  | startShard shardID info next =>
    cases next with
    | launch =>
      simp only [ClusterRun.work, Worker.step] at found
      split at found
      · exact routed.entries key entry found
      · exact routed.entries key entry found
    | register =>
      simp only [ClusterRun.work, Worker.step, lookup_startPartitionReplica] at found
      split at found
      · next same =>
        cases found
        rw [same]
        exact current
      · exact routed.entries key entry found
    | record => exact routed.entries key entry found
  | stopShard shardID info next =>
    cases next with
    | unregister =>
      simp only [ClusterRun.work, Worker.step, lookup_stopPartitionReplica] at found
      split at found
      · cases found
      · exact routed.entries key entry found
    | halt => exact routed.entries key entry found
    | forget => exact routed.entries key entry found
    | removeAll => exact routed.entries key entry found

theorem Routed.route (routed : Routed run) {check : Check} (current : Current run (.route check)) :
    Routed (run.route check) := by
  refine ⟨routed.recorded, routed.entries, ?_⟩
  intro other shardID member
  simp only [ClusterRun.route, registeredShard] at member
  cases found : run.node.registry.lookup check.key with
  | none =>
    rw [show (⟨check.key.topic, check.key.partitionID⟩ : PartitionKey) = check.key from rfl, found] at member
    exact routed.answers other shardID member
  | some entry =>
    rw [show (⟨check.key.topic, check.key.partitionID⟩ : PartitionKey) = check.key from rfl, found] at member
    rcases List.mem_append.mp member with old | new
    · exact routed.answers other shardID old
    · cases List.mem_singleton.mp new
      obtain ⟨pm, stored, same⟩ := Option.map_eq_some_iff.mp current
      rw [← same]
      exact (routed.entries check.key entry found pm stored).symm

/-- Every event with current reads keeps the entries and the answers right. -/
theorem Routed.step {event : ClusterEvent} (routed : Routed run) (current : Current run event)
    (moved : run.step config event = some next) : Routed next := by
  cases event with
  | command command =>
    cases moved
    exact routed.command current
  | reconcile listAt readAt =>
    cases moved
    exact ⟨routed.recorded, routed.entries, routed.answers⟩
  | work worker fails =>
    simp only [ClusterRun.step] at moved
    split at moved
    · cases moved
      exact routed.work current
    · cases moved
  | lookup topic partitionID readAt =>
    obtain ⟨state, _, rfl⟩ := Option.map_eq_some_iff.mp moved
    unfold ClusterRun.lookup
    split
    · exact ⟨routed.recorded, routed.entries, routed.answers⟩
    · exact routed
  | route check =>
    simp only [ClusterRun.step] at moved
    split at moved
    · cases moved
      exact routed.route current
    · cases moved

end

/-- Every answer names the shard of the partition that the request has looked up, when registry and metadata never
know two incarnations of one partition at a time. -/
theorem requests_routed_to_current_shard (config : CoordinatorConfig) (run : ClusterRun)
    (reached : (clusterRuns config).Reaches Current run) :
    ∀ check shardID, (check, shardID) ∈ run.answers → shardID = check.pm.shardID := by
  have routed : Routed run := by
    refine @System.Reaches.invariant _ _ _ _ Routed ?_ ?_ _ reached
    · rintro run rfl
      exact Routed.start
    · intro run event next routed current moved
      exact routed.step current moved
  exact routed.answers

/-- The topic is created, its shard is started, and its leader is this node. -/
def leadAudit : List ClusterEvent :=
  [.command (.createTopic ⟨"audit", 1, 1, 0, 0, 0, [[1]]⟩), .reconcile (some 1) (fun _ => some 1),
    .work (.startShard 1 auditShard .launch) false, .work (.startShard 1 auditShard .register) false,
    .work (.startShard 1 auditShard .record) false, .command (.assignPartitionLeader ⟨"audit", 0, 1, 4⟩)]

def routeAudit (place : Nat) (pm : PartitionMeta) : List ClusterEvent :=
  [.lookup "audit" 0 place, .route ⟨⟨"audit", 0⟩, pm⟩]

def ledRun : ClusterRun :=
  (follow (step firstNode) start
    (leadAudit ++ routeAudit 2 ⟨"audit", 0, 1, [1], 1, 4⟩)).get (by decide +kernel)

theorem requests_routed_to_current_shard_first :
    follow (step firstNode) start (leadAudit ++ routeAudit 2 ⟨"audit", 0, 1, [1], 1, 4⟩) =
        some ledRun ∧
      ledRun.answers = [(⟨⟨"audit", 0⟩, ⟨"audit", 0, 1, [1], 1, 4⟩⟩, 1)] ∧
      ∀ check shardID, (check, shardID) ∈ ledRun.answers → shardID = check.pm.shardID := by
  have followed : follow (step firstNode) start
      (leadAudit ++ routeAudit 2 ⟨"audit", 0, 1, [1], 1, 4⟩) = some ledRun := (Option.some_get _).symm
  have reached : (clusterRuns firstNode).Reaches Current ledRun :=
    System.Reaches.run rfl
      (by decide +kernel : permits _ Current _ _) followed
  exact ⟨followed, by decide +kernel, requests_routed_to_current_shard firstNode ledRun reached⟩

/-- The topic is deleted and created again before its old shard is stopped, and this node leads the new shard. -/
def recreateLedAudit : List ClusterEvent :=
  [.command (.deleteTopic ⟨"audit"⟩), .command (.createTopic ⟨"audit", 1, 1, 0, 0, 0, [[1]]⟩),
    .command (.assignPartitionLeader ⟨"audit", 0, 1, 2⟩)]

def misroutedRun : ClusterRun :=
  (follow (step firstNode) start
    (leadAudit ++ recreateLedAudit ++ routeAudit 5 ⟨"audit", 0, 2, [1], 1, 2⟩)).get (by decide +kernel)

/-- A request for the new partition is routed to the old shard. -/
theorem request_routed_to_old_shard :
    follow (step firstNode) start
        (leadAudit ++ recreateLedAudit ++ routeAudit 5 ⟨"audit", 0, 2, [1], 1, 2⟩) = some misroutedRun ∧
      (clusterRuns firstNode).Reaches System.Free misroutedRun ∧
      misroutedRun.answers = [(⟨⟨"audit", 0⟩, ⟨"audit", 0, 2, [1], 1, 2⟩⟩, 1)] ∧
      ¬ ∀ check shardID, (check, shardID) ∈ misroutedRun.answers → shardID = check.pm.shardID := by
  have followed : follow (step firstNode) start
      (leadAudit ++ recreateLedAudit ++ routeAudit 5 ⟨"audit", 0, 2, [1], 1, 2⟩) = some misroutedRun :=
    (Option.some_get _).symm
  have reached : (clusterRuns firstNode).Reaches System.Free misroutedRun :=
    System.Reaches.run rfl
      (by decide +kernel : permits _ System.Free _ _) followed
  have answers : misroutedRun.answers = [(⟨⟨"audit", 0⟩, ⟨"audit", 0, 2, [1], 1, 2⟩⟩, 1)] := by decide +kernel
  refine ⟨followed, reached, answers, ?_⟩
  intro agree
  have wrong := agree _ _ (answers ▸ List.mem_singleton.mpr rfl)
  simp at wrong

end BunnyMQ.Cluster
