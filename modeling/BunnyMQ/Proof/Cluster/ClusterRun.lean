/-
This file describes runs of one node, with its workers and its requests, over the history of the metadata.
-/

import BunnyMQ.Proof.Cluster.Reconcile

namespace BunnyMQ.Cluster
open Foundation Metadata Transition

/-- A request between its look at the metadata and its look at the registry. -/
structure Check where
  key : PartitionKey
  pm : PartitionMeta
  deriving DecidableEq

structure ClusterRun where
  history : History
  node : Node
  workers : Multiset Worker
  checks : List Check
  answers : List (Check × Nat)

/-- A lookup reads one of the states of the history, or it fails. -/
inductive ClusterEvent where
  | command (command : MetadataCommand)
  | reconcile (listAt : Option Nat) (readAt : String → Option Nat)
  | work (worker : Worker) (fails : Bool)
  | lookup (topic : String) (partitionID : Int) (readAt : Nat)
  | route (check : Check)

/-- The lookups of one reconciliation may see different states. -/
def historyReads (history : History) (listAt : Option Nat) (readAt : String → Option Nat) : ClusterReads where
  listTopics := match listAt.bind fun place => history.states[place]? with
    | some state => .ok state.listTopics
    | none => .error (.failed "lookup failed")
  getPartitions topic := match (readAt topic).bind fun place => history.states[place]? with
    | some state => state.getPartitions topic
    | none => .error (.failed "lookup failed")

namespace ClusterRun

def reconcile (config : CoordinatorConfig) (run : ClusterRun) (reads : ClusterReads) : ClusterRun :=
  { run with workers := run.workers + (reconcileOnce config reads run.node.runningShards).workers }

/-- One worker takes its next step. -/
def work (config : CoordinatorConfig) (run : ClusterRun) (worker : Worker) (fails : Bool) : ClusterRun :=
  let stepped := worker.step config fails run.node
  { run with
    node := stepped.1
    workers := run.workers.erase worker + stepped.2.toList }

def lookup (config : CoordinatorConfig) (run : ClusterRun) (topic : String) (partitionID : Int)
    (state : MetadataState) : ClusterRun :=
  match checkLeader config.nodeID (fun id => ((state.nodes.lookup id).map NodeInfo.address).getD "")
    ((state.getPartition topic partitionID).map some) with
  | .ok pm => { run with checks := run.checks ++ [⟨⟨topic, partitionID⟩, pm⟩] }
  | .error _ => run

def route (run : ClusterRun) (check : Check) : ClusterRun :=
  { run with
    checks := run.checks.erase check
    answers := match registeredShard run.node.registry check.key.topic check.key.partitionID with
      | .ok shardID => run.answers ++ [(check, shardID)]
      | .error _ => run.answers }

def step (config : CoordinatorConfig) (run : ClusterRun) : ClusterEvent → Option ClusterRun
  | .command command => some { run with history := run.history.apply command }
  | .reconcile listAt readAt => some (run.reconcile config (historyReads run.history listAt readAt))
  | .work worker fails => if worker ∈ run.workers then some (run.work config worker fails) else none
  | .lookup topic partitionID readAt => run.history.states[readAt]?.map (run.lookup config topic partitionID)
  | .route check => if check ∈ run.checks then some (run.route check) else none

/-- A fresh node over fresh metadata. -/
def start : ClusterRun := ⟨History.start, ⟨∅, ∅, ∅, ∅⟩, 0, [], []⟩

end ClusterRun

def clusterRuns (config : CoordinatorConfig) : System ClusterRun ClusterEvent where
  start run := run = ClusterRun.start
  step run event next := run.step config event = some next

/-- A request that is routed right after its lookup gets the shard of `leaderCheck`. -/
theorem ClusterRun.route_of_leaderCheck {config : CoordinatorConfig} {run : ClusterRun} {topic : String}
    {partitionID : Int} {state : MetadataState} {shardID : Nat}
    (checked : leaderCheck config.nodeID (fun id => ((state.nodes.lookup id).map NodeInfo.address).getD "") state
      run.node.registry topic partitionID = .ok shardID) :
    ∃ pm, (run.lookup config topic partitionID state).checks = run.checks ++ [⟨⟨topic, partitionID⟩, pm⟩] ∧
      ((run.lookup config topic partitionID state).route ⟨⟨topic, partitionID⟩, pm⟩).answers =
        run.answers ++ [(⟨⟨topic, partitionID⟩, pm⟩, shardID)] := by
  unfold leaderCheck at checked
  unfold ClusterRun.lookup
  cases led : checkLeader config.nodeID (fun id => ((state.nodes.lookup id).map NodeInfo.address).getD "")
      ((state.getPartition topic partitionID).map some) with
  | error failure =>
    rw [led] at checked
    cases checked
  | ok pm =>
    rw [led] at checked
    have registered : registeredShard run.node.registry topic partitionID = .ok shardID := checked
    refine ⟨pm, rfl, ?_⟩
    simp only [ClusterRun.route, registered]

/-- Only a command changes the history. -/
theorem ClusterRun.step_history {config : CoordinatorConfig} {run next : ClusterRun} {event : ClusterEvent}
    (moved : run.step config event = some next) : next.history = run.history ∨
      ∃ command, event = .command command ∧ next.history = run.history.apply command := by
  cases event with
  | command command =>
    cases moved
    exact .inr ⟨command, rfl, rfl⟩
  | reconcile listAt readAt =>
    cases moved
    exact .inl rfl
  | work worker fails =>
    simp only [ClusterRun.step] at moved
    split at moved
    · cases moved
      exact .inl rfl
    · cases moved
  | lookup topic partitionID readAt =>
    obtain ⟨state, _, rfl⟩ := Option.map_eq_some_iff.mp moved
    unfold ClusterRun.lookup
    split
    · exact .inl rfl
    · exact .inl rfl
  | route check =>
    simp only [ClusterRun.step] at moved
    split at moved
    · cases moved
      exact .inl rfl
    · cases moved

/-- Some state of the history had this partition with a replica on this node. -/
def Known (config : CoordinatorConfig) (history : History) (shardID : Nat) (info : ShardInfo) : Prop :=
  ∃ state ∈ history.states, ∃ key pm, state.partitions.lookup key = some pm ∧ config.nodeID ∈ pm.replicaNodeIDs ∧
    pm.shardID = shardID ∧ shardInfo config pm = info

section
variable {config : CoordinatorConfig} {history : History} {shardID : Nat} {info other : ShardInfo}

theorem shardInfo_congr {pm also : PartitionMeta} (same : pm.identity = also.identity) :
    shardInfo config pm = shardInfo config also := by
  obtain ⟨topic, number, shard, replicas⟩ : _ ∧ _ ∧ _ ∧ _ := by
    simpa only [PartitionMeta.identity, Prod.mk.injEq] using same
  rw [shardInfo, shardInfo, topic, number, shard, replicas]

/-- A shard has one information in the whole run. -/
theorem Known.unique (recorded : Recorded history) (known : Known config history shardID info)
    (also : Known config history shardID other) : info = other := by
  obtain ⟨first, atFirst, key, pm, stored, _, shard, rfl⟩ := known
  obtain ⟨second, atSecond, key', pm', stored', _, shard', rfl⟩ := also
  obtain ⟨_, same⟩ := recorded.same_partition atFirst atSecond stored stored' (shard.trans shard'.symm)
  exact shardInfo_congr same

theorem Known.apply (known : Known config history shardID info) (command : MetadataCommand) :
    Known config (history.apply command) shardID info := by
  obtain ⟨state, member, facts⟩ := known
  exact ⟨state, List.mem_append_left _ member, facts⟩

/-- The lookup of a topic returns partitions of the state. -/
theorem mem_getPartitions {state : MetadataState} {topic : String} {partitions : List PartitionMeta}
    (found : state.getPartitions topic = .ok partitions) {pm : PartitionMeta} :
    pm ∈ partitions ↔ ∃ key, key.topic = topic ∧ state.partitions.lookup key = some pm := by
  unfold MetadataState.getPartitions at found
  split at found
  · cases found
  cases found
  simp only [List.mem_filterMap, List.mem_filter, decide_eq_true_eq]
  constructor
  · rintro ⟨key, ⟨_, same⟩, stored⟩
    exact ⟨key, same, stored⟩
  · rintro ⟨key, same, stored⟩
    have listed : key ∈ @KeyMap.sortedKeys _ _ PartitionKey.order state.partitions :=
      (@KeyMap.mem_sortedKeys _ _ PartitionKey.order _ _).mpr (Finmap.mem_of_lookup_eq_some stored)
    exact ⟨key, ⟨listed, same⟩, stored⟩

/-- The workers of a reconciliation are about shards of the history and about running shards. -/
theorem mem_reconcile_workers {listAt : Option Nat} {readAt : String → Option Nat} {running : KeyMap Nat ShardInfo}
    {worker : Worker} (member : worker ∈ (reconcileOnce config (historyReads history listAt readAt) running).workers) :
    (∃ shardID info, worker = .startShard shardID info .launch ∧ Known config history shardID info) ∨
      ∃ shardID info, worker = .stopShard shardID info .unregister ∧ running.lookup shardID = some info := by
  rcases List.mem_append.mp member with starts | stops
  · obtain ⟨⟨shardID, info⟩, started, rfl⟩ := List.mem_map.mp starts
    refine .inl ⟨shardID, info, rfl, ?_⟩
    unfold reconcileOnce at started
    cases listed : (historyReads history listAt readAt).listTopics with
    | error failure =>
      rw [listed] at started
      cases started
    | ok topics =>
      rw [listed] at started
      obtain ⟨found, _⟩ := mem_missingFrom.mp started
      obtain ⟨pm, inside, shard, same⟩ := expectTopics_lookup found
      obtain ⟨within, replica⟩ := List.mem_filter.mp inside
      obtain ⟨tm, _, returned⟩ := List.mem_flatMap.mp within
      have facts : ∃ state ∈ history.states, ∃ key, state.partitions.lookup key = some pm := by
        simp only [historyReads] at returned
        split at returned
        · next state located =>
          obtain ⟨place, _, at'⟩ := Option.bind_eq_some_iff.mp located
          cases partitions : state.getPartitions tm.name with
          | error failure =>
            rw [partitions] at returned
            cases returned
          | ok list =>
            rw [partitions] at returned
            obtain ⟨key, _, stored⟩ := (mem_getPartitions partitions).mp returned
            exact ⟨state, List.mem_of_getElem? at', key, stored⟩
        · cases returned
      obtain ⟨state, here, key, stored⟩ := facts
      exact ⟨state, here, key, pm, stored, by simpa using replica, shard, same⟩
  · obtain ⟨⟨shardID, info⟩, stopped, rfl⟩ := List.mem_map.mp stops
    exact .inr ⟨shardID, info, rfl, (mem_stops.mp stopped).2.1⟩

end

end BunnyMQ.Cluster
