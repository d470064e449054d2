/-
This file shows when the registry of a node ends up with the shards of the metadata.
-/

import BunnyMQ.Proof.Cluster.ClusterRun

namespace BunnyMQ.Cluster
open Foundation Metadata Transition Multiset Finmap ClusterRun Option
variable {worker : Worker} {entry : ShardEntry} {state : MetadataState}

namespace Worker

def shardID : Worker → Nat
  | .startShard shardID _ _ => shardID
  | .stopShard shardID _ _ => shardID

def info : Worker → ShardInfo
  | .startShard _ info _ => info
  | .stopShard _ info _ => info

/-- The shard is hosted and not yet recorded as running. -/
def starting (shardID : Nat) : Worker → Bool
  | .startShard id _ .register => id = shardID
  | .startShard id _ .record => id = shardID
  | _ => false

/-- The shard has still to be forgotten. -/
def stopping (shardID : Nat) : Worker → Bool
  | .stopShard id _ .unregister => id = shardID
  | .stopShard id _ .halt => id = shardID
  | .stopShard id _ .forget => id = shardID
  | _ => false

/-- The shard is unregistered and has still to be forgotten. -/
def halting (shardID : Nat) : Worker → Bool
  | .stopShard id _ .halt => id = shardID
  | .stopShard id _ .forget => id = shardID
  | _ => false

end Worker

def ShardInfo.key (info : ShardInfo) : PartitionKey := ⟨info.topic, info.partitionID⟩

/-- The registry has no other shard under this key. -/
def Owns (registry : ShardRegistry) (shardID : Nat) (info : ShardInfo) : Prop :=
  ∀ entry ∈ registry.lookup info.key, entry.shardID = shardID

instance (registry : ShardRegistry) (shardID : Nat) (info : ShardInfo) : Decidable (Owns registry shardID info) :=
  inferInstanceAs (Decidable (∀ _ ∈ _, _))

/-- No worker touches the entry of another shard, and no shard starts while it is being stopped. -/
def Separated (run : ClusterRun) : ClusterEvent → Prop
  | .command command => Bounded run.history command
  | .work (.startShard shardID _ .launch) _ => ∀ worker ∈ run.workers, worker.stopping shardID = false
  | .work (.startShard shardID info .register) _ => Owns run.node.registry shardID info
  | .work (.stopShard shardID info .unregister) _ => Owns run.node.registry shardID info
  | _ => True

instance (run : ClusterRun) : (event : ClusterEvent) → Decidable (Separated run event)
  | .command _ => inferInstanceAs (Decidable (Bounded _ _))
  | .work (.startShard _ _ .launch) _ => inferInstanceAs (Decidable (∀ _ ∈ _, _))
  | .work (.startShard _ _ .register) _ => inferInstanceAs (Decidable (Owns _ _ _))
  | .work (.stopShard _ _ .unregister) _ => inferInstanceAs (Decidable (Owns _ _ _))
  | .work (.startShard _ _ .record) _ | .work (.stopShard _ _ .halt) _ | .work (.stopShard _ _ .forget) _
  | .work (.stopShard _ _ .removeAll) _ | .reconcile _ _ | .lookup _ _ _ | .route _ => .isTrue trivial

/-- The registry maps the key of this shard to it. -/
def Registered (registry : ShardRegistry) (shardID : Nat) (info : ShardInfo) : Prop :=
  (registry.lookup info.key).map ShardEntry.shardID = some shardID

/-- The registry, the running shards and the hosted shards differ only where a worker is between its steps. -/
structure Consistent (config : CoordinatorConfig) (history : History) (node : Node) (workers : Multiset Worker) :
    Prop where
  recorded : Recorded history
  knownWorkers : ∀ worker ∈ workers, Known config history worker.shardID worker.info
  knownRunning : ∀ shardID info, node.runningShards.lookup shardID = some info → Known config history shardID info
  entries : ∀ key entry, node.registry.lookup key = some entry → ∃ info, info.key = key ∧
    Known config history entry.shardID info ∧ (node.runningShards.lookup entry.shardID = some info ∨
      .startShard entry.shardID info .record ∈ workers)
  registered : ∀ shardID info, node.runningShards.lookup shardID = some info →
    Registered node.registry shardID info ∨ ∃ worker ∈ workers, worker.halting shardID
  recording : ∀ shardID info, .startShard shardID info .record ∈ workers → Registered node.registry shardID info
  alone : ∀ shardID, workers.countP (fun worker => worker.starting shardID) ≤ 1
  starting : ∀ shardID, ∀ worker ∈ workers, worker.starting shardID → shardID ∈ node.hosted ∧
    shardID ∉ node.runningShards ∧ ∀ other ∈ workers, other.stopping shardID = false
  hosted : ∀ shardID ∈ node.runningShards, shardID ∈ node.hosted ∨ ∃ info, .stopShard shardID info .forget ∈ workers
  halted : ∀ key entry, node.registry.lookup key = some entry →
    ∀ worker ∈ workers, worker.halting entry.shardID = false

section
variable {config : CoordinatorConfig} {history : History} {node : Node} {workers : Multiset Worker} {shardID : Nat}
  {info : ShardInfo}

theorem stopping_of_halting (halting : worker.halting shardID) : worker.stopping shardID := by
  cases worker with
  | startShard id info next => cases halting
  | stopShard id info next =>
    cases next with
    | unregister => cases halting
    | halt => exact halting
    | forget => exact halting
    | removeAll => cases halting

section
variable {worker : Worker} (consistent : Consistent config history node (worker ::ₘ workers))
include consistent

/-- What the invariant says about the other workers when one is taken out. -/
theorem Consistent.known_tail : ∀ other ∈ workers, Known config history other.shardID other.info :=
  (forall_mem_cons.mp consistent.knownWorkers).2

theorem Consistent.entries_tail (unrecorded : ∀ id info, worker ≠ .startShard id info .record) {key : PartitionKey}
    (found : node.registry.lookup key = some entry) :
    ∃ info, info.key = key ∧ Known config history entry.shardID info ∧
      (node.runningShards.lookup entry.shardID = some info ∨ .startShard entry.shardID info .record ∈ workers) := by
  obtain ⟨info, same, known, left⟩ := consistent.entries key entry found
  refine ⟨info, same, known, left.imp_right fun recording => ?_⟩
  exact (mem_cons.mp recording).resolve_left fun gone => unrecorded _ _ gone.symm

theorem Consistent.registered_tail (running : node.runningShards.lookup shardID = some info)
    (idle : worker.halting shardID = false) :
    Registered node.registry shardID info ∨ ∃ other ∈ workers, other.halting shardID := by
  refine (consistent.registered shardID info running).imp_right ?_
  rintro ⟨other, member, halting⟩
  rcases mem_cons.mp member with rfl | left
  · rw [idle] at halting
    cases halting
  · exact ⟨other, left, halting⟩

theorem Consistent.alone_tail (id : Nat) : workers.countP (fun other => other.starting id) ≤ 1 :=
  (countP_le_of_le _ (le_cons_self _ _)).trans (consistent.alone id)

theorem Consistent.starting_tail {other : Worker} (member : other ∈ workers) (starting : other.starting shardID) :
    shardID ∈ node.hosted ∧ shardID ∉ node.runningShards ∧ worker.stopping shardID = false ∧
      ∀ third ∈ workers, third.stopping shardID = false := by
  obtain ⟨hosted, running, quiet⟩ := consistent.starting shardID other (mem_cons_of_mem member) starting
  exact ⟨hosted, running, forall_mem_cons.mp quiet⟩

theorem Consistent.hosted_tail (running : shardID ∈ node.runningShards)
    (unforgotten : ∀ info, worker ≠ .stopShard shardID info .forget) :
    shardID ∈ node.hosted ∨ ∃ info, .stopShard shardID info .forget ∈ workers := by
  refine (consistent.hosted shardID running).imp_right ?_
  rintro ⟨info, member⟩
  exact ⟨info, (mem_cons.mp member).resolve_left fun gone => unforgotten info gone.symm⟩

theorem Consistent.halted_tail {key : PartitionKey} (found : node.registry.lookup key = some entry) :
    worker.halting entry.shardID = false ∧ ∀ other ∈ workers, other.halting entry.shardID = false :=
  forall_mem_cons.mp (consistent.halted key entry found)

/-- A worker can go when nothing waits for its next step. -/
theorem Consistent.drop (unrecorded : ∀ id info, worker ≠ .startShard id info .record)
    (idle : ∀ id, worker.halting id = false) : Consistent config history node workers where
  recorded := consistent.recorded
  knownWorkers := consistent.known_tail
  knownRunning := consistent.knownRunning
  entries _ _ found := consistent.entries_tail unrecorded found
  registered id _ running := consistent.registered_tail running (idle id)
  recording id info member := consistent.recording id info (mem_cons_of_mem member)
  alone := consistent.alone_tail
  starting _ _ member starting := by
    obtain ⟨hosted, running, _, quiet⟩ := consistent.starting_tail member starting
    exact ⟨hosted, running, quiet⟩
  hosted id running := by
    refine consistent.hosted_tail running ?_
    rintro info rfl
    simpa [Worker.halting] using idle id
  halted _ _ found := (consistent.halted_tail found).2

end

section
variable (consistent : Consistent config history node workers)
include consistent

/-- Another worker takes nothing away from what an entry rests on. -/
theorem Consistent.entries_cons (worker : Worker) {key : PartitionKey} (found : node.registry.lookup key = some entry) :
    ∃ info, info.key = key ∧ Known config history entry.shardID info ∧
      (node.runningShards.lookup entry.shardID = some info ∨
        .startShard entry.shardID info .record ∈ worker ::ₘ workers) := by
  obtain ⟨info, same, known, left⟩ := consistent.entries key entry found
  exact ⟨info, same, known, left.imp_right mem_cons_of_mem⟩

theorem Consistent.registered_cons (worker : Worker) (running : node.runningShards.lookup shardID = some info) :
    Registered node.registry shardID info ∨ ∃ other ∈ worker ::ₘ workers, other.halting shardID := by
  refine (consistent.registered shardID info running).imp_right ?_
  intro ⟨other, member, halting⟩
  exact ⟨other, mem_cons_of_mem member, halting⟩

theorem Consistent.hosted_cons (worker : Worker) (running : shardID ∈ node.runningShards) :
    shardID ∈ node.hosted ∨ ∃ info, .stopShard shardID info .forget ∈ worker ::ₘ workers := by
  refine (consistent.hosted shardID running).imp_right ?_
  intro ⟨info, member⟩
  exact ⟨info, mem_cons_of_mem member⟩

/-- A worker that leaves no trace can come. -/
theorem Consistent.spawn (known : Known config history worker.shardID worker.info)
    (idle : ∀ id, worker.starting id = false ∧ worker.halting id = false)
    (free : ∀ id, worker.stopping id → ∀ other ∈ workers, other.starting id = false) :
    Consistent config history node (worker ::ₘ workers) := by
  refine ⟨consistent.recorded, forall_mem_cons.mpr ⟨known, consistent.knownWorkers⟩, consistent.knownRunning,
    fun key entry found => consistent.entries_cons worker found,
    fun id info running => consistent.registered_cons worker running, ?_, ?_, ?_,
    fun id running => consistent.hosted_cons worker running, ?_⟩
  · intro id info member
    rcases mem_cons.mp member with new | old
    · have started := (idle id).1
      rw [← new] at started
      simp [Worker.starting] at started
    · exact consistent.recording id info old
  · intro id
    have bound := consistent.alone id
    rw [countP_cons, (idle id).1]
    simpa using bound
  · intro id other member starting
    rcases mem_cons.mp member with new | old
    · rw [new, (idle id).1] at starting
      cases starting
    · obtain ⟨hosted, running, quiet⟩ := consistent.starting id other old starting
      refine ⟨hosted, running, forall_mem_cons.mpr ⟨?_, quiet⟩⟩
      by_contra stops
      have clash := free id (by simpa using stops) other old
      rw [clash] at starting
      cases starting
  · intro key entry found
    exact forall_mem_cons.mpr ⟨(idle entry.shardID).2, consistent.halted key entry found⟩

/-- A started shard is hosted before it is registered. -/
theorem Consistent.launched (known : Known config history shardID info) (unhosted : shardID ∉ node.hosted)
    (quiet : ∀ worker ∈ workers, worker.stopping shardID = false) (directories : Finset (List String)) :
    Consistent config history { node with
      hosted := insert shardID node.hosted
      directories := directories } (.startShard shardID info .register ::ₘ workers) := by
  have idle : ∀ worker ∈ workers, worker.starting shardID = false := by
    intro worker member
    by_contra starts
    exact unhosted (consistent.starting shardID worker member (by simpa using starts)).1
  have unrecorded : shardID ∉ node.runningShards := by
    intro running
    rcases consistent.hosted shardID running with hosted | ⟨info, member⟩
    · exact unhosted hosted
    · have stops := quiet _ member
      simp [Worker.stopping] at stops
  refine ⟨consistent.recorded, forall_mem_cons.mpr ⟨known, consistent.knownWorkers⟩, consistent.knownRunning,
    fun key entry found => consistent.entries_cons _ found,
    fun id info running => consistent.registered_cons _ running, ?_, ?_, ?_, ?_, ?_⟩
  · intro id info member
    rcases mem_cons.mp member with new | old
    · cases new
    · exact consistent.recording id info old
  · intro id
    rw [countP_cons]
    by_cases same : shardID = id
    · subst same
      have none : workers.countP (fun worker => worker.starting shardID) = 0 :=
        countP_eq_zero.mpr fun worker member => by simp [idle worker member]
      rw [none]
      split
      · exact le_refl _
      · exact Nat.zero_le _
    · have bound := consistent.alone id
      simpa [Worker.starting, same] using bound
  · intro id worker member starting
    rcases mem_cons.mp member with rfl | old
    · have same : shardID = id := by simpa [Worker.starting] using starting
      subst same
      exact ⟨Finset.mem_insert_self _ _, unrecorded, forall_mem_cons.mpr ⟨rfl, quiet⟩⟩
    · obtain ⟨hosted, running, others⟩ := consistent.starting id worker old starting
      exact ⟨Finset.mem_insert_of_mem hosted, running, forall_mem_cons.mpr ⟨rfl, others⟩⟩
  · intro id running
    exact (consistent.hosted_cons _ running).imp_left Finset.mem_insert_of_mem
  · intro key entry found
    exact forall_mem_cons.mpr ⟨rfl, consistent.halted key entry found⟩

end

theorem lookup_startPartitionReplica (registry : ShardRegistry) (shardID : Nat) (info : ShardInfo)
    (key : PartitionKey) :
    (startPartitionReplica registry info.topic info.partitionID shardID).lookup key =
      if key = info.key then some ⟨shardID, info.topic, info.partitionID⟩ else registry.lookup key := by
  change (registry.insert info.key _).lookup key = _
  split
  · next same =>
    subst same
    exact lookup_insert _
  · next different => exact lookup_insert_of_ne _ different

theorem lookup_stopPartitionReplica (registry : ShardRegistry) (shardID : Nat) (info : ShardInfo)
    (key : PartitionKey) :
    (stopPartitionReplica registry info.topic info.partitionID shardID).lookup key =
      if key = info.key then none else registry.lookup key := by
  change (registry.erase info.key).lookup key = _
  split
  · next same =>
    subst same
    exact lookup_erase _ _
  · next different => exact lookup_erase_ne different

section
variable {registry : ShardRegistry} {other : Nat} {otherInfo : ShardInfo}
  (registered : Registered registry other otherInfo) (owns : Owns registry shardID info)
include registered owns

/-- A registration stays when the registry changes under a key without another shard. -/
theorem Registered.start :
    Registered (startPartitionReplica registry info.topic info.partitionID shardID) other otherInfo := by
  obtain ⟨entry, found, shard⟩ := map_eq_some_iff.mp registered
  rw [Registered, lookup_startPartitionReplica]
  split
  · next same =>
    rw [same] at found
    rw [map_some, ← owns entry found, shard]
  · exact registered

theorem Registered.stop (different : other ≠ shardID) :
    Registered (stopPartitionReplica registry info.topic info.partitionID shardID) other otherInfo := by
  obtain ⟨entry, found, shard⟩ := map_eq_some_iff.mp registered
  rw [Registered, lookup_stopPartitionReplica]
  split
  · next same =>
    rw [same] at found
    exact absurd (shard.symm.trans (owns entry found)) different
  · exact registered

end

/-- The entry of a started shard agrees with the metadata. -/
theorem Consistent.register
    (consistent : Consistent config history node (.startShard shardID info .register ::ₘ workers))
    (owns : Owns node.registry shardID info) :
    Consistent config history { node with
      registry := startPartitionReplica node.registry info.topic info.partitionID shardID }
      (.startShard shardID info .record ::ₘ workers) := by
  have known : Known config history shardID info := consistent.knownWorkers _ (mem_cons_self _ _)
  obtain ⟨hosted, unrecorded, quiet⟩ := consistent.starting shardID _ (mem_cons_self _ _)
    (by simp [Worker.starting])
  have dropped := consistent.drop (fun _ _ same => by cases same) (fun _ => rfl)
  refine ⟨consistent.recorded, forall_mem_cons.mpr ⟨known, dropped.knownWorkers⟩, consistent.knownRunning,
    ?_, ?_, ?_, ?_, ?_, fun id running => dropped.hosted_cons _ running, ?_⟩
  · intro key entry found
    simp only [lookup_startPartitionReplica] at found
    split at found
    · next same =>
      cases found
      exact ⟨info, same.symm, known, .inr (mem_cons_self _ _)⟩
    · exact dropped.entries_cons _ found
  · intro id info running
    exact (dropped.registered_cons _ running).imp_left fun entry => entry.start owns
  · intro id info member
    rcases mem_cons.mp member with new | old
    · cases new
      rw [Registered, lookup_startPartitionReplica, if_pos rfl]
      rfl
    · exact (dropped.recording id info old).start owns
  · intro id
    have bound := consistent.alone id
    rw [countP_cons] at bound ⊢
    exact bound
  · intro id worker member starting
    rcases mem_cons.mp member with rfl | old
    · have same : shardID = id := by simpa [Worker.starting] using starting
      subst same
      exact ⟨hosted, unrecorded, forall_mem_cons.mpr ⟨rfl, (forall_mem_cons.mp quiet).2⟩⟩
    · obtain ⟨hosted, running, others⟩ := dropped.starting id worker old starting
      exact ⟨hosted, running, forall_mem_cons.mpr ⟨rfl, others⟩⟩
  · intro key entry found
    refine forall_mem_cons.mpr ⟨rfl, ?_⟩
    simp only [lookup_startPartitionReplica] at found
    split at found
    · cases found
      intro worker old
      by_contra halting
      have stops := stopping_of_halting (by simpa using halting)
      rw [quiet worker (mem_cons_of_mem old)] at stops
      cases stops
    · exact dropped.halted key entry found

/-- The finished start makes the shard a running one. -/
theorem Consistent.record (consistent : Consistent config history node (.startShard shardID info .record ::ₘ workers)) :
    Consistent config history { node with runningShards := node.runningShards.insert shardID info } workers := by
  have known : Known config history shardID info := consistent.knownWorkers _ (mem_cons_self _ _)
  obtain ⟨hosted, _, _⟩ := consistent.starting shardID _ (mem_cons_self _ _) (by simp [Worker.starting])
  have others : ∀ worker ∈ workers, worker.starting shardID = false := by
    have bound := consistent.alone shardID
    rw [countP_cons, if_pos (by simp [Worker.starting])] at bound
    have none : workers.countP (fun worker => worker.starting shardID) = 0 := by omega
    intro worker member
    simpa using countP_eq_zero.mp none worker member
  refine ⟨consistent.recorded, consistent.known_tail, KeyMap.forall_insert consistent.knownRunning known, ?_,
    KeyMap.forall_insert (fun id other found => consistent.registered_tail found rfl)
      (.inl (consistent.recording shardID info (mem_cons_self _ _))),
    fun id info member => consistent.recording id info (mem_cons_of_mem member), consistent.alone_tail, ?_, ?_,
    fun key entry found => (consistent.halted_tail found).2⟩
  · intro key entry found
    obtain ⟨other, same, also, left⟩ := consistent.entries key entry found
    refine ⟨other, same, also, ?_⟩
    -- a known shard has one description, so the recorded one is that of the entry
    by_cases mine : entry.shardID = shardID
    · rw [mine] at also ⊢
      rw [lookup_insert, also.unique consistent.recorded known]
      exact .inl rfl
    · rw [lookup_insert_of_ne _ mine]
      refine left.imp_right fun recording => (mem_cons.mp recording).resolve_left ?_
      rintro ⟨⟩
      exact mine rfl
  · intro id worker member starting
    obtain ⟨hosted, running, _, quiet⟩ := consistent.starting_tail member starting
    refine ⟨hosted, ?_, quiet⟩
    rw [mem_insert]
    rintro (rfl | old)
    · rw [others worker member] at starting
      cases starting
    · exact running old
  · intro id running
    rcases mem_insert.mp running with rfl | old
    · exact .inl hosted
    · exact consistent.hosted_tail old nofun

/-- A stop of the registered shard removes its entry only. -/
theorem Consistent.unregister
    (consistent : Consistent config history node (.stopShard shardID info .unregister ::ₘ workers))
    (owns : Owns node.registry shardID info) :
    Consistent config history { node with
      registry := stopPartitionReplica node.registry info.topic info.partitionID shardID }
      (.stopShard shardID info .halt ::ₘ workers) := by
  have known : Known config history shardID info := consistent.knownWorkers _ (mem_cons_self _ _)
  have idle : ∀ worker ∈ workers, worker.starting shardID = false := by
    intro worker member
    by_contra starts
    obtain ⟨_, _, quiet⟩ := consistent.starting shardID worker (mem_cons_of_mem member) (by simpa using starts)
    have stops := quiet _ (mem_cons_self _ _)
    simp [Worker.stopping] at stops
  have dropped := consistent.drop (fun _ _ same => by cases same) (fun _ => rfl)
  refine ⟨consistent.recorded, forall_mem_cons.mpr ⟨known, dropped.knownWorkers⟩, consistent.knownRunning,
    ?_, ?_, ?_, ?_, ?_, fun id running => dropped.hosted_cons _ running, ?_⟩
  · intro key entry found
    simp only [lookup_stopPartitionReplica] at found
    split at found
    · cases found
    · exact dropped.entries_cons _ found
  · intro id other running
    by_cases same : id = shardID
    · subst same
      exact .inr ⟨_, mem_cons_self _ _, by simp [Worker.halting]⟩
    · exact (dropped.registered_cons _ running).imp_left fun entry => entry.stop owns same
  · intro id other member
    rcases mem_cons.mp member with new | old
    · cases new
    · have different : id ≠ shardID := by
        rintro rfl
        have starts := idle _ old
        simp [Worker.starting] at starts
      exact (dropped.recording id other old).stop owns different
  · intro id
    have bound := dropped.alone id
    rw [countP_cons]
    simpa [Worker.starting] using bound
  · intro id worker member starting
    rcases mem_cons.mp member with rfl | old
    · cases starting
    · obtain ⟨hosted, running, quiet⟩ := consistent.starting id worker (mem_cons_of_mem old) starting
      exact ⟨hosted, running, forall_mem_cons.mpr (forall_mem_cons.mp quiet)⟩
  · intro key entry found
    simp only [lookup_stopPartitionReplica] at found
    split at found
    · cases found
    next different =>
    refine forall_mem_cons.mpr ⟨?_, dropped.halted key entry found⟩
    obtain ⟨other, same, also, _⟩ := dropped.entries key entry found
    simp only [Worker.halting, decide_eq_false_iff_not]
    rintro rfl
    exact different (same.symm.trans (congrArg ShardInfo.key (also.unique consistent.recorded known)))

/-- The replica of an unregistered shard is stopped. -/
theorem Consistent.halt (consistent : Consistent config history node (.stopShard shardID info .halt ::ₘ workers)) :
    Consistent config history { node with hosted := node.hosted.erase shardID }
      (.stopShard shardID info .forget ::ₘ workers) := by
  refine ⟨consistent.recorded, forall_mem_cons.mpr (forall_mem_cons.mp consistent.knownWorkers),
    consistent.knownRunning, ?_, ?_, ?_, ?_, ?_, ?_, ?_⟩
  · intro key entry found
    obtain ⟨other, same, also, left⟩ := consistent.entries_tail nofun found
    exact ⟨other, same, also, left.imp_right mem_cons_of_mem⟩
  · intro id other running
    refine (consistent.registered id other running).imp_right ?_
    rintro ⟨worker, member, halting⟩
    rcases mem_cons.mp member with rfl | old
    · exact ⟨_, mem_cons_self _ _, halting⟩
    · exact ⟨worker, mem_cons_of_mem old, halting⟩
  · intro id other member
    rcases mem_cons.mp member with new | old
    · cases new
    · exact consistent.recording id other (mem_cons_of_mem old)
  · intro id
    have bound := consistent.alone id
    rw [countP_cons] at bound ⊢
    exact bound
  · intro id worker member starting
    rcases mem_cons.mp member with rfl | old
    · cases starting
    · obtain ⟨hosted, running, stops, quiet⟩ := consistent.starting_tail old starting
      have different : id ≠ shardID := by
        rintro rfl
        simp [Worker.stopping] at stops
      exact ⟨Finset.mem_erase.mpr ⟨different, hosted⟩, running, forall_mem_cons.mpr ⟨stops, quiet⟩⟩
  · intro id running
    by_cases same : id = shardID
    · subst same
      exact .inr ⟨info, mem_cons_self _ _⟩
    · exact (consistent.hosted_tail running nofun).imp (fun hosted => Finset.mem_erase.mpr ⟨same, hosted⟩)
        fun ⟨other, member⟩ => ⟨other, mem_cons_of_mem member⟩
  · intro key entry found
    exact forall_mem_cons.mpr (consistent.halted_tail found)

/-- The finished stop takes the shard off the running ones. -/
theorem Consistent.forget (consistent : Consistent config history node (.stopShard shardID info .forget ::ₘ workers)) :
    Consistent config history { node with runningShards := node.runningShards.erase shardID } workers := by
  have others : ∀ id other, (node.runningShards.erase shardID).lookup id = some other →
      id ≠ shardID ∧ node.runningShards.lookup id = some other := by
    intro id other found
    rw [KeyMap.lookup_erase] at found
    exact ite_none_left_eq_some.mp found
  refine ⟨consistent.recorded, consistent.known_tail,
    fun id other found => consistent.knownRunning id other (others id other found).2, ?_, ?_,
    fun id other member => consistent.recording id other (mem_cons_of_mem member), consistent.alone_tail, ?_, ?_,
    fun key entry found => (consistent.halted_tail found).2⟩
  · intro key entry found
    have different : entry.shardID ≠ shardID := by
      intro same
      simpa [Worker.halting, same] using (consistent.halted_tail found).1
    rw [lookup_erase_ne different]
    exact consistent.entries_tail nofun found
  · intro id other found
    obtain ⟨different, running⟩ := others id other found
    exact consistent.registered_tail running (decide_eq_false different.symm)
  · intro id worker member starting
    obtain ⟨hosted, running, _, quiet⟩ := consistent.starting_tail member starting
    exact ⟨hosted, fun erased => running (mem_erase.mp erased).2, quiet⟩
  · intro id running
    obtain ⟨different, old⟩ := mem_erase.mp running
    refine consistent.hosted_tail old ?_
    rintro other ⟨⟩
    exact different rfl

theorem Consistent.directories (consistent : Consistent config history node workers)
    (directories : Finset (List String)) : Consistent config history { node with directories := directories } workers :=
  ⟨consistent.recorded, consistent.knownWorkers, consistent.knownRunning, consistent.entries, consistent.registered,
    consistent.recording, consistent.alone, consistent.starting, consistent.hosted, consistent.halted⟩

theorem add_left_worker (worker : Worker) :
    workers + ((some worker).toList : Multiset Worker) = worker ::ₘ workers := by
  rw [toList_some, coe_singleton, add_comm, singleton_add]

/-- Every step of a worker that touches no other shard keeps the node consistent. -/
theorem Consistent.work {run : ClusterRun} {fails : Bool}
    (consistent : Consistent config run.history run.node run.workers) (member : worker ∈ run.workers)
    (separated : Separated run (.work worker fails)) :
    Consistent config run.history (run.work config worker fails).node (run.work config worker fails).workers := by
  have known := consistent.knownWorkers worker member
  have whole := consistent
  rw [← cons_erase member] at consistent
  cases worker with
  | startShard shardID info next =>
    cases next with
    | launch =>
      have dropped := consistent.drop (fun _ _ same => by cases same) (fun _ => rfl)
      by_cases refused : fails ∨ shardID ∈ run.node.hosted
      · simp only [ClusterRun.work, Worker.step, if_pos refused]
        simpa using dropped
      · simp only [ClusterRun.work, Worker.step, if_neg refused, add_left_worker]
        exact dropped.launched known (fun hosted => refused (.inr hosted))
          (fun other left => separated other (mem_of_mem_erase left)) _
    | register =>
      simp only [ClusterRun.work, Worker.step, add_left_worker]
      exact consistent.register separated
    | record =>
      simp only [ClusterRun.work, Worker.step]
      simpa using consistent.record
  | stopShard shardID info next =>
    cases next with
    | unregister =>
      simp only [ClusterRun.work, Worker.step, add_left_worker]
      exact consistent.unregister separated
    | halt =>
      simp only [ClusterRun.work, Worker.step, add_left_worker]
      exact consistent.halt
    | forget =>
      simp only [ClusterRun.work, Worker.step, add_left_worker]
      exact consistent.forget.spawn known (fun _ => ⟨rfl, rfl⟩) (fun _ stops => by cases stops)
    | removeAll =>
      have dropped := consistent.drop (fun _ _ same => by cases same) (fun _ => rfl)
      simp only [ClusterRun.work, Worker.step]
      simpa using dropped.directories _

/-- Spawned workers are about known shards, and they stop only running ones. -/
theorem Consistent.spawnAll (consistent : Consistent config history node workers) (spawned : List Worker)
    (known : ∀ worker ∈ spawned, Known config history worker.shardID worker.info)
    (idle : ∀ worker ∈ spawned, ∀ id, worker.starting id = false ∧ worker.halting id = false)
    (stops : ∀ worker ∈ spawned, ∀ id, worker.stopping id → id ∈ node.runningShards) :
    Consistent config history node (workers + (spawned : Multiset Worker)) := by
  induction spawned generalizing workers with
  | nil => simpa using consistent
  | cons worker spawned ih =>
    have first := consistent.spawn (known worker List.mem_cons_self) (idle worker List.mem_cons_self) (by
      intro id stopping other member
      by_contra starting
      obtain ⟨_, absent, _⟩ := consistent.starting id other member (by simpa using starting)
      exact absent (stops worker List.mem_cons_self id stopping))
    rw [← cons_coe, add_cons, ← cons_add]
    exact ih first (fun other member => known other (List.mem_cons_of_mem _ member))
      (fun other member => idle other (List.mem_cons_of_mem _ member))
      (fun other member => stops other (List.mem_cons_of_mem _ member))

theorem Consistent.reconcile {run : ClusterRun} (consistent : Consistent config run.history run.node run.workers)
    (listAt : Option Nat) (readAt : String → Option Nat) :
    Consistent config run.history run.node
      (run.reconcile config (historyReads run.history listAt readAt)).workers := by
  refine consistent.spawnAll _ ?_ ?_ ?_
  · intro worker member
    rcases mem_reconcile_workers member with ⟨shardID, info, rfl, known⟩ | ⟨shardID, info, rfl, running⟩
    · exact known
    · exact consistent.knownRunning shardID info running
  · intro worker member id
    rcases mem_reconcile_workers member with ⟨shardID, info, rfl, _⟩ | ⟨shardID, info, rfl, _⟩
    · exact ⟨rfl, rfl⟩
    · exact ⟨rfl, rfl⟩
  · intro worker member id stopping
    rcases mem_reconcile_workers member with ⟨shardID, info, rfl, _⟩ | ⟨shardID, info, rfl, running⟩
    · cases stopping
    · have same : shardID = id := by simpa [Worker.stopping] using stopping
      exact same ▸ mem_of_lookup_eq_some running

theorem Consistent.command (consistent : Consistent config history node workers) {command : MetadataCommand}
    (bounded : Bounded history command) : Consistent config (history.apply command) node workers := by
  refine ⟨consistent.recorded.apply bounded, ?_, ?_, ?_, consistent.registered, consistent.recording, consistent.alone,
    consistent.starting, consistent.hosted, consistent.halted⟩
  · intro worker member
    exact (consistent.knownWorkers worker member).apply command
  · intro shardID info running
    exact (consistent.knownRunning shardID info running).apply command
  · intro key entry found
    obtain ⟨info, same, known, left⟩ := consistent.entries key entry found
    exact ⟨info, same, known.apply command, left⟩

/-- A new node has no shards, entries or workers. -/
theorem Consistent.start : Consistent config History.start ⟨∅, ∅, ∅, ∅⟩ 0 := by
  have empty {Key Value : Type} [DecidableEq Key] (key : Key) (value : Value) :
      (∅ : KeyMap Key Value).lookup key ≠ some value := by
    intro found
    rw [lookup_empty] at found
    cases found
  refine ⟨Recorded.start, ?_, ?_, ?_, ?_, ?_, ?_, ?_, ?_, ?_⟩
  · intro worker member
    cases notMem_zero worker member
  · intro shardID info found
    cases empty shardID info found
  · intro key entry found
    cases empty key entry found
  · intro shardID info found
    cases empty shardID info found
  · intro shardID info member
    cases notMem_zero _ member
  · intro shardID
    exact Nat.zero_le 1
  · intro shardID worker member
    cases notMem_zero worker member
  · intro shardID member
    cases notMem_empty member
  · intro key entry found
    cases empty key entry found

/-- Every separated event keeps the registry consistent. -/
theorem Consistent.step {run next : ClusterRun} {event : ClusterEvent}
    (consistent : Consistent config run.history run.node run.workers) (separated : Separated run event)
    (moved : run.step config event = some next) : Consistent config next.history next.node next.workers := by
  cases event with
  | command command =>
    cases moved
    exact consistent.command separated
  | reconcile listAt readAt =>
    cases moved
    exact consistent.reconcile listAt readAt
  | work worker fails =>
    simp only [ClusterRun.step] at moved
    split at moved
    · next member =>
      cases moved
      exact consistent.work member separated
    · cases moved
  | lookup topic partitionID readAt =>
    obtain ⟨state, _, rfl⟩ := map_eq_some_iff.mp moved
    unfold ClusterRun.lookup
    split
    · exact consistent
    · exact consistent
  | route check =>
    simp only [ClusterRun.step] at moved
    split at moved
    · cases moved
      exact consistent
    · cases moved

/-- The key of a known shard is the key of its partition. -/
theorem Known.key_eq (known : Known config history shardID info) (recorded : Recorded history)
    (member : state ∈ history.states) {key : PartitionKey} {pm : PartitionMeta}
    (stored : state.partitions.lookup key = some pm) (shard : pm.shardID = shardID) : info.key = key := by
  obtain ⟨first, atFirst, other, also, found, _, same, rfl⟩ := known
  obtain ⟨sameKey, _⟩ := recorded.same_partition atFirst member found stored (same.trans shard.symm)
  obtain ⟨topic, number⟩ := (recorded.structured first atFirst).named other also found
  rw [← sameKey, ShardInfo.key, shardInfo, topic, number]

/-- The node has no work left, and a reconciliation against the metadata finds none. -/
def Quiescent (config : CoordinatorConfig) (run : ClusterRun) : Prop :=
  run.workers = 0 ∧
    reconcileOnce config (readsWith run.history.current none fun _ => none) run.node.runningShards = ⟨[], []⟩

/-- The shard that the metadata gives this node for a partition. -/
def currentShard (config : CoordinatorConfig) (state : MetadataState) (key : PartitionKey) : Option Nat :=
  (state.partitions.lookup key).bind fun pm => if config.nodeID ∈ pm.replicaNodeIDs then some pm.shardID else none

/-- Without failures the lookups return every wanted shard. -/
theorem returned_of_wanted (structured : Structured state) (named : TopicsNamed state)
    (wanted : Wanted config state shardID) : Returned config (readsWith state none fun _ => none) shardID := by
  obtain ⟨key, pm, stored, same, replica⟩ := wanted
  obtain ⟨tm, found, _⟩ := (structured.keys key).mp (mem_of_lookup_eq_some stored)
  have listed : tm ∈ state.listTopics := by
    refine List.mem_filterMap.mpr ⟨key.topic, ?_, found⟩
    exact KeyMap.mem_sortedKeys.mpr (mem_of_lookup_eq_some found)
  have partitions : ∃ list, state.getPartitions tm.name = .ok list := by
    rw [named key.topic tm found, MetadataState.getPartitions, found]
    exact ⟨_, rfl⟩
  obtain ⟨list, succeeded⟩ := partitions
  refine ⟨state.listTopics, rfl, tm, listed, list, succeeded, pm, ?_, same, replica⟩
  exact (mem_getPartitions succeeded).mpr ⟨key, (named key.topic tm found).symm, stored⟩

theorem wanted_of_returned (returned : Returned config (readsWith state none fun _ => none) shardID) :
    Wanted config state shardID := by
  obtain ⟨topics, _, tm, _, partitions, succeeded, pm, member, same, replica⟩ := returned
  obtain ⟨key, _, stored⟩ := (mem_getPartitions succeeded).mp member
  exact ⟨key, pm, stored, same, replica⟩

/-- Nothing to start or to stop means that the wanted shards run. -/
theorem running_iff_wanted {running : KeyMap Nat ShardInfo} (structured : Structured state)
    (named : TopicsNamed state)
    (nothing : reconcileOnce config (readsWith state none fun _ => none) running = ⟨[], []⟩) (shardID : Nat) :
    shardID ∈ running ↔ Wanted config state shardID := by
  have listed : (readsWith state none fun _ => none).listTopics = .ok state.listTopics := rfl
  constructor
  · intro member
    obtain ⟨info, found⟩ := mem_iff.mp member
    by_contra unwanted
    have stopped : (shardID, info) ∈ (reconcileOnce config (readsWith state none fun _ => none) running).stops :=
      mem_stops.mpr ⟨⟨_, listed⟩, found, fun returned => unwanted (wanted_of_returned returned)⟩
    rw [nothing] at stopped
    cases stopped
  · intro wanted
    have expected := (returned_iff listed shardID).mp (returned_of_wanted structured named wanted)
    obtain ⟨info, found⟩ := mem_iff.mp expected
    by_contra idle
    have started : (shardID, info) ∈ (reconcileOnce config (readsWith state none fun _ => none) running).starts :=
      mem_starts.mpr ⟨_, listed, found, idle⟩
    rw [nothing] at started
    cases started

end

/-- A quiescent node that has kept its shards apart has registered exactly its current shards. -/
theorem registry_converges (config : CoordinatorConfig) (run : ClusterRun)
    (reached : (clusterRuns config).Reaches Separated run) (quiescent : Quiescent config run) (key : PartitionKey) :
    (run.node.registry.lookup key).map ShardEntry.shardID = currentShard config run.history.current key := by
  have invariant : Consistent config run.history run.node run.workers ∧ TopicsNamed run.history.current := by
    refine @System.Reaches.invariant _ _ _ _
      (fun run => Consistent config run.history run.node run.workers ∧ TopicsNamed run.history.current) ?_ ?_ _ reached
    · rintro run rfl
      refine ⟨Consistent.start, ?_⟩
      intro topic tm found
      cases found
    · rintro run event next ⟨consistent, named⟩ separated moved
      refine ⟨consistent.step separated moved, ?_⟩
      rcases step_history moved with same | ⟨command, _, applied⟩
      · rw [same]
        exact named
      · rw [applied]
        exact named.update command
  obtain ⟨consistent, named⟩ := invariant
  obtain ⟨idle, nothing⟩ := quiescent
  rw [idle] at consistent
  have structured := consistent.recorded.structured _ run.history.current_mem
  have wanted := running_iff_wanted structured named nothing
  have alone : ∀ worker, worker ∉ (0 : Multiset Worker) := notMem_zero
  cases found : run.node.registry.lookup key with
  | some entry =>
    obtain ⟨info, same, known, running | recording⟩ := consistent.entries key entry found
    · obtain ⟨other, pm, stored, shard, replica⟩ := (wanted _).mp (mem_of_lookup_eq_some running)
      have sameKey := known.key_eq consistent.recorded run.history.current_mem stored shard
      rw [currentShard, ← same, sameKey, stored, bind_some, if_pos replica, shard, map_some]
    · cases alone _ recording
  | none =>
    cases current : currentShard config run.history.current key with
    | none => rfl
    | some shardID =>
      obtain ⟨pm, stored, chosen⟩ := bind_eq_some_iff.mp current
      split at chosen
      · next replica =>
        have shard : pm.shardID = shardID := by simpa using chosen
        obtain ⟨info, running⟩ := mem_iff.mp ((wanted shardID).mpr ⟨key, pm, stored, shard, replica⟩)
        have known := consistent.knownRunning shardID info running
        have sameKey := known.key_eq consistent.recorded run.history.current_mem stored shard
        rcases consistent.registered shardID info running with registered | ⟨worker, member, _⟩
        · rw [Registered, sameKey, found] at registered
          cases registered
        · cases alone worker member
      · cases chosen

/-- The topic is created and its shard is started. Then the topic is deleted and created again, and a reconciliation
spawns one worker for each of the two shards. -/
def recreateAudit : List ClusterEvent :=
  [.command (.createTopic ⟨"audit", 1, 1, 0, 0, 0, [[1]]⟩), .reconcile (some 1) (fun _ => some 1),
    .work (.startShard 1 auditShard .launch) false, .work (.startShard 1 auditShard .register) false,
    .work (.startShard 1 auditShard .record) false, .command (.deleteTopic ⟨"audit"⟩),
    .command (.createTopic ⟨"audit", 1, 1, 0, 0, 0, [[1]]⟩), .reconcile (some 3) (fun _ => some 3)]

def newAuditShard : ShardInfo := { auditShard with shardID := 2 }

def startNewAudit : List ClusterEvent :=
  [.work (.startShard 2 newAuditShard .launch) false, .work (.startShard 2 newAuditShard .register) false,
    .work (.startShard 2 newAuditShard .record) false]

def stopOldAudit : List ClusterEvent :=
  [.work (.stopShard 1 auditShard .unregister) false, .work (.stopShard 1 auditShard .halt) false,
    .work (.stopShard 1 auditShard .forget) false, .work (.stopShard 1 auditShard .removeAll) false]

/-- The old shard is stopped before the new one starts. -/
def orderlyRun : ClusterRun :=
  (follow (step firstNode) start (recreateAudit ++ stopOldAudit ++ startNewAudit)).get
    (by decide +kernel)

theorem registry_converges_old_first :
    follow (step firstNode) start (recreateAudit ++ stopOldAudit ++ startNewAudit) =
        some orderlyRun ∧
      Quiescent firstNode orderlyRun ∧ currentShard firstNode orderlyRun.history.current ⟨"audit", 0⟩ = some 2 ∧
      ∀ key, (orderlyRun.node.registry.lookup key).map ShardEntry.shardID =
        currentShard firstNode orderlyRun.history.current key := by
  have followed : follow (step firstNode) start
      (recreateAudit ++ stopOldAudit ++ startNewAudit) = some orderlyRun := (some_get _).symm
  have reached : (clusterRuns firstNode).Reaches Separated orderlyRun :=
    System.Reaches.run rfl
      (by decide +kernel : permits _ Separated _ _) followed
  have quiescent : Quiescent firstNode orderlyRun := ⟨by decide +kernel, by decide +kernel⟩
  exact ⟨followed, quiescent, by decide +kernel, registry_converges firstNode orderlyRun reached quiescent⟩

/-- The old shard is stopped after the new one has started. -/
def lateStopRun : ClusterRun :=
  (follow (step firstNode) start (recreateAudit ++ startNewAudit ++ stopOldAudit)).get
    (by decide +kernel)

/-- The stop of the old shard removes the entry of the new one, and no reconciliation brings it back. -/
theorem late_stop_unregisters_new_shard :
    follow (step firstNode) start (recreateAudit ++ startNewAudit ++ stopOldAudit) =
        some lateStopRun ∧
      (clusterRuns firstNode).Reaches System.Free lateStopRun ∧
      Quiescent firstNode lateStopRun ∧ currentShard firstNode lateStopRun.history.current ⟨"audit", 0⟩ = some 2 ∧
      lateStopRun.node.registry.lookup ⟨"audit", 0⟩ = none := by
  have followed : follow (step firstNode) start
      (recreateAudit ++ startNewAudit ++ stopOldAudit) = some lateStopRun := (some_get _).symm
  have reached : (clusterRuns firstNode).Reaches System.Free lateStopRun :=
    System.Reaches.run rfl
      (by decide +kernel : permits _ System.Free _ _) followed
  exact ⟨followed, reached, ⟨by decide +kernel, by decide +kernel⟩, by decide +kernel, by decide +kernel⟩

end BunnyMQ.Cluster
