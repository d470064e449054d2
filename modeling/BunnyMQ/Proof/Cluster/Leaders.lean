/-
This file shows when the metadata advertises the leaders of the right shards.
-/

import BunnyMQ.Proof.Cluster.Registry

namespace BunnyMQ.Cluster
open Foundation Metadata Transition MetadataState MetadataCommand

/-- A node led a shard in a term. -/
structure Election where
  shardID : Nat
  leaderID : Nat
  term : Nat
  deriving DecidableEq

/-- A command of `sweepLeaders` on its way to the metadata, with the shard that it is about. -/
structure LeaderProposal where
  shardID : Nat
  cmd : AssignPartitionLeaderCmd
  deriving DecidableEq

/-- The sweep holds the shards that the running sweep has not visited yet. -/
structure Broker where
  node : Node
  workers : Multiset Worker
  sweep : List (Nat × ShardInfo)
  lastKnownLeader : KeyMap Nat LeaderRecord

/-- All nodes work on one history of the metadata. -/
structure Fleet where
  history : History
  brokers : Nat → Broker
  elections : List Election
  proposals : List LeaderProposal

inductive FleetEvent where
  | command (command : MetadataCommand)
  | reconcile (place : Nat) (listAt : Option Nat) (readAt : String → Option Nat)
  | work (place : Nat) (worker : Worker) (fails : Bool)
  | elect (place shardID term : Nat)
  | beginSweep (place : Nat) (visited : List Nat)
  | visit (place : Nat) (answer : Option LeaderAnswer) (accepted : Bool)
  | deliver (proposal : LeaderProposal)

/-- Leaders are assigned only by the sweeps. -/
def assignsLeader : MetadataCommand → Bool
  | .assignPartitionLeader _ => true
  | _ => false

namespace Fleet

def setBroker (fleet : Fleet) (place : Nat) (broker : Broker) : Fleet :=
  { fleet with brokers := Function.update fleet.brokers place broker }

/-- A replica that runs may win a term in which no other node leads its shard. -/
def MayLead (fleet : Fleet) (config : CoordinatorConfig) (place shardID term : Nat) : Prop :=
  shardID ∈ (fleet.brokers place).node.hosted ∧ term < 2 ^ 64 ∧ ∀ election ∈ fleet.elections,
    election.shardID = shardID → election.term = term → election.leaderID = config.nodeID

instance (fleet : Fleet) (config : CoordinatorConfig) (place shardID term : Nat) :
    Decidable (fleet.MayLead config place shardID term) := inferInstanceAs (Decidable (_ ∧ _ ∧ _))

/-- A valid answer names a leader that the shard has had. -/
def Genuine (fleet : Fleet) (shardID : Nat) (answer : Option LeaderAnswer) : Prop :=
  ∀ given ∈ answer, given.valid → ⟨shardID, given.leaderID, given.term⟩ ∈ fleet.elections

instance (fleet : Fleet) (shardID : Nat) (answer : Option LeaderAnswer) : Decidable (fleet.Genuine shardID answer) :=
  inferInstanceAs (Decidable (∀ _ ∈ _, _))

/-- The command of one visit may reach the metadata at any later time, also when the call has failed. -/
def visit (fleet : Fleet) (place : Nat) (shardID : Nat) (info : ShardInfo) (rest : List (Nat × ShardInfo))
    (answer : Option LeaderAnswer) (accepted : Bool) : Fleet :=
  let broker := fleet.brokers place
  match proposeLeader broker.lastKnownLeader shardID info answer with
  | none => fleet.setBroker place { broker with sweep := rest }
  | some cmd =>
    { fleet.setBroker place { broker with
        sweep := rest
        lastKnownLeader := recordLeader broker.lastKnownLeader shardID answer accepted } with
      proposals := fleet.proposals ++ [⟨shardID, cmd⟩] }

def step (configs : Nat → CoordinatorConfig) (fleet : Fleet) : FleetEvent → Option Fleet
  | .command command =>
    if assignsLeader command then none else some { fleet with history := fleet.history.apply command }
  | .reconcile place listAt readAt =>
    let broker := fleet.brokers place
    let result := reconcileOnce (configs place) (historyReads fleet.history listAt readAt) broker.node.runningShards
    some (fleet.setBroker place { broker with workers := broker.workers + result.workers })
  | .work place worker fails =>
    let broker := fleet.brokers place
    let stepped := worker.step (configs place) fails broker.node
    if worker ∈ broker.workers then
      some (fleet.setBroker place { broker with
        node := stepped.1
        workers := broker.workers.erase worker + stepped.2.toList })
    else none
  | .elect place shardID term =>
    if fleet.MayLead (configs place) place shardID term then
      some { fleet with elections := fleet.elections ++ [⟨shardID, (configs place).nodeID, term⟩] }
    else none
  | .beginSweep place visited =>
    let broker := fleet.brokers place
    some (fleet.setBroker place { broker with
      sweep := visited.filterMap fun shardID =>
        (broker.node.runningShards.lookup shardID).map fun info => (shardID, info) })
  | .visit place answer accepted =>
    match (fleet.brokers place).sweep with
    | [] => none
    | (shardID, info) :: rest =>
      if fleet.Genuine shardID answer then some (fleet.visit place shardID info rest answer accepted) else none
  | .deliver proposal =>
    if proposal ∈ fleet.proposals then
      some { fleet with
        history := fleet.history.apply (.assignPartitionLeader proposal.cmd)
        proposals := fleet.proposals.erase proposal }
    else none

/-- Fresh nodes over fresh metadata. -/
def start : Fleet := ⟨History.start, fun _ => ⟨⟨∅, ∅, ∅, ∅⟩, 0, [], ∅⟩, [], []⟩

end Fleet

def fleetRuns (configs : Nat → CoordinatorConfig) : System Fleet FleetEvent where
  start fleet := fleet = Fleet.start
  step fleet event next := fleet.step configs event = some next

/-- A leader is delivered only to the shard that it leads. -/
def Undiverted (fleet : Fleet) : FleetEvent → Prop
  | .command command => Bounded fleet.history command
  | .deliver proposal =>
    ∀ pm ∈ fleet.history.current.partitions.lookup ⟨proposal.cmd.topic, proposal.cmd.partitionID⟩,
      pm.shardID = proposal.shardID
  | _ => True

instance (fleet : Fleet) : (event : FleetEvent) → Decidable (Undiverted fleet event)
  | .command _ => inferInstanceAs (Decidable (Bounded _ _))
  | .deliver _ => inferInstanceAs (Decidable (∀ _ ∈ _, _))
  | .reconcile _ _ _ | .work _ _ _ | .elect _ _ _ | .beginSweep _ _ | .visit _ _ _ => .isTrue trivial

/-- The advertised leader led the shard of the partition in the advertised term, and it is one of the replicas. -/
def RightlyLed (elections : List Election) (pm : PartitionMeta) : Prop :=
  0 < pm.leaderEpoch → (∃ election ∈ elections, election.shardID = pm.shardID ∧ election.leaderID = pm.leaderNodeID ∧
    (election.term : Int) = pm.leaderEpoch) ∧ pm.leaderNodeID ∈ pm.replicaNodeIDs

/-- A node works only on shards that had a replica on it. -/
structure Acquainted (config : CoordinatorConfig) (history : History) (broker : Broker) : Prop where
  workers : ∀ worker ∈ broker.workers, Known config history worker.shardID worker.info
  running : ∀ shardID info, broker.node.runningShards.lookup shardID = some info → Known config history shardID info
  hosted : ∀ shardID ∈ broker.node.hosted, ∃ info, Known config history shardID info

section
variable {config : CoordinatorConfig} {history : History} {broker : Broker}

theorem Acquainted.apply (acquainted : Acquainted config history broker) (command : MetadataCommand) :
    Acquainted config (history.apply command) broker := by
  refine ⟨?_, ?_, ?_⟩
  · intro worker member
    exact (acquainted.workers worker member).apply command
  · intro shardID info found
    exact (acquainted.running shardID info found).apply command
  · intro shardID member
    obtain ⟨info, known⟩ := acquainted.hosted shardID member
    exact ⟨info, known.apply command⟩

theorem Acquainted.reconcile (acquainted : Acquainted config history broker) (listAt : Option Nat)
    (readAt : String → Option Nat) : Acquainted config history { broker with workers := broker.workers +
      (reconcileOnce config (historyReads history listAt readAt) broker.node.runningShards).workers } := by
  refine ⟨?_, acquainted.running, acquainted.hosted⟩
  intro worker member
  rcases Multiset.mem_add.mp member with old | new
  · exact acquainted.workers worker old
  · rcases mem_reconcile_workers new with ⟨shardID, info, rfl, known⟩ | ⟨shardID, info, rfl, running⟩
    · exact known
    · exact acquainted.running shardID info running

/-- A worker keeps its shard in every step. -/
theorem step_worker {fails : Bool} {node : Node} {worker left : Worker}
    (some : (worker.step config fails node).2 = some left) :
    left.shardID = worker.shardID ∧ left.info = worker.info := by
  cases worker with
  | startShard shardID info next =>
    cases next with
    | launch =>
      simp only [Worker.step] at some
      split at some
      · cases some
      · cases some
        exact ⟨rfl, rfl⟩
    | register =>
      cases some
      exact ⟨rfl, rfl⟩
    | record => cases some
  | stopShard shardID info next =>
    cases next with
    | removeAll => cases some
    | _ =>
      cases some
      exact ⟨rfl, rfl⟩

/-- Only the shard of the worker is new after its step. -/
theorem step_node {fails : Bool} {node : Node} {worker : Worker} :
    (∀ shardID ∈ (worker.step config fails node).1.hosted, shardID ∈ node.hosted ∨ shardID = worker.shardID) ∧
      ∀ shardID info, (worker.step config fails node).1.runningShards.lookup shardID = some info →
        node.runningShards.lookup shardID = some info ∨ (shardID = worker.shardID ∧ info = worker.info) := by
  cases worker with
  | startShard id other next =>
    cases next with
    | launch =>
      simp only [Worker.step]
      split
      · exact ⟨fun _ member => .inl member, fun _ _ found => .inl found⟩
      · refine ⟨?_, fun _ _ found => .inl found⟩
        intro shardID member
        exact (Finset.mem_insert.mp member).symm
    | register => exact ⟨fun _ member => .inl member, fun _ _ found => .inl found⟩
    | record =>
      refine ⟨fun _ member => .inl member, ?_⟩
      intro shardID info found
      by_cases same : shardID = id
      · subst same
        simp only [Worker.step, Finmap.lookup_insert] at found
        cases found
        exact .inr ⟨rfl, rfl⟩
      · simp only [Worker.step, Finmap.lookup_insert_of_ne _ same] at found
        exact .inl found
  | stopShard id other next =>
    cases next with
    | halt => exact ⟨fun _ member => .inl (Finset.mem_of_mem_erase member), fun _ _ found => .inl found⟩
    | forget =>
      refine ⟨fun _ member => .inl member, ?_⟩
      intro shardID info found
      have different : shardID ≠ id := by
        rintro rfl
        simp only [Worker.step, Finmap.lookup_erase] at found
        cases found
      simp only [Worker.step, Finmap.lookup_erase_ne different] at found
      exact .inl found
    | _ => exact ⟨fun _ member => .inl member, fun _ _ found => .inl found⟩

/-- A step of a worker leaves only known shards on the node. -/
theorem Acquainted.work (acquainted : Acquainted config history broker) {worker : Worker} {fails : Bool}
    (member : worker ∈ broker.workers) : Acquainted config history { broker with
      node := (worker.step config fails broker.node).1
      workers := broker.workers.erase worker + (worker.step config fails broker.node).2.toList } := by
  have known := acquainted.workers worker member
  obtain ⟨hosted, running⟩ := @step_node config fails broker.node worker
  refine ⟨?_, ?_, ?_⟩
  · intro other present
    rcases Multiset.mem_add.mp present with old | new
    · exact acquainted.workers other (Multiset.mem_of_mem_erase old)
    · obtain ⟨shard, info⟩ := step_worker (Option.mem_toList.mp (Multiset.mem_coe.mp new))
      rw [shard, info]
      exact known
  · intro shardID info found
    rcases running shardID info found with old | ⟨shard, same⟩
    · exact acquainted.running shardID info old
    · rw [shard, same]
      exact known
  · intro shardID present
    rcases hosted shardID present with old | shard
    · exact acquainted.hosted shardID old
    · rw [shard]
      exact ⟨worker.info, known⟩

end

/-- A command other than that of a sweep keeps a partition with its leader, or it adds one without a leader. -/
theorem update_leaders {state : MetadataState} {command : MetadataCommand} (other : assignsLeader command = false)
    {key : PartitionKey} {pm : PartitionMeta} (stored : (state.update command).1.partitions.lookup key = some pm) :
    state.partitions.lookup key = some pm ∨ pm.leaderEpoch = 0 := by
  have added {topic : String} {first : Int} {nextShardID count : Nat} {replicas : List (List Nat)}
      (found : (addPartitions state.partitions topic first nextShardID replicas count).lookup key = some pm) :
      state.partitions.lookup key = some pm ∨ pm.leaderEpoch = 0 := by
    rw [addPartitions_lookup] at found
    split at found
    · cases found
      exact .inr rfl
    · exact .inl found
  have frame := update_frame state command
  cases command with
  | assignPartitionLeader cmd => cases other
  | createTopic cmd =>
    simp only [update, roundTrip, applyCommand,
      applyCreateTopic] at stored
    repeat' split at stored
    all_goals first | exact .inl stored | exact added stored
  | alterTopicPartCount cmd =>
    simp only [update, roundTrip, applyCommand,
      applyAlterTopicPartCount] at stored
    repeat' split at stored
    all_goals first | exact .inl stored | exact added stored
  | deleteTopic cmd =>
    simp only [update, roundTrip, applyCommand,
      applyDeleteTopic] at stored
    split at stored
    · exact .inl stored
    · rw [KeyMap.lookup_eraseAll] at stored
      split at stored
      · cases stored
      · exact .inl stored
  | alterTopicRetention cmd | registerNode cmd =>
    obtain ⟨_, same⟩ := frame
    rw [same] at stored
    exact .inl stored
  | _ =>
    obtain ⟨_, _, same⟩ := frame
    rw [same] at stored
    exact .inl stored

/-- A term that is positive as a signed number is this number. -/
theorem int64_term {term : Nat} (small : term < 2 ^ 64) (positive : 0 < int64 term) : int64 term = term := by
  unfold int64 at positive ⊢
  omega

/-- Every proposal and every advertised leader comes from an election of a replica. -/
structure Led (configs : Nat → CoordinatorConfig) (fleet : Fleet) : Prop where
  recorded : Recorded fleet.history
  acquainted : ∀ place, Acquainted (configs place) fleet.history (fleet.brokers place)
  elected : ∀ election ∈ fleet.elections, election.term < 2 ^ 64 ∧ ∃ state ∈ fleet.history.states, ∃ key pm,
    state.partitions.lookup key = some pm ∧ pm.shardID = election.shardID ∧ election.leaderID ∈ pm.replicaNodeIDs
  proposed : ∀ proposal ∈ fleet.proposals, ∃ election ∈ fleet.elections, election.shardID = proposal.shardID ∧
    election.leaderID = proposal.cmd.leaderNodeID ∧ int64 election.term = proposal.cmd.leaderEpoch
  led : ∀ key pm, fleet.history.current.partitions.lookup key = some pm → RightlyLed fleet.elections pm

section
variable {configs : Nat → CoordinatorConfig} {fleet next : Fleet}

theorem Led.start : Led configs Fleet.start := by
  refine ⟨Recorded.start, ?_, ?_, ?_, ?_⟩
  · intro place
    refine ⟨?_, ?_, ?_⟩
    · intro worker member
      cases Multiset.notMem_zero worker member
    · intro shardID info found
      cases found
    · intro shardID member
      cases Finset.notMem_empty shardID member
  · intro election member
    cases member
  · intro proposal member
    cases member
  · intro key pm found
    cases found

/-- The history may grow when the partitions stay rightly led. -/
theorem Led.apply (led : Led configs fleet) {command : MetadataCommand}
    (reshaped : Reshaped fleet.history.current command (fleet.history.current.update command).1)
    (leaders : ∀ key pm, (fleet.history.current.update command).1.partitions.lookup key = some pm →
      RightlyLed fleet.elections pm) :
    Led configs { fleet with history := fleet.history.apply command } := by
  refine ⟨led.recorded.reshaped reshaped, ?_, ?_, led.proposed, leaders⟩
  · intro place
    exact (led.acquainted place).apply command
  · intro election member
    obtain ⟨small, state, inside, facts⟩ := led.elected election member
    exact ⟨small, state, List.mem_append_left _ inside, facts⟩

theorem Led.setBroker (led : Led configs fleet) {place : Nat} {broker : Broker}
    (acquainted : Acquainted (configs place) fleet.history broker) : Led configs (fleet.setBroker place broker) := by
  refine ⟨led.recorded, ?_, led.elected, led.proposed, led.led⟩
  intro other
  by_cases same : other = place
  · subst same
    simp only [Fleet.setBroker, Function.update_self]
    exact acquainted
  · simp only [Fleet.setBroker, Function.update_of_ne same]
    exact led.acquainted other

theorem Led.elect (led : Led configs fleet) {place shardID term : Nat}
    (may : fleet.MayLead (configs place) place shardID term) :
    Led configs { fleet with elections := fleet.elections ++ [⟨shardID, (configs place).nodeID, term⟩] } := by
  obtain ⟨hosted, small, _⟩ := may
  refine ⟨led.recorded, led.acquainted, ?_, ?_, ?_⟩
  · intro election member
    rcases List.mem_append.mp member with old | new
    · exact led.elected election old
    · rw [List.mem_singleton.mp new]
      obtain ⟨info, state, inside, key, pm, stored, replica, shard, _⟩ := (led.acquainted place).hosted shardID hosted
      exact ⟨small, state, inside, key, pm, stored, shard, replica⟩
  · intro proposal member
    obtain ⟨election, old, facts⟩ := led.proposed proposal member
    exact ⟨election, List.mem_append_left _ old, facts⟩
  · intro key pm stored positive
    obtain ⟨⟨election, old, facts⟩, replica⟩ := led.led key pm stored positive
    exact ⟨⟨election, List.mem_append_left _ old, facts⟩, replica⟩

/-- A proposed leader is the one of the answer. -/
theorem proposeLeader_some {lastKnownLeader : KeyMap Nat LeaderRecord} {shardID : Nat} {info : ShardInfo}
    {answer : Option LeaderAnswer} {cmd : AssignPartitionLeaderCmd}
    (proposed : proposeLeader lastKnownLeader shardID info answer = some cmd) :
    ∃ given, answer = some given ∧ given.valid ∧
      cmd = ⟨info.topic, info.partitionID, given.leaderID, int64 given.term⟩ := by
  cases answer with
  | none => cases proposed
  | some given =>
    simp only [proposeLeader] at proposed
    split at proposed
    · cases proposed
    · next fresh =>
      cases proposed
      exact ⟨given, rfl, by simpa using (not_or.mp fresh).1, rfl⟩

theorem Led.visit (led : Led configs fleet) {place shardID : Nat} {info : ShardInfo} {rest : List (Nat × ShardInfo)}
    {answer : Option LeaderAnswer} {accepted : Bool} (genuine : fleet.Genuine shardID answer) :
    Led configs (fleet.visit place shardID info rest answer accepted) := by
  have here := led.acquainted place
  unfold Fleet.visit
  simp only
  split
  · exact led.setBroker ⟨here.workers, here.running, here.hosted⟩
  · next cmd proposed =>
    obtain ⟨given, rfl, valid, rfl⟩ := proposeLeader_some proposed
    have set := @Led.setBroker configs fleet led place { fleet.brokers place with
      sweep := rest
      lastKnownLeader := recordLeader (fleet.brokers place).lastKnownLeader shardID (some given) accepted }
      ⟨here.workers, here.running, here.hosted⟩
    refine ⟨set.recorded, set.acquainted, set.elected, ?_, set.led⟩
    intro proposal member
    rcases List.mem_append.mp member with old | new
    · exact led.proposed proposal old
    · rw [List.mem_singleton.mp new]
      exact ⟨_, genuine given rfl valid, rfl, rfl, rfl⟩

/-- A leader that reaches its own shard is rightly advertised. -/
theorem Led.deliver (led : Led configs fleet) {proposal : LeaderProposal} (member : proposal ∈ fleet.proposals)
    (undiverted : Undiverted fleet (.deliver proposal)) (key : PartitionKey) (pm : PartitionMeta)
    (stored : (fleet.history.current.update (.assignPartitionLeader proposal.cmd)).1.partitions.lookup key = some pm) :
    RightlyLed fleet.elections pm := by
  simp only [update, roundTrip, applyCommand,
    applyAssignPartitionLeader] at stored
  split at stored
  · exact led.led key pm stored
  next partition found =>
  split at stored
  · exact led.led key pm stored
  by_cases same : key = ⟨proposal.cmd.topic, proposal.cmd.partitionID⟩
  · subst same
    rw [Finmap.lookup_insert] at stored
    cases stored
    intro positive
    obtain ⟨election, elected, shard, leader, term⟩ := led.proposed proposal member
    obtain ⟨small, state, inside, other, also, before, own, replica⟩ := led.elected election elected
    have shards : partition.shardID = proposal.shardID := undiverted partition found
    obtain ⟨_, identity⟩ := led.recorded.same_partition inside fleet.history.current_mem before found
      (own.trans (shard.trans shards.symm))
    have replicas : also.replicaNodeIDs = partition.replicaNodeIDs := congrArg (fun part => part.2.2.2) identity
    rw [leader, replicas] at replica
    rw [← term] at positive
    refine ⟨⟨election, elected, shard.trans shards.symm, leader, ?_⟩, replica⟩
    rw [← term, int64_term small positive]
  · rw [Finmap.lookup_insert_of_ne _ same] at stored
    exact led.led key pm stored

/-- Every event keeps the leaders elected when no report goes to another shard. -/
theorem Led.step {event : FleetEvent} (led : Led configs fleet) (undiverted : Undiverted fleet event)
    (moved : fleet.step configs event = some next) : Led configs next := by
  cases event with
  | command command =>
    simp only [Fleet.step] at moved
    split at moved
    · cases moved
    next other =>
    cases moved
    have structured := led.recorded.structured _ fleet.history.current_mem
    refine led.apply (update_reshaped undiverted structured.nonneg) ?_
    intro key pm stored
    rcases update_leaders (by simpa using other) stored with old | none
    · exact led.led key pm old
    · intro positive
      omega
  | reconcile place listAt readAt =>
    cases moved
    exact led.setBroker ((led.acquainted place).reconcile listAt readAt)
  | work place worker fails =>
    simp only [Fleet.step] at moved
    split at moved
    · next member =>
      cases moved
      exact led.setBroker ((led.acquainted place).work member)
    · cases moved
  | elect place shardID term =>
    simp only [Fleet.step] at moved
    split at moved
    · next may =>
      cases moved
      exact led.elect may
    · cases moved
  | beginSweep place visited =>
    cases moved
    have here := led.acquainted place
    exact led.setBroker ⟨here.workers, here.running, here.hosted⟩
  | visit place answer accepted =>
    simp only [Fleet.step] at moved
    split at moved
    · cases moved
    · split at moved
      · next genuine =>
        cases moved
        exact led.visit genuine
      · cases moved
  | deliver proposal =>
    simp only [Fleet.step] at moved
    split at moved
    · next member =>
      cases moved
      have applied := led.apply (.kept (keeps_other rfl)) (led.deliver member undiverted)
      refine ⟨applied.recorded, applied.acquainted, applied.elected, ?_, applied.led⟩
      intro other left
      exact led.proposed other (List.mem_of_mem_erase left)
    · cases moved

end

/-- Every advertised leader led the shard of its partition in the advertised term and is one of its replicas, when
no leader is delivered to another shard than its own. -/
theorem leaders_of_own_shard (configs : Nat → CoordinatorConfig) (fleet : Fleet)
    (reached : (fleetRuns configs).Reaches Undiverted fleet) (key : PartitionKey) (pm : PartitionMeta)
    (stored : fleet.history.current.partitions.lookup key = some pm) : RightlyLed fleet.elections pm := by
  have led : Led configs fleet := by
    refine @System.Reaches.invariant _ _ _ _ (Led configs) ?_ ?_ _ reached
    · rintro fleet rfl
      exact Led.start
    · intro fleet event next led undiverted moved
      exact led.step undiverted moved
  exact led.led key pm stored

/-- The first node starts the shard of a new topic, wins term five and finds itself in its sweep. -/
def electAudit : List FleetEvent :=
  [.command (.createTopic ⟨"audit", 1, 1, 0, 0, 0, [[1]]⟩), .reconcile 0 (some 1) (fun _ => some 1),
    .work 0 (.startShard 1 auditShard .launch) false, .work 0 (.startShard 1 auditShard .register) false,
    .work 0 (.startShard 1 auditShard .record) false, .elect 0 1 5, .beginSweep 0 [1],
    .visit 0 (some ⟨1, 5, true⟩) false]

def deliverAudit : FleetEvent := .deliver ⟨1, ⟨"audit", 0, 1, 5⟩⟩

def firstConfigs : Nat → CoordinatorConfig := fun place => { firstNode with nodeID := place + 1 }

def advertisedFleet : Fleet :=
  (follow (Fleet.step firstConfigs) Fleet.start (electAudit ++ [deliverAudit])).get (by decide +kernel)

theorem leaders_of_own_shard_after_sweep :
    follow (Fleet.step firstConfigs) Fleet.start (electAudit ++ [deliverAudit]) = some advertisedFleet ∧
      advertisedFleet.history.current.partitions.lookup ⟨"audit", 0⟩ = some ⟨"audit", 0, 1, [1], 1, 5⟩ ∧
      RightlyLed advertisedFleet.elections ⟨"audit", 0, 1, [1], 1, 5⟩ := by
  have followed : follow (Fleet.step firstConfigs) Fleet.start (electAudit ++ [deliverAudit]) = some advertisedFleet :=
    (Option.some_get _).symm
  have reached : (fleetRuns firstConfigs).Reaches Undiverted advertisedFleet :=
    System.Reaches.run rfl
      (by decide +kernel : permits _ Undiverted _ _) followed
  have stored : advertisedFleet.history.current.partitions.lookup ⟨"audit", 0⟩ =
      some ⟨"audit", 0, 1, [1], 1, 5⟩ := by decide +kernel
  exact ⟨followed, stored, leaders_of_own_shard firstConfigs advertisedFleet reached _ _ stored⟩

/-- The topic is created again on the second node before the command of the first one arrives. -/
def moveAudit : List FleetEvent :=
  [.command (.deleteTopic ⟨"audit"⟩), .command (.createTopic ⟨"audit", 1, 1, 0, 0, 0, [[2]]⟩)]

def divertedFleet : Fleet :=
  (follow (Fleet.step firstConfigs) Fleet.start (electAudit ++ moveAudit ++ [deliverAudit])).get (by decide +kernel)

/-- The new partition advertises the leader of the old shard, which is not one of its replicas. -/
theorem late_leader_of_old_shard :
    follow (Fleet.step firstConfigs) Fleet.start (electAudit ++ moveAudit ++ [deliverAudit]) = some divertedFleet ∧
      (fleetRuns firstConfigs).Reaches System.Free divertedFleet ∧
      divertedFleet.history.current.partitions.lookup ⟨"audit", 0⟩ = some ⟨"audit", 0, 2, [2], 1, 5⟩ ∧
      divertedFleet.elections = [⟨1, 1, 5⟩] ∧
      ¬ RightlyLed divertedFleet.elections ⟨"audit", 0, 2, [2], 1, 5⟩ := by
  have followed : follow (Fleet.step firstConfigs) Fleet.start (electAudit ++ moveAudit ++ [deliverAudit]) =
      some divertedFleet := (Option.some_get _).symm
  have reached : (fleetRuns firstConfigs).Reaches System.Free divertedFleet :=
    System.Reaches.run rfl
      (by decide +kernel : permits _ System.Free _ _) followed
  refine ⟨followed, reached, by decide +kernel, by decide +kernel, ?_⟩
  intro led
  have replica := (led (by decide)).2
  simp at replica

end BunnyMQ.Cluster
