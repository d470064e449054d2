/-
This file shows which directories a node has left when a shard is stopped.
-/

import BunnyMQ.Library.Paths
import BunnyMQ.Proof.Cluster.Registry

namespace BunnyMQ.Cluster
open Foundation Metadata Transition Paths MetadataState Multiset Finset List Option

section
variable {dir : List String} {name : String}

/-- A name without a separator is entered as a whole. -/
theorem joinPath_cons (plain : '/' ∉ name.toList) (names : List String) :
    joinPath dir (name :: names) =
      joinPath (if name = "" ∨ name = "." then dir else if name = ".." then dir.dropLast else dir ++ [name]) names := by
  unfold joinPath
  rw [List.flatMap_cons, splitOn_plain plain, List.singleton_append, List.foldl_cons]

theorem joinPath_enter (plain : '/' ∉ name.toList) (empty : name ≠ "") (stays : name ≠ ".") (leaves : name ≠ "..")
    (names : List String) : joinPath dir (name :: names) = joinPath (dir ++ [name]) names := by
  rw [joinPath_cons plain, if_neg (not_or.mpr ⟨empty, stays⟩), if_neg leaves]

theorem joinPath_partitions (names : List String) :
    joinPath dir ("partitions" :: names) = joinPath (dir ++ ["partitions"]) names :=
  joinPath_enter (by decide) (by decide) (by decide) (by decide) names

theorem joinPath_number (n : Int) : joinPath dir [toString n] = dir ++ [toString n] := by
  have plain := notMem_toString_int (c := '/') (by decide) (by decide) n
  have other : ∀ name : String, '.' ∈ name.toList → toString n ≠ name :=
    fun name member => toString_int_ne (by decide) (by decide) member
  exact joinPath_enter plain (toString_int_ne_empty n) (other _ (by decide)) (other _ (by decide)) []

end

section
variable {dataDir : List String} {topic : String}

theorem shardName_toList (shardID : Nat) :
    s!"shard-{shardID}".toList = "shard-".toList ++ (toString shardID).toList := by
  change ("shard-" ++ toString shardID).toList = _
  rw [String.toList_append]

/-- The directory of a shard lies in that of all partitions. -/
theorem shardDir_eq (shardID : Nat) : shardDir dataDir shardID = dataDir ++ ["partitions", s!"shard-{shardID}"] := by
  have begins : 's' ∈ s!"shard-{shardID}".toList := by
    rw [shardName_toList]
    exact mem_append_left _ (by decide)
  have other : ∀ name : String, 's' ∉ name.toList → s!"shard-{shardID}" ≠ name := by
    rintro name absent rfl
    exact absent begins
  have plain : '/' ∉ s!"shard-{shardID}".toList := by
    rw [shardName_toList]
    intro member
    rcases mem_append.mp member with letter | digit
    · revert letter
      decide
    · have isDigit := isDigit_of_mem_toString digit
      revert isDigit
      decide
  rw [shardDir, joinPath_partitions,
    joinPath_enter plain (other _ (by decide)) (other _ (by decide)) (other _ (by decide))]
  change dataDir ++ ["partitions"] ++ [_] = _
  rw [append_assoc]
  rfl

/-- A valid name has no separator and is not empty. -/
theorem topicNameRe_plain (valid : topicNameRe topic) : '/' ∉ topic.toList ∧ topic ≠ "" := by
  unfold topicNameRe at valid
  simp only [decide_eq_true_eq] at valid
  obtain ⟨present, _, letters⟩ := valid
  constructor
  · intro member
    have letter := all_eq_true.mp letters '/' member
    revert letter
    decide
  · rintro rfl
    exact absurd present (by decide)

/-- What a stopped shard removes is no part of a path to the directory of a shard. -/
theorem partitionDir_not_prefix (valid : topicNameRe topic) (partitionID : Int) (shardID : Nat) :
    ¬ partitionDir dataDir topic partitionID <+: shardDir dataDir shardID := by
  obtain ⟨plain, present⟩ := topicNameRe_plain valid
  rw [shardDir_eq, partitionDir, joinPath_partitions]
  by_cases stays : topic = "."
  · -- The number of the partition stands in the place of the shard's name.
    rw [joinPath_cons plain, if_pos (.inr stays), joinPath_number, append_assoc, prefix_append_right_inj]
    intro shorter
    have name := (cons_prefix_cons.mp (cons_prefix_cons.mp shorter).2).1
    refine toString_int_ne (c := 's') (by decide) (by decide) ?_ name
    rw [shardName_toList]
    exact mem_append_left _ (by decide)
  · by_cases leaves : topic = ".."
    · rw [joinPath_cons plain, if_neg (not_or.mpr ⟨present, stays⟩), if_pos leaves, dropLast_concat, joinPath_number,
        prefix_append_right_inj]
      intro shorter
      exact toString_int_ne (c := 'p') (by decide) (by decide) (by decide) (cons_prefix_cons.mp shorter).1
    · rw [joinPath_enter plain present stays leaves, joinPath_number, append_assoc, append_assoc,
        prefix_append_right_inj]
      intro shorter
      have length := shorter.length_le
      simp only [length_append, length_cons, length_nil] at length
      omega

end

/-- The topics and the partitions have names that `CreateTopic` accepts. -/
structure ValidNames (state : MetadataState) : Prop where
  topics : ∀ name tm, state.topics.lookup name = some tm → topicNameRe name
  partitions : ∀ key pm, state.partitions.lookup key = some pm → topicNameRe pm.topic

/-- A topic is created with a valid name. -/
def CreatesValid : MetadataCommand → Prop
  | .createTopic cmd => topicNameRe cmd.name
  | _ => True

instance : DecidablePred CreatesValid
  | .createTopic cmd => inferInstanceAs (Decidable (topicNameRe cmd.name = true))
  | .deleteTopic _ | .alterTopicPartCount _ | .alterTopicRetention _ | .registerNode _ | .assignPartitionLeader _
  | .joinConsumerGroup _ | .leaveConsumerGroup _ | .heartbeatConsumerGroup _ | .commitConsumerOffset _
  | .rebalanceConsumerGroup _ | .unknown => .isTrue trivial

/-- The coordinator proposes only such commands. -/
theorem createTopic_createsValid {listNodes : Except LookupError (List NodeInfo)} {name : String}
    {partitionCount replicationFactor : Int} {configOverrides : TopicConfigOverrides} {now : Int} {cmd : CreateTopicCmd}
    (created : createTopic listNodes name partitionCount replicationFactor configOverrides now = .ok cmd) :
    CreatesValid (.createTopic cmd) := by
  unfold createTopic at created
  split at created
  · cases created
  next valid =>
  split at created
  · cases created
  split at created
  · cases created
  split at created
  · cases created
  split at created
  · cases created
  split at created
  · cases created
  · cases created
    exact not_not.mp valid

section
variable {state : MetadataState}

theorem ValidNames.initial : ValidNames MetadataState.initial := ⟨nofun, nofun⟩

theorem addPartitions_valid {partitions : KeyMap PartitionKey PartitionMeta} {topic : String}
    (valid : topicNameRe topic)
    (others : ∀ key pm, partitions.lookup key = some pm → topicNameRe pm.topic) (first : Int) (nextShardID : Nat)
    (replicas : List (List Nat)) (count : Nat) (key : PartitionKey) (pm : PartitionMeta)
    (found : (addPartitions partitions topic first nextShardID replicas count).lookup key = some pm) :
    topicNameRe pm.topic := by
  rw [addPartitions_lookup] at found
  split at found
  · cases found
    exact valid
  · exact others key pm found

theorem ValidNames.of_keeps {next : MetadataState} (names : ValidNames state) (keeps : Keeps state next) :
    ValidNames next := by
  constructor
  · intro name tm found
    have same := keeps.topics name
    rw [found, map_some] at same
    obtain ⟨old, before, _⟩ := map_eq_some_iff.mp same.symm
    exact names.topics name old before
  · intro key pm found
    have same := keeps.partitions key
    rw [found, map_some] at same
    obtain ⟨old, before, identity⟩ := map_eq_some_iff.mp same.symm
    have topic : old.topic = pm.topic := congrArg Prod.fst identity
    rw [← topic]
    exact names.partitions key old before

/-- Commands that create topics with valid names keep the names valid. -/
theorem ValidNames.applyCommand (names : ValidNames state) {command : MetadataCommand} (valid : CreatesValid command) :
    ValidNames (state.applyCommand command).1 := by
  cases command with
  | createTopic cmd =>
    simp only [MetadataState.applyCommand, applyCreateTopic]
    split
    · exact names
    split
    · exact names
    split
    · exact names
    · exact ⟨KeyMap.forall_insert names.topics valid, addPartitions_valid valid names.partitions _ _ _ _⟩
  | deleteTopic cmd =>
    simp only [MetadataState.applyCommand, applyDeleteTopic]
    split
    · exact names
    · refine ⟨KeyMap.forall_erase names.topics cmd.name, ?_⟩
      intro key pm found
      rw [KeyMap.lookup_eraseAll fun (i : Nat) => PartitionKey.mk cmd.name i] at found
      split at found
      · cases found
      · exact names.partitions key pm found
  | alterTopicPartCount cmd =>
    simp only [MetadataState.applyCommand, applyAlterTopicPartCount]
    split
    · exact names
    next tm found =>
    have own := names.topics cmd.name tm found
    split
    · exact names
    · exact ⟨KeyMap.forall_insert names.topics own, addPartitions_valid own names.partitions _ _ _ _⟩
  | _ => exact names.of_keeps (keeps_applyCommand rfl)

theorem CreatesValid.roundTrip {command : MetadataCommand} (valid : CreatesValid command) :
    CreatesValid command.roundTrip := by
  cases command with
  | createTopic cmd => exact valid
  | _ => trivial

end

def Worker.launched : Worker → Bool
  | .startShard _ _ .launch => false
  | _ => true

/-- The node creates its topics with valid names. -/
def Checked (_ : ClusterRun) : ClusterEvent → Prop
  | .command command => CreatesValid command
  | _ => True

instance (run : ClusterRun) : (event : ClusterEvent) → Decidable (Checked run event)
  | .command command => inferInstanceAs (Decidable (CreatesValid command))
  | .reconcile _ _ | .work _ _ | .lookup _ _ _ | .route _ => .isTrue trivial

/-- The topic of the worker has a valid name, and a launched shard its directory. -/
structure HasDirectory (dataDir : List String) (directories : Finset (List String)) (worker : Worker) : Prop where
  valid : topicNameRe worker.info.topic
  launched : worker.launched → shardDir dataDir worker.shardID ∈ directories

/-- Every directory is that of a shard, and every shard that was launched has its own. -/
structure Stored (config : CoordinatorConfig) (run : ClusterRun) : Prop where
  names : ∀ state ∈ run.history.states, ValidNames state
  shaped : ∀ dir ∈ run.node.directories, ∃ shardID, dir = shardDir config.dataDir shardID
  hosted : ∀ shardID ∈ run.node.hosted, shardDir config.dataDir shardID ∈ run.node.directories
  running : ∀ shardID info, run.node.runningShards.lookup shardID = some info →
    topicNameRe info.topic ∧ shardDir config.dataDir shardID ∈ run.node.directories
  workers : ∀ worker ∈ run.workers, HasDirectory config.dataDir run.node.directories worker

section
variable {config : CoordinatorConfig} {run : ClusterRun}

section
variable (stored : Stored config run)
include stored

/-- A stopped shard removes no directory of a shard. -/
theorem Stored.filter_eq (topic : String) (valid : topicNameRe topic) (partitionID : Int) :
    (run.node.directories.filter fun dir => ¬ partitionDir config.dataDir topic partitionID <+: dir) =
      run.node.directories := by
  refine filter_true_of_mem ?_
  intro dir member
  obtain ⟨shardID, rfl⟩ := stored.shaped dir member
  exact partitionDir_not_prefix valid partitionID shardID

/-- A worker that goes on over the same directories leaves everything stored. -/
theorem Stored.goOn (worker : Worker) {registry : ShardRegistry} {runningShards : KeyMap Nat ShardInfo}
    {hosted : Finset Nat} {left : Option Worker} (keeps : ∀ shardID ∈ hosted, shardID ∈ run.node.hosted)
    (running : ∀ shardID info, runningShards.lookup shardID = some info →
      topicNameRe info.topic ∧ shardDir config.dataDir shardID ∈ run.node.directories)
    (next : ∀ other ∈ left, HasDirectory config.dataDir run.node.directories other) :
    Stored config { run with
      node := ⟨registry, runningShards, hosted, run.node.directories⟩
      workers := run.workers.erase worker + (left.toList : Multiset Worker) } := by
  refine ⟨stored.names, stored.shaped, fun shardID member => stored.hosted shardID (keeps shardID member), running, ?_⟩
  intro other member
  rcases mem_add.mp member with old | new
  · exact stored.workers other (mem_of_mem_erase old)
  · exact next other (mem_toList.mp (mem_coe.mp new))

/-- A launched shard gets its directory. -/
theorem Stored.launch {shardID : Nat} {info : ShardInfo} (valid : topicNameRe info.topic) :
    Stored config { run with
      node := { run.node with
        hosted := insert shardID run.node.hosted
        directories := insert (shardDir config.dataDir shardID) run.node.directories }
      workers := run.workers.erase (.startShard shardID info .launch) +
        ((some (Worker.startShard shardID info .register)).toList : Multiset Worker) } := by
  refine ⟨stored.names, ?_, ?_, ?_, ?_⟩
  · intro dir member
    rcases mem_insert.mp member with rfl | old
    · exact ⟨shardID, rfl⟩
    · exact stored.shaped dir old
  · intro other member
    rcases mem_insert.mp member with rfl | old
    · exact mem_insert_self _ _
    · exact mem_insert_of_mem (stored.hosted other old)
  · intro other otherInfo found
    obtain ⟨named, held⟩ := stored.running other otherInfo found
    exact ⟨named, mem_insert_of_mem held⟩
  · intro worker member
    rcases mem_add.mp member with old | new
    · obtain ⟨named, held⟩ := stored.workers worker (mem_of_mem_erase old)
      exact ⟨named, fun launched => mem_insert_of_mem (held launched)⟩
    · obtain rfl := some.inj (mem_toList.mp (mem_coe.mp new))
      exact ⟨valid, fun _ => mem_insert_self _ _⟩

/-- A step of a worker keeps the directories of the launched shards. -/
theorem Stored.work {worker : Worker} (member : worker ∈ run.workers) (fails : Bool) :
    Stored config (run.work config worker fails) := by
  obtain ⟨valid, held⟩ := stored.workers worker member
  cases worker with
  | startShard shardID info next =>
    cases next with
    | launch =>
      by_cases refused : fails ∨ shardID ∈ run.node.hosted
      · simp only [ClusterRun.work, Worker.step, if_pos refused]
        exact stored.goOn _ (fun _ member => member) stored.running (fun _ left => by cases left)
      · simp only [ClusterRun.work, Worker.step, if_neg refused]
        exact stored.launch valid
    | register =>
      refine stored.goOn _ (fun _ member => member) stored.running ?_
      rintro _ ⟨⟩
      exact ⟨valid, fun _ => held rfl⟩
    | record =>
      exact stored.goOn _ (fun _ member => member) (KeyMap.forall_insert stored.running ⟨valid, held rfl⟩)
        (fun _ left => by cases left)
  | stopShard shardID info next =>
    cases next with
    | unregister =>
      refine stored.goOn _ (fun _ member => member) stored.running ?_
      rintro _ ⟨⟩
      exact ⟨valid, fun _ => held rfl⟩
    | halt =>
      refine stored.goOn _ (fun _ member => Finset.mem_of_mem_erase member) stored.running ?_
      rintro _ ⟨⟩
      exact ⟨valid, fun _ => held rfl⟩
    | forget =>
      refine stored.goOn _ (fun _ member => member) (KeyMap.forall_erase stored.running shardID) ?_
      rintro _ ⟨⟩
      exact ⟨valid, fun _ => held rfl⟩
    | removeAll =>
      simp only [ClusterRun.work, Worker.step]
      rw [stored.filter_eq info.topic valid]
      exact stored.goOn _ (fun _ member => member) stored.running (fun _ left => by cases left)

theorem Stored.reconcile (listAt : Option Nat) (readAt : String → Option Nat) :
    Stored config (run.reconcile config (historyReads run.history listAt readAt)) := by
  refine ⟨stored.names, stored.shaped, stored.hosted, stored.running, ?_⟩
  intro worker member
  rcases mem_add.mp member with old | new
  · exact stored.workers worker old
  · rcases mem_reconcile_workers (mem_coe.mp new) with ⟨shardID, info, rfl, known⟩ | ⟨shardID, info, rfl, running⟩
    · obtain ⟨state, here, key, pm, found, _, _, rfl⟩ := known
      exact ⟨(stored.names state here).partitions key pm found, nofun⟩
    · obtain ⟨valid, held⟩ := stored.running shardID info running
      exact ⟨valid, fun _ => held⟩

theorem Stored.command {command : MetadataCommand} (valid : CreatesValid command) :
    Stored config { run with history := run.history.apply command } := by
  refine ⟨?_, stored.shaped, stored.hosted, stored.running, stored.workers⟩
  intro state member
  rcases mem_append.mp member with old | new
  · exact stored.names state old
  · rw [List.mem_singleton.mp new]
    exact (stored.names run.history.current (mem_append_right _ mem_cons_self)).applyCommand valid.roundTrip

/-- Every event with checked names keeps the directories. -/
theorem Stored.step {event : ClusterEvent} (checked : Checked run event) {next : ClusterRun}
    (moved : run.step config event = some next) : Stored config next := by
  cases event with
  | command command =>
    cases moved
    exact stored.command checked
  | reconcile listAt readAt =>
    cases moved
    exact stored.reconcile listAt readAt
  | work worker fails =>
    obtain ⟨member, moved⟩ := ite_none_right_eq_some.mp moved
    cases moved
    exact stored.work member fails
  | lookup topic partitionID readAt =>
    obtain ⟨state, _, rfl⟩ := map_eq_some_iff.mp moved
    unfold ClusterRun.lookup
    split
    · exact ⟨stored.names, stored.shaped, stored.hosted, stored.running, stored.workers⟩
    · exact stored
  | route check =>
    obtain ⟨_, moved⟩ := ite_none_right_eq_some.mp moved
    cases moved
    exact ⟨stored.names, stored.shaped, stored.hosted, stored.running, stored.workers⟩

end

theorem Stored.reached (reached : (clusterRuns config).Reaches Checked run) : Stored config run := by
  refine @System.Reaches.invariant _ _ _ _ (Stored config) ?_ ?_ _ reached
  · rintro _ rfl
    refine ⟨?_, nofun, nofun, nofun, nofun⟩
    intro state member
    rw [List.mem_singleton.mp member]
    exact .initial
  · intro before event after stored checked moved
    exact stored.step checked moved

/-- The directory of a stopped shard stays. -/
theorem Stored.left_behind (stored : Stored config run) {shardID : Nat} {info : ShardInfo}
    (stops : .stopShard shardID info .removeAll ∈ run.workers) (fails : Bool) :
    shardDir config.dataDir shardID ∈
      (run.work config (.stopShard shardID info .removeAll) fails).node.directories := by
  obtain ⟨valid, held⟩ := stored.workers _ stops
  change shardDir config.dataDir shardID ∈ run.node.directories.filter _
  rw [stored.filter_eq info.topic valid]
  exact held rfl

end

/-- In every run of topics that are created, deleted and created again a completed stop frees the directory of its
shard in no case. No shard that is hosted or recorded as running has lost its directory. -/
theorem stop_frees_directory_iff (config : CoordinatorConfig) (run : ClusterRun)
    (reached : (clusterRuns config).Reaches Checked run) :
    ((∀ shardID info fails, .stopShard shardID info .removeAll ∈ run.workers →
        shardDir config.dataDir shardID ∉
          (run.work config (.stopShard shardID info .removeAll) fails).node.directories) ↔
      ∀ shardID info, .stopShard shardID info .removeAll ∉ run.workers) ∧
    ∀ shardID, shardID ∈ run.node.hosted ∨ shardID ∈ run.node.runningShards →
      shardDir config.dataDir shardID ∈ run.node.directories := by
  have stored := Stored.reached reached
  refine ⟨⟨?_, ?_⟩, ?_⟩
  · intro frees shardID info stops
    exact frees shardID info false stops (stored.left_behind stops false)
  · intro none shardID info fails stops
    exact absurd stops (none shardID info)
  · rintro shardID (hosted | running)
    · exact stored.hosted shardID hosted
    · obtain ⟨info, found⟩ := Finmap.mem_iff.mp running
      exact (stored.running shardID info found).2

/-- The topic was created again, its new shard runs, and the stop of the old one has only the directory left. -/
def almostStopped : ClusterRun :=
  (follow (ClusterRun.step firstNode) ClusterRun.start (recreateAudit ++ startNewAudit ++ stopOldAudit.dropLast)).get
    (by decide +kernel)

theorem almostStopped_reached : (clusterRuns firstNode).Reaches Checked almostStopped :=
  System.Reaches.run rfl
    (by decide +kernel : permits (ClusterRun.step firstNode) Checked ClusterRun.start
      (recreateAudit ++ startNewAudit ++ stopOldAudit.dropLast)) (some_get _).symm

theorem stop_frees_directory_iff_of_audit :
    shardDir firstNode.dataDir 2 ∈ almostStopped.node.directories ∧
      ¬ ∀ shardID info fails, .stopShard shardID info .removeAll ∈ almostStopped.workers →
        shardDir firstNode.dataDir shardID ∉
          (almostStopped.work firstNode (.stopShard shardID info .removeAll) fails).node.directories := by
  have law := stop_frees_directory_iff firstNode almostStopped almostStopped_reached
  refine ⟨law.2 2 (.inl (by decide +kernel)), ?_⟩
  intro frees
  exact law.1.mp frees 1 auditShard (by decide +kernel)

/-- The stop of the old shard completes, and its directory is still there. What was removed is another path. -/
theorem stopped_shard_leaves_directory :
    (clusterRuns firstNode).Reaches Checked almostStopped ∧ .stopShard 1 auditShard .removeAll ∈ almostStopped.workers ∧
      partitionDir firstNode.dataDir "audit" 0 = firstNode.dataDir ++ ["partitions", "audit", "0"] ∧
      firstNode.dataDir ++ ["partitions", "shard-1"] ∈
        (almostStopped.work firstNode (.stopShard 1 auditShard .removeAll) false).node.directories := by
  have stops : .stopShard 1 auditShard .removeAll ∈ almostStopped.workers := by decide +kernel
  have stays := (Stored.reached almostStopped_reached).left_behind stops false
  rw [shardDir_eq] at stays
  refine ⟨almostStopped_reached, stops, ?_, stays⟩
  rw [partitionDir, joinPath_partitions, joinPath_enter (by decide) (by decide) (by decide) (by decide),
    joinPath_number, append_assoc, append_assoc]
  rfl

end BunnyMQ.Cluster
