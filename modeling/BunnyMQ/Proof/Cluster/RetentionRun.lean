/-
This file shows when the replicas of a topic enforce the retention that its metadata holds.
-/

import BunnyMQ.Proof.Cluster.ClusterRun
import BunnyMQ.Proof.Partition.Settings
import BunnyMQ.Proof.Storage.Progress

namespace BunnyMQ.Cluster
open Foundation Transition FileStore Storage Metadata BunnyMQ.Partition MetadataState MetadataCommand Finmap List
variable {shardID nodeID : Nat} {disk : StorageDisk} {fsm : PartitionFSM} {index : UInt64}
  {ops : List (FileOp FileName)} {rc : RetentionConfigPayload}

/-- A running replica has its directory and its state machine. -/
structure Replica where
  disk : StorageDisk
  fsm : PartitionFSM
  deriving DecidableEq

/-- The metadata, the settings on their way to a shard, the Raft log of each shard, and the running replicas by node
and shard. -/
structure RetentionCluster where
  metadata : MetadataState
  pending : List (Nat × RetentionConfigPayload)
  logs : Nat → List Entry
  replicas : KeyMap (Nat × Nat) Replica

inductive RetentionEvent where
  | createTopic (name : String) (partitionCount replicationFactor : Int) (configOverrides : TopicConfigOverrides)
      (now : Int)
  | alterTopicPartitionCount (name : String) (newCount : Int)
  | alterTopicRetention (name : String) (retentionMs retentionBytes : Int)
  | propose (place : Nat) (index : UInt64)
  | produce (shardID : Nat) (index : UInt64) (batch : Bytes)
  | openReplica (nodeID shardID : Nat) (left : StorageDisk)
  | update (nodeID shardID : Nat) (count : Nat)

/-- Raft hands these entries to a state machine that has applied the index. -/
def behind (index : UInt64) (log : List Entry) : List Entry := log.filter fun entry => index < entry.index

/-- The settings that are on their way to one shard. -/
def pendingOf (pending : List (Nat × RetentionConfigPayload)) (shardID : Nat) : List RetentionConfigPayload :=
  pending.filterMap fun entry => if entry.1 = shardID then some entry.2 else none

/-- Raft gives a new entry the next index of the log. -/
def NextIndex (log : List Entry) (index : UInt64) : Prop := 0 < index ∧ ∀ entry ∈ log, entry.index < index

instance (log : List Entry) (index : UInt64) : Decidable (NextIndex log index) := inferInstanceAs (Decidable (_ ∧ _))

section
variable (cfg : Nat → StorageConfig) (marshal : RetentionConfigPayload → Bytes)
  (unmarshal : Unmarshal)

namespace RetentionCluster

def log (cluster : RetentionCluster) (shardID : Nat) (entry : Entry) : RetentionCluster :=
  { cluster with logs := Function.update cluster.logs shardID (cluster.logs shardID ++ [entry]) }

def place (cluster : RetentionCluster) (nodeID shardID : Nat) (replica : Replica) : RetentionCluster :=
  { cluster with replicas := cluster.replicas.insert (nodeID, shardID) replica }

/-- The node runs this state machine for the shard. -/
def Runs (cluster : RetentionCluster) (nodeID shardID : Nat) (fsm : PartitionFSM) : Prop :=
  ∃ disk, cluster.replicas.lookup (nodeID, shardID) = some ⟨disk, fsm⟩

/-- The calls of the coordinator run one after the other. An altered retention goes to the metadata at once and to
the shards by proposals of their own, which come in any order. A replica is opened on any directory whose sidecar
names an entry of the log. -/
def step (cluster : RetentionCluster) : RetentionEvent → Option RetentionCluster
  | .createTopic name partitionCount replicationFactor configOverrides now =>
    match createTopic (.ok cluster.metadata.listNodes) name partitionCount replicationFactor configOverrides now with
    | .error _ => none
    | .ok cmd => some { cluster with metadata := (cluster.metadata.update (.createTopic cmd)).1 }
  | .alterTopicPartitionCount name newCount =>
    match alterTopicPartitionCount (cluster.metadata.getTopic name) (.ok cluster.metadata.listNodes) name newCount with
    | .error _ => none
    | .ok cmd => some { cluster with metadata := (cluster.metadata.update (.alterTopicPartCount cmd)).1 }
  | .alterTopicRetention name retentionMs retentionBytes =>
    match alterTopicRetention (cluster.metadata.getTopic name) name retentionMs retentionBytes with
    | .error _ => none
    | .ok cmd =>
      let metadata := (cluster.metadata.update (.alterTopicRetention cmd)).1
      some { cluster with
        metadata := metadata
        pending := cluster.pending ++ (retentionShards (metadata.getPartitions name)).map fun shardID =>
          (shardID, ⟨retentionMs, retentionBytes⟩) }
  | .propose place index =>
    match cluster.pending[place]? with
    | none => none
    | some (shardID, rc) =>
      if NextIndex (cluster.logs shardID) index then
        some ({ cluster with pending := cluster.pending.eraseIdx place }.log shardID
          ⟨index, cmdRetentionConfig :: marshal rc⟩)
      else none
  | .produce shardID index batch =>
    if shardID < cluster.metadata.nextShardID ∧ NextIndex (cluster.logs shardID) index then
      some (cluster.log shardID ⟨index, cmdAppendBatch :: batch⟩)
    else none
  | .openReplica nodeID shardID left =>
    match (openFSM (cfg nodeID)).run left with
    | (.error _, _) => none
    | (.ok (index, fsm), ops) =>
      if shardID < cluster.metadata.nextShardID ∧
          (index = 0 ∨ ∃ entry ∈ cluster.logs shardID, entry.index = index) then
        some (cluster.place nodeID shardID ⟨left.applyAll ops, fsm⟩)
      else none
  | .update nodeID shardID count =>
    match cluster.replicas.lookup (nodeID, shardID) with
    | none => none
    | some ⟨disk, fsm⟩ =>
      let entries := (behind fsm.lastAppliedIndex (cluster.logs shardID)).take count
      match (Partition.update unmarshal (cfg nodeID) fsm entries).run disk with
      | (.error _, _) => none
      | (.ok (_, next), ops) => some (cluster.place nodeID shardID ⟨disk.applyAll ops, next⟩)

end RetentionCluster

def ShardRetention (state : MetadataState) (shardID : Nat) (rc : RetentionConfigPayload) : Prop :=
  ∃ key pm tm, state.partitions.lookup key = some pm ∧ pm.shardID = shardID ∧ state.topics.lookup pm.topic = some tm ∧
    RetentionConfigPayload.mk tm.retentionMs tm.retentionBytes = rc

/-- The settings that a replica which has applied the index will still get. -/
def RetentionCluster.due (cluster : RetentionCluster) (shardID : Nat) (index : UInt64) : List RetentionConfigPayload :=
  (behind index (cluster.logs shardID)).filterMap (configOf unmarshal) ++ pendingOf cluster.pending shardID

/-- The settings fit into 64 bits. -/
def Int64Settings (rc : RetentionConfigPayload) : Prop :=
  -2 ^ 63 ≤ rc.retentionMs ∧ rc.retentionMs < 2 ^ 63 ∧ -2 ^ 63 ≤ rc.retentionBytes ∧ rc.retentionBytes < 2 ^ 63

/-- A replica is opened only while the configuration of its node means what its topic asks for or a setting is still on
its way, and a retention is altered only when no earlier setting is on its way to the shards of the topic. -/
def Settling (cluster : RetentionCluster) : RetentionEvent → Prop
  | .createTopic name partitionCount replicationFactor configOverrides now =>
    ∀ cmd, createTopic (.ok cluster.metadata.listNodes) name partitionCount replicationFactor configOverrides now =
      .ok cmd →
      Metadata.Admissible cluster.metadata (.createTopic cmd)
  | .alterTopicPartitionCount name newCount =>
    ∀ cmd, alterTopicPartitionCount (cluster.metadata.getTopic name) (.ok cluster.metadata.listNodes) name newCount =
      .ok cmd → Metadata.Admissible cluster.metadata (.alterTopicPartCount cmd)
  | .alterTopicRetention name retentionMs retentionBytes =>
    Int64Settings ⟨retentionMs, retentionBytes⟩ ∧
      ∀ shardID ∈ retentionShards (cluster.metadata.getPartitions name), pendingOf cluster.pending shardID = []
  | .propose _ _ => True
  | .produce _ _ _ => True
  | .openReplica nodeID shardID left => ∀ index fsm ops rc,
      (openFSM (cfg nodeID)).run left = (.ok (index, fsm), ops) → ShardRetention cluster.metadata shardID rc →
        meaning (defaultRetention (cfg nodeID)) = meaning rc ∨ cluster.due unmarshal shardID index ≠ []
  | .update _ _ _ => True

/-- Nothing is on its way, and every running replica has applied the whole log of its shard. -/
def RetentionCluster.Quiet (cluster : RetentionCluster) : Prop :=
  cluster.pending = [] ∧ ∀ nodeID shardID fsm, cluster.Runs nodeID shardID fsm →
    behind fsm.lastAppliedIndex (cluster.logs shardID) = []

end

section
variable {log : List Entry} {index : UInt64}

/-- In a sorted log the entries behind an index are a suffix. -/
theorem behind_suffix (sorted : log.Pairwise fun first second => first.index < second.index) :
    ∃ front, log = front ++ behind index log := by
  induction log with
  | nil => exact ⟨[], rfl⟩
  | cons entry rest ih =>
    obtain ⟨smaller, sorted⟩ := pairwise_cons.mp sorted
    by_cases later : index < entry.index
    · refine ⟨[], ?_⟩
      rw [behind, nil_append, filter_eq_self.mpr]
      intro other member
      rw [decide_eq_true_eq]
      rcases mem_cons.mp member with rfl | member
      · exact later
      · exact UInt64.lt_trans later (smaller other member)
    · obtain ⟨front, split⟩ := ih sorted
      refine ⟨entry :: front, ?_⟩
      rw [behind, filter_cons_of_neg (by simpa using later), cons_append]
      exact congrArg (entry :: ·) split

/-- Behind the last entry that was handed over lie those that were not. -/
theorem behind_last (sorted : log.Pairwise fun first second => first.index < second.index) {count : Nat} {last : Entry}
    (ends : ((behind index log).take count).getLast? = some last) :
    behind last.index log = (behind index log).drop count := by
  have member : last ∈ (behind index log).take count := mem_of_getLast? ends
  have later : index < last.index := by
    simpa using of_mem_filter (mem_of_mem_take member)
  have again : behind last.index log = behind last.index (behind index log) := by
    unfold behind
    rw [filter_filter]
    refine filter_congr ?_
    intro entry _
    by_cases after : last.index < entry.index
    · simp [after, UInt64.lt_trans later after]
    · simp [after]
  have ordered : (behind index log).Pairwise fun first second => first.index < second.index :=
    sorted.sublist filter_sublist
  obtain ⟨before, taken⟩ := getLast?_eq_some_iff.mp ends
  rw [← take_append_drop count (behind index log), taken] at ordered
  obtain ⟨front, rest, across⟩ := pairwise_append.mp ordered
  rw [again]
  conv_lhs => rw [← take_append_drop count (behind index log), taken]
  rw [behind, filter_append, filter_eq_nil_iff.mpr, nil_append, filter_eq_self.mpr]
  · intro entry inside
    rw [decide_eq_true_eq]
    exact across last (mem_append_right _ (mem_singleton.mpr rfl)) entry inside
  · intro entry inside
    rw [decide_eq_true_eq]
    rcases mem_append.mp inside with inside | inside
    · exact UInt64.lt_asymm ((pairwise_append.mp front).2.2 entry inside last (mem_singleton.mpr rfl))
    · rw [mem_singleton.mp inside]
      exact UInt64.lt_irrefl _

theorem filterMap_concat {config : Entry → Option RetentionConfigPayload} (entry : Entry) :
    (log ++ [entry]).filterMap config = log.filterMap config ++ (config entry).toList := by
  rw [filterMap_append]
  cases found : config entry <;> simp [found]

theorem behind_concat {entry : Entry} (next : index < entry.index) :
    behind index (log ++ [entry]) = behind index log ++ [entry] := by
  unfold behind
  rw [filter_append, filter_singleton, decide_eq_true next]
  rfl

end

section
variable {pending : List (Nat × RetentionConfigPayload)} {shardID : Nat} {rc : RetentionConfigPayload}

theorem mem_pendingOf : rc ∈ pendingOf pending shardID ↔ (shardID, rc) ∈ pending := by
  unfold pendingOf
  rw [mem_filterMap]
  constructor
  · rintro ⟨⟨other, held⟩, member, same⟩
    obtain ⟨rfl, found⟩ := Option.ite_none_right_eq_some.mp same
    cases found
    exact member
  · intro member
    exact ⟨(shardID, rc), member, if_pos rfl⟩

theorem pendingOf_append (first second : List (Nat × RetentionConfigPayload)) (shardID : Nat) :
    pendingOf (first ++ second) shardID = pendingOf first shardID ++ pendingOf second shardID := filterMap_append

/-- A proposal to one shard leaves those to the others on their way. -/
theorem pendingOf_eraseIdx {place other : Nat} (held : pending[place]? = some (shardID, rc))
    (differ : other ≠ shardID) :
    pendingOf (pending.eraseIdx place) other = pendingOf pending other := by
  obtain ⟨inside, found⟩ := List.getElem?_eq_some_iff.mp held
  have skipped : pendingOf [(shardID, rc)] other = [] := by
    simp only [pendingOf, filterMap_cons, if_neg (Ne.symm differ), filterMap_nil]
  have split : pending = pending.take place ++ ([(shardID, rc)] ++ pending.drop (place + 1)) := by
    rw [singleton_append, ← found, ← drop_eq_getElem_cons inside, take_append_drop]
  calc pendingOf (pending.eraseIdx place) other
      = pendingOf (pending.take place) other ++ pendingOf (pending.drop (place + 1)) other := by
        rw [eraseIdx_eq_take_drop_succ, pendingOf_append]
    _ = pendingOf (pending.take place ++ ([(shardID, rc)] ++ pending.drop (place + 1))) other := by
        rw [pendingOf_append, pendingOf_append, skipped, nil_append]
    _ = pendingOf pending other := by rw [← split]

/-- A setting is proposed to each of the shards. -/
def proposals (shards : List Nat) (rc : RetentionConfigPayload) : List (Nat × RetentionConfigPayload) :=
  shards.map fun shardID => (shardID, rc)

theorem mem_pendingOf_proposals {shards : List Nat} {other : RetentionConfigPayload} :
    other ∈ pendingOf (proposals shards rc) shardID ↔ shardID ∈ shards ∧ other = rc := by
  rw [mem_pendingOf, proposals, mem_map]
  constructor
  · rintro ⟨shard, member, same⟩
    cases same
    exact ⟨member, rfl⟩
  · rintro ⟨member, rfl⟩
    exact ⟨shardID, member, rfl⟩

theorem pendingOf_proposals_of_notMem {shards : List Nat} (outside : shardID ∉ shards) :
    pendingOf (proposals shards rc) shardID = [] := by
  refine eq_nil_iff_forall_not_mem.mpr ?_
  intro other member
  exact outside (mem_pendingOf_proposals.mp member).1

/-- The last of equal settings behind others is the one that they agree on. -/
theorem getLast?_agree {configs agreed : List RetentionConfigPayload} (present : agreed ≠ [])
    (agree : ∀ other ∈ agreed, other = rc) : (configs ++ agreed).getLast? = some rc := by
  rw [getLast?_append_of_ne_nil _ present, getLast?_eq_some_getLast present]
  exact congrArg some (agree _ (getLast_mem present))

end

section
variable {state : MetadataState} {shardID : Nat} {rc : RetentionConfigPayload}

/-- A partition of the next state with an old shard keeps the topic that it had. -/
theorem old_partition {command : MetadataCommand} (structured : Structured state)
    (admissible : Metadata.Admissible state command) {key : PartitionKey} {pm : PartitionMeta}
    (found : (state.update command).1.partitions.lookup key = some pm) (old : pm.shardID < state.nextShardID) :
    ∃ before tm, state.partitions.lookup key = some before ∧ before.shardID = pm.shardID ∧ before.topic = pm.topic ∧
      state.topics.lookup pm.topic = some tm := by
  have later := Later.reshaped (update_reshaped admissible structured.nonneg)
  have identified : (state.update command).1.identities key = some pm.identity := by
    rw [MetadataState.identities, found]
    rfl
  obtain ⟨before, stored, same⟩ := Option.map_eq_some_iff.mp (later.partitions key _ identified old)
  have topics : before.topic = pm.topic := congrArg Prod.fst same
  have shards : before.shardID = pm.shardID := congrArg (fun part => part.2.2.1) same
  obtain ⟨tm, known, _⟩ := (structured.keys key).mp (mem_of_lookup_eq_some stored)
  rw [← (structured.named key before stored).1, topics] at known
  exact ⟨before, tm, stored, shards, topics, known⟩

/-- A new topic leaves the retention of the old shards alone. -/
theorem ShardRetention.of_create {cmd : CreateTopicCmd} (structured : Structured state)
    (admissible : Metadata.Admissible state (.createTopic cmd))
    (holds : ShardRetention (state.update (.createTopic cmd)).1 shardID rc) :
    ShardRetention state shardID rc ∨ state.nextShardID ≤ shardID := by
  obtain ⟨key, pm, tm, found, rfl, topic, rfl⟩ := holds
  by_cases old : pm.shardID < state.nextShardID
  · left
    obtain ⟨before, held, stored, shards, topics, known⟩ := old_partition structured admissible found old
    have kept : (state.update (.createTopic cmd)).1.topics.lookup pm.topic = some held := by
      simp only [MetadataState.update, roundTrip, applyCommand,
        applyCreateTopic]
      split
      · exact known
      next absent =>
      split
      · exact known
      split
      · exact known
      have differ : pm.topic ≠ cmd.name := by
        rintro same
        rw [← same, known] at absent
        exact absent rfl
      rw [lookup_insert_of_ne _ differ, known]
    rw [kept] at topic
    cases topic
    exact ⟨key, before, tm, stored, shards, topics ▸ known, rfl⟩
  · exact .inr (not_lt.mp old)

/-- A larger topic keeps its retention, and the old shards theirs. -/
theorem ShardRetention.of_extend {cmd : AlterTopicPartCountCmd} (structured : Structured state)
    (admissible : Metadata.Admissible state (.alterTopicPartCount cmd))
    (holds : ShardRetention (state.update (.alterTopicPartCount cmd)).1 shardID rc) :
    ShardRetention state shardID rc ∨ state.nextShardID ≤ shardID := by
  obtain ⟨key, pm, tm, found, rfl, topic, rfl⟩ := holds
  by_cases old : pm.shardID < state.nextShardID
  · left
    obtain ⟨before, held, stored, shards, topics, known⟩ := old_partition structured admissible found old
    refine ⟨key, before, held, stored, shards, topics ▸ known, ?_⟩
    simp only [MetadataState.update, roundTrip, applyCommand,
      applyAlterTopicPartCount] at topic
    split at topic
    · rw [known] at topic
      cases topic
      rfl
    next tm' present =>
    split at topic
    · rw [known] at topic
      cases topic
      rfl
    by_cases same : pm.topic = cmd.name
    · rw [same, lookup_insert] at topic
      rw [same, present] at known
      cases known
      cases topic
      rfl
    · rw [lookup_insert_of_ne _ same, known] at topic
      cases topic
      rfl
  · exact .inr (not_lt.mp old)

/-- The shards to which an altered retention is proposed are those of its topic. -/
theorem mem_retentionShards {name : String} :
    shardID ∈ retentionShards (state.getPartitions name) ↔
      (state.topics.lookup name).isSome ∧ ∃ key pm, key.topic = name ∧ state.partitions.lookup key = some pm ∧
        pm.shardID = shardID := by
  cases listed : state.getPartitions name with
  | error failure =>
    unfold MetadataState.getPartitions at listed
    split at listed
    · next absent => simp [retentionShards, Option.isNone_iff_eq_none.mp absent]
    · cases listed
  | ok partitions =>
    have present : (state.topics.lookup name).isSome := by
      unfold MetadataState.getPartitions at listed
      split at listed
      · cases listed
      · next present => simpa [Option.isSome_iff_ne_none] using present
    simp only [retentionShards, mem_map, mem_getPartitions listed, present, true_and]
    constructor
    · rintro ⟨pm, ⟨key, topic, stored⟩, shard⟩
      exact ⟨key, pm, topic, stored, shard⟩
    · rintro ⟨key, pm, topic, stored, shard⟩
      exact ⟨pm, ⟨key, topic, stored⟩, shard⟩

/-- An altered retention is that of the shards of its topic and leaves the others alone. -/
theorem ShardRetention.of_alter {cmd : AlterTopicRetentionCmd} (structured : Structured state) {tm : TopicMeta}
    (present : state.topics.lookup cmd.name = some tm)
    (holds : ShardRetention (state.update (.alterTopicRetention cmd)).1 shardID rc) :
    (shardID ∈ retentionShards (state.getPartitions cmd.name) ∧ rc = ⟨cmd.retentionMs, cmd.retentionBytes⟩) ∨
      (shardID ∉ retentionShards (state.getPartitions cmd.name) ∧ ShardRetention state shardID rc) := by
  obtain ⟨key, pm, after, found, rfl, topic, rfl⟩ := holds
  simp only [MetadataState.update, roundTrip, applyCommand,
    applyAlterTopicRetention, present] at found topic
  have own := (structured.named key pm found).1
  by_cases same : pm.topic = cmd.name
  · left
    rw [same, lookup_insert] at topic
    cases topic
    refine ⟨mem_retentionShards.mpr ⟨by rw [present]; rfl, key, pm, own.symm.trans same, found, rfl⟩, rfl⟩
  · right
    rw [lookup_insert_of_ne _ same] at topic
    refine ⟨?_, key, pm, after, found, rfl, topic, rfl⟩
    intro member
    obtain ⟨_, other, second, named, stored, shard⟩ := mem_retentionShards.mp member
    obtain rfl := structured.distinct key other pm second found stored shard.symm
    exact same (own.trans named)

/-- The partitions of a topic do not depend on its retention. -/
theorem getPartitions_alter (cmd : AlterTopicRetentionCmd) (name : String) :
    (state.update (.alterTopicRetention cmd)).1.getPartitions name = state.getPartitions name := by
  simp only [MetadataState.update, roundTrip, applyCommand,
    applyAlterTopicRetention]
  split
  · rfl
  next tm present =>
  have topics : (Option.isNone ((state.topics.insert cmd.name { tm with
      retentionMs := cmd.retentionMs, retentionBytes := cmd.retentionBytes }).lookup name)) =
      (state.topics.lookup name).isNone := by
    by_cases same : name = cmd.name
    · rw [same, lookup_insert, present]
      rfl
    · rw [lookup_insert_of_ne _ same]
  simp only [MetadataState.getPartitions, topics]

end

section
variable {cfg : Nat → StorageConfig} {marshal : RetentionConfigPayload → Bytes}
  {unmarshal : Unmarshal} {cluster : RetentionCluster}

theorem RetentionCluster.log_self (shardID : Nat) (entry : Entry) :
    (cluster.log shardID entry).logs shardID = cluster.logs shardID ++ [entry] := Function.update_self _ _ _

theorem RetentionCluster.log_of_ne {other : Nat} (differ : other ≠ shardID) (entry : Entry) :
    (cluster.log shardID entry).logs other = cluster.logs other := Function.update_of_ne differ _ _

/-- Behind a placed replica the others run as before. -/
theorem RetentionCluster.Runs.of_place {node shard : Nat} {machine : PartitionFSM}
    (running : (cluster.place nodeID shardID ⟨disk, fsm⟩).Runs node shard machine) :
    (shard = shardID ∧ machine = fsm) ∨ cluster.Runs node shard machine := by
  obtain ⟨image, found⟩ := running
  by_cases own : (node, shard) = (nodeID, shardID)
  · rw [own, RetentionCluster.place, lookup_insert] at found
    cases found
    exact .inl ⟨(Prod.mk.inj own).2, rfl⟩
  · rw [RetentionCluster.place, lookup_insert_of_ne _ own] at found
    exact .inr ⟨image, found⟩

/-- The logs are sorted, and a replica has applied an entry of its log or nothing. -/
structure RetentionCluster.Ordered (cluster : RetentionCluster) : Prop where
  sorted : ∀ shardID, (cluster.logs shardID).Pairwise fun first second => first.index < second.index
  applied : ∀ nodeID shardID fsm, cluster.Runs nodeID shardID fsm →
    fsm.lastAppliedIndex = 0 ∨ ∃ entry ∈ cluster.logs shardID, entry.index = fsm.lastAppliedIndex

section
variable (ordered : cluster.Ordered)
include ordered

/-- An entry with the next index keeps the logs sorted. -/
theorem RetentionCluster.Ordered.logged {shardID : Nat} {entry : Entry}
    (next : NextIndex (cluster.logs shardID) entry.index) (pending : List (Nat × RetentionConfigPayload)) :
    (({ cluster with pending := pending } : RetentionCluster).log shardID entry).Ordered := by
  constructor
  · intro other
    by_cases own : other = shardID
    · rw [own, RetentionCluster.log_self]
      refine pairwise_append.mpr ⟨ordered.sorted shardID, pairwise_singleton _ _, ?_⟩
      intro first member second last
      rw [mem_singleton.mp last]
      exact next.2 first member
    · rw [RetentionCluster.log_of_ne own]
      exact ordered.sorted other
  · intro nodeID other fsm running
    rcases ordered.applied nodeID other fsm running with zero | ⟨held, member, index⟩
    · exact .inl zero
    · refine .inr ⟨held, ?_, index⟩
      by_cases own : other = shardID
      · subst own
        rw [RetentionCluster.log_self]
        exact mem_append_left _ member
      · rw [RetentionCluster.log_of_ne own]
        exact member

theorem RetentionCluster.Ordered.place
    (applied : fsm.lastAppliedIndex = 0 ∨ ∃ entry ∈ cluster.logs shardID, entry.index = fsm.lastAppliedIndex) :
    (cluster.place nodeID shardID ⟨disk, fsm⟩).Ordered := by
  refine ⟨ordered.sorted, ?_⟩
  intro node shard machine running
  rcases running.of_place with ⟨rfl, rfl⟩ | before
  · exact applied
  · exact ordered.applied node shard machine before

/-- A new entry is behind everything that a replica has applied. -/
theorem RetentionCluster.Ordered.newer (running : cluster.Runs nodeID shardID fsm)
    (next : NextIndex (cluster.logs shardID) index) : fsm.lastAppliedIndex < index := by
  rcases ordered.applied nodeID shardID fsm running with zero | ⟨held, member, same⟩
  · rw [zero]
    exact next.1
  · rw [← same]
    exact next.2 held member

/-- A replica that runs still gets the settings that are proposed. -/
theorem RetentionCluster.Ordered.due_logged {nodeID shardID : Nat} {fsm : PartitionFSM}
    (running : cluster.Runs nodeID shardID fsm) {entry : Entry} (next : NextIndex (cluster.logs shardID) entry.index)
    (pending : List (Nat × RetentionConfigPayload)) :
    (({ cluster with pending := pending } : RetentionCluster).log shardID entry).due unmarshal shardID
      fsm.lastAppliedIndex = (behind fsm.lastAppliedIndex (cluster.logs shardID)).filterMap (configOf unmarshal) ++
        ((configOf unmarshal entry).toList ++ pendingOf pending shardID) := by
  rw [RetentionCluster.due, RetentionCluster.log_self]
  change (behind _ (cluster.logs shardID ++ [entry])).filterMap _ ++ _ = _
  rw [behind_concat (ordered.newer running next), filterMap_concat, append_assoc]
  rfl

/-- An update moves settings from the log into the replica. -/
theorem RetentionCluster.Ordered.settle_update {count : Nat} {next : PartitionFSM} {values : List Nat}
    (ran : (Partition.update unmarshal (cfg nodeID) fsm
      ((behind fsm.lastAppliedIndex (cluster.logs shardID)).take count)).run disk = (.ok (values, next), ops)) :
    settle (retentionOf next.storage) (cluster.due unmarshal shardID next.lastAppliedIndex) =
      settle (retentionOf fsm.storage) (cluster.due unmarshal shardID fsm.lastAppliedIndex) ∧
      ∃ entry ∈ cluster.logs shardID, entry.index = next.lastAppliedIndex := by
  obtain ⟨retained, last, ends, index⟩ := update_retention ran
  constructor
  · unfold RetentionCluster.due
    rw [index, behind_last (ordered.sorted shardID) ends, retained, ← settle_append, ← append_assoc,
      ← filterMap_append, take_append_drop]
  · exact ⟨last, mem_of_mem_filter (mem_of_mem_take (mem_of_getLast? ends)), index.symm⟩

end

/-- The last setting of a shard, in its log or on its way, is that of the topic, and every replica ends up with the
meaning of it. A shard that is not given away yet has nothing. -/
structure RetentionCluster.Tracked (unmarshal : Unmarshal)
    (cluster : RetentionCluster) : Prop where
  structured : Structured cluster.metadata
  fresh : ∀ shardID, cluster.metadata.nextShardID ≤ shardID →
    cluster.logs shardID = [] ∧ pendingOf cluster.pending shardID = [] ∧
      ∀ nodeID fsm, ¬ cluster.Runs nodeID shardID fsm
  sorted : ∀ shardID, (cluster.logs shardID).Pairwise fun first second => first.index < second.index
  agree : ∀ shardID, ∀ first ∈ pendingOf cluster.pending shardID, ∀ second ∈ pendingOf cluster.pending shardID,
    first = second
  fits : ∀ entry ∈ cluster.pending, Int64Settings entry.2
  applied : ∀ nodeID shardID fsm, cluster.Runs nodeID shardID fsm →
    fsm.lastAppliedIndex = 0 ∨ ∃ entry ∈ cluster.logs shardID, entry.index = fsm.lastAppliedIndex
  latest : ∀ shardID rc, ShardRetention cluster.metadata shardID rc → ∀ last,
    ((cluster.logs shardID).filterMap (configOf unmarshal) ++ pendingOf cluster.pending shardID).getLast? = some last →
      last = rc
  settles : ∀ nodeID shardID fsm rc, cluster.Runs nodeID shardID fsm →
    ShardRetention cluster.metadata shardID rc →
      meaning (settle (retentionOf fsm.storage) (cluster.due unmarshal shardID fsm.lastAppliedIndex)) = meaning rc

theorem RetentionCluster.Tracked.ordered (tracked : cluster.Tracked unmarshal) : cluster.Ordered :=
  ⟨tracked.sorted, tracked.applied⟩

theorem RetentionCluster.Tracked.start (nodes : KeyMap Nat NodeInfo) :
    RetentionCluster.Tracked unmarshal
      ⟨{ MetadataState.initial with nodes := nodes }, [], fun _ => [], ∅⟩ := by
  have structured : Structured { MetadataState.initial with nodes := nodes } := by
    obtain ⟨keys, named, distinct, bounded, counted, positive⟩ := Structured.initial
    exact ⟨keys, named, distinct, bounded, counted, positive⟩
  have none : ∀ shardID rc, ¬ ShardRetention { MetadataState.initial with nodes := nodes } shardID rc := by
    rintro shardID rc ⟨key, pm, _, found, _⟩
    exact absurd found nofun
  have stopped : ∀ nodeID shardID fsm, ¬ RetentionCluster.Runs
      ⟨{ MetadataState.initial with nodes := nodes }, [], fun _ => [], ∅⟩ nodeID shardID fsm := by
    rintro nodeID shardID fsm ⟨disk, found⟩
    exact absurd found nofun
  exact ⟨structured, fun shardID _ => ⟨rfl, rfl, fun nodeID => stopped nodeID shardID⟩, fun _ => List.Pairwise.nil,
    fun _ _ member => absurd member not_mem_nil, fun _ member => absurd member not_mem_nil,
    fun nodeID shardID fsm running => absurd running (stopped nodeID shardID fsm),
    fun shardID rc holds => absurd holds (none shardID rc),
    fun nodeID shardID fsm _ running => absurd running (stopped nodeID shardID fsm)⟩

section
variable (tracked : cluster.Tracked unmarshal)
include tracked

/-- New shards come without settings and replicas. -/
theorem RetentionCluster.Tracked.grow {next : MetadataState} (structured : Structured next)
    (later : cluster.metadata.nextShardID ≤ next.nextShardID)
    (old : ∀ shardID rc, ShardRetention next shardID rc →
      ShardRetention cluster.metadata shardID rc ∨ cluster.metadata.nextShardID ≤ shardID) :
    ({ cluster with metadata := next } : RetentionCluster).Tracked unmarshal where
  structured := structured
  fresh shardID beyond := tracked.fresh shardID (later.trans beyond)
  sorted := tracked.sorted
  agree := tracked.agree
  fits := tracked.fits
  applied := tracked.applied
  latest shardID rc holds last ends := by
    rcases old shardID rc holds with before | beyond
    · exact tracked.latest shardID rc before last ends
    · obtain ⟨logs, pending, _⟩ := tracked.fresh shardID beyond
      change (filterMap _ (cluster.logs shardID) ++ pendingOf cluster.pending shardID).getLast? = some last at ends
      rw [logs, pending] at ends
      cases ends
  settles nodeID shardID fsm rc running holds := by
    rcases old shardID rc holds with before | beyond
    · exact tracked.settles nodeID shardID fsm rc running before
    · exact absurd running ((tracked.fresh shardID beyond).2.2 nodeID fsm)

/-- An altered retention ends up in every shard of its topic. -/
theorem RetentionCluster.Tracked.alter {cmd : AlterTopicRetentionCmd} {tm : TopicMeta}
    (present : cluster.metadata.topics.lookup cmd.name = some tm)
    (typed : Int64Settings ⟨cmd.retentionMs, cmd.retentionBytes⟩)
    (idle : ∀ shardID ∈ retentionShards (cluster.metadata.getPartitions cmd.name),
      pendingOf cluster.pending shardID = []) :
    ({ cluster with
      metadata := (cluster.metadata.update (.alterTopicRetention cmd)).1
      pending := cluster.pending ++ proposals (retentionShards (cluster.metadata.getPartitions cmd.name))
        ⟨cmd.retentionMs, cmd.retentionBytes⟩ } : RetentionCluster).Tracked unmarshal := by
  have keeps : Keeps cluster.metadata (cluster.metadata.update (.alterTopicRetention cmd)).1 := keeps_retention cmd
  have structured : Structured (cluster.metadata.update (.alterTopicRetention cmd)).1 :=
    tracked.structured.reshaped (.kept keeps : Reshaped _ (.alterTopicRetention cmd) _)
  have given : ∀ shardID ∈ retentionShards (cluster.metadata.getPartitions cmd.name),
      shardID < cluster.metadata.nextShardID := by
    intro shardID member
    obtain ⟨_, key, pm, _, stored, rfl⟩ := mem_retentionShards.mp member
    exact (tracked.structured.bounded key pm stored).2
  have altered := fun shardID rc => @ShardRetention.of_alter _ shardID rc cmd tracked.structured _ present
  generalize retentionShards (cluster.metadata.getPartitions cmd.name) = shards at idle given altered ⊢
  generalize RetentionConfigPayload.mk cmd.retentionMs cmd.retentionBytes = rc at typed altered ⊢
  -- The shards of the topic had nothing on its way, and the others get nothing new.
  have arrives : ∀ shardID ∈ shards, pendingOf (cluster.pending ++ proposals shards rc) shardID =
      pendingOf (proposals shards rc) shardID := by
    intro shardID member
    rw [pendingOf_append, idle shardID member, nil_append]
  have kept : ∀ shardID ∉ shards, pendingOf (cluster.pending ++ proposals shards rc) shardID =
      pendingOf cluster.pending shardID := by
    intro shardID outside
    rw [pendingOf_append, pendingOf_proposals_of_notMem outside, append_nil]
  have ends : ∀ shardID ∈ shards, ∀ configs,
      (configs ++ pendingOf (cluster.pending ++ proposals shards rc) shardID).getLast? = some rc := by
    intro shardID member configs
    rw [arrives shardID member]
    refine getLast?_agree ?_ fun other inside => (mem_pendingOf_proposals.mp inside).2
    exact ne_nil_of_mem (mem_pendingOf_proposals.mpr ⟨member, rfl⟩)
  refine ⟨structured, ?_, tracked.sorted, ?_, ?_, tracked.applied, ?_, ?_⟩
  · intro shardID beyond
    rw [keeps.nextShardID] at beyond
    obtain ⟨logs, pending, stopped⟩ := tracked.fresh shardID beyond
    have outside : shardID ∉ shards := fun member => absurd (given shardID member) (not_lt.mpr beyond)
    exact ⟨logs, (kept shardID outside).trans pending, stopped⟩
  · intro shardID
    by_cases member : shardID ∈ shards
    · intro first inside second also
      rw [arrives shardID member] at inside also
      rw [(mem_pendingOf_proposals.mp inside).2, (mem_pendingOf_proposals.mp also).2]
    · rw [kept shardID member]
      exact tracked.agree shardID
  · intro entry inside
    rcases mem_append.mp inside with old | fresh
    · exact tracked.fits entry old
    · obtain ⟨_, _, rfl⟩ := mem_map.mp fresh
      exact typed
  · intro shardID other holds last found
    rcases altered shardID other holds with ⟨member, rfl⟩ | ⟨outside, before⟩
    · rw [ends shardID member] at found
      exact (Option.some.inj found).symm
    · rw [kept shardID outside] at found
      exact tracked.latest shardID other before last found
  · intro nodeID shardID fsm other running holds
    unfold RetentionCluster.due
    rcases altered shardID other holds with ⟨member, rfl⟩ | ⟨outside, before⟩
    · rw [settle_eq (ends shardID member _)]
    · rw [kept shardID outside]
      exact tracked.settles nodeID shardID fsm other running before

/-- An entry at the end of a log keeps every replica on its way when it stands for what was pending. -/
theorem RetentionCluster.Tracked.logged {shardID : Nat} {entry : Entry}
    (given : shardID < cluster.metadata.nextShardID) (next : NextIndex (cluster.logs shardID) entry.index)
    {pending : List (Nat × RetentionConfigPayload)} (fewer : ∀ held ∈ pending, held ∈ cluster.pending)
    (others : ∀ other, other ≠ shardID → pendingOf pending other = pendingOf cluster.pending other)
    (same : ∀ configs, (configs ++ ((configOf unmarshal entry).toList ++ pendingOf pending shardID)).getLast? =
      (configs ++ pendingOf cluster.pending shardID).getLast?) :
    (({ cluster with pending := pending } : RetentionCluster).log shardID entry).Tracked unmarshal := by
  have ordered := tracked.ordered.logged next pending
  refine ⟨tracked.structured, ?_, ordered.sorted, ?_, fun held member => tracked.fits held (fewer held member),
    ordered.applied, ?_, ?_⟩
  · intro other beyond
    have differ : other ≠ shardID := by
      rintro rfl
      exact absurd given (not_lt.mpr beyond)
    obtain ⟨logs, idle, stopped⟩ := tracked.fresh other beyond
    exact ⟨(RetentionCluster.log_of_ne differ entry).trans logs, (others other differ).trans idle, stopped⟩
  · intro other first inside second also
    rw [mem_pendingOf] at inside also
    exact tracked.agree other first (mem_pendingOf.mpr (fewer _ inside)) second (mem_pendingOf.mpr (fewer _ also))
  · intro other rc holds last ends
    by_cases own : other = shardID
    · subst own
      rw [RetentionCluster.log_self] at ends
      change ((cluster.logs other ++ [entry]).filterMap _ ++ _).getLast? = _ at ends
      rw [filterMap_concat, append_assoc] at ends
      exact tracked.latest other rc holds last ((same _).symm.trans ends)
    · rw [RetentionCluster.log_of_ne own] at ends
      change (_ ++ pendingOf pending other).getLast? = _ at ends
      rw [others other own] at ends
      exact tracked.latest other rc holds last ends
  · intro nodeID other fsm rc running holds
    have settled := tracked.settles nodeID other fsm rc running holds
    by_cases own : other = shardID
    · subst own
      rw [tracked.ordered.due_logged running next, settle, same]
      exact settled
    · rw [RetentionCluster.due, RetentionCluster.log_of_ne own]
      change meaning (settle _ (_ ++ pendingOf pending other)) = _
      rw [others other own]
      exact settled

/-- A replica may be replaced by one that ends up with the right setting. -/
theorem RetentionCluster.Tracked.place (given : shardID < cluster.metadata.nextShardID)
    (applied : fsm.lastAppliedIndex = 0 ∨ ∃ entry ∈ cluster.logs shardID, entry.index = fsm.lastAppliedIndex)
    (settles : ∀ rc, ShardRetention cluster.metadata shardID rc →
      meaning (settle (retentionOf fsm.storage) (cluster.due unmarshal shardID fsm.lastAppliedIndex)) = meaning rc) :
    (cluster.place nodeID shardID ⟨disk, fsm⟩).Tracked unmarshal := by
  refine ⟨tracked.structured, ?_, tracked.sorted, tracked.agree, tracked.fits, (tracked.ordered.place applied).applied,
    tracked.latest, ?_⟩
  · intro shard beyond
    obtain ⟨logs, idle, stopped⟩ := tracked.fresh shard beyond
    refine ⟨logs, idle, ?_⟩
    intro node machine running
    rcases running.of_place with ⟨rfl, _⟩ | before
    · exact absurd given (not_lt.mpr beyond)
    · exact stopped node machine before
  · intro node shard machine rc running holds
    rcases running.of_place with ⟨rfl, rfl⟩ | before
    · exact settles rc holds
    · exact tracked.settles node shard machine rc before holds

end

theorem configOf_marshal (decoded : unmarshal (marshal rc) = .ok rc) (index : UInt64) :
    configOf unmarshal ⟨index, cmdRetentionConfig :: marshal rc⟩ = some rc := by
  unfold configOf
  simp only [if_true, decoded]
  rfl

/-- A proposal carries its setting into the log. -/
theorem RetentionCluster.Tracked.propose (faithful : ∀ rc, Int64Settings rc → unmarshal (marshal rc) = .ok rc)
    (tracked : cluster.Tracked unmarshal) {place : Nat} (held : cluster.pending[place]? = some (shardID, rc))
    (next : NextIndex (cluster.logs shardID) index) :
    (({ cluster with pending := cluster.pending.eraseIdx place } : RetentionCluster).log shardID
      ⟨index, cmdRetentionConfig :: marshal rc⟩).Tracked unmarshal := by
  have member : rc ∈ pendingOf cluster.pending shardID := mem_pendingOf.mpr (mem_of_getElem? held)
  have given : shardID < cluster.metadata.nextShardID := by
    by_contra! beyond
    rw [(tracked.fresh shardID beyond).2.1] at member
    exact absurd member not_mem_nil
  have carried := configOf_marshal (faithful rc (tracked.fits _ (mem_of_getElem? held))) index
  have agreed : ∀ other ∈ pendingOf cluster.pending shardID, other = rc :=
    fun other inside => tracked.agree shardID other inside rc member
  refine tracked.logged given next (fun _ inside => mem_of_mem_eraseIdx inside) ?_ ?_
  · intro other differ
    exact pendingOf_eraseIdx held differ
  · intro configs
    rw [carried, Option.toList_some, getLast?_agree (ne_nil_of_mem member) agreed]
    refine getLast?_agree (cons_ne_nil _ _) ?_
    intro other inside
    rcases mem_cons.mp inside with rfl | inside
    · rfl
    · exact agreed other (mem_pendingOf.mpr (mem_of_mem_eraseIdx (mem_pendingOf.mp inside)))

/-- A replica that starts from the configuration of its node gets the right setting in the end. -/
theorem RetentionCluster.Tracked.opened (tracked : cluster.Tracked unmarshal) {left : StorageDisk}
    (ran : (openFSM (cfg nodeID)).run left = (.ok (index, fsm), ops)) (given : shardID < cluster.metadata.nextShardID)
    (applied : index = 0 ∨ ∃ entry ∈ cluster.logs shardID, entry.index = index)
    (settling : ∀ rc, ShardRetention cluster.metadata shardID rc →
      meaning (defaultRetention (cfg nodeID)) = meaning rc ∨ cluster.due unmarshal shardID index ≠ []) :
    (cluster.place nodeID shardID ⟨disk, fsm⟩).Tracked unmarshal := by
  obtain ⟨defaults, rfl⟩ := openFSM_retention ran
  refine tracked.place given applied ?_
  intro rc holds
  rw [defaults]
  cases ends : (cluster.due unmarshal shardID fsm.lastAppliedIndex).getLast? with
  | none =>
    have nothing := getLast?_eq_none_iff.mp ends
    rw [nothing]
    exact (settling rc holds).resolve_right fun present => present nothing
  | some last =>
    obtain ⟨front, split⟩ := @behind_suffix _ fsm.lastAppliedIndex (tracked.sorted shardID)
    have latest := tracked.latest shardID rc holds last
    rw [split, filterMap_append, append_assoc] at latest
    change ((_ : List RetentionConfigPayload) ++
      cluster.due unmarshal shardID fsm.lastAppliedIndex).getLast? = _ → _ at latest
    rw [getLast?_append, ends] at latest
    rw [settle_eq ends, latest rfl]

/-- An update moves settings from the log into the replica. -/
theorem RetentionCluster.Tracked.updated (tracked : cluster.Tracked unmarshal) {count : Nat} {next : PartitionFSM}
    {values : List Nat} {left : StorageDisk} (running : cluster.Runs nodeID shardID fsm)
    (ran : (Partition.update unmarshal (cfg nodeID) fsm
      ((behind fsm.lastAppliedIndex (cluster.logs shardID)).take count)).run disk = (.ok (values, next), ops)) :
    (cluster.place nodeID shardID ⟨left, next⟩).Tracked unmarshal := by
  obtain ⟨kept, entry, inside, index⟩ := tracked.ordered.settle_update ran
  have given : shardID < cluster.metadata.nextShardID := by
    by_contra! beyond
    exact (tracked.fresh shardID beyond).2.2 nodeID fsm running
  refine tracked.place given (.inr ⟨entry, inside, index⟩) ?_
  intro rc holds
  rw [kept]
  exact tracked.settles nodeID shardID fsm rc running holds

/-- Every step under the condition keeps the settings on their way. -/
theorem RetentionCluster.Tracked.step (faithful : ∀ rc, Int64Settings rc → unmarshal (marshal rc) = .ok rc)
    (tracked : cluster.Tracked unmarshal) {event : RetentionEvent} {next : RetentionCluster}
    (settling : Settling cfg unmarshal cluster event) (moved : cluster.step cfg marshal unmarshal event = some next) :
    next.Tracked unmarshal := by
  have counted := tracked.structured.nonneg
  cases event with
  | createTopic name partitionCount replicationFactor configOverrides now =>
    simp only [RetentionCluster.step] at moved
    split at moved
    · cases moved
    next cmd prepared =>
    cases moved
    have admissible := settling cmd prepared
    have reshaped := update_reshaped admissible counted
    exact tracked.grow (tracked.structured.reshaped reshaped) (Later.reshaped reshaped).nextShardID
      fun shardID rc holds => holds.of_create tracked.structured admissible
  | alterTopicPartitionCount name newCount =>
    simp only [RetentionCluster.step] at moved
    split at moved
    · cases moved
    next cmd prepared =>
    cases moved
    have admissible := settling cmd prepared
    have reshaped := update_reshaped admissible counted
    exact tracked.grow (tracked.structured.reshaped reshaped) (Later.reshaped reshaped).nextShardID
      fun shardID rc holds => holds.of_extend tracked.structured admissible
  | alterTopicRetention name retentionMs retentionBytes =>
    simp only [RetentionCluster.step] at moved
    split at moved
    · cases moved
    next cmd prepared =>
    cases moved
    unfold alterTopicRetention at prepared
    split at prepared
    · cases prepared
    next tm found =>
    cases prepared
    obtain ⟨typed, idle⟩ := settling
    have present : cluster.metadata.topics.lookup name = some tm := by
      unfold MetadataState.getTopic MetadataState.found at found
      split at found
      · next stored =>
        cases found
        exact stored
      · cases found
    have kept := @RetentionCluster.Tracked.alter _ _ tracked ⟨name, retentionMs, retentionBytes⟩ _ present typed idle
    rw [getPartitions_alter]
    exact kept
  | propose place index =>
    simp only [RetentionCluster.step] at moved
    split at moved
    · cases moved
    next shardID rc held =>
    obtain ⟨next, moved⟩ := Option.ite_none_right_eq_some.mp moved
    cases moved
    exact tracked.propose faithful held next
  | produce shardID index batch =>
    simp only [RetentionCluster.step] at moved
    obtain ⟨⟨given, next⟩, moved⟩ := Option.ite_none_right_eq_some.mp moved
    cases moved
    exact tracked.logged given next (fun _ inside => inside) (fun _ _ => rfl) fun configs => rfl
  | openReplica nodeID shardID left =>
    simp only [RetentionCluster.step] at moved
    split at moved
    · cases moved
    next index fsm ops ran =>
    obtain ⟨⟨given, applied⟩, moved⟩ := Option.ite_none_right_eq_some.mp moved
    cases moved
    exact tracked.opened ran given applied fun rc holds => settling index fsm ops rc ran holds
  | update nodeID shardID count =>
    simp only [RetentionCluster.step] at moved
    split at moved
    · cases moved
    next fsm running =>
    split at moved
    · cases moved
    next values machine ops ran =>
    cases moved
    exact tracked.updated ⟨_, running⟩ ran

end

/-- The retentions of the partitions that have this shard. -/
def shardRetentions (state : MetadataState) (shardID : Nat) : List RetentionConfigPayload :=
  (@KeyMap.sortedKeys _ _ PartitionKey.order state.partitions).filterMap fun key =>
    ((state.partitions.lookup key).filter fun pm => pm.shardID = shardID).bind fun pm =>
      (state.topics.lookup pm.topic).map fun tm => ⟨tm.retentionMs, tm.retentionBytes⟩

theorem mem_shardRetentions {state : MetadataState} :
    rc ∈ shardRetentions state shardID ↔ ShardRetention state shardID rc := by
  unfold shardRetentions ShardRetention
  simp only [mem_filterMap, Option.bind_eq_some_iff, Option.filter_eq_some_iff, decide_eq_true_eq,
    Option.map_eq_some_iff]
  constructor
  · rintro ⟨key, _, pm, ⟨found, shard⟩, tm, topic, same⟩
    exact ⟨key, pm, tm, found, shard, topic, same⟩
  · rintro ⟨key, pm, tm, found, shard, topic, same⟩
    have listed : key ∈ @KeyMap.sortedKeys _ _ PartitionKey.order state.partitions :=
      (@KeyMap.mem_sortedKeys _ _ PartitionKey.order _ _).mpr (mem_of_lookup_eq_some found)
    exact ⟨key, listed, pm, ⟨found, shard⟩, tm, topic, same⟩

instance admissibleDecidable (state : MetadataState) (command : MetadataCommand) :
    Decidable (Metadata.Admissible state command) :=
  inferInstanceAs (Decidable (Bounded ⟨[], state⟩ command))

theorem forall_ok_iff {Failure Value : Type} {outcome : Except Failure Value} {holds : Value → Prop} :
    (∀ value ∈ outcome.toOption, holds value) ↔ ∀ value, outcome = .ok value → holds value := by
  cases outcome with
  | error failure => simp [Except.toOption]
  | ok value => simp [Except.toOption]

instance settlingDecidable (cfg : Nat → StorageConfig) (unmarshal : Unmarshal)
    (cluster : RetentionCluster) : (event : RetentionEvent) → Decidable (Settling cfg unmarshal cluster event)
  | .createTopic _ _ _ _ _ => decidable_of_iff _ forall_ok_iff
  | .alterTopicPartitionCount _ _ => decidable_of_iff _ forall_ok_iff
  | .alterTopicRetention _ _ _ => inferInstanceAs (Decidable ((_ ∧ _ ∧ _ ∧ _) ∧ _))
  | .propose _ _ => .isTrue trivial
  | .produce _ _ _ => .isTrue trivial
  | .openReplica nodeID shardID left =>
    decidable_of_iff (∀ opened ∈ ((openFSM (cfg nodeID)).run left).1.toOption,
      ∀ rc ∈ shardRetentions cluster.metadata shardID,
        meaning (defaultRetention (cfg nodeID)) = meaning rc ∨ cluster.due unmarshal shardID opened.1 ≠ []) (by
      rw [forall_ok_iff]
      constructor
      · intro every index fsm ops rc ran holds
        exact every (index, fsm) (congrArg Prod.fst ran) rc (mem_shardRetentions.mpr holds)
      · intro every opened ran rc member
        exact every opened.1 opened.2 _ rc (Prod.ext ran rfl) (mem_shardRetentions.mp member))
  | .update _ _ _ => .isTrue trivial

end BunnyMQ.Cluster
