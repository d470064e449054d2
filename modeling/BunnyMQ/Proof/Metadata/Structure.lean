/-
This file shows how the topics and the partitions of the metadata hang together.
-/

import BunnyMQ.Construction.Metadata.MetadataFSM
import BunnyMQ.Library.Selection
import BunnyMQ.Library.Transition

namespace BunnyMQ.Metadata
open Foundation Transition MetadataState MetadataCommand KeyMap Finmap List
variable {key other : PartitionKey} {count : Nat} {command : MetadataCommand} {topic : String} {first : Int}
  {replicas : List (List Nat)} {second : MetadataState} {pm : PartitionMeta}

/-- The machine applies the commands one after the other. -/
def MetadataState.updateAll (state : MetadataState) (commands : List MetadataCommand) : MetadataState :=
  commands.foldl (fun state command => (state.update command).1) state

/-- The part of a partition that no later command changes. -/
def PartitionMeta.identity (pm : PartitionMeta) : String × Int × Nat × List Nat :=
  (pm.topic, pm.partitionID, pm.shardID, pm.replicaNodeIDs)

/-- The part of a topic that its partitions depend on. -/
def TopicMeta.shape (tm : TopicMeta) : Int × Int := (tm.partitionCount, tm.replicationFactor)

/-- The key lies in this range of a topic. -/
def InPartitions (topic : String) (first : Int) (count : Nat) (key : PartitionKey) : Prop :=
  key.topic = topic ∧ first ≤ key.partitionID ∧ key.partitionID < first + count

instance (topic : String) (first : Int) (count : Nat) (key : PartitionKey) :
    Decidable (InPartitions topic first count key) := inferInstanceAs (Decidable (_ ∧ _))

section
variable {partitions : KeyMap PartitionKey PartitionMeta} {topic : String} {first : Int} {count : Nat}

theorem inPartitions_iff :
    InPartitions topic first count key ↔ ∃ i ∈ range count, (PartitionKey.mk topic (first + (i : Nat))) = key := by
  constructor
  · rintro ⟨rfl, lower, upper⟩
    refine ⟨(key.partitionID - first).toNat, mem_range.mpr (by omega), ?_⟩
    have number : first + ((key.partitionID - first).toNat : Int) = key.partitionID := by omega
    rw [number]
  · rintro ⟨i, inside, rfl⟩
    have bound := mem_range.mp inside
    exact ⟨rfl, by simp only; omega, by simp only; omega⟩

/-- New partitions take the places of their range and leave the others alone. -/
theorem addPartitions_lookup (nextShardID : Nat) (replicas : List (List Nat)) (key : PartitionKey) :
    ((addPartitions partitions topic first nextShardID replicas count).lookup key) =
      if InPartitions topic first count key then
        some ⟨topic, key.partitionID, (nextShardID + (key.partitionID - first).toNat) % 2 ^ 64,
          replicas.getD (key.partitionID - first).toNat [], 0, 0⟩
      else partitions.lookup key := by
  unfold addPartitions
  split
  · next inside =>
    obtain ⟨i, member, rfl⟩ := inPartitions_iff.mp inside
    have place : (first + (i : Int) - first).toNat = i := by omega
    have distinct : ((range count).map fun (i : Nat) => PartitionKey.mk topic (first + i)).Nodup := by
      refine List.Nodup.map ?_ nodup_range
      intro a b same
      have numbers := congrArg PartitionKey.partitionID same
      simp only at numbers
      omega
    have stored := lookup_insertAll_of_mem (fun (i : Nat) => PartitionKey.mk topic (first + i))
      (fun (i : Nat) => PartitionMeta.mk topic (first + i) ((nextShardID + i) % 2 ^ 64) (replicas.getD i []) 0 0)
      partitions distinct member
    rw [stored]
    simp only [place]
  · next outside =>
    refine lookup_insertAll_of_notMem (fun (i : Nat) => PartitionKey.mk topic (first + i)) _ partitions ?_
    intro i member same
    exact outside (inPartitions_iff.mpr ⟨i, member, same⟩)

end

/-- The command left the topics and the partitions as they were, up to leaders and retention. -/
structure Keeps (state next : MetadataState) : Prop where
  topics : ∀ topic, (next.topics.lookup topic).map TopicMeta.shape = (state.topics.lookup topic).map TopicMeta.shape
  partitions : ∀ key, (next.partitions.lookup key).map PartitionMeta.identity =
    (state.partitions.lookup key).map PartitionMeta.identity
  nextShardID : next.nextShardID = state.nextShardID

/-- The command gave the next partitions of a topic consecutive new shards. -/
structure Grows (state : MetadataState) (topic : String) (first : Int) (count : Nat) (replicas : List (List Nat))
    (shape : Int × Int) (next : MetadataState) : Prop where
  positive : 0 < count
  topics : ∀ other, (next.topics.lookup other).map TopicMeta.shape =
    if other = topic then some shape else (state.topics.lookup other).map TopicMeta.shape
  partitions : ∀ key, (next.partitions.lookup key).map PartitionMeta.identity =
    if InPartitions topic first count key then
      some (topic, key.partitionID, state.nextShardID + (key.partitionID - first).toNat,
        replicas.getD (key.partitionID - first).toNat [])
    else (state.partitions.lookup key).map PartitionMeta.identity
  nextShardID : next.nextShardID = state.nextShardID + count

/-- The command deleted a topic with its partitions. -/
structure Drops (state : MetadataState) (topic : String) (count : Nat) (next : MetadataState) : Prop where
  topics : ∀ other, (next.topics.lookup other).map TopicMeta.shape =
    if other = topic then none else (state.topics.lookup other).map TopicMeta.shape
  partitions : ∀ key, (next.partitions.lookup key).map PartitionMeta.identity =
    if InPartitions topic 0 count key then none else (state.partitions.lookup key).map PartitionMeta.identity
  nextShardID : next.nextShardID = state.nextShardID

/-- The number of shards that a command gives away when it is accepted. -/
def MetadataState.newShards (state : MetadataState) : MetadataCommand → Nat
  | .createTopic cmd => cmd.partitionCount.toNat
  | .alterTopicPartCount cmd =>
    (cmd.newPartitionCount - ((state.topics.lookup cmd.name).map TopicMeta.partitionCount).getD 0).toNat
  | _ => 0

/-- The partition count of a command is a signed 32-bit number. -/
def MetadataCommand.Typed : MetadataCommand → Prop
  | .alterTopicPartCount cmd => -2 ^ 31 ≤ cmd.newPartitionCount ∧ cmd.newPartitionCount < 2 ^ 31
  | _ => True

/-- The command has the types of the source, and the next shard stays a 64-bit number. -/
structure Admissible (state : MetadataState) (command : MetadataCommand) : Prop where
  typed : command.Typed
  room : (state.update command).2 = okResult → state.nextShardID + state.newShards command < 2 ^ 64

section
variable {state : MetadataState}

theorem Keeps.refl (state : MetadataState) : Keeps state state := ⟨fun _ => rfl, fun _ => rfl, rfl⟩

theorem uint64_natCast (count : Nat) (small : count < 2 ^ 64) : uint64 count = count := by
  unfold uint64
  omega

/-- A new range without wrap-around grows its topic. -/
theorem grows_of_room {name : String} {first : Int} {count : Nat} {replicas : List (List Nat)} {tm : TopicMeta}
    (positive : 0 < count) (room : state.nextShardID + count < 2 ^ 64) :
    Grows state name first count replicas tm.shape { state with
      topics := state.topics.insert name tm
      partitions := addPartitions state.partitions name first state.nextShardID replicas count
      nextShardID := (state.nextShardID + uint64 count) % 2 ^ 64 } := by
  refine ⟨positive, ?_, ?_, ?_⟩
  · intro other
    simp only
    split
    · next same =>
      subst same
      rw [lookup_insert, Option.map_some]
    · next different => rw [lookup_insert_of_ne _ different]
  · intro key
    simp only
    rw [addPartitions_lookup]
    split
    · next inside =>
      obtain ⟨_, lower, upper⟩ := inside
      have unwrapped : (state.nextShardID + (key.partitionID - first).toNat) % 2 ^ 64 =
          state.nextShardID + (key.partitionID - first).toNat := Nat.mod_eq_of_lt (by omega)
      simp only [Option.map_some, PartitionMeta.identity, unwrapped]
    · rfl
  · simp only
    rw [uint64_natCast count (by omega), Nat.mod_eq_of_lt room]

/-- A deletion erases the topic and its partitions, one after the other. -/
theorem drops_topic {name : String} :
    Drops state name count { state with
      partitions := (range count).foldl (fun partitions (i : Nat) => partitions.erase ⟨name, i⟩) state.partitions
      topics := state.topics.erase name } := by
  refine ⟨?_, ?_, rfl⟩
  · intro other
    simp only
    split
    · next same =>
      subst same
      rw [Finmap.lookup_erase, Option.map_none]
    · next different => rw [lookup_erase_ne different]
  · intro key
    have range : key ∈ (range count).map (fun (i : Nat) => PartitionKey.mk name i) ↔
        InPartitions name 0 count key := by
      rw [inPartitions_iff, mem_map]
      simp only [zero_add]
    simp only
    rw [lookup_eraseAll (fun (i : Nat) => PartitionKey.mk name i), if_congr range rfl rfl]
    split
    · rfl
    · rfl

/-- A new leader changes nothing else of a partition. -/
theorem keeps_leader (cmd : AssignPartitionLeaderCmd) : Keeps state (state.applyAssignPartitionLeader cmd).1 := by
  unfold applyAssignPartitionLeader
  split
  · exact .refl state
  next partition found =>
  split
  · exact .refl state
  refine ⟨fun _ => rfl, ?_, rfl⟩
  intro key
  simp only
  by_cases same : key = ⟨cmd.topic, cmd.partitionID⟩
  · subst same
    rw [lookup_insert, found]
    rfl
  · rw [lookup_insert_of_ne _ same]

theorem keeps_retention (cmd : AlterTopicRetentionCmd) : Keeps state (state.applyAlterTopicRetention cmd).1 := by
  unfold applyAlterTopicRetention
  split
  · exact .refl state
  next topic found =>
  refine ⟨?_, fun _ => rfl, rfl⟩
  intro other
  simp only
  by_cases same : other = cmd.name
  · subst same
    rw [lookup_insert, found]
    rfl
  · rw [lookup_insert_of_ne _ same]

/-- These commands create, extend or delete a topic. -/
def MetadataCommand.reshapes : MetadataCommand → Bool
  | .createTopic _ => true
  | .deleteTopic _ => true
  | .alterTopicPartCount _ => true
  | _ => false

/-- The next state differs at most in the fields that such a command writes. -/
def MetadataCommand.Frame (state next : MetadataState) : MetadataCommand → Prop
  | .createTopic _ | .deleteTopic _ | .alterTopicPartCount _ => ∃ topics partitions nextShardID,
      next = { state with topics := topics, partitions := partitions, nextShardID := nextShardID }
  | .alterTopicRetention _ => ∃ topics, next = { state with topics := topics }
  | .registerNode _ => ∃ nodes, next = { state with nodes := nodes }
  | .assignPartitionLeader _ => ∃ partitions, next = { state with partitions := partitions }
  | _ => ∃ groups groupStates, next = { state with groups := groups, groupStates := groupStates }

/-- No command writes outside of its fields. -/
theorem applyCommand_frame (state : MetadataState) (command : MetadataCommand) :
    command.Frame state (state.applyCommand command).1 := by
  cases command with
  | createTopic cmd | deleteTopic cmd | alterTopicPartCount cmd =>
    simp only [MetadataCommand.Frame, applyCommand, applyCreateTopic, applyDeleteTopic, applyAlterTopicPartCount]
    repeat' split
    all_goals exact ⟨_, _, _, rfl⟩
  | alterTopicRetention cmd | registerNode cmd | assignPartitionLeader cmd =>
    simp only [MetadataCommand.Frame, applyCommand, applyAlterTopicRetention, applyRegisterNode,
      applyAssignPartitionLeader]
    repeat' split
    all_goals exact ⟨_, rfl⟩
  | _ =>
    simp only [MetadataCommand.Frame, applyCommand, applyJoinConsumerGroup, applyGroupStateJoin,
      applyLeaveConsumerGroup, applyGroupStateLeave, applyHeartbeatConsumerGroup, applyCommitConsumerOffset,
      applyGroupStateCommitOffset, applyRebalanceConsumerGroup]
    repeat' split
    all_goals exact ⟨_, _, rfl⟩

theorem update_frame (state : MetadataState) (command : MetadataCommand) :
    command.Frame state (state.update command).1 := by
  have frame := applyCommand_frame state command.roundTrip
  cases command with
  | _ => exact frame

theorem keeps_applyCommand (other : command.reshapes = false) : Keeps state (state.applyCommand command).1 := by
  have frame := applyCommand_frame state command
  cases command with
  | createTopic cmd | deleteTopic cmd | alterTopicPartCount cmd => cases other
  | assignPartitionLeader cmd => exact keeps_leader cmd
  | alterTopicRetention cmd => exact keeps_retention cmd
  | registerNode cmd => exact ⟨fun _ => rfl, fun _ => rfl, rfl⟩
  | _ =>
    obtain ⟨_, _, same⟩ := frame
    rw [same]
    exact ⟨fun _ => rfl, fun _ => rfl, rfl⟩

theorem MetadataCommand.reshapes_roundTrip (command : MetadataCommand) :
    command.roundTrip.reshapes = command.reshapes := by
  cases command with
  | _ => rfl

theorem keeps_other {command : MetadataCommand} (other : command.reshapes = false) :
    Keeps state (state.update command).1 :=
  keeps_applyCommand (command.reshapes_roundTrip.trans other)

/-- Every command keeps the topics and partitions, creates a topic, extends one or deletes one. -/
inductive Reshaped (state : MetadataState) : MetadataCommand → MetadataState → Prop
  | kept {command : MetadataCommand} {next : MetadataState} : Keeps state next → Reshaped state command next
  | created {next : MetadataState} (cmd : CreateTopicCmd) : state.topics.lookup cmd.name = none →
      0 < cmd.replicationFactor → int32 cmd.replicaNodeIDs.length = cmd.partitionCount →
      Grows state cmd.name 0 cmd.partitionCount.toNat cmd.replicaNodeIDs (cmd.partitionCount, cmd.replicationFactor)
        next →
      Reshaped state (.createTopic cmd) next
  | extended {next : MetadataState} (cmd : AlterTopicPartCountCmd) (tm : TopicMeta) :
      state.topics.lookup cmd.name = some tm → tm.partitionCount < cmd.newPartitionCount →
      Grows state cmd.name tm.partitionCount (cmd.newPartitionCount - tm.partitionCount).toNat
        cmd.newReplicaAssignments (cmd.newPartitionCount, tm.replicationFactor) next →
      Reshaped state (.alterTopicPartCount cmd) next
  | deleted {next : MetadataState} (cmd : DeleteTopicCmd) (tm : TopicMeta) :
      state.topics.lookup cmd.name = some tm → Drops state cmd.name tm.partitionCount.toNat next →
      Reshaped state (.deleteTopic cmd) next

/-- An accepted creation adds the partitions of the topic. -/
theorem reshaped_create {cmd : CreateTopicCmd} (admissible : Admissible state (.createTopic cmd)) :
    Reshaped state (.createTopic cmd) (state.update (.createTopic cmd)).1 := by
  have room := admissible.room
  simp only [update, roundTrip, applyCommand,
    applyCreateTopic, newShards] at room ⊢
  split
  · exact .kept (.refl state)
  next absent =>
  split
  · exact .kept (.refl state)
  next positive =>
  split
  · exact .kept (.refl state)
  next sized =>
  rw [if_neg absent, if_neg positive, if_neg sized] at room
  obtain ⟨some, factor⟩ := not_or.mp positive
  have natural : ((cmd.partitionCount.toNat : Nat) : Int) = cmd.partitionCount := by omega
  have grown := @grows_of_room state cmd.name 0 cmd.partitionCount.toNat cmd.replicaNodeIDs
    ⟨cmd.name, cmd.partitionCount, cmd.replicationFactor, cmd.retentionMs, cmd.retentionBytes, cmd.createdAtMs⟩
    (by omega) (room rfl)
  rw [natural] at grown
  exact .created cmd (by simpa using absent) (by omega) (not_not.mp sized) grown

/-- An accepted extension adds the partitions behind the old ones. -/
theorem reshaped_alter {cmd : AlterTopicPartCountCmd} (admissible : Admissible state (.alterTopicPartCount cmd))
    (counted : ∀ topic tm, state.topics.lookup topic = some tm → 0 ≤ tm.partitionCount) :
    Reshaped state (.alterTopicPartCount cmd) (state.update (.alterTopicPartCount cmd)).1 := by
  obtain ⟨⟨_, upper⟩, room⟩ := admissible
  simp only [update, roundTrip, applyCommand,
    applyAlterTopicPartCount, newShards] at room ⊢
  cases found : state.topics.lookup cmd.name with
  | none => exact .kept (.refl state)
  | some tm =>
    simp only [found, Option.map_some, Option.getD_some] at room ⊢
    split
    · exact .kept (.refl state)
    next more =>
    rw [if_neg more] at room
    have lower := counted cmd.name tm found
    have unwrapped : int32 (cmd.newPartitionCount - tm.partitionCount) =
        ((cmd.newPartitionCount - tm.partitionCount).toNat : Nat) := by
      rw [int32_of_range (by omega) (by omega)]
      omega
    have grown := @grows_of_room state cmd.name tm.partitionCount
      (cmd.newPartitionCount - tm.partitionCount).toNat cmd.newReplicaAssignments
      { tm with partitionCount := cmd.newPartitionCount } (by omega) (room rfl)
    rw [unwrapped, Int.toNat_natCast]
    exact .extended cmd tm found (by omega) grown

/-- This lemma says what a command can do to topics and partitions. -/
theorem update_reshaped (admissible : Admissible state command)
    (counted : ∀ topic tm, state.topics.lookup topic = some tm → 0 ≤ tm.partitionCount) :
    Reshaped state command (state.update command).1 := by
  cases command with
  | createTopic cmd => exact reshaped_create admissible
  | alterTopicPartCount cmd => exact reshaped_alter admissible counted
  | deleteTopic cmd =>
    simp only [update, roundTrip, applyCommand,
      applyDeleteTopic]
    cases found : state.topics.lookup cmd.name with
    | none => exact .kept (.refl state)
    | some tm => exact .deleted cmd tm found drops_topic
  | _ => exact .kept (keeps_other rfl)

end

/-- The partitions are those of the topics, they know their places, and no two of them share a shard. -/
structure Structured (state : MetadataState) : Prop where
  keys : ∀ key, key ∈ state.partitions ↔ ∃ tm, state.topics.lookup key.topic = some tm ∧
    0 ≤ key.partitionID ∧ key.partitionID < tm.partitionCount
  named : ∀ key pm, state.partitions.lookup key = some pm → pm.topic = key.topic ∧ pm.partitionID = key.partitionID
  distinct : ∀ key other pm second, state.partitions.lookup key = some pm →
    state.partitions.lookup other = some second → pm.shardID = second.shardID → key = other
  bounded : ∀ key pm, state.partitions.lookup key = some pm → 1 ≤ pm.shardID ∧ pm.shardID < state.nextShardID
  counted : ∀ topic tm, state.topics.lookup topic = some tm → 0 < tm.partitionCount
  positive : 1 ≤ state.nextShardID

/-- The same over the shapes of the topics and the identities of the partitions. -/
structure Layout (shape : String → Option (Int × Int))
    (identity : PartitionKey → Option (String × Int × Nat × List Nat)) (nextShardID : Nat) : Prop where
  keys : ∀ key, (identity key).isSome ↔ ∃ size, shape key.topic = some size ∧
    0 ≤ key.partitionID ∧ key.partitionID < size.1
  named : ∀ key part, identity key = some part → part.1 = key.topic ∧ part.2.1 = key.partitionID
  distinct : ∀ key other part second, identity key = some part → identity other = some second →
    part.2.2.1 = second.2.2.1 → key = other
  bounded : ∀ key part, identity key = some part → 1 ≤ part.2.2.1 ∧ part.2.2.1 < nextShardID
  counted : ∀ topic size, shape topic = some size → 0 < size.1
  positive : 1 ≤ nextShardID

def MetadataState.shapes (state : MetadataState) (topic : String) : Option (Int × Int) :=
  (state.topics.lookup topic).map TopicMeta.shape

def MetadataState.identities (state : MetadataState) (key : PartitionKey) : Option (String × Int × Nat × List Nat) :=
  (state.partitions.lookup key).map PartitionMeta.identity

section
variable {state next : MetadataState}

/-- The structure of a state is the layout of its shapes and identities. -/
theorem structured_iff_layout : Structured state ↔ Layout state.shapes state.identities state.nextShardID := by
  unfold MetadataState.shapes MetadataState.identities
  constructor
  · rintro ⟨keys, named, distinct, bounded, counted, positive⟩
    refine ⟨?_, ?_, ?_, ?_, ?_, positive⟩
    · intro key
      rw [Option.isSome_map, lookup_isSome, keys]
      simp [TopicMeta.shape]
    · intro key part found
      obtain ⟨pm, stored, rfl⟩ := Option.map_eq_some_iff.mp found
      exact named key pm stored
    · intro key other part second found also
      obtain ⟨pm, stored, rfl⟩ := Option.map_eq_some_iff.mp found
      obtain ⟨pm', stored', rfl⟩ := Option.map_eq_some_iff.mp also
      exact distinct key other pm pm' stored stored'
    · intro key part found
      obtain ⟨pm, stored, rfl⟩ := Option.map_eq_some_iff.mp found
      exact bounded key pm stored
    · intro topic size found
      obtain ⟨tm, stored, rfl⟩ := Option.map_eq_some_iff.mp found
      exact counted topic tm stored
  · rintro ⟨keys, named, distinct, bounded, counted, positive⟩
    refine ⟨?_, ?_, ?_, ?_, ?_, positive⟩
    · intro key
      rw [← lookup_isSome, ← Option.isSome_map, keys]
      simp [TopicMeta.shape]
    · intro key pm stored
      exact named key pm.identity (by rw [stored, Option.map_some])
    · intro key other pm second stored also same
      exact distinct key other pm.identity second.identity (by rw [stored, Option.map_some])
        (by rw [also, Option.map_some]) same
    · intro key pm stored
      exact bounded key pm.identity (by rw [stored, Option.map_some])
    · intro topic tm stored
      exact counted topic tm.shape (by rw [stored, Option.map_some])

/-- A partition of the grown state is new, or it was there before. -/
theorem Grows.identity_cases {shape : Int × Int} (grows : Grows state topic first count replicas shape next)
    {part : String × Int × Nat × List Nat} (found : next.identities key = some part) :
    InPartitions topic first count key ∧ part = (topic, key.partitionID,
        state.nextShardID + (key.partitionID - first).toNat, replicas.getD (key.partitionID - first).toNat []) ∨
      state.identities key = some part := by
  rw [MetadataState.identities, grows.partitions] at found
  split at found
  · next inside => exact .inl ⟨inside, (Option.some.inj found).symm⟩
  · exact .inr found

/-- A partition that is left after a deletion was there before. -/
theorem Drops.identity_old (drops : Drops state topic count next) {part : String × Int × Nat × List Nat}
    (found : next.identities key = some part) : state.identities key = some part := by
  rw [MetadataState.identities, drops.partitions] at found
  split at found
  · cases found
  · exact found

theorem InPartitions.ext (inside : InPartitions topic first count key) (within : InPartitions topic first count other)
    (same : (key.partitionID - first).toNat = (other.partitionID - first).toNat) : key = other := by
  obtain ⟨topics, lower, _⟩ := inside
  obtain ⟨topics', lower', _⟩ := within
  have numbers : key.partitionID = other.partitionID := by omega
  calc key = ⟨key.topic, key.partitionID⟩ := rfl
    _ = ⟨other.topic, other.partitionID⟩ := by rw [topics, topics', numbers]
    _ = other := rfl

/-- The keys of a topic that grew reach from the start through its new count. -/
theorem Layout.grows_keys {shape : Int × Int} (layout : Layout state.shapes state.identities state.nextShardID)
    (grows : Grows state topic first count replicas shape next)
    (before : first = ((state.shapes topic).map Prod.fst).getD 0) (lower : 0 ≤ first)
    (after : shape.1 = first + count) (key : PartitionKey) :
    (next.identities key).isSome ↔ ∃ size, next.shapes key.topic = some size ∧
      0 ≤ key.partitionID ∧ key.partitionID < size.1 := by
  rw [MetadataState.identities, grows.partitions, MetadataState.shapes, grows.topics]
  by_cases own : key.topic = topic
  · have old : (state.identities key).isSome ↔ 0 ≤ key.partitionID ∧ key.partitionID < first := by
      rw [layout.keys, own, before]
      cases state.shapes topic with
      | none => simp
      | some size => simp
    rw [if_pos own]
    split
    · next inside =>
      obtain ⟨_, above, below⟩ := inside
      exact iff_of_true rfl ⟨shape, rfl, by omega, by omega⟩
    · next outside =>
      have beside : ¬ (first ≤ key.partitionID ∧ key.partitionID < first + count) := fun inside =>
        outside ⟨own, inside⟩
      change (state.identities key).isSome ↔ _
      rw [old]
      constructor
      · intro ⟨above, below⟩
        exact ⟨shape, rfl, above, by omega⟩
      · intro ⟨size, same, above, below⟩
        cases same
        omega
  · rw [if_neg own, if_neg fun inside => own inside.1]
    exact layout.keys key

/-- Partitions with the next shard ids extend the layout. -/
theorem Layout.grows {shape : Int × Int} (layout : Layout state.shapes state.identities state.nextShardID)
    (grows : Grows state topic first count replicas shape next)
    (before : first = ((state.shapes topic).map Prod.fst).getD 0) (after : shape.1 = first + count) :
    Layout next.shapes next.identities next.nextShardID := by
  have lower : 0 ≤ first := by
    rw [before]
    cases found : state.shapes topic with
    | none => exact le_refl _
    | some size => exact (layout.counted topic size found).le
  have positive := grows.positive
  have room := grows.nextShardID
  have base := layout.positive
  refine ⟨layout.grows_keys grows before lower after, ?_, ?_, ?_, ?_, by omega⟩
  · intro key part found
    rcases grows.identity_cases found with ⟨inside, rfl⟩ | old
    · exact ⟨inside.1.symm, rfl⟩
    · exact layout.named key part old
  · intro key other part second found also same
    -- The new shards are consecutive and lie above the old ones.
    rcases grows.identity_cases found with ⟨inside, rfl⟩ | old
    · rcases grows.identity_cases also with ⟨within, rfl⟩ | old'
      · exact inside.ext within (Nat.add_left_cancel same)
      · have bound := layout.bounded other second old'
        simp only at same
        omega
    · rcases grows.identity_cases also with ⟨within, rfl⟩ | old'
      · have bound := layout.bounded key part old
        simp only at same
        omega
      · exact layout.distinct key other part second old old' same
  · intro key part found
    rcases grows.identity_cases found with ⟨⟨_, above, below⟩, rfl⟩ | old
    · simp only
      omega
    · have bound := layout.bounded key part old
      omega
  · intro other size found
    rw [MetadataState.shapes, grows.topics] at found
    split at found
    · cases found
      omega
    · exact layout.counted other size found

/-- The layout survives the deletion of a whole topic. -/
theorem Layout.drops {topic : String} {count : Nat} {size : Int × Int}
    (layout : Layout state.shapes state.identities state.nextShardID) (drops : Drops state topic count next)
    (known : state.shapes topic = some size) (whole : count = size.1.toNat) :
    Layout next.shapes next.identities next.nextShardID := by
  have shapes : ∀ other, next.shapes other = if other = topic then none else state.shapes other := drops.topics
  have identities : ∀ key, next.identities key = if InPartitions topic 0 count key then none
      else state.identities key := drops.partitions
  rw [drops.nextShardID]
  refine ⟨?_, ?_, ?_, ?_, ?_, layout.positive⟩
  · intro key
    rw [identities, shapes]
    by_cases own : key.topic = topic
    · rw [if_pos own]
      refine iff_of_false ?_ (by simp)
      split
      · simp
      · next outside =>
        intro present
        obtain ⟨found, same, above, below⟩ := (layout.keys key).mp present
        rw [own, known] at same
        cases same
        exact outside ⟨own, above, by omega⟩
    · rw [if_neg own, if_neg fun inside => own inside.1]
      exact layout.keys key
  · intro key part found
    exact layout.named key part (drops.identity_old found)
  · intro key other part second found also
    exact layout.distinct key other part second (drops.identity_old found) (drops.identity_old also)
  · intro key part found
    exact layout.bounded key part (drops.identity_old found)
  · intro other found same
    rw [shapes] at same
    split at same
    · cases same
    · exact layout.counted other found same

theorem Structured.nonneg (structured : Structured state) (topic : String) (tm : TopicMeta)
    (found : state.topics.lookup topic = some tm) : 0 ≤ tm.partitionCount :=
  (structured.counted topic tm found).le

/-- Every command keeps the structure. -/
theorem Structured.reshaped (structured : Structured state) (reshaped : Reshaped state command next) :
    Structured next := by
  have layout := structured_iff_layout.mp structured
  rw [structured_iff_layout]
  cases reshaped with
  | kept keeps =>
    rw [show next.shapes = state.shapes from funext keeps.topics,
      show next.identities = state.identities from funext keeps.partitions, keeps.nextShardID]
    exact layout
  | created cmd absent _ _ grows =>
    have positive := grows.positive
    refine layout.grows grows ?_ (by simp only; omega)
    rw [MetadataState.shapes, absent]
    rfl
  | extended cmd tm found more grows =>
    refine layout.grows grows ?_ (by simp only; omega)
    rw [MetadataState.shapes, found]
    rfl
  | deleted cmd tm found drops =>
    refine @Layout.drops state next cmd.name _ tm.shape layout drops ?_ rfl
    rw [MetadataState.shapes, found]
    rfl

/-- Between two states the next shard has not decreased, and a partition of the later state with an old shard was
a partition of the earlier state. -/
structure Later (earlier later : MetadataState) : Prop where
  nextShardID : earlier.nextShardID ≤ later.nextShardID
  partitions : ∀ key part, later.identities key = some part → part.2.2.1 < earlier.nextShardID →
    earlier.identities key = some part

theorem Later.refl (state : MetadataState) : Later state state := ⟨le_refl _, fun _ _ found _ => found⟩

theorem Later.trans {first third : MetadataState} (before : Later first second) (after : Later second third) :
    Later first third := by
  refine ⟨before.nextShardID.trans after.nextShardID, ?_⟩
  intro key part found old
  have between := after.partitions key part found (old.trans_le before.nextShardID)
  exact before.partitions key part between old

/-- A command gives new partitions new shards only. -/
theorem Later.reshaped (reshaped : Reshaped state command next) : Later state next := by
  have grown {topic : String} {first : Int} {count : Nat} {replicas : List (List Nat)} {shape : Int × Int}
      (grows : Grows state topic first count replicas shape next) : Later state next := by
    refine ⟨by have room := grows.nextShardID; omega, ?_⟩
    intro key part found old
    rcases grows.identity_cases found with ⟨_, rfl⟩ | kept
    · simp only at old
      omega
    · exact kept
  cases reshaped with
  | kept keeps =>
    refine ⟨keeps.nextShardID.ge, ?_⟩
    intro key part found _
    rw [MetadataState.identities, keeps.partitions] at found
    exact found
  | created cmd _ _ _ grows => exact grown grows
  | extended cmd tm _ _ grows => exact grown grows
  | deleted cmd tm _ drops =>
    refine ⟨drops.nextShardID.ge, ?_⟩
    intro key part found _
    exact drops.identity_old found

/-- A command never replaces a partition that is there. -/
theorem Structured.keeps_identity (structured : Structured state) (reshaped : Reshaped state command next)
    {after : PartitionMeta} (stored : state.partitions.lookup key = some pm)
    (found : next.partitions.lookup key = some after) : after.identity = pm.identity := by
  have identified : next.identities key = some after.identity := by rw [MetadataState.identities, found]; rfl
  have before : state.identities key = some pm.identity := by rw [MetadataState.identities, stored]; rfl
  obtain ⟨tm, known, _, inside⟩ := (structured.keys key).mp (mem_of_lookup_eq_some stored)
  have grown {first : Int} {count : Nat} {replicas : List (List Nat)} {topic : String} {shape : Int × Int}
      (grows : Grows state topic first count replicas shape next)
      (outside : key.topic = topic → key.partitionID < first) : after.identity = pm.identity := by
    rcases grows.identity_cases identified with ⟨⟨own, above, _⟩, _⟩ | kept
    · exact absurd (outside own) (not_lt.mpr above)
    · exact Option.some.inj (kept.symm.trans before)
  cases reshaped with
  | kept keeps =>
    rw [MetadataState.identities, keeps.partitions] at identified
    exact Option.some.inj (identified.symm.trans before)
  | created cmd absent _ _ grows =>
    refine grown grows ?_
    intro own
    rw [own, absent] at known
    cases known
  | extended cmd other present _ grows =>
    refine grown grows ?_
    intro own
    rw [own, present] at known
    cases known
    exact inside
  | deleted cmd other _ drops =>
    exact Option.some.inj ((drops.identity_old identified).symm.trans before)

/-- The topics are stored under their names. -/
def TopicsNamed (state : MetadataState) : Prop :=
  ∀ topic tm, state.topics.lookup topic = some tm → tm.name = topic

/-- Every command keeps each topic under its own name. -/
theorem TopicsNamed.update (named : TopicsNamed state) (command : MetadataCommand) :
    TopicsNamed (state.update command).1 := by
  have frame := update_frame state command
  cases command with
  | createTopic cmd =>
    simp only [MetadataState.update, roundTrip, applyCommand,
      applyCreateTopic]
    repeat' split
    all_goals first | exact named | exact forall_insert named rfl
  | deleteTopic cmd =>
    simp only [MetadataState.update, roundTrip, applyCommand,
      applyDeleteTopic]
    split
    · exact named
    · exact forall_erase named cmd.name
  | alterTopicPartCount cmd =>
    simp only [MetadataState.update, roundTrip, applyCommand,
      applyAlterTopicPartCount]
    split
    · exact named
    next tm found =>
    split
    · exact named
    · exact forall_insert named (named cmd.name tm found)
  | alterTopicRetention cmd =>
    simp only [MetadataState.update, roundTrip, applyCommand,
      applyAlterTopicRetention]
    split
    · exact named
    next tm found => exact forall_insert named (named cmd.name tm found)
  | registerNode cmd | assignPartitionLeader cmd =>
    obtain ⟨_, same⟩ := frame
    rw [same]
    exact named
  | _ =>
    obtain ⟨_, _, same⟩ := frame
    rw [same]
    exact named

/-- No topic has a negative number of partitions. -/
def Sized (state : MetadataState) : Prop := ∀ name tm, state.topics.lookup name = some tm → 0 ≤ tm.partitionCount

theorem Sized.of_keeps {next : MetadataState} (sized : Sized state) (keeps : Keeps state next) : Sized next := by
  intro topic tm stored
  have same := keeps.topics topic
  rw [stored, Option.map_some] at same
  obtain ⟨old, before, shape⟩ := Option.map_eq_some_iff.mp same.symm
  have counts : old.partitionCount = tm.partitionCount := congrArg Prod.fst shape
  have nonneg := sized topic old before
  omega

/-- Every command keeps the partition counts nonnegative. -/
theorem Sized.applyCommand (sized : Sized state) (command : MetadataCommand) :
    Sized (state.applyCommand command).1 := by
  cases command with
  | createTopic cmd =>
    simp only [MetadataState.applyCommand, applyCreateTopic]
    split
    · exact sized
    split
    · exact sized
    next positive =>
    split
    · exact sized
    · refine forall_insert sized ?_
      simp only [not_or, not_le] at positive
      exact positive.1.le
  | deleteTopic cmd =>
    simp only [MetadataState.applyCommand, applyDeleteTopic]
    split
    · exact sized
    · exact forall_erase sized cmd.name
  | alterTopicPartCount cmd =>
    simp only [MetadataState.applyCommand, applyAlterTopicPartCount]
    split
    · exact sized
    next tm found =>
    split
    · exact sized
    next larger =>
    refine forall_insert sized ?_
    have nonneg := sized cmd.name tm found
    simp only
    omega
  | _ => exact sized.of_keeps (keeps_applyCommand rfl)

theorem Sized.update (sized : Sized state) (command : MetadataCommand) : Sized (state.update command).1 :=
  sized.applyCommand command.roundTrip

end

/-- All states of a run of the metadata. -/
structure History where
  earlier : List MetadataState
  current : MetadataState

namespace History

def states (history : History) : List MetadataState := history.earlier ++ [history.current]

def apply (history : History) (command : MetadataCommand) : History :=
  ⟨history.states, (history.current.update command).1⟩

def step (history : History) (command : MetadataCommand) : Option History := some (history.apply command)

/-- The history of a fresh machine. -/
def start : History := ⟨[], MetadataState.initial⟩

end History

/-- A run applies one command after the other to a fresh machine. -/
def metadataRuns : System History MetadataCommand where
  start history := history = History.start
  step history command next := history.step command = some next

theorem sized_of_reaches {history : History} (reached : metadataRuns.Reaches System.Free history) :
    Sized history.current := by
  refine @System.Reaches.invariant _ _ _ _ (fun history => Sized history.current) ?_ ?_ _ reached
  · rintro _ rfl
    intro topic tm stored
    rw [show History.start.current.topics = ∅ from rfl, lookup_empty] at stored
    cases stored
  · intro history command next sized _ moved
    cases moved
    exact sized.update command

/-- Every command has the types of the source and leaves the next shard below the limit. -/
def Bounded (history : History) (command : MetadataCommand) : Prop := Admissible history.current command

instance : (command : MetadataCommand) → Decidable command.Typed
  | .alterTopicPartCount _ => inferInstanceAs (Decidable (_ ∧ _))
  | .createTopic _ | .deleteTopic _ | .alterTopicRetention _ | .registerNode _ | .assignPartitionLeader _
  | .joinConsumerGroup _ | .leaveConsumerGroup _ | .heartbeatConsumerGroup _ | .commitConsumerOffset _
  | .rebalanceConsumerGroup _ | .unknown => .isTrue trivial

instance (history : History) (command : MetadataCommand) : Decidable (Bounded history command) :=
  decidable_of_iff (command.Typed ∧ ((history.current.update command).2 = okResult →
    history.current.nextShardID + history.current.newShards command < 2 ^ 64))
    ⟨fun both => ⟨both.1, both.2⟩, fun both => ⟨both.typed, both.room⟩⟩

/-- A shard that a partition has had stays with this partition without a break or is gone for good. -/
def NeverReused (states : List MetadataState) : Prop :=
  ∀ (i j k : Nat) (first middle last : MetadataState), i ≤ j → j ≤ k → states[i]? = some first →
    states[j]? = some middle → states[k]? = some last →
    ∀ (key other : PartitionKey) (pm second : PartitionMeta), first.partitions.lookup key = some pm →
    last.partitions.lookup other = some second → pm.shardID = second.shardID →
    key = other ∧ (middle.partitions.lookup key).map PartitionMeta.shardID = some pm.shardID

/-- All states of the run are structured, and each comes later than the ones before it. -/
structure Recorded (history : History) : Prop where
  structured : ∀ state ∈ history.states, Structured state
  ordered : history.states.Pairwise Later

theorem Structured.initial : Structured MetadataState.initial := by
  refine ⟨?_, ?_, ?_, ?_, ?_, le_refl _⟩
  · intro key
    refine iff_of_false notMem_empty ?_
    rintro ⟨tm, found, _⟩
    cases found
  all_goals
    intro _ _
    intros
    contradiction

section
variable {history : History}

theorem History.current_mem (history : History) : history.current ∈ history.states :=
  mem_append_right _ (mem_singleton.mpr rfl)

theorem Recorded.start : Recorded History.start := by
  refine ⟨?_, pairwise_singleton _ _⟩
  intro state member
  rw [mem_singleton.mp member]
  exact Structured.initial

theorem Recorded.reshaped (recorded : Recorded history)
    (reshaped : Reshaped history.current command (history.current.update command).1) :
    Recorded (history.apply command) := by
  have structured := recorded.structured history.current history.current_mem
  refine ⟨?_, ?_⟩
  · intro state member
    rcases mem_append.mp member with old | last
    · exact recorded.structured state old
    · rw [mem_singleton.mp last]
      exact structured.reshaped reshaped
  · refine pairwise_append.mpr ⟨recorded.ordered, pairwise_singleton _ _, ?_⟩
    intro state member last same
    rw [mem_singleton.mp same]
    have step := Later.reshaped reshaped
    rcases mem_append.mp member with earlier | current
    · have before := (pairwise_append.mp recorded.ordered).2.2 state earlier history.current
        (mem_singleton.mpr rfl)
      exact before.trans step
    · rw [mem_singleton.mp current]
      exact step

theorem Recorded.apply (recorded : Recorded history) (bounded : Bounded history command) :
    Recorded (history.apply command) := by
  have structured := recorded.structured history.current history.current_mem
  exact recorded.reshaped (update_reshaped bounded structured.nonneg)

theorem Recorded.later (recorded : Recorded history) {i j : Nat} {first : MetadataState} (order : i ≤ j)
    (found : history.states[i]? = some first) (also : history.states[j]? = some second) : Later first second :=
  Selection.related_of_le Later.refl recorded.ordered order found also

/-- A partition of an earlier state with the shard of a later partition is this partition. -/
theorem Later.same_partition {first : MetadataState} (later : Later first second) (structured : Structured first)
    {also : PartitionMeta} (stored : first.partitions.lookup key = some pm)
    (found : second.partitions.lookup other = some also) (same : pm.shardID = also.shardID) :
    key = other ∧ pm.identity = also.identity := by
  have old := (structured.bounded key pm stored).2
  have identified : second.identities other = some also.identity := by
    rw [MetadataState.identities, found, Option.map_some]
  have kept := later.partitions other also.identity identified (by simp only [PartitionMeta.identity]; omega)
  obtain ⟨original, present, identity⟩ := Option.map_eq_some_iff.mp kept
  have shards : original.shardID = also.shardID := congrArg (fun part => part.2.2.1) identity
  have sameKey := structured.distinct key other pm original stored present (by omega)
  subst sameKey
  rw [stored] at present
  cases present
  exact ⟨rfl, identity⟩

/-- In all states of a run a shard belongs to one partition. -/
theorem Recorded.same_partition (recorded : Recorded history) {first : MetadataState}
    (atFirst : first ∈ history.states) (atSecond : second ∈ history.states) {also : PartitionMeta}
    (stored : first.partitions.lookup key = some pm) (found : second.partitions.lookup other = some also)
    (same : pm.shardID = also.shardID) : key = other ∧ pm.identity = also.identity := by
  have order : Later first second ∨ Later second first := by
    obtain ⟨i, inside, rfl⟩ := getElem_of_mem atFirst
    obtain ⟨j, within, rfl⟩ := getElem_of_mem atSecond
    rcases Nat.le_total i j with before | after
    · exact .inl (recorded.later before (List.getElem?_eq_getElem inside) (List.getElem?_eq_getElem within))
    · exact .inr (recorded.later after (List.getElem?_eq_getElem within) (List.getElem?_eq_getElem inside))
  rcases order with before | after
  · exact before.same_partition (recorded.structured first atFirst) stored found same
  · obtain ⟨sameKey, identity⟩ := after.same_partition (recorded.structured second atSecond) found stored same.symm
    exact ⟨sameKey.symm, identity.symm⟩

theorem Recorded.neverReused (recorded : Recorded history) : NeverReused history.states := by
  intro i j k first middle last between behind atFirst atMiddle atLast key other pm second stored also same
  have structured := recorded.structured first (mem_of_getElem? atFirst)
  have before := recorded.later between atFirst atMiddle
  have after := recorded.later behind atMiddle atLast
  obtain ⟨sameKey, _⟩ := (before.trans after).same_partition structured stored also same
  subst sameKey
  have old := (structured.bounded key pm stored).2
  have found : last.identities key = some second.identity := by rw [MetadataState.identities, also, Option.map_some]
  have small : second.shardID < middle.nextShardID := by
    have order := before.nextShardID
    omega
  obtain ⟨kept, present, identity⟩ := Option.map_eq_some_iff.mp (after.partitions key second.identity found small)
  have shards : kept.shardID = second.shardID := congrArg (fun part => part.2.2.1) identity
  refine ⟨rfl, ?_⟩
  rw [present, Option.map_some, shards, same]

theorem recorded_of_reaches {allowed : History → MetadataCommand → Prop}
    (bounded : ∀ history command, allowed history command → Bounded history command)
    (reached : metadataRuns.Reaches allowed history) : Recorded history := by
  refine @System.Reaches.invariant _ _ _ _ Recorded ?_ ?_ _ reached
  · rintro history rfl
    exact Recorded.start
  · intro history command next recorded permitted moved
    cases moved
    exact recorded.apply (bounded history command permitted)

end

/-- In every run the partitions are those of the topics, the next shard never decreases, and no shard is given
away twice. -/
theorem metadata_structured (history : History) (reached : metadataRuns.Reaches Bounded history) :
    (∀ state ∈ history.states, Structured state) ∧
      history.states.Pairwise (fun earlier later => earlier.nextShardID ≤ later.nextShardID) ∧
      NeverReused history.states := by
  have recorded := recorded_of_reaches (fun _ _ bounded => bounded) reached
  exact ⟨recorded.structured, recorded.ordered.imp Later.nextShardID, recorded.neverReused⟩

/-- A topic is created, deleted, created again and extended. -/
def ordersCommands : List MetadataCommand :=
  [.createTopic ⟨"orders", 2, 1, 0, 0, 0, [[1], [2]]⟩, .deleteTopic ⟨"orders"⟩,
    .createTopic ⟨"orders", 1, 1, 0, 0, 0, [[1]]⟩, .alterTopicPartCount ⟨"orders", 3, [[2], [1]]⟩]

theorem metadata_structured_after_recreation :
    ∃ history, follow History.step History.start ordersCommands = some history ∧
      history.states.map (fun state => (state.nextShardID, ([0, 1, 2] : List Int).map fun number =>
        (state.partitions.lookup ⟨"orders", number⟩).map PartitionMeta.shardID)) =
        [(1, [none, none, none]), (3, [some 1, some 2, none]), (3, [none, none, none]), (4, [some 3, none, none]),
          (6, [some 3, some 4, some 5])] ∧
      (∀ state ∈ history.states, Structured state) ∧
      history.states.Pairwise (fun earlier later => earlier.nextShardID ≤ later.nextShardID) ∧
      NeverReused history.states := by
  have followed : follow History.step History.start ordersCommands =
      some ((follow History.step History.start ordersCommands).get (by decide +kernel)) := (Option.some_get _).symm
  have reached : metadataRuns.Reaches Bounded _ := System.Reaches.run rfl
    (by decide +kernel : permits _ Bounded _ _) followed
  exact ⟨_, followed, by decide +kernel, metadata_structured _ reached⟩

end BunnyMQ.Metadata
