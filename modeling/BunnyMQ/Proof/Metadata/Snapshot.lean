/-
This file shows that a snapshot gives back the metadata that it was taken of.
-/

import BunnyMQ.Construction.Metadata.Snapshot
import BunnyMQ.Proof.Metadata.Structure

namespace BunnyMQ.Metadata
open Foundation Transition MetadataState KeyMap Finmap
variable {partitions : KeyMap PartitionKey PartitionMeta} {command : MetadataCommand}

/-- The partition numbers of a command are signed 32-bit numbers. -/
def MetadataCommand.Fits : MetadataCommand → Prop
  | .createTopic cmd => cmd.partitionCount < 2 ^ 31
  | .alterTopicPartCount cmd => cmd.newPartitionCount < 2 ^ 31
  | .joinConsumerGroup cmd => ∀ assignment, cmd.newAssignment = some assignment →
    GroupState.assignmentsCodec.Admits assignment
  | .leaveConsumerGroup cmd => ∀ assignment, cmd.newAssignment = some assignment →
    GroupState.assignmentsCodec.Admits assignment
  | .commitConsumerOffset cmd => (∀ offset ∈ cmd.offsets, Int32Range offset.partitionID) ∧
      ∀ offsets, cmd.groupOffsets = some offsets → GroupState.offsetsCodec.Admits offsets
  | _ => True

/-- Every partition number of the state is a signed 32-bit number. -/
structure Writable (state : MetadataState) : Prop where
  partitions : ∀ key ∈ state.partitions, Int32Range key.partitionID
  groups : ∀ groupID group, state.groups.lookup groupID = some group → ConsumerGroupMeta.codec.Admits group
  groupStates : ∀ groupID group, state.groupStates.lookup groupID = some group → GroupState.codec.Admits group

section
variable {state : MetadataState}

theorem Writable.admitted (writable : Writable state) : MetadataState.codec.Admits state := by
  refine ⟨?_, ?_, ?_⟩
  · intro key pm stored
    exact ⟨writable.partitions key (mem_of_lookup_eq_some stored), trivial⟩
  · intro groupID group stored
    exact ⟨trivial, writable.groups groupID group stored⟩
  · intro held same
    cases same
    intro groupID group stored
    exact ⟨trivial, writable.groupStates groupID group stored⟩

/-- New partitions have numbers that fit. -/
theorem addPartitions_fit {topic : String} {first : Int} {nextShardID : Nat} {replicas : List (List Nat)}
    {count : Nat} (fit : ∀ key ∈ partitions, Int32Range key.partitionID) (lower : 0 ≤ first)
    (upper : first + count ≤ 2 ^ 31) :
    ∀ key ∈ addPartitions partitions topic first nextShardID replicas count, Int32Range key.partitionID := by
  intro key member
  obtain ⟨pm, stored⟩ := mem_iff.mp member
  rw [addPartitions_lookup] at stored
  split at stored
  · next inside =>
    obtain ⟨_, least, below⟩ := inside
    constructor <;> omega
  · exact fit key (mem_of_lookup_eq_some stored)

/-- A rebalance gives partitions of the metadata to the members. -/
theorem rebalance_admits {group : ConsumerGroupMeta} {topics : KeyMap String TopicMeta}
    (fit : ∀ key ∈ partitions, Int32Range key.partitionID)
    (admitted : ConsumerGroupMeta.membersCodec.Admits group.members) :
    ConsumerGroupMeta.membersCodec.Admits (rebalance group topics partitions).members := by
  unfold rebalance rebalanceInOrder
  refine List.foldlRecOn _ _ admitted ?_
  intro members kept entry _
  simp only
  split
  · exact kept
  · refine forall_insert kept ⟨trivial, ?_⟩
    intro key assigned
    have eligible := List.mem_of_mem_take (List.mem_of_mem_drop assigned)
    rw [List.mem_insertionSort] at eligible
    have visited := (List.mem_filter.mp eligible).1
    exact fit key ((@KeyMap.mem_sortedKeys _ _ PartitionKey.order _ _).mp visited)

theorem Writable.withGroup (writable : Writable state) {groupID : String} {group : ConsumerGroupMeta}
    (admitted : ConsumerGroupMeta.codec.Admits group) :
    Writable { state with groups := state.groups.insert groupID group } :=
  ⟨writable.partitions, forall_insert writable.groups admitted, writable.groupStates⟩

theorem Writable.withGroupState (writable : Writable state) {groupID : String} {group : GroupState}
    (admitted : GroupState.codec.Admits group) :
    Writable { state with groupStates := state.groupStates.insert groupID group } :=
  ⟨writable.partitions, writable.groups, forall_insert writable.groupStates admitted⟩

theorem Writable.withPartitions (writable : Writable state) {topics : KeyMap String TopicMeta} {nextShardID : Nat}
    (fit : ∀ key ∈ partitions, Int32Range key.partitionID) :
    Writable { state with topics := topics, partitions := partitions, nextShardID := nextShardID } :=
  ⟨fit, writable.groups, writable.groupStates⟩

theorem admits_empty {Key A : Type} [DecidableEq Key] {order : LinearOrder Key} {keys : Json.TextCodec Key}
    {codec : Json.Codec A} : (Json.map order keys codec).Admits ∅ := by
  intro key value stored
  rw [lookup_empty] at stored
  cases stored

/-- A map that survives its field was there before. -/
theorem omitEmpty_some {Key Value : Type} [DecidableEq Key] [DecidableEq Value] {entries : Option (KeyMap Key Value)}
    {kept : KeyMap Key Value} (survived : omitEmpty entries = some kept) : entries = some kept :=
  (Option.filter_eq_some_iff.mp survived).1

theorem MetadataCommand.Fits.roundTrip (fits : command.Fits) : command.roundTrip.Fits := by
  cases command with
  | joinConsumerGroup cmd => exact fun assignment survived => fits assignment (omitEmpty_some survived)
  | leaveConsumerGroup cmd => exact fun assignment survived => fits assignment (omitEmpty_some survived)
  | commitConsumerOffset cmd => exact ⟨fits.1, fun offsets survived => fits.2 offsets (omitEmpty_some survived)⟩
  | _ => exact fits

section
variable (writable : Writable state)
include writable

theorem Writable.createTopic {cmd : CreateTopicCmd} (fits : cmd.partitionCount < 2 ^ 31) :
    Writable (state.applyCreateTopic cmd).1 := by
  unfold applyCreateTopic
  repeat' split
  all_goals first
    | exact writable
    | exact writable.withPartitions (addPartitions_fit writable.partitions (le_refl _) (by omega))

theorem Writable.deleteTopic (cmd : DeleteTopicCmd) : Writable (state.applyDeleteTopic cmd).1 := by
  unfold applyDeleteTopic
  split
  · exact writable
  · refine writable.withPartitions fun key member => writable.partitions key ?_
    exact mem_of_mem_foldl (fun partitions _ other inside => (mem_erase.mp inside).2) member

theorem Writable.alterTopicPartCount (sized : Sized state) {cmd : AlterTopicPartCountCmd}
    (fits : cmd.newPartitionCount < 2 ^ 31) : Writable (state.applyAlterTopicPartCount cmd).1 := by
  unfold applyAlterTopicPartCount
  split
  · exact writable
  next tm found =>
  have nonneg := sized cmd.name tm found
  split
  · exact writable
  · have unwrapped : int32 (cmd.newPartitionCount - tm.partitionCount) = cmd.newPartitionCount - tm.partitionCount :=
      int32_of_range (by omega) (by omega)
    exact writable.withPartitions (addPartitions_fit writable.partitions nonneg (by rw [unwrapped]; omega))

theorem Writable.assignPartitionLeader (cmd : AssignPartitionLeaderCmd) :
    Writable (state.applyAssignPartitionLeader cmd).1 := by
  unfold applyAssignPartitionLeader
  split
  · exact writable
  next partition found =>
  split
  · exact writable
  · refine writable.withPartitions fun key member => ?_
    rcases Finmap.mem_insert.mp member with rfl | old
    · exact writable.partitions _ (mem_of_lookup_eq_some found)
    · exact writable.partitions key old

/-- The group that an older join finds or creates. -/
theorem Writable.older (groupID : String) :
    ConsumerGroupMeta.codec.Admits ((state.groups.lookup groupID).getD ⟨groupID, 0, ∅, ∅⟩) := by
  cases stored : state.groups.lookup groupID with
  | none => exact ⟨admits_empty, admits_empty⟩
  | some group => exact writable.groups groupID group stored

theorem Writable.newer (groupID : String) :
    GroupState.codec.Admits ((state.groupStates.lookup groupID).getD ⟨groupID, ∅, 0, ∅, ∅⟩) := by
  cases stored : state.groupStates.lookup groupID with
  | none => exact ⟨admits_empty, admits_empty⟩
  | some group => exact writable.groupStates groupID group stored

theorem Writable.joinConsumerGroup {cmd : JoinConsumerGroupCmd} (fits : MetadataCommand.Fits (.joinConsumerGroup cmd)) :
    Writable (state.applyJoinConsumerGroup cmd).1 := by
  unfold applyJoinConsumerGroup
  split
  · have group := writable.newer cmd.groupID
    refine writable.withGroupState ⟨?_, group.2⟩
    cases carried : cmd.newAssignment with
    | none => exact group.1
    | some assignment => exact fits assignment carried
  · have group := writable.older cmd.groupID
    refine writable.withGroup ⟨rebalance_admits writable.partitions ?_, group.2⟩
    exact forall_insert group.1 ⟨trivial, List.forall_mem_nil _⟩

/-- A leave with numbers in range keeps the state writable. -/
theorem Writable.leaveConsumerGroup {cmd : LeaveConsumerGroupCmd}
    (fits : MetadataCommand.Fits (.leaveConsumerGroup cmd)) : Writable (state.applyLeaveConsumerGroup cmd).1 := by
  unfold applyLeaveConsumerGroup
  split
  · next group found =>
    unfold applyGroupStateLeave
    split
    · exact writable
    · refine writable.withGroupState ⟨?_, (writable.groupStates _ group found).2⟩
      simp only
      split
      · exact admits_empty
      · cases carried : cmd.newAssignment with
        | none => exact admits_empty
        | some assignment => exact fits assignment carried
  · split
    · exact writable
    next group found =>
    split
    · exact writable
    · have admitted := writable.groups _ group found
      refine writable.withGroup ⟨rebalance_admits writable.partitions ?_, admitted.2⟩
      exact forall_erase admitted.1 cmd.memberID

theorem Writable.heartbeatConsumerGroup (cmd : HeartbeatConsumerGroupCmd) :
    Writable (state.applyHeartbeatConsumerGroup cmd).1 := by
  unfold applyHeartbeatConsumerGroup
  split
  · exact writable
  next group found =>
  split
  · exact writable
  next member here =>
  have admitted := writable.groups _ group found
  exact writable.withGroup ⟨forall_insert admitted.1 (admitted.1 _ member here), admitted.2⟩

/-- A commit with numbers in range keeps the state writable. -/
theorem Writable.commitConsumerOffset {cmd : CommitConsumerOffsetCmd}
    (fits : MetadataCommand.Fits (.commitConsumerOffset cmd)) : Writable (state.applyCommitConsumerOffset cmd).1 := by
  unfold applyCommitConsumerOffset
  split
  · next offsets carried =>
    unfold applyGroupStateCommitOffset
    split
    · exact writable
    next group found =>
    have admitted := writable.groupStates _ group found
    refine writable.withGroupState ⟨admitted.1, ?_⟩
    intro tp offset stored
    rcases mem_lookup_union.mp stored with new | ⟨_, old⟩
    · exact fits.2 offsets carried tp offset new
    · exact admitted.2 tp offset old
  · split
    · exact writable
    next group found =>
    have admitted := writable.groups _ group found
    refine writable.withGroup ⟨admitted.1, ?_⟩
    refine List.foldlRecOn _ _ admitted.2 ?_
    intro offsets kept offset member
    exact forall_insert kept ⟨fits.1 offset member, trivial⟩

theorem Writable.rebalanceConsumerGroup (cmd : RebalanceConsumerGroupCmd) :
    Writable (state.applyRebalanceConsumerGroup cmd).1 := by
  unfold applyRebalanceConsumerGroup
  split
  · exact writable
  next group found =>
  have admitted := writable.groups _ group found
  refine writable.withGroup ⟨rebalance_admits writable.partitions ?_, admitted.2⟩
  refine List.foldlRecOn _ _ admitted.1 ?_
  intro members kept memberID _
  exact forall_erase kept memberID

/-- Every command whose numbers fit keeps the state writable. -/
theorem Writable.applyCommand (sized : Sized state) (fits : command.Fits) :
    Writable (state.applyCommand command).1 := by
  cases command with
  | createTopic cmd => exact writable.createTopic fits
  | deleteTopic cmd => exact writable.deleteTopic cmd
  | alterTopicPartCount cmd => exact writable.alterTopicPartCount sized fits
  | alterTopicRetention cmd =>
    simp only [applyCommand, applyAlterTopicRetention]
    split
    · exact writable
    · exact ⟨writable.partitions, writable.groups, writable.groupStates⟩
  | registerNode cmd => exact ⟨writable.partitions, writable.groups, writable.groupStates⟩
  | assignPartitionLeader cmd => exact writable.assignPartitionLeader cmd
  | joinConsumerGroup cmd => exact writable.joinConsumerGroup fits
  | leaveConsumerGroup cmd => exact writable.leaveConsumerGroup fits
  | heartbeatConsumerGroup cmd => exact writable.heartbeatConsumerGroup cmd
  | commitConsumerOffset cmd => exact writable.commitConsumerOffset fits
  | rebalanceConsumerGroup cmd => exact writable.rebalanceConsumerGroup cmd
  | unknown => exact writable

theorem Writable.update (sized : Sized state) (fits : command.Fits) : Writable (state.update command).1 :=
  writable.applyCommand sized fits.roundTrip

end

end

/-- What a client of the machine asks for. -/
inductive Request where
  | command (command : MetadataCommand)
  | query (query : MetadataQuery)

inductive Response where
  | result (result : Result)
  | answer (answer : Except LookupError LookupAnswer)

def MetadataState.respond (state : MetadataState) : Request → MetadataState × Response
  | .command command => ((state.update command).1, .result (state.update command).2)
  | .query query => (state, .answer (state.lookup query))

/-- The responses to requests that come one after the other. -/
def MetadataState.responses (state : MetadataState) : List Request → List Response
  | [] => []
  | request :: rest => (state.respond request).2 :: (state.respond request).1.responses rest

/-- The partition numbers of every command fit. -/
def Representable (_ : History) (command : MetadataCommand) : Prop := command.Fits

theorem writable_of_reaches {history : History} (reached : metadataRuns.Reaches Representable history) :
    Writable history.current := by
  have both : Writable history.current ∧ Sized history.current := by
    refine @System.Reaches.invariant _ _ _ _ (fun history => Writable history.current ∧ Sized history.current) ?_ ?_ _
      reached
    · rintro _ rfl
      have nothing {Key Value : Type} [DecidableEq Key] {holds : Key → Value → Prop} (key : Key) (value : Value)
          (stored : (∅ : KeyMap Key Value).lookup key = some value) : holds key value := by
        rw [lookup_empty] at stored
        cases stored
      exact ⟨⟨fun key member => absurd member notMem_empty, nothing, nothing⟩, nothing⟩
    · rintro history command next ⟨writable, sized⟩ fits moved
      cases moved
      exact ⟨writable.update sized fits, sized.update command⟩
  exact both.1

/-- The text forms of the keys are read back for every topic. A snapshot of a reachable state, loaded into any other
machine, gives a machine that answers every further request as the original does. -/
theorem snapshots_lose_nothing (history : History) (reached : metadataRuns.Reaches Representable history)
    (held : MetadataState) :
    (∀ topic partitionID, Int32Range partitionID →
      TopicPartition.codec.unmarshalText (TopicPartition.codec.marshalText ⟨topic, partitionID⟩) =
        some ⟨topic, partitionID⟩ ∧
      PartitionKey.codec.unmarshalText (PartitionKey.codec.marshalText ⟨topic, partitionID⟩) =
        some ⟨topic, partitionID⟩) ∧
    ∃ recovered, MetadataState.recoverFromSnapshot held history.current.saveSnapshot = (recovered, true) ∧
      ∀ requests, recovered.responses requests = history.current.responses requests := by
  constructor
  · intro topic partitionID range
    exact ⟨TopicPartition.codec.faithful ⟨topic, partitionID⟩ range,
      PartitionKey.codec.faithful ⟨topic, partitionID⟩ range⟩
  · have decoded := MetadataState.codec.faithful _ (writable_of_reaches reached).admitted
    refine ⟨history.current, ?_, fun _ => rfl⟩
    unfold MetadataState.recoverFromSnapshot MetadataState.saveSnapshot
    rw [decoded]

/-- A topic whose name contains the separator, and an older group that consumes it. -/
def separatorHistory : History :=
  (History.start.apply (.createTopic ⟨"a\x00b", 1, 1, 0, -1, 0, [[1]]⟩)).apply
    (.joinConsumerGroup ⟨"billing", "m", "host", ["a\x00b"], 0, none, none⟩)

theorem snapshots_lose_nothing_separator :
    metadataRuns.Reaches Representable separatorHistory ∧ separatorHistory.current.partitions.keys = {⟨"a\x00b", 0⟩} ∧
      ∃ recovered, MetadataState.recoverFromSnapshot MetadataState.initial separatorHistory.current.saveSnapshot =
        (recovered, true) := by
  have fits : MetadataCommand.Fits (.joinConsumerGroup ⟨"billing", "m", "host", ["a\x00b"], 0, none, none⟩) := by
    intro assignment carried
    cases carried
  have reached : metadataRuns.Reaches Representable separatorHistory := by
    refine .step (.step (.start rfl) ?_ rfl) fits rfl
    show (1 : Int) < 2 ^ 31
    decide
  obtain ⟨recovered, loaded, _⟩ := (snapshots_lose_nothing separatorHistory reached MetadataState.initial).2
  exact ⟨reached, by decide +kernel, recovered, loaded⟩

end BunnyMQ.Metadata
