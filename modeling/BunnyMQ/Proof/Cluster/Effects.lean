/-
This file shows when a call of a coordinator that reports success has taken effect.
-/

import BunnyMQ.Construction.Cluster.ClusterCoordinator
import BunnyMQ.Proof.Group.Commands
import BunnyMQ.Proof.Metadata.Structure

namespace BunnyMQ.Cluster
open Foundation Transition Metadata BunnyMQ.Group MetadataState MetadataCommand Finmap
variable {reads : Reads} {groupID memberID : String} {cmd : LeaveConsumerGroupCmd}

/-- The calls that ignore the result of their command, with what their lookups have returned. -/
inductive Call where
  | alterTopicPartitionCount (topic : Except LookupError TopicMeta) (nodes : Except LookupError (List NodeInfo))
      (name : String) (newCount : Int)
  | alterTopicRetention (topic : Except LookupError TopicMeta) (name : String) (retentionMs retentionBytes : Int)
  | leaveGroup (reads : Reads) (visited : List String) (groupID memberID : String)
  | commitOffset (reads : Reads) (visited : List TopicPartition) (groupID memberID : String) (generationID : Int)
      (offsets : KeyMap TopicPartition Int)

namespace Call

/-- The command that the call proposes, unless one of its checks fails. The call returns no error when the proposal
goes through. -/
def proposes : Call → Option MetadataCommand
  | .alterTopicPartitionCount topic nodes name newCount =>
    (Cluster.alterTopicPartitionCount topic nodes name newCount).toOption.map .alterTopicPartCount
  | .alterTopicRetention topic name retentionMs retentionBytes =>
    (Cluster.alterTopicRetention topic name retentionMs retentionBytes).toOption.map .alterTopicRetention
  | .leaveGroup reads visited groupID memberID =>
    (leaveCommand reads visited groupID memberID).toOption.map .leaveConsumerGroup
  | .commitOffset reads visited groupID memberID generationID offsets =>
    (commitCommand reads visited groupID memberID generationID offsets).toOption.map .commitConsumerOffset

/-- The new partition count is a signed 32-bit number. -/
def Typed : Call → Prop
  | .alterTopicPartitionCount _ _ _ newCount => newCount < 2 ^ 31
  | _ => True

/-- The members of a group, in the older form when the newer one has no entry. -/
def isMember (state : MetadataState) (groupID memberID : String) : Prop :=
  match state.getGroupState groupID with
  | some group => memberID ∈ group.members
  | none => ∃ group, state.groups.lookup groupID = some group ∧ memberID ∈ group.members

/-- What the caller has asked for is in the state behind the command. -/
def Effect (before after : MetadataState) : Call → Prop
  | .alterTopicPartitionCount _ _ name newCount => ∃ old new, before.getTopic name = .ok old ∧
    after.getTopic name = .ok new ∧
      new.partitionCount = newCount ∧ ∀ partitionID, old.partitionCount ≤ partitionID → partitionID < newCount →
        ∃ pm, after.getPartition name partitionID = .ok pm
  | .alterTopicRetention _ name retentionMs retentionBytes => ∃ tm, after.getTopic name = .ok tm ∧
      tm.retentionMs = retentionMs ∧ tm.retentionBytes = retentionBytes
  | .leaveGroup _ _ groupID memberID => ¬ isMember after groupID memberID
  | .commitOffset _ _ groupID _ _ offsets => ∀ tp offset, offsets.lookup tp = some offset →
      ((after.getGroupState groupID).bind fun group => group.offsets.lookup tp) = some offset

/-- The state still admits the command when it is applied. An empty commit loses its map on the way and ends up with
the older groups. -/
def Admitted (state : MetadataState) : Call → Prop
  | .alterTopicPartitionCount _ _ name newCount => ∃ tm, state.getTopic name = .ok tm ∧ tm.partitionCount < newCount
  | .alterTopicRetention _ name _ _ => ∃ tm, state.getTopic name = .ok tm
  | .leaveGroup _ _ groupID memberID => isMember state groupID memberID
  | .commitOffset _ _ groupID _ _ offsets =>
    if offsets = ∅ then ∃ group, state.getGroup groupID = .ok group
    else ∃ group, state.getGroupState groupID = some group

/-- When the call returns no error, the machine has accepted its command and the effect is there. -/
def TellsTruth (state : MetadataState) (call : Call) : Prop :=
  ∀ command, call.proposes = some command →
    (state.update command).2.value = resultOK ∧ call.Effect state (state.update command).1

end Call

section
variable {state : MetadataState} {name : String}

theorem found_ok {Value : Type} {stored : Option Value} {value : Value} :
    MetadataState.found stored = .ok value ↔ stored = some value := by
  cases stored with
  | none => simp [MetadataState.found]
  | some held => simp [MetadataState.found]

/-- A leave proposes its own member. -/
theorem leaveCommand_names {visited : List String} (prepared : leaveCommand reads visited groupID memberID = .ok cmd) :
    cmd.groupID = groupID ∧ cmd.memberID = memberID := by
  unfold leaveCommand at prepared
  simp only [bind, Except.bind] at prepared
  split at prepared
  · cases prepared
  split at prepared
  case h_2 => cases prepared
  split at prepared
  case h_2 => cases prepared
  split at prepared
  · cases prepared
  · cases prepared
    exact ⟨rfl, rfl⟩

/-- A commit proposes the offsets of its caller. -/
theorem commitCommand_carries {visited : List TopicPartition} {generationID : Int}
    {offsets : KeyMap TopicPartition Int} {cmd : CommitConsumerOffsetCmd}
    (prepared : commitCommand reads visited groupID memberID generationID offsets = .ok cmd) :
    cmd = ⟨groupID, [], some offsets⟩ := by
  unfold commitCommand at prepared
  simp only [bind, Except.bind] at prepared
  split at prepared
  · cases prepared
  split at prepared
  case h_2 => cases prepared
  split at prepared
  · cases prepared
  split at prepared
  · cases prepared
  split at prepared
  · cases prepared
  · cases prepared
    rfl

/-- A rebalance of an older group adds no member. -/
theorem mem_rebalance {group : ConsumerGroupMeta} {topics : KeyMap String TopicMeta}
    {partitions : KeyMap PartitionKey PartitionMeta} (member : memberID ∈ (rebalance group topics partitions).members) :
    memberID ∈ group.members := by
  unfold rebalance rebalanceInOrder at member
  refine KeyMap.mem_of_mem_foldl ?_ member
  intro members entry other inside
  simp only at inside
  split at inside
  · exact inside
  · next found =>
    rcases mem_insert.mp inside with rfl | kept
    · exact mem_of_lookup_eq_some found
    · exact kept

/-- The extension of a topic takes effect exactly while the topic is there and smaller. -/
theorem alterTopicPartCount_truth {topic : Except LookupError TopicMeta} {nodes : Except LookupError (List NodeInfo)}
    {newCount : Int} {cmd : AlterTopicPartCountCmd} (sized : Sized state) (typed : newCount < 2 ^ 31)
    (named : cmd.name = name) (counted : cmd.newPartitionCount = newCount) :
    (state.update (.alterTopicPartCount cmd)).2.value = resultOK ∧
        (Call.alterTopicPartitionCount topic nodes name newCount).Effect state
          (state.update (.alterTopicPartCount cmd)).1 ↔
      (Call.alterTopicPartitionCount topic nodes name newCount).Admitted state := by
  subst named
  subst counted
  simp only [update, roundTrip, applyCommand,
    applyAlterTopicPartCount, Call.Effect, Call.Admitted, MetadataState.getTopic,
    MetadataState.getPartition, found_ok]
  cases stored : state.topics.lookup cmd.name with
  | none => simp [errorResult, resultErrNotFound, resultOK]
  | some tm =>
    simp only [Option.some.injEq, exists_eq_left']
    have nonneg := sized cmd.name tm stored
    by_cases larger : cmd.newPartitionCount ≤ tm.partitionCount
    · rw [if_pos larger]
      simp only [errorResult, resultErrInvalidArg, resultOK]
      constructor
      · rintro ⟨refused, _⟩
        cases refused
      · intro smaller
        omega
    · rw [if_neg larger]
      refine iff_of_true ⟨rfl, tm, _, rfl, lookup_insert _, rfl, ?_⟩ (not_le.mp larger)
      intro partitionID lower upper
      have unwrapped : int32 (cmd.newPartitionCount - tm.partitionCount) = cmd.newPartitionCount - tm.partitionCount :=
        int32_of_range (by omega) (by omega)
      rw [addPartitions_lookup, if_pos ⟨rfl, lower, by simp only [unwrapped]; omega⟩]
      exact ⟨_, rfl⟩

/-- A new retention takes effect exactly while the topic is there. -/
theorem alterTopicRetention_truth {topic : Except LookupError TopicMeta} {retentionMs retentionBytes : Int} :
    (state.update (.alterTopicRetention ⟨name, retentionMs, retentionBytes⟩)).2.value = resultOK ∧
        (Call.alterTopicRetention topic name retentionMs retentionBytes).Effect state
          (state.update (.alterTopicRetention ⟨name, retentionMs, retentionBytes⟩)).1 ↔
      (Call.alterTopicRetention topic name retentionMs retentionBytes).Admitted state := by
  simp only [update, roundTrip, applyCommand,
    applyAlterTopicRetention, Call.Effect, Call.Admitted, MetadataState.getTopic, found_ok]
  cases stored : state.topics.lookup name with
  | none => simp [errorResult, resultErrNotFound, resultOK]
  | some tm => exact iff_of_true ⟨rfl, _, lookup_insert _, rfl, rfl⟩ ⟨tm, rfl⟩

theorem isMember_of_group {group : GroupState} (found : state.getGroupState groupID = some group) :
    Call.isMember state groupID memberID ↔ memberID ∈ group.members := by
  rw [Call.isMember, found]

theorem isMember_of_none (missing : state.getGroupState groupID = none) :
    Call.isMember state groupID memberID ↔
      ∃ group, state.groups.lookup groupID = some group ∧ memberID ∈ group.members := by
  rw [Call.isMember, missing]

/-- A leave from an older group takes effect exactly for its members. -/
theorem leave_older_truth (missing : state.getGroupState cmd.groupID = none) :
    (state.update (.leaveConsumerGroup cmd)).2.value = resultOK ∧
        ¬ Call.isMember (state.update (.leaveConsumerGroup cmd)).1 cmd.groupID cmd.memberID ↔
      Call.isMember state cmd.groupID cmd.memberID := by
  have absent : state.groupStates.lookup cmd.groupID = none := missing
  have still : (state.update (.leaveConsumerGroup cmd)).1.getGroupState cmd.groupID = none := by
    unfold MetadataState.getGroupState
    rw [(update_leave_missing missing).2]
    exact missing
  rw [isMember_of_none missing, isMember_of_none still]
  simp only [update, roundTrip, applyCommand,
    applyLeaveConsumerGroup, absent]
  cases stored : state.groups.lookup cmd.groupID with
  | none => simp [errorResult, resultErrNotFound, resultOK]
  | some group =>
    simp only [KeyMap.lookup_isNone]
    by_cases member : cmd.memberID ∈ group.members
    · rw [if_neg (not_not.mpr member)]
      refine iff_of_true ⟨rfl, ?_⟩ ⟨group, rfl, member⟩
      rintro ⟨left, held, again⟩
      rw [lookup_insert] at held
      cases held
      exact (mem_erase.mp (mem_rebalance again)).1 rfl
    · rw [if_pos member]
      refine iff_of_false ?_ ?_
      · rintro ⟨refused, _⟩
        cases refused
      · rintro ⟨other, same, inside⟩
        cases same
        exact member inside

/-- A leave takes effect exactly for members. -/
theorem leaveGroup_truth :
    (state.update (.leaveConsumerGroup cmd)).2.value = resultOK ∧
        ¬ Call.isMember (state.update (.leaveConsumerGroup cmd)).1 cmd.groupID cmd.memberID ↔
      Call.isMember state cmd.groupID cmd.memberID := by
  cases found : state.getGroupState cmd.groupID with
  | none => exact leave_older_truth found
  | some group =>
    rw [isMember_of_group found]
    by_cases member : cmd.memberID ∈ group.members
    · rw [update_leave found member]
      refine iff_of_true ⟨rfl, ?_⟩ member
      unfold Call.isMember MetadataState.getGroupState
      rw [lookup_insert]
      exact fun inside => (mem_erase.mp inside).1 rfl
    · rw [update_leave_absent found member]
      refine iff_of_false ?_ member
      rintro ⟨refused, _⟩
      cases refused

/-- A commit takes effect exactly while its group is there, in the older form when the commit is empty. -/
theorem commitOffset_truth {visited : List TopicPartition} {generationID : Int} {offsets : KeyMap TopicPartition Int} :
    (state.update (.commitConsumerOffset ⟨groupID, [], some offsets⟩)).2.value = resultOK ∧
        (Call.commitOffset reads visited groupID memberID generationID offsets).Effect state
          (state.update (.commitConsumerOffset ⟨groupID, [], some offsets⟩)).1 ↔
      (Call.commitOffset reads visited groupID memberID generationID offsets).Admitted state := by
  simp only [update, roundTrip, applyCommand,
    applyCommitConsumerOffset, Call.Effect, Call.Admitted, MetadataState.getGroup, found_ok]
  by_cases empty : offsets = ∅
  · rw [if_pos empty, empty, omitEmpty, Option.filter_some, if_neg (by simp)]
    cases stored : state.groups.lookup groupID with
    | none => simp [errorResult, resultErrNotFound, resultOK]
    | some group =>
      refine iff_of_true ⟨rfl, ?_⟩ ⟨group, rfl⟩
      intro tp offset named
      rw [lookup_empty] at named
      cases named
  · rw [if_neg empty, omitEmpty, Option.filter_some, if_pos (by simpa using empty)]
    simp only [applyGroupStateCommitOffset, getGroupState]
    cases stored : state.groupStates.lookup groupID with
    | none => simp [errorResult, resultErrNotFound, resultOK]
    | some group =>
      refine iff_of_true ⟨rfl, ?_⟩ ⟨group, rfl⟩
      intro tp offset named
      simp only
      rw [lookup_insert, Option.bind_some, lookup_union_left (mem_of_lookup_eq_some named)]
      exact named

/-- At the state it applies to, a call succeeds with its effect exactly when it is admitted. -/
theorem Call.truth_iff {call : Call} {command : MetadataCommand} (sized : Sized state) (typed : call.Typed)
    (proposed : call.proposes = some command) :
    (state.update command).2.value = resultOK ∧ call.Effect state (state.update command).1 ↔ call.Admitted state := by
  cases call with
  | alterTopicPartitionCount topic nodes name newCount =>
    obtain ⟨cmd, prepared, rfl⟩ := Option.map_eq_some_iff.mp proposed
    have shape : cmd.name = name ∧ cmd.newPartitionCount = newCount := by
      have altered := ok_of_toOption prepared
      unfold Cluster.alterTopicPartitionCount at altered
      split at altered
      · cases altered
      split at altered
      · cases altered
      split at altered
      · cases altered
      simp only at altered
      split at altered
      · cases altered
      · cases altered
        exact ⟨rfl, rfl⟩
    exact alterTopicPartCount_truth sized typed shape.1 shape.2
  | alterTopicRetention topic name retentionMs retentionBytes =>
    obtain ⟨cmd, prepared, rfl⟩ := Option.map_eq_some_iff.mp proposed
    have altered := ok_of_toOption prepared
    unfold Cluster.alterTopicRetention at altered
    split at altered
    · cases altered
    · cases altered
      exact alterTopicRetention_truth
  | leaveGroup reads visited groupID memberID =>
    obtain ⟨cmd, prepared, rfl⟩ := Option.map_eq_some_iff.mp proposed
    obtain ⟨rfl, rfl⟩ := leaveCommand_names (ok_of_toOption prepared)
    exact leaveGroup_truth
  | commitOffset reads visited groupID memberID generationID offsets =>
    obtain ⟨cmd, prepared, rfl⟩ := Option.map_eq_some_iff.mp proposed
    rw [commitCommand_carries (ok_of_toOption prepared)]
    exact commitOffset_truth

end

/-- Whatever its lookups have seen, a call that reports success has taken effect exactly when the state still admits
its command at the time at which the command is applied. -/
theorem success_means_effect_iff (history : History) (reached : metadataRuns.Reaches System.Free history) (call : Call)
    (typed : call.Typed) :
    call.TellsTruth history.current ↔ ∀ command, call.proposes = some command → call.Admitted history.current := by
  have sized := sized_of_reaches reached
  constructor
  · intro truth command proposed
    exact (Call.truth_iff sized typed proposed).mp (truth command proposed)
  · intro admitted command proposed
    exact (Call.truth_iff sized typed proposed).mpr (admitted command proposed)

/-- The history of these commands from a fresh machine. -/
def historyOf (commands : List MetadataCommand) : History := commands.foldl History.apply History.start

theorem historyOf_reached (commands : List MetadataCommand) :
    metadataRuns.Reaches System.Free (historyOf commands) := by
  have from_ (history : History) (reached : metadataRuns.Reaches System.Free history) :
      metadataRuns.Reaches System.Free (commands.foldl History.apply history) := by
    induction commands generalizing history with
    | nil => exact reached
    | cons command rest ih => exact ih _ (.step reached trivial rfl)
  exact from_ _ (.start rfl)

def createOrders : MetadataCommand := .createTopic ⟨"orders", 1, 1, 0, -1, 0, [[1]]⟩

/-- A call that has looked up the topic before other commands come. -/
def shortenRetention : Call :=
  .alterTopicRetention ((historyOf [createOrders]).current.getTopic "orders") "orders" 1000 (-1)

theorem success_means_effect_undisturbed :
    metadataRuns.Reaches System.Free (historyOf [createOrders]) ∧ shortenRetention.Typed ∧
      shortenRetention.TellsTruth (historyOf [createOrders]).current := by
  have reached := historyOf_reached [createOrders]
  refine ⟨reached, trivial, (success_means_effect_iff _ reached shortenRetention trivial).mpr ?_⟩
  intro command proposed
  have there : ((historyOf [createOrders]).current.topics.lookup "orders").isSome := by decide +kernel
  obtain ⟨tm, stored⟩ := Option.isSome_iff_exists.mp there
  exact ⟨tm, found_ok.mpr stored⟩

/-- The topic is deleted between the lookup and the command, the machine answers that it is missing, and the call
reports success. -/
theorem deleted_topic_altered :
    metadataRuns.Reaches System.Free (historyOf [createOrders, .deleteTopic ⟨"orders"⟩]) ∧
      shortenRetention.proposes = some (.alterTopicRetention ⟨"orders", 1000, -1⟩) ∧
      ((historyOf [createOrders, .deleteTopic ⟨"orders"⟩]).current.update
        (.alterTopicRetention ⟨"orders", 1000, -1⟩)).2 = errorResult resultErrNotFound "topic not found" ∧
      ¬ shortenRetention.TellsTruth (historyOf [createOrders, .deleteTopic ⟨"orders"⟩]).current := by
  have proposed : shortenRetention.proposes = some (.alterTopicRetention ⟨"orders", 1000, -1⟩) := by decide +kernel
  have refused : ((historyOf [createOrders, .deleteTopic ⟨"orders"⟩]).current.update
      (.alterTopicRetention ⟨"orders", 1000, -1⟩)).2 =
        errorResult resultErrNotFound "topic not found" := by decide +kernel
  refine ⟨historyOf_reached _, proposed, refused, ?_⟩
  intro truth
  have accepted := (truth _ proposed).1
  rw [refused] at accepted
  cases accepted

end BunnyMQ.Cluster
