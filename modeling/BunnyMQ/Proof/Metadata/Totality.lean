/-
This file shows that the metadata state machine runs without panics and that a refused command changes nothing.
-/

import BunnyMQ.Construction.Metadata.Runtime
import BunnyMQ.Proof.Metadata.Rebalance
import BunnyMQ.Proof.Metadata.Snapshot

namespace BunnyMQ.Metadata
open Foundation Transition Runtime NilMap Ranges MetadataState Finmap List
variable {partitions : NilMap PartitionKey (Pointer PartitionMeta)} {group : ConsumerGroupMeta}
  {changed : RuntimeGroup} {command : MetadataCommand}

/-- The maps of the group are made and hold what the group holds. -/
structure RuntimeGroup.Represents (running : RuntimeGroup) (group : ConsumerGroupMeta) : Prop where
  groupID : running.groupID = group.groupID
  generationID : running.generationID = group.generationID
  members : Mirrors (Points Eq) running.members group.members
  committedOffsets : Mirrors Eq running.committedOffsets group.committedOffsets

structure RuntimeGroupState.Represents (running : RuntimeGroupState) (group : GroupState) : Prop where
  groupID : running.groupID = group.groupID
  members : Mirrors Eq running.members group.members
  generationID : running.generationID = group.generationID
  assignments : Mirrors Eq running.assignments group.assignments
  offsets : Mirrors Eq running.offsets group.offsets

structure RuntimeState.Represents (running : RuntimeState) (state : MetadataState) : Prop where
  topics : Mirrors (Points Eq) running.topics state.topics
  partitions : Mirrors (Points Eq) running.partitions state.partitions
  nodes : Mirrors (Points Eq) running.nodes state.nodes
  groups : Mirrors (Points RuntimeGroup.Represents) running.groups state.groups
  groupStates : Mirrors (Points RuntimeGroupState.Represents) running.groupStates state.groupStates
  nextShardID : running.nextShardID = state.nextShardID

/-- The result is one that `ErrorResult` has made. -/
def Result.Refused (result : Result) : Prop :=
  ∃ code ∈ [resultErrAlreadyExists, resultErrNotFound, resultErrInvalidArg], ∃ text, result = errorResult code text

/-- The run ends without a panic, its result and its state are those of the model, and a refusal changes nothing. -/
def Runs (running : RuntimeState) (run : Except Panic (RuntimeState × Result)) (outcome : MetadataState × Result) :
    Prop :=
  ∃ next, run = .ok (next, outcome.2) ∧ next.Represents outcome.1 ∧ (outcome.2.Refused → next = running)

section
variable {running : RuntimeState} {state : MetadataState}

theorem RuntimeState.Represents.new : RuntimeState.new.Represents initial :=
  ⟨.made, .made, .made, .made, .made, rfl⟩

/-- A command that stops at one of its checks leaves the state alone. -/
theorem Runs.refused (represents : running.Represents state) (result : Result) :
    Runs running (.ok (running, result)) (state, result) := ⟨running, rfl, represents, fun _ => rfl⟩

theorem okResult_not_refused : ¬ okResult.Refused := by
  rintro ⟨code, _, text, same⟩
  cases same

theorem Runs.accepted {next : RuntimeState} {after : MetadataState} (represents : next.Represents after) :
    Runs running (.ok (next, okResult)) (after, okResult) :=
  ⟨next, rfl, represents, fun refused => absurd refused okResult_not_refused⟩

/-- New partitions are written without a panic when their replicas can be read. -/
theorem addPartitions_runs {mirrored : KeyMap PartitionKey PartitionMeta}
    (mirrors : Mirrors (Points Eq) partitions mirrored) (topic : String) (first : Int) (nextShardID : Nat)
    {replicas : List (List Nat)} {read : Nat → Except Panic (List Nat)} {count : Nat}
    (readable : ∀ i < count, read i = .ok (replicas.getD i [])) :
    ∃ next, (range count).foldlM (fun partitions (i : Nat) => do
        let found ← read i
        partitions.store ⟨topic, first + i⟩
          (some ⟨topic, first + i, (nextShardID + i) % 2 ^ 64, found, 0, 0⟩)) partitions = .ok next ∧
      Mirrors (Points Eq) next (addPartitions mirrored topic first nextShardID replicas count) := by
  refine foldlM_related (fun i member running abstract related => ?_) mirrors
  rw [readable i (mem_range.mp member), ok_bind]
  exact related.store _ ⟨_, rfl, rfl⟩

/-- A positive count that is the number of the replica lists in 32 bits does not exceed this number. -/
theorem le_length_of_int32 {length : Nat} {count : Int} (positive : 0 < count) (same : int32 length = count) :
    count.toNat ≤ length := by
  unfold int32 at same
  omega

section
variable (represents : running.Represents state)
include represents

/-- A creation never panics: the maps that it writes are made. -/
theorem runs_createTopic (cmd : CreateTopicCmd) :
    Runs running (running.applyCreateTopic (some cmd)) (state.applyCreateTopic cmd) := by
  unfold RuntimeState.applyCreateTopic applyCreateTopic
  rw [deref_some, ok_bind, represents.topics.isSome]
  split
  · exact .refused represents _
  split
  · exact .refused represents _
  split
  · exact .refused represents _
  next fresh valid counted =>
  have positive : 0 < cmd.partitionCount := by omega
  have enough := le_length_of_int32 positive (not_not.mp counted)
  have readable : ∀ i < cmd.partitionCount.toNat, index cmd.replicaNodeIDs i = .ok (cmd.replicaNodeIDs.getD i []) := by
    intro i below
    have inside : i < cmd.replicaNodeIDs.length := by omega
    rw [index_of_lt inside, getD_eq_getElem?_getD, List.getElem?_eq_getElem inside]
    rfl
  obtain ⟨topics, stored, topicsMirror⟩ := represents.topics.store cmd.name ⟨_, rfl, rfl⟩
  obtain ⟨partitions, added, partitionsMirror⟩ :=
    addPartitions_runs represents.partitions cmd.name 0 running.nextShardID readable
  simp only [zero_add] at added
  rw [stored, ok_bind, added, ok_bind]
  rw [represents.nextShardID] at partitionsMirror
  refine .accepted ⟨topicsMirror, partitionsMirror, represents.nodes, represents.groups, represents.groupStates, ?_⟩
  rw [← represents.nextShardID]

theorem runs_deleteTopic (cmd : DeleteTopicCmd) :
    Runs running (running.applyDeleteTopic (some cmd)) (state.applyDeleteTopic cmd) := by
  unfold RuntimeState.applyDeleteTopic applyDeleteTopic
  rw [deref_some, ok_bind]
  obtain ⟨absent, also⟩ | ⟨topic, _, stored, also, rfl⟩ := represents.topics.pointer_cases cmd.name
  · rw [absent, also]
    exact .refused represents _
  · rw [stored, also]
    exact .accepted ⟨represents.topics.delete _, represents.partitions.deleteAll (fun i : Nat => ⟨cmd.name, i⟩) _,
      represents.nodes, represents.groups, represents.groupStates, represents.nextShardID⟩

/-- An extension never panics, also in its loop over the new partitions. -/
theorem runs_alterTopicPartCount (cmd : AlterTopicPartCountCmd) :
    Runs running (running.applyAlterTopicPartCount (some cmd)) (state.applyAlterTopicPartCount cmd) := by
  unfold RuntimeState.applyAlterTopicPartCount applyAlterTopicPartCount
  rw [deref_some, ok_bind]
  obtain ⟨absent, also⟩ | ⟨topic, _, stored, also, rfl⟩ := represents.topics.pointer_cases cmd.name
  · rw [absent, also]
    exact .refused represents _
  · rw [stored, also]
    dsimp only
    rw [deref_some, ok_bind]
    split
    · exact .refused represents _
    have readable (count : Nat) : ∀ i < count, RuntimeState.newReplicas cmd.newReplicaAssignments i =
        .ok (cmd.newReplicaAssignments.getD i []) := by
      intro i _
      rw [getD_eq_getElem?_getD, RuntimeState.newReplicas]
      split
      · next inside =>
        rw [index_of_lt inside, List.getElem?_eq_getElem inside]
        rfl
      · next outside =>
        rw [List.getElem?_eq_none (not_lt.mp outside)]
        rfl
    obtain ⟨partitions, added, partitionsMirror⟩ := addPartitions_runs represents.partitions cmd.name
      topic.partitionCount running.nextShardID (readable (int32 (cmd.newPartitionCount - topic.partitionCount)).toNat)
    rw [added, ok_bind]
    rw [represents.nextShardID] at partitionsMirror
    refine .accepted ⟨represents.topics.modify _ ⟨_, rfl, rfl⟩, partitionsMirror, represents.nodes,
      represents.groups, represents.groupStates, ?_⟩
    rw [← represents.nextShardID]

theorem runs_alterTopicRetention (cmd : AlterTopicRetentionCmd) :
    Runs running (running.applyAlterTopicRetention (some cmd)) (state.applyAlterTopicRetention cmd) := by
  unfold RuntimeState.applyAlterTopicRetention applyAlterTopicRetention
  rw [deref_some, ok_bind]
  obtain ⟨absent, also⟩ | ⟨topic, _, stored, also, rfl⟩ := represents.topics.pointer_cases cmd.name
  · rw [absent, also]
    exact .refused represents _
  · rw [stored, also]
    exact .accepted ⟨represents.topics.modify _ ⟨_, rfl, rfl⟩, represents.partitions, represents.nodes,
      represents.groups, represents.groupStates, represents.nextShardID⟩

theorem runs_registerNode (cmd : RegisterNodeCmd) :
    Runs running (running.applyRegisterNode (some cmd)) (state.applyRegisterNode cmd) := by
  unfold RuntimeState.applyRegisterNode applyRegisterNode
  obtain ⟨nodes, stored, mirrors⟩ := represents.nodes.store cmd.nodeID ⟨_, rfl, rfl⟩
  rw [deref_some, ok_bind, stored, ok_bind]
  exact .accepted ⟨represents.topics, represents.partitions, mirrors, represents.groups, represents.groupStates,
    represents.nextShardID⟩

theorem runs_assignPartitionLeader (cmd : AssignPartitionLeaderCmd) :
    Runs running (running.applyAssignPartitionLeader (some cmd)) (state.applyAssignPartitionLeader cmd) := by
  unfold RuntimeState.applyAssignPartitionLeader applyAssignPartitionLeader
  rw [deref_some, ok_bind]
  obtain ⟨absent, also⟩ | ⟨partition, _, stored, also, rfl⟩ :=
    represents.partitions.pointer_cases ⟨cmd.topic, cmd.partitionID⟩
  · rw [absent, also]
    exact .refused represents _
  · rw [stored, also]
    dsimp only
    rw [deref_some, ok_bind]
    split
    · exact .refused represents _
    · exact .accepted ⟨represents.topics, represents.partitions.modify _ ⟨_, rfl, rfl⟩, represents.nodes,
        represents.groups, represents.groupStates, represents.nextShardID⟩

end

/-- The eligible partitions are collected without a panic, because every member of the map has a value. -/
theorem collectEligible_runs {members : NilMap String (Pointer MemberInfo)} {known : KeyMap String MemberInfo}
    (membersMirror : Mirrors (Points Eq) members known) {topics : NilMap String (Pointer TopicMeta)}
    {names : KeyMap String TopicMeta} (topicsMirror : Mirrors (Points Eq) topics names)
    {places : KeyMap PartitionKey PartitionMeta} (partitionsMirror : Mirrors (Points Eq) partitions places) :
    RuntimeGroup.collectEligiblePartitions members topics partitions =
      .ok (collectEligiblePartitions (@KeyMap.sortedKeys _ _ PartitionKey.order places) known names) := by
  have subscribed : (members.visited inferInstance).mapM (fun memberID => do
        let member ← deref (members.lookup memberID).join
        return member.subscribedTopics) =
      .ok (known.sortedKeys.map fun memberID => ((known.lookup memberID).map MemberInfo.subscribedTopics).getD []) := by
    rw [membersMirror.visited]
    refine mapM_ok fun memberID listed => ?_
    obtain ⟨_, absent⟩ | ⟨member, _, stored, also, rfl⟩ := membersMirror.pointer_cases memberID
    · exact absurd (KeyMap.mem_sortedKeys.mp listed) (lookup_eq_none.mp absent)
    · rw [stored, also]
      rfl
  unfold RuntimeGroup.collectEligiblePartitions collectEligiblePartitions
  rw [subscribed, ok_bind, partitionsMirror.visited, ← flatMap_def]
  simp only [topicsMirror.isSome]
  rfl

/-- The round of a rebalance in the model. -/
def assignBlock (eligible : List PartitionKey) (count : Nat) (members : KeyMap String MemberInfo)
    (entry : String × Nat) :
    KeyMap String MemberInfo :=
  match members.lookup entry.1 with
  | none => members
  | some member => members.insert entry.1 { member with assignedPartitions := piece eligible count entry.2 }

/-- The block of a member of the map lies within the eligible partitions. -/
theorem handOut_runs {memberIDs : List String} {entry : String × Nat} (listed : entry ∈ memberIDs.zipIdx)
    (eligible : List PartitionKey) {running : NilMap String (Pointer MemberInfo)} {abstract : KeyMap String MemberInfo}
    (mirrors : Mirrors (Points Eq) running abstract) (known : entry.1 ∈ abstract) :
    ∃ member next, abstract.lookup entry.1 = some member ∧
      RuntimeGroup.handOut eligible memberIDs.length running entry = .ok next ∧
      Mirrors (Points Eq) next (abstract.insert entry.1 { member with
        assignedPartitions := piece eligible memberIDs.length entry.2 }) := by
  have inside : entry.2 < memberIDs.length := snd_lt_of_mem_zipIdx listed
  have positive : 0 < memberIDs.length := Nat.zero_lt_of_lt inside
  have ordered : cut eligible.length memberIDs.length entry.2 ≤ cut eligible.length memberIDs.length (entry.2 + 1) :=
    cut_mono (Nat.le_succ entry.2)
  have bounded : cut eligible.length memberIDs.length (entry.2 + 1) ≤ eligible.length :=
    (cut_mono (Nat.succ_le_of_lt inside)).trans (cut_parts positive).le
  have sliced : slice eligible (entry.2 * eligible.length / memberIDs.length)
      ((entry.2 + 1) * eligible.length / memberIDs.length) = .ok (piece eligible memberIDs.length entry.2) :=
    slice_of_le ordered bounded
  obtain ⟨_, absent⟩ | ⟨member, _, stored, also, rfl⟩ := mirrors.pointer_cases entry.1
  · exact absurd known (lookup_eq_none.mp absent)
  refine ⟨member, _, also, ?_, mirrors.modify entry.1 ⟨_, rfl, rfl⟩⟩
  unfold RuntimeGroup.handOut
  rw [quotient_of_pos _ positive, ok_bind, quotient_of_pos _ positive, ok_bind, sliced, ok_bind, stored]
  rfl

/-- A rebalance goes through, because the members that it visits stay in the map. -/
theorem rebalance_runs {running : RuntimeGroup} (represents : running.Represents group)
    {topics : NilMap String (Pointer TopicMeta)} {names : KeyMap String TopicMeta}
    (topicsMirror : Mirrors (Points Eq) topics names) {places : KeyMap PartitionKey PartitionMeta}
    (partitionsMirror : Mirrors (Points Eq) partitions places) :
    ∃ next, running.rebalance topics partitions = .ok next ∧ next.Represents (rebalance group names places) := by
  let := PartitionKey.order
  unfold RuntimeGroup.rebalance rebalance rebalanceInOrder
  dsimp only
  rw [collectEligible_runs represents.members topicsMirror partitionsMirror, ok_bind, represents.members.visited]
  generalize (collectEligiblePartitions _ group.members names).insertionSort (· ≤ ·) = eligible
  have known : ∀ memberID ∈ group.members.sortedKeys.insertionSort (· ≤ ·), memberID ∈ group.members :=
    fun memberID listed => KeyMap.mem_sortedKeys.mp ((mem_insertionSort _).mp listed)
  generalize group.members.sortedKeys.insertionSort (· ≤ ·) = memberIDs at known
  by_cases empty : memberIDs.length = 0
  · rw [if_pos empty, eq_nil_of_length_eq_zero empty]
    exact ⟨running, rfl, represents⟩
  rw [if_neg empty]
  -- A member that left the map during the loop would be a nil pointer.
  obtain ⟨members, handed, membersMirror, _⟩ := @foldlM_related _ _ _
    (fun running abstract => Mirrors (Points Eq) running abstract ∧ ∀ memberID ∈ memberIDs, memberID ∈ abstract)
    (RuntimeGroup.handOut eligible memberIDs.length)
    (assignBlock eligible memberIDs.length) memberIDs.zipIdx
    (fun entry listed running abstract related => by
      obtain ⟨mirrors, known⟩ := related
      have member : entry.1 ∈ memberIDs := fst_mem_of_mem_zipIdx listed
      obtain ⟨info, next, stored, handed, after⟩ := handOut_runs listed eligible mirrors (known entry.1 member)
      rw [assignBlock, stored]
      exact ⟨next, handed, after, fun memberID also => mem_insert.mpr (.inr (known memberID also))⟩)
    running.members group.members ⟨represents.members, known⟩
  rw [handed, ok_bind]
  exact ⟨_, rfl, represents.groupID, represents.generationID, membersMirror, represents.committedOffsets⟩

section
variable (represents : running.Represents state) (groupID : String)
include represents groupID

theorem RuntimeState.Represents.modifyGroup (same : changed.Represents group) :
    RuntimeState.Represents { running with groups := running.groups.modify groupID (some changed) }
      { state with groups := state.groups.insert groupID group } :=
  ⟨represents.topics, represents.partitions, represents.nodes, represents.groups.modify groupID ⟨_, rfl, same⟩,
    represents.groupStates, represents.nextShardID⟩

theorem RuntimeState.Represents.storeGroup (same : changed.Represents group) :
    ∃ groups, running.groups.store groupID (some changed) = .ok groups ∧
      RuntimeState.Represents { running with groups := groups }
        { state with groups := state.groups.insert groupID group } := by
  obtain ⟨groups, stored, mirrors⟩ := represents.groups.store groupID ⟨changed, rfl, same⟩
  exact ⟨groups, stored, represents.topics, represents.partitions, represents.nodes, mirrors, represents.groupStates,
    represents.nextShardID⟩

theorem RuntimeState.Represents.modifyGroupState {changed : RuntimeGroupState} {group : GroupState}
    (same : changed.Represents group) :
    RuntimeState.Represents { running with groupStates := running.groupStates.modify groupID (some changed) }
      { state with groupStates := state.groupStates.insert groupID group } :=
  ⟨represents.topics, represents.partitions, represents.nodes, represents.groups,
    represents.groupStates.modify groupID ⟨_, rfl, same⟩, represents.nextShardID⟩

theorem RuntimeState.Represents.storeGroupState {changed : RuntimeGroupState} {group : GroupState}
    (same : changed.Represents group) :
    ∃ groupStates, running.groupStates.store groupID (some changed) = .ok groupStates ∧
      RuntimeState.Represents { running with groupStates := groupStates }
        { state with groupStates := state.groupStates.insert groupID group } := by
  obtain ⟨groupStates, stored, mirrors⟩ := represents.groupStates.store groupID ⟨changed, rfl, same⟩
  exact ⟨groupStates, stored, represents.topics, represents.partitions, represents.nodes, represents.groups, mirrors,
    represents.nextShardID⟩

end

/-- The next generation is the same on both sides. -/
theorem RuntimeGroup.Represents.nextGeneration (same : changed.Represents group) :
    RuntimeGroup.Represents { changed with generationID := int32 (changed.generationID + 1) }
      { group with generationID := int32 (group.generationID + 1) } :=
  ⟨same.groupID, congrArg (fun generation => int32 (generation + 1)) same.generationID, same.members,
    same.committedOffsets⟩

theorem RuntimeGroup.Represents.withMembers (same : changed.Represents group)
    {members : NilMap String (Pointer MemberInfo)} {known : KeyMap String MemberInfo}
    (mirrors : Mirrors (Points Eq) members known) :
    RuntimeGroup.Represents { changed with members := members } { group with members := known } :=
  ⟨same.groupID, same.generationID, mirrors, same.committedOffsets⟩

theorem RuntimeGroupState.Represents.nextAssignment {changed : RuntimeGroupState} {group : GroupState}
    (same : changed.Represents group) {members : NilMap String MemberState} {known : KeyMap String MemberState}
    (membersMirror : Mirrors Eq members known) {assignments : NilMap String (List TopicPartition)}
    {assigned : KeyMap String (List TopicPartition)} (assignmentsMirror : Mirrors Eq assignments assigned) :
    RuntimeGroupState.Represents
      { changed with
        members := members
        assignments := assignments
        generationID := int32 (changed.generationID + 1) }
      { group with
        members := known
        assignments := assigned
        generationID := int32 (group.generationID + 1) } :=
  ⟨same.groupID, membersMirror, congrArg (fun generation => int32 (generation + 1)) same.generationID,
    assignmentsMirror, same.offsets⟩

section
variable (represents : running.Represents state)
include represents

theorem runs_groupStateJoin (cmd : JoinConsumerGroupCmd) (member : MemberState) :
    Runs running (running.applyGroupStateJoin cmd member) (state.applyGroupStateJoin cmd member) := by
  unfold RuntimeState.applyGroupStateJoin applyGroupStateJoin
  rw [represents.groupStates.some_getD]
  obtain ⟨group, found, same⟩ := represents.groupStates.derefOr cmd.groupID
    (⟨rfl, .made, rfl, .made, .made⟩ : RuntimeGroupState.Represents ⟨cmd.groupID, some ∅, 0, some ∅, some ∅⟩
      ⟨cmd.groupID, ∅, 0, ∅, ∅⟩)
  obtain ⟨members, joined, membersMirror⟩ := same.members.store cmd.memberID (rfl : member = member)
  have assignments : Mirrors Eq (if cmd.newAssignment.isSome then cmd.newAssignment else group.assignments)
      (cmd.newAssignment.getD ((state.groupStates.lookup cmd.groupID).getD ⟨cmd.groupID, ∅, 0, ∅, ∅⟩).assignments) := by
    cases cmd.newAssignment with
    | none => exact same.assignments
    | some assignment => exact .self
  obtain ⟨groupStates, stored, after⟩ :=
    represents.storeGroupState cmd.groupID (same.nextAssignment membersMirror assignments)
  dsimp only
  rw [found, ok_bind, joined, ok_bind, stored, ok_bind]
  exact .accepted after

/-- A join never panics: a new group gets its maps first. -/
theorem runs_joinConsumerGroup (cmd : JoinConsumerGroupCmd) :
    Runs running (running.applyJoinConsumerGroup (some cmd)) (state.applyJoinConsumerGroup cmd) := by
  unfold RuntimeState.applyJoinConsumerGroup applyJoinConsumerGroup
  rw [deref_some, ok_bind]
  cases cmd.member with
  | some member => exact runs_groupStateJoin represents cmd member
  | none =>
    dsimp only
    obtain ⟨group, found, same⟩ := represents.groups.derefOr cmd.groupID
      (⟨rfl, rfl, .made, .made⟩ : RuntimeGroup.Represents ⟨cmd.groupID, 0, some ∅, some ∅⟩ ⟨cmd.groupID, 0, ∅, ∅⟩)
    rw [found, ok_bind]
    generalize (if cmd.memberID = "" then _ else cmd.memberID) = memberID
    obtain ⟨members, joined, membersMirror⟩ := same.members.store memberID
      ⟨(⟨memberID, cmd.clientHost, cmd.subscribedTopics, [], cmd.joinedAtMs⟩ : MemberInfo), rfl, rfl⟩
    obtain ⟨next, rebalanced, after⟩ :=
      rebalance_runs (same.withMembers membersMirror) represents.topics represents.partitions
    obtain ⟨groups, stored, final⟩ := represents.storeGroup cmd.groupID after.nextGeneration
    rw [joined, ok_bind, rebalanced, ok_bind]
    -- The new member is still in the map when the answer reads it.
    obtain ⟨_, absent⟩ | ⟨member, _, read, also, rfl⟩ := after.members.pointer_cases memberID
    · have gone := lookup_eq_none.mp absent
      rw [mem_iff_roster, rebalance_roster, ← mem_iff_roster] at gone
      exact absurd (mem_insert.mpr (.inl rfl)) gone
    · rw [read, Option.join_some, deref_some, ok_bind, stored, ok_bind, also, after.generationID]
      refine ⟨_, rfl, final, ?_⟩
      rintro ⟨code, _, text, same⟩
      cases same

/-- A leave of a known group never panics. -/
theorem runs_groupStateLeave (cmd : LeaveConsumerGroupCmd) {group : GroupState}
    (known : state.groupStates.lookup cmd.groupID = some group) :
    Runs running (running.applyGroupStateLeave cmd) (state.applyGroupStateLeave cmd group) := by
  unfold RuntimeState.applyGroupStateLeave applyGroupStateLeave
  obtain ⟨_, absent⟩ | ⟨held, _, stored, also, same⟩ := represents.groupStates.pointer_cases cmd.groupID
  · rw [absent] at known
    cases known
  cases known.symm.trans also
  rw [stored]
  dsimp only
  have member := same.members.isSome cmd.memberID
  rw [deref_some, ok_bind, ← Option.not_isSome, ← Option.not_isSome, member]
  split
  · exact .refused represents _
  have left := same.members.delete cmd.memberID
  have emptied : (held.members.delete cmd.memberID).visited inferInstance = [] ↔
      (group.members.erase cmd.memberID).keys = ∅ := by
    rw [left.visited, eq_nil_iff_forall_not_mem, Finset.eq_empty_iff_forall_notMem]
    exact forall_congr' fun memberID => not_congr (KeyMap.mem_sortedKeys.trans mem_keys.symm)
  refine .accepted (represents.modifyGroupState cmd.groupID (same.nextAssignment left ?_))
  by_cases nobody : (group.members.erase cmd.memberID).keys = ∅
  · rw [if_pos nobody, if_pos (emptied.mpr nobody)]
    exact .made
  · rw [if_neg nobody, if_neg (mt emptied.mp nobody)]
    exact .self

/-- A leave never panics in either table of groups. -/
theorem runs_leaveConsumerGroup (cmd : LeaveConsumerGroupCmd) :
    Runs running (running.applyLeaveConsumerGroup (some cmd)) (state.applyLeaveConsumerGroup cmd) := by
  unfold RuntimeState.applyLeaveConsumerGroup applyLeaveConsumerGroup
  rw [deref_some, ok_bind, represents.groupStates.isSome]
  cases known : state.groupStates.lookup cmd.groupID with
  | some group => exact runs_groupStateLeave represents cmd known
  | none =>
    rw [if_neg (by simp)]
    obtain ⟨absent, also⟩ | ⟨held, group, stored, also, same⟩ := represents.groups.pointer_cases cmd.groupID
    · rw [absent, also]
      exact .refused represents _
    rw [stored, also]
    dsimp only
    have member := same.members.isSome cmd.memberID
    rw [deref_some, ok_bind, ← Option.not_isSome, ← Option.not_isSome, member]
    split
    · exact .refused represents _
    obtain ⟨next, rebalanced, after⟩ := rebalance_runs (same.withMembers (same.members.delete cmd.memberID))
      represents.topics represents.partitions
    rw [rebalanced, ok_bind]
    exact .accepted (represents.modifyGroup cmd.groupID after.nextGeneration)

/-- A heartbeat never panics, and a stale generation gets no text. -/
theorem runs_heartbeatConsumerGroup (cmd : HeartbeatConsumerGroupCmd) :
    Runs running (running.applyHeartbeatConsumerGroup (some cmd)) (state.applyHeartbeatConsumerGroup cmd) := by
  unfold RuntimeState.applyHeartbeatConsumerGroup applyHeartbeatConsumerGroup
  rw [deref_some, ok_bind]
  obtain ⟨absent, also⟩ | ⟨held, group, stored, also, same⟩ := represents.groups.pointer_cases cmd.groupID
  · rw [absent, also]
    exact .refused represents _
  rw [stored, also]
  dsimp only
  rw [deref_some, ok_bind]
  obtain ⟨missing, gone⟩ | ⟨member, _, found, listed, rfl⟩ := same.members.pointer_cases cmd.memberID
  · rw [missing, gone]
    exact .refused represents _
  rw [found, listed]
  dsimp only
  have answered : (if cmd.generationID ≠ held.generationID then Result.mk 1 .none else okResult) =
      if cmd.generationID ≠ group.generationID then ⟨1, .none⟩ else okResult := by
    rw [same.generationID]
  rw [deref_some, ok_bind, answered]
  refine ⟨_, rfl, represents.modifyGroup cmd.groupID (same.withMembers (same.members.modify _ ⟨_, rfl, rfl⟩)), ?_⟩
  -- A stale generation is answered without a text, so no answer of this branch was made by `ErrorResult`.
  rintro ⟨code, _, text, answer⟩
  dsimp only at answer
  split at answer
  · cases answer
  · cases answer

/-- A commit never panics: missing offsets get their map. -/
theorem runs_groupStateCommitOffset (groupID : String) (groupOffsets : KeyMap TopicPartition Int) :
    Runs running (running.applyGroupStateCommitOffset groupID groupOffsets)
      (state.applyGroupStateCommitOffset groupID groupOffsets) := by
  unfold RuntimeState.applyGroupStateCommitOffset applyGroupStateCommitOffset
  obtain ⟨absent, also⟩ | ⟨held, group, stored, also, same⟩ := represents.groupStates.pointer_cases groupID
  · rw [absent, also]
    exact .refused represents _
  rw [stored, also]
  dsimp only
  obtain ⟨offsets, written, mirrors⟩ := @foldlM_related _ _ _ (Mirrors Eq)
    (RuntimeState.storeOffset groupOffsets)
    (fun (offsets : KeyMap TopicPartition Int) (tp : TopicPartition) =>
      (groupOffsets.lookup tp).elim offsets fun offset => offsets.insert tp offset)
    (@KeyMap.sortedKeys _ _ TopicPartition.order groupOffsets)
    (fun tp _ running abstract related => by
      unfold RuntimeState.storeOffset
      cases groupOffsets.lookup tp with
      | none => exact ⟨running, rfl, related⟩
      | some offset => exact related.store tp rfl) _ _ same.offsets
  rw [KeyMap.foldl_insert_lookup groupOffsets fun tp member =>
    (@KeyMap.mem_sortedKeys _ _ TopicPartition.order _ _).mpr member] at mirrors
  rw [deref_some, ok_bind, same.offsets.some_getD, written, ok_bind]
  exact .accepted (represents.modifyGroupState groupID
    ⟨same.groupID, same.members, same.generationID, same.assignments, mirrors⟩)

theorem runs_commitConsumerOffset (cmd : CommitConsumerOffsetCmd) :
    Runs running (running.applyCommitConsumerOffset (some cmd)) (state.applyCommitConsumerOffset cmd) := by
  unfold RuntimeState.applyCommitConsumerOffset applyCommitConsumerOffset
  rw [deref_some, ok_bind]
  cases cmd.groupOffsets with
  | some groupOffsets => exact runs_groupStateCommitOffset represents cmd.groupID groupOffsets
  | none =>
    dsimp only
    obtain ⟨absent, also⟩ | ⟨held, group, stored, also, same⟩ := represents.groups.pointer_cases cmd.groupID
    · rw [absent, also]
      exact .refused represents _
    rw [stored, also]
    obtain ⟨offsets, written, mirrors⟩ := @foldlM_related _ _ _ (Mirrors Eq)
      (fun offsets (o : CommittedOffset) => NilMap.store offsets ⟨o.topic, o.partitionID⟩ o.offset)
      (fun (offsets : KeyMap PartitionKey Int) (o : CommittedOffset) => offsets.insert ⟨o.topic, o.partitionID⟩
        o.offset)
      cmd.offsets (fun o _ _ _ related => related.store _ rfl) _ _ same.committedOffsets
    dsimp only
    rw [deref_some, ok_bind, written, ok_bind]
    exact .accepted (represents.modifyGroup cmd.groupID ⟨same.groupID, same.generationID, same.members, mirrors⟩)

theorem runs_rebalanceConsumerGroup (cmd : RebalanceConsumerGroupCmd) :
    Runs running (running.applyRebalanceConsumerGroup (some cmd)) (state.applyRebalanceConsumerGroup cmd) := by
  unfold RuntimeState.applyRebalanceConsumerGroup applyRebalanceConsumerGroup
  rw [deref_some, ok_bind]
  obtain ⟨absent, also⟩ | ⟨held, group, stored, also, same⟩ := represents.groups.pointer_cases cmd.groupID
  · rw [absent, also]
    exact .refused represents _
  rw [stored, also]
  dsimp only
  rw [deref_some, ok_bind]
  have left : Mirrors (Points Eq)
      (cmd.expiredMemberIDs.foldl (fun members memberID => members.delete memberID) held.members)
      (cmd.expiredMemberIDs.foldl (fun members memberID => members.erase memberID) group.members) :=
    same.members.deleteAll id cmd.expiredMemberIDs
  obtain ⟨next, rebalanced, after⟩ := rebalance_runs (same.withMembers left) represents.topics represents.partitions
  rw [rebalanced, ok_bind]
  exact .accepted (represents.modifyGroup cmd.groupID after.nextGeneration)

end

/-- The command in the model that a decoded command stands for, if it carries the payload of its type. -/
def RuntimeCommand.carried (cmd : RuntimeCommand) : Option MetadataCommand :=
  match cmd.type with
  | .createTopic => cmd.createTopic.map .createTopic
  | .deleteTopic => cmd.deleteTopic.map .deleteTopic
  | .alterTopicPartCount => cmd.alterTopicPartCount.map .alterTopicPartCount
  | .alterTopicRetention => cmd.alterTopicRetention.map .alterTopicRetention
  | .registerNode => cmd.registerNode.map .registerNode
  | .assignPartitionLeader => cmd.assignPartitionLeader.map .assignPartitionLeader
  | .joinConsumerGroup => cmd.joinConsumerGroup.map .joinConsumerGroup
  | .leaveConsumerGroup => cmd.leaveConsumerGroup.map .leaveConsumerGroup
  | .heartbeatConsumerGroup => cmd.heartbeatConsumerGroup.map .heartbeatConsumerGroup
  | .commitConsumerOffset => cmd.commitConsumerOffset.map .commitConsumerOffset
  | .rebalanceConsumerGroup => cmd.rebalanceConsumerGroup.map .rebalanceConsumerGroup
  | .other => some .unknown

/-- A handler that runs with every payload runs with the payload that the command carries. -/
theorem runs_payload {Payload : Type} {payload : Pointer Payload} {wrap : Payload → MetadataCommand}
    {handler : Pointer Payload → Except Panic (RuntimeState × Result)}
    (each : ∀ cmd, Runs running (handler (some cmd)) (state.applyCommand (wrap cmd)))
    (carries : payload.map wrap = some command) : Runs running (handler payload) (state.applyCommand command) := by
  obtain ⟨cmd, rfl, rfl⟩ := Option.map_eq_some_iff.mp carries
  exact each cmd

/-- Every command with its payload runs as the model says. -/
theorem applyCommand_runs (represents : running.Represents state) {cmd : RuntimeCommand}
    (carries : cmd.carried = some command) : Runs running (running.applyCommand cmd) (state.applyCommand command) := by
  unfold RuntimeCommand.carried at carries
  unfold RuntimeState.applyCommand
  cases type : cmd.type with
  | createTopic =>
    rw [type] at carries
    exact runs_payload (runs_createTopic represents) carries
  | deleteTopic =>
    rw [type] at carries
    exact runs_payload (runs_deleteTopic represents) carries
  | alterTopicPartCount =>
    rw [type] at carries
    exact runs_payload (runs_alterTopicPartCount represents) carries
  | alterTopicRetention =>
    rw [type] at carries
    exact runs_payload (runs_alterTopicRetention represents) carries
  | registerNode =>
    rw [type] at carries
    exact runs_payload (runs_registerNode represents) carries
  | assignPartitionLeader =>
    rw [type] at carries
    exact runs_payload (runs_assignPartitionLeader represents) carries
  | joinConsumerGroup =>
    rw [type] at carries
    exact runs_payload (runs_joinConsumerGroup represents) carries
  | leaveConsumerGroup =>
    rw [type] at carries
    exact runs_payload (runs_leaveConsumerGroup represents) carries
  | heartbeatConsumerGroup =>
    rw [type] at carries
    exact runs_payload (runs_heartbeatConsumerGroup represents) carries
  | commitConsumerOffset =>
    rw [type] at carries
    exact runs_payload (runs_commitConsumerOffset represents) carries
  | rebalanceConsumerGroup =>
    rw [type] at carries
    exact runs_payload (runs_rebalanceConsumerGroup represents) carries
  | other =>
    rw [type] at carries
    cases carries
    exact .refused represents _

/-- A map is writable when its keys and the values that it mirrors are. -/
theorem nilableMap_admits {Key A B : Type} [DecidableEq Key] {order : LinearOrder Key} {keys : Json.TextCodec Key}
    {codec : Json.Codec A} {related : A → B → Prop} {entries : NilMap Key A} {mirrored : KeyMap Key B}
    (mirrors : Mirrors related entries mirrored)
    (each : ∀ key value other, mirrored.lookup key = some other → related value other →
      keys.Admits key ∧ codec.Admits value) : (Json.nilableMap order keys codec).Admits entries := by
  rintro held rfl key value stored
  obtain ⟨absent, _⟩ | ⟨found, other, here, also, same⟩ := mirrors.lookup_cases key
  · cases stored.symm.trans absent
  · cases stored.symm.trans here
    exact each key value other also same

theorem RuntimeGroup.Represents.admitted (same : changed.Represents group)
    (admitted : ConsumerGroupMeta.codec.Admits group) : RuntimeGroup.codec.Admits changed := by
  constructor
  · refine nilableMap_admits same.members ?_
    rintro memberID _ member stored ⟨_, rfl, rfl⟩
    refine ⟨trivial, ?_⟩
    rintro _ ⟨⟩
    exact (admitted.1 memberID _ stored).2
  · refine nilableMap_admits same.committedOffsets ?_
    rintro key _ offset stored rfl
    exact admitted.2 key _ stored

theorem RuntimeGroupState.Represents.admitted {changed : RuntimeGroupState} {group : GroupState}
    (same : changed.Represents group) (admitted : GroupState.codec.Admits group) :
    RuntimeGroupState.codec.Admits changed := by
  constructor
  · refine nilableMap_admits same.assignments ?_
    rintro memberID _ assigned stored rfl
    exact admitted.1 memberID _ stored
  · refine nilableMap_admits same.offsets ?_
    rintro tp _ offset stored rfl
    exact admitted.2 tp _ stored

theorem RuntimeState.Represents.admitted (represents : running.Represents state) (writable : Writable state) :
    RuntimeState.codec.Admits running := by
  refine ⟨?_, ?_, ?_⟩
  · refine nilableMap_admits represents.partitions fun key _ pm stored _ => ?_
    exact ⟨writable.partitions key (mem_of_lookup_eq_some stored), fun _ _ => trivial⟩
  · refine nilableMap_admits represents.groups ?_
    rintro groupID _ group stored ⟨changed, rfl, same⟩
    refine ⟨trivial, ?_⟩
    rintro _ ⟨⟩
    exact same.admitted (writable.groups groupID group stored)
  · refine nilableMap_admits represents.groupStates ?_
    rintro groupID _ group stored ⟨changed, rfl, same⟩
    refine ⟨trivial, ?_⟩
    rintro _ ⟨⟩
    exact same.admitted (writable.groupStates groupID group stored)

/-- A snapshot brings back the very state that it was taken of, with all its maps made. -/
theorem recover_save (represents : running.Represents state) (writable : Writable state) (held : RuntimeState) :
    held.recoverFromSnapshot running.saveSnapshot = running := by
  unfold RuntimeState.recoverFromSnapshot RuntimeState.saveSnapshot
  rw [RuntimeState.codec.faithful running (represents.admitted writable)]
  dsimp only
  rw [represents.groupStates.some_getD]

end

/-- A machine with the snapshots that were taken of it. -/
structure RuntimeMachine where
  state : RuntimeState
  snapshots : List Json.Value

/-- The machine applies a command, takes a snapshot or goes back to one. -/
inductive RuntimeAction where
  | command (cmd : RuntimeCommand)
  | save
  | recover (snapshot : Nat)

namespace RuntimeMachine

def start : RuntimeMachine := ⟨RuntimeState.new, []⟩

/-- After a panic there is no next state. -/
def step (machine : RuntimeMachine) : RuntimeAction → Option RuntimeMachine
  | .command cmd =>
    match machine.state.update (some cmd) with
    | .error _ => none
    | .ok (next, _) => some { machine with state := next }
  | .save => some { machine with snapshots := machine.snapshots ++ [machine.state.saveSnapshot] }
  | .recover snapshot =>
    (machine.snapshots[snapshot]?).map fun written =>
      { machine with state := machine.state.recoverFromSnapshot written }

end RuntimeMachine

/-- A run of the machine. -/
def runtimeRuns : System RuntimeMachine RuntimeAction where
  start machine := machine = RuntimeMachine.start
  step machine action next := machine.step action = some next

/-- Every command carries the payload of its type, with the number types of the source. -/
def CarriesPayload (_ : RuntimeMachine) : RuntimeAction → Prop
  | .command cmd => ∃ command, cmd.carried = some command ∧ command.Fits
  | _ => True

/-- The state represents one of the model that can be written. -/
def Sound (running : RuntimeState) : Prop := ∃ state, running.Represents state ∧ Writable state ∧ Sized state

theorem Sound.new : Sound RuntimeState.new := by
  have nothing {Key Value : Type} [DecidableEq Key] {holds : Key → Value → Prop} (key : Key) (value : Value)
      (stored : (∅ : KeyMap Key Value).lookup key = some value) : holds key value := by
    rw [lookup_empty] at stored
    cases stored
  exact ⟨_, RuntimeState.Represents.new, ⟨fun key member => absurd member notMem_empty, nothing, nothing⟩, nothing⟩

theorem Sound.update {running : RuntimeState} (sound : Sound running) {cmd : RuntimeCommand}
    (carries : cmd.carried = some command) :
    ∃ next result, running.update (some cmd) = .ok (next, result) ∧ (command.Fits → Sound next) ∧
      (result.Refused → next = running) := by
  obtain ⟨state, represents, writable, sized⟩ := sound
  obtain ⟨next, ran, after, unchanged⟩ := applyCommand_runs represents carries
  exact ⟨next, _, ran, fun fits => ⟨_, after, writable.applyCommand sized fits, sized.applyCommand command⟩, unchanged⟩

/-- Every reached state and every snapshot represents a writable state. -/
theorem sound_of_reaches {machine : RuntimeMachine} (reached : runtimeRuns.Reaches CarriesPayload machine) :
    Sound machine.state ∧ ∀ snapshot ∈ machine.snapshots, ∃ taken, Sound taken ∧ snapshot = taken.saveSnapshot := by
  refine @System.Reaches.invariant _ _ _ _ (fun machine => Sound machine.state ∧
    ∀ snapshot ∈ machine.snapshots, ∃ taken, Sound taken ∧ snapshot = taken.saveSnapshot) ?_ ?_ _ reached
  · rintro _ rfl
    exact ⟨Sound.new, fun snapshot member => absurd member not_mem_nil⟩
  · rintro machine action next ⟨sound, taken⟩ allowed moved
    cases action with
    | command cmd =>
      obtain ⟨command, carries, fits⟩ := allowed
      obtain ⟨after, result, ran, kept, _⟩ := sound.update carries
      change (match machine.state.update (some cmd) with
        | .error _ => none
        | .ok (next, _) => some { machine with state := next }) = some next at moved
      rw [ran] at moved
      cases moved
      exact ⟨kept fits, taken⟩
    | save =>
      cases moved
      refine ⟨sound, fun snapshot member => ?_⟩
      obtain earlier | last := mem_append.mp member
      · exact taken snapshot earlier
      · exact ⟨machine.state, sound, mem_singleton.mp last⟩
    | recover place =>
      obtain ⟨written, here, rfl⟩ := Option.map_eq_some_iff.mp moved
      obtain ⟨origin, whole, rfl⟩ := taken written (mem_of_getElem? here)
      obtain ⟨state, represents, writable, sized⟩ := id whole
      dsimp only
      rw [recover_save represents writable]
      exact ⟨whole, taken⟩

/-- In every state that is reached by commands and snapshots, a command that carries its payload ends without a panic,
and a refusal leaves the whole state as it was. -/
theorem metadata_commands_total (machine : RuntimeMachine) (reached : runtimeRuns.Reaches CarriesPayload machine)
    (cmd : RuntimeCommand) (carries : cmd.carried.isSome) :
    ∃ next result, machine.state.update (some cmd) = .ok (next, result) ∧ (result.Refused → next = machine.state) := by
  obtain ⟨command, carried⟩ := Option.isSome_iff_exists.mp carries
  obtain ⟨next, result, ran, _, unchanged⟩ := (sound_of_reaches reached).1.update carried
  exact ⟨next, result, ran, unchanged⟩

/-- A command that creates a topic with two partitions. -/
def createOrders : RuntimeCommand where
  type := .createTopic
  createTopic := some ⟨"orders", 2, 1, 0, 0, 0, [[1], [2]]⟩
  deleteTopic := none
  alterTopicPartCount := none
  alterTopicRetention := none
  registerNode := none
  assignPartitionLeader := none
  joinConsumerGroup := none
  leaveConsumerGroup := none
  heartbeatConsumerGroup := none
  commitConsumerOffset := none
  rebalanceConsumerGroup := none

/-- Behind a snapshot and its recovery the topic is created a second time. -/
theorem metadata_commands_total_after_recovery :
    ∃ machine, runtimeRuns.Reaches CarriesPayload machine ∧ machine.snapshots.length = 1 ∧
      ∃ next result, machine.state.update (some createOrders) = .ok (next, result) ∧
        (result.Refused → next = machine.state) := by
  have created := (Option.some_get
    (by decide +kernel : (RuntimeMachine.start.step (.command createOrders)).isSome)).symm
  have fits : CarriesPayload RuntimeMachine.start (.command createOrders) := by
    refine ⟨_, rfl, ?_⟩
    show (2 : Int) < 2 ^ 31
    decide
  have first : runtimeRuns.Reaches CarriesPayload _ := .step (.start rfl) fits created
  have saved : runtimeRuns.Reaches CarriesPayload _ := @System.Reaches.step _ _ _ _ _ _ .save first trivial rfl
  have reached : runtimeRuns.Reaches CarriesPayload _ := @System.Reaches.step _ _ _ _ _ _ (.recover 0) saved trivial rfl
  exact ⟨_, reached, rfl, metadata_commands_total _ reached createOrders rfl⟩

end BunnyMQ.Metadata
