/-
This file shows what the commands of the coordinator carry and how they change a group.
-/

import BunnyMQ.Proof.Group.RangeAssign

namespace BunnyMQ.Group
open Foundation Metadata MetadataState MetadataCommand
variable {state : MetadataState} {visited : List String} {cmd : LeaveConsumerGroupCmd} {groupID memberID : String}

/-- The members of a group. A missing group has none. -/
def membersOf (group : Option GroupState) : Finset String := (group.map fun group => group.members.keys).getD ∅

/-- The member as the group has stored it. -/
def memberOf (state : MetadataState) (groupID memberID : String) : Option MemberState :=
  (state.getGroupState groupID).bind fun group => group.members.lookup memberID

/-- A loop over the members visits each of them once. -/
def Enumerates (visited : List String) (members : Finset String) : Prop :=
  visited.Nodup ∧ visited.toFinset = members

instance (visited : List String) (members : Finset String) : Decidable (Enumerates visited members) :=
  inferInstanceAs (Decidable (_ ∧ _))

theorem ok_of_toOption {ε α : Type} {result : Except ε α} {value : α} (found : result.toOption = some value) :
    result = .ok value := by
  cases result with
  | ok _ => exact congrArg Except.ok (Option.some.inj found)
  | error _ => cases found

/-- Every topic of the list that was found has its count, and nothing else has one. -/
theorem countTopics_found {getTopic : String → Except LookupError TopicMeta}
    {onError : String → LookupError → Except GroupError Unit} {topics : List String} {counts result : KeyMap String Int}
    (counted : countTopics getTopic onError topics counts = .ok result) (topic : String) :
    result.lookup topic = ((if topic ∈ topics then (getTopic topic).toOption else none).map
      TopicMeta.partitionCount).or (counts.lookup topic) := by
  induction topics generalizing counts with
  | nil =>
    cases counted
    simp
  | cons first topics ih =>
    rw [countTopics] at counted
    cases found : getTopic first with
    | error failure =>
      simp only [found] at counted
      cases failed : onError first failure with
      | error refusal =>
        rw [failed] at counted
        cases counted
      | ok skipped =>
        rw [failed] at counted
        rw [ih counted]
        by_cases same : topic = first
        · subst same
          simp [found, Except.toOption]
        · simp [same]
    | ok tm =>
      simp only [found] at counted
      rw [ih counted]
      by_cases same : topic = first
      · subst same
        by_cases again : topic ∈ topics
        · simp [found, again, Except.toOption]
        · simp [found, again, Except.toOption]
      · simp [same, Finmap.lookup_insert_of_ne _ same]

theorem getTopic_toOption (state : MetadataState) (topic : String) :
    (state.getTopic topic).toOption = state.topics.lookup topic := by
  unfold MetadataState.getTopic
  cases state.topics.lookup topic with
  | none => rfl
  | some tm => rfl

/-- Every topic of the list that exists has its count, and nothing else has one. -/
theorem countTopics_lookup {onError : String → LookupError → Except GroupError Unit} {topics : List String}
    {counts result : KeyMap String Int} (counted : countTopics state.getTopic onError topics counts = .ok result)
    (topic : String) :
    result.lookup topic = ((if topic ∈ topics then state.topics.lookup topic else none).map
      TopicMeta.partitionCount).or (counts.lookup topic) := by
  rw [countTopics_found counted topic, getTopic_toOption]

theorem lookupGroup_readsOf (state : MetadataState) (groupID : String) :
    lookupGroup (readsOf state) groupID = .ok (state.getGroupState groupID) := rfl

theorem others_nodup (distinct : visited.Nodup) (memberID : String) :
    (memberID :: visited.filter (· ≠ memberID)).Nodup := by
  refine List.nodup_cons.mpr ⟨?_, distinct.filter _⟩
  simp

theorem others_toFinset (visited : List String) (memberID : String) :
    (memberID :: visited.filter (· ≠ memberID)).toFinset = insert memberID visited.toFinset := by
  ext other
  simp only [List.mem_toFinset, List.mem_cons, List.mem_filter, decide_eq_true_eq, Finset.mem_insert]
  tauto

theorem remaining_toFinset (visited : List String) (memberID : String) :
    (visited.filter (· ≠ memberID)).toFinset = visited.toFinset.erase memberID := by
  ext other
  simp only [List.mem_toFinset, List.mem_filter, decide_eq_true_eq, Finset.mem_erase]
  tauto

def memberName (fresh : String) (req : JoinGroupRequest) : String := if req.memberID = "" then fresh else req.memberID

section
variable {config : GroupCoordinatorConfig} {fresh : String} {now : Int} {req : JoinGroupRequest}
  {cmd : JoinConsumerGroupCmd}

/-- A join that passes its checks proposes its member and a range assignment. -/
theorem joinCommand_shape (prepared : joinCommand config (readsOf state) visited fresh now req = .ok cmd) :
    ∃ counts, countTopics state.getTopic joinTopicError req.topics ∅ = .ok counts ∧
      cmd = ⟨req.groupID, memberName fresh req, "", [], 0,
        some ⟨memberName fresh req, req.topics, req.sessionTimeoutMs, req.heartbeatIntervalMs, now⟩,
        some (rangeAssign (memberName fresh req :: if (state.getGroupState req.groupID).isSome then
          visited.filter (· ≠ memberName fresh req) else []) req.topics counts)⟩ := by
  unfold joinCommand at prepared
  rw [lookupGroup_readsOf] at prepared
  simp only [bind, Except.bind] at prepared
  split at prepared
  · cases prepared
  split at prepared
  · cases prepared
  next counts counted =>
  split at prepared
  · cases prepared
  cases prepared
  exact ⟨counts, counted, rfl⟩

/-- The command of a join carries the range assignment of its own member and of those that it has read. -/
theorem joinCommand_ok (enumerates : Enumerates visited (membersOf (state.getGroupState req.groupID)))
    (prepared : joinCommand config (readsOf state) visited fresh now req = .ok cmd) :
    cmd.groupID = req.groupID ∧ (∃ ms, cmd.member = some ms ∧ ms.subscribedTopics = req.topics) ∧
      ∃ memberIDs counts, cmd.newAssignment = some (rangeAssign memberIDs req.topics counts) ∧ memberIDs.Nodup ∧
        memberIDs.toFinset = insert cmd.memberID (membersOf (state.getGroupState req.groupID)) ∧
        countTopics state.getTopic joinTopicError req.topics ∅ = .ok counts := by
  obtain ⟨distinct, listed⟩ := enumerates
  obtain ⟨counts, counted, rfl⟩ := joinCommand_shape prepared
  generalize memberName fresh req = memberID
  have others : (if (state.getGroupState req.groupID).isSome then visited.filter (· ≠ memberID) else []) =
      visited.filter (· ≠ memberID) := by
    cases group : state.getGroupState req.groupID with
    | some group => rfl
    | none =>
      have none : visited = [] := by
        rw [← List.toFinset_eq_empty_iff, listed, group]
        rfl
      simp [none]
  rw [others]
  refine ⟨rfl, ⟨_, rfl, rfl⟩, _, counts, rfl, others_nodup distinct memberID, ?_, counted⟩
  rw [others_toFinset, listed]

end

/-- A leave that passes its checks belongs to a member of the group that was read and proposes a range assignment. -/
theorem leaveCommand_reads {reads : Reads} (prepared : leaveCommand reads visited groupID memberID = .ok cmd) :
    cmd.groupID = groupID ∧ cmd.memberID = memberID ∧ ∃ group ms, lookupGroup reads groupID = .ok (some group) ∧
      group.members.lookup memberID = some ms ∧ ∃ counts,
        cmd.newAssignment = some (rangeAssign (visited.filter (· ≠ memberID)) ms.subscribedTopics counts) ∧
        countTopics reads.getTopic leaveTopicError ms.subscribedTopics ∅ = .ok counts := by
  unfold leaveCommand at prepared
  simp only [bind, Except.bind] at prepared
  cases read : lookupGroup reads groupID with
  | error failure =>
    rw [read] at prepared
    cases prepared
  | ok found =>
    rw [read] at prepared
    cases found with
    | none => cases prepared
    | some group =>
      dsimp only at prepared
      split at prepared
      case h_2 => cases prepared
      next ms present =>
      split at prepared
      · cases prepared
      next counts counted =>
      cases prepared
      exact ⟨rfl, rfl, group, ms, rfl, present, counts, rfl, counted⟩

theorem leaveCommand_shape (prepared : leaveCommand (readsOf state) visited groupID memberID = .ok cmd) :
    cmd.groupID = groupID ∧ cmd.memberID = memberID ∧ ∃ group ms, state.getGroupState groupID = some group ∧
      group.members.lookup memberID = some ms ∧ ∃ counts,
        cmd.newAssignment = some (rangeAssign (visited.filter (· ≠ memberID)) ms.subscribedTopics counts) ∧
        countTopics state.getTopic leaveTopicError ms.subscribedTopics ∅ = .ok counts := by
  obtain ⟨sameGroup, sameMember, group, ms, read, rest⟩ := leaveCommand_reads prepared
  rw [lookupGroup_readsOf] at read
  exact ⟨sameGroup, sameMember, group, ms, Except.ok.inj read, rest⟩

/-- The command of a leave carries the range assignment of the other members that it has read. -/
theorem leaveCommand_ok (enumerates : Enumerates visited (membersOf (state.getGroupState groupID)))
    (prepared : leaveCommand (readsOf state) visited groupID memberID = .ok cmd) :
    cmd.groupID = groupID ∧ cmd.memberID = memberID ∧ ∃ group ms, state.getGroupState groupID = some group ∧
      group.members.lookup memberID = some ms ∧ ∃ memberIDs counts,
        cmd.newAssignment = some (rangeAssign memberIDs ms.subscribedTopics counts) ∧ memberIDs.Nodup ∧
        memberIDs.toFinset = (membersOf (state.getGroupState groupID)).erase memberID ∧
        countTopics state.getTopic leaveTopicError ms.subscribedTopics ∅ = .ok counts := by
  obtain ⟨distinct, listed⟩ := enumerates
  obtain ⟨sameGroup, sameMember, group, ms, found, present, counts, carried, counted⟩ := leaveCommand_shape prepared
  refine ⟨sameGroup, sameMember, group, ms, found, present, _, counts, carried, distinct.filter _, ?_, counted⟩
  rw [remaining_toFinset, listed]

/-- A loop that skips every failed lookup ends with some counts. -/
theorem countTopics_skip (getTopic : String → Except LookupError TopicMeta) (topics : List String)
    (counts : KeyMap String Int) : ∃ result, countTopics getTopic (fun _ _ => .ok ()) topics counts = .ok result := by
  induction topics generalizing counts with
  | nil => exact ⟨counts, rfl⟩
  | cons topic topics ih =>
    rw [countTopics]
    cases getTopic topic with
    | ok tm => exact ih _
    | error failure => exact ih counts

/-- The command of an eviction carries the range assignment of the other members of the group. -/
theorem sweepMember_some {getTopic : String → Except LookupError TopicMeta} {table : HeartbeatTable} {now : Int}
    {group : GroupState} (proposed : sweepMember getTopic table now groupID memberID group visited = some cmd) :
    cmd.groupID = groupID ∧ cmd.memberID = memberID ∧ ∃ ms lastHB, group.members.lookup memberID = some ms ∧
      table.entry groupID memberID = some lastHB ∧ ms.sessionTimeoutMs < now - lastHB ∧ ∃ counts,
        cmd.newAssignment = some (rangeAssign (visited.filter (· ≠ memberID)) ms.subscribedTopics counts) ∧
        countTopics getTopic (fun _ _ => .ok ()) ms.subscribedTopics ∅ = .ok counts := by
  unfold sweepMember at proposed
  split at proposed
  case h_2 => cases proposed
  next ms lastHB present entry =>
  split at proposed
  · cases proposed
  next late =>
  obtain ⟨counts, counted⟩ := countTopics_skip getTopic ms.subscribedTopics ∅
  rw [counted] at proposed
  cases proposed
  exact ⟨rfl, rfl, ms, lastHB, present, entry, not_le.mp late, counts, rfl, counted⟩

/-- A commit that passes its checks belongs to a member of the current generation that owns its partitions. -/
theorem commitCommand_ok {visited : List TopicPartition} {generationID : Int} {offsets : KeyMap TopicPartition Int}
    {cmd : CommitConsumerOffsetCmd}
    (prepared : commitCommand (readsOf state) visited groupID memberID generationID offsets = .ok cmd) :
    cmd = ⟨groupID, [], some offsets⟩ ∧ ∃ group, state.getGroupState groupID = some group ∧
      memberID ∈ group.members ∧ group.generationID = generationID ∧
      ∀ tp ∈ visited, tp ∈ owned group.assignments memberID := by
  unfold commitCommand at prepared
  rw [lookupGroup_readsOf] at prepared
  simp only [bind, Except.bind] at prepared
  split at prepared
  case h_2 => cases prepared
  next group found =>
  split at prepared
  · cases prepared
  next present =>
  split at prepared
  · cases prepared
  next current =>
  split at prepared
  · cases prepared
  next all =>
  cases prepared
  refine ⟨rfl, group, found, ?_, (not_not.mp current).symm, ?_⟩
  · exact not_not.mp (mt KeyMap.lookup_isNone.mpr present)
  · intro tp member
    have checked := List.find?_eq_none.mp all tp member
    simpa [owned] using checked

/-- An empty map does not survive its field, but it reads as an empty map again. -/
theorem omitEmpty_getD {Key Value : Type} [DecidableEq Key] [DecidableEq Value] (entries : KeyMap Key Value) :
    (omitEmpty (some entries)).getD ∅ = entries := by
  by_cases empty : entries = ∅
  · rw [empty, omitEmpty, Option.filter_some, if_neg (by simp)]
    rfl
  · rw [omitEmpty, Option.filter_some, if_pos (by simpa using empty)]
    rfl

theorem omitEmpty_of_mem {Key Value : Type} [DecidableEq Key] [DecidableEq Value] {entries : KeyMap Key Value}
    {key : Key} (member : key ∈ entries) : omitEmpty (some entries) = some entries := by
  have present : entries ≠ ∅ := by
    rintro rfl
    exact Finmap.notMem_empty member
  rw [omitEmpty, Option.filter_some, if_pos (by simpa using present)]

section
variable {state : MetadataState}

/-- The group that a join finds or creates. -/
def groupOrNew (state : MetadataState) (groupID : String) : GroupState :=
  (state.getGroupState groupID).getD ⟨groupID, ∅, 0, ∅, ∅⟩

theorem groupOrNew_members (state : MetadataState) (groupID : String) :
    (groupOrNew state groupID).members.keys = membersOf (state.getGroupState groupID) := by
  unfold groupOrNew membersOf
  cases state.getGroupState groupID with
  | none => simp
  | some group => rfl

/-- A join stores its member and its assignment and starts a new generation. -/
theorem update_join {cmd : JoinConsumerGroupCmd} {ms : MemberState} (member : cmd.member = some ms)
    {assignment : KeyMap String (List TopicPartition)} (carried : cmd.newAssignment = some assignment)
    (own : cmd.memberID ∈ assignment) :
    state.update (.joinConsumerGroup cmd) = ({ state with
      groupStates := state.groupStates.insert cmd.groupID { groupOrNew state cmd.groupID with
        members := (groupOrNew state cmd.groupID).members.insert cmd.memberID ms
        assignments := assignment
        generationID := int32 ((groupOrNew state cmd.groupID).generationID + 1) } }, okResult) := by
  simp only [update, roundTrip, applyCommand,
    applyJoinConsumerGroup, member, carried, omitEmpty_of_mem own, applyGroupStateJoin]
  rfl

/-- A leave of a member removes it, stores the assignment and starts a new generation. -/
theorem update_leave {cmd : LeaveConsumerGroupCmd} {group : GroupState}
    (found : state.getGroupState cmd.groupID = some group) (present : cmd.memberID ∈ group.members) :
    state.update (.leaveConsumerGroup cmd) = ({ state with
      groupStates := state.groupStates.insert cmd.groupID { group with
        members := group.members.erase cmd.memberID
        assignments := if (group.members.erase cmd.memberID).keys = ∅ then ∅
          else (omitEmpty cmd.newAssignment).getD ∅
        generationID := int32 (group.generationID + 1) } }, okResult) := by
  have here : ¬ (group.members.lookup cmd.memberID).isNone := fun none => KeyMap.lookup_isNone.mp none present
  have stored : state.groupStates.lookup cmd.groupID = some group := found
  simp only [update, roundTrip, applyCommand,
    applyLeaveConsumerGroup, stored, applyGroupStateLeave, if_neg here]

/-- A leave of a stranger is refused. -/
theorem update_leave_absent {group : GroupState} (found : state.getGroupState cmd.groupID = some group)
    (absent : cmd.memberID ∉ group.members) :
    state.update (.leaveConsumerGroup cmd) = (state, errorResult resultErrNotFound "member not found") := by
  have gone : (group.members.lookup cmd.memberID).isNone := KeyMap.lookup_isNone.mpr absent
  have stored : state.groupStates.lookup cmd.groupID = some group := found
  simp only [update, roundTrip, applyCommand,
    applyLeaveConsumerGroup, stored, applyGroupStateLeave, if_pos gone]

/-- A leave from a group that no coordinator has created changes neither the topics nor such a group. -/
theorem update_leave_missing (missing : state.getGroupState cmd.groupID = none) :
    (state.update (.leaveConsumerGroup cmd)).1.topics = state.topics ∧
      (state.update (.leaveConsumerGroup cmd)).1.groupStates = state.groupStates := by
  have absent : state.groupStates.lookup cmd.groupID = none := missing
  simp only [update, roundTrip, applyCommand,
    applyLeaveConsumerGroup, absent]
  cases state.groups.lookup cmd.groupID with
  | none => exact ⟨rfl, rfl⟩
  | some group =>
    simp only
    split
    · exact ⟨rfl, rfl⟩
    · exact ⟨rfl, rfl⟩

/-- Members, generation and assignments of a group. -/
def membership (group : GroupState) : KeyMap String MemberState × Int × KeyMap String (List TopicPartition) :=
  (group.members, group.generationID, group.assignments)

/-- A commit changes neither the topics nor the membership of any group. -/
theorem update_commit (cmd : CommitConsumerOffsetCmd) (groupID : String) :
    (state.update (.commitConsumerOffset cmd)).1.topics = state.topics ∧
      ((state.update (.commitConsumerOffset cmd)).1.getGroupState groupID).map membership =
        (state.getGroupState groupID).map membership := by
  simp only [update, roundTrip, applyCommand,
    applyCommitConsumerOffset]
  cases omitEmpty cmd.groupOffsets with
  | none =>
    simp only
    cases state.groups.lookup cmd.groupID with
    | none => exact ⟨rfl, rfl⟩
    | some group => exact ⟨rfl, rfl⟩
  | some offsets =>
    simp only [applyGroupStateCommitOffset]
    cases found : state.groupStates.lookup cmd.groupID with
    | none => exact ⟨rfl, rfl⟩
    | some group =>
      refine ⟨rfl, ?_⟩
      simp only [getGroupState]
      by_cases same : groupID = cmd.groupID
      · subst same
        rw [Finmap.lookup_insert, found]
        rfl
      · rw [Finmap.lookup_insert_of_ne _ same]

/-- A join changes nothing, or it stores its member, starts the next generation and records the time. -/
theorem joinGroup_cases (config : GroupCoordinatorConfig) (visited : List String) (fresh : String) (now : Int)
    (req : JoinGroupRequest) (state : MetadataState) (table : HeartbeatTable) :
    (∃ failure, joinGroup config visited fresh now req state table = (.error failure, state, table)) ∨
      ∃ response group, joinGroup config visited fresh now req state table =
          (.ok response, { state with groupStates := state.groupStates.insert req.groupID group },
            table.record req.groupID (memberName fresh req) now) ∧
        response.memberID = memberName fresh req ∧ response.generationID = group.generationID ∧
        group.generationID = int32 ((groupOrNew state req.groupID).generationID + 1) ∧
        group.members = (groupOrNew state req.groupID).members.insert (memberName fresh req)
          ⟨memberName fresh req, req.topics, req.sessionTimeoutMs, req.heartbeatIntervalMs, now⟩ := by
  unfold joinGroup
  cases prepared : joinCommand config (readsOf state) visited fresh now req with
  | error failure => exact .inl ⟨failure, rfl⟩
  | ok cmd =>
    obtain ⟨counts, _, shape⟩ := joinCommand_shape prepared
    have group : cmd.groupID = req.groupID := by rw [shape]
    have name : cmd.memberID = memberName fresh req := by rw [shape]
    have member : cmd.member = some ⟨memberName fresh req, req.topics, req.sessionTimeoutMs,
        req.heartbeatIntervalMs, now⟩ := by rw [shape]
    have carried : ∃ memberIDs,
        cmd.newAssignment = some (rangeAssign (cmd.memberID :: memberIDs) req.topics counts) := by
      rw [shape]
      exact ⟨_, rfl⟩
    obtain ⟨memberIDs, carried⟩ := carried
    have updated := @update_join state cmd _ member _ carried ((mem_rangeAssign _).mpr List.mem_cons_self)
    rw [group, name] at updated
    right
    simp only [updated, name, joinResponse, readsOf, getGroupState, Finmap.lookup_insert]
    exact ⟨_, _, rfl, rfl, rfl, rfl, rfl⟩

end

end BunnyMQ.Group
