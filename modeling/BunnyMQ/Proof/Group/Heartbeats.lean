/-
This file follows the members of the groups and their heartbeats through the calls of the coordinator.
-/

import BunnyMQ.Proof.Group.Commands

namespace BunnyMQ.Group
open Foundation Metadata MetadataState Finmap

namespace HeartbeatTable
variable (table : HeartbeatTable) (groupID memberID : String)

theorem entry_record (now : Int) (otherGroup otherMember : String) :
    (table.record groupID memberID now).entry otherGroup otherMember =
      if otherGroup = groupID ∧ otherMember = memberID then some now else table.entry otherGroup otherMember := by
  unfold entry record
  by_cases sameGroup : otherGroup = groupID
  · subst sameGroup
    by_cases sameMember : otherMember = memberID
    · subst sameMember
      simp
    · cases table.lookup otherGroup with
      | none => simp [sameMember, lookup_insert_of_ne _ sameMember]
      | some members => simp [sameMember, lookup_insert_of_ne _ sameMember]
  · simp [sameGroup, lookup_insert_of_ne _ sameGroup]

theorem entry_forget (otherGroup otherMember : String) :
    (table.forget groupID memberID).entry otherGroup otherMember =
      if otherGroup = groupID ∧ otherMember = memberID then none else table.entry otherGroup otherMember := by
  unfold entry forget
  cases found : table.lookup groupID with
  | none =>
    by_cases sameGroup : otherGroup = groupID
    · subst sameGroup
      simp [found]
    · simp [sameGroup]
  | some members =>
    by_cases sameGroup : otherGroup = groupID
    · subst sameGroup
      by_cases sameMember : otherMember = memberID
      · subst sameMember
        simp
      · simp [sameMember, found, lookup_erase_ne sameMember]
    · simp [sameGroup, lookup_insert_of_ne _ sameGroup]

end HeartbeatTable

/-- A rebuilt table has the current time for every member. -/
theorem rebuildHeartbeatTable_entry {groups : KeyMap String GroupState} {groupID memberID : String}
    {group : GroupState} (found : groups.lookup groupID = some group) (member : memberID ∈ group.members)
    (table : HeartbeatTable) (now : Int) :
    (rebuildHeartbeatTable groups table now).entry groupID memberID = some now := by
  have known : groupID ∈ groups.sortedKeys := KeyMap.mem_sortedKeys.mpr (mem_of_lookup_eq_some found)
  have listed : memberID ∈ group.members.sortedKeys := KeyMap.mem_sortedKeys.mpr member
  have seeded (entries : KeyMap String Int) :
      (group.members.sortedKeys.foldl (fun entries memberID => entries.insert memberID now) entries).lookup memberID =
        some now := by
    have loop := KeyMap.lookup_foldl_insert (fun _ _ => now) (KeyMap.sortedKeys_nodup group.members) entries memberID
    rwa [if_pos listed] at loop
  have rebuilt : (rebuildHeartbeatTable groups table now).lookup groupID =
      some (group.members.sortedKeys.foldl (fun entries memberID => entries.insert memberID now)
        ((table.lookup groupID).getD ∅)) := by
    have loop := KeyMap.lookup_foldl_insert (fun groupID (entries : Option (KeyMap String Int)) =>
      (((groups.lookup groupID).map GroupState.members).getD ∅).sortedKeys.foldl
        (fun entries memberID => entries.insert memberID now) (entries.getD ∅))
      (KeyMap.sortedKeys_nodup groups) table groupID
    rw [if_pos known, found] at loop
    exact loop
  rw [HeartbeatTable.entry, rebuilt, Option.bind_some, seeded]

section
variable {state : MetadataState}

theorem memberOf_insert (changed groupID memberID : String) (group : GroupState) :
    memberOf { state with groupStates := state.groupStates.insert changed group } groupID memberID =
      if groupID = changed then group.members.lookup memberID else memberOf state groupID memberID := by
  unfold memberOf MetadataState.getGroupState
  split
  · next same =>
    subst same
    simp
  · next other => rw [lookup_insert_of_ne _ other]

theorem groupOrNew_lookup (groupID memberID : String) :
    (groupOrNew state groupID).members.lookup memberID = memberOf state groupID memberID := by
  unfold groupOrNew memberOf
  cases state.getGroupState groupID with
  | none => rfl
  | some group => rfl

/-- A leave takes away its member and no other. -/
theorem memberOf_leave (cmd : LeaveConsumerGroupCmd) (groupID memberID : String) :
    memberOf (state.update (.leaveConsumerGroup cmd)).1 groupID memberID =
      if groupID = cmd.groupID ∧ memberID = cmd.memberID then none else memberOf state groupID memberID := by
  cases found : state.getGroupState cmd.groupID with
  | none =>
    have same : memberOf (state.update (.leaveConsumerGroup cmd)).1 groupID memberID =
        memberOf state groupID memberID := by
      unfold memberOf MetadataState.getGroupState
      rw [(update_leave_missing found).2]
    rw [same]
    split
    · next own => rw [own.1, memberOf, found, Option.bind_none]
    · rfl
  | some group =>
    by_cases present : cmd.memberID ∈ group.members
    · rw [update_leave found present, memberOf_insert]
      by_cases sameGroup : groupID = cmd.groupID
      · subst sameGroup
        by_cases sameMember : memberID = cmd.memberID
        · subst sameMember
          simp
        · simp [sameMember, lookup_erase_ne sameMember, memberOf, found]
      · simp [sameGroup]
    · rw [update_leave_absent found present]
      split
      · next own =>
        rw [own.1, own.2, memberOf, found, Option.bind_some]
        exact lookup_eq_none.mpr present
      · rfl

end

/-- These commands change the members of a group. -/
def changesMembers : MetadataCommand → Bool
  | .joinConsumerGroup _ => true
  | .leaveConsumerGroup _ => true
  | _ => false

/-- No other command changes a member of a group. -/
theorem memberOf_other {state : MetadataState} {command : MetadataCommand} (other : changesMembers command = false)
    (groupID memberID : String) :
    memberOf (state.update command).1 groupID memberID = memberOf state groupID memberID := by
  suffices kept : ((state.update command).1.getGroupState groupID).map membership =
      (state.getGroupState groupID).map membership by
    have same (group : Option GroupState) : (group.bind fun group => group.members.lookup memberID) =
        (group.map membership).bind fun parts => parts.1.lookup memberID := by
      cases group with
      | none => rfl
      | some group => rfl
    rw [memberOf, memberOf, same, kept, ← same]
  cases command with
  | joinConsumerGroup cmd => cases other
  | leaveConsumerGroup cmd => cases other
  | commitConsumerOffset cmd => exact (update_commit cmd groupID).2
  | _ =>
    -- The remaining commands write to the topics, the partitions, the nodes or the older groups.
    simp only [update, MetadataCommand.roundTrip, applyCommand,
      applyCreateTopic, applyDeleteTopic, applyAlterTopicPartCount,
      applyAlterTopicRetention, applyRegisterNode,
      applyAssignPartitionLeader, applyHeartbeatConsumerGroup,
      applyRebalanceConsumerGroup]
    repeat' split
    all_goals rfl

end BunnyMQ.Group
