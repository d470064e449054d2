/-
This file shows when concurrent joins, leaves and evictions keep the partitions of a group owned exclusively.
-/

import BunnyMQ.Proof.Group.Interleaving

namespace BunnyMQ.Group
open Foundation Metadata Transition MetadataState Finmap Option

/-- The assignment has one entry for each member, and each partition of the topics belongs to exactly one of
the members. -/
structure Assigns (metas : KeyMap String TopicMeta) (topics : List String) (members : Finset String)
    (assignments : KeyMap String (List TopicPartition)) : Prop where
  keys : ∀ memberID, memberID ∈ assignments ↔ memberID ∈ members
  exclusive : members.Nonempty → ∀ topic ∈ topics, ∀ tm, metas.lookup topic = some tm → ∀ item : Nat,
    item < tm.partitionCount → ∃! memberID, memberID ∈ members ∧
    TopicPartition.mk topic item ∈ owned assignments memberID

theorem assigns_empty (metas : KeyMap String TopicMeta) (topics : List String) : Assigns metas topics ∅ ∅ :=
  ⟨fun _ => iff_of_false notMem_empty (Finset.notMem_empty _), fun present => absurd present (by simp)⟩

/-- A range assignment with the counts of the metadata gives each partition to one of its members. -/
theorem rangeAssign_assigns {state : MetadataState} {topics subscribed memberIDs : List String}
    {counts : KeyMap String Int} {onError : String → LookupError → Except GroupError Unit} {members : Finset String}
    (wellCounted : WellCounted state.topics) (counted : countTopics state.getTopic onError subscribed ∅ = .ok counts)
    (same : subscribed.toFinset = topics.toFinset) (distinct : memberIDs.Nodup)
    (listed : memberIDs.toFinset = members) :
    Assigns state.topics topics members (rangeAssign memberIDs subscribed counts) := by
  have lookup : ∀ topic, counts.lookup topic =
      (if topic ∈ subscribed then state.topics.lookup topic else none).map TopicMeta.partitionCount := by
    intro topic
    rw [countTopics_lookup counted topic, lookup_empty, or_none]
  have countable : Countable counts := by
    intro topic count found
    rw [lookup topic] at found
    obtain ⟨tm, stored, rfl⟩ := map_eq_some_iff.mp found
    split at stored
    · exact wellCounted topic tm stored
    · cases stored
  refine ⟨fun memberID => ?_, fun present topic member tm stored item below => ?_⟩
  · rw [mem_rangeAssign, ← listed, List.mem_toFinset]
  · have chosen : topic ∈ subscribed := by
      rw [← List.mem_toFinset, same, List.mem_toFinset]
      exact member
    have size : partitionsOf counts topic = tm.partitionCount.toNat := by
      rw [partitionsOf, lookup topic, if_pos chosen, stored]
      rfl
    have some : memberIDs ≠ [] := by
      rintro rfl
      rw [← listed] at present
      simp at present
    have unique := @rangeAssign_exactlyOne memberIDs subscribed counts countable distinct some topic chosen item
      (by omega)
    simpa only [← listed, List.mem_toFinset] using unique

section
variable {config : GroupCoordinatorConfig} {groupID : String} {topics : List String} {run next : GroupRun}

/-- A pending command carries an exclusive assignment for the members that its operation has read. -/
def Computed (groupID : String) (topics : List String) (metas : KeyMap String TopicMeta) (entry : Pending) : Prop :=
  match entry.command with
  | .joinConsumerGroup cmd => cmd.groupID = groupID ∧
      (∃ ms, cmd.member = some ms ∧ ms.subscribedTopics.toFinset = topics.toFinset) ∧
      ∃ assignment, cmd.newAssignment = some assignment ∧
        Assigns metas topics (insert cmd.memberID (membersOf entry.read)) assignment
  | .leaveConsumerGroup cmd => cmd.groupID = groupID ∧ ∃ assignment, cmd.newAssignment = some assignment ∧
      Assigns metas topics ((membersOf entry.read).erase cmd.memberID) assignment
  | .commitConsumerOffset _ => True
  | _ => False

/-- Every member of the group subscribes to its topics. -/
def Subscribed (groupID : String) (topics : List String) (state : MetadataState) : Prop :=
  ∀ group, state.getGroupState groupID = some group → ∀ memberID ms, group.members.lookup memberID = some ms →
    ms.subscribedTopics.toFinset = topics.toFinset

/-- The assignment of the group is exclusive among its current members. -/
def Exclusive (groupID : String) (topics : List String) (state : MetadataState) : Prop :=
  ∀ group, state.getGroupState groupID = some group →
    Assigns state.topics topics group.members.keys group.assignments

/-- The members have not changed since the operation has read them, apart from the member of the operation. A
leave may also come too late or remove the last member. -/
def ReadsCurrent (read current : Finset String) : MetadataCommand → Prop
  | .joinConsumerGroup cmd => insert cmd.memberID read = insert cmd.memberID current
  | .leaveConsumerGroup cmd =>
    cmd.memberID ∉ current ∨ current.erase cmd.memberID = ∅ ∨ current.erase cmd.memberID = read.erase cmd.memberID
  | _ => True

instance (read current : Finset String) : (command : MetadataCommand) → Decidable (ReadsCurrent read current command)
  | .joinConsumerGroup _ => inferInstanceAs (Decidable (_ = _))
  | .leaveConsumerGroup _ => inferInstanceAs (Decidable (_ ∨ _ ∨ _))
  | .createTopic _ | .deleteTopic _ | .alterTopicPartCount _ | .alterTopicRetention _ | .registerNode _
  | .assignPartitionLeader _ | .heartbeatConsumerGroup _ | .commitConsumerOffset _ | .rebalanceConsumerGroup _
  | .unknown => .isTrue trivial

/-- A join subscribes to these topics. -/
def Operation.Subscribes (topics : List String) : Operation → Prop
  | .join _ _ _ req => req.topics.toFinset = topics.toFinset
  | _ => True

instance (topics : List String) : (op : Operation) → Decidable (op.Subscribes topics)
  | .join _ _ _ _ => inferInstanceAs (Decidable (_ = _))
  | .leave _ _ | .evict _ _ _ _ | .commit _ _ _ _ => .isTrue trivial

/-- The members subscribe to the topics of the group, and every command is applied to the members that its operation
has read. -/
def UpToDate (groupID : String) (topics : List String) (run : GroupRun) : GroupEvent → Prop
  | .propose op => op.Subscribes topics
  | .apply place => ∀ entry ∈ run.pending[place]?,
      ReadsCurrent (membersOf entry.read) (membersOf (run.state.getGroupState groupID)) entry.command

instance (groupID : String) (topics : List String) (run : GroupRun) :
    (event : GroupEvent) → Decidable (UpToDate groupID topics run event)
  | .propose op => inferInstanceAs (Decidable (op.Subscribes topics))
  | .apply _ => inferInstanceAs (Decidable (∀ _ ∈ _, _))

structure Owning (groupID : String) (topics : List String) (run : GroupRun) : Prop where
  wellCounted : WellCounted run.state.topics
  subscribed : Subscribed groupID topics run.state
  computed : ∀ entry ∈ run.pending, Computed groupID topics run.state.topics entry
  exclusive : Exclusive groupID topics run.state

/-- The command of an operation is computed from the state that it reads. -/
theorem computed_command {op : Operation} {command : MetadataCommand} (owning : Owning groupID topics run)
    (fits : op.Fits groupID run.state) (subscribes : op.Subscribes topics)
    (computed : op.command config groupID run.state = some command) :
    Computed groupID topics run.state.topics ⟨op, command, run.state.getGroupState groupID, run.applied.length⟩ := by
  cases op with
  | join visited fresh now req =>
    obtain ⟨same, enumerates⟩ := fits
    obtain ⟨cmd, prepared, rfl⟩ := map_eq_some_iff.mp computed
    rw [← same] at enumerates
    obtain ⟨group, ⟨ms, member, chosen⟩, memberIDs, counts, carried, distinct, listed, counted⟩ :=
      joinCommand_ok enumerates (ok_of_toOption prepared)
    rw [same] at listed
    exact ⟨group.trans same, ⟨ms, member, by rw [chosen]; exact subscribes⟩, _, carried,
      rangeAssign_assigns owning.wellCounted counted subscribes distinct listed⟩
  | leave visited memberID =>
    obtain ⟨cmd, prepared, rfl⟩ := map_eq_some_iff.mp computed
    obtain ⟨sameGroup, sameMember, group, ms, found, present, memberIDs, counts, carried, distinct, listed, counted⟩ :=
      leaveCommand_ok fits (ok_of_toOption prepared)
    rw [← sameMember] at listed
    exact ⟨sameGroup, _, carried, rangeAssign_assigns owning.wellCounted counted
      (owning.subscribed group found memberID ms present) distinct listed⟩
  | evict visited memberID table now =>
    obtain ⟨group, found, swept⟩ := bind_eq_some_iff.mp computed
    obtain ⟨cmd, proposed, rfl⟩ := map_eq_some_iff.mp swept
    obtain ⟨sameGroup, sameMember, ms, _, present, _, _, counts, carried, counted⟩ := sweepMember_some proposed
    obtain ⟨distinct, listed⟩ := fits
    refine ⟨sameGroup, _, carried, rangeAssign_assigns owning.wellCounted counted
      (owning.subscribed group found memberID ms present) (distinct.filter _) ?_⟩
    rw [remaining_toFinset, listed, sameMember]
  | commit visited memberID generationID offsets =>
    obtain ⟨cmd, _, rfl⟩ := map_eq_some_iff.mp computed
    trivial

theorem membersOf_some (group : GroupState) : membersOf (some group) = group.members.keys := rfl

/-- An up-to-date join keeps the ownership exclusive. -/
theorem Owning.join (owning : Owning groupID topics run) {entry : Pending} {cmd : JoinConsumerGroupCmd}
    (command : entry.command = .joinConsumerGroup cmd)
    (computed : Computed groupID topics run.state.topics entry)
    (current : insert cmd.memberID (membersOf entry.read) =
      insert cmd.memberID (membersOf (run.state.getGroupState groupID))) :
    (run.state.update entry.command).1.topics = run.state.topics ∧
      Subscribed groupID topics (run.state.update entry.command).1 ∧
      Exclusive groupID topics (run.state.update entry.command).1 := by
  rw [Computed, command] at computed
  obtain ⟨sameGroup, ⟨ms, member, chosen⟩, assignment, carried, assigns⟩ := computed
  have own : cmd.memberID ∈ assignment := (assigns.keys cmd.memberID).mpr (Finset.mem_insert_self _ _)
  rw [command, update_join member carried own]
  refine ⟨rfl, ?_, ?_⟩
  · intro group found memberID other stored
    simp only [getGroupState, sameGroup, lookup_insert, some.injEq] at found
    subst found
    by_cases same : memberID = cmd.memberID
    · subst same
      rw [lookup_insert] at stored
      cases stored
      exact chosen
    · rw [lookup_insert_of_ne _ same] at stored
      unfold groupOrNew at stored
      cases old : run.state.getGroupState groupID with
      | none => simp [old] at stored
      | some group =>
        rw [old] at stored
        exact owning.subscribed group old memberID other stored
  · intro group found
    simp only [getGroupState, sameGroup, lookup_insert, some.injEq] at found
    subst found
    have members : ((groupOrNew run.state groupID).members.insert cmd.memberID ms).keys =
        insert cmd.memberID (membersOf entry.read) := by
      rw [KeyMap.keys_insert, groupOrNew_members, current]
    simp only [members]
    exact assigns

/-- An up-to-date leave keeps the ownership exclusive. -/
theorem Owning.leave (owning : Owning groupID topics run) {entry : Pending} {cmd : LeaveConsumerGroupCmd}
    (command : entry.command = .leaveConsumerGroup cmd)
    (computed : Computed groupID topics run.state.topics entry)
    (current : cmd.memberID ∉ membersOf (run.state.getGroupState groupID) ∨
      (membersOf (run.state.getGroupState groupID)).erase cmd.memberID = ∅ ∨
      (membersOf (run.state.getGroupState groupID)).erase cmd.memberID = (membersOf entry.read).erase cmd.memberID) :
    (run.state.update entry.command).1.topics = run.state.topics ∧
      Subscribed groupID topics (run.state.update entry.command).1 ∧
      Exclusive groupID topics (run.state.update entry.command).1 := by
  rw [Computed, command] at computed
  obtain ⟨sameGroup, assignment, carried, assigns⟩ := computed
  rw [command]
  cases found : run.state.getGroupState groupID with
  | none =>
    rw [← sameGroup] at found
    obtain ⟨metas, groups⟩ := update_leave_missing found
    refine ⟨metas, ?_, ?_⟩
    · intro group stored
      rw [getGroupState, groups] at stored
      exact owning.subscribed group stored
    · intro group stored
      rw [getGroupState, groups] at stored
      rw [metas]
      exact owning.exclusive group stored
  | some group =>
    rw [found, membersOf_some] at current
    rw [← sameGroup] at found
    by_cases present : cmd.memberID ∈ group.members
    · rw [update_leave found present, carried, omitEmpty_getD]
      have old := owning.subscribed group (sameGroup ▸ found)
      refine ⟨rfl, ?_, ?_⟩
      · intro after stored memberID ms member
        simp only [getGroupState, sameGroup, lookup_insert, some.injEq] at stored
        subst stored
        by_cases same : memberID = cmd.memberID
        · rw [same, lookup_erase] at member
          cases member
        · rw [lookup_erase_ne same] at member
          exact old memberID ms member
      · intro after stored
        simp only [getGroupState, sameGroup, lookup_insert, some.injEq] at stored
        subst stored
        simp only [KeyMap.keys_erase]
        split
        · next empty =>
          rw [empty]
          exact assigns_empty _ _
        · next some =>
          rcases current with absent | empty | same
          · exact absurd (mem_keys.mpr present) absent
          · exact absurd empty some
          · rw [same]
            exact assigns
    · rw [update_leave_absent found present]
      exact ⟨rfl, owning.subscribed, owning.exclusive⟩

theorem membership_inj {first second : Option GroupState} (same : first.map membership = second.map membership) :
    ∀ group, first = some group → ∃ other, second = some other ∧ group.members = other.members ∧
      group.assignments = other.assignments := by
  rintro group rfl
  obtain ⟨other, found, equal⟩ := map_eq_some_iff.mp same.symm
  obtain ⟨members, _, assignments⟩ : _ ∧ _ ∧ _ := by simpa [membership] using equal
  exact ⟨other, found, members.symm, assignments.symm⟩

/-- A commit keeps the ownership exclusive. -/
theorem Owning.commit (owning : Owning groupID topics run) (cmd : CommitConsumerOffsetCmd) :
    (run.state.update (.commitConsumerOffset cmd)).1.topics = run.state.topics ∧
      Subscribed groupID topics (run.state.update (.commitConsumerOffset cmd)).1 ∧
      Exclusive groupID topics (run.state.update (.commitConsumerOffset cmd)).1 := by
  obtain ⟨metas, same⟩ := @update_commit run.state cmd groupID
  refine ⟨metas, ?_, ?_⟩
  · intro group found memberID ms stored
    obtain ⟨old, before, members, _⟩ := membership_inj same group found
    rw [members] at stored
    exact owning.subscribed old before memberID ms stored
  · intro group found
    obtain ⟨old, before, members, assignments⟩ := membership_inj same group found
    rw [metas, members, assignments]
    exact owning.exclusive old before

/-- A step of an up-to-date run keeps the ownership exclusive. -/
theorem Owning.step (owning : Owning groupID topics run) {event : GroupEvent}
    (current : UpToDate groupID topics run event) (stepped : run.step config groupID event = some next) :
    Owning groupID topics next := by
  obtain ⟨op, command, rfl, fits, computed, rfl⟩ | ⟨place, entry, rfl, found, rfl⟩ := GroupRun.step_cases stepped
  · refine ⟨owning.wellCounted, owning.subscribed, ?_, owning.exclusive⟩
    have new := computed_command owning fits current computed
    intro entry member
    rcases List.mem_append.mp member with old | last
    · exact owning.computed entry old
    · rw [List.mem_singleton.mp last]
      exact new
  · have known := owning.computed entry (List.mem_of_getElem? found)
    have fresh := current entry found
    have kept : (run.state.update entry.command).1.topics = run.state.topics ∧
        Subscribed groupID topics (run.state.update entry.command).1 ∧
        Exclusive groupID topics (run.state.update entry.command).1 := by
      cases command : entry.command with
      | joinConsumerGroup cmd =>
        rw [command] at fresh
        rw [← command]
        exact owning.join command known fresh
      | leaveConsumerGroup cmd =>
        rw [command] at fresh
        rw [← command]
        exact owning.leave command known fresh
      | commitConsumerOffset cmd => exact owning.commit cmd
      | _ =>
        rw [Computed, command] at known
        exact known.elim
    obtain ⟨metas, subscribed, exclusive⟩ := kept
    refine ⟨?_, subscribed, ?_, exclusive⟩
    · change WellCounted (run.state.update entry.command).1.topics
      rw [metas]
      exact owning.wellCounted
    · intro other member
      change Computed groupID topics (run.state.update entry.command).1.topics other
      rw [metas]
      exact owning.computed other (List.mem_of_mem_eraseIdx member)

end

/-- In every run of up-to-date commands the partitions of the group are owned exclusively. -/
theorem partitions_owned_exclusively (config : GroupCoordinatorConfig) (groupID : String) (topics : List String)
    (run : GroupRun) (reached : (groupRuns config groupID).Reaches (UpToDate groupID topics) run) :
    Exclusive groupID topics run.state := by
  have owning : Owning groupID topics run := by
    refine @System.Reaches.invariant _ _ _ _ (Owning groupID topics) ?_ ?_ _ reached
    · rintro run ⟨missing, wellCounted, pending, _⟩
      refine ⟨wellCounted, ?_, ?_, ?_⟩
      · intro group found
        rw [missing] at found
        cases found
      · intro entry member
        rw [pending] at member
        cases member
      · intro group found
        rw [missing] at found
        cases found
    · intro run event next owning current stepped
      exact owning.step current stepped
  exact owning.exclusive

/-- Two members join one after the other, and the first one leaves. -/
def sequentialEvents : List GroupEvent :=
  [joins "a" [], .apply 0, joins "b" ["a"], .apply 0, .propose (.leave ["b", "a"] "a"), .apply 0]

/-- The second member owns both partitions at the end. -/
theorem partitions_owned_exclusively_sequentially :
    ∃ run, follow (GroupRun.step defaultConfig "billing") ordersRun sequentialEvents = some run ∧
      (run.state.getGroupState "billing").map (fun group => owned group.assignments "b") =
        some [⟨"orders", 0⟩, ⟨"orders", 1⟩] ∧ Exclusive "billing" ["orders"] run.state := by
  have followed : follow (GroupRun.step defaultConfig "billing") ordersRun sequentialEvents =
      some ((follow (GroupRun.step defaultConfig "billing") ordersRun sequentialEvents).get
        (by decide +kernel)) := (some_get _).symm
  have reached := System.Reaches.run ordersRun_start
    (by decide +kernel : permits _ (UpToDate "billing" ["orders"]) _ _) followed
  exact ⟨_, followed, by decide +kernel, partitions_owned_exclusively defaultConfig "billing" ["orders"] _ reached⟩

/-- Both members read the empty group before either of them has joined. -/
def overlappingEvents : List GroupEvent := [joins "a" [], joins "b" [], .apply 0, .apply 0]

def overlappingRun : GroupRun :=
  (follow (GroupRun.step defaultConfig "billing") ordersRun overlappingEvents).get (by decide +kernel)

/-- Two overlapping joins leave the first member without an entry. -/
theorem overlapping_joins_lose_member :
    follow (GroupRun.step defaultConfig "billing") ordersRun overlappingEvents = some overlappingRun ∧
      (groupRuns defaultConfig "billing").Reaches System.Free overlappingRun ∧
      (overlappingRun.state.getGroupState "billing").map (fun group => (group.members.keys, group.assignments.keys)) =
        some ({"a", "b"}, {"b"}) ∧ ¬ Exclusive "billing" ["orders"] overlappingRun.state := by
  have followed : follow (GroupRun.step defaultConfig "billing") ordersRun overlappingEvents =
      some overlappingRun := (some_get _).symm
  have reached := System.Reaches.run ordersRun_start
    (by decide +kernel : permits _ System.Free _ _) followed
  have keys : (overlappingRun.state.getGroupState "billing").map
      (fun group => (group.members.keys, group.assignments.keys)) = some ({"a", "b"}, {"b"}) := by decide +kernel
  refine ⟨followed, reached, keys, ?_⟩
  intro exclusive
  obtain ⟨group, found, same⟩ := map_eq_some_iff.mp keys
  obtain ⟨members, assigned⟩ := Prod.mk.inj same
  have listed := ((exclusive group found).keys "a").mpr (by rw [members]; decide)
  rw [← mem_keys, assigned] at listed
  exact absurd listed (by decide)

end BunnyMQ.Group
