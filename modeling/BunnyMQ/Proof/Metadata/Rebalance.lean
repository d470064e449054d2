/-
This file shows that the metadata cut the partitions of a group into even blocks, whatever the order of the loops and
of the joins.
-/

import BunnyMQ.Library.Ranges
import BunnyMQ.Proof.Metadata.Structure

namespace BunnyMQ.Metadata
open Foundation Ranges MetadataState KeyMap Finmap
variable {memberID : String} {other : ConsumerGroupMeta}

/-- A rebalance whose three loops visit the members and the partitions in orders of their own. -/
def rebalanceVisiting (subscribers memberOrder : List String) (partitionOrder : List PartitionKey)
    (group : ConsumerGroupMeta) (topics : KeyMap String TopicMeta) : ConsumerGroupMeta :=
  letI := PartitionKey.order
  let subscribed := subscribers.flatMap fun memberID =>
    ((group.members.lookup memberID).map MemberInfo.subscribedTopics).getD []
  let collected := partitionOrder.filter fun key => subscribed.contains key.topic && (topics.lookup key.topic).isSome
  let eligible := collected.insertionSort (· ≤ ·)
  let memberIDs := memberOrder.insertionSort (· ≤ ·)
  { group with
    members := memberIDs.zipIdx.foldl (fun members entry =>
      match members.lookup entry.1 with
      | none => members
      | some member =>
        let lo := entry.2 * eligible.length / memberIDs.length
        let hi := (entry.2 + 1) * eligible.length / memberIDs.length
        members.insert entry.1 { member with assignedPartitions := (eligible.take hi).drop lo }) group.members }

/-- The partition exists, its topic exists, and some member has subscribed to it. -/
def Eligible (topics : KeyMap String TopicMeta) (partitions : KeyMap PartitionKey PartitionMeta)
    (group : ConsumerGroupMeta) (key : PartitionKey) : Prop :=
  key ∈ partitions ∧ (topics.lookup key.topic).isSome ∧
    ∃ memberID member, group.members.lookup memberID = some member ∧ key.topic ∈ member.subscribedTopics

/-- The partitions of a member, none for a stranger. -/
def ConsumerGroupMeta.assigned (group : ConsumerGroupMeta) (memberID : String) : List PartitionKey :=
  ((group.members.lookup memberID).map MemberInfo.assignedPartitions).getD []

/-- Partitions are compared by topic and then by number. -/
def Precedes (first second : PartitionKey) : Prop :=
  first.topic < second.topic ∨ first.topic = second.topic ∧ first.partitionID < second.partitionID

/-- Each eligible partition belongs to one member. The lists of the members, one behind the other in the order of
the members, are the sorted eligible partitions, and no two lengths differ by more than one. -/
structure Balanced (topics : KeyMap String TopicMeta) (partitions : KeyMap PartitionKey PartitionMeta)
    (group : ConsumerGroupMeta) : Prop where
  once : ∀ key, Eligible topics partitions group key → ∃! memberID, key ∈ group.assigned memberID
  blocks : ∃ eligible : List PartitionKey, eligible.Pairwise Precedes ∧
    (∀ key, key ∈ eligible ↔ Eligible topics partitions group key) ∧
    group.members.sortedKeys.flatMap group.assigned = eligible
  sizes : ∀ first ∈ group.members, ∀ second ∈ group.members,
    (group.assigned first).length ≤ (group.assigned second).length + 1

section
variable {group : ConsumerGroupMeta} {topics : KeyMap String TopicMeta} {partitions : KeyMap PartitionKey PartitionMeta}

theorem precedes_iff {first second : PartitionKey} : Precedes first second ↔ PartitionKey.order.lt first second := by
  change _ ↔ toLex (first.topic, first.partitionID) < toLex (second.topic, second.partitionID)
  rw [Prod.Lex.toLex_lt_toLex]
  rfl

/-- The sorted list of the eligible partitions. -/
def eligibleKeys (group : ConsumerGroupMeta) (topics : KeyMap String TopicMeta)
    (partitions : KeyMap PartitionKey PartitionMeta) : List PartitionKey :=
  letI := PartitionKey.order
  (collectEligiblePartitions partitions.sortedKeys group.members topics).insertionSort (· ≤ ·)

theorem mem_eligibleKeys {key : PartitionKey} :
    key ∈ eligibleKeys group topics partitions ↔ Eligible topics partitions group key := by
  have visited : key ∈ @KeyMap.sortedKeys _ _ PartitionKey.order partitions ↔ key ∈ partitions :=
    @KeyMap.mem_sortedKeys _ _ PartitionKey.order _ _
  have subscribed : key.topic ∈ (group.members.sortedKeys.flatMap fun memberID =>
      ((group.members.lookup memberID).map MemberInfo.subscribedTopics).getD []) ↔
      ∃ memberID member, group.members.lookup memberID = some member ∧ key.topic ∈ member.subscribedTopics := by
    rw [List.mem_flatMap]
    constructor
    · rintro ⟨memberID, _, listed⟩
      cases found : group.members.lookup memberID with
      | none => simp [found] at listed
      | some member => exact ⟨memberID, member, found, by simpa [found] using listed⟩
    · rintro ⟨memberID, member, found, listed⟩
      refine ⟨memberID, mem_sortedKeys.mpr (mem_of_lookup_eq_some found), ?_⟩
      simpa [found] using listed
  unfold eligibleKeys collectEligiblePartitions
  rw [List.mem_insertionSort, List.mem_filter, visited, Bool.and_eq_true, List.contains_iff_mem, subscribed, Eligible]
  exact and_congr_right fun _ => And.comm

theorem eligibleKeys_nodup : (eligibleKeys group topics partitions).Nodup := by
  let := PartitionKey.order
  have distinct : (collectEligiblePartitions partitions.sortedKeys group.members topics).Nodup :=
    (sortedKeys_nodup partitions).filter _
  exact (List.perm_insertionSort _ _).nodup_iff.mpr distinct

theorem eligibleKeys_sorted : (eligibleKeys group topics partitions).Pairwise Precedes := by
  let := PartitionKey.order
  have ordered : (eligibleKeys group topics partitions).Pairwise (· ≤ ·) := List.pairwise_insertionSort _ _
  refine (ordered.and eligibleKeys_nodup).imp fun {first second} both => precedes_iff.mpr ?_
  exact lt_of_le_of_ne both.1 both.2

/-- The loop that hands out the blocks leaves the others alone. -/
theorem handOut_of_notMem (change : Nat → MemberInfo → MemberInfo) {memberIDs : List String}
    (absent : memberID ∉ memberIDs) (start : Nat) (members : KeyMap String MemberInfo) :
    ((memberIDs.zipIdx start).foldl (fun members entry =>
      match members.lookup entry.1 with
      | none => members
      | some member => members.insert entry.1 (change entry.2 member)) members).lookup memberID =
      members.lookup memberID := by
  induction memberIDs generalizing start members with
  | nil => rfl
  | cons first rest ih =>
    obtain ⟨here, later⟩ := not_or.mp (List.mem_cons.not.mp absent)
    rw [List.zipIdx_cons, List.foldl_cons, ih later]
    split
    · rfl
    · exact lookup_insert_of_ne _ here

/-- The loop that hands out the blocks gives each member the block of its place. -/
theorem handOut_of_getElem (change : Nat → MemberInfo → MemberInfo) {memberIDs : List String}
    (distinct : memberIDs.Nodup) {place : Nat} (here : memberIDs[place]? = some memberID) (start : Nat)
    (members : KeyMap String MemberInfo) :
    ((memberIDs.zipIdx start).foldl (fun members entry =>
      match members.lookup entry.1 with
      | none => members
      | some member => members.insert entry.1 (change entry.2 member)) members).lookup memberID =
      (members.lookup memberID).map (change (start + place)) := by
  induction memberIDs generalizing start members place with
  | nil => simp at here
  | cons first rest ih =>
    obtain ⟨fresh, unique⟩ := List.nodup_cons.mp distinct
    rw [List.zipIdx_cons, List.foldl_cons]
    cases place with
    | zero =>
      obtain rfl : first = memberID := by simpa using here
      rw [handOut_of_notMem change fresh]
      cases found : members.lookup first with
      | none => exact found
      | some member => exact lookup_insert _
    | succ place =>
      have inside : rest[place]? = some memberID := by simpa using here
      have other : memberID ≠ first := fun same => fresh (same ▸ List.mem_of_getElem? inside)
      rw [ih unique inside, Nat.add_right_comm, Nat.add_assoc]
      congr 1
      split
      · rfl
      · exact lookup_insert_of_ne _ other

theorem sortedKeys_insertionSort (members : KeyMap String MemberInfo) :
    members.sortedKeys.insertionSort (· ≤ ·) = members.sortedKeys := by
  rw [sortedKeys, increasing]
  induction members.keys.val using Quotient.inductionOn with
  | h keys => exact insertionSort_perm (List.perm_insertionSort _ keys)

/-- A member gets the block of its place among the sorted members. -/
theorem rebalance_lookup {place : Nat} (here : group.members.sortedKeys[place]? = some memberID) :
    (rebalance group topics partitions).members.lookup memberID =
      (group.members.lookup memberID).map fun member => { member with
        assignedPartitions := piece (eligibleKeys group topics partitions) group.members.sortedKeys.length place } := by
  unfold rebalance rebalanceInOrder
  dsimp only
  rw [sortedKeys_insertionSort]
  have handed := handOut_of_getElem (fun index member => { member with
    assignedPartitions := piece (eligibleKeys group topics partitions) group.members.sortedKeys.length index })
    (sortedKeys_nodup _) here 0 group.members
  rw [Nat.zero_add] at handed
  exact handed

theorem rebalance_lookup_of_notMem (absent : memberID ∉ group.members) :
    (rebalance group topics partitions).members.lookup memberID = none := by
  have unlisted : memberID ∉ group.members.sortedKeys := fun listed => absent (mem_sortedKeys.mp listed)
  unfold rebalance rebalanceInOrder
  dsimp only
  rw [sortedKeys_insertionSort]
  exact (handOut_of_notMem (fun index member => { member with
    assignedPartitions := piece (eligibleKeys group topics partitions) group.members.sortedKeys.length index })
    unlisted 0 group.members).trans (lookup_eq_none.mpr absent)

/-- What a rebalance does not decide about a member. -/
def ConsumerGroupMeta.roster (group : ConsumerGroupMeta) (memberID : String) : Option MemberInfo :=
  (group.members.lookup memberID).map fun member => { member with assignedPartitions := [] }

theorem mem_iff_roster : memberID ∈ group.members ↔ (group.roster memberID).isSome := by
  rw [ConsumerGroupMeta.roster, Option.isSome_map, lookup_isSome]

theorem rebalance_roster : (rebalance group topics partitions).roster = group.roster := by
  funext memberID
  unfold ConsumerGroupMeta.roster
  by_cases member : memberID ∈ group.members
  · obtain ⟨place, here⟩ := List.mem_iff_getElem?.mp (mem_sortedKeys.mpr member)
    rw [rebalance_lookup here, Option.map_map]
    rfl
  · rw [rebalance_lookup_of_notMem member, lookup_eq_none.mpr member]

section
variable (same : group.roster = other.roster)
include same

theorem sortedKeys_of_roster : group.members.sortedKeys = other.members.sortedKeys := by
  have keys : group.members.keys = other.members.keys := by
    ext memberID
    rw [mem_keys, mem_keys, mem_iff_roster, mem_iff_roster, same]
  rw [sortedKeys, sortedKeys, keys]

theorem subscribed_of_roster (memberID : String) :
    (group.members.lookup memberID).map MemberInfo.subscribedTopics =
      (other.members.lookup memberID).map MemberInfo.subscribedTopics := by
  have equal := congrArg (Option.map MemberInfo.subscribedTopics) (congrFun same memberID)
  unfold ConsumerGroupMeta.roster at equal
  rw [Option.map_map, Option.map_map] at equal
  exact equal

theorem eligibleKeys_of_roster : eligibleKeys group topics partitions = eligibleKeys other topics partitions := by
  unfold eligibleKeys collectEligiblePartitions
  simp only [sortedKeys_of_roster same, subscribed_of_roster same]

/-- The blocks depend on who the members are and not on the blocks that they had. -/
theorem rebalance_members_of_roster :
    (rebalance group topics partitions).members = (rebalance other topics partitions).members := by
  apply ext_lookup
  intro memberID
  by_cases member : memberID ∈ group.members
  · obtain ⟨place, here⟩ := List.mem_iff_getElem?.mp (mem_sortedKeys.mpr member)
    have there := here
    rw [sortedKeys_of_roster same] at there
    have unassigned := congrFun same memberID
    unfold ConsumerGroupMeta.roster at unassigned
    rw [rebalance_lookup here, rebalance_lookup there, eligibleKeys_of_roster same, sortedKeys_of_roster same]
    -- The stored members agree once their old blocks are forgotten, and the new blocks replace these.
    have restored := congrArg (Option.map fun member : MemberInfo => { member with
      assignedPartitions := piece (eligibleKeys other topics partitions) other.members.sortedKeys.length place })
        unassigned
    rw [Option.map_map, Option.map_map] at restored
    exact restored
  · have absent : memberID ∉ other.members := by
      rw [mem_iff_roster, ← same, ← mem_iff_roster]
      exact member
    rw [rebalance_lookup_of_notMem member, rebalance_lookup_of_notMem absent]

end

theorem rebalance_assigned {place : Nat} (here : group.members.sortedKeys[place]? = some memberID) :
    (rebalance group topics partitions).assigned memberID =
      piece (eligibleKeys group topics partitions) group.members.sortedKeys.length place := by
  have member : memberID ∈ group.members := mem_sortedKeys.mp (List.mem_of_getElem? here)
  obtain ⟨info, found⟩ := mem_iff.mp member
  rw [ConsumerGroupMeta.assigned, rebalance_lookup here, found]
  rfl

theorem eligible_rebalance {key : PartitionKey} :
    Eligible topics partitions (rebalance group topics partitions) key ↔ Eligible topics partitions group key := by
  have same : (rebalance group topics partitions).roster = group.roster := rebalance_roster
  rw [← mem_eligibleKeys, ← mem_eligibleKeys, eligibleKeys_of_roster same]

/-- The lists of the members one behind the other are the sorted eligible partitions. -/
theorem rebalance_blocks (nonempty : group.members.sortedKeys ≠ []) :
    group.members.sortedKeys.flatMap (rebalance group topics partitions).assigned =
      eligibleKeys group topics partitions := by
  have positive : 0 < group.members.sortedKeys.length := List.length_pos_of_ne_nil nonempty
  have handed : group.members.sortedKeys.map (rebalance group topics partitions).assigned =
      (List.range group.members.sortedKeys.length).map
        (piece (eligibleKeys group topics partitions) group.members.sortedKeys.length) := by
    apply List.ext_getElem
    · simp
    intro place left right
    rw [List.getElem_map, List.getElem_map, List.getElem_range]
    exact rebalance_assigned (List.getElem?_eq_getElem (by simpa using left))
  rw [List.flatMap_def, handed, ← List.flatMap_def, flatMap_piece _ positive]

/-- A rebalance deals the eligible partitions out in blocks. -/
theorem rebalance_balanced (nonempty : group.members.sortedKeys ≠ []) :
    Balanced topics partitions (rebalance group topics partitions) := by
  have same : (rebalance group topics partitions).roster = group.roster := rebalance_roster
  have members : (rebalance group topics partitions).members.sortedKeys = group.members.sortedKeys :=
    sortedKeys_of_roster same
  have blocks := @rebalance_blocks group topics partitions nonempty
  have sorted := @eligibleKeys_sorted group topics partitions
  have distinct := @eligibleKeys_nodup group topics partitions
  refine ⟨fun key eligible => ?_, ⟨_, sorted, fun key => ?_, ?_⟩, fun first one second two => ?_⟩
  · have listed := mem_eligibleKeys.mpr (eligible_rebalance.mp eligible)
    rw [← blocks] at distinct listed
    obtain ⟨memberID, _, here, unique⟩ := Selection.exists_unique_part distinct listed
    refine ⟨memberID, here, fun other there => unique other ?_ there⟩
    -- A stranger has no partitions.
    by_contra stranger
    have absent : other ∉ group.members := fun member => stranger (mem_sortedKeys.mpr member)
    change key ∈ (rebalance group topics partitions).assigned other at there
    rw [ConsumerGroupMeta.assigned, rebalance_lookup_of_notMem absent] at there
    exact absurd there List.not_mem_nil
  · rw [mem_eligibleKeys, eligible_rebalance]
  · rw [members, blocks]
  · rw [← mem_sortedKeys, members] at one two
    obtain ⟨left, here⟩ := List.mem_iff_getElem?.mp one
    obtain ⟨right, there⟩ := List.mem_iff_getElem?.mp two
    rw [rebalance_assigned here, rebalance_assigned there]
    exact piece_length_le _ (List.getElem?_eq_some_iff.mp here).1 (List.getElem?_eq_some_iff.mp there).1

/-- The orders of the loops do not matter. -/
theorem rebalanceVisiting_eq {subscribers memberOrder : List String} {partitionOrder : List PartitionKey}
    (subscribing : subscribers.Perm group.members.sortedKeys) (sorting : memberOrder.Perm group.members.sortedKeys)
    (collecting : partitionOrder.Perm (@KeyMap.sortedKeys _ _ PartitionKey.order partitions)) :
    rebalanceVisiting subscribers memberOrder partitionOrder group topics = rebalance group topics partitions := by
  let := PartitionKey.order
  have subscribed (topic : String) : (subscribers.flatMap fun memberID =>
      ((group.members.lookup memberID).map MemberInfo.subscribedTopics).getD []).contains topic =
      (group.members.sortedKeys.flatMap fun memberID =>
        ((group.members.lookup memberID).map MemberInfo.subscribedTopics).getD []).contains topic := by
    rw [Bool.eq_iff_iff, List.contains_iff_mem, List.contains_iff_mem]
    exact (subscribing.flatMap_right _).mem_iff
  unfold rebalanceVisiting rebalance rebalanceInOrder collectEligiblePartitions
  simp only [subscribed]
  rw [insertionSort_perm sorting]
  exact insertionSort_perm (collecting.filter _) ▸ rfl

end

/-- The member joins under its own name or under one that is made for it. -/
def JoinConsumerGroupCmd.resolvedID (cmd : JoinConsumerGroupCmd) : String :=
  if cmd.memberID = "" then s!"member-{cmd.clientHost}-{cmd.joinedAtMs}" else cmd.memberID

def JoinConsumerGroupCmd.enrolled (cmd : JoinConsumerGroupCmd) : MemberInfo :=
  ⟨cmd.resolvedID, cmd.clientHost, cmd.subscribedTopics, [], cmd.joinedAtMs⟩

def joinGroup (topics : KeyMap String TopicMeta) (partitions : KeyMap PartitionKey PartitionMeta)
    (group : ConsumerGroupMeta) (cmd : JoinConsumerGroupCmd) : ConsumerGroupMeta :=
  let rebalanced := rebalance { group with members := group.members.insert cmd.resolvedID cmd.enrolled } topics
    partitions
  { rebalanced with generationID := int32 (rebalanced.generationID + 1) }

/-- The group of this name, or a new one. -/
def MetadataState.groupOrNew (state : MetadataState) (groupID : String) : ConsumerGroupMeta :=
  (state.groups.lookup groupID).getD ⟨groupID, 0, ∅, ∅⟩

section
variable {state : MetadataState} {topics : KeyMap String TopicMeta} {partitions : KeyMap PartitionKey PartitionMeta}
  {group : ConsumerGroupMeta}

theorem update_join {cmd : JoinConsumerGroupCmd} (alone : cmd.member = none) :
    (state.update (.joinConsumerGroup cmd)).1 = { state with
      groups := state.groups.insert cmd.groupID
        (joinGroup state.topics state.partitions (state.groupOrNew cmd.groupID) cmd) } := by
  simp only [update, MetadataCommand.roundTrip, applyCommand,
    applyJoinConsumerGroup, alone]
  rfl

/-- The joins of one group one after the other build up this group and leave everything else alone. -/
theorem updateAll_joins {groupID : String} {first : JoinConsumerGroupCmd} {rest : List JoinConsumerGroupCmd}
    (alone : ∀ cmd ∈ first :: rest, cmd.member = none ∧ cmd.groupID = groupID) :
    state.updateAll ((first :: rest).map .joinConsumerGroup) = { state with
      groups := state.groups.insert groupID
        ((first :: rest).foldl (joinGroup state.topics state.partitions) (state.groupOrNew groupID)) } := by
  induction rest generalizing state first with
  | nil =>
    obtain ⟨joins, rfl⟩ := alone first List.mem_cons_self
    exact update_join joins
  | cons second rest ih =>
    obtain ⟨joins, rfl⟩ := alone first List.mem_cons_self
    change (state.update (.joinConsumerGroup first)).1.updateAll ((second :: rest).map .joinConsumerGroup) = _
    rw [ih fun cmd member => alone cmd (List.mem_cons_of_mem _ member), update_join joins]
    simp only [MetadataState.groupOrNew, lookup_insert, Option.getD_some, insert_insert]
    rfl

theorem joinGroup_roster (cmd : JoinConsumerGroupCmd) :
    (joinGroup topics partitions group cmd).roster =
      Function.update group.roster cmd.resolvedID (some cmd.enrolled) := by
  change (rebalance _ topics partitions).roster = _
  rw [rebalance_roster]
  funext memberID
  unfold ConsumerGroupMeta.roster
  by_cases same : memberID = cmd.resolvedID
  · subst same
    rw [lookup_insert, Function.update_self]
    rfl
  · rw [lookup_insert_of_ne _ same, Function.update_of_ne same]

theorem foldl_joinGroup_roster (joins : List JoinConsumerGroupCmd) :
    (joins.foldl (joinGroup topics partitions) group).roster =
      joins.foldl (fun (roster : String → Option MemberInfo) cmd =>
        Function.update roster cmd.resolvedID (some cmd.enrolled)) group.roster := by
  induction joins generalizing group with
  | nil => rfl
  | cons cmd rest ih => rw [List.foldl_cons, List.foldl_cons, ih, joinGroup_roster]

/-- The joins change neither the name nor the offsets of the group, and each of them counts a generation. -/
theorem foldl_joinGroup_frame (joins : List JoinConsumerGroupCmd) :
    joins.foldl (joinGroup topics partitions) group = { group with
      members := (joins.foldl (joinGroup topics partitions) group).members
      generationID := joins.foldl (fun generation _ => int32 (generation + 1)) group.generationID } := by
  induction joins generalizing group with
  | nil => rfl
  | cons cmd rest ih =>
    rw [List.foldl_cons, List.foldl_cons, ih]
    rfl

/-- A rebalance behind the joins changes nothing. -/
theorem foldl_joinGroup_settled {joins : List JoinConsumerGroupCmd} (nonempty : joins ≠ []) :
    (rebalance (joins.foldl (joinGroup topics partitions) group) topics partitions).members =
      (joins.foldl (joinGroup topics partitions) group).members := by
  obtain ⟨before, last, rfl⟩ := (List.eq_nil_or_concat' joins).resolve_left nonempty
  rw [List.foldl_append, List.foldl_cons, List.foldl_nil]
  exact rebalance_members_of_roster (by exact rebalance_roster)

/-- The same distinct members make the same group in whatever order they join. -/
theorem foldl_joinGroup_perm {joins other : List JoinConsumerGroupCmd} (same : joins.Perm other) (nonempty : joins ≠ [])
    (distinct : (joins.map JoinConsumerGroupCmd.resolvedID).Nodup) :
    joins.foldl (joinGroup topics partitions) group = other.foldl (joinGroup topics partitions) group := by
  have rosters : (joins.foldl (joinGroup topics partitions) group).roster =
      (other.foldl (joinGroup topics partitions) group).roster := by
    rw [foldl_joinGroup_roster, foldl_joinGroup_roster]
    refine same.foldl_eq' (fun first left second right roster => ?_) _
    by_cases equal : first = second
    · rw [equal]
    · exact Function.update_comm (fun ids => equal (List.inj_on_of_nodup_map distinct left right ids)) _ _ _
  have generations : joins.foldl (fun generation _ => int32 (generation + 1)) group.generationID =
      other.foldl (fun generation _ => int32 (generation + 1)) group.generationID :=
    same.foldl_eq' (fun _ _ _ _ _ => rfl) _
  have members : (joins.foldl (joinGroup topics partitions) group).members =
      (other.foldl (joinGroup topics partitions) group).members := by
    rw [← foldl_joinGroup_settled nonempty,
      ← foldl_joinGroup_settled fun empty => nonempty (by simpa [empty] using same),
      rebalance_members_of_roster rosters]
  rw [foldl_joinGroup_frame joins, foldl_joinGroup_frame other, members, generations]

/-- The group is stored, and it is balanced unless it has no members. -/
def BalancedIn (state : MetadataState) (groupID : String) : Prop :=
  ∃ group, state.groups.lookup groupID = some group ∧
    (group.members.keys ≠ ∅ → Balanced state.topics state.partitions group)

/-- A group that was rebalanced before it was stored is balanced. -/
theorem balancedIn_of_rebalance (groupID : String) (generationID : Int) :
    BalancedIn { state with
      groups := state.groups.insert groupID
        { rebalance group state.topics state.partitions with generationID := generationID } } groupID := by
  refine ⟨_, lookup_insert _, fun nonempty => ?_⟩
  have listed : group.members.sortedKeys ≠ [] := by
    intro empty
    have same : (rebalance group state.topics state.partitions).members.sortedKeys = group.members.sortedKeys :=
      sortedKeys_of_roster rebalance_roster
    apply nonempty
    refine Finset.eq_empty_of_forall_notMem fun memberID member => ?_
    have inside := mem_sortedKeys.mpr (mem_keys.mp member)
    change memberID ∈ (rebalance group state.topics state.partitions).members.sortedKeys at inside
    rw [same, empty] at inside
    exact absurd inside List.not_mem_nil
  obtain ⟨once, blocks, sizes⟩ := @rebalance_balanced group state.topics state.partitions listed
  exact ⟨once, blocks, sizes⟩

theorem leave_balanced {cmd : LeaveConsumerGroupCmd} (older : state.groupStates.lookup cmd.groupID = none)
    (accepted : (state.update (.leaveConsumerGroup cmd)).2 = okResult) :
    BalancedIn (state.update (.leaveConsumerGroup cmd)).1 cmd.groupID := by
  simp only [update, MetadataCommand.roundTrip, applyCommand,
    applyLeaveConsumerGroup, older] at accepted ⊢
  cases found : state.groups.lookup cmd.groupID with
  | none =>
    rw [found] at accepted
    cases accepted
  | some group =>
    rw [found] at accepted
    dsimp only at accepted ⊢
    by_cases stranger : (group.members.lookup cmd.memberID).isNone
    · rw [if_pos stranger] at accepted
      cases accepted
    · rw [if_neg stranger]
      exact balancedIn_of_rebalance _ _

theorem rebalance_command_balanced {cmd : RebalanceConsumerGroupCmd}
    (accepted : (state.update (.rebalanceConsumerGroup cmd)).2 = okResult) :
    BalancedIn (state.update (.rebalanceConsumerGroup cmd)).1 cmd.groupID := by
  simp only [update, MetadataCommand.roundTrip, applyCommand,
    applyRebalanceConsumerGroup] at accepted ⊢
  cases found : state.groups.lookup cmd.groupID with
  | none =>
    rw [found] at accepted
    cases accepted
  | some group => exact balancedIn_of_rebalance _ _

end

/-- Every command that makes the metadata rebalance a group leaves it balanced. The rebalance does not depend on the
order in which its loops visit the maps, and the state behind the joins of distinct members does not depend on the
order of the joins. -/
theorem metadata_rebalance_safe (state : MetadataState) :
    (∀ cmd : JoinConsumerGroupCmd, cmd.member = none →
      BalancedIn (state.update (.joinConsumerGroup cmd)).1 cmd.groupID) ∧
    (∀ cmd : LeaveConsumerGroupCmd, state.groupStates.lookup cmd.groupID = none →
      (state.update (.leaveConsumerGroup cmd)).2 = okResult →
      BalancedIn (state.update (.leaveConsumerGroup cmd)).1 cmd.groupID) ∧
    (∀ cmd : RebalanceConsumerGroupCmd, (state.update (.rebalanceConsumerGroup cmd)).2 = okResult →
      BalancedIn (state.update (.rebalanceConsumerGroup cmd)).1 cmd.groupID) ∧
    (∀ (group : ConsumerGroupMeta) (subscribers memberOrder : List String) (partitionOrder : List PartitionKey),
      subscribers.Perm group.members.sortedKeys → memberOrder.Perm group.members.sortedKeys →
      partitionOrder.Perm (@KeyMap.sortedKeys _ _ PartitionKey.order state.partitions) →
      rebalanceVisiting subscribers memberOrder partitionOrder group state.topics =
        rebalance group state.topics state.partitions) ∧
    ∀ (groupID : String) (joins other : List JoinConsumerGroupCmd), joins.Perm other →
      (∀ cmd ∈ joins, cmd.member = none ∧ cmd.groupID = groupID) →
      (joins.map JoinConsumerGroupCmd.resolvedID).Nodup →
      state.updateAll (joins.map .joinConsumerGroup) = state.updateAll (other.map .joinConsumerGroup) := by
  refine ⟨fun cmd alone => ?_, fun cmd => leave_balanced, fun cmd => rebalance_command_balanced,
    fun group subscribers memberOrder partitionOrder => rebalanceVisiting_eq, ?_⟩
  · rw [update_join alone]
    exact balancedIn_of_rebalance _ _
  · intro groupID joins other same alone distinct
    cases joins with
    | nil => rw [List.nil_perm.mp same]
    | cons first rest =>
      cases other with
      | nil => exact absurd same (by simp)
      | cons second others =>
        have also : ∀ cmd ∈ second :: others, cmd.member = none ∧ cmd.groupID = groupID :=
          fun cmd member => alone cmd (same.mem_iff.mpr member)
        rw [updateAll_joins alone, updateAll_joins also, foldl_joinGroup_perm same (List.cons_ne_nil _ _) distinct]

/-- Two members without a name and one with a name join a group that reads a topic of four partitions. -/
def ordersJoins : List JoinConsumerGroupCmd :=
  [⟨"billing", "", "one", ["orders"], 1, none, none⟩, ⟨"billing", "m", "two", ["orders", "gone"], 2, none, none⟩,
    ⟨"billing", "", "three", [], 3, none, none⟩]

/-- A topic of four partitions and a group of three members. -/
def joinedState : MetadataState :=
  (MetadataState.initial.update (.createTopic ⟨"orders", 4, 1, 0, 0, 0, [[1], [2], [1], [2]]⟩)).1.updateAll
    (ordersJoins.map .joinConsumerGroup)

theorem metadata_rebalance_safe_of_orders :
    BalancedIn (joinedState.update (.joinConsumerGroup ⟨"billing", "z", "four", ["orders"], 4, none, none⟩)).1
      "billing" ∧
      BalancedIn (joinedState.update (.leaveConsumerGroup ⟨"billing", "m", "", none⟩)).1 "billing" ∧
      BalancedIn (joinedState.update (.rebalanceConsumerGroup ⟨"billing", ["member-one-1"], 5⟩)).1 "billing" ∧
      ((joinedState.update (.leaveConsumerGroup ⟨"billing", "m", "", none⟩)).1.groups.lookup "billing").map
        (fun group => group.members.sortedKeys.map fun memberID => (memberID, group.assigned memberID)) =
        some [("member-one-1", [⟨"orders", 0⟩, ⟨"orders", 1⟩]), ("member-three-3", [⟨"orders", 2⟩, ⟨"orders", 3⟩])] ∧
      MetadataState.initial.updateAll (ordersJoins.map .joinConsumerGroup) =
        MetadataState.initial.updateAll (ordersJoins.reverse.map .joinConsumerGroup) := by
  obtain ⟨joined, left, rebalanced, _⟩ := metadata_rebalance_safe joinedState
  obtain ⟨_, _, _, _, reordered⟩ := metadata_rebalance_safe MetadataState.initial
  exact ⟨joined _ rfl, left _ (by decide +kernel) (by decide +kernel), rebalanced _ (by decide +kernel),
    by decide +kernel, reordered "billing" _ _ (List.reverse_perm _).symm (by decide +kernel) (by decide +kernel)⟩

end BunnyMQ.Metadata
