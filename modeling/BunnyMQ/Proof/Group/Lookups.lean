/-
This file shows which failed lookups of topics take partitions away from the members that stay in a group.
-/

import BunnyMQ.Proof.Group.Interleaving

namespace BunnyMQ.Group
open Foundation Metadata

/-- A lookup may miss a topic or fail, but a topic that it finds is the one of the metadata. -/
def Truthful (topics : KeyMap String TopicMeta) (getTopic : String → Except LookupError TopicMeta) : Prop :=
  ∀ topic tm, getTopic topic = .ok tm → topics.lookup topic = some tm

/-- The sweep or a leave proposes to remove the member from this group. -/
inductive ProposesLeave (getTopic : String → Except LookupError TopicMeta) (group : GroupState) (visited : List String)
    (groupID memberID : String) (cmd : LeaveConsumerGroupCmd) : Prop
  | timeout (table : HeartbeatTable) (now : Int) :
      sweepMember getTopic table now groupID memberID group visited = some cmd →
      ProposesLeave getTopic group visited groupID memberID cmd
  | voluntary : leaveCommand ⟨getTopic, fun _ => .ok (some group)⟩ visited groupID memberID = .ok cmd →
      ProposesLeave getTopic group visited groupID memberID cmd

/-- Some member of the group has subscribed to the topic. -/
def SomeoneReads (group : GroupState) (topic : String) : Prop :=
  ∃ memberID ms, group.members.lookup memberID = some ms ∧ topic ∈ ms.subscribedTopics

/-- The members that stay own every partition of the existing topics of the group. -/
def CoversTopics (topics : KeyMap String TopicMeta) (group : GroupState) (memberID : String)
    (assignment : KeyMap String (List TopicPartition)) : Prop :=
  ∀ topic tm, SomeoneReads group topic → topics.lookup topic = some tm → ∀ item : Nat,
    (item : Int) < tm.partitionCount →
    ∃ other ∈ group.members, other ≠ memberID ∧ TopicPartition.mk topic item ∈ owned assignment other

section
variable {topics : KeyMap String TopicMeta} {getTopic : String → Except LookupError TopicMeta} {group : GroupState}
  {visited : List String} {groupID memberID : String} {cmd : LeaveConsumerGroupCmd}

/-- Both paths assign the topics of the member that goes, with the counts of those that were found. -/
theorem ProposesLeave.assignment (proposes : ProposesLeave getTopic group visited groupID memberID cmd) :
    ∃ ms counts, group.members.lookup memberID = some ms ∧
      cmd.newAssignment = some (rangeAssign (visited.filter (· ≠ memberID)) ms.subscribedTopics counts) ∧
      ∀ topic, counts.lookup topic =
        (if topic ∈ ms.subscribedTopics then (getTopic topic).toOption else none).map TopicMeta.partitionCount := by
  cases proposes with
  | timeout table now proposed =>
    obtain ⟨_, _, ms, _, present, _, _, counts, carried, counted⟩ := sweepMember_some proposed
    exact ⟨ms, counts, present, carried, fun topic => by
      rw [countTopics_found counted topic, Finmap.lookup_empty, Option.or_none]⟩
  | voluntary prepared =>
    obtain ⟨_, _, _, ms, read, present, counts, carried, counted⟩ := leaveCommand_reads prepared
    cases read
    exact ⟨ms, counts, present, carried, fun topic => by
      rw [countTopics_found counted topic, Finmap.lookup_empty, Option.or_none]⟩

/-- The counts are those of the topics that were asked for and found. -/
theorem counts_some_iff (truthful : Truthful topics getTopic) {subscribed : List String} {counts : KeyMap String Int}
    (counted : ∀ topic, counts.lookup topic =
      (if topic ∈ subscribed then (getTopic topic).toOption else none).map TopicMeta.partitionCount)
    {topic : String} {count : Int} : counts.lookup topic = some count ↔
      topic ∈ subscribed ∧ ∃ tm, getTopic topic = .ok tm ∧ topics.lookup topic = some tm ∧
        tm.partitionCount = count := by
  rw [counted topic]
  by_cases asked : topic ∈ subscribed
  · rw [if_pos asked, Option.map_eq_some_iff]
    constructor
    · rintro ⟨tm, found, same⟩
      have answered := ok_of_toOption found
      exact ⟨asked, tm, answered, truthful topic tm answered, same⟩
    · rintro ⟨_, tm, answered, _, same⟩
      exact ⟨tm, by rw [answered]; rfl, same⟩
  · rw [if_neg asked]
    constructor
    · intro none
      cases none
    · rintro ⟨member, _⟩
      exact absurd member asked

/-- The members that stay own a partition of a topic exactly when the topic was asked for and found. -/
theorem remaining_own_iff (wellCounted : WellCounted topics) (truthful : Truthful topics getTopic)
    {subscribed memberIDs : List String} {counts : KeyMap String Int} (distinct : memberIDs.Nodup)
    (present : memberIDs ≠ []) (counted : ∀ topic, counts.lookup topic =
      (if topic ∈ subscribed then (getTopic topic).toOption else none).map TopicMeta.partitionCount)
    {topic : String} {tm : TopicMeta} (known : topics.lookup topic = some tm) {item : Nat}
    (below : (item : Int) < tm.partitionCount) :
    (∃ other ∈ memberIDs, TopicPartition.mk topic item ∈ owned (rangeAssign memberIDs subscribed counts) other) ↔
      topic ∈ subscribed ∧ getTopic topic = .ok tm := by
  have countable : Countable counts := by
    intro topic count stored
    obtain ⟨_, tm, _, found, rfl⟩ := (counts_some_iff truthful counted).mp stored
    exact wellCounted topic tm found
  constructor
  · rintro ⟨other, _, holds⟩
    obtain ⟨named, listed, index, place, shared⟩ := (rangeAssign_owned countable distinct other _).mp holds
    have bound : index < memberIDs.length := by
      rw [← List.length_insertionSort (· ≤ ·) memberIDs]
      exact (List.getElem?_eq_some_iff.mp place).1
    obtain ⟨number, within, same⟩ := (mem_share (countable.count named).2 bound).mp shared
    obtain ⟨rfl, _⟩ := TopicPartition.mk.inj same
    -- A share that is not empty belongs to a topic with a count.
    have positive : 0 < partitionsOf counts topic :=
      Nat.zero_lt_of_lt (within.2.trans_le (Ranges.rangeStart_le bound (Nat.zero_lt_of_lt bound)))
    cases stored : counts.lookup topic with
    | none =>
      rw [partitionsOf, stored] at positive
      cases positive
    | some count =>
      obtain ⟨asked, other, answered, found, _⟩ := (counts_some_iff truthful counted).mp stored
      cases known.symm.trans found
      exact ⟨asked, answered⟩
  · rintro ⟨asked, answered⟩
    have stored : counts.lookup topic = some tm.partitionCount :=
      (counts_some_iff truthful counted).mpr ⟨asked, tm, answered, known, rfl⟩
    have inside : item < partitionsOf counts topic := by
      rw [partitionsOf, stored]
      change item < tm.partitionCount.toNat
      omega
    obtain ⟨other, ⟨member, holds⟩, _⟩ := rangeAssign_exactlyOne countable distinct present asked inside
    exact ⟨other, member, holds⟩

end

/-- The assignment that a leave or an eviction proposes covers the existing topics of the group exactly when each of
them that has partitions is a topic of the member that goes and its lookup has found it. -/
theorem leave_covers_iff_found (topics : KeyMap String TopicMeta) (wellCounted : WellCounted topics)
    (getTopic : String → Except LookupError TopicMeta) (truthful : Truthful topics getTopic) (group : GroupState)
    (visited : List String) (enumerates : Enumerates visited group.members.keys) (groupID memberID : String)
    (cmd : LeaveConsumerGroupCmd) (proposes : ProposesLeave getTopic group visited groupID memberID cmd)
    (remains : ∃ other ∈ group.members, other ≠ memberID) :
    ∃ ms assignment, group.members.lookup memberID = some ms ∧ cmd.newAssignment = some assignment ∧
      (CoversTopics topics group memberID assignment ↔ ∀ topic tm, SomeoneReads group topic →
        topics.lookup topic = some tm → 0 < tm.partitionCount →
        topic ∈ ms.subscribedTopics ∧ getTopic topic = .ok tm) := by
  obtain ⟨ms, counts, present, carried, counted⟩ := proposes.assignment
  have distinct : (visited.filter (· ≠ memberID)).Nodup := enumerates.1.filter _
  have staying (other : String) : other ∈ visited.filter (· ≠ memberID) ↔ other ∈ group.members ∧ other ≠ memberID := by
    rw [← Finmap.mem_keys, ← enumerates.2, List.mem_toFinset, List.mem_filter, decide_eq_true_eq]
  have nonempty : visited.filter (· ≠ memberID) ≠ [] := by
    obtain ⟨other, member, different⟩ := remains
    exact List.ne_nil_of_mem ((staying other).mpr ⟨member, different⟩)
  refine ⟨ms, _, present, carried, ?_⟩
  constructor
  · intro covers topic tm subscribed known positive
    obtain ⟨other, member, different, holds⟩ := covers topic tm subscribed known 0 positive
    exact (remaining_own_iff wellCounted truthful distinct nonempty counted known positive).mp
      ⟨other, (staying other).mpr ⟨member, different⟩, holds⟩
  · intro found topic tm subscribed known item below
    have positive : 0 < tm.partitionCount := (Int.natCast_nonneg item).trans_lt below
    obtain ⟨other, listed, holds⟩ := (remaining_own_iff wellCounted truthful distinct nonempty counted known below).mpr
      (found topic tm subscribed known positive)
    obtain ⟨member, different⟩ := (staying other).mp listed
    exact ⟨other, member, different, holds⟩

/-- Two members read the topic. -/
def pairGroup : GroupState where
  groupID := "billing"
  members := ((∅ : KeyMap String MemberState).insert "a" ⟨"a", ["orders"], 5000, 1000, 0⟩).insert "b"
    ⟨"b", ["orders"], 5000, 1000, 0⟩
  generationID := 2
  assignments := rangeAssign ["a", "b"] ["orders"] (Finmap.singleton "orders" 2)
  offsets := ∅

theorem leave_covers_iff_found_of_pair :
    ∃ cmd, leaveCommand ⟨ordersState.getTopic, fun _ => .ok (some pairGroup)⟩ ["b", "a"] "billing" "a" = .ok cmd ∧
      ∃ ms assignment, pairGroup.members.lookup "a" = some ms ∧ cmd.newAssignment = some assignment ∧
        (CoversTopics ordersState.topics pairGroup "a" assignment ↔ ∀ topic tm, SomeoneReads pairGroup topic →
          ordersState.topics.lookup topic = some tm → 0 < tm.partitionCount →
          topic ∈ ms.subscribedTopics ∧ ordersState.getTopic topic = .ok tm) ∧
        owned assignment "b" = [⟨"orders", 0⟩, ⟨"orders", 1⟩] := by
  have prepared : leaveCommand ⟨ordersState.getTopic, fun _ => .ok (some pairGroup)⟩ ["b", "a"] "billing" "a" =
      .ok ⟨"billing", "a", "voluntary", some (rangeAssign ["b"] ["orders"] (Finmap.singleton "orders" 2))⟩ := by
    decide +kernel
  have truthful : Truthful ordersState.topics ordersState.getTopic := fun topic tm answered => by
    rw [← getTopic_toOption, answered]
    rfl
  obtain ⟨ms, assignment, present, carried, covers⟩ := leave_covers_iff_found ordersState.topics ordersState_wellCounted
    ordersState.getTopic truthful pairGroup ["b", "a"] (by decide +kernel) "billing" "a" _ (.voluntary prepared)
    ⟨"b", Finmap.mem_keys.mp (by decide +kernel), by decide⟩
  cases carried
  exact ⟨_, prepared, ms, _, present, rfl, covers, by decide +kernel⟩

/-- The member is evicted while the lookup of the topic fails, and nobody owns its partitions any more. A leave that
misses the topic does the same. -/
theorem failed_lookup_unassigns :
    (∃ cmd assignment, sweepMember (fun _ => .error (.failed "timeout")) ((∅ : HeartbeatTable).record "billing" "a" 0)
      5001 "billing" "a" pairGroup ["a", "b"] = some cmd ∧ cmd.newAssignment = some assignment ∧
        (∀ memberID, owned assignment memberID = []) ∧ ¬ CoversTopics ordersState.topics pairGroup "a" assignment) ∧
      ∃ cmd assignment, leaveCommand ⟨fun _ => .error .notFound, fun _ => .ok (some pairGroup)⟩
        ["a", "b"] "billing" "a" =
        .ok cmd ∧ cmd.newAssignment = some assignment ∧ ¬ CoversTopics ordersState.topics pairGroup "a" assignment := by
  have nothing : ∀ memberID, owned (rangeAssign ["b"] ["orders"] ∅) memberID = [] := by
    intro memberID
    have only : rangeAssign ["b"] ["orders"] ∅ = (∅ : KeyMap String (List TopicPartition)).insert "b" [] := by
      decide +kernel
    rw [only]
    by_cases same : memberID = "b"
    · rw [same, owned_insert_self]
    · rw [owned_insert_of_ne same]
      rfl
  have uncovered : ¬ CoversTopics ordersState.topics pairGroup "a" (rangeAssign ["b"] ["orders"] ∅) := by
    intro covers
    obtain ⟨other, _, _, holds⟩ := covers "orders" ⟨"orders", 2, 1, 0, 0, 0⟩
      ⟨"a", ⟨"a", ["orders"], 5000, 1000, 0⟩, by decide +kernel, List.mem_singleton_self _⟩ (by decide +kernel) 0
        (by decide)
    rw [nothing other] at holds
    exact absurd holds List.not_mem_nil
  exact ⟨⟨⟨"billing", "a", "timeout", some (rangeAssign ["b"] ["orders"] ∅)⟩, _, by decide +kernel, rfl, nothing,
    uncovered⟩,
    ⟨"billing", "a", "voluntary", some (rangeAssign ["b"] ["orders"] ∅)⟩, _, by decide +kernel, rfl, uncovered⟩

end BunnyMQ.Group
