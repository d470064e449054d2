/-
This file shows that both copies of the range assignment compute the same balanced partition.
-/

import BunnyMQ.Construction.Cluster.Assignment
import BunnyMQ.Proof.Group.RangeAssign

namespace BunnyMQ.Cluster
open Foundation Metadata Ranges BunnyMQ.Group Finmap List

section
variable {topic memberID : String} {result : KeyMap String (List TopicPartition)}

/-- The innermost loop appends its partitions to those that the member has. -/
theorem assignPartitions_eq (member : memberID ∈ result) (cursor : Int) (places : List Nat) :
    places.foldl (fun result (p : Nat) => assignPartition topic memberID result (cursor + p)) result =
      result.insert memberID ((result.lookup memberID).getD [] ++
        places.map fun (p : Nat) => TopicPartition.mk topic (int32 (cursor + p))) := by
  induction places generalizing result with
  | nil =>
    obtain ⟨stored, found⟩ := mem_iff.mp member
    rw [foldl_nil, map_nil, append_nil, found, Option.getD_some, KeyMap.insert_of_lookup found]
  | cons place places ih =>
    have kept : memberID ∈ assignPartition topic memberID result (cursor + place) :=
      mem_insert.mpr (.inl rfl)
    rw [foldl_cons, ih kept, assignPartition, lookup_insert, insert_insert, Option.getD_some,
      append_assoc, map_cons, singleton_append]

/-- The loop over the members carries the cursor of the recursion. -/
theorem assignMembers_eq {base remainder : Int} {rest : List String} (members : ∀ memberID ∈ rest, memberID ∈ result)
    (index : Nat) (cursor : Int) :
    ((rest.zipIdx index).foldl (assignMember topic base remainder) (cursor, result)).2 =
      assignRanges topic base remainder rest index cursor result := by
  induction rest generalizing index cursor result with
  | nil => rfl
  | cons first rest ih =>
    rw [zipIdx_cons, foldl_cons, assignMember, assignRanges]
    simp only
    rw [assignPartitions_eq (members first mem_cons_self), ih]
    intro other member
    exact mem_insert.mpr (.inr (members other (mem_cons_of_mem _ member)))

section
variable {sorted : List String} (members : ∀ memberID ∈ sorted, memberID ∈ result)
  (partitionCounts : KeyMap String Int)
include members partitionCounts

theorem assignTopic_eq (topic : String) :
    assignTopic sorted partitionCounts result topic = Group.assignTopic sorted partitionCounts result topic := by
  unfold assignTopic Group.assignTopic
  simp only [assignMembers_eq members]

theorem assignTopics_eq (topics : List String) :
    topics.foldl (assignTopic sorted partitionCounts) result =
      topics.foldl (Group.assignTopic sorted partitionCounts) result := by
  induction topics generalizing result with
  | nil => rfl
  | cons topic topics ih =>
    rw [foldl_cons, foldl_cons, assignTopic_eq members, ih]
    intro other member
    exact (mem_assignTopic result topic members other).mpr (members other member)

end

end

/-- Both packages compute the same assignment. -/
theorem rangeAssign_eq (memberIDs topics : List String) (partitionCounts : KeyMap String Int) :
    rangeAssign memberIDs topics partitionCounts = Group.rangeAssign memberIDs topics partitionCounts := by
  unfold rangeAssign Group.rangeAssign
  split
  · rfl
  · exact assignTopics_eq (fun other member => (KeyMap.mem_insertAll id fun _ => []).mpr (.inl ⟨other, member, rfl⟩))
      _ _

/-- The members of the list hold consecutive blocks of the topic. No block is longer than an earlier one, and none is
longer than another one by more than one partition. -/
structure BalancedBlocks (result : KeyMap String (List TopicPartition)) (sorted : List String) (topic : String)
    (items : Nat) (start size : Nat → Nat) : Prop where
  first : start 0 = 0
  next : ∀ index, start (index + 1) = start index + size index
  last : sorted ≠ [] → start sorted.length = items
  block : ∀ index memberID, sorted[index]? = some memberID →
    (owned result memberID).filter (·.topic = topic) =
      (range (size index)).map fun place => ⟨topic, (start index + place : Nat)⟩
  falling : ∀ earlier later, earlier ≤ later → size later ≤ size earlier
  balanced : ∀ first second, size first ≤ size second + 1

theorem share_topic {topic : String} {items parts index : Nat} {tp : TopicPartition}
    (member : tp ∈ share topic items parts index) : tp.topic = topic := by
  obtain ⟨place, _, rfl⟩ := mem_map.mp member
  rfl

/-- Among the blocks of different topics, exactly one belongs to the topic. -/
theorem filter_shares {topics : List String} (distinct : topics.Nodup) (items : String → Nat) (parts index : Nat)
    (topic : String) :
    (topics.flatMap fun other => share other (items other) parts index).filter (·.topic = topic) =
      if topic ∈ topics then share topic (items topic) parts index else [] := by
  induction topics with
  | nil => rfl
  | cons first rest ih =>
    obtain ⟨fresh, later⟩ := nodup_cons.mp distinct
    rw [flatMap_cons, filter_append, ih later]
    by_cases same : first = topic
    · subst same
      rw [if_neg fresh, if_pos mem_cons_self, append_nil, filter_eq_self]
      intro tp member
      exact decide_eq_true (share_topic member)
    · have none : (share first (items first) parts index).filter (·.topic = topic) = [] := by
        refine filter_eq_nil_iff.mpr fun tp member => ?_
        rw [share_topic member, decide_eq_true_eq]
        exact same
      rw [none, nil_append]
      exact if_congr (by rw [mem_cons, or_iff_right (Ne.symm same)]) rfl rfl

theorem rangeAssign_blocks {memberIDs topics : List String} {partitionCounts : KeyMap String Int}
    (members : memberIDs.Nodup) (distinct : topics.Nodup) (countable : Countable partitionCounts) {topic : String}
    (subscribed : topic ∈ topics) :
    BalancedBlocks (Group.rangeAssign memberIDs topics partitionCounts) (memberIDs.insertionSort (· ≤ ·)) topic
      (partitionsOf partitionCounts topic) (rangeStart (partitionsOf partitionCounts topic) memberIDs.length)
      (rangeSize (partitionsOf partitionCounts topic) memberIDs.length) where
  first := rangeStart_zero
  next := rangeStart_succ
  last some := by
    rw [length_insertionSort]
    refine rangeStart_parts (length_pos_iff.mpr fun none => some ?_)
    rw [none, insertionSort_nil]
  block index memberID found := by
    have inside := (List.getElem?_eq_some_iff.mp found).1
    rw [length_insertionSort] at inside
    have sortedTopics := (perm_insertionSort (· ≤ ·) topics).nodup_iff.mpr distinct
    rw [rangeAssign_share countable members found, filter_shares sortedTopics,
      if_pos ((mem_insertionSort (· ≤ ·)).mpr subscribed), share_eq (countable.count topic).2 inside]
  falling earlier later order := rangeSize_anti order
  balanced := rangeSize_le

/-- Both copies give every member an entry and split each topic into blocks in the order of the members. With a
member, every partition belongs to exactly one of them. -/
theorem rangeAssign_balanced (memberIDs topics : List String) (partitionCounts : KeyMap String Int)
    (members : memberIDs.Nodup) (distinct : topics.Nodup) (countable : Countable partitionCounts) :
    rangeAssign memberIDs topics partitionCounts = Group.rangeAssign memberIDs topics partitionCounts ∧
      (∀ memberID, memberID ∈ rangeAssign memberIDs topics partitionCounts ↔ memberID ∈ memberIDs) ∧
      (memberIDs ≠ [] → ∀ topic ∈ topics, ∀ item < partitionsOf partitionCounts topic, ∃! memberID,
        memberID ∈ memberIDs ∧
          TopicPartition.mk topic item ∈ owned (rangeAssign memberIDs topics partitionCounts) memberID) ∧
      (∃ sorted : List String, sorted.Perm memberIDs ∧ sorted.Pairwise (· < ·) ∧ ∀ topic ∈ topics, ∃ start size,
        BalancedBlocks (rangeAssign memberIDs topics partitionCounts) sorted topic (partitionsOf partitionCounts topic)
          start size) ∧
      (∀ memberID, ∀ tp ∈ owned (rangeAssign memberIDs topics partitionCounts) memberID, tp.topic ∈ topics) ∧
      ∀ otherMembers otherTopics, otherMembers.Perm memberIDs → otherTopics.Perm topics →
        rangeAssign otherMembers otherTopics partitionCounts = rangeAssign memberIDs topics partitionCounts := by
  have ordered : (memberIDs.insertionSort (· ≤ ·)).Pairwise (· < ·) := by
    have sortedMembers := (perm_insertionSort (· ≤ ·) memberIDs).nodup_iff.mpr members
    have both := (pairwise_insertionSort (· ≤ ·) memberIDs).and sortedMembers
    exact both.imp fun pair => lt_of_le_of_ne pair.1 pair.2
  simp only [rangeAssign_eq]
  refine ⟨trivial, mem_rangeAssign, ?_, ⟨_, perm_insertionSort _ _, ordered, ?_⟩, ?_, ?_⟩
  · intro some topic subscribed item below
    exact rangeAssign_exactlyOne countable members some subscribed below
  · intro topic subscribed
    exact ⟨_, _, rangeAssign_blocks members distinct countable subscribed⟩
  · intro memberID tp owns
    obtain ⟨topic, subscribed, _, _, inside⟩ := (rangeAssign_owned countable members memberID tp).mp owns
    rw [share_topic inside]
    exact subscribed
  · intro otherMembers otherTopics sameMembers sameTopics
    exact rangeAssign_perm sameMembers sameTopics

/-- The counts of a single topic. -/
def ordersCount (items : Int) : KeyMap String Int := singleton "orders" items

theorem ordersCount_countable {items : Int} (nonneg : 0 ≤ items) (small : items < 2 ^ 31) :
    Countable (ordersCount items) := by
  intro topic count found
  have named : topic = "orders" := (mem_singleton _ _ _).mp (mem_of_lookup_eq_some found)
  rw [named, ordersCount, lookup_singleton_eq] at found
  cases found
  exact ⟨nonneg, small⟩

theorem rangeAssign_balanced_of_pair :
    Countable (ordersCount 3) ∧ (∀ item < partitionsOf (ordersCount 3) "orders", ∃! memberID,
        memberID ∈ ["b", "a"] ∧
          TopicPartition.mk "orders" item ∈ owned (rangeAssign ["b", "a"] ["orders"] (ordersCount 3)) memberID) ∧
      owned (rangeAssign ["b", "a"] ["orders"] (ordersCount 3)) "a" = [⟨"orders", 0⟩, ⟨"orders", 1⟩] ∧
      owned (rangeAssign ["b", "a"] ["orders"] (ordersCount 3)) "b" = [⟨"orders", 2⟩] := by
  have countable := ordersCount_countable (by decide : (0 : Int) ≤ 3) (by decide)
  obtain ⟨_, _, covered, _⟩ := rangeAssign_balanced ["b", "a"] ["orders"] (ordersCount 3) (by decide)
    (by decide) countable
  exact ⟨countable, covered (cons_ne_nil _ _) "orders" mem_cons_self, by decide +kernel, by decide +kernel⟩

/-- Without members no partition has an owner. -/
theorem rangeAssign_without_members :
    partitionsOf (ordersCount 1) "orders" = 1 ∧ ∀ memberID,
      TopicPartition.mk "orders" 0 ∉ owned (rangeAssign [] ["orders"] (ordersCount 1)) memberID ∧
        TopicPartition.mk "orders" 0 ∉ owned (Group.rangeAssign [] ["orders"] (ordersCount 1)) memberID := by
  refine ⟨by decide +kernel, fun memberID => ?_⟩
  rw [rangeAssign_eq]
  simp [Group.rangeAssign, owned]

end BunnyMQ.Cluster
