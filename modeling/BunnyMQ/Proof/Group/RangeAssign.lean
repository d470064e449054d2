/-
This file shows that the range assignment gives every partition to exactly one member.
-/

import BunnyMQ.Construction.Group.GroupCoordinator
import BunnyMQ.Library.Ranges

namespace BunnyMQ.Group
open Foundation Metadata Ranges List
variable {topic memberID : String}

/-- The partitions that an assignment gives to a member. -/
def owned (assignments : KeyMap String (List TopicPartition)) (memberID : String) : List TopicPartition :=
  (assignments.lookup memberID).getD []

section
variable {result : KeyMap String (List TopicPartition)} {memberID other : String} {partitions : List TopicPartition}

@[simp] theorem owned_insert_self : owned (result.insert memberID partitions) memberID = partitions := by
  simp [owned]

@[simp] theorem owned_insert_of_ne (distinct : memberID ≠ other) :
    owned (result.insert other partitions) memberID = owned result memberID := by
  simp [owned, Finmap.lookup_insert_of_ne _ distinct]

end

/-- The block of the topic that the member at this place takes. -/
def share (topic : String) (items parts index : Nat) : List TopicPartition :=
  (range (rangeSize items parts index)).map fun place => ⟨topic, int32 (rangeStart items parts index + place : Nat)⟩

/-- The numbers of the partitions fit into their type. -/
theorem share_eq {items parts index : Nat} (small : items < 2 ^ 31) (inside : index < parts) (topic : String) :
    share topic items parts index = (range (rangeSize items parts index)).map fun place =>
      ⟨topic, (rangeStart items parts index + place : Nat)⟩ := by
  refine map_congr_left fun place member => ?_
  have bound := @rangeStart_le items parts (index + 1) inside (Nat.zero_lt_of_lt inside)
  have below := mem_range.mp member
  rw [rangeStart_succ] at bound
  rw [int32_of_range (by omega) (by omega)]

theorem mem_share {items parts index : Nat} (small : items < 2 ^ 31) (inside : index < parts) {tp : TopicPartition} :
    tp ∈ share topic items parts index ↔ ∃ item : Nat, InRange items parts index item ∧ tp = ⟨topic, item⟩ := by
  rw [share_eq small inside, mem_map]
  constructor
  · rintro ⟨place, member, rfl⟩
    have below := mem_range.mp member
    refine ⟨rangeStart items parts index + place, ⟨Nat.le_add_right _ _, ?_⟩, rfl⟩
    rw [rangeStart_succ]
    omega
  · rintro ⟨item, ⟨lower, upper⟩, rfl⟩
    rw [rangeStart_succ] at upper
    refine ⟨item - rangeStart items parts index, mem_range.mpr (by omega), ?_⟩
    rw [Nat.add_sub_cancel' lower]

/-- A member that is not in the list keeps what it has. -/
theorem assignRanges_absent {base remainder : Int} {rest : List String} (absent : memberID ∉ rest) (index : Nat)
    (cursor : Int) (result : KeyMap String (List TopicPartition)) :
    owned (assignRanges topic base remainder rest index cursor result) memberID = owned result memberID := by
  induction rest generalizing index cursor result with
  | nil => rfl
  | cons first rest ih =>
    obtain ⟨other, later⟩ := not_or.mp (mem_cons.not.mp absent)
    rw [assignRanges, ih later, owned_insert_of_ne other]

/-- Each member of the list takes its block behind what it has. -/
theorem assignRanges_owned {topic : String} {items parts : Nat} {rest : List String} (distinct : rest.Nodup)
    (index : Nat) (result : KeyMap String (List TopicPartition)) {place : Nat} {memberID : String}
    (found : rest[place]? = some memberID) :
    owned (assignRanges topic (items / parts : Nat) (items % parts : Nat) rest index
        (rangeStart items parts index : Nat) result) memberID =
      owned result memberID ++ share topic items parts (index + place) := by
  induction rest generalizing index result place with
  | nil => cases found
  | cons first rest ih =>
    obtain ⟨fresh, later⟩ := nodup_cons.mp distinct
    have size : (if (index : Int) < (items % parts : Nat) then ((items / parts : Nat) : Int) + 1
        else (items / parts : Nat)) = (rangeSize items parts index : Nat) := by
      unfold rangeSize
      split
      · next small => rw [if_pos (by omega)]; push_cast; rfl
      · next large => rw [if_neg (by omega)]
    have cursor : ((rangeStart items parts index : Nat) : Int) + (rangeSize items parts index : Nat) =
        (rangeStart items parts (index + 1) : Nat) := by
      rw [rangeStart_succ, Nat.cast_add]
    rw [assignRanges]
    simp only [size, cursor, Int.toNat_natCast]
    cases place with
    | zero =>
      cases found
      rw [assignRanges_absent fresh, owned_insert_self]
      rfl
    | succ place =>
      have other : memberID ≠ first := fun same => fresh (same ▸ mem_of_getElem? found)
      rw [ih later (index + 1) _ found, owned_insert_of_ne other, Nat.add_assoc, Nat.add_comm 1]

/-- No entry of the assignment is lost. -/
theorem mem_assignRanges {base remainder : Int} (rest : List String) (index : Nat) (cursor : Int)
    (result : KeyMap String (List TopicPartition)) (memberID : String) :
    memberID ∈ assignRanges topic base remainder rest index cursor result ↔ memberID ∈ rest ∨ memberID ∈ result := by
  induction rest generalizing index cursor result with
  | nil => simp [assignRanges]
  | cons first rest ih =>
    rw [assignRanges, ih, Finmap.mem_insert, mem_cons]
    tauto

/-- The number of partitions of a topic. -/
def partitionsOf (partitionCounts : KeyMap String Int) (topic : String) : Nat :=
  ((partitionCounts.lookup topic).getD 0).toNat

/-- No topic has a negative number of partitions. -/
def Countable (partitionCounts : KeyMap String Int) : Prop :=
  ∀ topic count, partitionCounts.lookup topic = some count → 0 ≤ count ∧ count < 2 ^ 31

section
variable {partitionCounts : KeyMap String Int} {sorted : List String}

theorem Countable.count (countable : Countable partitionCounts) (topic : String) :
    (partitionCounts.lookup topic).getD 0 = partitionsOf partitionCounts topic ∧
      partitionsOf partitionCounts topic < 2 ^ 31 := by
  unfold partitionsOf
  cases found : partitionCounts.lookup topic with
  | none => simp
  | some count =>
    have bounds := countable topic count found
    simp only [Option.getD_some]
    omega

theorem assignTopic_owned (countable : Countable partitionCounts) (distinct : sorted.Nodup) {place : Nat}
    (found : sorted[place]? = some memberID) (result : KeyMap String (List TopicPartition)) (topic : String) :
    owned (assignTopic sorted partitionCounts result topic) memberID =
      owned result memberID ++ share topic (partitionsOf partitionCounts topic) sorted.length place := by
  obtain ⟨count, _⟩ := countable.count topic
  unfold assignTopic
  rw [count]
  simp only
  split
  · next none =>
    have zero : partitionsOf partitionCounts topic = 0 := by exact_mod_cast none
    rw [zero]
    simp [share, rangeSize]
  · have ranges := @assignRanges_owned topic (partitionsOf partitionCounts topic) sorted.length sorted distinct 0
      result place memberID found
    rw [rangeStart_zero, Nat.zero_add] at ranges
    rw [← Int.ofNat_tdiv, ← Int.ofNat_tmod]
    exact ranges

theorem mem_assignTopic (result : KeyMap String (List TopicPartition)) (topic : String)
    (within : ∀ memberID ∈ sorted, memberID ∈ result) (memberID : String) :
    memberID ∈ assignTopic sorted partitionCounts result topic ↔ memberID ∈ result := by
  unfold assignTopic
  simp only
  split
  · rfl
  · rw [mem_assignRanges]
    exact or_iff_right_of_imp (within memberID)

/-- The loop over the topics gives every member its block of each topic. -/
theorem assignTopics_owned (countable : Countable partitionCounts) (distinct : sorted.Nodup) {place : Nat}
    (found : sorted[place]? = some memberID) (topics : List String) (result : KeyMap String (List TopicPartition)) :
    owned (topics.foldl (assignTopic sorted partitionCounts) result) memberID = owned result memberID ++
      topics.flatMap fun topic => share topic (partitionsOf partitionCounts topic) sorted.length place := by
  induction topics generalizing result with
  | nil => rw [foldl_nil, flatMap_nil, append_nil]
  | cons topic topics ih =>
    rw [foldl_cons, ih, assignTopic_owned countable distinct found, flatMap_cons, append_assoc]

theorem mem_assignTopics (topics : List String) (result : KeyMap String (List TopicPartition))
    (within : ∀ memberID ∈ sorted, memberID ∈ result) (memberID : String) :
    memberID ∈ topics.foldl (assignTopic sorted partitionCounts) result ↔ memberID ∈ result := by
  induction topics generalizing result with
  | nil => rfl
  | cons topic topics ih =>
    rw [foldl_cons, ih]
    · exact mem_assignTopic result topic within memberID
    · intro other member
      exact (mem_assignTopic result topic within other).mpr (within other member)

end

/-- Every member starts with an empty list. -/
theorem emptyLists_owned (members : List String) (result : KeyMap String (List TopicPartition))
    (empty : ∀ memberID, owned result memberID = []) (memberID : String) :
    owned (members.foldl (fun result memberID => result.insert memberID []) result) memberID = [] := by
  induction members generalizing result with
  | nil => exact empty memberID
  | cons first members ih =>
    refine ih _ fun other => ?_
    by_cases same : other = first
    · rw [same, owned_insert_self]
    · rw [owned_insert_of_ne same, empty]

section
variable {memberIDs topics : List String} {partitionCounts : KeyMap String Int}

/-- The keys of the assignment are the members. -/
theorem mem_rangeAssign (memberID : String) :
    memberID ∈ rangeAssign memberIDs topics partitionCounts ↔ memberID ∈ memberIDs := by
  unfold rangeAssign
  split
  · next none =>
    rw [length_eq_zero_iff.mp none]
    exact iff_of_false Finmap.notMem_empty not_mem_nil
  · have started : ∀ other, other ∈ (memberIDs.insertionSort (· ≤ ·)).foldl
        (fun (result : KeyMap String (List TopicPartition)) memberID => result.insert memberID []) ∅ ↔
        other ∈ memberIDs := by
      intro other
      have inserted := @KeyMap.mem_insertAll _ _ _ _ id (fun _ => ([] : List TopicPartition))
        (memberIDs.insertionSort (· ≤ ·)) ∅ other
      simp only [id, exists_eq_right, mem_insertionSort, Finmap.notMem_empty, or_false] at inserted
      exact inserted
    rw [mem_assignTopics _ _ fun other member => (started other).mpr ((mem_insertionSort _).mp member)]
    exact started memberID

/-- A member owns its block of every topic, in the order of the topics. -/
theorem rangeAssign_share (countable : Countable partitionCounts) (distinct : memberIDs.Nodup) {place : Nat}
    (found : (memberIDs.insertionSort (· ≤ ·))[place]? = some memberID) :
    owned (rangeAssign memberIDs topics partitionCounts) memberID = (topics.insertionSort (· ≤ ·)).flatMap
      fun topic => share topic (partitionsOf partitionCounts topic) memberIDs.length place := by
  have sortedDistinct := (perm_insertionSort (· ≤ ·) memberIDs).nodup_iff.mpr distinct
  have started := emptyLists_owned (memberIDs.insertionSort (· ≤ ·)) ∅ (fun _ => by simp [owned]) memberID
  have present : ¬ memberIDs.length = 0 := by
    rw [← length_insertionSort (· ≤ ·) memberIDs]
    have inside := (List.getElem?_eq_some_iff.mp found).1
    omega
  rw [rangeAssign, if_neg present]
  simp only
  rw [assignTopics_owned countable sortedDistinct found, started, nil_append, length_insertionSort]

/-- A member owns a partition exactly when its range of the topic contains it. -/
theorem rangeAssign_owned (countable : Countable partitionCounts) (distinct : memberIDs.Nodup) (memberID : String)
    (tp : TopicPartition) :
    tp ∈ owned (rangeAssign memberIDs topics partitionCounts) memberID ↔ ∃ topic ∈ topics, ∃ index,
      (memberIDs.insertionSort (· ≤ ·))[index]? = some memberID ∧
        tp ∈ share topic (partitionsOf partitionCounts topic) memberIDs.length index := by
  by_cases member : memberID ∈ memberIDs
  · obtain ⟨place, found⟩ := mem_iff_getElem?.mp ((mem_insertionSort (· ≤ ·)).mpr member)
    have sortedDistinct := (perm_insertionSort (· ≤ ·) memberIDs).nodup_iff.mpr distinct
    rw [rangeAssign_share countable distinct found]
    simp only [mem_flatMap, mem_insertionSort]
    refine exists_congr fun topic => and_congr_right fun _ => ?_
    constructor
    · intro inside
      exact ⟨place, found, inside⟩
    · rintro ⟨index, again, inside⟩
      have here := (List.getElem?_eq_some_iff.mp again).1
      have same := (List.getElem?_inj here sortedDistinct).mp (again.trans found.symm)
      exact same ▸ inside
  · have stranger : memberID ∉ rangeAssign memberIDs topics partitionCounts := (mem_rangeAssign memberID).not.mpr member
    rw [owned, Finmap.lookup_eq_none.mpr stranger]
    constructor
    · intro inside
      cases inside
    · rintro ⟨_, _, _, found, _⟩
      exact absurd ((mem_insertionSort (· ≤ ·)).mp (mem_of_getElem? found)) member

/-- The order of the members and of the topics does not matter. -/
theorem rangeAssign_perm {otherMembers otherTopics : List String} (members : otherMembers.Perm memberIDs)
    (subscribed : otherTopics.Perm topics) :
    rangeAssign otherMembers otherTopics partitionCounts = rangeAssign memberIDs topics partitionCounts := by
  rw [rangeAssign, rangeAssign, members.length_eq, KeyMap.insertionSort_perm members,
    KeyMap.insertionSort_perm subscribed]

/-- Only the counts of the topics matter. -/
theorem rangeAssign_counts {other : KeyMap String Int}
    (same : ∀ topic ∈ topics, other.lookup topic = partitionCounts.lookup topic) :
    rangeAssign memberIDs topics other = rangeAssign memberIDs topics partitionCounts := by
  unfold rangeAssign
  split
  · rfl
  · refine foldl_ext _ _ _ fun result topic member => ?_
    rw [assignTopic, assignTopic, same topic ((mem_insertionSort _).mp member)]

/-- Every partition of a topic belongs to exactly one member. -/
theorem rangeAssign_exactlyOne (countable : Countable partitionCounts) (distinct : memberIDs.Nodup)
    (present : memberIDs ≠ []) {topic : String} (subscribed : topic ∈ topics) {item : Nat}
    (below : item < partitionsOf partitionCounts topic) :
    ∃! memberID, memberID ∈ memberIDs ∧
      TopicPartition.mk topic item ∈ owned (rangeAssign memberIDs topics partitionCounts) memberID := by
  have small := (countable.count topic).2
  have parts : (memberIDs.insertionSort (· ≤ ·)).length = memberIDs.length := length_insertionSort _ _
  have total := @rangeStart_parts (partitionsOf partitionCounts topic) memberIDs.length (length_pos_iff.mpr present)
  obtain ⟨index, inside, within⟩ := exists_range (total.symm ▸ below)
  have here : index < (memberIDs.insertionSort (· ≤ ·)).length := by rw [parts]; exact inside
  refine ⟨(memberIDs.insertionSort (· ≤ ·))[index], ⟨?_, ?_⟩, ?_⟩
  · exact (mem_insertionSort _).mp (getElem_mem here)
  · rw [rangeAssign_owned countable distinct]
    exact ⟨topic, subscribed, index, List.getElem?_eq_getElem here, (mem_share small inside).mpr ⟨item, within, rfl⟩⟩
  · rintro other ⟨_, owns⟩
    obtain ⟨same, _, place, found, shared⟩ := (rangeAssign_owned countable distinct other _).mp owns
    have known := (List.getElem?_eq_some_iff.mp found).1
    rw [parts] at known
    obtain ⟨number, range, equal⟩ := (mem_share (countable.count same).2 known).mp shared
    obtain ⟨rfl, numbers⟩ := TopicPartition.mk.inj equal
    have places : place = index := range.unique (by rw [← Int.ofNat_inj.mp numbers]; exact within)
    rw [places, List.getElem?_eq_getElem here] at found
    exact (Option.some.inj found).symm

end

end BunnyMQ.Group
