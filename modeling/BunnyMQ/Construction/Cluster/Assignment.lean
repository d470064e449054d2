/-
This file models the copy of the range assignment in the cluster coordinator.
-/

import BunnyMQ.Construction.Metadata.Types

namespace BunnyMQ.Cluster
open Foundation Metadata

/-- The innermost loop hands over one partition. -/
def assignPartition (topic memberID : String) (result : KeyMap String (List TopicPartition)) (p : Int) :
    KeyMap String (List TopicPartition) :=
  result.insert memberID ((result.lookup memberID).getD [] ++ [⟨topic, int32 p⟩])

/-- The loop over the members carries the cursor and the result. -/
def assignMember (topic : String) (base remainder : Int) (state : Int × KeyMap String (List TopicPartition))
    (member : String × Nat) : Int × KeyMap String (List TopicPartition) :=
  let count := if (member.2 : Int) < remainder then base + 1 else base
  (state.1 + count,
    (List.range count.toNat).foldl (fun result (p : Nat) => assignPartition topic member.1 result (state.1 + p))
      state.2)

def assignTopic (sorted : List String) (partitionCounts : KeyMap String Int)
    (result : KeyMap String (List TopicPartition)) (topic : String) : KeyMap String (List TopicPartition) :=
  let nPartitions := (partitionCounts.lookup topic).getD 0
  if nPartitions = 0 then result
  else
    let nMembers := sorted.length
    (sorted.zipIdx.foldl (assignMember topic (nPartitions.tdiv nMembers) (nPartitions.tmod nMembers)) (0, result)).2

/-- A member without partitions appears with an empty list. -/
def rangeAssign (memberIDs topics : List String) (partitionCounts : KeyMap String Int) :
    KeyMap String (List TopicPartition) :=
  if memberIDs.length = 0 then ∅
  else
    let sorted := memberIDs.insertionSort (· ≤ ·)
    let sortedTopics := topics.insertionSort (· ≤ ·)
    let result : KeyMap String (List TopicPartition) := sorted.foldl (fun result m => result.insert m []) ∅
    sortedTopics.foldl (assignTopic sorted partitionCounts) result

end BunnyMQ.Cluster
