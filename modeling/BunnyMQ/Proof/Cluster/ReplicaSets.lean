/-
This file shows that the replica sets of a topic are valid, spread over the nodes and independent of when they are made.
-/

import BunnyMQ.Proof.Cluster.Placement

namespace BunnyMQ.Cluster
open Foundation Metadata Ranges MetadataState List
variable {configOverrides : TopicConfigOverrides} {created : CreateTopicCmd} {extended : AlterTopicPartCountCmd}

/-- The numbers of the nodes in the order in which they become replicas. -/
def sortedIDs (nodes : List NodeInfo) : List Nat :=
  (nodes.insertionSort fun first second => first.nodeID ≤ second.nodeID).map NodeInfo.nodeID

/-- The place of the first replica of the first partition. -/
def ringStart (nodes : List NodeInfo) (topicName : String) : Nat := (fnv32a topicName).toNat % nodes.length

section
variable {nodes other : List NodeInfo} {topicName : String} {rf : Int}

theorem sortedIDs_perm (nodes : List NodeInfo) : (sortedIDs nodes).Perm (nodes.map NodeInfo.nodeID) :=
  (perm_insertionSort _ nodes).map _

theorem sortedIDs_length (nodes : List NodeInfo) : (sortedIDs nodes).length = nodes.length := by
  rw [(sortedIDs_perm nodes).length_eq, length_map]

/-- The order of the nodes does not matter to their sorted numbers. -/
theorem sortedIDs_of_perm (same : other.Perm nodes) : sortedIDs other = sortedIDs nodes := by
  have sorted (nodes : List NodeInfo) : (sortedIDs nodes).Pairwise (· ≤ ·) := by
    unfold sortedIDs
    rw [pairwise_map]
    exact pairwise_insertionSort (fun first second : NodeInfo => first.nodeID ≤ second.nodeID) nodes
  exact ((sortedIDs_perm other).trans ((same.map _).trans (sortedIDs_perm nodes).symm)).eq_of_pairwise'
    (sorted other) (sorted nodes)

/-- The replicas of a partition are the nodes at consecutive places of the ring. -/
theorem assignReplicas_eq (nonempty : nodes ≠ []) (nonneg : 0 ≤ rf) (p : Nat) :
    assignReplicas nodes topicName p rf =
      some ((ringPlaces (ringStart nodes topicName + p) rf.toNat nodes.length).map fun place =>
        (sortedIDs nodes).getD place 0) := by
  have size := (perm_insertionSort (fun (first second : NodeInfo) => first.nodeID ≤ second.nodeID) nodes).length_eq
  have positive : 0 < nodes.length := length_pos_of_ne_nil nonempty
  unfold assignReplicas sortedIDs
  generalize nodes.insertionSort (fun first second => first.nodeID ≤ second.nodeID) = sorted at size
  dsimp only
  rw [if_neg (by omega), Selection.mapM_eq_some_iff, ringPlaces, map_map, map_map, size]
  refine map_congr_left fun r _ => ?_
  change _ = some ((sorted.map NodeInfo.nodeID).getD ((ringStart nodes topicName + p + r) % nodes.length) 0)
  have inside : (ringStart nodes topicName + p + r) % nodes.length < sorted.length := by
    rw [size]
    exact Nat.mod_lt _ positive
  have whole : ((fnv32a topicName).toNat % nodes.length : Nat) + (p : Int) + r =
      ((ringStart nodes topicName + p + r : Nat) : Int) := by
    unfold ringStart
    omega
  rw [whole, ← Int.ofNat_tmod, if_neg (by omega), Int.toNat_natCast, List.getElem?_eq_getElem inside,
    getD_eq_getElem?_getD, List.getElem?_map, List.getElem?_eq_getElem inside]
  rfl

/-- The order of the nodes does not matter to the replicas. -/
theorem assignReplicas_of_perm (same : other.Perm nodes) (nonempty : nodes ≠ []) (nonneg : 0 ≤ rf) (p : Nat) :
    assignReplicas other topicName p rf = assignReplicas nodes topicName p rf := by
  have also : other ≠ [] := fun empty => nonempty (by simpa [empty] using same)
  rw [assignReplicas_eq also nonneg, assignReplicas_eq nonempty nonneg, sortedIDs_of_perm same, ringStart, ringStart,
    same.length_eq]

/-- How many of the first partitions have this node as their first replica. -/
def leadsOf (nodes : List NodeInfo) (topicName : String) (rf : Int) (nodeID count : Nat) : Nat :=
  count.count fun p => (assignReplicas nodes topicName p rf).bind head? = some nodeID

/-- A node leads the partitions of its place on the ring. -/
theorem first_replica_iff (nonempty : nodes ≠ []) (positive : 1 ≤ rf) (distinct : (nodes.map NodeInfo.nodeID).Nodup)
    {nodeID place : Nat} (here : (sortedIDs nodes)[place]? = some nodeID) (p : Nat) :
    (assignReplicas nodes topicName p rf).bind head? = some nodeID ↔
      (ringStart nodes topicName + p) % nodes.length = place := by
  have size : 0 < nodes.length := length_pos_of_ne_nil nonempty
  have inside : (ringStart nodes topicName + p) % nodes.length < (sortedIDs nodes).length := by
    rw [sortedIDs_length]
    exact Nat.mod_lt _ size
  have unique : (sortedIDs nodes).Nodup := (sortedIDs_perm nodes).nodup_iff.mpr distinct
  have steps : range rf.toNat = 0 :: (range (rf.toNat - 1)).map Nat.succ := by
    rw [← range_succ_eq_map]
    congr 1
    omega
  rw [assignReplicas_eq nonempty (by omega), ringPlaces, steps]
  change some ((sortedIDs nodes).getD ((ringStart nodes topicName + p + 0) % nodes.length) 0) = some nodeID ↔ _
  rw [Nat.add_zero, getD_eq_getElem?_getD, List.getElem?_eq_getElem inside, Option.getD_some, ← here,
    ← List.getElem?_eq_getElem inside]
  exact List.getElem?_inj inside unique

/-- Every node leads the rounded average of the partitions. -/
theorem leadsOf_spread (nonempty : nodes ≠ []) (positive : 1 ≤ rf) (distinct : (nodes.map NodeInfo.nodeID).Nodup)
    {nodeID : Nat} (known : nodeID ∈ nodes.map NodeInfo.nodeID) (count : Nat) :
    leadsOf nodes topicName rf nodeID count = count / nodes.length ∨
      leadsOf nodes topicName rf nodeID count = (count + nodes.length - 1) / nodes.length := by
  obtain ⟨place, here⟩ := mem_iff_getElem?.mp ((sortedIDs_perm nodes).mem_iff.mpr known)
  have inside : place < nodes.length := by
    rw [← sortedIDs_length]
    exact (List.getElem?_eq_some_iff.mp here).1
  have same : leadsOf nodes topicName rf nodeID count =
      count.count fun p => (ringStart nodes topicName + p) % nodes.length = place := by
    unfold leadsOf
    simp only [first_replica_iff nonempty positive distinct here]
  rw [same]
  exact ring_visits _ count inside

/-- The replicas of more partitions are those of the first ones and those of the further ones. -/
theorem assigned_append {assign : Nat → Option (List Nat)} {first further : Nat} {before behind : List (List Nat)}
    (start : (range first).mapM assign = some before)
    (rest : (range further).mapM (fun i => assign (first + i)) = some behind) :
    (range (first + further)).mapM assign = some (before ++ behind) := by
  rw [Selection.mapM_eq_some_iff] at start rest ⊢
  rw [range_add, map_append, map_append, start, ← rest, map_map]
  rfl

/-- The command that creates a topic at once holds the replicas of the command that creates it smaller and of the one
that extends it. -/
theorem created_replicas_append (same : other.Perm nodes) {count more : Int} {first : TopicConfigOverrides}
    {now later : Int} {whole : CreateTopicCmd} {read : TopicMeta}
    (small : createTopic (.ok nodes) topicName count rf configOverrides now = .ok created)
    (grown : alterTopicPartitionCount (.ok read) (.ok other) topicName more = .ok extended)
    (shape : read.shape = (count, rf)) (typed : more < 2 ^ 31)
    (large : createTopic (.ok nodes) topicName more rf first later = .ok whole) :
    whole.replicaNodeIDs = created.replicaNodeIDs ++ extended.newReplicaAssignments := by
  obtain ⟨positive, factor, enough, _, _, _, initial⟩ := createTopic_ok small
  obtain ⟨larger, _, _, added⟩ := alterTopicPartitionCount_ok grown
  obtain ⟨_, _, _, _, _, _, complete⟩ := createTopic_ok large
  have nonempty : nodes ≠ [] := by
    rintro rfl
    simp only [length_nil, Nat.cast_zero] at enough
    omega
  have counts : read.partitionCount = count := congrArg Prod.fst shape
  have factors : read.replicationFactor = rf := congrArg Prod.snd shape
  rw [counts] at larger added
  have unwrapped : (int32 (more - count)).toNat = (more - count).toNat := by
    unfold int32
    omega
  rw [unwrapped, factors] at added
  have further : (range (more - count).toNat).mapM (fun (i : Nat) =>
      assignReplicas nodes topicName ((count.toNat + i : Nat) : Int) rf) = some extended.newReplicaAssignments := by
    rw [← added]
    congr 1
    funext i
    rw [← assignReplicas_of_perm same nonempty (by omega) (count.toNat + i)]
    congr 1
    omega
  have total : count.toNat + (more - count).toNat = more.toNat := by omega
  have joined := @assigned_append (fun p : Nat => assignReplicas nodes topicName p rf) _ _ _ _ initial further
  rw [total, complete] at joined
  exact Option.some.inj joined

/-- The replicas of a stored partition. -/
def replicasAt (state : MetadataState) (topic : String) (partitionID : Int) : Option (List Nat) :=
  (state.partitions.lookup ⟨topic, partitionID⟩).map PartitionMeta.replicaNodeIDs

theorem addPartitions_replicas {partitions : KeyMap PartitionKey PartitionMeta} {topic : String} {first : Int}
    {nextShardID : Nat} {replicas : List (List Nat)} {count : Nat} (partitionID : Int) :
    ((addPartitions partitions topic first nextShardID replicas count).lookup ⟨topic, partitionID⟩).map
      PartitionMeta.replicaNodeIDs =
      if first ≤ partitionID ∧ partitionID < first + count then some (replicas.getD (partitionID - first).toNat [])
      else (partitions.lookup ⟨topic, partitionID⟩).map PartitionMeta.replicaNodeIDs := by
  rw [addPartitions_lookup]
  have inside : InPartitions topic first count ⟨topic, partitionID⟩ ↔
      first ≤ partitionID ∧ partitionID < first + count := ⟨fun within => within.2, fun within => ⟨rfl, within⟩⟩
  by_cases within : first ≤ partitionID ∧ partitionID < first + count
  · rw [if_pos within, if_pos (inside.mpr within)]
    rfl
  · rw [if_neg within, if_neg (mt inside.mp within)]

/-- An accepted creation stores the replicas of its command. -/
theorem replicasAt_created {state : MetadataState} (absent : state.topics.lookup topicName = none) {count : Int}
    {now : Int} (call : createTopic (.ok nodes) topicName count rf configOverrides now = .ok created)
    (typed : count < 2 ^ 31) (partitionID : Int) :
    replicasAt (state.update (.createTopic created)).1 topicName partitionID =
      if 0 ≤ partitionID ∧ partitionID < count then some (created.replicaNodeIDs.getD partitionID.toNat [])
      else replicasAt state topicName partitionID := by
  obtain ⟨positive, factor, _, rfl, counts, factors, assigned⟩ := createTopic_ok call
  have length := (mem_assigned assigned).1
  have fits : int32 created.replicaNodeIDs.length = created.partitionCount := by
    unfold int32
    omega
  have stored : (state.update (.createTopic created)).1.partitions =
      addPartitions state.partitions created.name 0 state.nextShardID created.replicaNodeIDs
        created.partitionCount.toNat := by
    change (state.applyCreateTopic created).1.partitions = _
    unfold applyCreateTopic
    rw [absent, if_neg (by simp), if_neg (by omega), if_neg (not_not.mpr fits)]
  unfold replicasAt
  rw [stored, addPartitions_replicas, zero_add, sub_zero, counts]
  have same : (0 ≤ partitionID ∧ partitionID < (count.toNat : Int)) ↔ 0 ≤ partitionID ∧ partitionID < count := by omega
  simp only [same]

/-- An accepted extension stores the replicas of its command. -/
theorem replicasAt_extended {state : MetadataState} {read : TopicMeta}
    (present : state.topics.lookup topicName = some read) {more : Int}
    (call : alterTopicPartitionCount (.ok read) (.ok nodes) topicName more = .ok extended)
    (nonneg : 0 ≤ read.partitionCount) (typed : more < 2 ^ 31) (partitionID : Int) :
    replicasAt (state.update (.alterTopicPartCount extended)).1 topicName partitionID =
      if read.partitionCount ≤ partitionID ∧ partitionID < more then
        some (extended.newReplicaAssignments.getD (partitionID - read.partitionCount).toNat [])
      else replicasAt state topicName partitionID := by
  obtain ⟨larger, rfl, counts, _⟩ := alterTopicPartitionCount_ok call
  have unwrapped : (int32 (more - read.partitionCount)).toNat = (more - read.partitionCount).toNat := by
    unfold int32
    omega
  have stored : (state.update (.alterTopicPartCount extended)).1.partitions =
      addPartitions state.partitions extended.name read.partitionCount state.nextShardID extended.newReplicaAssignments
        (more - read.partitionCount).toNat := by
    change (state.applyAlterTopicPartCount extended).1.partitions = _
    unfold applyAlterTopicPartCount
    rw [present]
    dsimp only
    rw [counts, if_neg (by omega), unwrapped]
  unfold replicasAt
  rw [stored, addPartitions_replicas]
  have same : (read.partitionCount ≤ partitionID ∧
      partitionID < read.partitionCount + ((more - read.partitionCount).toNat : Int)) ↔
      read.partitionCount ≤ partitionID ∧ partitionID < more := by omega
  simp only [same]

/-- A topic that is extended later has the replicas of a topic that is created at once. -/
theorem replicasAt_extended_eq_created (same : other.Perm nodes) {before middle : MetadataState} {count more : Int}
    {first : TopicConfigOverrides} {now later : Int} {whole : CreateTopicCmd}
    (small : createTopic (.ok nodes) topicName count rf configOverrides now = .ok created)
    (absent : before.topics.lookup topicName = none) (kept : middle.shapes topicName = some (count, rf))
    (untouched : ∀ partitionID, replicasAt middle topicName partitionID =
      replicasAt (before.update (.createTopic created)).1 topicName partitionID)
    (grown : alterTopicPartitionCount (middle.getTopic topicName) (.ok other) topicName more = .ok extended)
    (typed : more < 2 ^ 31) (large : createTopic (.ok nodes) topicName more rf first later = .ok whole)
    (partitionID : Int) :
    replicasAt (middle.update (.alterTopicPartCount extended)).1 topicName partitionID =
      replicasAt (before.update (.createTopic whole)).1 topicName partitionID := by
  obtain ⟨read, present, shape⟩ := Option.map_eq_some_iff.mp kept
  have counts : read.partitionCount = count := congrArg Prod.fst shape
  have got : middle.getTopic topicName = .ok read := by
    rw [getTopic, present]
    rfl
  rw [got] at grown
  obtain ⟨positive, _, _, _, _, _, assigned⟩ := createTopic_ok small
  have larger := (alterTopicPartitionCount_ok grown).1
  have joined := created_replicas_append same small grown shape typed large
  have length := (mem_assigned assigned).1
  rw [replicasAt_extended present grown (by omega) typed, untouched, replicasAt_created absent small (by omega),
    replicasAt_created absent large typed, counts, joined]
  by_cases new : count ≤ partitionID ∧ partitionID < more
  · have place : (partitionID - count).toNat = partitionID.toNat - created.replicaNodeIDs.length := by omega
    rw [if_pos new, if_pos (by omega), getD_eq_getElem?_getD, getD_eq_getElem?_getD,
      List.getElem?_append_right (by omega), place]
  · rw [if_neg new]
    by_cases old : 0 ≤ partitionID ∧ partitionID < count
    · rw [if_pos old, if_pos (by omega), getD_eq_getElem?_getD, getD_eq_getElem?_getD,
        List.getElem?_append_left (by omega)]
    · rw [if_neg old, if_neg (by omega)]

end

/-- On distinct nodes every partition has its replicas on distinct registered nodes, the order of the nodes does not
matter, every node leads the rounded average of the partitions, and a topic that is extended later has the replicas of
one that is created at once. -/
theorem replica_sets_valid_and_spread (nodes : List NodeInfo) (distinct : (nodes.map NodeInfo.nodeID).Nodup)
    (topicName : String) (rf : Int) (positive : 1 ≤ rf) (enough : rf ≤ nodes.length) :
    (∀ p : Nat, ∃ replicas, assignReplicas nodes topicName p rf = some replicas ∧ replicas.length = rf ∧
      replicas.Nodup ∧ ∀ nodeID ∈ replicas, nodeID ∈ nodes.map NodeInfo.nodeID) ∧
    (∀ other : List NodeInfo, other.Perm nodes → ∀ p : Nat,
      assignReplicas other topicName p rf = assignReplicas nodes topicName p rf) ∧
    (∀ count : Nat, ∀ nodeID ∈ nodes.map NodeInfo.nodeID,
      leadsOf nodes topicName rf nodeID count = count / nodes.length ∨
        leadsOf nodes topicName rf nodeID count = (count + nodes.length - 1) / nodes.length) ∧
    ∀ (other : List NodeInfo) (before middle : MetadataState) (count more : Int)
      (configOverrides first : TopicConfigOverrides) (now later : Int) (created whole : CreateTopicCmd)
      (extended : AlterTopicPartCountCmd), other.Perm nodes →
      createTopic (.ok nodes) topicName count rf configOverrides now = .ok created →
      before.topics.lookup topicName = none → middle.shapes topicName = some (count, rf) →
      (∀ partitionID, replicasAt middle topicName partitionID =
        replicasAt (before.update (.createTopic created)).1 topicName partitionID) →
      alterTopicPartitionCount (middle.getTopic topicName) (.ok other) topicName more = .ok extended →
      more < 2 ^ 31 → createTopic (.ok nodes) topicName more rf first later = .ok whole →
      ∀ partitionID, replicasAt (middle.update (.alterTopicPartCount extended)).1 topicName partitionID =
        replicasAt (before.update (.createTopic whole)).1 topicName partitionID := by
  have nonempty : nodes ≠ [] := by
    rintro rfl
    simp only [length_nil, Nat.cast_zero] at enough
    omega
  have nonneg : 0 ≤ rf := by omega
  refine ⟨fun p => ?_, fun other same p => assignReplicas_of_perm same nonempty nonneg p,
    fun count nodeID known => leadsOf_spread nonempty positive distinct known count,
    fun other before middle count more configOverrides first now later created whole extended same small absent kept
      untouched grown typed large => replicasAt_extended_eq_created same small absent kept untouched grown typed large⟩
  have assigned := @assignReplicas_eq nodes topicName rf nonempty nonneg p
  exact ⟨_, assigned, assignReplicas_placed assigned (Int.natCast_nonneg p) distinct enough⟩

/-- Three registered nodes in no order. -/
def threeNodes : List NodeInfo := [⟨30, "c:9000"⟩, ⟨10, "a:9000"⟩, ⟨20, "b:9000"⟩]

/-- Three nodes, with a topic that is extended from two partitions to five. -/
theorem replica_sets_valid_and_spread_of_three :
    (∀ p : Nat, ∃ replicas, assignReplicas threeNodes "orders" p 2 = some replicas ∧ (replicas.length : Int) = 2 ∧
      replicas.Nodup ∧ ∀ nodeID ∈ replicas, nodeID ∈ threeNodes.map NodeInfo.nodeID) ∧
    (∀ p : Nat, assignReplicas threeNodes.reverse "orders" p 2 = assignReplicas threeNodes "orders" p 2) ∧
    (leadsOf threeNodes "orders" 2 10 7 = 7 / 3 ∨ leadsOf threeNodes "orders" 2 10 7 = (7 + 3 - 1) / 3) ∧
    ∃ created extended whole middle,
      createTopic (.ok threeNodes) "orders" 2 2 ⟨none, none⟩ 0 = .ok created ∧
      createTopic (.ok threeNodes) "orders" 5 2 ⟨none, none⟩ 1 = .ok whole ∧
      middle = (initial.update (.createTopic created)).1 ∧
      alterTopicPartitionCount (middle.getTopic "orders") (.ok threeNodes) "orders" 5 = .ok extended ∧
      ∀ partitionID, replicasAt (middle.update (.alterTopicPartCount extended)).1 "orders" partitionID =
        replicasAt (initial.update (.createTopic whole)).1 "orders" partitionID := by
  obtain ⟨sets, ordered, spread, grown⟩ :=
    replica_sets_valid_and_spread threeNodes (by decide) "orders" 2 (by decide) (by decide)
  have small : createTopic (.ok threeNodes) "orders" 2 2 ⟨none, none⟩ 0 =
      .ok ⟨"orders", 2, 2, 0, -1, 0, [[30, 10], [10, 20]]⟩ := by decide +kernel
  have large : createTopic (.ok threeNodes) "orders" 5 2 ⟨none, none⟩ 1 =
      .ok ⟨"orders", 5, 2, 0, -1, 1, [[30, 10], [10, 20], [20, 30], [30, 10], [10, 20]]⟩ := by decide +kernel
  have altered : alterTopicPartitionCount ((initial.update
      (.createTopic ⟨"orders", 2, 2, 0, -1, 0, [[30, 10], [10, 20]]⟩)).1.getTopic "orders") (.ok threeNodes)
        "orders" 5 =
      .ok ⟨"orders", 5, [[20, 30], [30, 10], [10, 20]]⟩ := by decide +kernel
  refine ⟨sets, ordered _ (reverse_perm _), spread 7 10 (by decide), _, _, _, _, small, large, rfl, altered, ?_⟩
  exact grown threeNodes initial _ 2 5 _ _ 0 1 _ _ _ (List.Perm.refl _) small (by decide +kernel)
    (by decide +kernel) (fun _ => rfl) altered (by decide) large

end BunnyMQ.Cluster
