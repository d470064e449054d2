/-
This file shows what one sweep leaves of a group when several of its members have been silent for too long.
-/

import BunnyMQ.Proof.Group.Heartbeats
import BunnyMQ.Proof.Group.Interleaving

namespace BunnyMQ.Group
open Foundation Metadata Finmap Finset

theorem perm_of_topicSetsEqual {first second : List String} (equal : topicSetsEqual first second = true) :
    first.Perm second := by
  unfold topicSetsEqual at equal
  split at equal
  · cases equal
  · have sorted : first.insertionSort (· ≤ ·) = second.insertionSort (· ≤ ·) := of_decide_eq_true equal
    exact (List.perm_insertionSort _ first).symm.trans (sorted ▸ List.perm_insertionSort _ second)

/-- The heartbeat entry of the member is older than its session timeout. -/
def timedOut (table : HeartbeatTable) (now : Int) (groupID memberID : String) (group : GroupState) : Bool :=
  match group.members.lookup memberID, table.entry groupID memberID with
  | some ms, some lastHB => decide (ms.sessionTimeoutMs < now - lastHB)
  | _, _ => false

/-- The sweep proposes an eviction for exactly these members. -/
theorem sweepMember_isSome (getTopic : String → Except LookupError TopicMeta) (table : HeartbeatTable) (now : Int)
    (groupID memberID : String) (group : GroupState) (visited : List String) :
    (sweepMember getTopic table now groupID memberID group visited).isSome =
      timedOut table now groupID memberID group := by
  unfold sweepMember timedOut
  cases group.members.lookup memberID with
  | none => rfl
  | some ms =>
    cases table.entry groupID memberID with
    | none => rfl
    | some lastHB =>
      by_cases late : now - lastHB ≤ ms.sessionTimeoutMs
      · simp only [if_pos late, Option.isSome_none]
        exact (decide_eq_false (not_lt.mpr late)).symm
      · simp only [if_neg late, Option.isSome_some]
        exact (decide_eq_true (not_le.mp late)).symm

/-- The members of the group whose entries are too old. -/
def silentMembers (table : HeartbeatTable) (now : Int) (groupID : String) (group : GroupState) : Finset String :=
  group.members.keys.filter fun memberID => timedOut table now groupID memberID group

/-- Every proposal of the sweep is accepted, and each loop over the members of a group sees those of that time. -/
def SweepsAlone (now : Int) : Sweep → List SweepVisit → Prop
  | _, [] => True
  | sweep, visit :: rest => visit.accepted = true ∧
      Enumerates visit.visited (membersOf (sweep.state.getGroupState visit.groupID)) ∧
      SweepsAlone now (sweepVisit now sweep visit) rest

instance decidableSweepsAlone (now : Int) :
    (sweep : Sweep) → (visits : List SweepVisit) → Decidable (SweepsAlone now sweep visits)
  | _, [] => .isTrue trivial
  | sweep, visit :: rest =>
    let _ := decidableSweepsAlone now (sweepVisit now sweep visit) rest
    inferInstanceAs (Decidable (_ ∧ _ ∧ _))

/-- The group has lost these members. Each loss starts a generation, and the last one leaves the assignment of the
members that remain. -/
structure Remains (group : GroupState) (topics : List String) (counts : KeyMap String Int) (gone : Finset String)
    (after : GroupState) : Prop where
  members : ∀ memberID, after.members.lookup memberID = if memberID ∈ gone then none else group.members.lookup memberID
  offsets : after.offsets = group.offsets
  unchanged : gone = ∅ → after = group
  generation : gone.Nonempty → after.generationID = int32 (group.generationID + gone.card)
  assignments : gone.Nonempty → ∀ remaining, Enumerates remaining (group.members.keys \ gone) →
    after.assignments = rangeAssign remaining topics counts

theorem remains_all (group : GroupState) (topics : List String) (counts : KeyMap String Int) :
    Remains group topics counts ∅ group :=
  ⟨fun _ => rfl, rfl, fun _ => rfl, fun some => absurd some not_nonempty_empty,
    fun some => absurd some not_nonempty_empty⟩

section
variable {group after : GroupState} {topics : List String} {counts : KeyMap String Int} {gone : Finset String}

theorem Remains.keys (remains : Remains group topics counts gone after) :
    after.members.keys = group.members.keys \ gone := by
  ext memberID
  rw [mem_sdiff, mem_keys, mem_keys, ← lookup_isSome, ← lookup_isSome,
    remains.members memberID]
  by_cases member : memberID ∈ gone
  · simp [member]
  · simp [member]

/-- The group that is left when one more member goes. -/
theorem Remains.leave (remains : Remains group topics counts gone after) {memberID : String} (fresh : memberID ∉ gone)
    {visited subscribed : List String} {seen : KeyMap String Int} (enumerates : Enumerates visited after.members.keys)
    (equal : subscribed.Perm topics) (counted : ∀ topic ∈ topics, seen.lookup topic = counts.lookup topic) :
    Remains group topics counts (insert memberID gone) { after with
      members := after.members.erase memberID
      assignments := if (after.members.erase memberID).keys = ∅ then ∅
        else rangeAssign (visited.filter (· ≠ memberID)) subscribed seen
      generationID := int32 (after.generationID + 1) } where
  members other := by
    by_cases same : other = memberID
    · rw [same, lookup_erase, if_pos (mem_insert_self _ _)]
    · rw [lookup_erase_ne same, remains.members other]
      exact if_congr (by rw [Finset.mem_insert, or_iff_right same]) rfl rfl
  offsets := remains.offsets
  unchanged none := absurd none (insert_ne_empty _ _)
  generation _ := by
    rw [card_insert_of_notMem fresh]
    by_cases none : gone = ∅
    · rw [remains.unchanged none, none, card_empty]
      rfl
    · rw [remains.generation (nonempty_iff_ne_empty.mpr none), int32_add_int32]
      push_cast
      rw [add_assoc]
  assignments _ remaining listed := by
    have keys : (after.members.erase memberID).keys = group.members.keys \ insert memberID gone := by
      rw [KeyMap.keys_erase, remains.keys, sdiff_insert]
    have others : (visited.filter (· ≠ memberID)).Perm remaining := by
      refine List.perm_of_nodup_nodup_toFinset_eq (enumerates.1.filter _) listed.1 ?_
      rw [remaining_toFinset, enumerates.2, listed.2, ← keys, KeyMap.keys_erase]
    have assigned : rangeAssign (visited.filter (· ≠ memberID)) subscribed seen = rangeAssign remaining topics counts :=
      (rangeAssign_perm others equal).trans (rangeAssign_counts counted)
    by_cases last : (after.members.erase memberID).keys = ∅
    · have empty : remaining = [] := by
        rw [← List.toFinset_eq_empty_iff, listed.2, ← keys, last]
      rw [if_pos last, empty]
      rfl
    · rw [if_neg last, assigned]

end

/-- The sweep has taken these members from the group and from the table. -/
structure Evicted (state : MetadataState) (table : HeartbeatTable) (groupID : String) (group : GroupState)
    (topics : List String) (counts : KeyMap String Int) (gone : Finset String) (sweep : Sweep) : Prop where
  metas : sweep.state.topics = state.topics
  found : ∃ after, sweep.state.getGroupState groupID = some after ∧ Remains group topics counts gone after
  entries : ∀ memberID, sweep.table.entry groupID memberID =
    if memberID ∈ gone then none else table.entry groupID memberID

section
variable {state : MetadataState} {table : HeartbeatTable} {now : Int} {groupID : String} {group : GroupState}
  {topics : List String} {counts : KeyMap String Int} {gone : Finset String} {sweep : Sweep} {visit : SweepVisit}

/-- A member that is still there times out as it did at the start. -/
theorem Evicted.timedOut_iff (evicted : Evicted state table groupID group topics counts gone sweep) {after : GroupState}
    (remains : Remains group topics counts gone after) (memberID : String) :
    timedOut sweep.table now groupID memberID after = true ↔
      memberID ∈ silentMembers table now groupID group ∧ memberID ∉ gone := by
  unfold silentMembers
  rw [mem_filter, mem_keys]
  unfold timedOut
  rw [remains.members memberID, evicted.entries memberID]
  by_cases member : memberID ∈ gone
  · simp [member]
  · rw [if_neg member, if_neg member]
    cases stored : group.members.lookup memberID with
    | none => simp [lookup_eq_none.mp stored]
    | some ms =>
      have present : memberID ∈ group.members := mem_of_lookup_eq_some stored
      simp [present, member]

/-- An accepted visit finds nobody to evict, or it takes its member from the group and from the table. -/
theorem sweepVisit_accepted (accepted : visit.accepted = true) :
    (sweepVisit now sweep visit = sweep ∧ ∀ current, sweep.state.getGroupState visit.groupID = some current →
        timedOut sweep.table now visit.groupID visit.memberID current = false) ∨
      ∃ current ms seen cmd, sweep.state.getGroupState visit.groupID = some current ∧
        timedOut sweep.table now visit.groupID visit.memberID current = true ∧
        current.members.lookup visit.memberID = some ms ∧
        countTopics sweep.state.getTopic (fun _ _ => .ok ()) ms.subscribedTopics ∅ = .ok seen ∧
        sweepVisit now sweep visit = ⟨{ sweep.state with
          groupStates := sweep.state.groupStates.insert visit.groupID { current with
            members := current.members.erase visit.memberID
            assignments := if (current.members.erase visit.memberID).keys = ∅ then ∅
              else rangeAssign (visit.visited.filter (· ≠ visit.memberID)) ms.subscribedTopics seen
            generationID := int32 (current.generationID + 1) } },
          sweep.table.forget visit.groupID visit.memberID, sweep.proposed ++ [cmd]⟩ := by
  unfold sweepVisit
  cases stored : sweep.state.getGroupState visit.groupID with
  | none => exact .inl ⟨rfl, fun _ found => absurd found (Option.some_ne_none _).symm⟩
  | some current =>
    have proposes := sweepMember_isSome sweep.state.getTopic sweep.table now visit.groupID visit.memberID current
      visit.visited
    simp only
    cases proposed : sweepMember sweep.state.getTopic sweep.table now visit.groupID visit.memberID current
        visit.visited with
    | none =>
      rw [proposed, Option.isSome_none] at proposes
      exact .inl ⟨rfl, fun _ found => Option.some.inj found ▸ proposes.symm⟩
    | some cmd =>
      rw [proposed, Option.isSome_some] at proposes
      obtain ⟨sameGroup, sameMember, ms, _, present, _, _, seen, carried, counting⟩ := sweepMember_some proposed
      have left := @update_leave sweep.state cmd current (sameGroup ▸ stored)
        (sameMember ▸ mem_of_lookup_eq_some present)
      rw [sameGroup, sameMember, carried, omitEmpty_getD] at left
      simp only [if_pos accepted]
      rw [left]
      exact .inr ⟨current, ms, seen, cmd, rfl, proposes.symm, present, counting, rfl⟩

/-- One visit evicts its member from the group, or it changes nothing there. -/
theorem Evicted.step (evicted : Evicted state table groupID group topics counts gone sweep)
    (equal : ∀ memberID ms, group.members.lookup memberID = some ms → ms.subscribedTopics.Perm topics)
    (counted : ∀ topic ∈ topics, counts.lookup topic = (state.topics.lookup topic).map TopicMeta.partitionCount)
    (accepted : visit.accepted = true)
    (enumerates : Enumerates visit.visited (membersOf (sweep.state.getGroupState visit.groupID))) :
    Evicted state table groupID group topics counts
      (if visit.groupID = groupID ∧ visit.memberID ∈ silentMembers table now groupID group then
        insert visit.memberID gone else gone) (sweepVisit now sweep visit) := by
  obtain ⟨after, found, remains⟩ := evicted.found
  obtain ⟨idle, early⟩ | ⟨current, ms, seen, cmd, stored, late, present, counting, left⟩ :=
    @sweepVisit_accepted now sweep visit accepted
  · rw [idle]
    split
    · next silent =>
      obtain ⟨rfl, silent⟩ := silent
      have gone : visit.memberID ∈ gone := by
        by_contra fresh
        have late := (evicted.timedOut_iff remains visit.memberID).mpr ⟨silent, fresh⟩
        rw [early after found] at late
        cases late
      rw [insert_eq_of_mem gone]
      exact evicted
    · exact evicted
  · rw [left]
    by_cases same : visit.groupID = groupID
    · subst same
      cases found.symm.trans stored
      obtain ⟨silent, fresh⟩ := (evicted.timedOut_iff remains visit.memberID).mp late
      rw [if_pos ⟨rfl, silent⟩]
      have subscribed : group.members.lookup visit.memberID = some ms := by
        rw [← present, remains.members, if_neg fresh]
      have sameTopics := equal visit.memberID ms subscribed
      have sameCounts : ∀ topic ∈ topics, seen.lookup topic = counts.lookup topic := by
        intro topic member
        rw [countTopics_lookup counting, if_pos (sameTopics.mem_iff.mpr member), counted topic member, evicted.metas,
          lookup_empty, Option.or_none]
      rw [found] at enumerates
      refine ⟨evicted.metas, ⟨_, lookup_insert _, remains.leave fresh enumerates sameTopics sameCounts⟩, ?_⟩
      intro memberID
      rw [HeartbeatTable.entry_forget, evicted.entries memberID]
      by_cases own : memberID = visit.memberID
      · rw [if_pos ⟨rfl, own⟩, if_pos (own ▸ mem_insert_self _ _)]
      · rw [if_neg fun both => own both.2]
        exact if_congr (by rw [Finset.mem_insert, or_iff_right own]) rfl rfl
    · rw [if_neg fun both => same both.1]
      refine ⟨evicted.metas, ⟨after, (lookup_insert_of_ne _ (Ne.symm same)).trans found, remains⟩, ?_⟩
      intro memberID
      rw [HeartbeatTable.entry_forget, if_neg fun both => same both.1.symm]
      exact evicted.entries memberID

/-- The members of the group that the visits name. -/
def namedIn (groupID : String) (visits : List SweepVisit) : Finset String :=
  ((visits.filter (·.groupID = groupID)).map SweepVisit.memberID).toFinset

theorem namedIn_cons (visits : List SweepVisit) :
    namedIn groupID (visit :: visits) =
      if visit.groupID = groupID then insert visit.memberID (namedIn groupID visits) else namedIn groupID visits := by
  unfold namedIn
  split
  · next same => simp [same]
  · next other => simp [other]

/-- The visits evict the silent members that they name. -/
theorem Evicted.run (equal : ∀ memberID ms, group.members.lookup memberID = some ms → ms.subscribedTopics.Perm topics)
    (counted : ∀ topic ∈ topics, counts.lookup topic = (state.topics.lookup topic).map TopicMeta.partitionCount)
    {visits : List SweepVisit} (evicted : Evicted state table groupID group topics counts gone sweep)
    (alone : SweepsAlone now sweep visits) :
    Evicted state table groupID group topics counts
      (gone ∪ silentMembers table now groupID group ∩ namedIn groupID visits)
      (visits.foldl (sweepVisit now) sweep) := by
  induction visits generalizing sweep gone with
  | nil =>
    rw [show namedIn groupID [] = ∅ from rfl, Finset.inter_empty, Finset.union_empty]
    exact evicted
  | cons visit visits ih =>
    obtain ⟨accepted, enumerates, later⟩ := alone
    have rest := ih (evicted.step equal counted accepted enumerates) later
    rw [List.foldl_cons, namedIn_cons]
    by_cases same : visit.groupID = groupID
    · rw [if_pos same]
      by_cases silent : visit.memberID ∈ silentMembers table now groupID group
      · rw [if_pos ⟨same, silent⟩, Finset.insert_union] at rest
        rw [inter_insert_of_mem silent, union_insert]
        exact rest
      · rw [if_neg fun both => silent both.2] at rest
        rw [inter_insert_of_notMem silent]
        exact rest
    · rw [if_neg fun both => same both.1] at rest
      rw [if_neg same]
      exact rest

end

/-- One sweep of the leader takes exactly the silent members from the group and from the table. If there are any, the
generation counts them and the assignment is that of the members that remain. -/
theorem sweepOnce_evicts_silent (config : GroupCoordinatorConfig) (leader : Option Nat) (now : Int)
    (visits : List SweepVisit) (state : MetadataState) (table : HeartbeatTable) (groupID : String) (group : GroupState)
    (topics : List String) (counts : KeyMap String Int) (leads : leader = some config.thisNodeID)
    (found : state.getGroupState groupID = some group)
    (equal : ∀ memberID ms, group.members.lookup memberID = some ms → topicSetsEqual ms.subscribedTopics topics = true)
    (counted : ∀ topic ∈ topics, counts.lookup topic = (state.topics.lookup topic).map TopicMeta.partitionCount)
    (alone : SweepsAlone now ⟨state, table, []⟩ visits)
    (covers : ∀ memberID ∈ group.members, ∃ visit ∈ visits, visit.groupID = groupID ∧ visit.memberID = memberID) :
    (∃ after, (sweepOnce config leader now visits state table).state.getGroupState groupID = some after ∧
      Remains group topics counts (silentMembers table now groupID group) after ∧
      (group.members.keys = silentMembers table now groupID group → group.members.keys.Nonempty →
        after.assignments = ∅)) ∧
      ∀ memberID, (sweepOnce config leader now visits state table).table.entry groupID memberID =
        if memberID ∈ silentMembers table now groupID group then none else table.entry groupID memberID := by
  have start : Evicted state table groupID group topics counts ∅ ⟨state, table, []⟩ :=
    ⟨rfl, ⟨group, found, remains_all group topics counts⟩, fun memberID => by rw [if_neg (notMem_empty memberID)]⟩
  have swept := Evicted.run (fun memberID ms stored => perm_of_topicSetsEqual (equal memberID ms stored)) counted start
    alone
  have named : silentMembers table now groupID group ⊆ namedIn groupID visits := by
    intro memberID silent
    obtain ⟨visit, visited, here, rfl⟩ := covers memberID (mem_keys.mp (mem_filter.mp silent).1)
    exact List.mem_toFinset.mpr
      (List.mem_map_of_mem (List.mem_filter.mpr ⟨visited, decide_eq_true here⟩))
  rw [Finset.empty_union, Finset.inter_eq_left.mpr named] at swept
  rw [sweepOnce, if_neg (not_not.mpr leads)]
  obtain ⟨after, left, remains⟩ := swept.found
  refine ⟨⟨after, left, remains, ?_⟩, swept.entries⟩
  intro all some
  rw [remains.assignments (all ▸ some) [] ⟨List.nodup_nil, by rw [all, sdiff_self]; rfl⟩]
  rfl

/-- The member joins the group at time zero. -/
def joinBilling (memberID : String) (visited : List String) (before : MetadataState × HeartbeatTable) :
    MetadataState × HeartbeatTable :=
  (joinGroup defaultConfig visited "" 0 ⟨"billing", memberID, ["orders"], 5000, 1000⟩ before.1 before.2).2

/-- Three members, and only the first one is heard again. -/
def trioState : MetadataState :=
  (joinBilling "c" ["b", "a"] (joinBilling "b" ["a"] (joinBilling "a" [] (ordersState, ∅)))).1

def trioTable : HeartbeatTable :=
  (joinBilling "c" ["b", "a"] (joinBilling "b" ["a"] (joinBilling "a" [] (ordersState, ∅)))).2.record "billing" "a" 6000

def trioGroup : GroupState := (trioState.getGroupState "billing").get (by decide +kernel)

def trioVisits : List SweepVisit :=
  [⟨"billing", "c", ["c", "a", "b"], true⟩, ⟨"billing", "a", ["b", "a"], true⟩, ⟨"billing", "b", ["a", "b"], true⟩]

theorem subscribed_of_keys {group : GroupState} {topics : List String}
    (all : ∀ memberID ∈ group.members.keys,
      (group.members.lookup memberID).all (fun ms => topicSetsEqual ms.subscribedTopics topics) = true) :
    ∀ memberID ms, group.members.lookup memberID = some ms → topicSetsEqual ms.subscribedTopics topics = true := by
  intro memberID ms stored
  have checked := all memberID (mem_keys.mpr (mem_of_lookup_eq_some stored))
  rw [stored] at checked
  exact checked

theorem sweepOnce_evicts_silent_of_trio :
    silentMembers trioTable 7000 "billing" trioGroup = {"b", "c"} ∧ ∃ after,
      (sweepOnce defaultConfig (some 1) 7000 trioVisits trioState trioTable).state.getGroupState "billing" =
        some after ∧
      Remains trioGroup ["orders"] (singleton "orders" 2) {"b", "c"} after ∧
      after.assignments = rangeAssign ["a"] ["orders"] (singleton "orders" 2) := by
  have silent : silentMembers trioTable 7000 "billing" trioGroup = {"b", "c"} := by decide +kernel
  obtain ⟨⟨after, found, remains, _⟩, _⟩ := sweepOnce_evicts_silent defaultConfig (some 1) 7000 trioVisits trioState
    trioTable "billing" trioGroup ["orders"] (singleton "orders" 2) rfl (Option.some_get _).symm
    (subscribed_of_keys (by decide +kernel)) (by decide +kernel) (by decide +kernel)
    (fun memberID member => (by decide +kernel : ∀ memberID ∈ trioGroup.members.keys, ∃ visit ∈ trioVisits,
      visit.groupID = "billing" ∧ visit.memberID = memberID) memberID (mem_keys.mpr member))
  rw [silent] at remains
  exact ⟨silent, after, found, remains, remains.assignments ⟨"b", by decide⟩ ["a"] (by decide +kernel)⟩

/-- The topic has got a third partition since its only subscriber has joined. -/
def grownState : MetadataState :=
  ((joinBilling "a" [] (ordersState, ∅)).1.update (.alterTopicPartCount ⟨"orders", 3, [[1]]⟩)).1

def grownTable : HeartbeatTable := (joinBilling "a" [] (ordersState, ∅)).2

def grownVisits : List SweepVisit := [⟨"billing", "a", ["a"], true⟩]

/-- A sweep that finds nobody silent leaves an assignment without the new partition. -/
theorem sweepOnce_keeps_stale_assignment :
    SweepsAlone 0 ⟨grownState, grownTable, []⟩ grownVisits ∧
      (grownState.topics.lookup "orders").map TopicMeta.partitionCount = some 3 ∧
      ∃ group, grownState.getGroupState "billing" = some group ∧ group.members.keys = {"a"} ∧
        silentMembers grownTable 0 "billing" group = ∅ ∧
        (sweepOnce defaultConfig (some 1) 0 grownVisits grownState grownTable).state.getGroupState "billing" =
          some group ∧
        group.assignments ≠ rangeAssign ["a"] ["orders"] (singleton "orders" 3) := by
  refine ⟨by decide +kernel, by decide +kernel, (grownState.getGroupState "billing").get (by decide +kernel),
    (Option.some_get _).symm, by decide +kernel, by decide +kernel, by decide +kernel, by decide +kernel⟩

end BunnyMQ.Group
