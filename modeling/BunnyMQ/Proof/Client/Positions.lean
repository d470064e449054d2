/-
This file states what the consumer does to its read positions.
-/

import BunnyMQ.Construction.Client.Consumer

namespace BunnyMQ.Client
open Foundation BunnyMQ.Group Finmap

namespace Consumer

/-- The sought partitions are the ones with an offset, each of them once. -/
structure Tracked (c : Consumer) : Prop where
  distinct : c.soughtPartitions.Nodup
  keys : ∀ tp, tp ∈ c.soughtPartitions ↔ tp ∈ c.fetchOffsets

/-- Every assigned partition is polled. -/
def Covered (c : Consumer) : Prop := ∀ tp ∈ c.assignedPartitions, tp ∈ c.soughtPartitions

/-- The consumers differ in their positions only. -/
def SameBut (c after : Consumer) : Prop :=
  ∃ sought offsets, after = { c with soughtPartitions := sought, fetchOffsets := offsets }

/-- The consumers differ in the address of the coordinator only. -/
def Relocated (c after : Consumer) : Prop := ∃ addr, after = { c with coordAddr := addr }

section
variable {c after : Consumer} {tp other : TP} {offset : Int}

theorem Relocated.trans {last : Consumer} (first : Relocated c after) (second : Relocated after last) :
    Relocated c last := by
  obtain ⟨_, rfl⟩ := first
  obtain ⟨addr, rfl⟩ := second
  exact ⟨addr, rfl⟩

theorem SameBut.refl (c : Consumer) : SameBut c c := ⟨_, _, rfl⟩

theorem SameBut.trans {last : Consumer} (first : SameBut c after) (second : SameBut after last) : SameBut c last := by
  obtain ⟨_, _, rfl⟩ := first
  obtain ⟨sought, offsets, rfl⟩ := second
  exact ⟨sought, offsets, rfl⟩

theorem SameBut.seek (c : Consumer) (tp : TP) (offset : Int) : SameBut c (c.seek tp offset) := ⟨_, _, rfl⟩

theorem Tracked.clearPositions (c : Consumer) : c.clearPositions.Tracked where
  distinct := List.nodup_nil
  keys _ := iff_of_false List.not_mem_nil notMem_empty

theorem Tracked.storeFetched (tracked : c.Tracked) (known : tp ∈ c.fetchOffsets) (nextOff : Int) :
    (c.storeFetched tp nextOff).Tracked where
  distinct := tracked.distinct
  keys other := by
    rw [Consumer.storeFetched, mem_insert, ← tracked.keys other, iff_or_self]
    rintro rfl
    exact (tracked.keys other).mpr known

theorem Tracked.seek (tracked : c.Tracked) (tp : TP) (offset : Int) : (c.seek tp offset).Tracked := by
  unfold Consumer.seek
  by_cases known : tp ∈ c.fetchOffsets
  · rw [if_pos known]
    exact tracked.storeFetched known offset
  · rw [if_neg known]
    have fresh : tp ∉ c.soughtPartitions := fun sought => known ((tracked.keys tp).mp sought)
    refine ⟨?_, ?_⟩
    · rw [List.nodup_append]
      refine ⟨tracked.distinct, List.nodup_singleton tp, ?_⟩
      intro first member second single same
      rw [List.mem_singleton.mp single] at same
      exact fresh (same ▸ member)
    · intro other
      rw [mem_insert, List.mem_append, List.mem_singleton, tracked.keys other, or_comm]

/-- A seek gives an offset to its partition and to no other. -/
theorem lookup_seek : (c.seek tp offset).fetchOffsets.lookup other =
    if other = tp then some offset else c.fetchOffsets.lookup other := by
  unfold Consumer.seek
  by_cases same : other = tp
  · rw [if_pos same, same, lookup_insert]
  · rw [if_neg same, lookup_insert_of_ne _ same]

theorem mem_seek : other ∈ (c.seek tp offset).fetchOffsets ↔ other = tp ∨ other ∈ c.fetchOffsets := mem_insert

end

section
variable {c : Consumer} {start : TP → Except RpcError Int} {pending : List TP}

theorem seekAll_same (start : TP → Except RpcError Int) (pending : List TP) (c : Consumer) :
    SameBut c (seekAll start pending c).1 := by
  induction pending generalizing c with
  | nil => exact .refl c
  | cons tp pending ih =>
    rw [seekAll]
    cases start tp with
    | error failure => exact .refl c
    | ok offset => exact (SameBut.seek c tp offset).trans (ih _)

theorem seekAll_tracked (tracked : c.Tracked) : (seekAll start pending c).1.Tracked := by
  induction pending generalizing c with
  | nil => exact tracked
  | cons tp pending ih =>
    rw [seekAll]
    cases start tp with
    | error failure => exact tracked
    | ok offset => exact ih (tracked.seek tp offset)

/-- A loop that finishes has given every partition its offset. -/
theorem seekAll_lookup (finished : (seekAll start pending c).2 = none) (tp : TP) :
    if tp ∈ pending then ∃ offset, start tp = .ok offset ∧
      (seekAll start pending c).1.fetchOffsets.lookup tp = some offset
    else (seekAll start pending c).1.fetchOffsets.lookup tp = c.fetchOffsets.lookup tp := by
  induction pending generalizing c with
  | nil => rfl
  | cons first pending ih =>
    rw [seekAll] at finished ⊢
    cases answer : start first with
    | error failure =>
      rw [answer] at finished
      cases finished
    | ok offset =>
      rw [answer] at finished
      have rest := ih finished
      by_cases later : tp ∈ pending
      · rw [if_pos later] at rest
        rw [if_pos (List.mem_cons_of_mem _ later)]
        exact rest
      · rw [if_neg later, lookup_seek] at rest
        by_cases same : tp = first
        · rw [if_pos same] at rest
          rw [if_pos (by rw [same]; exact List.mem_cons_self)]
          exact ⟨offset, by rw [same]; exact answer, rest⟩
        · rw [if_neg same] at rest
          rw [if_neg (by simp [same, later])]
          exact rest

/-- The loop finishes exactly when every partition gets an offset. -/
theorem seekAll_finished_iff :
    (seekAll start pending c).2 = none ↔ ∀ tp ∈ pending, ∃ offset, start tp = .ok offset := by
  induction pending generalizing c with
  | nil => simp [seekAll]
  | cons first pending ih =>
    rw [seekAll, List.forall_mem_cons]
    cases answer : start first with
    | error failure => simp
    | ok offset => simpa using ih

end

/-- The offset that the coordinator or the policy gives to a partition. -/
def startOf (rpcs : Rpcs) (c : Consumer) (tp : TP) : Except RpcError Int := do
  let offsets ← rpcs.fetchCommittedOffsets c.coordAddr c.assignedPartitions
  startOffset c.config.autoOffsetReset rpcs.latestOffset (committedOffsets offsets) tp

theorem initFetchOffsets_eq (rpcs : Rpcs) (c : Consumer) :
    c.initFetchOffsets rpcs = seekAll (c.startOf rpcs) c.assignedPartitions c := by
  unfold initFetchOffsets
  cases assigned : c.assignedPartitions with
  | nil => rfl
  | cons tp rest =>
    simp only [List.length_cons, Nat.add_eq_zero_iff, one_ne_zero, and_false, if_false]
    unfold startOf
    rw [assigned]
    cases rpcs.fetchCommittedOffsets c.coordAddr (tp :: rest) with
    | error failure => rfl
    | ok offsets => rfl

theorem initFetchOffsets_same (rpcs : Rpcs) (c : Consumer) : SameBut c (c.initFetchOffsets rpcs).1 := by
  rw [initFetchOffsets_eq]
  exact seekAll_same _ _ c

section
variable {c : Consumer} {saved : KeyMap TP Int} {assigned : List TP} {tp : TP}

theorem mem_visit {offsets : KeyMap TP Int} : tp ∈ visit offsets ↔ tp ∈ offsets :=
  @KeyMap.mem_sortedKeys _ _ TP.order offsets tp

theorem visit_nodup (offsets : KeyMap TP Int) : (visit offsets).Nodup :=
  @KeyMap.sortedKeys_nodup _ _ TP.order offsets

/-- The saved position of every assigned partition is committed. -/
theorem lookup_toCommit (saved : KeyMap TP Int) (assigned : List TP) (tp : TP) :
    (toCommit saved assigned).lookup tp = if tp ∈ assigned then saved.lookup tp else none := by
  unfold toCommit
  rw [KeyMap.lookup_foldl_insert (fun tp _ => (saved.lookup tp).getD 0) ((visit_nodup saved).filter _),
    lookup_empty]
  by_cases member : tp ∈ assigned
  · rw [if_pos member]
    cases found : saved.lookup tp with
    | none =>
      have absent : tp ∉ visit saved := by
        rw [mem_visit, ← lookup_eq_none]
        exact found
      rw [if_neg (fun kept => absent (List.mem_filter.mp kept).1)]
    | some offset =>
      have present : tp ∈ visit saved := mem_visit.mpr (mem_of_lookup_eq_some found)
      rw [if_pos (List.mem_filter.mpr ⟨present, by simpa using member⟩), Option.getD_some]
  · rw [if_neg member, if_neg (fun kept => member (by simpa using (List.mem_filter.mp kept).2))]

/-- The committed positions replace those that the consumer has. -/
theorem lookup_seekCommitted (offsets : KeyMap TP Int) (c : Consumer) (tp : TP) :
    (seekCommitted offsets c).fetchOffsets.lookup tp = (offsets.lookup tp).or (c.fetchOffsets.lookup tp) := by
  have folded (keys : List TP) (c : Consumer) :
      (keys.foldl (fun c tp => c.seek tp ((offsets.lookup tp).getD 0)) c).fetchOffsets =
        keys.foldl (fun entries tp => entries.insert tp ((offsets.lookup tp).getD 0)) c.fetchOffsets := by
    induction keys generalizing c with
    | nil => rfl
    | cons tp keys ih => exact ih _
  unfold seekCommitted
  rw [folded, KeyMap.lookup_foldl_insert (fun tp _ => (offsets.lookup tp).getD 0) (visit_nodup offsets)]
  cases found : offsets.lookup tp with
  | none =>
    rw [if_neg (by rw [mem_visit, ← lookup_eq_none]; exact found)]
    rfl
  | some offset =>
    rw [if_pos (mem_visit.mpr (mem_of_lookup_eq_some found))]
    rfl

end

section
variable {c : Consumer} {rpcs : Rpcs} {topics : List String}

theorem seekAll_covered {start : TP → Except RpcError Int} {pending : List TP} (tracked : c.Tracked)
    (finished : (seekAll start pending c).2 = none) :
    ∀ tp ∈ pending, tp ∈ (seekAll start pending c).1.soughtPartitions := by
  intro tp member
  have found := seekAll_lookup finished tp
  rw [if_pos member] at found
  obtain ⟨offset, _, stored⟩ := found
  exact ((seekAll_tracked tracked).keys tp).mpr (mem_of_lookup_eq_some stored)

theorem findCoordinator_relocated (describe : String → Except RpcError (List String)) (c : Consumer) :
    Relocated c (c.findCoordinator describe).1 := by
  unfold findCoordinator
  split
  · exact ⟨c.coordAddr, rfl⟩
  · next addr _ => exact ⟨addr, rfl⟩

theorem refreshCoordinator_relocated (rpcs : Rpcs) (c : Consumer) (failure : RpcError) :
    Relocated c (refreshCoordinator rpcs c failure).1 := by
  unfold refreshCoordinator
  split
  · exact ⟨failure.leaderAddress, rfl⟩
  · exact findCoordinator_relocated _ c

/-- The request changes nothing but the address of the coordinator. -/
theorem requestJoin_relocated (rpcs : Rpcs) (c : Consumer) (topics : List String) :
    Relocated c (c.requestJoin rpcs topics).1 := by
  have located := findCoordinator_relocated (rpcs.describeCluster 0) c
  unfold requestJoin
  split
  · next found =>
    rw [found] at located
    exact located
  · next after found =>
    rw [found] at located
    split
    · exact located
    · next failure _ =>
      have refreshed := located.trans (refreshCoordinator_relocated rpcs after failure)
      split
      · exact located
      · split
        · next again =>
          rw [again] at refreshed
          exact refreshed
        · next again =>
          rw [again] at refreshed
          exact refreshed

theorem joinGroup_error {failure : RpcError} (refused : (c.requestJoin rpcs topics).2 = .error failure) :
    c.joinGroup rpcs topics = ((c.requestJoin rpcs topics).1, some failure) := by
  unfold joinGroup
  split
  · next found =>
    rw [found] at refused ⊢
    cases refused
    rfl
  · next found =>
    rw [found] at refused
    cases refused

/-- A join that is answered seeks the assigned partitions. -/
theorem joinGroup_ok {resp : JoinGroupResponse} (answered : (c.requestJoin rpcs topics).2 = .ok resp) :
    c.joinGroup rpcs topics = seekAll (((c.requestJoin rpcs topics).1.storeJoin resp).startOf rpcs)
      (protoToTP resp.assignments) ((c.requestJoin rpcs topics).1.storeJoin resp) := by
  unfold joinGroup
  split
  · next found =>
    rw [found] at answered
    cases answered
  · next found =>
    rw [found] at answered ⊢
    cases answered
    exact initFetchOffsets_eq _ _

theorem Tracked.relocated {after : Consumer} (tracked : c.Tracked) (moved : Relocated c after) : after.Tracked := by
  obtain ⟨_, rfl⟩ := moved
  exact ⟨tracked.distinct, tracked.keys⟩

theorem Tracked.storeJoin (tracked : c.Tracked) (resp : JoinGroupResponse) : (c.storeJoin resp).Tracked :=
  ⟨tracked.distinct, tracked.keys⟩

/-- A join that finishes covers the new assignment. -/
theorem joinGroup_finished (tracked : c.Tracked) (finished : (c.joinGroup rpcs topics).2 = none) :
    (c.joinGroup rpcs topics).1.Tracked ∧ (c.joinGroup rpcs topics).1.Covered := by
  cases answered : (c.requestJoin rpcs topics).2 with
  | error failure =>
    rw [joinGroup_error answered] at finished
    cases finished
  | ok resp =>
    rw [joinGroup_ok answered] at finished ⊢
    have joined := (tracked.relocated (requestJoin_relocated rpcs c topics)).storeJoin resp
    have covered := seekAll_covered joined finished
    refine ⟨seekAll_tracked joined, ?_⟩
    obtain ⟨_, _, same⟩ := seekAll_same (((c.requestJoin rpcs topics).1.storeJoin resp).startOf rpcs)
      (protoToTP resp.assignments) ((c.requestJoin rpcs topics).1.storeJoin resp)
    intro tp member
    rw [same] at member
    exact covered tp member

end

end Consumer

end BunnyMQ.Client
