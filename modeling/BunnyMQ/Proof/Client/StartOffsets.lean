/-
This file shows when a consumer of a group starts inside of the logs that it was assigned.
-/

import BunnyMQ.Construction.Partition.PartitionFSM
import BunnyMQ.Proof.Client.Coverage
import BunnyMQ.Proof.Storage.Progress

namespace BunnyMQ.Client
open Foundation Transition FileStore Storage Consumer BunnyMQ.Partition

/-- A log has a segment, and its latest offset is not below the earliest one. -/
structure Ranged (s : StorageImpl) : Prop where
  present : s.segments ≠ []
  nonneg : 0 ≤ s.earliestOffset
  ordered : s.earliestOffset ≤ s.latestOffset

/-- The offset lies between the earliest and the latest one. -/
def InLog (s : StorageImpl) (offset : Int) : Prop := s.earliestOffset ≤ offset ∧ offset ≤ s.latestOffset

/-- The coordinator and the leaders answer the calls of a starting consumer. The latest offsets come from the shards. -/
structure Answered (rpcs : Rpcs) (c : Consumer) (shards : TP → PartitionFSM × StorageDisk) (offsets : List (TP × Int)) :
    Prop where
  committed : rpcs.fetchCommittedOffsets c.coordAddr c.assignedPartitions = .ok offsets
  latest : ∀ tp ∈ c.assignedPartitions, ∃ latest,
    (shards tp).1.lookup (shards tp).2 .latestOffset = .ok (.offset latest) ∧ rpcs.latestOffset tp = .ok latest

/-- A committed offset lies in the log. Without one the policy is to start at the end, or nothing was deleted. -/
def StartsInside (policy : OffsetResetPolicy) (committed : Option Int) (s : StorageImpl) : Prop :=
  match committed.filter (· > -1) with
  | some offset => InLog s offset
  | none => policy = .earliest → s.earliestOffset = 0

section
variable {cfg : StorageConfig} {state : Serving}

/-- Every readable log is ranged. -/
theorem Ranged.of_holds (holds : state.Holds cfg) : Ranged state.storage := by
  obtain ⟨log, rep, readable⟩ := holds
  obtain ⟨chained, ends, growing⟩ := rep.chained readable
  have bases : state.storage.segments.map SegmentStorage.baseOffset = log.segments.map Segment.base := rep.bases
  have present : state.storage.segments ≠ [] := by
    intro empty
    rw [empty, PartitionLog.segments, List.map_append] at bases
    exact List.append_ne_nil_of_right_ne_nil _ (List.cons_ne_nil _ _) bases.symm
  refine ⟨present, ?_, ?_⟩
  · obtain ⟨first, later, segments⟩ := List.exists_cons_of_ne_nil present
    rw [segments, List.map_cons] at bases
    have member : first.baseOffset ∈ log.segments.map Segment.base := by
      rw [← bases]
      exact List.mem_cons_self
    obtain ⟨seg, inside, same⟩ := List.mem_map.mp member
    rw [StorageImpl.earliestOffset, segments]
    change 0 ≤ first.baseOffset
    rw [← same]
    exact (rep.valid.segment seg inside).nonneg
  · rw [← ends]
    exact (growing.between chained).1

end

section
variable {fsm : PartitionFSM} {disk : StorageDisk} {latest : Int}

/-- A shard that names its latest offset is open. -/
theorem lookup_latest (answer : fsm.lookup disk .latestOffset = .ok (.offset latest)) :
    fsm.storage.closed = false ∧ latest = fsm.storage.latestOffset := by
  unfold PartitionFSM.lookup at answer
  cases shut : fsm.storage.closed with
  | true =>
    rw [shut] at answer
    cases answer
  | false =>
    rw [shut] at answer
    cases answer
    exact ⟨rfl, rfl⟩

theorem lookup_outOfRange_iff (opened : fsm.storage.closed = false) {offset maxBytes : Int} :
    fsm.lookup disk (.read offset maxBytes) = .error errOffsetOutOfRange ↔
      fsm.storage.segments ≠ [] ∧ offset < fsm.storage.earliestOffset := by
  rw [← @read_outOfRange_iff disk fsm.storage offset maxBytes, PartitionFSM.lookup, opened]
  change (fsm.storage.read disk offset maxBytes).map _ = _ ↔ _
  cases fsm.storage.read disk offset maxBytes with
  | error failure =>
    constructor
    · rintro ⟨⟩
      rfl
    · rintro ⟨⟩
      rfl
  | ok found =>
    constructor
    · nofun
    · nofun

end

/-- The position that the start chooses lies in the log exactly under the condition. -/
theorem startOffset_inLog_iff {policy : OffsetResetPolicy} {latestOffset : TP → Except RpcError Int}
    {committed : KeyMap TP Int} {tp : TP} {s : StorageImpl} (ranged : Ranged s)
    (latest : latestOffset tp = .ok s.latestOffset) :
    ∃ offset, startOffset policy latestOffset committed tp = .ok offset ∧
      (InLog s offset ↔ StartsInside policy (committed.lookup tp) s) := by
  have reset : ∃ offset, resetOffset policy (latestOffset tp) = .ok offset ∧
      (InLog s offset ↔ (policy = .earliest → s.earliestOffset = 0)) := by
    have nonneg := ranged.nonneg
    have ordered := ranged.ordered
    cases policy with
    | latest => exact ⟨s.latestOffset, latest, iff_of_true ⟨ordered, le_refl _⟩ nofun⟩
    | earliest =>
      refine ⟨0, rfl, ?_⟩
      unfold InLog
      constructor
      · intro inside _
        omega
      · intro kept
        have zero := kept rfl
        omega
  unfold startOffset StartsInside
  cases committed.lookup tp with
  | none => exact reset
  | some offset =>
    by_cases stored : offset > -1
    · have kept : (some offset).filter (· > -1) = some offset := if_pos (decide_eq_true stored)
      rw [kept]
      exact ⟨offset, if_pos stored, Iff.rfl⟩
    · have dropped : (some offset).filter (· > -1) = none := if_neg (by simpa using stored)
      rw [dropped]
      simp only [if_neg stored]
      exact reset

/-- The start gives every assigned partition a position. It lies in the log exactly when a committed offset does, or
when without one the policy starts at the end or nothing was deleted. The first fetch is rejected exactly below the
log. -/
theorem start_inside_log_iff (rpcs : Rpcs) (c : Consumer) (shards : TP → PartitionFSM × StorageDisk)
    (offsets : List (TP × Int)) (answered : Answered rpcs c shards offsets)
    (ranged : ∀ tp ∈ c.assignedPartitions, Ranged (shards tp).1.storage) :
    ∃ after, c.initFetchOffsets rpcs = (after, none) ∧ ∀ tp ∈ c.assignedPartitions,
      (InLog (shards tp).1.storage (after.fetchOffset tp) ↔
        StartsInside c.config.autoOffsetReset ((committedOffsets offsets).lookup tp) (shards tp).1.storage) ∧
      ∀ maxBytes, (shards tp).1.lookup (shards tp).2 (.read (after.fetchOffset tp) maxBytes) =
          .error errOffsetOutOfRange ↔ after.fetchOffset tp < (shards tp).1.storage.earliestOffset := by
  have start : ∀ tp ∈ c.assignedPartitions, ∃ offset, c.startOf rpcs tp = .ok offset ∧
      (InLog (shards tp).1.storage offset ↔
        StartsInside c.config.autoOffsetReset ((committedOffsets offsets).lookup tp) (shards tp).1.storage) := by
    intro tp member
    obtain ⟨latest, answer, same⟩ := answered.latest tp member
    obtain ⟨_, rfl⟩ := lookup_latest answer
    unfold startOf
    rw [answered.committed]
    exact startOffset_inLog_iff (ranged tp member) same
  have finished : (seekAll (c.startOf rpcs) c.assignedPartitions c).2 = none := by
    rw [seekAll_finished_iff]
    intro tp member
    obtain ⟨offset, chosen, _⟩ := start tp member
    exact ⟨offset, chosen⟩
  rw [initFetchOffsets_eq]
  refine ⟨_, Prod.ext rfl finished, ?_⟩
  intro tp member
  have stored := seekAll_lookup finished tp
  rw [if_pos member] at stored
  obtain ⟨offset, chosen, found⟩ := stored
  obtain ⟨other, also, inside⟩ := start tp member
  obtain rfl := Except.ok.inj (chosen.symm.trans also)
  have position : (seekAll (c.startOf rpcs) c.assignedPartitions c).1.fetchOffset tp = offset := by
    rw [fetchOffset, found]
    rfl
  rw [position]
  refine ⟨inside, ?_⟩
  intro maxBytes
  obtain ⟨latest, answer, _⟩ := answered.latest tp member
  rw [lookup_outOfRange_iff (lookup_latest answer).1]
  exact ⟨And.right, fun below => ⟨(ranged tp member).present, below⟩⟩

/-- A log whose first segment was deleted. -/
def trimmedServing : Serving := (follow (Serving.step smallConfig) freshServing restartEvents).get (by decide +kernel)

def trimmedShard : PartitionFSM × StorageDisk := (⟨trimmedServing.storage, 2⟩, trimmedServing.disk)

theorem trimmedServing_reached : (serving smallConfig).Reaches Orderly trimmedServing := by
  have encoded : ∀ event ∈ restartEvents, Encoded event := by
    simp only [restartEvents, List.forall_mem_cons, List.not_mem_nil, false_imp_iff, implies_true, and_true]
    exact ⟨stampedBatch_encoded 0, stampedBatch_encoded 1, trivial, trivial⟩
  exact System.Reaches.follow (serving_steps encoded) (.start freshServing_start)
    (by decide +kernel : permits (Serving.step smallConfig) Orderly freshServing restartEvents) (Option.some_get _).symm

/-- The consumer has joined its group and was assigned one partition. -/
def assignedConsumer : Consumer := { freshConsumer with assignedPartitions := [⟨"orders", 0⟩] }

def startRpcs (offsets : List (TP × Int)) : Rpcs :=
  { billingRpcs with
    fetchCommittedOffsets := fun _ _ => .ok offsets
    latestOffset := fun _ => .ok 2 }

theorem startRpcs_answered (offsets : List (TP × Int)) :
    Answered (startRpcs offsets) assignedConsumer (fun _ => trimmedShard) offsets :=
  ⟨rfl, fun _ _ => ⟨2, by decide +kernel, rfl⟩⟩

theorem start_inside_log_iff_of_commit :
    ∃ after, assignedConsumer.initFetchOffsets (startRpcs [(⟨"orders", 0⟩, 1)]) = (after, none) ∧
      InLog trimmedShard.1.storage (after.fetchOffset ⟨"orders", 0⟩) := by
  have ranged := Ranged.of_holds (Serving.holds_of_reaches smallConfig_indexable trimmedServing_reached)
  obtain ⟨after, started, each⟩ := start_inside_log_iff (startRpcs [(⟨"orders", 0⟩, 1)]) assignedConsumer
    (fun _ => trimmedShard) [(⟨"orders", 0⟩, 1)] (startRpcs_answered _) fun _ _ => ranged
  refine ⟨after, started, (each ⟨"orders", 0⟩ (by decide)).1.mpr ?_⟩
  have committed : (committedOffsets [(⟨"orders", 0⟩, 1)]).lookup ⟨"orders", 0⟩ = some 1 := by decide +kernel
  rw [committed]
  change _ ≤ _ ∧ _ ≤ _
  decide +kernel

/-- Without a commit the policy of the earliest offset starts at zero, which the log has lost, and the first fetch is
rejected. So it is with a commit that is older than the log. -/
theorem start_below_log :
    (serving smallConfig).Reaches Orderly trimmedServing ∧
      assignedConsumer.config.autoOffsetReset = .earliest ∧ trimmedShard.1.storage.earliestOffset = 1 ∧
      ∀ offsets ∈ [[], [(⟨"orders", 0⟩, 0)]], ∃ after, assignedConsumer.initFetchOffsets (startRpcs offsets) =
        (after, none) ∧
        after.fetchOffset ⟨"orders", 0⟩ = 0 ∧
        trimmedShard.1.lookup trimmedShard.2 (.read (after.fetchOffset ⟨"orders", 0⟩) 1048576) =
          .error errOffsetOutOfRange := by
  refine ⟨trimmedServing_reached, by decide, by decide +kernel, ?_⟩
  intro offsets member
  rcases List.mem_cons.mp member with rfl | other
  · exact ⟨_, Prod.ext rfl (by decide +kernel), by decide +kernel, by decide +kernel⟩
  · obtain rfl := List.mem_singleton.mp other
    exact ⟨_, Prod.ext rfl (by decide +kernel), by decide +kernel, by decide +kernel⟩

end BunnyMQ.Client
