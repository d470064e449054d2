/-
This file removes single sealed segments from a partition log and keeps its offsets in order.
-/

import BunnyMQ.Proof.Storage.Contents
import BunnyMQ.Proof.Storage.Crash

namespace BunnyMQ.Storage
open Foundation FileStore StorageImpl List
variable {log goal : PartitionLog} {base : Int} {extra : List Bytes} {newer : List Segment}

namespace PartitionLog

/-- The log without the sealed segment at the base offset. -/
def without (log : PartitionLog) (base : Int) : PartitionLog :=
  ⟨log.closedSegs.filter fun seg => seg.base ≠ base, log.active⟩

/-- Every segment ends at or before the base of each later one. -/
def Spaced (log : PartitionLog) : Prop := log.segments.Pairwise fun earlier later => earlier.stop ≤ later.base

theorem without_segments (log : PartitionLog) (base : Int) : (log.without base).segments.Sublist log.segments :=
  filter_sublist.append (List.Sublist.refl _)

theorem Spaced.without (spaced : log.Spaced) (base : Int) : (log.without base).Spaced :=
  spaced.sublist (log.without_segments base)

theorem Valid.without {limit : Int} (valid : log.Valid limit) (base : Int) :
    (log.without base).Valid limit where
  segment seg member := valid.segment seg ((log.without_segments base).subset member)
  increasing := valid.increasing.sublist ((log.without_segments base).map _)
  slack := valid.slack

/-- The bases of the shorter log are those of the longer one without the removed base. -/
theorem mem_without_bases {other : Int} (kept : log.active.base ≠ base) :
    other ∈ (log.without base).bases ↔ other ∈ log.bases ∧ other ≠ base := by
  simp only [bases, segments, PartitionLog.without, map_append, mem_append, mem_map, mem_filter,
    decide_eq_true_eq, map_cons, map_nil, mem_singleton]
  constructor
  · rintro (⟨seg, ⟨member, distinct⟩, rfl⟩ | rfl)
    · exact ⟨.inl ⟨seg, member, rfl⟩, distinct⟩
    · exact ⟨.inr rfl, kept⟩
  · rintro ⟨⟨seg, member, rfl⟩ | rfl, distinct⟩
    · exact .inl ⟨seg, ⟨member, distinct⟩, rfl⟩
    · exact .inr rfl

theorem Spaced.push (spaced : log.Spaced) (batch : Bytes) : Spaced ⟨log.closedSegs, log.active.push batch⟩ := by
  obtain ⟨closed, _, across⟩ := pairwise_append.mp spaced
  refine pairwise_append.mpr ⟨closed, pairwise_singleton _ _, ?_⟩
  intro seg member last same
  rw [mem_singleton.mp same]
  exact across seg member log.active (mem_singleton_self _)

theorem Spaced.roll (spaced : log.Spaced) (start : log.active.base ≤ log.next) :
    Spaced ⟨log.closedSegs ++ [log.active], ⟨log.next, []⟩⟩ := by
  refine pairwise_append.mpr ⟨spaced, pairwise_singleton _ _, ?_⟩
  intro seg member last same
  rw [mem_singleton.mp same]
  rcases mem_append.mp member with closed | active
  · exact ((pairwise_append.mp spaced).2.2 seg closed log.active (mem_singleton_self _)).trans start
  · rw [mem_singleton.mp active]
    exact le_refl _

theorem Spaced.append {log : PartitionLog} (spaced : log.Spaced) (limit : Int) {batch : Bytes}
    (start : log.active.base ≤ endOffsetOf (patchBaseOffset batch log.next)) : (log.append limit batch).Spaced := by
  have pushed := spaced.push (patchBaseOffset batch log.next)
  by_cases full : ((log.pushed batch).bytes.length : Int) ≥ limit
  · rw [append_full full]
    refine pushed.roll ?_
    change log.active.base ≤ (log.pushed batch).stop
    rw [Segment.push_stop]
    exact start
  · rw [append_room full]
    exact pushed

/-- The end of every segment lies at or before the end of the log. -/
theorem Spaced.stop_le (spaced : log.Spaced) (start : log.active.base ≤ log.next) {seg : Segment}
    (member : seg ∈ log.segments) : seg.stop ≤ log.next := by
  rcases mem_append.mp member with closed | active
  · exact ((pairwise_append.mp spaced).2.2 seg closed log.active (mem_singleton_self _)).trans start
  · rw [mem_singleton.mp active]
    exact le_refl _

/-- A log whose longer version is spaced is spaced itself. -/
theorem Extends.spaced (longer : goal.Extends log extra newer) (spaced : log.Spaced) : goal.Spaced := by
  rw [Spaced, longer.split] at spaced
  obtain ⟨closed, _, across⟩ := pairwise_append.mp spaced
  refine pairwise_append.mpr ⟨closed, pairwise_singleton _ _, ?_⟩
  intro seg member last same
  rw [mem_singleton.mp same]
  exact across seg member ⟨goal.active.base, goal.active.batches ++ extra⟩ mem_cons_self

theorem Extends.growing (longer : goal.Extends log extra newer) (growing : ∀ seg ∈ log.segments, Growing seg.batches) :
    ∀ seg ∈ goal.segments, Growing seg.batches := by
  intro seg member
  rcases mem_append.mp member with closed | active
  · exact growing seg (by rw [longer.split]; exact mem_append_left _ closed)
  · rw [mem_singleton.mp active]
    exact (growing ⟨goal.active.base, goal.active.batches ++ extra⟩ (by rw [longer.split]; simp)).append_left

/-- A removal from a longer log is a removal from the shorter one, unless it takes the segment with its end. -/
theorem Extends.without (longer : goal.Extends log extra newer) (kept : goal.active.base ≠ base)
    (active : log.active.base ≠ base) :
    (goal.without base).Extends (log.without base) extra (newer.filter fun seg => seg.base ≠ base) where
  split := by
    have split := congrArg (filter fun seg => decide (seg.base ≠ base)) longer.split
    rw [segments, filter_append, filter_append, filter_cons, filter_cons,
      if_pos (decide_eq_true active), if_pos (decide_eq_true kept), filter_nil] at split
    exact split
  behind seg member := longer.behind seg (mem_of_mem_filter member)
  rolled present := longer.rolled fun none => present (by rw [none]; rfl)

end PartitionLog

theorem Chained.isChain {start : Int} {batches : List Bytes} (chained : Chained start batches) :
    batches.IsChain fun batch next => baseOffsetOf next = endOffsetOf batch := by
  induction batches generalizing start with
  | nil => exact List.IsChain.nil
  | cons batch batches ih =>
    cases batches with
    | nil => exact List.IsChain.singleton _
    | cons next batches => exact isChain_cons_cons.mpr ⟨chained.2.1, ih chained.2⟩

/-- The base offsets of a spaced log increase from batch to batch. -/
theorem PartitionLog.Spaced.increasing {limit : Int} (spaced : log.Spaced) (valid : log.Valid limit)
    (growing : ∀ seg ∈ log.segments, Growing seg.batches) : (log.contents.map baseOffsetOf).Pairwise (· < ·) := by
  rw [PartitionLog.contents, map_flatMap, pairwise_flatMap]
  refine ⟨fun seg member => (growing seg member).increasing (valid.segment seg member).chained, ?_⟩
  refine spaced.imp_of_mem fun {earlier later} first second apart => ?_
  intro base member other found
  obtain ⟨batch, inside, rfl⟩ := mem_map.mp member
  obtain ⟨next, within, rfl⟩ := mem_map.mp found
  have grows := growing earlier first batch inside
  have below := (((growing earlier first).between (valid.segment earlier first).chained).2 batch inside).2
  have above := (((growing later second).between (valid.segment later second).chained).2 next within).1
  have stop : earlier.stop = lastEnd earlier.base earlier.batches := rfl
  omega

theorem growing_contents : Growing log.contents ↔ ∀ seg ∈ log.segments, Growing seg.batches := by
  simp only [Growing, PartitionLog.contents, mem_flatMap, forall_exists_index, and_imp]
  exact ⟨fun all seg member batch inside => all batch seg member inside,
    fun each batch seg member inside => each seg member batch inside⟩

/-- The base offsets increase over the whole log. In each segment they are contiguous and start at or above
its base offset. -/
def StorageImpl.Ordered (s : StorageImpl) (disk : StorageDisk) : Prop :=
  ((s.batches disk).map Prod.fst).Pairwise (· < ·) ∧
    ∀ seg ∈ s.segments, (seg.batches disk).IsChain (fun batch next => baseOffsetOf next = endOffsetOf batch) ∧
      ∀ batch ∈ seg.batches disk, seg.baseOffset ≤ baseOffsetOf batch

theorem StorageImpl.Ordered.congr {s : StorageImpl} {first second : StorageDisk} (ordered : s.Ordered second)
    (logs : ∀ base, first.lookup (.log base) = second.lookup (.log base)) : s.Ordered first := by
  simpa only [StorageImpl.Ordered, StorageImpl.batches, batches_congr logs] using ordered

section
variable {indexed : Prop} {cfg : StorageConfig} {disk : StorageDisk} {s : StorageImpl} {log goal : PartitionLog}

section
variable (rep : Represents indexed cfg disk s log)
include rep

/-- Each handle has a segment of the log with its base and its batches. -/
theorem Represents.segment {handle : SegmentStorage} (member : handle ∈ s.segments) :
    ∃ seg ∈ log.segments, seg.base = handle.baseOffset ∧ seg.batches = handle.batches disk := by
  have listed : (handle.baseOffset, handle.batches disk) ∈ log.segments.map fun seg => (seg.base, seg.batches) := by
    rw [← rep.segments]
    exact mem_map.mpr ⟨handle, member, rfl⟩
  obtain ⟨seg, found, same⟩ := mem_map.mp listed
  exact ⟨seg, found, (Prod.mk.inj same).1, (Prod.mk.inj same).2⟩

theorem Represents.handle {seg : Segment} (member : seg ∈ log.segments) :
    ∃ handle ∈ s.segments, handle.baseOffset = seg.base ∧ handle.batches disk = seg.batches := by
  have listed : (seg.base, seg.batches) ∈ s.segments.map fun seg => (seg.baseOffset, seg.batches disk) := by
    rw [rep.segments]
    exact mem_map.mpr ⟨seg, member, rfl⟩
  obtain ⟨handle, found, same⟩ := mem_map.mp listed
  exact ⟨handle, found, (Prod.mk.inj same).1, (Prod.mk.inj same).2⟩

theorem Represents.ordered (spaced : log.Spaced) (growing : ∀ seg ∈ log.segments, Growing seg.batches) :
    s.Ordered disk := by
  constructor
  · rw [rep.batches, map_map]
    exact spaced.increasing rep.valid growing
  · intro handle member
    obtain ⟨seg, found, base, batches⟩ := rep.segment member
    have valid := rep.valid.segment seg found
    rw [← batches, ← base]
    exact ⟨valid.chained.isChain, fun batch inside => (((growing seg found).between valid.chained).2 batch inside).1⟩

/-- Every batch of a spaced log ends at or before its next offset. -/
theorem Represents.ends_le (spaced : log.Spaced) (growing : ∀ seg ∈ log.segments, Growing seg.batches)
    {handle : SegmentStorage} (member : handle ∈ s.segments) {batch : Bytes} (inside : batch ∈ handle.batches disk) :
    endOffsetOf batch ≤ log.next := by
  obtain ⟨seg, found, _, batches⟩ := rep.segment member
  have start : log.active.base ≤ log.next :=
    ((growing log.active (by simp [PartitionLog.segments])).between rep.valid.active.chained).1
  have within := (((growing seg found).between (rep.valid.segment seg found).chained).2 batch
    (by rw [batches]; exact inside)).2
  exact within.trans (spaced.stop_le start found)

end

/-- The removal of one segment keeps the files of the others. -/
theorem lookup_removeOps_of_ne {other : Int} (distinct : other ≠ base) (disk : StorageDisk) :
    (disk.applyAll (removeOps [base])).lookup (.log other) = disk.lookup (.log other) ∧
      (disk.applyAll (removeOps [base])).lookup (.index other) = disk.lookup (.index other) ∧
      (disk.applyAll (removeOps [base])).lookup (.timeindex other) = disk.lookup (.timeindex other) := by
  obtain ⟨logs, indexes, timeindexes⟩ := lookup_removeOps [base] disk other
  have absent : other ∉ [base] := fun member => distinct (mem_singleton.mp member)
  rw [if_neg absent] at logs indexes timeindexes
  exact ⟨logs, indexes, timeindexes⟩

/-- The directory holds the shorter log once the three files of the segment are removed. -/
theorem DiskHolds.without {tail : Bytes} (holds : DiskHolds indexed cfg disk log tail) (kept : log.active.base ≠ base) :
    DiskHolds indexed cfg (disk.applyAll (removeOps [base])) (log.without base) tail := by
  refine ⟨?_, ?_, ?_, ?_⟩
  · intro seg member
    obtain ⟨old, distinct⟩ := mem_filter.mp member
    rw [← holds.closedLog seg old]
    exact read_congr (lookup_removeOps_of_ne (of_decide_eq_true distinct) disk).1
  · intro seg member
    obtain ⟨old, distinct⟩ := mem_filter.mp member
    obtain ⟨_, index, timeindex⟩ := lookup_removeOps_of_ne (of_decide_eq_true distinct) disk
    exact sealedFiles_congr (holds.closedIndex seg old) index timeindex
  · exact (read_congr (lookup_removeOps_of_ne kept disk).1).trans holds.activeLog
  · intro other absent
    by_cases same : other = base
    · obtain ⟨logs, indexes, timeindexes⟩ := lookup_removeOps [base] disk other
      rw [if_pos (mem_singleton.mpr same)] at logs indexes timeindexes
      exact ⟨logs, indexes, timeindexes⟩
    · obtain ⟨logs, indexes, timeindexes⟩ := lookup_removeOps_of_ne same disk
      have old := holds.others other fun member => absent ((PartitionLog.mem_without_bases kept).mpr ⟨member, same⟩)
      exact ⟨logs.trans old.log, indexes.trans old.index, timeindexes.trans old.timeindex⟩

/-- The storage without the segment at the base offset. -/
def StorageImpl.without (s : StorageImpl) (base : Int) : StorageImpl :=
  { s with segments := s.segments.filter fun seg => seg.baseOffset ≠ base }

theorem sealedHandles_filter {handles : List SegmentStorage} {segs : List Segment}
    (related : List.Forall₂ (SealedHandle indexed cfg) handles segs) (base : Int) :
    List.Forall₂ (SealedHandle indexed cfg) (handles.filter fun seg => seg.baseOffset ≠ base)
      (segs.filter fun seg => seg.base ≠ base) := by
  induction related with
  | nil => exact .nil
  | @cons handle seg handles segs first _ ih =>
    rw [filter_cons, filter_cons, first.base]
    split
    · exact .cons first ih
    · exact ih

theorem Represents.without (rep : Represents indexed cfg disk s log) (kept : log.active.base ≠ base) :
    Represents indexed cfg (disk.applyAll (removeOps [base])) (s.without base) (log.without base) := by
  obtain ⟨closed, segments, handles⟩ := rep.handles
  obtain ⟨_, index, timeindex⟩ := lookup_removeOps_of_ne kept disk
  refine ⟨rep.valid.without base, ⟨_, ?_, sealedHandles_filter handles base⟩, rep.next, rep.opened,
    rep.holds.without kept, by rw [PartitionLog.without, index]; exact rep.files.index,
    by rw [PartitionLog.without, timeindex]; exact rep.files.timeindex⟩
  simp [StorageImpl.without, segments, kept, PartitionLog.without]

/-- A log is ahead of its sealed segments alone. -/
theorem Ahead.forget (ahead : Ahead goal log disk) {limit : Int} (valid : log.Valid limit) :
    Ahead ⟨log.closedSegs, ⟨log.active.base, []⟩⟩ log disk where
  longer := ⟨log.active.batches, [], by simp [PartitionLog.segments], by simp, by simp⟩
  reaches := ((ahead.growing log.active (by simp [PartitionLog.segments])).between valid.active.chained).1
  growing := ahead.growing
  closed := ahead.closed
  active := by
    obtain ⟨file, found, mapped, inside, _⟩ := ahead.active
    exact ⟨file, found, mapped, inside, fun _ => by simp [Segment.bytes]⟩

/-- A removal of a sealed segment stays ahead, unless it takes the segment with the end of the synced log. -/
theorem Ahead.without (ahead : Ahead goal log disk) (kept : goal.active.base ≠ base) (active : log.active.base ≠ base) :
    Ahead (goal.without base) (log.without base) (disk.applyAll (removeOps [base])) := by
  obtain ⟨extra, newer, longer⟩ := ahead.longer
  have removed := longer.without kept active
  refine ⟨⟨extra, _, removed⟩, ahead.reaches, ?_, ?_, ?_⟩
  · intro seg member
    exact ahead.growing seg ((log.without_segments base).subset member)
  · intro seg member
    obtain ⟨old, distinct⟩ := mem_filter.mp member
    rw [(lookup_removeOps_of_ne (of_decide_eq_true distinct) disk).1]
    exact ahead.closed seg old
  · obtain ⟨file, found, mapped, inside, reached⟩ := ahead.active
    refine ⟨file, (lookup_removeOps_of_ne active disk).1.trans found, mapped, inside, fun same => reached ?_⟩
    rcases longer.shape with ⟨_, closedSegs, _⟩ | ⟨front, last, shape, closedSegs, _⟩
    · rw [closedSegs]
    · exfalso
      have lengths : (log.closedSegs.filter fun seg => decide (seg.base ≠ base)).length =
          (goal.closedSegs.filter fun seg => decide (seg.base ≠ base)).length := same
      rw [closedSegs, filter_append, length_append, filter_cons, if_pos (decide_eq_true kept),
        length_cons] at lengths
      omega

end

end BunnyMQ.Storage
