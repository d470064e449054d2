/-
This file shows that a scan of the log files lists the batches of the partition log.
-/

import BunnyMQ.Proof.Storage.Representation

namespace BunnyMQ.Storage
open Foundation FileStore List

/-- The batches that `ScanFrom` finds from byte zero on. -/
def SegmentStorage.batches (seg : SegmentStorage) (disk : StorageDisk) : List Bytes :=
  (seg.log.scan ((disk.read (.log seg.baseOffset)).getD []) 0).map Prod.fst

/-- Every batch of the storage with its base offset, in the order of the segments. -/
def StorageImpl.batches (s : StorageImpl) (disk : StorageDisk) : List (Int × Bytes) :=
  (s.segments.flatMap fun seg => seg.batches disk).map fun batch => (baseOffsetOf batch, batch)

/-- The batches depend only on the log files. -/
theorem batches_congr {first second : StorageDisk}
    (logs : ∀ base, first.lookup (.log base) = second.lookup (.log base)) (seg : SegmentStorage) :
    seg.batches first = seg.batches second := by
  rw [SegmentStorage.batches, SegmentStorage.batches, read_congr (logs _)]

theorem batches_of_log {seg : SegmentStorage} {disk : StorageDisk} {batches : List Bytes}
    (found : disk.read (.log seg.baseOffset) = some batches.flatten)
    (size : seg.log.logSize = batches.flatten.length) (stored : ∀ batch ∈ batches, StoredBatch batch) :
    seg.batches disk = batches := by
  rw [SegmentStorage.batches, found, Option.getD_some, scan_zero (fun batch member => (stored batch member).framed)
    size, placed_map_fst]

section
variable {indexed : Prop} {cfg : StorageConfig} {disk : StorageDisk} {s : StorageImpl} {log : PartitionLog}

theorem sealed_segments {handles : List SegmentStorage} {segs : List Segment}
    (same : List.Forall₂ (SealedHandle indexed cfg) handles segs)
    (logs : ∀ seg ∈ segs, disk.read (.log seg.base) = some seg.bytes) (valid : ∀ seg ∈ segs, seg.Valid) :
    handles.map (fun seg => (seg.baseOffset, seg.batches disk)) = segs.map fun seg => (seg.base, seg.batches) := by
  induction same with
  | nil => rfl
  | @cons handle seg handles segs found rest ih =>
    have bytes := logs seg mem_cons_self
    have batches : handle.batches disk = seg.batches :=
      batches_of_log (by rw [found.base]; exact bytes) found.size (valid seg mem_cons_self).stored
    rw [map_cons, map_cons, batches, found.base,
      ih (fun later member => logs later (mem_cons_of_mem _ member))
        (fun later member => valid later (mem_cons_of_mem _ member))]

/-- Each segment of the storage holds the batches of its segment of the log. -/
theorem Mounted.segments (mounted : Mounted indexed cfg disk s log) :
    s.segments.map (fun seg => (seg.baseOffset, seg.batches disk)) =
      log.segments.map fun seg => (seg.base, seg.batches) := by
  obtain ⟨closed, segments, handles⟩ := mounted.handles
  have bytes := mounted.holds.activeLog
  rw [append_nil] at bytes
  have active : (activeHandle cfg log.active).batches disk = log.active.batches :=
    batches_of_log bytes rfl mounted.formed.active.stored
  rw [segments, PartitionLog.segments, map_append, map_append, map_singleton, map_singleton,
    active, sealed_segments handles mounted.holds.closedLog fun seg member =>
      mounted.formed.segment seg (mem_append_left _ member)]
  rfl

theorem Represents.segments (rep : Represents indexed cfg disk s log) :
    s.segments.map (fun seg => (seg.baseOffset, seg.batches disk)) =
      log.segments.map fun seg => (seg.base, seg.batches) :=
  rep.mounted.segments

/-- The segments together hold the batches of the log. -/
theorem Mounted.scanned (mounted : Mounted indexed cfg disk s log) :
    s.segments.flatMap (fun seg => seg.batches disk) = log.contents := by
  have lists := congrArg (map Prod.snd) mounted.segments
  simp only [map_map] at lists
  rw [PartitionLog.contents, flatMap_def, flatMap_def]
  exact congrArg flatten lists

section
variable (rep : Represents indexed cfg disk s log)
include rep

theorem Represents.scanned : s.segments.flatMap (fun seg => seg.batches disk) = log.contents :=
  rep.mounted.scanned

theorem Represents.batches : s.batches disk = log.contents.map fun batch => (baseOffsetOf batch, batch) := by
  rw [StorageImpl.batches, rep.scanned]

theorem Represents.bases : s.segments.map SegmentStorage.baseOffset = log.bases := by
  have lists := congrArg (map Prod.fst) rep.segments
  simp only [map_map] at lists
  exact lists

theorem Represents.earliestOffset : s.earliestOffset = log.bases.headD 0 := by
  rw [← rep.bases, StorageImpl.earliestOffset]
  cases s.segments with
  | nil => rfl
  | cons first later => rfl

/-- A log file holds the batches of its segment and nothing else. -/
theorem Represents.file {handle : SegmentStorage} (member : handle ∈ s.segments) :
    disk.read (.log handle.baseOffset) = some (handle.batches disk).flatten := by
  have listed : (handle.baseOffset, handle.batches disk) ∈
      s.segments.map fun seg => (seg.baseOffset, seg.batches disk) :=
    mem_map_of_mem member
  rw [rep.segments] at listed
  obtain ⟨seg, found, same⟩ := mem_map.mp listed
  obtain ⟨base, batches⟩ := Prod.mk.inj same
  rw [← base, ← batches]
  rcases mem_append.mp found with closed | active
  · exact rep.holds.closedLog seg closed
  · have bytes := rep.holds.activeLog
    rw [append_nil] at bytes
    rw [mem_singleton.mp active]
    exact bytes

end

end

end BunnyMQ.Storage
