/-
This file shows that a truncation undoes every append behind its offset.
-/

import BunnyMQ.Proof.Storage.Recovery

namespace BunnyMQ.Storage
open Foundation FileStore Framing StorageImpl Program SegmentStorage PartitionLog List
variable {batches extra : List Bytes} {goal log : PartitionLog} {newer : List Segment} {s : StorageImpl}

/-- Every batch moves the offset forward. -/
def Growing (batches : List Bytes) : Prop := ∀ batch ∈ batches, baseOffsetOf batch < endOffsetOf batch

theorem Growing.append_left {first second : List Bytes} (growing : Growing (first ++ second)) : Growing first :=
  fun batch member => growing batch (mem_append_left _ member)

section
variable {start : Int} (growing : Growing batches) (chained : Chained start batches)
include growing chained

/-- The batches of a growing chain lie between its start and its end. -/
theorem Growing.between :
    start ≤ lastEnd start batches ∧
      ∀ batch ∈ batches, start ≤ baseOffsetOf batch ∧ endOffsetOf batch ≤ lastEnd start batches := by
  induction batches generalizing start with
  | nil => exact ⟨le_refl _, by simp⟩
  | cons batch batches ih =>
    obtain ⟨starts, rest⟩ := chained
    have grows := growing batch mem_cons_self
    obtain ⟨ends, inside⟩ := ih (fun later member => growing later (mem_cons_of_mem _ member)) rest
    have whole : lastEnd start (batch :: batches) = lastEnd (endOffsetOf batch) batches := rfl
    rw [whole]
    refine ⟨by omega, ?_⟩
    intro other member
    rcases mem_cons.mp member with rfl | later
    · exact ⟨starts.ge, ends⟩
    · have bounds := inside other later
      exact ⟨by omega, bounds.2⟩

/-- A growing segment with a batch ends behind its base. -/
theorem Growing.lt_lastEnd (present : batches ≠ []) : start < lastEnd start batches := by
  obtain ⟨batch, rest, rfl⟩ := exists_cons_of_ne_nil present
  have bounds := (growing.between chained).2 batch mem_cons_self
  have grows := growing batch mem_cons_self
  omega

/-- The base offsets of a growing chain increase. -/
theorem Growing.increasing : (batches.map baseOffsetOf).Pairwise (· < ·) := by
  induction batches generalizing start with
  | nil => exact List.Pairwise.nil
  | cons batch batches ih =>
    obtain ⟨_, rest⟩ := chained
    have later : Growing batches := fun other member => growing other (mem_cons_of_mem _ member)
    refine pairwise_cons.mpr ⟨?_, ih later rest⟩
    intro base member
    obtain ⟨other, found, rfl⟩ := mem_map.mp member
    have grows := growing batch mem_cons_self
    have behind := ((later.between rest).2 other found).1
    omega

end

/-- The loop walks back over the segments behind the offset. -/
theorem truncationPlace_eq {before later : List SegmentStorage} {seg : SegmentStorage} {offset : Int}
    (starts : seg.baseOffset ≤ offset) (behind : ∀ other ∈ later, offset < other.baseOffset) {back : Nat}
    (inside : back ≤ later.length) :
    truncationPlace (before ++ seg :: later) offset (before.length + back) = before.length := by
  induction back with
  | zero =>
    cases size : before.length with
    | zero => rfl
    | succ count =>
      have place : (before ++ seg :: later)[count + 1]? = some seg := by
        rw [← size, List.getElem?_append_right (le_refl _), Nat.sub_self]
        rfl
      rw [Nat.add_zero, truncationPlace, place, if_neg (by simpa using starts)]
  | succ back ih =>
    have shorter : back < later.length := by omega
    have place : (before ++ seg :: later)[before.length + back + 1]? = some later[back] := by
      rw [List.getElem?_append_right (by omega), show before.length + back + 1 - before.length = back + 1 by omega,
        List.getElem?_cons_succ, List.getElem?_eq_getElem shorter]
    have above := behind later[back] (getElem_mem shorter)
    rw [← Nat.add_assoc, truncationPlace, place, if_pos (by simpa using above)]
    exact ih (by omega)

/-- The files of the listed segments are removed. -/
def removeOps (bases : List Int) : List (FileOp FileName) :=
  bases.flatMap fun base => [.remove (.log base), .remove (.index base), .remove (.timeindex base)]

theorem removeSegments_run (segs : List SegmentStorage) (disk : StorageDisk) :
    (removeSegments segs).run disk = (.ok (), removeOps (segs.map baseOffset)) := by
  induction segs generalizing disk with
  | nil => rfl
  | cons seg segs ih =>
    have files : (removeSegmentFiles seg.baseOffset).run disk =
        (.ok (), removeOps [seg.baseOffset]) := rfl
    rw [removeSegments, bind_ok files, ih]
    rfl

/-- A removal forgets the listed segments and keeps everything else. -/
theorem lookup_removeOps (bases : List Int) (disk : StorageDisk) (base : Int) :
    (disk.applyAll (removeOps bases)).lookup (.log base) =
        (if base ∈ bases then none else disk.lookup (.log base)) ∧
      (disk.applyAll (removeOps bases)).lookup (.index base) =
        (if base ∈ bases then none else disk.lookup (.index base)) ∧
      (disk.applyAll (removeOps bases)).lookup (.timeindex base) =
        (if base ∈ bases then none else disk.lookup (.timeindex base)) := by
  induction bases generalizing disk with
  | nil => simp [removeOps]
  | cons first bases ih =>
    have step : disk.applyAll (removeOps (first :: bases)) =
        (((disk.apply (.remove (.log first))).apply (.remove (.index first))).apply
          (.remove (.timeindex first))).applyAll (removeOps bases) := rfl
    obtain ⟨logs, indexes, timeindexes⟩ := ih (((disk.apply (.remove (.log first))).apply
      (.remove (.index first))).apply (.remove (.timeindex first)))
    rw [step, logs, indexes, timeindexes]
    by_cases same : base = first
    · simp [same]
    · simp [same]

section
variable {indexed : Prop} {cfg : StorageConfig} {disk : StorageDisk}

/-- The byte position of the end offset is the length of the kept batches. -/
theorem findBytePos_eq {seg : Segment} (valid : seg.Valid) (growing : Growing seg.batches)
    (more : ∀ batch ∈ extra, StoredBatch batch) (chained : Chained seg.stop extra) (present : extra ≠ [])
    {handle : SegmentStorage} (base : handle.baseOffset = seg.base)
    (size : handle.log.logSize = ((seg.batches ++ extra).flatten.length : Nat)) :
    findBytePosForOffset handle (seg.batches ++ extra).flatten seg.stop = (seg.bytes.length : Nat) := by
  obtain ⟨batch, rest, rfl⟩ := exists_cons_of_ne_nil present
  rw [findBytePosForOffset, base]
  by_cases empty : seg.batches = []
  · have stop : seg.stop = seg.base := by rw [Segment.stop, empty]; rfl
    rw [if_pos stop, Segment.bytes, empty]
    rfl
  · have inside := growing.between valid.chained
    have beyond : seg.base < seg.stop := growing.lt_lastEnd valid.chained empty
    have skipped : ∀ earlier ∈ seg.batches, baseOffsetOf earlier ≠ seg.stop := by
      intro earlier member
      have bounds := inside.2 earlier member
      have grows := growing earlier member
      have stop : seg.stop = lastEnd seg.base seg.batches := rfl
      omega
    have bound := flatten_length_le fun earlier member => (valid.stored earlier member).framed
    have target := more batch mem_cons_self
    have long := target.long
    have enough : seg.batches.length < (seg.batches ++ batch :: rest).flatten.length := by
      rw [flatten_append, flatten_cons, length_append, length_append]
      omega
    have found := findBytePosLoop_found rest valid.stored target skipped chained.1 [] _ enough
    rw [if_neg beyond.ne', size, Int.toNat_natCast]
    exact found

section
variable (allocates : cfg.Allocates) {seg : Segment} {rest : Bytes} {offset : Int}
  (frames : ∀ batch ∈ seg.batches, ScannedBatch batch) (found : disk.read (.log seg.base) = some (seg.bytes ++ rest))
  (position : ∀ handle : SegmentStorage, handle.baseOffset = seg.base →
    handle.log.logSize = ((seg.bytes ++ rest).length : Nat) →
    findBytePosForOffset handle (seg.bytes ++ rest) offset = (seg.bytes.length : Nat))
  {handle : SegmentStorage} (base : handle.baseOffset = seg.base)
include allocates frames found position base

/-- A writable log is cut behind the kept batches and indexed again. -/
theorem truncateWritable_run (log : handle.log = ⟨seg.base, (seg.bytes ++ rest).length, false⟩) :
    (do
      let file ← readFile (.log handle.baseOffset)
      let log ← handle.log.truncate (findBytePosForOffset handle file offset)
      rebuildSegmentIndexes cfg { handle with log := log } : StorageProgram SegmentStorage).run disk =
      (rebuilt cfg seg, .truncate (.log seg.base) seg.bytes.length :: restoreOps cfg seg.base) ∧
    (disk.apply (.truncate (.log seg.base) seg.bytes.length)).read (.log seg.base) = some seg.bytes := by
  have cut : (disk.apply (.truncate (.log seg.base) seg.bytes.length)).read (.log seg.base) = some seg.bytes :=
    read_truncate found
  have truncated : (handle.log.truncate (findBytePosForOffset handle (seg.bytes ++ rest) offset)).run
      disk = (.ok ⟨seg.base, seg.bytes.length, false⟩, [.truncate (.log seg.base) seg.bytes.length]) := by
    rw [position handle base (by rw [log]), log]
    rfl
  have rebuilding := @rebuildSegmentIndexes_run cfg allocates seg frames _ cut
    { handle with log := ⟨seg.base, seg.bytes.length, false⟩ } base rfl
  have file : (readFile (.log handle.baseOffset)).run disk = (.ok (seg.bytes ++ rest), []) := by
    rw [base]
    exact readFile_run found
  refine ⟨?_, cut⟩
  rw [bind_ok file, applyAll_nil, bind_ok truncated, applyAll_cons, applyAll_nil, rebuilding]
  rfl

/-- The cut segment is opened for writing, truncated and indexed again. -/
def truncateOps (cfg : StorageConfig) (seg : Segment) (wasSealed : Bool) : List (FileOp FileName) :=
  (if wasSealed then [.create (.log seg.base)] else []) ++
    .truncate (.log seg.base) seg.bytes.length :: restoreOps cfg seg.base

/-- A truncation keeps the batches in front and rebuilds both indexes. -/
theorem truncateSegment_run (writable : handle.isSealed = false →
      handle.log = ⟨seg.base, (seg.bytes ++ rest).length, false⟩) :
    (truncateSegment cfg handle offset).run disk =
      (rebuilt cfg seg, truncateOps cfg seg handle.isSealed) ∧
    (disk.applyAll (truncateOps cfg seg handle.isSealed)).read (.log seg.base) = some seg.bytes := by
  obtain ⟨content, lookup, data⟩ := read_eq_some.mp found
  cases status : handle.isSealed with
  | false =>
    obtain ⟨ran, cut⟩ := truncateWritable_run allocates frames found position base (writable status)
    have reopened : (reopenLog handle).run disk = (.ok handle, []) := by
      rw [reopenLog, status]
      rfl
    constructor
    · rw [truncateSegment, bind_ok reopened, applyAll_nil, ran]
      rfl
    · rw [truncateOps, if_neg Bool.false_ne_true, nil_append, applyAll_cons, read_log_restoreOps, cut]
  | true =>
    have created : (disk.apply (.create (.log seg.base))).read (.log seg.base) = some (seg.bytes ++ rest) :=
      read_eq_some.mpr ⟨content, by simp [lookup], data⟩
    obtain ⟨ran, cut⟩ := @truncateWritable_run cfg _ allocates seg rest offset frames created position
      { handle with log := ⟨seg.base, (seg.bytes ++ rest).length, false⟩, isSealed := false } base rfl
    have reopened : (reopenLog handle).run disk =
        (.ok { handle with log := ⟨seg.base, (seg.bytes ++ rest).length, false⟩, isSealed := false },
          [.create (.log seg.base)]) := by
      rw [reopenLog, if_pos status, base, bind_ok (openLogSegment_create created)]
      rfl
    constructor
    · rw [truncateSegment, bind_ok reopened, applyAll_cons, applyAll_nil, ran]
      rfl
    · simp only [truncateOps, if_true, applyAll_append, applyAll_cons, applyAll_nil]
      rw [read_log_restoreOps, cut]

end

theorem lookup_truncateOps (cfg : StorageConfig) {seg : Segment} {other : Int} (distinct : other ≠ seg.base)
    (wasSealed : Bool) (disk : StorageDisk) :
    (disk.applyAll (truncateOps cfg seg wasSealed)).lookup (.log other) = disk.lookup (.log other) ∧
      (disk.applyAll (truncateOps cfg seg wasSealed)).lookup (.index other) = disk.lookup (.index other) ∧
      (disk.applyAll (truncateOps cfg seg wasSealed)).lookup (.timeindex other) =
        disk.lookup (.timeindex other) := by
  cases wasSealed <;> simp [truncateOps, restoreOps, indexFileOps, indexOps, distinct]

/-- The longer log continues the active segment of the shorter one and may have rolled since. -/
structure PartitionLog.Extends (goal log : PartitionLog) (extra : List Bytes) (newer : List Segment) : Prop where
  split : log.segments = goal.closedSegs ++ ⟨goal.active.base, goal.active.batches ++ extra⟩ :: newer
  behind : ∀ seg ∈ newer, goal.next < seg.base
  rolled : newer ≠ [] → extra ≠ []

/-- The cut segment is the active one, or it was closed by a later roll. -/
theorem PartitionLog.Extends.shape (longer : goal.Extends log extra newer) :
    (newer = [] ∧ log.closedSegs = goal.closedSegs ∧
      log.active = ⟨goal.active.base, goal.active.batches ++ extra⟩) ∨
    ∃ front last, newer = front ++ [last] ∧
      log.closedSegs = goal.closedSegs ++ ⟨goal.active.base, goal.active.batches ++ extra⟩ :: front ∧
      log.active = last := by
  have ends := longer.split
  rw [segments] at ends
  rcases eq_nil_or_concat newer with none | ⟨front, last, shape⟩
  · rw [none] at ends
    obtain ⟨closed, active⟩ := append_inj' ends rfl
    exact .inl ⟨none, closed, (cons.inj active).1⟩
  · rw [shape, concat_eq_append, ← cons_append, ← append_assoc] at ends
    obtain ⟨closed, active⟩ := append_inj' ends rfl
    exact .inr ⟨front, last, by rw [shape, concat_eq_append], closed, (cons.inj active).1⟩

theorem PartitionLog.Extends.refl (log : PartitionLog) : log.Extends log [] [] :=
  ⟨by simp [segments], by simp, by simp⟩

/-- A pushed batch goes behind the end of the shorter log. -/
theorem PartitionLog.Extends.push (longer : goal.Extends log extra newer) (batch : Bytes) :
    ∃ extra newer, goal.Extends ⟨log.closedSegs, log.active.push batch⟩ extra newer ∧ extra ≠ [] := by
  rcases longer.shape with ⟨none, closedSegs, active⟩ | ⟨front, last, shape, closedSegs, active⟩
  · refine ⟨extra ++ [batch], [], ⟨?_, by simp, by simp⟩, by simp⟩
    rw [segments, closedSegs, active, Segment.push, append_assoc]
  · have rolled := longer.rolled (by rw [shape]; simp)
    refine ⟨extra, front ++ [last.push batch], ⟨?_, ?_, fun _ => rolled⟩, rolled⟩
    · rw [segments, closedSegs, active]
      simp
    · intro seg member
      rcases mem_append.mp member with old | new
      · exact longer.behind seg (by rw [shape]; exact mem_append_left _ old)
      · rw [mem_singleton.mp new]
        exact longer.behind last (by rw [shape]; simp)

/-- A new segment starts behind the end of the shorter log. -/
theorem PartitionLog.Extends.create (longer : goal.Extends log extra newer) (pushed : extra ≠ []) {base : Int}
    (moved : goal.next < base) :
    goal.Extends ⟨log.closedSegs ++ [log.active], ⟨base, []⟩⟩ extra (newer ++ [⟨base, []⟩]) := by
  refine ⟨?_, ?_, fun _ => pushed⟩
  · have split := longer.split
    rw [segments] at split
    rw [segments, split]
    simp
  · intro seg member
    rcases mem_append.mp member with old | new
    · exact longer.behind seg old
    · rw [mem_singleton.mp new]
      exact moved

/-- An append behind the end of the shorter log keeps that log recoverable. -/
theorem PartitionLog.Extends.append {goal log : PartitionLog} {extra : List Bytes} {newer : List Segment}
    (longer : goal.Extends log extra newer) (limit : Int) {batch : Bytes}
    (moved : goal.next < endOffsetOf (patchBaseOffset batch log.next)) :
    ∃ extra newer, goal.Extends (log.append limit batch) extra newer := by
  obtain ⟨more, later, pushed, present⟩ := longer.push (patchBaseOffset batch log.next)
  by_cases full : ((log.pushed batch).bytes.length : Int) ≥ limit
  · rw [append_full full]
    exact ⟨more, _, pushed.create present (by rw [Segment.push_stop]; exact moved)⟩
  · rw [append_room full]
    exact ⟨more, later, pushed⟩

theorem PartitionLog.Extends.bases (longer : goal.Extends log extra newer) :
    log.bases = goal.bases ++ newer.map Segment.base := by
  rw [PartitionLog.bases, longer.split]
  simp [PartitionLog.bases, segments]

/-- The removed and truncated files leave exactly the shorter log. -/
theorem DiskHolds.truncate (holds : DiskHolds indexed cfg disk log []) (formed : goal.Formed)
    (longer : goal.Extends log extra newer) (growing : Growing goal.active.batches) {wasSealed : Bool}
    (cut : ((disk.applyAll (removeOps (newer.map Segment.base))).applyAll
      (truncateOps cfg goal.active wasSealed)).read (.log goal.active.base) = some goal.active.bytes) :
    DiskHolds indexed cfg ((disk.applyAll (removeOps (newer.map Segment.base))).applyAll
      (truncateOps cfg goal.active wasSealed)) goal [] := by
  have start : goal.active.base ≤ goal.next := (growing.between formed.active.chained).1
  have kept : ∀ seg ∈ goal.closedSegs, seg.base ∉ newer.map Segment.base := by
    intro seg member removed
    obtain ⟨other, found, same⟩ := mem_map.mp removed
    have below := closed_lt_of_increasing formed.increasing member
    have above := longer.behind other found
    omega
  have logs : ∀ seg ∈ goal.closedSegs, seg ∈ log.closedSegs := by
    intro seg member
    rcases longer.shape with ⟨_, closed, _⟩ | ⟨front, last, _, closed, _⟩
    · rw [closed]
      exact member
    · rw [closed]
      exact mem_append_left _ member
  constructor
  · intro seg member
    obtain ⟨lookup, _, _⟩ := lookup_truncateOps cfg (formed.distinct seg member) wasSealed
      (disk.applyAll (removeOps (newer.map Segment.base)))
    obtain ⟨removal, _, _⟩ := lookup_removeOps (newer.map Segment.base) disk seg.base
    rw [← holds.closedLog seg (logs seg member)]
    exact read_congr (lookup.trans (removal.trans (if_neg (kept seg member))))
  · intro seg member
    obtain ⟨_, index, timeindex⟩ := lookup_truncateOps cfg (formed.distinct seg member) wasSealed
      (disk.applyAll (removeOps (newer.map Segment.base)))
    obtain ⟨_, removed, forgotten⟩ := lookup_removeOps (newer.map Segment.base) disk seg.base
    exact sealedFiles_congr (holds.closedIndex seg (logs seg member))
      (index.trans (removed.trans (if_neg (kept seg member))))
      (timeindex.trans (forgotten.trans (if_neg (kept seg member))))
  · rw [cut, append_nil]
  · intro base absent
    have other : base ≠ goal.active.base := fun same => absent (same ▸ goal.active_mem_bases)
    obtain ⟨lookup, index, timeindex⟩ := lookup_truncateOps cfg other wasSealed
      (disk.applyAll (removeOps (newer.map Segment.base)))
    obtain ⟨removal, removed, forgotten⟩ := lookup_removeOps (newer.map Segment.base) disk base
    by_cases deleted : base ∈ newer.map Segment.base
    · rw [if_pos deleted] at removal removed forgotten
      exact ⟨lookup.trans removal, index.trans removed, timeindex.trans forgotten⟩
    · have old := holds.others base (by
        rw [longer.bases]
        exact fun member => (mem_append.mp member).elim absent deleted)
      rw [if_neg deleted] at removal removed forgotten
      exact ⟨lookup.trans (removal.trans old.log), index.trans (removed.trans old.index),
        timeindex.trans (forgotten.trans old.timeindex)⟩

theorem sealedHandles_bases {handles : List SegmentStorage} {segs : List Segment}
    (related : List.Forall₂ (SealedHandle indexed cfg) handles segs) :
    handles.map baseOffset = segs.map Segment.base := by
  induction related with
  | nil => rfl
  | cons first _ ih => rw [map_cons, map_cons, first.base, ih]

/-- The storage splits its handles at the segment that holds the offset. -/
theorem Mounted.split (mounted : Mounted indexed cfg disk s log) (longer : goal.Extends log extra newer) :
    ∃ before handle later, s.segments = before ++ handle :: later ∧
      List.Forall₂ (SealedHandle indexed cfg) before goal.closedSegs ∧
      handle.baseOffset = goal.active.base ∧
      (handle.isSealed = false →
        handle.log = ⟨goal.active.base, (goal.active.batches ++ extra).flatten.length, false⟩) ∧
      handle.isSealed = !newer.isEmpty ∧ later.map baseOffset = newer.map Segment.base := by
  obtain ⟨closed, segments, handles⟩ := mounted.handles
  rcases longer.shape with ⟨none, closedSegs, active⟩ | ⟨front, last, shape, closedSegs, active⟩
  · refine ⟨closed, activeHandle cfg log.active, [], segments, closedSegs ▸ handles, ?_, ?_, ?_, ?_⟩
    · rw [active]
      rfl
    · intro _
      rw [active]
      rfl
    · rw [none]
      rfl
    · rw [none]
      rfl
  · rw [closedSegs] at handles
    have before := forall₂_take_append _ _ _ handles
    have rest := forall₂_drop_append _ _ _ handles
    obtain ⟨handle, later, found, others, shape'⟩ := forall₂_cons_right_iff.mp rest
    refine ⟨closed.take goal.closedSegs.length, handle, later ++ [activeHandle cfg log.active], ?_, before,
      found.base, ?_, ?_, ?_⟩
    · have parts := take_append_drop goal.closedSegs.length closed
      rw [shape'] at parts
      rw [segments, ← cons_append, ← append_assoc, parts]
    · intro open_
      rw [found.isSealed] at open_
      cases open_
    · rw [found.isSealed, shape]
      simp
    · rw [shape, map_append, map_append, sealedHandles_bases others, active]
      rfl

def StorageImpl.truncated (s : StorageImpl) (cfg : StorageConfig) (goal : PartitionLog) : StorageImpl :=
  { s with
    segments := s.segments.take goal.closedSegs.length ++ [activeHandle cfg goal.active]
    nextOffset := goal.next }

/-- A truncation removes the segments behind the last one that starts at or before the offset and cuts this one. -/
theorem truncateTo_place {s : StorageImpl} {before later : List SegmentStorage} {handle : SegmentStorage} {offset : Int}
    {cut : Except GoError SegmentStorage} {ops : List (FileOp FileName)}
    (segments : s.segments = before ++ handle :: later)
    (starts : handle.baseOffset ≤ offset) (behind : ∀ other ∈ later, offset < other.baseOffset)
    (above : offset < s.nextOffset)
    (truncated : (truncateSegment cfg handle offset).run
      (disk.applyAll (removeOps (later.map baseOffset))) = (cut, ops)) :
    (s.truncateTo cfg offset).run disk =
      (cut.map fun active => { s with segments := before ++ [active], nextOffset := offset },
        removeOps (later.map baseOffset) ++ ops) := by
  have place : truncationPlace s.segments offset (s.segments.length - 1) = before.length := by
    rw [segments, length_append, length_cons]
    exact truncationPlace_eq starts behind le_rfl
  have getHandle : s.segments[before.length]? = some handle := by
    rw [segments, List.getElem?_append_right (le_refl _), Nat.sub_self]
    rfl
  have tail : s.segments.drop (before.length + 1) = later := by
    rw [segments, drop_append, drop_eq_nil_of_le (by omega), nil_append, Nat.add_sub_cancel_left]
    rfl
  have head : s.segments.take before.length = before := by
    rw [segments, take_left]
  rw [truncateTo, if_neg above.ne, if_neg (by omega), place]
  simp only [getHandle, tail, head]
  rw [bind_ok (removeSegments_run later disk), bind_pure_run truncated]

section
variable (indexable : cfg.Indexable) (mounted : Mounted indexed cfg disk s log) (formed : goal.Formed)
  (growing : Growing goal.active.batches) (longer : goal.Extends log extra newer) (above : goal.next < log.next)
include indexable mounted formed growing longer above

/-- A truncation to the end of a shorter log keeps its batches and rebuilds the index of its active segment. -/
theorem Mounted.truncateTo_steps :
    (s.truncateTo cfg goal.next).run disk =
        ((rebuilt cfg goal.active).map fun active =>
            { s with
              segments := s.segments.take goal.closedSegs.length ++ [active]
              nextOffset := goal.next },
          removeOps (newer.map Segment.base) ++ truncateOps cfg goal.active (!newer.isEmpty)) ∧
      List.Forall₂ (SealedHandle indexed cfg) (s.segments.take goal.closedSegs.length) goal.closedSegs ∧
      DiskHolds indexed cfg (disk.applyAll
        (removeOps (newer.map Segment.base) ++ truncateOps cfg goal.active (!newer.isEmpty))) goal [] := by
  obtain ⟨before, handle, later, segments, handles, base, writable, status, bases⟩ := mounted.split longer
  rw [← status]
  have start : goal.active.base ≤ goal.next := (growing.between formed.active.chained).1
  have cutValid : Segment.Valid ⟨goal.active.base, goal.active.batches ++ extra⟩ :=
    mounted.formed.segment _ (by rw [longer.split]; simp)
  have more : ∀ batch ∈ extra, StoredBatch batch :=
    fun batch member => cutValid.stored batch (mem_append_right _ member)
  have chained : Chained goal.active.stop extra := (chained_append.mp cutValid.chained).2
  have present : extra ≠ [] := by
    intro none
    rcases longer.shape with ⟨_, _, active⟩ | ⟨front, last, shape, _, _⟩
    · rw [none, append_nil] at active
      rw [PartitionLog.next, PartitionLog.next, active] at above
      exact lt_irrefl _ above
    · exact longer.rolled (by rw [shape]; simp) none
  have behind : ∀ other ∈ later, goal.next < other.baseOffset := by
    intro other member
    have found : other.baseOffset ∈ newer.map Segment.base := bases ▸ mem_map_of_mem member
    obtain ⟨seg, inside, same⟩ := mem_map.mp found
    exact same ▸ longer.behind seg inside
  have stored : disk.read (.log goal.active.base) = some (goal.active.batches ++ extra).flatten := by
    rcases longer.shape with ⟨_, _, active⟩ | ⟨front, last, _, closedSegs, _⟩
    · have found := mounted.holds.activeLog
      rw [active, append_nil] at found
      exact found
    · exact mounted.holds.closedLog ⟨goal.active.base, goal.active.batches ++ extra⟩ (by rw [closedSegs]; simp)
  have untouched : goal.active.base ∉ newer.map Segment.base := by
    intro member
    obtain ⟨seg, inside, same⟩ := mem_map.mp member
    have later := longer.behind seg inside
    omega
  have found : (disk.applyAll (removeOps (newer.map Segment.base))).read (.log goal.active.base) =
      some (goal.active.bytes ++ extra.flatten) := by
    rw [Segment.bytes, ← flatten_append, ← stored]
    exact read_congr ((lookup_removeOps _ disk _).1.trans (if_neg untouched))
  have position : ∀ other : SegmentStorage, other.baseOffset = goal.active.base →
      other.log.logSize = ((goal.active.bytes ++ extra.flatten).length : Nat) →
      findBytePosForOffset other (goal.active.bytes ++ extra.flatten) goal.next = (goal.active.bytes.length : Nat) := by
    intro other same size
    rw [Segment.bytes, ← flatten_append] at size ⊢
    exact findBytePos_eq formed.active growing more chained present same size
  rw [flatten_append] at writable
  obtain ⟨truncated, cut⟩ := truncateSegment_run indexable.allocates
    (fun batch member => (formed.active.stored batch member).scanned) found position base writable
  rw [← bases] at truncated
  have ran := truncateTo_place segments (base ▸ start) behind (mounted.next ▸ above) truncated
  have head : s.segments.take before.length = before := by
    rw [segments, take_left]
  rw [bases] at ran
  rw [← handles.length_eq, head]
  refine ⟨ran, handles, ?_⟩
  rw [applyAll_append]
  exact mounted.holds.truncate formed longer growing cut

/-- A truncation to the end of a shorter log whose entries fit restores that log. -/
theorem Mounted.truncateTo_eq (room : Mappable cfg goal.active) :
    (s.truncateTo cfg goal.next).run disk =
        (.ok (s.truncated cfg goal), removeOps (newer.map Segment.base) ++
          truncateOps cfg goal.active (!newer.isEmpty)) ∧
      Mounted indexed cfg (disk.applyAll
        (removeOps (newer.map Segment.base) ++ truncateOps cfg goal.active (!newer.isEmpty))) (s.truncated cfg goal)
        goal := by
  obtain ⟨ran, handles, holds⟩ := mounted.truncateTo_steps indexable formed growing longer above
  rw [rebuilt, if_pos room] at ran
  refine ⟨ran, formed, ⟨_, rfl, handles⟩, rfl, mounted.opened, holds, ?_⟩
  rw [applyAll_append, truncateOps, applyAll_append, applyAll_cons, restoreOps, applyAll_cons, applyAll_cons]
  exact indexFiles_indexFileOps cfg _ _

end

section
variable (indexable : cfg.Indexable) (rep : Represents indexed cfg disk s log)
  (valid : goal.Valid cfg.segmentMaxBytes) (growing : Growing goal.active.batches)
  (longer : goal.Extends log extra newer) (above : goal.next < log.next)
include indexable rep valid growing longer above

/-- A truncation to the end of a shorter log restores that log. -/
theorem truncateTo_eq :
    (s.truncateTo cfg goal.next).run disk =
        (.ok (s.truncated cfg goal), removeOps (newer.map Segment.base) ++
          truncateOps cfg goal.active (!newer.isEmpty)) ∧
      Represents indexed cfg (disk.applyAll
        (removeOps (newer.map Segment.base) ++ truncateOps cfg goal.active (!newer.isEmpty))) (s.truncated cfg goal)
        goal := by
  obtain ⟨ran, after⟩ := rep.mounted.truncateTo_eq indexable valid.formed growing longer above
    (mappable_of_slack indexable valid.slack)
  exact ⟨ran, after.represents valid⟩

theorem truncateTo_run :
    ∃ left, (s.truncateTo cfg goal.next).run disk =
        (.ok left, removeOps (newer.map Segment.base) ++ truncateOps cfg goal.active (!newer.isEmpty)) ∧
      Represents indexed cfg (disk.applyAll
        (removeOps (newer.map Segment.base) ++ truncateOps cfg goal.active (!newer.isEmpty))) left goal :=
  ⟨_, truncateTo_eq indexable rep valid growing longer above⟩

end

end

end BunnyMQ.Storage
