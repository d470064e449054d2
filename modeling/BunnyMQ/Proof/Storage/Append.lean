/-
This file shows that an append of the storage is an append of the partition log.
-/

import BunnyMQ.Proof.Storage.Representation

namespace BunnyMQ.Storage
open Foundation FileStore Framing StorageImpl Program
variable {batch : Bytes}

section
variable {indexed : Prop} {cfg : StorageConfig} {disk : StorageDisk} {s : StorageImpl} {log : PartitionLog}

theorem sealedHandle_of_active (indexed : Prop) (cfg : StorageConfig) (seg : Segment) :
    SealedHandle indexed cfg (sealHandle (activeHandle cfg seg)) seg :=
  ⟨rfl, rfl, rfl, rfl, fun _ => ⟨rfl, rfl⟩, fun _ => ⟨rfl, rfl⟩⟩

/-- The seal leaves a directory in which the active segment may be closed. -/
theorem DiskHolds.seal (holds : DiskHolds indexed cfg disk log [])
    (distinct : ∀ seg ∈ log.closedSegs, seg.base ≠ log.active.base) :
    DiskHolds indexed cfg (disk.applyAll (sealOps (activeHandle cfg log.active))) log [] :=
  holds.transfer distinct (read_log_sealOps _ disk)
    (fun _ other => (lookup_index_sealOps _ disk other).1) (fun _ other => (lookup_index_sealOps _ disk other).2)

/-- The files of a new segment complete a roll. -/
theorem DiskHolds.newSegment (holds : DiskHolds indexed cfg disk log [])
    (files : SealedFiles indexed cfg disk log.active) {base : Int}
    (formed : PartitionLog.Formed ⟨log.closedSegs ++ [log.active], ⟨base, []⟩⟩) :
    DiskHolds indexed cfg (disk.applyAll (newSegmentOps cfg base))
      ⟨log.closedSegs ++ [log.active], ⟨base, []⟩⟩ [] := by
  rw [newSegmentOps, applyAll_cons]
  exact (holds.create files formed.fresh).transfer formed.distinct
    (fun other => read_congr (read_log_indexFileOps cfg base _ other))
    (fun _ other => (lookup_index_indexFileOps cfg other _).1)
    (fun _ other => (lookup_index_indexFileOps cfg other _).2)

/-- The storage once its active segment is written. -/
def StorageImpl.pushed (s : StorageImpl) (cfg : StorageConfig) (active : Segment) : StorageImpl :=
  { s with segments := s.segments.dropLast ++ [activeHandle cfg active], nextOffset := active.stop }

/-- The storage once its active segment is sealed and the next one is created. -/
def StorageImpl.rolled (s : StorageImpl) (cfg : StorageConfig) (active : Segment) : StorageImpl :=
  { s with segments := s.segments.dropLast ++
    [sealHandle (activeHandle cfg active), activeHandle cfg ⟨active.stop, []⟩] }

/-- A roll seals the active segment and creates the next one where none exists. -/
theorem roll_eq (indexable : cfg.Indexable) {active : Segment} (mappable : Mappable cfg active)
    (last : s.segments.getLast? = some (activeHandle cfg active)) (next : s.nextOffset = active.stop)
    (vacant : Vacant (disk.applyAll (sealOps (activeHandle cfg active))) active.stop) :
    (s.roll cfg).run disk =
      (.ok (s.rolled cfg active), sealOps (activeHandle cfg active) ++ newSegmentOps cfg active.stop) := by
  rw [roll, last]
  simp only
  rw [bind_ok (activeHandle_seal mappable _), next, bind_ok (newSegmentStorage_run indexable vacant)]
  simp only [pure_run, List.append_nil, StorageImpl.rolled, next]

/-- The rolled storage holds the log with its active segment closed. -/
theorem rolled_mounted {closed : List SegmentStorage}
    (handles : List.Forall₂ (SealedHandle indexed cfg) closed log.closedSegs)
    (segments : s.segments = closed ++ [activeHandle cfg log.active]) (next : s.nextOffset = log.next)
    (opened : s.closed = false) (holds : DiskHolds indexed cfg disk log [])
    (distinct : ∀ seg ∈ log.closedSegs, seg.base ≠ log.active.base)
    (files : IndexFiles disk log.active.base)
    (formed : PartitionLog.Formed ⟨log.closedSegs ++ [log.active], ⟨log.next, []⟩⟩) :
    Mounted indexed cfg (disk.applyAll (sealOps (activeHandle cfg log.active) ++ newSegmentOps cfg log.next))
      (s.rolled cfg log.active) ⟨log.closedSegs ++ [log.active], ⟨log.next, []⟩⟩ := by
  refine ⟨formed, ⟨closed ++ [sealHandle (activeHandle cfg log.active)], ?_, ?_⟩, next, opened, ?_, ?_⟩
  · rw [StorageImpl.rolled, segments, List.dropLast_concat, List.append_assoc]
    rfl
  · exact List.rel_append handles (List.Forall₂.cons (sealedHandle_of_active indexed cfg log.active) .nil)
  · rw [applyAll_append]
    exact (holds.seal distinct).newSegment (sealedFiles_sealOps cfg files indexed) formed
  · rw [applyAll_append, newSegmentOps, applyAll_cons]
    exact indexFiles_indexFileOps cfg _ _

/-- An append is one write to the active log and, once the segment is full, a roll. -/
theorem Mounted.append_steps (indexable : cfg.Indexable) (mounted : Mounted indexed cfg disk s log)
    (spare : SpareSlot cfg log.active) (stored : StoredBatch batch) (other : StorageDisk) :
    (s.append cfg batch).run other =
      (perform (.append (.log log.active.base) (patchBaseOffset batch log.next)) >>= fun _ =>
        if ((log.pushed batch).bytes.length : Int) ≥ cfg.segmentMaxBytes then
          (s.pushed cfg (log.pushed batch)).roll cfg >>= fun rolled => pure (log.next, rolled)
        else pure (log.next, s.pushed cfg (log.pushed batch))).run other := by
  have long := stored.long
  have length := patch_length (by omega : 8 ≤ batch.length) log.next
  have moved : int64 (log.next + recordCountOf (patchBaseOffset batch log.next)) = (log.pushed batch).stop := by
    have range : int64 log.next = log.next := mounted.formed.active.stop_range
    rw [Segment.push_stop, endOffsetOf, baseOffsetOf_patch, range]
  have written := activeHandle_append indexable spare
    (show 38 ≤ (patchBaseOffset batch log.next).length by omega) other
  rw [StorageImpl.append, if_neg (by rw [mounted.opened]; decide), if_neg (by omega), mounted.getLast]
  simp only [mounted.next, moved]
  rw [bind_ok written]
  rfl

theorem Represents.spare (indexable : cfg.Indexable) (rep : Represents indexed cfg disk s log) :
    SpareSlot cfg log.active :=
  spareSlot_of_slack indexable rep.valid.slack

theorem Represents.mappable_pushed (indexable : cfg.Indexable) (rep : Represents indexed cfg disk s log)
    (batch : Bytes) : Mappable cfg (log.pushed batch) :=
  mappable_of_count indexable ((rep.spare indexable).push (indexable.sampled_lt rep.valid.slack).le _)

/-- Without a free slot the append writes the batch and then fails. -/
theorem Mounted.append_full (mounted : Mounted indexed cfg disk s log) (full : ¬ SpareSlot cfg log.active)
    (stored : StoredBatch batch) (other : StorageDisk) :
    (s.append cfg batch).run other =
      (.error errIndexFull, [.append (.log log.active.base) (patchBaseOffset batch log.next)]) := by
  have long := stored.long
  have length := patch_length (by omega : 8 ≤ batch.length) log.next
  have refused := activeHandle_append_full full (show 38 ≤ (patchBaseOffset batch log.next).length by omega) other
  rw [StorageImpl.append, if_neg (by rw [mounted.opened]; decide), if_neg (by omega), mounted.getLast]
  simp only [mounted.next]
  exact bind_error refused _

def StorageImpl.appended (s : StorageImpl) (cfg : StorageConfig) (log : PartitionLog) (batch : Bytes) : StorageImpl :=
  let active := log.active.push (patchBaseOffset batch log.next)
  if (active.bytes.length : Int) ≥ cfg.segmentMaxBytes then (s.pushed cfg active).rolled cfg active
  else s.pushed cfg active

/-- An append assigns the next offset and rolls a full segment where no segment stands yet. -/
theorem Mounted.append_runs (indexable : cfg.Indexable) (mounted : Mounted indexed cfg disk s log)
    (spare : SpareSlot cfg log.active) (few : (entryCount cfg log.active : Int) ≤ cfg.maxEntries)
    (stored : StoredBatch batch)
    (vacant : ((log.pushed batch).bytes.length : Int) ≥ cfg.segmentMaxBytes →
      Vacant ((disk.apply (.append (.log log.active.base) (patchBaseOffset batch log.next))).applyAll
        (sealOps (activeHandle cfg (log.pushed batch)))) (log.pushed batch).stop) :
    (s.append cfg batch).run disk = (.ok (log.next, s.appended cfg log batch), appendOps cfg log batch) := by
  rw [mounted.append_steps indexable spare stored disk]
  unfold appendOps StorageImpl.appended PartitionLog.pushed PartitionLog.next at *
  generalize patchBaseOffset batch log.active.stop = patched at *
  rw [perform_bind]
  by_cases full : ((log.active.push patched).bytes.length : Int) ≥ cfg.segmentMaxBytes
  · have rolled := roll_eq indexable (s := s.pushed cfg (log.active.push patched))
      (mappable_of_count indexable (spare.push few patched))
      (by rw [StorageImpl.pushed, List.getLast?_concat]) rfl (vacant full)
    simp only [if_pos full]
    rw [bind_ok rolled, pure_run, List.append_nil]
  · simp only [if_neg full]
    rfl

/-- An append leaves a storage that holds the longer log. -/
theorem Mounted.append_eq (indexable : cfg.Indexable) (mounted : Mounted indexed cfg disk s log)
    (spare : SpareSlot cfg log.active) (few : (entryCount cfg log.active : Int) ≤ cfg.maxEntries)
    (stored : StoredBatch batch)
    (advances : cfg.segmentMaxBytes ≤ log.active.bytes.length + batch.length →
      log.active.base < endOffsetOf (patchBaseOffset batch log.next)) :
    (s.append cfg batch).run disk = (.ok (log.next, s.appended cfg log batch), appendOps cfg log batch) ∧
      Mounted indexed cfg (disk.applyAll (appendOps cfg log batch)) (s.appended cfg log batch)
        (log.append cfg.segmentMaxBytes batch) := by
  obtain ⟨closed, segments, handles⟩ := mounted.handles
  have formed := mounted.formed.append stored advances
  have pushed := mounted.holds.push mounted.formed.distinct (patchBaseOffset batch log.next)
  have ran : (s.append cfg batch).run disk = _ :=
    mounted.append_runs indexable spare few stored fun full => by
      rw [PartitionLog.append_full full] at formed
      exact ((pushed.seal mounted.formed.distinct).others _ formed.fresh).vacant
  refine ⟨ran, ?_⟩
  revert formed pushed
  unfold PartitionLog.append appendOps StorageImpl.appended
  generalize patchBaseOffset batch log.next = patched
  intro formed pushed
  have files : IndexFiles (disk.apply (.append (.log log.active.base) patched)) (log.active.push patched).base :=
    ⟨by simpa [Segment.push] using mounted.files.index, by simpa [Segment.push] using mounted.files.timeindex⟩
  have kept : (s.pushed cfg (log.active.push patched)).segments =
      closed ++ [activeHandle cfg (log.active.push patched)] := by
    rw [StorageImpl.pushed, segments, List.dropLast_concat]
  simp only at formed ⊢
  by_cases full : ((log.active.push patched).bytes.length : Int) ≥ cfg.segmentMaxBytes
  · rw [if_pos full] at formed
    simp only [if_pos full]
    exact @rolled_mounted indexed cfg _ (s.pushed cfg (log.active.push patched))
      ⟨log.closedSegs, log.active.push patched⟩ closed handles kept rfl mounted.opened pushed mounted.formed.distinct
      files formed
  · rw [if_neg full] at formed
    simp only [if_neg full]
    exact ⟨formed, ⟨closed, kept, handles⟩, rfl, mounted.opened, pushed, files⟩

section
variable (indexable : cfg.Indexable) (rep : Represents indexed cfg disk s log) (stored : StoredBatch batch)
  (advances : cfg.segmentMaxBytes ≤ log.active.bytes.length + batch.length →
    log.active.base < endOffsetOf (patchBaseOffset batch log.next))
include indexable rep stored advances

/-- Below its limit the storage represents the longer log. -/
theorem append_eq :
    (s.append cfg batch).run disk = (.ok (log.next, s.appended cfg log batch), appendOps cfg log batch) ∧
      Represents indexed cfg (disk.applyAll (appendOps cfg log batch)) (s.appended cfg log batch)
        (log.append cfg.segmentMaxBytes batch) := by
  obtain ⟨ran, after⟩ := rep.mounted.append_eq indexable (rep.spare indexable)
    (indexable.sampled_lt rep.valid.slack).le stored advances
  exact ⟨ran, after.represents (rep.valid.append indexable.segment stored advances)⟩

theorem append_run :
    ∃ left, (s.append cfg batch).run disk = (.ok (log.next, left), appendOps cfg log batch) ∧
      Represents indexed cfg (disk.applyAll (appendOps cfg log batch)) left
        (log.append cfg.segmentMaxBytes batch) :=
  ⟨_, append_eq indexable rep stored advances⟩

end

end

section
variable {cfg : StorageConfig} {disk : StorageDisk} {s left : StorageImpl} {ops : List (FileOp FileName)}

theorem roll_nextOffset (ran : (s.roll cfg).run disk = (.ok left, ops)) : left.nextOffset = s.nextOffset := by
  unfold StorageImpl.roll at ran
  split at ran
  · cases ran
  · obtain ⟨_, _, _, _, rest, _⟩ := bind_run_ok ran
    obtain ⟨_, _, _, _, finished, _⟩ := bind_run_ok rest
    cases finished
    rfl

/-- A segment writes the batch before anything else. -/
theorem segment_append_writes {seg after : SegmentStorage} {position : Int}
    (ran : (seg.append cfg batch).run disk = (.ok (position, after), ops)) :
    ∃ later, ops = .append (.log seg.log.baseOffset) batch :: later := by
  obtain ⟨_, before, behind, written, _, rfl⟩ := bind_run_ok ran
  unfold LogSegment.append at written
  split at written
  · cases written
  · cases written
    exact ⟨behind, rfl⟩

/-- A successful append writes the batch under the next offset and advances this offset by the record count. -/
theorem append_ok {base : Int} (ran : (s.append cfg batch).run disk = (.ok (base, left), ops)) :
    base = s.nextOffset ∧ left.nextOffset = int64 (base + recordCountOf batch) ∧
      ∃ active ∈ s.segments.getLast?, ∃ later,
        ops = .append (.log active.log.baseOffset) (patchBaseOffset batch base) :: later := by
  unfold StorageImpl.append at ran
  split at ran
  · cases ran
  split at ran
  · cases ran
  split at ran
  · cases ran
  next active last =>
  obtain ⟨⟨_, after⟩, before, behind, written, rest, rfl⟩ := bind_run_ok ran
  obtain ⟨later, rfl⟩ := segment_append_writes written
  simp only [recordCountOf_patch] at rest
  split at rest
  · obtain ⟨rolled, _, _, rolling, finished, rfl⟩ := bind_run_ok rest
    have kept := roll_nextOffset rolling
    cases finished
    exact ⟨rfl, kept, active, last, _, rfl⟩
  · cases rest
    exact ⟨rfl, rfl, active, last, _, rfl⟩

end

end BunnyMQ.Storage
