/-
This file describes every directory that a crash inside a recovery can leave.
-/

import BunnyMQ.Proof.Storage.Deletion
import BunnyMQ.Proof.Storage.Stray

namespace BunnyMQ.Storage
open Foundation FileStore StorageImpl List
variable {tail : Bytes} {extra : List Bytes}

namespace PartitionLog

/-- Every closed segment was below the limit until its last batch. -/
def Tight (limit : Int) (log : PartitionLog) : Prop :=
  ∀ seg ∈ log.closedSegs, (seg.batches.dropLast.flatten.length : Int) < limit

/-- The segments determine the log. -/
theorem eq_of_segments {first second : PartitionLog} (same : first.segments = second.segments) : first = second := by
  obtain ⟨closed, active⟩ := append_inj' same rfl
  cases first
  cases second
  exact congrArg₂ PartitionLog.mk closed (cons.inj active).1

theorem exists_segments {segs : List Segment} (present : segs ≠ []) : ∃ log : PartitionLog, log.segments = segs :=
  ⟨⟨segs.dropLast, segs.getLast present⟩, dropLast_append_getLast present⟩

variable {limit : Int} {log shorter : PartitionLog}

/-- A segment below another one is closed. -/
theorem Valid.mem_closed (valid : log.Valid limit) {seg other : Segment} (member : seg ∈ log.segments)
    (listed : other ∈ log.segments) (below : seg.base < other.base) : seg ∈ log.closedSegs := by
  rcases mem_append.mp member with closed | last
  · exact closed
  · exfalso
    rw [mem_singleton.mp last] at below
    rcases mem_append.mp listed with closed | same
    · have earlier := closed_lt_of_increasing valid.increasing closed
      omega
    · rw [mem_singleton.mp same] at below
      exact lt_irrefl _ below

/-- What is closed in a part of the log is closed in the whole log. -/
theorem Valid.closed_of_sublist (valid : log.Valid limit) (part : shorter.segments.Sublist log.segments)
    {seg : Segment} (member : seg ∈ shorter.closedSegs) : seg ∈ log.closedSegs := by
  have increasing : shorter.bases.Pairwise (· < ·) := valid.increasing.sublist (part.map _)
  refine valid.mem_closed (part.subset (mem_append_left _ member))
    (part.subset (mem_append_right _ (mem_singleton_self shorter.active))) ?_
  exact closed_lt_of_increasing increasing member

theorem Tight.sublist (tight : log.Tight limit) (valid : log.Valid limit)
    (part : shorter.segments.Sublist log.segments) : shorter.Tight limit :=
  fun seg member => tight seg (valid.closed_of_sublist part member)

/-- Any part of a tight log is well formed, whichever of its segments becomes the active one. -/
theorem Valid.sublist (valid : log.Valid limit) (tight : log.Tight limit)
    (part : shorter.segments.Sublist log.segments) : shorter.Valid limit where
  segment seg member := valid.segment seg (part.subset member)
  increasing := valid.increasing.sublist (part.map _)
  slack := by
    have member : shorter.active ∈ log.segments := part.subset (mem_append_right _ (mem_singleton_self _))
    rcases mem_append.mp member with closed | last
    · exact tight _ closed
    · rw [mem_singleton.mp last]
      exact valid.slack

theorem Tight.append (tight : log.Tight limit) (room : log.HasRoom limit) (batch : Bytes) :
    (log.append limit batch).Tight limit := by
  by_cases full : ((log.pushed batch).bytes.length : Int) ≥ limit
  · rw [append_full full]
    intro seg member
    rcases mem_append.mp member with closed | last
    · exact tight seg closed
    · rw [mem_singleton.mp last, pushed, Segment.push, dropLast_concat]
      exact room
  · rw [append_room full]
    exact tight

end PartitionLog

section
variable {indexed : Prop} {cfg : StorageConfig} {disk left : StorageDisk} {goal log shorter : PartitionLog}

/-- The log files hold the bytes of their segments. -/
theorem DiskHolds.file (holds : DiskHolds indexed cfg disk log []) {seg : Segment} (member : seg ∈ log.segments) :
    disk.read (.log seg.base) = some seg.bytes := by
  rcases mem_append.mp member with closed | last
  · exact holds.closedLog seg closed
  · have bytes := holds.activeLog
    rw [append_nil] at bytes
    rw [mem_singleton.mp last]
    exact bytes

/-- A log file holds the batches that a scan finds in it. -/
theorem DiskHolds.segments_eq {limit : Int} (holds : DiskHolds indexed cfg disk log []) (valid : log.Valid limit) :
    log.segments = (logBases disk).map fun base =>
      ⟨base, (LogSegment.scan ⟨base, (((disk.read (.log base)).getD []).length : Nat), true⟩
        ((disk.read (.log base)).getD []) 0).map Prod.fst⟩ := by
  rw [holds.logBases_eq valid.formed, PartitionLog.bases, map_map]
  refine (map_id _).symm.trans (map_congr_left fun seg member => ?_)
  have found := holds.file member
  have scanned : LogSegment.scan ⟨seg.base, (seg.bytes.length : Nat), true⟩ seg.bytes 0 = placed 0 seg.batches :=
    scan_zero (fun batch listed => ((valid.segment seg member).stored batch listed).framed) rfl
  rw [Function.comp, found, Option.getD_some, scanned, placed_map_fst]
  rfl

/-- A directory holds at most one log. -/
theorem DiskHolds.unique {limit : Int} {other : Prop} (holds : DiskHolds indexed cfg disk log [])
    (valid : log.Valid limit) (again : DiskHolds other cfg disk shorter []) (validAgain : shorter.Valid limit) :
    log = shorter :=
  PartitionLog.eq_of_segments ((holds.segments_eq valid).trans (again.segments_eq validAgain).symm)

/-- The directory holds a tight log with exact index files. -/
def ExactImage (cfg : StorageConfig) (disk : StorageDisk) : Prop :=
  ∃ log, log.Valid cfg.segmentMaxBytes ∧ log.Tight cfg.segmentMaxBytes ∧ DiskHolds True cfg disk log []

/-- Every directory on the way through a roll holds a tight log with exact index files. -/
theorem roll_exact (valid : log.Valid cfg.segmentMaxBytes) (tight : log.Tight cfg.segmentMaxBytes)
    (holds : DiskHolds True cfg disk log []) (files : IndexFiles disk log.active.base)
    (rolled : PartitionLog.Valid cfg.segmentMaxBytes ⟨log.closedSegs ++ [log.active], ⟨log.next, []⟩⟩)
    (closed : PartitionLog.Tight cfg.segmentMaxBytes ⟨log.closedSegs ++ [log.active], ⟨log.next, []⟩⟩) :
    Along (ExactImage cfg) disk (sealOps (activeHandle cfg log.active) ++ newSegmentOps cfg log.next) := by
  have final := holds.seal valid.distinct
  have created := final.create (sealedFiles_sealOps cfg files True) rolled.fresh
  refine along_append.mpr ⟨?_, along_cons.mpr ⟨⟨log, valid, tight, final⟩, ?_⟩⟩
  · obtain ⟨ops, split, only⟩ := sealOps_split cfg log.active
    have along := along_indexOnly only disk
    rw [split, applyAll_append, applyAll_cons, applyAll_nil] at final
    rw [split]
    refine along_append.mpr ⟨?_, along_cons.mpr ⟨?_, along_nil.mpr ⟨log, valid, tight, final⟩⟩⟩
    · exact along.mono fun image same => ⟨log, valid, tight, holds.indexOnly valid.distinct same⟩
    · exact ⟨log, valid, tight, holds.indexOnly valid.distinct along.final⟩
  · exact (along_indexOnly (indexFileOps_only cfg log.next) _).mono fun image same =>
      ⟨_, rolled, closed, created.indexOnly rolled.distinct same⟩

/-- Every directory on the way through an append holds a tight log with exact index files. -/
theorem appendOps_exact (indexable : cfg.Indexable) {s : StorageImpl} (rep : Represents True cfg disk s log)
    (tight : log.Tight cfg.segmentMaxBytes) (room : log.HasRoom cfg.segmentMaxBytes) {batch : Bytes}
    (stored : StoredBatch batch) (start : log.active.base < endOffsetOf (patchBaseOffset batch log.next)) :
    Along (ExactImage cfg) disk (appendOps cfg log batch) := by
  have range : int64 log.next = log.next := rep.valid.active.stop_range
  have starts : baseOffsetOf (patchBaseOffset batch log.next) = log.next := by
    rw [baseOffsetOf_patch, range]
  have valid := rep.valid.push room (stored.patch log.next) starts
  have rolled := rep.valid.append indexable.segment stored fun _ => start
  have closed := tight.append room batch
  have pushed := rep.holds.push rep.valid.distinct (patchBaseOffset batch log.next)
  have files : IndexFiles (disk.apply (.append (.log log.active.base) (patchBaseOffset batch log.next)))
      log.active.base := ⟨by simpa using rep.files.index, by simpa using rep.files.timeindex⟩
  have before : ExactImage cfg disk := ⟨log, rep.valid, tight, rep.holds⟩
  by_cases full : ((log.pushed batch).bytes.length : Int) ≥ cfg.segmentMaxBytes
  · rw [PartitionLog.append_full full] at rolled closed
    rw [appendOps_full full]
    exact along_cons.mpr ⟨before, @roll_exact cfg _ ⟨log.closedSegs, log.pushed batch⟩
      valid tight pushed files rolled closed⟩
  · rw [appendOps_room full]
    exact along_cons.mpr ⟨before, along_nil.mpr ⟨_, valid, tight, pushed⟩⟩

/-- The name belongs to an index file of the segment. -/
def IndexOf (base : Int) (name : FileName) : Prop := name = .index base ∨ name = .timeindex base

theorem indexOf_only (base : Int) : IndexesOnly (IndexOf base) := fun _ named => ⟨base, named⟩

theorem indexOf_shown {base other : Int} (distinct : other ≠ base) : Shown (IndexOf base) other :=
  shown_of_apart fun _ named => ⟨base, named, distinct.symm⟩

/-- Apart from index files of one missing segment, the directory holds a log that continues the recorded one. -/
structure Interrupted (cfg : StorageConfig) (goal : PartitionLog) (disk clean : StorageDisk) (base : Int)
    (log : PartitionLog) (tail : Bytes) : Prop where
  agree : AgreeOff (IndexOf base) disk clean
  apart : base ∉ log.bases
  valid : log.Valid cfg.segmentMaxBytes
  holds : DiskHolds True cfg clean log tail
  torn : Framing.next recoveryFormat tail = none
  recoverable : Recoverable goal log

def InterruptedImage (cfg : StorageConfig) (goal : PartitionLog) (disk : StorageDisk) : Prop :=
  ∃ clean base log tail, Interrupted cfg goal disk clean base log tail

/-- The log files are exactly those of the log. -/
theorem Interrupted.missing_iff {clean : StorageDisk} {base : Int}
    (interrupted : Interrupted cfg goal disk clean base log tail) (other : Int) :
    disk.lookup (.log other) = none ↔ other ∉ log.bases := by
  rw [interrupted.agree _ ((indexOf_only base).log other), ← interrupted.holds.logBases_eq interrupted.valid.formed,
    mem_logBases]
  cases clean.lookup (.log other) <;> simp

/-- A directory without stray files is a special case. -/
theorem interrupted_of_holds (valid : log.Valid cfg.segmentMaxBytes) (holds : DiskHolds True cfg disk log tail)
    (torn : Framing.next recoveryFormat tail = none) (recoverable : Recoverable goal log) :
    InterruptedImage cfg goal disk := by
  refine ⟨disk, log.active.base + 1, log, tail, AgreeOff.refl _ _, ?_, valid, holds, torn, recoverable⟩
  intro member
  obtain ⟨seg, listed, same⟩ := mem_map.mp member
  rcases mem_append.mp listed with closed | last
  · have below := PartitionLog.closed_lt_of_increasing valid.increasing closed
    omega
  · rw [mem_singleton.mp last] at same
    omega

theorem restoreOps_only (cfg : StorageConfig) (base : Int) :
    ∀ op ∈ restoreOps cfg base, ∀ name ∈ op.touches, name = .index base ∨ name = .timeindex base := by
  refine forall_mem_cons.mpr ⟨?_, forall_mem_cons.mpr ⟨?_, indexFileOps_only cfg base⟩⟩
  · intro name touched
    exact .inl (mem_singleton.mp touched)
  · intro name touched
    exact .inr (mem_singleton.mp touched)

/-- A truncation behind the batches of the active segment drops the tail. -/
theorem DiskHolds.cut (holds : DiskHolds indexed cfg disk log tail)
    (distinct : ∀ seg ∈ log.closedSegs, seg.base ≠ log.active.base) :
    DiskHolds indexed cfg (disk.apply (.truncate (.log log.active.base) log.active.bytes.length)) log [] where
  closedLog seg member := by
    have other : FileName.log seg.base ≠ .log log.active.base :=
      fun same => distinct seg member (FileName.log.inj same)
    rw [← holds.closedLog seg member]
    exact read_congr (by rw [lookup_truncate, if_neg other])
  closedIndex seg member := sealedFiles_congr (holds.closedIndex seg member) (by simp) (by simp)
  activeLog := by
    rw [append_nil]
    exact read_truncate holds.activeLog
  others base absent := by
    have old := holds.others base absent
    have other : FileName.log base ≠ .log log.active.base :=
      fun same => absent (FileName.log.inj same ▸ log.active_mem_bases)
    exact ⟨by rw [lookup_truncate, if_neg other, old.log], by simp [old.index], by simp [old.timeindex]⟩

/-- The directory without the files of one segment holds the log without this segment. -/
theorem DiskHolds.remove (holds : DiskHolds indexed cfg disk log []) {limit : Int} (valid : log.Valid limit)
    {front back : List Segment} {gone : Segment} (split : log.segments = front ++ gone :: back)
    (rest : shorter.segments = front ++ back) :
    DiskHolds indexed cfg (disk.applyAll (removeOps [gone.base])) shorter [] := by
  have part : shorter.segments.Sublist log.segments := by
    rw [split, rest]
    exact (sublist_cons_self gone back).append_left front
  have bases := valid.increasing
  rw [PartitionLog.bases, split, map_append, map_cons] at bases
  have kept : ∀ seg ∈ shorter.segments, seg.base ≠ gone.base := by
    intro seg member
    rw [rest] at member
    rcases mem_append.mp member with before | behind
    · exact ((pairwise_append.mp bases).2.2 _ (mem_map_of_mem before) _ mem_cons_self).ne
    · exact ((pairwise_cons.mp (pairwise_append.mp bases).2.1).1 _ (mem_map_of_mem behind)).ne'
  have file : ∀ seg ∈ shorter.segments,
      (disk.applyAll (removeOps [gone.base])).read (.log seg.base) = some seg.bytes := by
    intro seg member
    rw [← holds.file (part.subset member)]
    exact read_congr (lookup_removeOps_of_ne (kept seg member) disk).1
  refine ⟨fun seg member => file seg (mem_append_left _ member), ?_, ?_, ?_⟩
  · intro seg member
    obtain ⟨_, index, timeindex⟩ := lookup_removeOps_of_ne (kept seg (mem_append_left _ member)) disk
    exact sealedFiles_congr (holds.closedIndex seg (valid.closed_of_sublist part member)) index timeindex
  · rw [append_nil]
    exact file _ (mem_append_right _ (mem_singleton_self _))
  · intro base absent
    by_cases same : base = gone.base
    · obtain ⟨logs, indexes, timeindexes⟩ := lookup_removeOps [gone.base] disk base
      rw [if_pos (mem_singleton.mpr same)] at logs indexes timeindexes
      exact ⟨logs, indexes, timeindexes⟩
    · obtain ⟨logs, indexes, timeindexes⟩ := lookup_removeOps_of_ne same disk
      have old := holds.others base (by
        intro member
        rw [PartitionLog.bases, split, map_append, map_cons] at member
        rw [PartitionLog.bases, rest, map_append] at absent
        rcases mem_append.mp member with before | behind
        · exact absent (mem_append_left _ before)
        · exact absent (mem_append_right _ ((mem_cons.mp behind).resolve_left same)))
      exact ⟨logs.trans old.log, indexes.trans old.index, timeindexes.trans old.timeindex⟩

/-- A crash while the last segment is recovered leaves its log as it was or cut behind its batches. -/
theorem recoveryOps_along (valid : log.Valid cfg.segmentMaxBytes) (holds : DiskHolds True cfg disk log tail)
    (torn : Framing.next recoveryFormat tail = none) (recoverable : Recoverable goal log) :
    Along (InterruptedImage cfg goal) disk (recoveryOps cfg log.active) ∧
      DiskHolds True cfg (disk.applyAll (recoveryOps cfg log.active)) log [] := by
  have cut := holds.cut valid.distinct
  have along := along_indexOnly (restoreOps_only cfg log.active.base)
    (disk.apply (.truncate (.log log.active.base) log.active.bytes.length))
  have restored := cut.indexOnly valid.distinct along.final
  have created : ((disk.apply (.truncate (.log log.active.base) log.active.bytes.length)).applyAll
      (restoreOps cfg log.active.base)).apply (.create (.log log.active.base)) =
      (disk.apply (.truncate (.log log.active.base) log.active.bytes.length)).applyAll
        (restoreOps cfg log.active.base) := by
    obtain ⟨content, found, _⟩ := read_eq_some.mp restored.activeLog
    exact create_of_isSome (Option.isSome_iff_exists.mpr ⟨content, found⟩)
  have image : ∀ left, DiskHolds True cfg left log [] → InterruptedImage cfg goal left :=
    fun left kept => interrupted_of_holds valid kept Framing.next_nil recoverable
  rw [recoveryOps, applyAll_cons, applyAll_append, applyAll_cons, applyAll_nil, created]
  refine ⟨along_cons.mpr ⟨interrupted_of_holds valid holds torn recoverable, along_append.mpr ⟨?_, ?_⟩⟩, restored⟩
  · exact along.mono fun left same => image left (cut.indexOnly valid.distinct same)
  · exact along_cons.mpr ⟨image _ restored, along_nil.mpr (by rw [created]; exact image _ restored)⟩

/-- A crash between two removals may leave index files of the segment that is being removed. -/
theorem removeOps_along {newer : List Segment} (valid : log.Valid cfg.segmentMaxBytes)
    (tight : log.Tight cfg.segmentMaxBytes) (holds : DiskHolds True cfg disk log [])
    (longer : goal.Extends log extra newer) (growing : ∀ seg ∈ log.segments, Growing seg.batches) :
    Along (InterruptedImage cfg goal) disk (removeOps (newer.map Segment.base)) ∧
      ∃ last, goal.Extends last extra [] ∧ last.Valid cfg.segmentMaxBytes ∧
        DiskHolds True cfg (disk.applyAll (removeOps (newer.map Segment.base))) last [] ∧
        ∀ seg ∈ last.segments, Growing seg.batches := by
  induction newer generalizing disk log with
  | nil =>
    exact ⟨along_nil.mpr (interrupted_of_holds valid holds Framing.next_nil ⟨⟨extra, [], longer⟩, growing⟩),
      log, longer, valid, holds, growing⟩
  | cons gone rest ih =>
    obtain ⟨shorter, segs⟩ := @PartitionLog.exists_segments
      (goal.closedSegs ++ ⟨goal.active.base, goal.active.batches ++ extra⟩ :: rest) (by simp)
    have split : log.segments =
        (goal.closedSegs ++ [⟨goal.active.base, goal.active.batches ++ extra⟩]) ++ gone :: rest := by
      rw [longer.split, append_assoc, singleton_append]
    have kept : shorter.segments =
        (goal.closedSegs ++ [⟨goal.active.base, goal.active.batches ++ extra⟩]) ++ rest := by
      rw [segs, append_assoc, singleton_append]
    have part : shorter.segments.Sublist log.segments := by
      rw [split, kept]
      exact (sublist_cons_self gone rest).append_left _
    have removed := holds.remove valid split kept
    have shorterValid := valid.sublist tight part
    have still : goal.Extends shorter extra rest :=
      ⟨segs, fun seg member => longer.behind seg (mem_cons_of_mem _ member), fun _ => longer.rolled (by simp)⟩
    have grown : ∀ seg ∈ shorter.segments, Growing seg.batches := fun seg member => growing seg (part.subset member)
    have apart : gone.base ∉ shorter.bases := by
      intro member
      obtain ⟨seg, listed, same⟩ := mem_map.mp member
      have found := removed.file listed
      rw [Disk.read, same, (lookup_removeOps [gone.base] disk gone.base).1, if_pos (mem_singleton_self _)]
        at found
      cases found
    -- once its log is gone, the segment has at most its two index files left
    have stray : ∀ image, AgreeOff (IndexOf gone.base) image (disk.applyAll (removeOps [gone.base])) →
        InterruptedImage cfg goal image := fun image agree =>
      ⟨_, gone.base, shorter, [], agree, apart, shorterValid, removed, Framing.next_nil, ⟨extra, rest, still⟩, grown⟩
    obtain ⟨later, last⟩ := ih shorterValid (tight.sublist valid part) removed still grown
    refine ⟨along_cons.mpr ⟨?_, along_cons.mpr ⟨stray _ ?_, along_cons.mpr ⟨stray _ ?_, later⟩⟩⟩, last⟩
    · exact interrupted_of_holds valid holds Framing.next_nil ⟨⟨extra, _, longer⟩, growing⟩
    · intro name shown
      obtain ⟨index, timeindex⟩ := not_or.mp shown
      simp [removeOps, index, timeindex]
    · intro name shown
      obtain ⟨index, timeindex⟩ := not_or.mp shown
      simp [removeOps, timeindex]

/-- The batches behind the recorded ones are a tail of the recorded log. -/
theorem DiskHolds.retail {last : PartitionLog} (holds : DiskHolds indexed cfg disk last [])
    (longer : goal.Extends last extra []) : DiskHolds indexed cfg disk goal extra.flatten := by
  rcases longer.shape with ⟨_, closedSegs, active⟩ | ⟨front, other, shape, _, _⟩
  · refine ⟨fun seg member => holds.closedLog seg (closedSegs ▸ member),
      fun seg member => holds.closedIndex seg (closedSegs ▸ member), ?_, ?_⟩
    · have bytes := holds.activeLog
      rw [active, append_nil] at bytes
      rw [bytes, Segment.bytes, Segment.bytes, flatten_append]
    · intro base absent
      refine holds.others base fun member => absent ?_
      rw [PartitionLog.bases, longer.split, map_append, map_singleton] at member
      rw [PartitionLog.bases, PartitionLog.segments, map_append, map_singleton]
      exact member
  · exact absurd shape.symm (by simp)

/-- A crash while the log is cut back leaves the longer log or the recorded one. -/
theorem truncateOps_along {last : PartitionLog} (valid : goal.Valid cfg.segmentMaxBytes)
    (lastValid : last.Valid cfg.segmentMaxBytes) (holds : DiskHolds True cfg disk last [])
    (longer : goal.Extends last extra []) (growing : ∀ seg ∈ last.segments, Growing seg.batches) (wasSealed : Bool) :
    Along (InterruptedImage cfg goal) disk (truncateOps cfg goal.active wasSealed) := by
  have before : InterruptedImage cfg goal disk :=
    interrupted_of_holds lastValid holds Framing.next_nil ⟨⟨extra, [], longer⟩, growing⟩
  have whole := holds.retail longer
  have created : disk.apply (.create (.log goal.active.base)) = disk := by
    obtain ⟨content, found, _⟩ := read_eq_some.mp whole.activeLog
    exact create_of_isSome (Option.isSome_iff_exists.mpr ⟨content, found⟩)
  have restored : Recoverable goal goal :=
    ⟨⟨[], [], by simp [PartitionLog.segments], by simp, by simp⟩, longer.growing growing⟩
  have cutting : Along (InterruptedImage cfg goal) disk
      (.truncate (.log goal.active.base) goal.active.bytes.length :: restoreOps cfg goal.active.base) := by
    refine along_cons.mpr ⟨before, (along_indexOnly (restoreOps_only cfg goal.active.base) _).mono fun image same => ?_⟩
    exact interrupted_of_holds valid ((whole.cut valid.distinct).indexOnly valid.distinct same) Framing.next_nil
      restored
  cases wasSealed with
  | false => exact cutting
  | true => exact along_cons.mpr ⟨before, by rw [created]; exact cutting⟩

end

end BunnyMQ.Storage
