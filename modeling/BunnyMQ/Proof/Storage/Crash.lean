/-
This file describes every directory that a crash can leave behind a synced partition log.
-/

import BunnyMQ.Proof.Storage.Touched

namespace BunnyMQ.Storage
open Foundation FileStore Framing StorageImpl PartitionLog

/-- The running log is ahead of a synced log. Its closed segments are synced, and its active segment is
synced at least as far as the synced log reaches. -/
structure Ahead (goal log : PartitionLog) (disk : StorageDisk) : Prop where
  longer : ∃ extra newer, goal.Extends log extra newer
  reaches : goal.next ≤ log.next
  growing : ∀ seg ∈ log.segments, Growing seg.batches
  closed : ∀ seg ∈ log.closedSegs, ∃ file, disk.lookup (.log seg.base) = some file ∧
    file.synced = file.data.length ∧ file.mapped = false
  active : ∃ file, disk.lookup (.log log.active.base) = some file ∧ file.mapped = false ∧
    file.synced ≤ file.data.length ∧
    (log.closedSegs.length = goal.closedSegs.length → goal.active.bytes.length ≤ file.synced)

/-- The directory before a crash holds a log that is ahead of the synced one and ends within a bound. -/
def CrashImage (cfg : StorageConfig) (goal : PartitionLog) (bound : Int) (disk : StorageDisk) : Prop :=
  ∃ log, log.Valid cfg.segmentMaxBytes ∧ DiskHolds False cfg disk log [] ∧ Ahead goal log disk ∧
    log.next ≤ bound

section
variable {indexed : Prop} {cfg : StorageConfig} {disk left : StorageDisk} {goal log : PartitionLog} {bound : Int}

theorem DiskHolds.weaken {tail : Bytes} (holds : DiskHolds indexed cfg disk log tail) :
    DiskHolds False cfg disk log tail where
  closedLog := holds.closedLog
  closedIndex seg member := by
    obtain ⟨offsets, times, index, timeindex, _⟩ := holds.closedIndex seg member
    exact ⟨offsets, times, index, timeindex, False.elim⟩
  activeLog := holds.activeLog
  others := holds.others

theorem Ahead.congr (ahead : Ahead goal log disk)
    (logs : ∀ base, left.lookup (.log base) = disk.lookup (.log base)) : Ahead goal log left where
  longer := ahead.longer
  reaches := ahead.reaches
  growing := ahead.growing
  closed seg member := by
    rw [logs]
    exact ahead.closed seg member
  active := by
    rw [logs]
    exact ahead.active

/-- A log is ahead of itself once its active segment is synced. -/
theorem Ahead.refl (growing : ∀ seg ∈ log.segments, Growing seg.batches)
    (closed : ∀ seg ∈ log.closedSegs, ∃ file, disk.lookup (.log seg.base) = some file ∧
      file.synced = file.data.length ∧ file.mapped = false)
    (active : ∃ file, disk.lookup (.log log.active.base) = some file ∧ file.data = log.active.bytes ∧
      file.synced = file.data.length ∧ file.mapped = false) : Ahead log log disk where
  longer := ⟨[], [], .refl log⟩
  reaches := le_refl _
  growing := growing
  closed := closed
  active := by
    obtain ⟨file, found, data, synced, mapped⟩ := active
    exact ⟨file, found, mapped, synced.le, fun _ => by rw [synced, data]⟩

/-- A write to the active log stays ahead of the synced log. -/
theorem Ahead.push (ahead : Ahead goal log disk)
    (distinct : ∀ seg ∈ log.closedSegs, seg.base ≠ log.active.base) {batch : Bytes}
    (grows : baseOffsetOf batch < endOffsetOf batch) (moves : log.next < endOffsetOf batch) :
    Ahead goal ⟨log.closedSegs, log.active.push batch⟩
      (disk.apply (.append (.log log.active.base) batch)) where
  longer := by
    obtain ⟨_, _, longer⟩ := ahead.longer
    obtain ⟨extra, newer, pushed, _⟩ := longer.push batch
    exact ⟨extra, newer, pushed⟩
  reaches := by
    have reaches := ahead.reaches
    have next : PartitionLog.next ⟨log.closedSegs, log.active.push batch⟩ = endOffsetOf batch :=
      log.active.push_stop batch
    omega
  growing seg member := by
    rcases List.mem_append.mp member with old | new
    · exact ahead.growing seg (List.mem_append_left _ old)
    · rw [List.mem_singleton.mp new]
      intro other inside
      rcases List.mem_append.mp inside with earlier | last
      · exact ahead.growing log.active (by simp [PartitionLog.segments]) other earlier
      · rw [List.mem_singleton.mp last]
        exact grows
  closed seg member := by
    have other : FileName.log seg.base ≠ .log log.active.base :=
      fun same => distinct seg member (FileName.log.inj same)
    rw [lookup_append, if_neg other]
    exact ahead.closed seg member
  active := by
    obtain ⟨file, found, mapped, inside, reached⟩ := ahead.active
    refine ⟨{ file with data := file.data ++ batch }, ?_, mapped, ?_, reached⟩
    · rw [lookup_append]
      simp [Segment.push, found]
    · change file.synced ≤ (file.data ++ batch).length
      rw [List.length_append]
      omega

/-- The sync of a seal covers the whole active segment. -/
theorem Ahead.sync (ahead : Ahead goal log disk)
    (distinct : ∀ seg ∈ log.closedSegs, seg.base ≠ log.active.base) :
    Ahead goal log (disk.apply (.sync (.log log.active.base))) ∧
      ∃ file, (disk.apply (.sync (.log log.active.base))).lookup (.log log.active.base) = some file ∧
        file.synced = file.data.length ∧ file.mapped = false := by
  obtain ⟨file, found, mapped, inside, reached⟩ := ahead.active
  have synced : (disk.apply (.sync (.log log.active.base))).lookup (.log log.active.base) =
      some { file with synced := file.data.length } := by
    simp [found]
  refine ⟨⟨ahead.longer, ahead.reaches, ahead.growing, ?_, ?_⟩, _, synced, rfl, mapped⟩
  · intro seg member
    have other : FileName.log seg.base ≠ .log log.active.base :=
      fun same => distinct seg member (FileName.log.inj same)
    rw [lookup_sync, if_neg other]
    exact ahead.closed seg member
  · exact ⟨_, synced, mapped, le_refl _, fun same => (reached same).trans inside⟩

/-- A new segment behind a synced one stays ahead of the synced log. -/
theorem Ahead.create (ahead : Ahead goal log disk) (moved : goal.next < log.next)
    (pushed : log.closedSegs.length = goal.closedSegs.length → log.active.batches ≠ goal.active.batches)
    (synced : ∃ file, disk.lookup (.log log.active.base) = some file ∧ file.synced = file.data.length ∧
      file.mapped = false)
    (fresh : log.next ∉ log.bases) (missing : disk.lookup (.log log.next) = none) :
    Ahead goal ⟨log.closedSegs ++ [log.active], ⟨log.next, []⟩⟩ (disk.apply (.create (.log log.next))) where
  longer := by
    obtain ⟨extra, newer, longer⟩ := ahead.longer
    refine ⟨extra, _, longer.create (fun none => ?_) moved⟩
    rcases longer.shape with ⟨_, closedSegs, active⟩ | ⟨front, last, shape, _, _⟩
    · refine pushed (by rw [closedSegs]) ?_
      rw [active, none, List.append_nil]
    · exact longer.rolled (by rw [shape]; simp) none
  reaches := moved.le
  growing seg member := by
    rcases List.mem_append.mp member with old | new
    · exact ahead.growing seg old
    · rw [List.mem_singleton.mp new]
      intro batch none
      cases none
  closed seg member := by
    have old : seg.base ∈ log.bases := List.mem_map_of_mem member
    have other : FileName.log seg.base ≠ .log log.next := fun same => fresh (FileName.log.inj same ▸ old)
    rw [lookup_create, if_neg other]
    rcases List.mem_append.mp member with closed | last
    · exact ahead.closed seg closed
    · rw [List.mem_singleton.mp last]
      exact synced
  active := by
    refine ⟨File.empty, ?_, rfl, le_refl _, ?_⟩
    · rw [lookup_create]
      simp [missing]
    · intro same
      exfalso
      obtain ⟨extra, newer, longer⟩ := ahead.longer
      rw [List.length_append, List.length_singleton] at same
      rcases longer.shape with ⟨_, closedSegs, _⟩ | ⟨front, last, _, closedSegs, _⟩
      · rw [closedSegs] at same
        omega
      · rw [closedSegs, List.length_append, List.length_cons] at same
        omega

/-- Operations on the index files of one segment leave every other file alone. -/
theorem along_indexOnly {base : Int} {ops : List (FileOp FileName)}
    (only : ∀ op ∈ ops, ∀ name ∈ op.touches, name = .index base ∨ name = .timeindex base) (disk : StorageDisk) :
    Along (fun image => ∀ name, name ≠ .index base → name ≠ .timeindex base →
      image.lookup name = disk.lookup name) disk ops := by
  exact (along_untouched only disk).mono fun image same name index timeindex =>
    same name (not_or.mpr ⟨index, timeindex⟩)

theorem DiskHolds.indexOnly {tail : Bytes} (holds : DiskHolds indexed cfg disk log tail)
    (distinct : ∀ seg ∈ log.closedSegs, seg.base ≠ log.active.base)
    (same : ∀ name, name ≠ .index log.active.base → name ≠ .timeindex log.active.base →
      left.lookup name = disk.lookup name) : DiskHolds indexed cfg left log tail :=
  holds.transfer distinct (fun base => read_congr (same (.log base) (by simp) (by simp)))
    (fun base other => same (.index base) (fun equal => other (FileName.index.inj equal)) (by simp))
    (fun base other => same (.timeindex base) (by simp) (fun equal => other (FileName.timeindex.inj equal)))

/-- A change of the index files of the active segment keeps a crash image. -/
theorem crashImage_indexOnly (valid : log.Valid cfg.segmentMaxBytes) (holds : DiskHolds False cfg disk log [])
    (ahead : Ahead goal log disk) (within : log.next ≤ bound)
    (same : ∀ name, name ≠ .index log.active.base → name ≠ .timeindex log.active.base →
      left.lookup name = disk.lookup name) : CrashImage cfg goal bound left :=
  ⟨log, valid, holds.indexOnly valid.distinct same, ahead.congr fun base => same (.log base) (by simp) (by simp),
    within⟩

/-- The index files of a segment are the only ones that are created with it. -/
theorem indexFileOps_only (cfg : StorageConfig) (base : Int) :
    ∀ op ∈ indexFileOps cfg base, ∀ name ∈ op.touches, name = .index base ∨ name = .timeindex base := by
  intro op member name touched
  rcases List.mem_append.mp member with index | timeindex
  · rw [touches_indexOps _ _ _ op index] at touched
    exact .inl (List.mem_singleton.mp touched)
  · rw [touches_indexOps _ _ _ op timeindex] at touched
    exact .inr (List.mem_singleton.mp touched)

/-- A seal works on the index files first and then syncs the log. -/
theorem sealOps_split (cfg : StorageConfig) (seg : Segment) :
    ∃ ops, sealOps (activeHandle cfg seg) = ops ++ [.sync (.log seg.base)] ∧
      ∀ op ∈ ops, ∀ name ∈ op.touches, name = .index seg.base ∨ name = .timeindex seg.base := by
  refine ⟨sealIndexOps offsetLayout (.index seg.base) (activeHandle cfg seg).offsetIdx.entries ++
    sealIndexOps timeLayout (.timeindex seg.base) (activeHandle cfg seg).timeIdx.entries, ?_, ?_⟩
  · rw [List.append_assoc]
    rfl
  · intro op member name touched
    rcases List.mem_append.mp member with index | timeindex
    · rw [touches_sealIndexOps _ _ _ op index] at touched
      exact .inl (List.mem_singleton.mp touched)
    · rw [touches_sealIndexOps _ _ _ op timeindex] at touched
      exact .inr (List.mem_singleton.mp touched)

section
variable (valid : log.Valid cfg.segmentMaxBytes) (holds : DiskHolds False cfg disk log [])
  (ahead : Ahead goal log disk) (within : log.next ≤ bound)
include valid holds ahead within

/-- A crash while the active segment is sealed finds a log that is ahead of the synced one. -/
theorem sealOps_along :
    Along (CrashImage cfg goal bound) disk (sealOps (activeHandle cfg log.active)) ∧
      Ahead goal log (disk.applyAll (sealOps (activeHandle cfg log.active))) ∧
      ∃ file, (disk.applyAll (sealOps (activeHandle cfg log.active))).lookup (.log log.active.base) = some file ∧
        file.synced = file.data.length ∧ file.mapped = false := by
  obtain ⟨ops, split, only⟩ := sealOps_split cfg log.active
  have along := along_indexOnly only disk
  have written := along.final
  have sealedIndexes := ahead.congr fun base => written (.log base) (by simp) (by simp)
  have kept := holds.indexOnly valid.distinct written
  obtain ⟨synced, file⟩ := sealedIndexes.sync valid.distinct
  have final := holds.seal valid.distinct
  rw [split, applyAll_append, applyAll_cons, applyAll_nil] at final ⊢
  refine ⟨along_append.mpr ⟨?_, along_cons.mpr ⟨?_, along_nil.mpr ?_⟩⟩, synced, file⟩
  · exact along.mono fun image same => crashImage_indexOnly valid holds ahead within same
  · exact ⟨log, valid, kept, sealedIndexes, within⟩
  · exact ⟨log, valid, final, synced, within⟩

/-- A crash while a new segment is created finds the rolled log or the one before it. -/
theorem newSegmentOps_along (files : SealedFiles False cfg disk log.active) (moved : goal.next < log.next)
    (pushed : log.closedSegs.length = goal.closedSegs.length → log.active.batches ≠ goal.active.batches)
    (synced : ∃ file, disk.lookup (.log log.active.base) = some file ∧ file.synced = file.data.length ∧
      file.mapped = false)
    (rolled : PartitionLog.Valid cfg.segmentMaxBytes ⟨log.closedSegs ++ [log.active], ⟨log.next, []⟩⟩) :
    Along (CrashImage cfg goal bound) disk (newSegmentOps cfg log.next) ∧
      Ahead goal ⟨log.closedSegs ++ [log.active], ⟨log.next, []⟩⟩
        (disk.applyAll (newSegmentOps cfg log.next)) := by
  have fresh : log.next ∉ log.bases := rolled.fresh
  have created := holds.create files fresh
  have aheadRolled := ahead.create moved pushed synced fresh (holds.others log.next fresh).log
  have along := along_indexOnly (indexFileOps_only cfg log.next) (disk.apply (.create (.log log.next)))
  rw [newSegmentOps, applyAll_cons]
  refine ⟨along_cons.mpr ⟨⟨log, valid, holds, ahead, within⟩, ?_⟩, ?_⟩
  · exact along.mono fun image same => crashImage_indexOnly rolled created aheadRolled within same
  · exact aheadRolled.congr fun base => along.final (.log base) (by simp) (by simp)

/-- A crash at any point of a roll finds a log that is ahead of the synced one. -/
theorem roll_along (files : IndexFiles disk log.active.base) (moved : goal.next < log.next)
    (pushed : log.closedSegs.length = goal.closedSegs.length → log.active.batches ≠ goal.active.batches)
    (rolled : PartitionLog.Valid cfg.segmentMaxBytes ⟨log.closedSegs ++ [log.active], ⟨log.next, []⟩⟩) :
    Along (CrashImage cfg goal bound) disk
        (sealOps (activeHandle cfg log.active) ++ newSegmentOps cfg log.next) ∧
      Ahead goal ⟨log.closedSegs ++ [log.active], ⟨log.next, []⟩⟩
        (disk.applyAll (sealOps (activeHandle cfg log.active) ++ newSegmentOps cfg log.next)) := by
  obtain ⟨sealing, aheadSealed, synced⟩ := sealOps_along valid holds ahead within
  obtain ⟨creating, aheadRolled⟩ := newSegmentOps_along valid (holds.seal valid.distinct) aheadSealed
    within (sealedFiles_sealOps cfg files False) moved pushed synced rolled
  exact ⟨along_append.mpr ⟨sealing, creating⟩, by rw [applyAll_append]; exact aheadRolled⟩

end

/-- A pushed batch makes the active segment longer than the synced one. -/
theorem Ahead.push_ne (ahead : Ahead goal log disk) (batch : Bytes)
    (same : log.closedSegs.length = goal.closedSegs.length) :
    (log.active.push batch).batches ≠ goal.active.batches := by
  intro equal
  obtain ⟨extra, newer, longer⟩ := ahead.longer
  rcases longer.shape with ⟨_, _, active⟩ | ⟨front, last, _, closedSegs, _⟩
  · have lengths := congrArg List.length equal
    rw [active] at lengths
    simp only [Segment.push, List.length_append, List.length_singleton] at lengths
    omega
  · rw [closedSegs, List.length_append, List.length_cons] at same
    omega

/-- A crash at any point of an append finds a log that is ahead of the synced one. -/
theorem appendOps_along (indexable : cfg.Indexable) {s : StorageImpl} (rep : Represents indexed cfg disk s log)
    (ahead : Ahead goal log disk) (room : log.HasRoom cfg.segmentMaxBytes) {batch : Bytes}
    (stored : StoredBatch batch) (grows : log.next < endOffsetOf (patchBaseOffset batch log.next))
    (within : endOffsetOf (patchBaseOffset batch log.next) ≤ bound) :
    Along (CrashImage cfg goal bound) disk (appendOps cfg log batch) ∧
      Ahead goal (log.append cfg.segmentMaxBytes batch) (disk.applyAll (appendOps cfg log batch)) := by
  have start : log.active.base ≤ log.next :=
    (Growing.between (ahead.growing log.active (by simp [PartitionLog.segments])) rep.valid.active.chained).1
  have rolled := rep.valid.append indexable.segment stored fun _ => by omega
  have range : int64 log.next = log.next := rep.valid.active.stop_range
  have starts : baseOffsetOf (patchBaseOffset batch log.next) = log.next := by
    rw [baseOffsetOf_patch, range]
  have valid := rep.valid.push room (stored.patch log.next) starts
  have moved : goal.next < (log.pushed batch).stop := by
    have reaches := ahead.reaches
    rw [Segment.push_stop]
    omega
  have pushed := rep.holds.weaken.push rep.valid.distinct (patchBaseOffset batch log.next)
  have aheadPushed := ahead.push rep.valid.distinct (by rw [starts]; exact grows) grows
  have files : IndexFiles (disk.apply (.append (.log log.active.base) (patchBaseOffset batch log.next)))
      log.active.base := ⟨by simpa using rep.files.index, by simpa using rep.files.timeindex⟩
  have before : CrashImage cfg goal bound disk := ⟨log, rep.valid, rep.holds.weaken, ahead, by omega⟩
  have ends : (log.pushed batch).stop ≤ bound := by
    rw [Segment.push_stop]
    exact within
  by_cases full : ((log.pushed batch).bytes.length : Int) ≥ cfg.segmentMaxBytes
  · rw [append_full full] at rolled ⊢
    obtain ⟨rolling, aheadRolled⟩ := @roll_along cfg _ goal
      ⟨log.closedSegs, log.pushed batch⟩ bound valid pushed aheadPushed ends files
      moved (ahead.push_ne _) rolled
    rw [appendOps_full full, applyAll_cons]
    exact ⟨along_cons.mpr ⟨before, rolling⟩, aheadRolled⟩
  · rw [append_room full, appendOps_room full, applyAll_cons, applyAll_nil]
    exact ⟨along_cons.mpr ⟨before, along_nil.mpr ⟨_, valid, pushed, aheadPushed, ends⟩⟩, aheadPushed⟩

/-- A crash keeps only the first batches of the active segment. -/
def PartitionLog.cut (log : PartitionLog) (count : Nat) : PartitionLog :=
  ⟨log.closedSegs, ⟨log.active.base, log.active.batches.take count⟩⟩

theorem PartitionLog.cut_bases (log : PartitionLog) (count : Nat) : (log.cut count).bases = log.bases := by
  simp [bases, PartitionLog.segments, PartitionLog.cut]

theorem PartitionLog.mem_cut {log : PartitionLog} {count : Nat} {seg : Segment}
    (member : seg ∈ (log.cut count).segments) :
    ∃ old ∈ log.segments, seg.base = old.base ∧ ∃ kept, seg.batches = old.batches.take kept := by
  rcases List.mem_append.mp member with closed | last
  · exact ⟨seg, List.mem_append_left _ closed, rfl, seg.batches.length, by simp⟩
  · rw [List.mem_singleton.mp last]
    exact ⟨log.active, List.mem_append_right _ (List.mem_singleton_self _), rfl, count, rfl⟩

/-- A shorter list of batches is not longer without its last one. -/
theorem length_dropLast_take_le (batches : List Bytes) (count : Nat) :
    (batches.take count).dropLast.flatten.length ≤ batches.dropLast.flatten.length := by
  have shorter : (batches.take count).dropLast <+: batches.dropLast := by
    refine List.prefix_of_prefix_length_le ((List.dropLast_prefix _).trans (List.take_prefix _ _))
      (List.dropLast_prefix _) ?_
    rw [List.length_dropLast, List.length_dropLast, List.length_take]
    omega
  obtain ⟨rest, split⟩ := shorter
  rw [← split, List.flatten_append, List.length_append]
  omega

/-- A log that is cut in its active segment stays well formed. -/
theorem PartitionLog.Valid.cut {limit : Int} (valid : log.Valid limit) (count : Nat) :
    (log.cut count).Valid limit where
  segment seg member := by
    obtain ⟨old, found, base, kept, batches⟩ := mem_cut member
    have whole := valid.segment old found
    refine ⟨by rw [base]; exact whole.nonneg, by rw [base]; exact whole.range, ?_, ?_⟩
    · intro batch present
      rw [batches] at present
      exact whole.stored batch (List.mem_of_mem_take present)
    · have chained := whole.chained
      rw [← List.take_append_drop kept old.batches] at chained
      rw [base, batches]
      exact (chained_append.mp chained).1
  increasing := by
    rw [cut_bases]
    exact valid.increasing
  slack := by
    have shorter := length_dropLast_take_le log.active.batches count
    have bound := valid.slack
    change ((log.active.batches.take count).dropLast.flatten.length : Int) < limit
    omega

/-- The log holds the synced log and grows with every batch. -/
structure Recoverable (goal log : PartitionLog) : Prop where
  longer : ∃ extra newer, goal.Extends log extra newer
  growing : ∀ seg ∈ log.segments, Growing seg.batches

/-- A log ahead of the synced one may be cut behind what was synced. -/
theorem Ahead.recoverable (ahead : Ahead goal log disk) {count : Nat}
    (kept : log.closedSegs.length = goal.closedSegs.length → goal.active.batches.length ≤ count) :
    Recoverable goal (log.cut count) where
  longer := by
    obtain ⟨extra, newer, longer⟩ := ahead.longer
    rcases longer.shape with ⟨none, closedSegs, active⟩ | ⟨front, last, shape, closedSegs, active⟩
    · have long := kept (by rw [closedSegs])
      refine ⟨extra.take (count - goal.active.batches.length), [], ?_, by simp, by simp⟩
      rw [PartitionLog.segments, PartitionLog.cut, closedSegs, active, List.take_append,
        List.take_of_length_le long]
    · refine ⟨extra, front ++ [⟨last.base, last.batches.take count⟩], ?_, ?_,
        fun _ => longer.rolled (by rw [shape]; simp)⟩
      · rw [PartitionLog.segments, PartitionLog.cut, closedSegs, active]
        simp
      · intro seg member
        rcases List.mem_append.mp member with old | new
        · exact longer.behind seg (by rw [shape]; exact List.mem_append_left _ old)
        · rw [List.mem_singleton.mp new]
          exact longer.behind last (by rw [shape]; simp)
  growing seg member := by
    obtain ⟨old, found, _, kept, batches⟩ := mem_cut member
    intro batch present
    rw [batches] at present
    exact ahead.growing old found batch (List.mem_of_mem_take present)

theorem Ahead.cut_next (ahead : Ahead goal log disk) {limit : Int} (valid : log.Valid limit) (count : Nat) :
    (log.cut count).next ≤ log.next := by
  have chained := valid.active.chained
  have growing := ahead.growing log.active (by simp [PartitionLog.segments])
  rw [← List.take_append_drop count log.active.batches] at chained growing
  have rest : Growing (log.active.batches.drop count) :=
    fun batch member => growing batch (List.mem_append_right _ member)
  have ends : log.next = lastEnd (log.cut count).next (log.active.batches.drop count) := by
    rw [PartitionLog.next, Segment.stop, ← List.take_append_drop count log.active.batches, lastEnd_append]
    simp [PartitionLog.cut, PartitionLog.next, Segment.stop]
  rw [ends]
  exact (rest.between (chained_append.mp chained).2).1

/-- Only the synced log itself ends at its offset. -/
theorem Recoverable.reaches (recoverable : Recoverable goal log) {limit : Int} (valid : log.Valid limit) :
    goal.next < log.next ∨ log = goal := by
  obtain ⟨extra, newer, longer⟩ := recoverable.longer
  have growing := recoverable.growing log.active (by simp [PartitionLog.segments])
  rcases longer.shape with ⟨_, closedSegs, active⟩ | ⟨front, last, shape, closedSegs, active⟩
  · have chained := valid.active.chained
    rw [active] at chained growing
    have later : Growing extra := fun batch member => growing batch (List.mem_append_right _ member)
    have chain : Chained goal.next extra := (chained_append.mp chained).2
    have ends : log.next = lastEnd goal.next extra := by
      rw [PartitionLog.next, active]
      exact lastEnd_append _ _ _
    by_cases none : extra = []
    · right
      rw [none, List.append_nil] at active
      cases log
      exact congrArg₂ PartitionLog.mk closedSegs active
    · left
      rw [ends]
      exact later.lt_lastEnd chain none
  · left
    have behind := longer.behind last (by rw [shape]; simp)
    have start : log.active.base ≤ log.next := (growing.between valid.active.chained).1
    rw [← active] at behind
    omega

theorem Recoverable.goal_growing (recoverable : Recoverable goal log) : Growing goal.active.batches := by
  obtain ⟨extra, newer, longer⟩ := recoverable.longer
  have growing := recoverable.growing ⟨goal.active.base, goal.active.batches ++ extra⟩ (by rw [longer.split]; simp)
  exact growing.append_left

/-- A crash cuts the active segment behind one of its batches, at most before the end of the synced log. -/
theorem Ahead.survive (ahead : Ahead goal log disk) (valid : log.Valid cfg.segmentMaxBytes)
    (holds : DiskHolds False cfg disk log []) (survives : Survives disk left) :
    ∃ count tail, DiskHolds False cfg left (log.cut count) tail ∧ Framing.next recoveryFormat tail = none ∧
      Recoverable goal (log.cut count) := by
  obtain ⟨file, found, mapped, inside, reached⟩ := ahead.active
  obtain ⟨kept, present, survived⟩ := survives.lookup_some found
  have data : file.data = log.active.batches.flatten := by
    have whole := holds.activeLog
    rw [List.append_nil] at whole
    obtain ⟨content, same, bytes⟩ := read_eq_some.mp whole
    rw [found] at same
    cases same
    exact bytes
  have shorter := survived.shorter mapped
  rw [data] at shorter
  obtain ⟨count, tail, _, split, torn, largest⟩ := exists_torn valid.active.stored shorter
  refine ⟨count, tail, ⟨?_, ?_, ?_, ?_⟩, torn, ahead.recoverable ?_⟩
  · intro seg member
    obtain ⟨before, lookup, synced, appended⟩ := ahead.closed seg member
    obtain ⟨content, same, bytes⟩ := read_eq_some.mp (holds.closedLog seg member)
    obtain ⟨after, lookup', stays⟩ := survives.lookup_some lookup
    rw [lookup] at same
    cases same
    exact read_eq_some.mpr ⟨after, lookup', (stays.data_eq synced appended).trans bytes⟩
  · intro seg member
    obtain ⟨offsets, times, index, timeindex, _⟩ := holds.closedIndex seg member
    obtain ⟨offsetFile, offsetFound, _⟩ := read_eq_some.mp index
    obtain ⟨timeFile, timeFound, _⟩ := read_eq_some.mp timeindex
    obtain ⟨offsetLeft, offsetLookup, _⟩ := survives.lookup_some offsetFound
    obtain ⟨timeLeft, timeLookup, _⟩ := survives.lookup_some timeFound
    exact ⟨offsetLeft.data, timeLeft.data, read_eq_some.mpr ⟨_, offsetLookup, rfl⟩,
      read_eq_some.mpr ⟨_, timeLookup, rfl⟩, False.elim⟩
  · exact read_eq_some.mpr ⟨kept, present, split⟩
  · intro base absent
    rw [cut_bases] at absent
    have old := holds.others base absent
    exact ⟨survives.lookup_none old.log, survives.lookup_none old.index, survives.lookup_none old.timeindex⟩
  · intro same
    obtain ⟨extra, newer, longer⟩ := ahead.longer
    rcases longer.shape with ⟨_, _, active⟩ | ⟨front, last, _, closedSegs, _⟩
    · have long : goal.active.bytes.length ≤ kept.data.length :=
        (reached same).trans (survived.covered inside)
      refine largest _ ?_ ?_
      · rw [active, List.take_left]
        exact long
      · rw [active, List.length_append]
        omega
    · rw [closedSegs, List.length_append, List.length_cons] at same
      omega

/-- A crash leaves the synced log, some of the later batches and a torn batch. -/
theorem CrashImage.survive (image : CrashImage cfg goal bound disk) (survives : Survives disk left) :
    ∃ log tail, log.Valid cfg.segmentMaxBytes ∧ DiskHolds False cfg left log tail ∧
      Framing.next recoveryFormat tail = none ∧ Recoverable goal log ∧ log.next ≤ bound := by
  obtain ⟨log, valid, holds, ahead, within⟩ := image
  obtain ⟨count, tail, kept, torn, recoverable⟩ := ahead.survive valid holds survives
  exact ⟨log.cut count, tail, valid.cut count, kept, torn, recoverable, (ahead.cut_next valid count).trans within⟩

end

end BunnyMQ.Storage
