/-
This file shows that the storage does not notice index files of segments that it does not have.
-/

import BunnyMQ.Library.Footprint
import BunnyMQ.Proof.Storage.Touched

namespace BunnyMQ.Storage
open Foundation FileStore StorageImpl List
open Program (Alike)

def IndexesOnly (hidden : FileName → Prop) : Prop :=
  ∀ name, hidden name → ∃ base, name = .index base ∨ name = .timeindex base

/-- Both index files of the segment can be seen. -/
structure Shown (hidden : FileName → Prop) (base : Int) : Prop where
  index : ¬ hidden (.index base)
  timeindex : ¬ hidden (.timeindex base)

/-- A segment is shown when every hidden name belongs to another one. -/
theorem shown_of_apart {hidden : FileName → Prop} {base : Int}
    (apart : ∀ name, hidden name → ∃ other, (name = .index other ∨ name = .timeindex other) ∧ other ≠ base) :
    Shown hidden base := by
  constructor
  · intro member
    obtain ⟨other, named, distinct⟩ := apart _ member
    rcases named with same | same
    · exact distinct (FileName.index.inj same).symm
    · cases same
  · intro member
    obtain ⟨other, named, distinct⟩ := apart _ member
    rcases named with same | same
    · cases same
    · exact distinct (FileName.timeindex.inj same).symm

section
variable {hidden : FileName → Prop} {first second : StorageDisk}

theorem IndexesOnly.log (only : IndexesOnly hidden) (base : Int) : ¬ hidden (.log base) := by
  intro found
  obtain ⟨other, index | timeindex⟩ := only _ found
  · cases index
  · cases timeindex

theorem IndexesOnly.sidecar (only : IndexesOnly hidden) : ¬ hidden .sidecar := by
  intro found
  obtain ⟨other, index | timeindex⟩ := only _ found
  · cases index
  · cases timeindex

/-- The only file that ever moves is the new sidecar. -/
theorem IndexesOnly.keeps (only : IndexesOnly hidden) {op : FileOp FileName}
    (moves : ∀ source target, op = .rename source target → source = .sidecarTmp) : op.KeepsHidden hidden := by
  intro source target same found
  rw [moves source target same] at found
  obtain ⟨other, index | timeindex⟩ := only _ found
  · cases index
  · cases timeindex

theorem perform_alike (agree : AgreeOff hidden first second) (only : IndexesOnly hidden) {op : FileOp FileName}
    (moves : ∀ source target, op = .rename source target → source = .sidecarTmp) :
    Alike hidden (Program.perform op : StorageProgram Unit) first second :=
  Alike.perform agree (only.keeps moves)

theorem readFile_alike (agree : AgreeOff hidden first second) {file : FileName} (shown : ¬ hidden file) :
    Alike hidden (readFile file) first second := by
  refine .observe agree ?_
  simp only [Disk.read, agree file shown]

theorem openLogSegment_alike (agree : AgreeOff hidden first second) (only : IndexesOnly hidden) (base : Int)
    (create : Bool) : Alike hidden (openLogSegment base create) first second := by
  rw [openLogSegment]
  cases create with
  | false =>
    refine .bind (readFile_alike agree (only.log base)) ?_
    intro data ops _ after
    exact .pure after _
  | true =>
    refine .bind (perform_alike agree only (by simp)) ?_
    intro _ ops _ after
    refine .bind (readFile_alike after (only.log base)) ?_
    intro data ops _ later
    exact .pure later _

section
variable {Entry : Type} (layout : EntryLayout Entry) {file : FileName} (base : Int)

theorem openIndexReadOnly_alike (agree : AgreeOff hidden first second) (shown : ¬ hidden file) :
    Alike hidden (openIndexReadOnly layout file base) first second := by
  refine .bind (readFile_alike agree shown) ?_
  intro data ops _ after
  exact .pure after _

theorem openIndex_alike (agree : AgreeOff hidden first second) (only : IndexesOnly hidden) (shown : ¬ hidden file)
    (cfg : StorageConfig) : Alike hidden (openIndex layout file base cfg) first second := by
  refine .bind (perform_alike agree only (by simp)) ?_
  intro _ ops _ created
  refine .bind (readFile_alike created shown) ?_
  intro data ops _ looked
  dsimp only
  split
  · exact .fail looked _
  · split
    · exact .fail looked _
    · split
      · refine .bind (perform_alike looked only (by simp)) ?_
        intro _ ops _ cut
        refine .bind (perform_alike cut only (by simp)) ?_
        intro _ ops _ mapped
        exact .pure mapped _
      · refine .bind (perform_alike looked only (by simp)) ?_
        intro _ ops _ mapped
        exact .pure mapped _

end

section
variable (agree : AgreeOff hidden first second) (only : IndexesOnly hidden)
include agree only

theorem openSealed_alike (cfg : StorageConfig) {bases : List Int} (shown : ∀ base ∈ bases, Shown hidden base) :
    Alike hidden (openSealed cfg bases) first second := by
  induction bases generalizing first second with
  | nil => exact .pure agree _
  | cons base bases ih =>
    have segment : Alike hidden (openSegmentStorage base cfg true) first second := by
      rw [openSegmentStorage]
      refine .bind (openLogSegment_alike agree only base _) ?_
      intro log ops _ logged
      refine .bind (openIndexReadOnly_alike offsetLayout base logged (shown base mem_cons_self).index) ?_
      intro offsets ops _ indexed
      refine .bind (openIndexReadOnly_alike timeLayout base indexed (shown base mem_cons_self).timeindex) ?_
      intro times ops _ stamped
      exact .pure stamped _
    refine .bind segment ?_
    intro seg ops _ after
    refine .bind (ih after fun later member => shown later (mem_cons_of_mem _ member)) ?_
    intro segs ops _ final
    exact .pure final _

theorem rebuildIndexes_alike (cfg : StorageConfig) (base : Int) (log : LogSegment)
    (offsetIdx : IndexSegment OffsetEntry) (timeIdx : IndexSegment TimeEntry) :
    Alike hidden (rebuildIndexes cfg base log offsetIdx timeIdx) first second := by
  refine .bind (readFile_alike agree (only.log base)) ?_
  intro file ops _ looked
  refine .bind (.ofExcept looked _) ?_
  intro scan ops _ scanned
  refine .bind (.ofExcept scanned _) ?_
  intro offsets ops _ indexed
  refine .bind (.ofExcept indexed _) ?_
  intro times ops _ stamped
  exact .pure stamped _

theorem recoverActive_alike (cfg : StorageConfig) {base : Int} (shown : Shown hidden base) :
    Alike hidden (recoverActive cfg base) first second := by
  refine .bind (readFile_alike agree (only.log base)) ?_
  intro file ops _ looked
  refine .bind (perform_alike looked only (by simp)) ?_
  intro _ ops _ cut
  refine .bind (perform_alike cut only (by simp)) ?_
  intro _ ops _ dropped
  refine .bind (perform_alike dropped only (by simp)) ?_
  intro _ ops _ removed
  refine .bind (openIndex_alike offsetLayout base removed only shown.index cfg) ?_
  intro offsets ops _ indexed
  refine .bind (openIndex_alike timeLayout base indexed only shown.timeindex cfg) ?_
  intro times ops _ stamped
  refine .bind (openLogSegment_alike stamped only base true) ?_
  intro log ops _ logged
  refine .bind (rebuildIndexes_alike logged only cfg base log offsets times) ?_
  intro seg ops _ rebuilt
  exact .pure rebuilt _

/-- Recovery opens the index files of the log files that it finds and no others. -/
theorem openStorage_alike (cfg : StorageConfig) (present : logBases second ≠ [])
    (shown : ∀ base ∈ logBases second, Shown hidden base) : Alike hidden (openStorage cfg) first second := by
  have listed : Alike hidden (Program.observe fun disk => .ok (logBases disk) : StorageProgram (List Int))
      first second := by
    refine .observe agree ?_
    rw [logBases_congr fun base => congrArg Option.isSome (agree _ (only.log base))]
  have recovered : Alike hidden (recoverStorage cfg) first second := by
    refine .bind listed ?_
    intro bases ops found after
    rw [Program.observe_run] at found
    obtain ⟨same, _⟩ := Prod.mk.inj found
    cases same
    cases ends : (logBases second).getLast? with
    | none => exact absurd (getLast?_eq_none_iff.mp ends) present
    | some active =>
      have last : active ∈ logBases second := mem_of_getLast? ends
      refine .bind (openSealed_alike after only cfg fun base member => shown base (dropLast_subset _ member)) ?_
      intro segs ops _ opened
      refine .bind (recoverActive_alike opened only cfg (shown active last)) ?_
      intro result ops _ final
      exact .pure final _
  refine .bind recovered ?_
  intro result ops _ after
  exact .pure after _

theorem removeSegments_alike (segs : List SegmentStorage) : Alike hidden (removeSegments segs) first second := by
  refine .of_run agree (removeSegments_run segs first) (removeSegments_run segs second) ?_
  intro op member
  refine only.keeps fun source target same => ?_
  obtain ⟨base, _, listed⟩ := mem_flatMap.mp member
  rw [same] at listed
  simp at listed

/-- The truncation of a shown segment does not see the hidden files. -/
theorem truncateSegment_alike (cfg : StorageConfig) {seg : SegmentStorage} (shown : Shown hidden seg.baseOffset)
    (offset : Int) : Alike hidden (truncateSegment cfg seg offset) first second := by
  have reopened : Alike hidden (reopenLog seg) first second := by
    rw [reopenLog]
    split
    · refine .bind (openLogSegment_alike agree only _ true) ?_
      intro log ops _ logged
      exact .pure logged _
    · exact .pure agree _
  have kept : ∀ disk opened ops, (reopenLog seg).run disk = (.ok opened, ops) → opened.baseOffset = seg.baseOffset := by
    intro disk opened ops ran
    rw [reopenLog] at ran
    split at ran
    · obtain ⟨log, before, behind, _, returned, _⟩ := Program.bind_run_ok ran
      cases returned
      rfl
    · cases ran
      rfl
  refine .bind reopened ?_
  intro opened ops ran logged
  have base := kept second opened ops ran
  refine .bind (readFile_alike logged (only.log _)) ?_
  intro file ops _ looked
  refine .bind (.bind (perform_alike looked only (by simp)) ?_) ?_
  · intro _ ops _ cut
    exact .pure cut _
  intro log ops _ cut
  refine .bind (perform_alike cut only (by simp)) ?_
  intro _ ops _ dropped
  refine .bind (perform_alike dropped only (by simp)) ?_
  intro _ ops _ removed
  refine .bind (openIndex_alike offsetLayout _ removed only (by rw [base]; exact shown.index) cfg) ?_
  intro offsets ops _ indexed
  refine .bind (openIndex_alike timeLayout _ indexed only (by rw [base]; exact shown.timeindex) cfg) ?_
  intro times ops _ stamped
  exact rebuildIndexes_alike stamped only cfg _ _ offsets times

theorem truncateTo_alike (cfg : StorageConfig) {s : StorageImpl}
    (shown : ∀ seg ∈ s.segments, Shown hidden seg.baseOffset) (offset : Int) :
    Alike hidden (s.truncateTo cfg offset) first second := by
  rw [truncateTo]
  split
  · exact .pure agree _
  · split
    · exact .fail agree _
    · dsimp only
      split
      · exact .pure agree _
      · next seg found =>
        refine .bind (removeSegments_alike agree only _) ?_
        intro _ ops _ removed
        refine .bind (truncateSegment_alike removed only cfg (shown seg (mem_of_getElem? found)) offset) ?_
        intro cut ops _ final
        exact .pure final _

end

end

theorem Vacant.congr {disk left : StorageDisk} {base : Int} (vacant : Vacant disk base)
    (log : left.lookup (.log base) = disk.lookup (.log base))
    (index : left.lookup (.index base) = disk.lookup (.index base))
    (timeindex : left.lookup (.timeindex base) = disk.lookup (.timeindex base)) : Vacant left base where
  log := log.trans vacant.log
  index data found := vacant.index data ((read_congr index).symm.trans found)
  timeindex data found := vacant.timeindex data ((read_congr timeindex).symm.trans found)

/-- A place is free as long as the files of its segment stay the same. -/
theorem vacant_iff {disk left : StorageDisk} {base : Int}
    (same : ∀ name : FileName, name.base? = some base → left.lookup name = disk.lookup name) :
    Vacant left base ↔ Vacant disk base :=
  ⟨fun vacant => vacant.congr (same _ rfl).symm (same _ rfl).symm (same _ rfl).symm,
    fun vacant => vacant.congr (same _ rfl) (same _ rfl) (same _ rfl)⟩

/-- A seal of one segment leaves the place of another one free. -/
theorem Vacant.seal {disk : StorageDisk} {base : Int} (vacant : Vacant disk base) {seg : SegmentStorage}
    (other : base ≠ seg.baseOffset) : Vacant (disk.applyAll (sealOps seg)) base := by
  obtain ⟨index, timeindex⟩ := lookup_index_sealOps seg disk other
  refine vacant.congr ?_ index timeindex
  have kept := read_log_sealOps seg disk base
  rw [vacant.log]
  simpa [Disk.read, vacant.log] using kept

section
variable {hidden : FileName → Prop} {first second : StorageDisk} {indexed : Prop} {cfg : StorageConfig}
  {s : StorageImpl} {log : PartitionLog}

theorem sealOps_keeps (only : IndexesOnly hidden) (seg : SegmentStorage) :
    ∀ op ∈ sealOps seg, op.KeepsHidden hidden := by
  intro op member
  refine only.keeps fun source target same => ?_
  rw [same] at member
  simp only [sealOps, sealIndexOps, mem_append, mem_singleton] at member
  split at member <;> split at member <;> simp at member

theorem newSegmentOps_keeps (only : IndexesOnly hidden) (cfg : StorageConfig) (base : Int) :
    ∀ op ∈ newSegmentOps cfg base, op.KeepsHidden hidden := by
  intro op member
  refine only.keeps fun source target same => ?_
  rw [same] at member
  simp [newSegmentOps, indexFileOps, indexOps] at member

theorem appendOps_keeps (only : IndexesOnly hidden) (cfg : StorageConfig) (log : PartitionLog) (batch : Bytes) :
    ∀ op ∈ appendOps cfg log batch, op.KeepsHidden hidden := by
  refine forall_mem_cons.mpr ⟨only.keeps (by simp), ?_⟩
  split
  · exact forall_mem_append.mpr ⟨sealOps_keeps only _, newSegmentOps_keeps only cfg _⟩
  · exact forall_mem_nil _

/-- A roll looks only at the place of the new segment. -/
theorem roll_alike (indexable : cfg.Indexable) (agree : AgreeOff hidden first second) (only : IndexesOnly hidden)
    {active : Segment} (mappable : Mappable cfg active) (ends : s.segments.getLast? = some (activeHandle cfg active))
    (other : s.nextOffset ≠ active.base)
    (vacant : Vacant first s.nextOffset) (free : Vacant second s.nextOffset) :
    Alike hidden (s.roll cfg) first second := by
  rw [roll, ends]
  refine .bind (.of_run agree (activeHandle_seal mappable first) (activeHandle_seal mappable second)
    (sealOps_keeps only _)) ?_
  intro sealedSeg ops ran after
  rw [activeHandle_seal mappable] at ran
  obtain ⟨_, rfl⟩ := Prod.mk.inj ran
  refine .bind (.of_run after (newSegmentStorage_run indexable (vacant.seal other))
    (newSegmentStorage_run indexable (free.seal other)) (newSegmentOps_keeps only cfg _)) ?_
  intro newSeg ops _ final
  exact .pure final _

/-- An append looks only at the place of the segment that it may roll to. -/
theorem append_alike (indexable : cfg.Indexable) (rep : Represents indexed cfg second s log)
    (agree : AgreeOff hidden first second) (only : IndexesOnly hidden) {batch : Bytes} (stored : StoredBatch batch)
    (rolls : ((log.pushed batch).bytes.length : Int) ≥ cfg.segmentMaxBytes →
      endOffsetOf (patchBaseOffset batch log.next) ∉ log.bases ∧
        Vacant first (endOffsetOf (patchBaseOffset batch log.next))) :
    Alike hidden (s.append cfg batch) first second := by
  have steps := rep.mounted.append_steps indexable (rep.spare indexable) stored
  refine .congr ?_ (steps first) (steps second)
  refine .bind (perform_alike agree only (by simp)) ?_
  intro _ ops ran after
  obtain ⟨_, rfl⟩ := Prod.mk.inj ran
  split
  · next full =>
    have stop := Segment.push_stop log.active (patchBaseOffset batch log.next)
    rw [← stop] at rolls
    obtain ⟨fresh, vacant⟩ := rolls full
    have absent := rep.holds.others _ fresh
    have other : (log.pushed batch).stop ≠ log.active.base :=
      fun same => fresh (same ▸ log.active_mem_bases)
    have untouched : ∀ disk : StorageDisk, Vacant disk (log.pushed batch).stop →
        Vacant (disk.applyAll [.append (.log log.active.base) (patchBaseOffset batch log.next)])
          (log.pushed batch).stop :=
      fun disk free => free.congr (by simp [other]) (by simp) (by simp)
    refine .bind (roll_alike indexable after only (rep.mappable_pushed indexable batch) (getLast?_concat ..) other
      (untouched _ vacant) (untouched _ absent.vacant)) ?_
    intro rolled ops _ final
    exact .pure final _
  · exact .pure after _

end

end BunnyMQ.Storage
