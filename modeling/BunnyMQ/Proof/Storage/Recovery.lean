/-
This file shows that opening a directory recovers the partition log in it.
-/

import BunnyMQ.Proof.Storage.Append

namespace BunnyMQ.Storage
open Foundation FileStore Framing StorageImpl Program List
variable {Entry : Type} {layout : EntryLayout Entry}

/-- A layout reads back every entry that it writes. -/
structure EntryLayout.Lawful {Entry : Type} (layout : EntryLayout Entry) : Prop where
  width_pos : 0 < layout.width
  put_length : ∀ entry, (layout.put entry).length = layout.width
  get_put : ∀ entry, layout.get (layout.put entry) = entry

theorem uint32At_put (word : UInt32) (before after : Bytes) :
    uint32At (before ++ (putUint 4 word.toNat ++ after)) before.length = word := by
  have stored := bytesAt_slice (bytesAt_middle before (putUint 4 word.toNat) after)
  rw [putUint_length] at stored
  rw [uint32At, stored, getUint_putUint_of_lt (by have bound := word.toNat_lt; omega), UInt32.ofNat_toNat]

theorem uint64At_put (word : UInt64) (before after : Bytes) :
    uint64At (before ++ (putUint 8 word.toNat ++ after)) before.length = word := by
  have stored := bytesAt_slice (bytesAt_middle before (putUint 8 word.toNat) after)
  rw [putUint_length] at stored
  rw [uint64At, stored, getUint_putUint_of_lt (by have bound := word.toNat_lt; omega), UInt64.ofNat_toNat]

theorem offsetLayout_lawful : offsetLayout.Lawful where
  width_pos := by decide
  put_length entry := by simp [offsetLayout]
  get_put entry := by
    have first := uint32At_put entry.relativeOffset.toUInt32 [] (putUint 4 entry.position.toUInt32.toNat)
    have second := uint32At_put entry.position.toUInt32 (putUint 4 entry.relativeOffset.toUInt32.toNat) []
    rw [putUint_length, append_nil] at second
    rw [nil_append, length_nil] at first
    simp only [offsetLayout, first, second]
    rfl

theorem timeLayout_lawful : timeLayout.Lawful where
  width_pos := by decide
  put_length entry := by simp [timeLayout]
  get_put entry := by
    have first := uint64At_put entry.timestampMs.toUInt64 [] (putUint 4 entry.relativeOffset.toUInt32.toNat)
    have second := uint32At_put entry.relativeOffset.toUInt32 (putUint 8 entry.timestampMs.toUInt64.toNat) []
    rw [putUint_length, append_nil] at second
    rw [nil_append, length_nil] at first
    simp only [timeLayout, first, second]
    rfl

theorem EntryLayout.Lawful.flatMap_length (lawful : layout.Lawful) (entries : List Entry) :
    (entries.flatMap layout.put).length = entries.length * layout.width := by
  induction entries with
  | nil => simp
  | cons entry entries ih =>
    rw [flatMap_cons, length_append, lawful.put_length, ih, length_cons, Nat.succ_mul, Nat.add_comm]

/-- An index file gives back its entries. -/
theorem EntryLayout.Lawful.entriesOf_flatMap (lawful : layout.Lawful) (entries : List Entry) :
    layout.entriesOf (entries.flatMap layout.put) = entries := by
  rw [EntryLayout.entriesOf, lawful.flatMap_length, Nat.mul_div_cancel _ lawful.width_pos]
  induction entries with
  | nil => rfl
  | cons entry entries ih =>
    have head : slice (layout.put entry ++ entries.flatMap layout.put) (0 * layout.width)
        (0 * layout.width + layout.width) = layout.put entry := by
      rw [Nat.zero_mul, Nat.zero_add, slice_append_left (by rw [lawful.put_length]), ← lawful.put_length entry,
        slice_zero_length]
    have tail : ∀ slot, slice (layout.put entry ++ entries.flatMap layout.put) ((slot + 1) * layout.width)
        ((slot + 1) * layout.width + layout.width) =
        slice (entries.flatMap layout.put) (slot * layout.width) (slot * layout.width + layout.width) := by
      intro slot
      have shifted := slice_append_right (layout.put entry) (entries.flatMap layout.put) (slot * layout.width)
        (slot * layout.width + layout.width)
      rw [lawful.put_length] at shifted
      rw [← shifted, Nat.succ_mul]
      congr 1 <;> omega
    rw [length_cons, range_succ_eq_map, map_cons, map_map, flatMap_cons, head,
      lawful.get_put]
    simp only [Function.comp_def, Nat.succ_eq_add_one, tail, ih]

instance : Std.Total segmentNameLe where
  total first second := by
    unfold segmentNameLe
    split <;> split <;> omega

instance : IsTrans Int segmentNameLe where
  trans first second third lower upper := by
    unfold segmentNameLe at *
    split at lower <;> split at upper <;> split <;> omega

instance : Std.Antisymm segmentNameLe where
  antisymm first second lower upper := by
    unfold segmentNameLe at *
    split at lower <;> split at upper <;> omega

theorem mem_logBases {disk : StorageDisk} {base : Int} :
    base ∈ logBases disk ↔ (disk.lookup (.log base)).isSome := by
  rw [logBases, mem_insertionSort, mem_filterMap, AList.lookup_isSome, AList.mem_keys]
  constructor
  · rintro ⟨name, member, found⟩
    cases name with
    | log other => exact Option.some.inj found ▸ member
    | index other | timeindex other | sidecar | sidecarTmp => cases found
  · intro member
    exact ⟨.log base, member, rfl⟩

theorem logBases_nodup (disk : StorageDisk) : (logBases disk).Nodup := by
  refine (perm_insertionSort _ _).nodup_iff.mpr (List.Nodup.filterMap ?_ disk.nodupKeys)
  intro first second base found same
  cases first <;> cases second <;> simp_all [FileName.logBase?]

/-- The list of the log files depends only on which of them exist. -/
theorem logBases_congr {first second : StorageDisk}
    (same : ∀ base, (first.lookup (.log base)).isSome = (second.lookup (.log base)).isSome) :
    logBases first = logBases second := by
  have members : (logBases first).Perm (logBases second) := by
    refine (perm_ext_iff_of_nodup (logBases_nodup first) (logBases_nodup second)).mpr fun base => ?_
    rw [mem_logBases, mem_logBases, same base]
  exact members.eq_of_pairwise' (pairwise_insertionSort _ _) (pairwise_insertionSort _ _)

section
variable {indexed : Prop} {cfg : StorageConfig} {disk : StorageDisk} {log : PartitionLog} {tail : Bytes}

/-- The sorted file names give the segments in offset order. -/
theorem DiskHolds.logBases_eq (holds : DiskHolds indexed cfg disk log tail) (formed : log.Formed) :
    logBases disk = log.bases := by
  have distinct : log.bases.Nodup := formed.increasing.imp fun lower => lower.ne
  have sorted : log.bases.Pairwise segmentNameLe := by
    refine formed.increasing.imp_of_mem fun {first second} member _ lower => ?_
    obtain ⟨seg, found, rfl⟩ := mem_map.mp member
    have nonneg := (formed.segment seg found).nonneg
    rw [segmentNameLe, if_neg (by omega)]
    exact lower.le
  have members : (logBases disk).Perm log.bases := by
    refine (perm_ext_iff_of_nodup (logBases_nodup disk) distinct).mpr fun base => ?_
    rw [mem_logBases]
    constructor
    · intro present
      by_contra absent
      rw [(holds.others base absent).log] at present
      cases present
    · intro member
      obtain ⟨seg, found, rfl⟩ := mem_map.mp member
      have stored : ∃ data, disk.read (.log seg.base) = some data := by
        rcases mem_append.mp found with closed | last
        · exact ⟨_, holds.closedLog seg closed⟩
        · rw [mem_singleton.mp last]
          exact ⟨_, holds.activeLog⟩
      obtain ⟨data, read⟩ := stored
      obtain ⟨content, lookup, _⟩ := read_eq_some.mp read
      rw [lookup]
      rfl
  exact members.eq_of_pairwise' (pairwise_insertionSort _ _) sorted

def readOnlyIndex {Entry : Type} (layout : EntryLayout Entry) (data : Bytes) (base : Int) : IndexSegment Entry :=
  ⟨layout.entriesOf data, base, data.length / layout.width, data.length⟩

theorem readOnlyIndex_exact (lawful : layout.Lawful) (entries : List Entry) (base : Int) :
    (readOnlyIndex layout (entries.flatMap layout.put) base).entries = entries ∧
      (readOnlyIndex layout (entries.flatMap layout.put) base).mapped =
        ((readOnlyIndex layout (entries.flatMap layout.put) base).entries.length * layout.width : Nat) := by
  rw [readOnlyIndex, lawful.entriesOf_flatMap, lawful.flatMap_length]
  exact ⟨rfl, rfl⟩

theorem openIndexReadOnly_run (layout : EntryLayout Entry) {file : FileName} {data : Bytes} (base : Int)
    (found : disk.read file = some data) :
    (openIndexReadOnly layout file base).run disk = (.ok (readOnlyIndex layout data base), []) := by
  rw [openIndexReadOnly, bind_ok (readFile_run found)]
  rfl

/-- A sealed segment opens without any file operation. -/
theorem openSegmentStorage_run {seg : Segment} (found : disk.read (.log seg.base) = some seg.bytes)
    (files : SealedFiles indexed cfg disk seg) :
    ∃ handle, (openSegmentStorage seg.base cfg true).run disk = (.ok handle, []) ∧
      SealedHandle indexed cfg handle seg := by
  obtain ⟨offsets, times, index, timeindex, exactly⟩ := files
  refine ⟨⟨⟨seg.base, seg.bytes.length, true⟩, readOnlyIndex offsetLayout offsets seg.base,
    readOnlyIndex timeLayout times seg.base, seg.base, true, 0⟩, ?_, rfl, rfl, rfl, rfl, ?_, ?_⟩
  · rw [openSegmentStorage, Bool.not_true, bind_ok (openLogSegment_sealed found), if_pos rfl, applyAll_nil,
      openOffsetIndexReadOnly, bind_ok (openIndexReadOnly_run offsetLayout seg.base index), applyAll_nil,
      openTimeIndexReadOnly, bind_ok (openIndexReadOnly_run timeLayout seg.base timeindex)]
    rfl
  · intro holds
    rw [(exactly holds).1]
    exact readOnlyIndex_exact offsetLayout_lawful _ seg.base
  · intro holds
    rw [(exactly holds).2]
    exact readOnlyIndex_exact timeLayout_lawful _ seg.base

theorem openSealed_run {closed : List Segment}
    (logs : ∀ seg ∈ closed, disk.read (.log seg.base) = some seg.bytes)
    (files : ∀ seg ∈ closed, SealedFiles indexed cfg disk seg) :
    ∃ handles, (openSealed cfg (closed.map Segment.base)).run disk = (.ok handles, []) ∧
      List.Forall₂ (SealedHandle indexed cfg) handles closed := by
  induction closed with
  | nil => exact ⟨[], rfl, .nil⟩
  | cons seg closed ih =>
    obtain ⟨handle, opened, handleOk⟩ := openSegmentStorage_run (logs seg mem_cons_self)
      (files seg mem_cons_self)
    obtain ⟨handles, rest, handlesOk⟩ := ih (fun other member => logs other (mem_cons_of_mem _ member))
      (fun other member => files other (mem_cons_of_mem _ member))
    refine ⟨handle :: handles, ?_, .cons handleOk handlesOk⟩
    rw [map_cons, openSealed, bind_ok opened, applyAll_nil, bind_ok rest]
    rfl

/-- Recovery cuts the log behind its last batch and writes new index files. -/
def recoveryOps (cfg : StorageConfig) (seg : Segment) : List (FileOp FileName) :=
  .truncate (.log seg.base) seg.bytes.length :: (restoreOps cfg seg.base ++ [.create (.log seg.base)])

/-- Recovery drops the torn tail and rebuilds both indexes. -/
theorem recoverActive_run (allocates : cfg.Allocates) {seg : Segment}
    (stored : ∀ batch ∈ seg.batches, StoredBatch batch)
    (found : disk.read (.log seg.base) = some (seg.bytes ++ tail)) (torn : next recoveryFormat tail = none) :
    ∃ crcErrors, (recoverActive cfg seg.base).run disk =
        ((rebuilt cfg seg).map fun handle => (handle, seg.stop, crcErrors), recoveryOps cfg seg) ∧
      (disk.applyAll (recoveryOps cfg seg)).read (.log seg.base) = some seg.bytes := by
  obtain ⟨validPos, nextOffset⟩ := scanActiveLog_torn stored torn seg.base
  have cut := read_truncate found
  have restored := read_log_restoreOps cfg seg.base
    (disk.apply (.truncate (.log seg.base) seg.bytes.length)) seg.base
  rw [cut] at restored
  have created : (((disk.apply (.truncate (.log seg.base) seg.bytes.length)).applyAll
      (restoreOps cfg seg.base)).apply (.create (.log seg.base))).read (.log seg.base) = some seg.bytes := by
    obtain ⟨left, present, bytes⟩ := read_eq_some.mp restored
    exact read_eq_some.mpr ⟨left, by simp [present], bytes⟩
  have index : (((disk.apply (.truncate (.log seg.base) seg.bytes.length)).apply
      (.remove (.index seg.base))).apply (.remove (.timeindex seg.base))).lookup (.index seg.base) = none := by
    simp
  have timeindex : ((((disk.apply (.truncate (.log seg.base) seg.bytes.length)).apply
      (.remove (.index seg.base))).apply (.remove (.timeindex seg.base))).applyAll
      (indexOps cfg offsetLayout.width (.index seg.base))).lookup (.timeindex seg.base) = none := by
    simp [indexOps]
  have rebuilding := @rebuildIndexes_run cfg seg (fun batch member => (stored batch member).scanned) _ created
  have logged := openLogSegment_create created
  refine ⟨(scanActiveLog (seg.bytes ++ tail) seg.base).2.2, ?_, ?_⟩
  · rw [recoverActive, bind_ok (readFile_run found)]
    simp only [applyAll_nil, nil_append]
    change _ = seg.bytes.length at validPos
    change (scanActiveLog (seg.bytes ++ tail) seg.base).2.1 = seg.stop at nextOffset
    rw [show (scanActiveLog (seg.bytes ++ tail) seg.base).1 = seg.bytes.length from validPos, nextOffset,
      perform_bind, perform_bind, perform_bind, openOffsetIndex, openTimeIndex,
      bind_ok (openIndex_missing offsetLayout seg.base index allocates.sample allocates.offsets),
      bind_ok (openIndex_missing timeLayout seg.base timeindex allocates.sample allocates.times)]
    simp only [restoreOps, indexFileOps, applyAll_cons, applyAll_append] at logged rebuilding
    rw [bind_ok logged]
    simp only [applyAll_cons, applyAll_nil]
    rw [bind_pure_run rebuilding]
    simp [recoveryOps, restoreOps, indexFileOps]
  · rw [recoveryOps, applyAll_cons, applyAll_append, applyAll_cons, applyAll_nil]
    exact created

theorem lookup_log_recoveryOps (cfg : StorageConfig) {seg : Segment} {base : Int} (other : base ≠ seg.base)
    (disk : StorageDisk) :
    (disk.applyAll (recoveryOps cfg seg)).lookup (.log base) = disk.lookup (.log base) := by
  simp [recoveryOps, restoreOps, indexFileOps, indexOps, other]

theorem lookup_index_recoveryOps (cfg : StorageConfig) {seg : Segment} {base : Int} (other : base ≠ seg.base)
    (disk : StorageDisk) :
    (disk.applyAll (recoveryOps cfg seg)).lookup (.index base) = disk.lookup (.index base) ∧
      (disk.applyAll (recoveryOps cfg seg)).lookup (.timeindex base) = disk.lookup (.timeindex base) := by
  simp [recoveryOps, restoreOps, indexFileOps, indexOps, other]

/-- The recovered directory holds the log without its torn tail. -/
theorem DiskHolds.recover (holds : DiskHolds indexed cfg disk log tail)
    (distinct : ∀ seg ∈ log.closedSegs, seg.base ≠ log.active.base)
    (cut : (disk.applyAll (recoveryOps cfg log.active)).read (.log log.active.base) = some log.active.bytes) :
    DiskHolds indexed cfg (disk.applyAll (recoveryOps cfg log.active)) log [] where
  closedLog seg member := by
    rw [← holds.closedLog seg member]
    exact read_congr (lookup_log_recoveryOps cfg (distinct seg member) disk)
  closedIndex seg member := by
    obtain ⟨index, timeindex⟩ := lookup_index_recoveryOps cfg (distinct seg member) disk
    exact sealedFiles_congr (holds.closedIndex seg member) index timeindex
  activeLog := by rw [cut, append_nil]
  others base absent := by
    have old := holds.others base absent
    have other : base ≠ log.active.base := fun same => absent (same ▸ log.active_mem_bases)
    obtain ⟨index, timeindex⟩ := lookup_index_recoveryOps cfg other disk
    exact ⟨(lookup_log_recoveryOps cfg other disk).trans old.log, index.trans old.index,
      timeindex.trans old.timeindex⟩

theorem empty_logBases (empty : ∀ base, Absent disk base) : logBases disk = [] := by
  refine eq_nil_iff_forall_not_mem.mpr fun base member => ?_
  rw [mem_logBases, (empty base).log] at member
  cases member

/-- The open storage starts with the configured retention. -/
def openedStorage (cfg : StorageConfig) (segments : List SegmentStorage) (nextOffset : Int) : StorageImpl :=
  ⟨segments, nextOffset, cfg.defaultRetentionMs, cfg.defaultRetentionBytes, false⟩

/-- The recovered segments are the sealed ones and the rebuilt active one. -/
theorem recoverStorage_eq {closed : List Int} {handles : List SegmentStorage} {seg : Segment} {crcErrors : Nat}
    (bases : logBases disk = closed ++ [seg.base]) (opened : (openSealed cfg closed).run disk = (.ok handles, []))
    (recovered : (recoverActive cfg seg.base).run disk =
      ((rebuilt cfg seg).map fun handle => (handle, seg.stop, crcErrors), recoveryOps cfg seg)) :
    (recoverStorage cfg).run disk =
      ((rebuilt cfg seg).map fun active => (handles ++ [active], seg.stop, crcErrors), recoveryOps cfg seg) := by
  have observed : (observe fun disk => .ok (logBases disk) : StorageProgram (List Int)).run disk =
      (.ok (closed ++ [seg.base]), []) := by
    rw [observe_run, bases]
  rw [recoverStorage, bind_ok observed]
  simp only [getLast?_concat, dropLast_concat, applyAll_nil]
  rw [bind_ok opened, applyAll_nil, bind_pure_run recovered]
  cases rebuilt cfg seg with
  | ok active => rfl
  | error failure => rfl

section
variable (indexable : cfg.Indexable) (formed : log.Formed) (holds : DiskHolds indexed cfg disk log tail)
  (torn : Framing.next recoveryFormat tail = none)
include indexable formed holds torn

/-- Opening a directory recovers the whole batches in it when their entries fit into the mapping. -/
theorem openStorage_eq :
    ∃ handles, List.Forall₂ (SealedHandle indexed cfg) handles log.closedSegs ∧
      (openStorage cfg).run disk =
        ((rebuilt cfg log.active).map fun active => openedStorage cfg (handles ++ [active]) log.next,
          recoveryOps cfg log.active) ∧
      (disk.applyAll (recoveryOps cfg log.active)).read (.log log.active.base) = some log.active.bytes := by
  have bases : logBases disk = log.closedSegs.map Segment.base ++ [log.active.base] := by
    rw [holds.logBases_eq formed, PartitionLog.bases, PartitionLog.segments, map_append, map_singleton]
  obtain ⟨handles, opened, handlesOk⟩ := openSealed_run holds.closedLog holds.closedIndex
  obtain ⟨crcErrors, recovered, cut⟩ := recoverActive_run indexable.allocates formed.active.stored holds.activeLog torn
  refine ⟨handles, handlesOk, ?_, cut⟩
  have shaped : (openStorage cfg).run disk = _ :=
    bind_pure_run (recoverStorage_eq bases opened recovered) fun found => openedStorage cfg found.1 found.2.1
  rw [shaped]
  cases rebuilt cfg log.active with
  | ok active => rfl
  | error failure => rfl

/-- A log whose entries fit is opened as it stands. -/
theorem openStorage_mounted (room : Mappable cfg log.active) :
    ∃ s, (openStorage cfg).run disk = (.ok s, recoveryOps cfg log.active) ∧
      Mounted indexed cfg (disk.applyAll (recoveryOps cfg log.active)) s log := by
  obtain ⟨handles, handlesOk, ran, cut⟩ := openStorage_eq indexable formed holds torn
  rw [rebuilt, if_pos room] at ran
  refine ⟨_, ran, formed, ⟨handles, rfl, handlesOk⟩, rfl, rfl, holds.recover formed.distinct cut, ?_⟩
  constructor <;> simp [recoveryOps, restoreOps, indexFileOps, indexOps]

end

theorem openStorage_run (indexable : cfg.Indexable) (valid : log.Valid cfg.segmentMaxBytes)
    (holds : DiskHolds indexed cfg disk log tail) (torn : Framing.next recoveryFormat tail = none) :
    ∃ s, (openStorage cfg).run disk = (.ok s, recoveryOps cfg log.active) ∧
      Represents indexed cfg (disk.applyAll (recoveryOps cfg log.active)) s log := by
  obtain ⟨s, ran, mounted⟩ := openStorage_mounted indexable valid.formed holds torn
    (mappable_of_slack indexable valid.slack)
  exact ⟨s, ran, mounted.represents valid⟩

/-- A configuration that leaves no byte for an index entry cannot open an empty directory. -/
theorem openStorage_fails (empty : ∀ base, Absent disk base) (sample : 1 ≤ cfg.indexSampleBytes)
    (none : cfg.allocSize offsetLayout.width ≤ 0) :
    (openStorage cfg).run disk = (.error errInvalidArgument, [.create (.log 0), .create (.index 0)]) := by
  have missing : logBases disk = [] := empty_logBases empty
  have observed : (observe fun disk => .ok (logBases disk) : StorageProgram (List Int)).run disk =
      (.ok [], []) := by
    rw [observe_run, missing]
  have log : (disk.apply (.create (.log 0))).read (.log 0) = some [] := by
    simp [Disk.read, (empty 0).log, File.empty]
  have index : ((disk.apply (.create (.log 0))).apply (.create (.index 0))).read (.index 0) = some [] := by
    simp [Disk.read, (empty 0).index, File.empty]
  have refused : (openOffsetIndex 0 cfg).run (disk.apply (.create (.log 0))) =
      (.error errInvalidArgument, [.create (.index 0)]) := by
    rw [openOffsetIndex, openIndex, perform_bind, bind_ok (readFile_run index)]
    simp only [if_neg (by omega : ¬ cfg.indexSampleBytes = 0), if_pos none, fail_run]
    rfl
  have created : (newSegmentStorage 0 cfg).run disk =
      (.error errInvalidArgument, [.create (.log 0), .create (.index 0)]) := by
    rw [newSegmentStorage, bind_ok (openLogSegment_create log), applyAll_cons, applyAll_nil,
      bind_error refused]
    rfl
  rw [openStorage, bind_error]
  rw [recoverStorage, bind_ok observed]
  simp only [getLast?_nil, applyAll_nil]
  rw [bind_error created]
  rfl

/-- A successful first open has room for its index entries. -/
theorem indexable_of_open (empty : ∀ base, Absent disk base) (segment : 1 ≤ cfg.segmentMaxBytes)
    (small : cfg.segmentMaxBytes ≤ 2 ^ 31) (sample : 1 ≤ cfg.indexSampleBytes)
    (sampleMax : cfg.indexSampleBytes < 2 ^ 63) {s : StorageImpl} {ops : List (FileOp FileName)}
    (opened : (openStorage cfg).run disk = (.ok s, ops)) : cfg.Indexable := by
  by_cases overflow : 2 ^ 63 < cfg.segmentMaxBytes + cfg.indexSampleBytes
  · rw [openStorage_fails empty sample (StorageConfig.allocSize_nonpos segment small sampleMax overflow)] at opened
    cases opened
  · exact StorageConfig.indexable_of_bounds segment sample (by omega) (by omega)

/-- Opening an empty directory creates the first segment. -/
theorem openStorage_empty_eq (indexable : cfg.Indexable) (empty : ∀ base, Absent disk base) (indexed : Prop) :
    (openStorage cfg).run disk = (.ok (openedStorage cfg [activeHandle cfg ⟨0, []⟩] 0), newSegmentOps cfg 0) ∧
      Represents indexed cfg (disk.applyAll (newSegmentOps cfg 0)) (openedStorage cfg [activeHandle cfg ⟨0, []⟩] 0)
        PartitionLog.empty := by
  have none := empty_logBases empty
  have observed : (observe fun disk => .ok (logBases disk) : StorageProgram (List Int)).run disk =
      (.ok [], []) := by
    rw [observe_run, none]
  have created := newSegmentStorage_run indexable (empty 0).vacant
  have segments : (recoverStorage cfg).run disk =
      (.ok ([activeHandle cfg ⟨0, []⟩], 0, 0), newSegmentOps cfg 0) := by
    rw [recoverStorage, bind_ok observed]
    simp only [getLast?_nil, applyAll_nil]
    rw [bind_ok created]
    simp
  refine ⟨?_, PartitionLog.valid_empty indexable.segment, ⟨[], rfl, .nil⟩, rfl, rfl,
    ⟨by simp [PartitionLog.empty], by simp [PartitionLog.empty], ?_, ?_⟩, ?_⟩
  · rw [openStorage, bind_ok segments]
    simp [openedStorage]
  · simp [newSegmentOps, indexFileOps, indexOps, PartitionLog.empty, Segment.bytes, Disk.read, (empty 0).log,
      File.empty]
  · intro base absent
    have other : base ≠ 0 := by simpa [PartitionLog.bases, PartitionLog.segments, PartitionLog.empty] using absent
    have old := empty base
    exact ⟨by simp [newSegmentOps, indexFileOps, indexOps, other, old.log],
      by simp [newSegmentOps, indexFileOps, indexOps, other, old.index],
      by simp [newSegmentOps, indexFileOps, indexOps, other, old.timeindex]⟩
  · rw [newSegmentOps, applyAll_cons]
    exact indexFiles_indexFileOps cfg 0 _

theorem openStorage_empty (indexable : cfg.Indexable) (empty : ∀ base, Absent disk base) (indexed : Prop) :
    ∃ s, (openStorage cfg).run disk = (.ok s, newSegmentOps cfg 0) ∧
      Represents indexed cfg (disk.applyAll (newSegmentOps cfg 0)) s PartitionLog.empty :=
  ⟨_, openStorage_empty_eq indexable empty indexed⟩

/-- A close seals the active segment, and the directory still holds the same log. -/
theorem close_run {s : StorageImpl} (indexable : cfg.Indexable) (rep : Represents indexed cfg disk s log) :
    ∃ left, s.close.run disk = (.ok left, sealOps (activeHandle cfg log.active)) ∧
      DiskHolds indexed cfg (disk.applyAll (sealOps (activeHandle cfg log.active))) log [] := by
  obtain ⟨closed, segments, _⟩ := rep.handles
  refine ⟨{ s with segments := closed ++ [sealHandle (activeHandle cfg log.active)], closed := true }, ?_,
    rep.holds.seal rep.valid.distinct⟩
  have writable : (activeHandle cfg log.active).isSealed = false := rfl
  simp only [StorageImpl.close, rep.opened, rep.mounted.getLast, writable, Bool.false_eq_true, if_false]
  rw [bind_ok (activeHandle_seal (mappable_of_slack indexable rep.valid.slack) _)]
  simp [segments]

end

end BunnyMQ.Storage
