/-
This file gives the exact file operations of each step on a segment.
-/

import BunnyMQ.Proof.Storage.Sampling

namespace BunnyMQ.Storage
open Foundation FileStore Framing StorageImpl Program List
variable {disk : StorageDisk} {file : FileName} {data : Bytes} {base : Int} {Entry : Type} {cfg : StorageConfig}
  {seg : Segment}

theorem readFile_run (found : disk.read file = some data) : (readFile file).run disk = (.ok data, []) := by
  rw [readFile, observe_run, found]

theorem read_eq_some :
    disk.read file = some data ↔ ∃ content, disk.lookup file = some content ∧ content.data = data := by
  simp [Disk.read]

theorem read_congr {first second : StorageDisk} (same : first.lookup file = second.lookup file) :
    first.read file = second.read file := by
  rw [Disk.read, Disk.read, same]

theorem openLogSegment_create (found : (disk.apply (.create (.log base))).read (.log base) = some data) :
    (openLogSegment base true).run disk = (.ok ⟨base, data.length, false⟩, [.create (.log base)]) := by
  rw [openLogSegment, if_pos rfl, perform_bind, bind_ok (readFile_run found)]
  rfl

theorem openLogSegment_sealed (found : disk.read (.log base) = some data) :
    (openLogSegment base false).run disk = (.ok ⟨base, data.length, true⟩, []) := by
  rw [openLogSegment, if_neg Bool.false_ne_true, bind_ok (readFile_run found)]
  rfl

/-- A new index file is created, allocated and mapped. -/
def indexOps (cfg : StorageConfig) (width : Nat) (file : FileName) : List (FileOp FileName) :=
  [.create file, .truncate file (cfg.allocSize width).toNat, .mmap file]

/-- An index file without a whole entry opens as an empty index. -/
theorem openIndex_run (layout : EntryLayout Entry) (base : Int)
    (short : ∀ data, disk.read file = some data → data.length < layout.width) (sample : 1 ≤ cfg.indexSampleBytes)
    (width : 0 < layout.width) (room : layout.width ≤ cfg.allocSize layout.width) :
    (openIndex layout file base cfg).run disk =
      (.ok ⟨[], base, cfg.maxEntries, cfg.allocSize layout.width⟩, indexOps cfg layout.width file) := by
  obtain ⟨data, created, small⟩ : ∃ data, (disk.apply (.create file)).read file = some data ∧
      data.length < layout.width := by
    cases present : disk.lookup file with
    | none => exact ⟨[], by simp [Disk.read, present, File.empty], width⟩
    | some content =>
      exact ⟨content.data, by simp [Disk.read, present], short _ (read_eq_some.mpr ⟨content, present, rfl⟩)⟩
  have empty : layout.entriesOf data = [] := by
    rw [EntryLayout.entriesOf, Nat.div_eq_of_lt small]
    rfl
  rw [openIndex, perform_bind, bind_ok (readFile_run created), if_neg (by omega),
    if_neg (by omega), if_pos (by omega), empty]
  rfl

theorem short_of_missing (missing : disk.lookup file = none) (width : Nat) :
    ∀ data, disk.read file = some data → data.length < width := by
  intro data found
  rw [Disk.read, missing] at found
  cases found

/-- The configuration maps index files. -/
structure StorageConfig.Allocates (cfg : StorageConfig) : Prop where
  sample : cfg.indexSampleBytes ≠ 0
  offsets : 0 < cfg.allocSize offsetLayout.width
  times : 0 < cfg.allocSize timeLayout.width

theorem StorageConfig.Indexable.allocates (indexable : cfg.Indexable) : cfg.Allocates where
  sample := by
    have sample := indexable.sample
    omega
  offsets := lt_of_lt_of_le (by decide) indexable.offsets_le
  times := lt_of_lt_of_le (by decide) indexable.times_le

/-- A missing index file is created empty. -/
theorem openIndex_missing (layout : EntryLayout Entry) (base : Int) (missing : disk.lookup file = none)
    (sample : cfg.indexSampleBytes ≠ 0) (room : 0 < cfg.allocSize layout.width) :
    (openIndex layout file base cfg).run disk =
      (.ok ⟨[], base, cfg.maxEntries, cfg.allocSize layout.width⟩, indexOps cfg layout.width file) := by
  have created : (disk.apply (.create file)).read file = some [] := by
    simp [Disk.read, missing, File.empty]
  have empty : layout.entriesOf [] = [] := by
    rw [EntryLayout.entriesOf, length_nil, Nat.zero_div]
    rfl
  rw [openIndex, perform_bind, bind_ok (readFile_run created), if_neg sample,
    if_neg (not_le.mpr room), if_pos (by simpa using room), empty]
  rfl

theorem openOffsetIndex_run (indexable : cfg.Indexable)
    (short : ∀ data, disk.read (.index base) = some data → data.length < offsetLayout.width) :
    (openOffsetIndex base cfg).run disk =
      (.ok ⟨[], base, cfg.maxEntries, cfg.allocSize offsetLayout.width⟩,
        indexOps cfg offsetLayout.width (.index base)) :=
  openIndex_run offsetLayout base short indexable.sample (by decide) indexable.offsets_le

theorem openTimeIndex_run (indexable : cfg.Indexable)
    (short : ∀ data, disk.read (.timeindex base) = some data → data.length < timeLayout.width) :
    (openTimeIndex base cfg).run disk =
      (.ok ⟨[], base, cfg.maxEntries, cfg.allocSize timeLayout.width⟩,
        indexOps cfg timeLayout.width (.timeindex base)) :=
  openIndex_run timeLayout base short indexable.sample (by decide) indexable.times_le

section
variable {Entry : Type} {layout : EntryLayout Entry} {index : IndexSegment Entry}

/-- An index with a free slot takes one more entry. -/
theorem IndexSegment.append_ok (entry : Entry) (free : (index.entries.length : Int) < index.maxEntries)
    (room : index.maxEntries * layout.width ≤ index.mapped) :
    index.append layout entry = .ok { index with entries := index.entries ++ [entry] } := by
  have slots : ((index.entries.length + 1 : Nat) : Int) * layout.width ≤ index.maxEntries * layout.width :=
    mul_le_mul_of_nonneg_right (by push_cast; omega) (by omega)
  rw [IndexSegment.append, if_neg (by omega), if_neg (by push_cast at slots ⊢; omega)]

end

/-- The handle of the active segment is determined by its batches. -/
def activeHandle (cfg : StorageConfig) (seg : Segment) : SegmentStorage where
  log := ⟨seg.base, seg.bytes.length, false⟩
  offsetIdx := ⟨(sampled cfg seg.base seg.batches).offEntries, seg.base, cfg.maxEntries,
    cfg.allocSize offsetLayout.width⟩
  timeIdx := ⟨(sampled cfg seg.base seg.batches).tEntries, seg.base, cfg.maxEntries,
    cfg.allocSize timeLayout.width⟩
  baseOffset := seg.base
  isSealed := false
  bytesSinceLastIndex := (sampled cfg seg.base seg.batches).bytesSince

@[simp] theorem activeHandle_baseOffset (cfg : StorageConfig) (seg : Segment) :
    (activeHandle cfg seg).baseOffset = seg.base := rfl

/-- None of the three files of a segment exists. -/
structure Absent (disk : StorageDisk) (base : Int) : Prop where
  log : disk.lookup (.log base) = none
  index : disk.lookup (.index base) = none
  timeindex : disk.lookup (.timeindex base) = none

theorem empty_absent (base : Int) : Absent (∅ : StorageDisk) base :=
  ⟨AList.lookup_empty _, AList.lookup_empty _, AList.lookup_empty _⟩

def indexFileOps (cfg : StorageConfig) (base : Int) : List (FileOp FileName) :=
  indexOps cfg offsetLayout.width (.index base) ++ indexOps cfg timeLayout.width (.timeindex base)

def newSegmentOps (cfg : StorageConfig) (base : Int) : List (FileOp FileName) :=
  .create (.log base) :: indexFileOps cfg base

/-- A segment can be created here. Its log is missing, and no index file of it holds a whole entry. -/
structure Vacant (disk : StorageDisk) (base : Int) : Prop where
  log : disk.lookup (.log base) = none
  index : ∀ data, disk.read (.index base) = some data → data.length < offsetLayout.width
  timeindex : ∀ data, disk.read (.timeindex base) = some data → data.length < timeLayout.width

theorem Absent.vacant (absent : Absent disk base) : Vacant disk base :=
  ⟨absent.log, short_of_missing absent.index _, short_of_missing absent.timeindex _⟩

theorem newSegmentStorage_run (indexable : cfg.Indexable) (vacant : Vacant disk base) :
    (newSegmentStorage base cfg).run disk = (.ok (activeHandle cfg ⟨base, []⟩), newSegmentOps cfg base) := by
  have log : (disk.apply (.create (.log base))).read (.log base) = some [] := by
    simp [Disk.read, vacant.log, File.empty]
  have index : (disk.applyAll [.create (.log base)]).read (.index base) = disk.read (.index base) :=
    read_congr (by simp)
  have timeindex : ((disk.applyAll [.create (.log base)]).applyAll
      (indexOps cfg offsetLayout.width (.index base))).read (.timeindex base) = disk.read (.timeindex base) :=
    read_congr (by simp [indexOps])
  rw [newSegmentStorage, bind_ok (openLogSegment_create log),
    bind_ok (openOffsetIndex_run indexable (index ▸ vacant.index)),
    bind_ok (openTimeIndex_run indexable (timeindex ▸ vacant.timeindex)), pure_run, append_nil]
  rfl

theorem read_create (disk : StorageDisk) (file : FileName) :
    (disk.apply (.create file)).read file = some ((disk.read file).getD []) := by
  cases found : disk.lookup file with
  | none => simp [Disk.read, found, File.empty]
  | some content => simp [Disk.read, found]

/-- An opened index takes every whole entry that it finds in its file. -/
theorem openIndex_ok {layout : EntryLayout Entry} {index : IndexSegment Entry} {ops : List (FileOp FileName)}
    (ran : (openIndex layout file base cfg).run disk = (.ok index, ops)) :
    index = ⟨layout.entriesOf ((disk.read file).getD []), base, cfg.maxEntries, cfg.allocSize layout.width⟩ ∧
      cfg.indexSampleBytes ≠ 0 ∧ 0 < cfg.allocSize layout.width ∧ ∀ op ∈ ops, op.touches = [file] := by
  rw [openIndex, perform_bind, bind_ok (readFile_run (read_create disk file))] at ran
  dsimp only at ran
  split at ran
  · cases ran
  next sample =>
  split at ran
  · cases ran
  next positive =>
  split at ran
  · cases ran
    refine ⟨rfl, sample, not_le.mp positive, ?_⟩
    intro op member
    change op ∈ [.create file, .truncate file (cfg.allocSize layout.width).toNat, .mmap file] at member
    simp only [mem_cons, not_mem_nil, or_false] at member
    rcases member with rfl | rfl | rfl <;> rfl
  · cases ran
    refine ⟨rfl, sample, not_le.mp positive, ?_⟩
    intro op member
    change op ∈ [.create file, .mmap file] at member
    simp only [mem_cons, not_mem_nil, or_false] at member
    rcases member with rfl | rfl <;> rfl

/-- A new segment takes over the entries that it finds in files of its name. -/
theorem newSegmentStorage_ok (missing : disk.lookup (.log base) = none) {created : SegmentStorage}
    {ops : List (FileOp FileName)} (ran : (newSegmentStorage base cfg).run disk = (.ok created, ops)) :
    created = ⟨⟨base, 0, false⟩,
        ⟨offsetLayout.entriesOf ((disk.read (.index base)).getD []), base, cfg.maxEntries,
          cfg.allocSize offsetLayout.width⟩,
        ⟨timeLayout.entriesOf ((disk.read (.timeindex base)).getD []), base, cfg.maxEntries,
          cfg.allocSize timeLayout.width⟩, base, false, 0⟩ ∧
      cfg.Allocates ∧ (disk.applyAll ops).read (.log base) = some [] := by
  have log : (disk.apply (.create (.log base))).read (.log base) = some [] := by
    simp [Disk.read, missing, File.empty]
  obtain ⟨logSeg, _, _, opened, indexed, rfl⟩ := bind_run_ok ran
  rw [openLogSegment_create log] at opened
  cases opened
  obtain ⟨offsetIdx, indexing, _, offsets, stamped, rfl⟩ := bind_run_ok indexed
  obtain ⟨timeIdx, stamping, _, times, returned, rfl⟩ := bind_run_ok stamped
  cases returned
  obtain ⟨rfl, sample, offsetRoom, onlyIndex⟩ := openIndex_ok offsets
  obtain ⟨rfl, _, timeRoom, onlyTimes⟩ := openIndex_ok times
  have index : (disk.applyAll [.create (.log base)]).read (.index base) = disk.read (.index base) :=
    read_congr (by simp)
  have timeindex : ((disk.applyAll [.create (.log base)]).applyAll indexing).read (.timeindex base) =
      disk.read (.timeindex base) := by
    refine read_congr ?_
    rw [lookup_applyAll_of_not_touched _ _ _ fun op member => ?_]
    · simp
    · rw [onlyIndex op member]
      simp
  refine ⟨by rw [index, timeindex]; rfl, ⟨sample, offsetRoom, timeRoom⟩, ?_⟩
  rw [append_nil, applyAll_append, applyAll_append, ← log]
  refine read_congr ?_
  rw [lookup_applyAll_of_not_touched _ stamping _ fun op member => by rw [onlyTimes op member]; simp,
    lookup_applyAll_of_not_touched _ indexing _ fun op member => by rw [onlyIndex op member]; simp]
  rfl

/-- The number of index entries that the segment has under the configuration. -/
def entryCount (cfg : StorageConfig) (seg : Segment) : Nat := (sampled cfg seg.base seg.batches).offEntries.length

/-- A batch gets an entry exactly if it is due. -/
theorem entryCount_push (cfg : StorageConfig) (base : Int) (batches : List Bytes) (batch : Bytes) :
    entryCount cfg ⟨base, batches ++ [batch]⟩ = entryCount cfg ⟨base, batches⟩ +
      if (sampled cfg base batches).bytesSince ≥ cfg.indexSampleBytes then 1 else 0 := by
  rw [entryCount, sampled_push, IndexScan.visit, entryCount]
  split
  · rw [length_append, length_singleton]
  · rfl

/-- The next entry of the segment has a free slot. -/
def SpareSlot (cfg : StorageConfig) (seg : Segment) : Prop :=
  (sampled cfg seg.base seg.batches).bytesSince ≥ cfg.indexSampleBytes →
    ((sampled cfg seg.base seg.batches).offEntries.length : Int) < cfg.maxEntries

theorem spareSlot_of_slack (indexable : cfg.Indexable)
    (slack : (seg.batches.dropLast.flatten.length : Int) < cfg.segmentMaxBytes) : SpareSlot cfg seg :=
  fun _ => indexable.sampled_lt slack

/-- With a free slot the entries still fit behind an append. -/
theorem SpareSlot.push (spare : SpareSlot cfg seg) (few : (entryCount cfg seg : Int) ≤ cfg.maxEntries) (batch : Bytes) :
    (entryCount cfg (seg.push batch) : Int) ≤ cfg.maxEntries := by
  have pushed : entryCount cfg (seg.push batch) = entryCount cfg seg + _ :=
    entryCount_push cfg seg.base seg.batches batch
  rw [pushed]
  split
  · next due =>
    have free : (entryCount cfg seg : Int) < cfg.maxEntries := spare due
    omega
  · exact few

/-- An append to the active segment is one write to the log. -/
theorem activeHandle_append (indexable : cfg.Indexable) (spare : SpareSlot cfg seg) {batch : Bytes}
    (long : 38 ≤ batch.length) (disk : StorageDisk) :
    ((activeHandle cfg seg).append cfg batch).run disk =
      (.ok ((seg.bytes.length : Int), activeHandle cfg (seg.push batch)), [.append (.log seg.base) batch]) := by
  have pushed := sampled_push cfg seg.base seg.batches batch
  have size : (seg.push batch).bytes.length = seg.bytes.length + batch.length := by
    rw [Segment.push_bytes, length_append]
  have written : ((activeHandle cfg seg).log.append batch).run disk =
      (.ok ((seg.bytes.length : Int), ⟨seg.base, ((seg.push batch).bytes.length : Nat), false⟩),
        [.append (.log seg.base) batch]) := by
    rw [size, Nat.cast_add]
    rfl
  rw [SegmentStorage.append, bind_ok written]
  simp only [if_neg (show ¬ batch.length < 38 by omega)]
  rw [IndexScan.visit] at pushed
  by_cases due : (sampled cfg seg.base seg.batches).bytesSince ≥ cfg.indexSampleBytes
  · have count := spare due
    have offsetIdx : (activeHandle cfg seg).offsetIdx.append offsetLayout
        ⟨Int32.ofInt (baseOffsetOf batch - seg.base), Int32.ofInt seg.bytes.length⟩ =
        .ok (activeHandle cfg (seg.push batch)).offsetIdx := by
      rw [IndexSegment.append_ok _ count indexable.offsets]
      simp only [activeHandle, Segment.push, pushed, if_pos due]
      rfl
    have timeIdx : (activeHandle cfg seg).timeIdx.append timeLayout
        ⟨maxTimestampOf batch, Int32.ofInt (baseOffsetOf batch - seg.base)⟩ =
        .ok (activeHandle cfg (seg.push batch)).timeIdx := by
      have times : ((activeHandle cfg seg).timeIdx.entries.length : Int) < cfg.maxEntries :=
        (sampled_lengths cfg seg.base seg.batches).symm ▸ count
      rw [IndexSegment.append_ok _ times indexable.times]
      simp only [activeHandle, Segment.push, pushed, if_pos due]
    rw [if_pos (show (activeHandle cfg seg).bytesSinceLastIndex ≥ _ from due)]
    simp only [activeHandle_baseOffset, ofExcept_bind offsetIdx, ofExcept_bind timeIdx,
      pure_run, append_nil]
    simp only [activeHandle, Segment.push, pushed, if_pos due]
  · rw [if_neg (show ¬ (activeHandle cfg seg).bytesSinceLastIndex ≥ _ from due)]
    simp only [activeHandle, Segment.push, pushed, if_neg due, pure_run, append_nil]

/-- Without a free slot the batch is written to the log and then refused. -/
theorem activeHandle_append_full (full : ¬ SpareSlot cfg seg) {batch : Bytes} (long : 38 ≤ batch.length)
    (disk : StorageDisk) :
    ((activeHandle cfg seg).append cfg batch).run disk = (.error errIndexFull, [.append (.log seg.base) batch]) := by
  obtain ⟨due, count⟩ := Classical.not_imp.mp full
  have written : ((activeHandle cfg seg).log.append batch).run disk =
      (.ok ((seg.bytes.length : Int), ⟨seg.base, ((seg.bytes.length : Int) + batch.length), false⟩),
        [.append (.log seg.base) batch]) := rfl
  have refused (entry : OffsetEntry) :
      (activeHandle cfg seg).offsetIdx.append offsetLayout entry = .error errIndexFull :=
    if_pos (not_lt.mp count)
  rw [SegmentStorage.append, bind_ok written]
  simp only [if_neg (show ¬ batch.length < 38 by omega)]
  rw [if_pos (show (activeHandle cfg seg).bytesSinceLastIndex ≥ _ from due), refused]
  rfl

/-- A sealed index file is cut to its entries and written out. -/
def sealIndexOps {Entry : Type} (layout : EntryLayout Entry) (file : FileName) (entries : List Entry) :
    List (FileOp FileName) :=
  .truncate file (entries.length * layout.width) ::
    if entries.length * layout.width > 0 then [.msync file (entries.flatMap layout.put)] else []

theorem IndexSegment.seal_run {layout : EntryLayout Entry} (file : FileName) {index : IndexSegment Entry}
    (inside : (index.entries.length * layout.width : Int) ≤ index.mapped) (disk : StorageDisk) :
    (index.seal layout file).run disk =
      (.ok { index with
          maxEntries := index.entries.length
          mapped := (index.entries.length * layout.width : Nat) },
        sealIndexOps layout file index.entries) := by
  rw [IndexSegment.seal, sealIndexOps]
  split
  · rw [if_neg (by push_cast; exact not_lt.mpr inside)]
    rfl
  · rfl

def sealOps (seg : SegmentStorage) : List (FileOp FileName) :=
  sealIndexOps offsetLayout (.index seg.baseOffset) seg.offsetIdx.entries ++
    (sealIndexOps timeLayout (.timeindex seg.baseOffset) seg.timeIdx.entries ++ [.sync (.log seg.log.baseOffset)])

/-- A sealed index maps exactly its entries. -/
def sealHandle (seg : SegmentStorage) : SegmentStorage :=
  { seg with
    offsetIdx := { seg.offsetIdx with
      maxEntries := seg.offsetIdx.entries.length
      mapped := (seg.offsetIdx.entries.length * offsetLayout.width : Nat) }
    timeIdx := { seg.timeIdx with
      maxEntries := seg.timeIdx.entries.length
      mapped := (seg.timeIdx.entries.length * timeLayout.width : Nat) }
    isSealed := true }

theorem scanIndexes_placed {batches : List Bytes} (scanned : ∀ batch ∈ batches, ScannedBatch batch) :
    scanIndexes cfg base (placed 0 batches) = .ok (sampled cfg base batches) := by
  have long : ¬ (placed 0 batches).any (·.1.length < 38) = true := by
    rw [any_eq_true]
    rintro ⟨found, member, short⟩
    have batch : found.1 ∈ (placed 0 batches).map Prod.fst := mem_map_of_mem member
    rw [placed_map_fst] at batch
    have long := (scanned found.1 batch).long
    have short := of_decide_eq_true short
    omega
  rw [scanIndexes, if_neg long, sampled]

/-- The sampled entries of the segment fit into the mapped files. -/
def Mappable (cfg : StorageConfig) (seg : Segment) : Prop :=
  ((sampled cfg seg.base seg.batches).offEntries.length * offsetLayout.width : Int) ≤ cfg.allocSize offsetLayout.width ∧
    ((sampled cfg seg.base seg.batches).offEntries.length * timeLayout.width : Int) ≤ cfg.allocSize timeLayout.width

instance (cfg : StorageConfig) (seg : Segment) : Decidable (Mappable cfg seg) :=
  inferInstanceAs (Decidable (_ ∧ _))

theorem mappable_of_count (indexable : cfg.Indexable)
    (count : (entryCount cfg seg : Int) ≤ cfg.maxEntries) : Mappable cfg seg :=
  ⟨(mul_le_mul_of_nonneg_right count (by decide)).trans indexable.offsets,
    (mul_le_mul_of_nonneg_right count (by decide)).trans indexable.times⟩

theorem mappable_of_slack (indexable : cfg.Indexable)
    (slack : (seg.batches.dropLast.flatten.length : Int) < cfg.segmentMaxBytes) : Mappable cfg seg :=
  mappable_of_count indexable (indexable.sampled_lt slack).le

/-- A seal writes both index files and then syncs the log. -/
theorem activeHandle_seal (mappable : Mappable cfg seg) (disk : StorageDisk) :
    (activeHandle cfg seg).seal.run disk =
      (.ok (sealHandle (activeHandle cfg seg)), sealOps (activeHandle cfg seg)) := by
  have times := mappable.2
  rw [← sampled_lengths] at times
  rw [SegmentStorage.seal, bind_ok (IndexSegment.seal_run _ mappable.1 _), bind_ok (IndexSegment.seal_run _ times _)]
  rfl

/-- The outcome of a rebuild: the handle of the segment, or a store behind the mapping. -/
def rebuilt (cfg : StorageConfig) (seg : Segment) : Except GoError SegmentStorage :=
  if Mappable cfg seg then .ok (activeHandle cfg seg) else .error errSliceBounds

/-- A scan of the log rebuilds the handle of the segment. -/
theorem rebuildIndexes_run {cfg : StorageConfig} {seg : Segment} (frames : ∀ batch ∈ seg.batches, ScannedBatch batch)
    {disk : StorageDisk} (found : disk.read (.log seg.base) = some seg.bytes) :
    (rebuildIndexes cfg seg.base ⟨seg.base, seg.bytes.length, false⟩
        ⟨[], seg.base, cfg.maxEntries, cfg.allocSize offsetLayout.width⟩
        ⟨[], seg.base, cfg.maxEntries, cfg.allocSize timeLayout.width⟩).run disk = (rebuilt cfg seg, []) := by
  have scanned : LogSegment.scan ⟨seg.base, seg.bytes.length, false⟩ seg.bytes 0 = placed 0 seg.batches :=
    scan_zero (fun batch member => (frames batch member).framed) rfl
  have entries : scanIndexes cfg seg.base (LogSegment.scan ⟨seg.base, seg.bytes.length, false⟩ seg.bytes 0) =
      .ok (sampled cfg seg.base seg.batches) := by
    rw [scanned, scanIndexes_placed frames]
  have lengths := sampled_lengths cfg seg.base seg.batches
  rw [rebuildIndexes, bind_ok (readFile_run found), applyAll_nil, ofExcept_bind entries]
  unfold rebuilt
  by_cases offsets : ((sampled cfg seg.base seg.batches).offEntries.length * offsetLayout.width : Int) ≤
      cfg.allocSize offsetLayout.width
  · have offsetIdx : IndexSegment.rebuild ⟨[], seg.base, cfg.maxEntries, cfg.allocSize offsetLayout.width⟩
        offsetLayout (sampled cfg seg.base seg.batches).offEntries = .ok (activeHandle cfg seg).offsetIdx :=
      if_neg (by push_cast; exact not_lt.mpr offsets)
    rw [ofExcept_bind offsetIdx]
    by_cases times : ((sampled cfg seg.base seg.batches).offEntries.length * timeLayout.width : Int) ≤
        cfg.allocSize timeLayout.width
    · have timeIdx : IndexSegment.rebuild ⟨[], seg.base, cfg.maxEntries, cfg.allocSize timeLayout.width⟩
          timeLayout (sampled cfg seg.base seg.batches).tEntries = .ok (activeHandle cfg seg).timeIdx :=
        if_neg (by rw [lengths]; push_cast; exact not_lt.mpr times)
      rw [ofExcept_bind timeIdx, if_pos ⟨offsets, times⟩]
      rfl
    · have timeIdx : IndexSegment.rebuild ⟨[], seg.base, cfg.maxEntries, cfg.allocSize timeLayout.width⟩
          timeLayout (sampled cfg seg.base seg.batches).tEntries = .error errSliceBounds :=
        if_pos (by rw [lengths]; push_cast; exact not_le.mp times)
      rw [timeIdx, if_neg fun room => times room.2]
      rfl
  · have offsetIdx : IndexSegment.rebuild ⟨[], seg.base, cfg.maxEntries, cfg.allocSize offsetLayout.width⟩
        offsetLayout (sampled cfg seg.base seg.batches).offEntries = .error errSliceBounds :=
      if_pos (by push_cast; exact not_le.mp offsets)
    rw [offsetIdx, if_neg fun room => offsets room.1]
    rfl

/-- The index files are dropped and created again. -/
def restoreOps (cfg : StorageConfig) (base : Int) : List (FileOp FileName) :=
  .remove (.index base) :: .remove (.timeindex base) :: indexFileOps cfg base

theorem read_log_restoreOps (cfg : StorageConfig) (base : Int) (disk : StorageDisk) (other : Int) :
    (disk.applyAll (restoreOps cfg base)).read (.log other) = disk.read (.log other) := by
  simp [restoreOps, indexFileOps, indexOps, Disk.read]

theorem rebuildSegmentIndexes_run {cfg : StorageConfig} (allocates : cfg.Allocates) {seg : Segment}
    (frames : ∀ batch ∈ seg.batches, ScannedBatch batch) {disk : StorageDisk}
    (found : disk.read (.log seg.base) = some seg.bytes) {handle : SegmentStorage}
    (base : handle.baseOffset = seg.base) (log : handle.log = ⟨seg.base, seg.bytes.length, false⟩) :
    (rebuildSegmentIndexes cfg handle).run disk = (rebuilt cfg seg, restoreOps cfg seg.base) := by
  have index : ((disk.apply (.remove (.index seg.base))).apply (.remove (.timeindex seg.base))).lookup
      (.index seg.base) = none := by simp
  have timeindex : (((disk.apply (.remove (.index seg.base))).apply (.remove (.timeindex seg.base))).applyAll
      (indexOps cfg offsetLayout.width (.index seg.base))).lookup (.timeindex seg.base) = none := by
    simp [indexOps]
  have kept := read_log_restoreOps cfg seg.base disk seg.base
  rw [found] at kept
  have rebuilding := @rebuildIndexes_run cfg seg frames _ kept
  rw [rebuildSegmentIndexes, base, log, perform_bind, perform_bind, openOffsetIndex, openTimeIndex,
    bind_ok (openIndex_missing offsetLayout seg.base index allocates.sample allocates.offsets),
    bind_ok (openIndex_missing timeLayout seg.base timeindex allocates.sample allocates.times)]
  simp only [restoreOps, indexFileOps, applyAll_cons, applyAll_append] at rebuilding ⊢
  rw [rebuilding, append_nil]

end BunnyMQ.Storage
