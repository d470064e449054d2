/-
This file relates the directory and the storage handles to a partition log.
-/

import BunnyMQ.Proof.Storage.Operations

namespace BunnyMQ.Storage
open Foundation FileStore Framing StorageImpl
variable {log : PartitionLog} {indexed : Prop} {cfg : StorageConfig} {disk : StorageDisk}

/-- A sealed segment has its index files. An indexed directory holds the sampled entries in them. -/
def SealedFiles (indexed : Prop) (cfg : StorageConfig) (disk : StorageDisk) (seg : Segment) : Prop :=
  ∃ offsets times, disk.read (.index seg.base) = some offsets ∧ disk.read (.timeindex seg.base) = some times ∧
    (indexed → offsets = (sampled cfg seg.base seg.batches).offEntries.flatMap offsetLayout.put ∧
      times = (sampled cfg seg.base seg.batches).tEntries.flatMap timeLayout.put)

/-- The directory holds the segments of the log, a tail behind the active segment and nothing else. -/
structure DiskHolds (indexed : Prop) (cfg : StorageConfig) (disk : StorageDisk) (log : PartitionLog)
    (tail : Bytes) : Prop where
  closedLog : ∀ seg ∈ log.closedSegs, disk.read (.log seg.base) = some seg.bytes
  closedIndex : ∀ seg ∈ log.closedSegs, SealedFiles indexed cfg disk seg
  activeLog : disk.read (.log log.active.base) = some (log.active.bytes ++ tail)
  others : ∀ base, base ∉ log.bases → Absent disk base

/-- The index files of the active segment exist. -/
structure IndexFiles (disk : StorageDisk) (base : Int) : Prop where
  index : (disk.lookup (.index base)).isSome
  timeindex : (disk.lookup (.timeindex base)).isSome

namespace PartitionLog

theorem active_mem_bases (log : PartitionLog) : log.active.base ∈ log.bases := by
  simp [bases, segments]

theorem closed_lt_of_increasing (increasing : log.bases.Pairwise (· < ·)) {seg : Segment}
    (member : seg ∈ log.closedSegs) : seg.base < log.active.base := by
  simp only [bases, segments, List.map_append, List.map_cons, List.map_nil] at increasing
  exact (List.pairwise_append.mp increasing).2.2 _ (List.mem_map_of_mem member) _ (by simp)

theorem Formed.distinct (formed : log.Formed) (seg : Segment) (member : seg ∈ log.closedSegs) :
    seg.base ≠ log.active.base :=
  (closed_lt_of_increasing formed.increasing member).ne

theorem Valid.distinct {limit : Int} (valid : log.Valid limit) : ∀ seg ∈ log.closedSegs, seg.base ≠ log.active.base :=
  valid.formed.distinct

/-- A new segment starts where no segment started before. -/
theorem Formed.fresh {log : PartitionLog} {base : Int}
    (rolled : Formed ⟨log.closedSegs ++ [log.active], ⟨base, []⟩⟩) : base ∉ log.bases := by
  intro member
  obtain ⟨seg, listed, same⟩ := List.mem_map.mp member
  exact (closed_lt_of_increasing rolled.increasing listed).ne same

theorem Valid.fresh {limit : Int} {log : PartitionLog} {base : Int}
    (rolled : Valid limit ⟨log.closedSegs ++ [log.active], ⟨base, []⟩⟩) : base ∉ log.bases :=
  rolled.formed.fresh

end PartitionLog

theorem sealedFiles_congr {left : StorageDisk} {seg : Segment} (files : SealedFiles indexed cfg disk seg)
    (index : left.lookup (.index seg.base) = disk.lookup (.index seg.base))
    (timeindex : left.lookup (.timeindex seg.base) = disk.lookup (.timeindex seg.base)) :
    SealedFiles indexed cfg left seg := by
  obtain ⟨offsets, times, found, stamped, exactly⟩ := files
  exact ⟨offsets, times, (read_congr index).trans found, (read_congr timeindex).trans stamped, exactly⟩

/-- Changes to the index files of the active segment keep what the directory holds. -/
theorem DiskHolds.transfer {left : StorageDisk} {tail : Bytes} (holds : DiskHolds indexed cfg disk log tail)
    (distinct : ∀ seg ∈ log.closedSegs, seg.base ≠ log.active.base)
    (logs : ∀ base, left.read (.log base) = disk.read (.log base))
    (indexes : ∀ base, base ≠ log.active.base → left.lookup (.index base) = disk.lookup (.index base))
    (timeindexes : ∀ base, base ≠ log.active.base → left.lookup (.timeindex base) = disk.lookup (.timeindex base)) :
    DiskHolds indexed cfg left log tail where
  closedLog seg member := (logs seg.base).trans (holds.closedLog seg member)
  closedIndex seg member := by
    have other := distinct seg member
    exact sealedFiles_congr (holds.closedIndex seg member) (indexes _ other) (timeindexes _ other)
  activeLog := (logs _).trans holds.activeLog
  others base absent := by
    have old := holds.others base absent
    have other : base ≠ log.active.base := fun same => absent (same ▸ log.active_mem_bases)
    refine ⟨?_, (indexes base other).trans old.index, (timeindexes base other).trans old.timeindex⟩
    have missing := logs base
    simpa [Disk.read, old.log] using missing

/-- A write to the active log extends the active segment. -/
theorem DiskHolds.push (holds : DiskHolds indexed cfg disk log [])
    (distinct : ∀ seg ∈ log.closedSegs, seg.base ≠ log.active.base) (batch : Bytes) :
    DiskHolds indexed cfg (disk.apply (.append (.log log.active.base) batch))
      ⟨log.closedSegs, log.active.push batch⟩ [] where
  closedLog seg member := by
    have other : FileName.log seg.base ≠ .log log.active.base :=
      fun same => distinct seg member (FileName.log.inj same)
    rw [← holds.closedLog seg member]
    exact read_congr (by rw [lookup_append, if_neg other])
  closedIndex seg member := sealedFiles_congr (holds.closedIndex seg member) (by simp) (by simp)
  activeLog := by
    obtain ⟨content, found, data⟩ := read_eq_some.mp holds.activeLog
    refine read_eq_some.mpr ⟨{ content with data := content.data ++ batch }, ?_, ?_⟩
    · simp [Segment.push, found]
    · rw [data, List.append_nil, List.append_nil, Segment.push_bytes]
  others base absent := by
    have old := holds.others base (by simpa [PartitionLog.bases, PartitionLog.segments, Segment.push] using absent)
    have other : FileName.log base ≠ .log log.active.base := by
      intro same
      apply absent
      rw [FileName.log.inj same]
      simp [PartitionLog.bases, PartitionLog.segments, Segment.push]
    exact ⟨by rw [lookup_append, if_neg other, old.log], by simp [old.index], by simp [old.timeindex]⟩

/-- A new log file starts the next segment, once the index files of the old one are complete. -/
theorem DiskHolds.create (holds : DiskHolds indexed cfg disk log []) (files : SealedFiles indexed cfg disk log.active)
    {base : Int} (fresh : base ∉ log.bases) :
    DiskHolds indexed cfg (disk.apply (.create (.log base))) ⟨log.closedSegs ++ [log.active], ⟨base, []⟩⟩ [] where
  closedLog seg member := by
    have old : seg.base ∈ log.bases := List.mem_map_of_mem member
    have other : FileName.log seg.base ≠ .log base := fun same => fresh (FileName.log.inj same ▸ old)
    have kept : disk.read (.log seg.base) = some seg.bytes := by
      rcases List.mem_append.mp member with closed | last
      · exact holds.closedLog seg closed
      · rw [List.mem_singleton.mp last, holds.activeLog, List.append_nil]
    rw [← kept]
    exact read_congr (by rw [lookup_create, if_neg other])
  closedIndex seg member := by
    rcases List.mem_append.mp member with closed | last
    · exact sealedFiles_congr (holds.closedIndex seg closed) (by simp) (by simp)
    · rw [List.mem_singleton.mp last]
      exact sealedFiles_congr files (by simp) (by simp)
  activeLog := by
    simp [Disk.read, (holds.others base fresh).log, File.empty, Segment.bytes]
  others other absent := by
    have parts : other ∉ log.bases ∧ other ≠ base := by
      simpa [PartitionLog.bases, PartitionLog.segments, not_or, and_assoc] using absent
    have old := holds.others other parts.1
    have distinct : FileName.log other ≠ .log base := fun same => parts.2 (FileName.log.inj same)
    exact ⟨by rw [lookup_create, if_neg distinct, old.log], by simp [old.index], by simp [old.timeindex]⟩

/-- The handle of a sealed segment knows its size and, in an indexed directory, its entries. -/
structure SealedHandle (indexed : Prop) (cfg : StorageConfig) (handle : SegmentStorage) (seg : Segment) :
    Prop where
  base : handle.baseOffset = seg.base
  log : handle.log.baseOffset = seg.base
  size : handle.log.logSize = (seg.bytes.length : Nat)
  isSealed : handle.isSealed = true
  offsets : indexed → handle.offsetIdx.entries = (sampled cfg seg.base seg.batches).offEntries ∧
    handle.offsetIdx.mapped = (handle.offsetIdx.entries.length * offsetLayout.width : Nat)
  times : indexed → handle.timeIdx.entries = (sampled cfg seg.base seg.batches).tEntries ∧
    handle.timeIdx.mapped = (handle.timeIdx.entries.length * timeLayout.width : Nat)

/-- The open storage and its directory represent the partition log. -/
structure Represents (indexed : Prop) (cfg : StorageConfig) (disk : StorageDisk) (s : StorageImpl)
    (log : PartitionLog) : Prop where
  valid : log.Valid cfg.segmentMaxBytes
  handles : ∃ closed, s.segments = closed ++ [activeHandle cfg log.active] ∧
    List.Forall₂ (SealedHandle indexed cfg) closed log.closedSegs
  next : s.nextOffset = log.next
  opened : s.closed = false
  holds : DiskHolds indexed cfg disk log []
  files : IndexFiles disk log.active.base

/-- The storage and its directory hold the log, whatever the sizes of its segments are. -/
structure Mounted (indexed : Prop) (cfg : StorageConfig) (disk : StorageDisk) (s : StorageImpl)
    (log : PartitionLog) : Prop where
  formed : log.Formed
  handles : ∃ closed, s.segments = closed ++ [activeHandle cfg log.active] ∧
    List.Forall₂ (SealedHandle indexed cfg) closed log.closedSegs
  next : s.nextOffset = log.next
  opened : s.closed = false
  holds : DiskHolds indexed cfg disk log []
  files : IndexFiles disk log.active.base

section
variable {indexed : Prop} {cfg : StorageConfig} {disk : StorageDisk} {s : StorageImpl} {log : PartitionLog}

/-- The last handle of the storage is that of the active segment. -/
theorem Mounted.getLast (mounted : Mounted indexed cfg disk s log) :
    s.segments.getLast? = some (activeHandle cfg log.active) := by
  obtain ⟨closed, segments, _⟩ := mounted.handles
  rw [segments, List.getLast?_concat]

theorem Represents.mounted (rep : Represents indexed cfg disk s log) : Mounted indexed cfg disk s log :=
  ⟨rep.valid.formed, rep.handles, rep.next, rep.opened, rep.holds, rep.files⟩

theorem Mounted.represents (mounted : Mounted indexed cfg disk s log) (valid : log.Valid cfg.segmentMaxBytes) :
    Represents indexed cfg disk s log :=
  ⟨valid, mounted.handles, mounted.next, mounted.opened, mounted.holds, mounted.files⟩

end

/-- The seal makes the index file of its segment exact. -/
theorem read_sealIndexOps {Entry : Type} {layout : EntryLayout Entry} (width : 0 < layout.width) {file : FileName}
    (entries : List Entry) (present : (disk.lookup file).isSome) :
    (disk.applyAll (sealIndexOps layout file entries)).read file = some (entries.flatMap layout.put) := by
  obtain ⟨content, found⟩ := Option.isSome_iff_exists.mp present
  cases entries with
  | nil => simp [sealIndexOps, Disk.read, found, File.truncate]
  | cons entry rest =>
    have written : (entry :: rest).length * layout.width > 0 := Nat.mul_pos (by simp) width
    rw [sealIndexOps, if_pos written]
    simp [Disk.read, found]

theorem lookup_sealIndexOps {Entry : Type} (layout : EntryLayout Entry) {file other : FileName}
    (distinct : other ≠ file) (entries : List Entry) (disk : StorageDisk) :
    (disk.applyAll (sealIndexOps layout file entries)).lookup other = disk.lookup other := by
  refine lookup_applyAll_of_not_touched disk _ other fun op member => ?_
  unfold sealIndexOps at member
  split at member
  · rcases List.mem_cons.mp member with rfl | member
    · simpa [FileOp.touches] using distinct
    · rw [List.mem_singleton.mp member]
      simpa [FileOp.touches] using distinct
  · rw [List.mem_singleton.mp member]
    simpa [FileOp.touches] using distinct

/-- A seal keeps the bytes of every log file. -/
theorem read_log_sealOps (seg : SegmentStorage) (disk : StorageDisk) (base : Int) :
    (disk.applyAll (sealOps seg)).read (.log base) = disk.read (.log base) := by
  rw [sealOps, applyAll_append, applyAll_append]
  have kept : (((disk.applyAll (sealIndexOps offsetLayout (.index seg.baseOffset) seg.offsetIdx.entries)).applyAll
      (sealIndexOps timeLayout (.timeindex seg.baseOffset) seg.timeIdx.entries))).lookup (.log base) =
      disk.lookup (.log base) := by
    rw [lookup_sealIndexOps timeLayout (by simp), lookup_sealIndexOps offsetLayout (by simp)]
  simp only [Disk.read, applyAll_cons, applyAll_nil, lookup_sync]
  split
  · next same =>
    rw [← same, kept]
    cases disk.lookup (.log base) <;> rfl
  · rw [kept]

theorem lookup_index_sealOps (seg : SegmentStorage) (disk : StorageDisk) {base : Int}
    (other : base ≠ seg.baseOffset) :
    (disk.applyAll (sealOps seg)).lookup (.index base) = disk.lookup (.index base) ∧
      (disk.applyAll (sealOps seg)).lookup (.timeindex base) = disk.lookup (.timeindex base) := by
  have index : FileName.index base ≠ .index seg.baseOffset := fun same => other (FileName.index.inj same)
  have timeindex : FileName.timeindex base ≠ .timeindex seg.baseOffset :=
    fun same => other (FileName.timeindex.inj same)
  simp [sealOps, lookup_sealIndexOps offsetLayout index, lookup_sealIndexOps timeLayout timeindex,
    lookup_sealIndexOps]

/-- The sealed files of the active segment are exact. -/
theorem sealedFiles_sealOps (cfg : StorageConfig) {seg : Segment} (files : IndexFiles disk seg.base) (indexed : Prop) :
    SealedFiles indexed cfg (disk.applyAll (sealOps (activeHandle cfg seg))) seg := by
  have index := read_sealIndexOps (show 0 < offsetLayout.width by decide)
    (sampled cfg seg.base seg.batches).offEntries files.index
  have present : ((disk.applyAll (sealIndexOps offsetLayout (.index seg.base)
      (sampled cfg seg.base seg.batches).offEntries)).lookup (.timeindex seg.base)).isSome := by
    rw [lookup_sealIndexOps offsetLayout (by simp)]
    exact files.timeindex
  have timeindex := read_sealIndexOps (show 0 < timeLayout.width by decide)
    (sampled cfg seg.base seg.batches).tEntries present
  refine ⟨_, _, ?_, ?_, fun _ => ⟨rfl, rfl⟩⟩
  · rw [← index]
    apply read_congr
    rw [sealOps, applyAll_append, applyAll_append, applyAll_cons, applyAll_nil, lookup_sync, if_neg (by simp),
      lookup_sealIndexOps timeLayout (by simp)]
    rfl
  · rw [← timeindex]
    apply read_congr
    rw [sealOps, applyAll_append, applyAll_append, applyAll_cons, applyAll_nil, lookup_sync, if_neg (by simp)]
    rfl

theorem read_log_indexFileOps (cfg : StorageConfig) (base : Int) (disk : StorageDisk) (other : Int) :
    (disk.applyAll (indexFileOps cfg base)).lookup (.log other) = disk.lookup (.log other) := by
  simp [indexFileOps, indexOps]

theorem lookup_index_indexFileOps (cfg : StorageConfig) {base other : Int} (distinct : other ≠ base)
    (disk : StorageDisk) :
    (disk.applyAll (indexFileOps cfg base)).lookup (.index other) = disk.lookup (.index other) ∧
      (disk.applyAll (indexFileOps cfg base)).lookup (.timeindex other) = disk.lookup (.timeindex other) := by
  simp [indexFileOps, indexOps, distinct]

theorem indexFiles_indexFileOps (cfg : StorageConfig) (base : Int) (disk : StorageDisk) :
    IndexFiles (disk.applyAll (indexFileOps cfg base)) base := by
  constructor <;> simp [indexFileOps, indexOps]

/-- These are the file operations of one append. -/
def appendOps (cfg : StorageConfig) (log : PartitionLog) (batch : Bytes) : List (FileOp FileName) :=
  let patched := patchBaseOffset batch log.next
  let active := log.active.push patched
  .append (.log log.active.base) patched ::
    if (active.bytes.length : Int) ≥ cfg.segmentMaxBytes then
      sealOps (activeHandle cfg active) ++ newSegmentOps cfg active.stop
    else []

theorem appendOps_full {batch : Bytes}
    (full : ((log.pushed batch).bytes.length : Int) ≥ cfg.segmentMaxBytes) :
    appendOps cfg log batch = .append (.log log.active.base) (patchBaseOffset batch log.next) ::
      (sealOps (activeHandle cfg (log.pushed batch)) ++
        newSegmentOps cfg (log.pushed batch).stop) := by
  simp only [appendOps, if_pos full]

theorem appendOps_room {batch : Bytes}
    (room : ¬ ((log.pushed batch).bytes.length : Int) ≥ cfg.segmentMaxBytes) :
    appendOps cfg log batch = [.append (.log log.active.base) (patchBaseOffset batch log.next)] := by
  simp only [appendOps, if_neg room]

end BunnyMQ.Storage
