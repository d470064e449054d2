/-
This file shows which batch a read by timestamp finds through the sparse time index.
-/

import BunnyMQ.Proof.Storage.Read
import BunnyMQ.Proof.Storage.SegmentAppends

namespace BunnyMQ.Storage
open Foundation FileStore StorageImpl List

/-- The batches of a segment that get an index entry. -/
def sampledBatches (cfg : StorageConfig) : Int → List Bytes → List Bytes
  | _, [] => []
  | since, batch :: later =>
    if since ≥ cfg.indexSampleBytes then batch :: sampledBatches cfg 0 later
    else sampledBatches cfg (since + batch.length) later

theorem sampledBatches_sublist (cfg : StorageConfig) (since : Int) (batches : List Bytes) :
    (sampledBatches cfg since batches).Sublist batches := by
  induction batches generalizing since with
  | nil => exact List.Sublist.slnil
  | cons batch later ih =>
    rw [sampledBatches]
    split
    · exact (ih 0).cons_cons batch
    · exact (ih _).cons batch

/-- The entry of a batch in the time index of its segment. -/
def timeEntry (base : Int) (batch : Bytes) : TimeEntry :=
  ⟨maxTimestampOf batch, Int32.ofInt (baseOffsetOf batch - base)⟩

/-- The time index holds the entries of the sampled batches in order. -/
theorem tEntries_eq_sampledBatches (cfg : StorageConfig) (base : Int) (batches : List Bytes) :
    (sampled cfg base batches).tEntries = (sampledBatches cfg 0 batches).map (timeEntry base) := by
  have general (pos : Nat) (scan : IndexScan) :
      ((placed pos batches).foldl (IndexScan.visit cfg base) scan).tEntries =
        scan.tEntries ++ (sampledBatches cfg scan.bytesSince batches).map (timeEntry base) := by
    induction batches generalizing pos scan with
    | nil => exact (append_nil _).symm
    | cons batch later ih =>
      rw [placed, foldl_cons, ih, IndexScan.visit, sampledBatches]
      split
      · rw [map_cons, append_assoc]
        rfl
      · rfl
  exact general 0 IndexScan.empty

/-- The answer starts with the first candidate that is not older than the timestamp. -/
def FindsByTime (candidates : List Bytes) (timestampMs : Int64) (answer : Except GoError (Bytes × Int)) : Prop :=
  match candidates.find? fun batch => decide (timestampMs ≤ maxTimestampOf batch) with
  | none => answer = .error errTimestampNotFound
  | some batch => ∃ rest nextOffset, answer = .ok (batch ++ rest, nextOffset)

/-- The batches come in the order of their newest records. -/
def TimeOrdered (batches : List Bytes) : Prop := (batches.map maxTimestampOf).Pairwise (· ≤ ·)

theorem TimeOrdered.sublist {first second : List Bytes} (ordered : TimeOrdered second) (inside : first.Sublist second) :
    TimeOrdered first :=
  List.Pairwise.sublist (inside.map _) ordered

/-- The ceiling search finds the first entry that is not older. -/
theorem lookupTimestamp_eq {index : IndexSegment TimeEntry}
    (mapped : (index.entries.length * timeLayout.width : Nat) ≤ index.mapped)
    (ordered : (index.entries.map TimeEntry.timestampMs).Pairwise (· ≤ ·)) (timestampMs : Int64) :
    lookupTimestamp index timestampMs =
      .ok ((index.entries.find? fun entry => decide (timestampMs ≤ entry.timestampMs)).map
        TimeEntry.relativeOffset) := by
  have entryAt : ∀ slot : Nat, ∀ inside : slot < index.entries.length,
      index.entryAt timeLayout slot = some index.entries[slot] := by
    intro slot inside
    rw [IndexSegment.entryAt, if_pos ?_, Int.toNat_natCast, List.getElem?_eq_getElem inside]
    simp only [timeLayout] at mapped ⊢
    omega
  have probe : ∀ slot : Nat, ∀ inside : slot < index.entries.length,
      (index.entryAt timeLayout slot).map (fun entry => decide (entry.timestampMs ≥ timestampMs)) =
        some (decide (timestampMs ≤ index.entries[slot].timestampMs)) := by
    intro slot inside
    rw [entryAt slot inside, Option.map_some]
  obtain ⟨found, search, place⟩ := @Search.ceilingLoop_spec
    (fun slot => (index.entryAt timeLayout slot).map fun entry => decide (entry.timestampMs ≥ timestampMs))
    index.entries.length 0 (index.entries.length - 1) (-1) (by omega)
    (by
      intro slot lower upper
      lift slot to Nat using lower
      rw [probe slot (by omega)]
      rfl)
    (by
      intro first second lower between upper holds
      lift first to Nat using lower
      lift second to Nat using by omega
      rw [probe first (by omega), Option.some.injEq, decide_eq_true_eq] at holds
      rw [probe second (by omega), Option.some.injEq, decide_eq_true_eq]
      rcases Nat.eq_or_lt_of_le (Int.ofNat_le.mp between) with same | behind
      · subst same
        exact holds
      · have later := pairwise_iff_getElem.mp ordered first second (by simp; omega) (by simp; omega) behind
        rw [getElem_map, getElem_map] at later
        exact Int64.le_trans holds later)
  simp only [lookupTimestamp, search]
  rcases place with ⟨rfl, none⟩ | ⟨lower, upper, holds, none⟩
  · rw [if_pos (by decide), find?_eq_none.mpr, Option.map_none]
    intro entry member
    obtain ⟨slot, inside, rfl⟩ := getElem_of_mem member
    have tested := none slot (by omega) (by omega)
    rw [probe slot inside, Option.some.injEq] at tested
    rw [tested]
    decide
  · lift found to Nat using lower
    have inside : found < index.entries.length := by omega
    rw [probe found inside, Option.some.injEq] at holds
    have first : index.entries.find? (fun entry => decide (timestampMs ≤ entry.timestampMs)) =
        some index.entries[found] := by
      refine find?_eq_some_iff_getElem.mpr ⟨holds, found, inside, rfl, fun earlier before => ?_⟩
      have tested := none earlier (by omega) (by omega)
      rw [probe earlier (by omega), Option.some.injEq] at tested
      rw [tested]
      rfl
    rw [if_neg (by omega), entryAt found inside, first, Option.map_some]

/-- The handle keeps the sampled times of its segment. -/
structure StampedHandle (cfg : StorageConfig) (handle : SegmentStorage) (seg : Segment) : Prop where
  readable : ReadableHandle cfg handle seg
  entries : handle.timeIdx.entries = (sampled cfg seg.base seg.batches).tEntries
  mapped : (handle.timeIdx.entries.length * timeLayout.width : Nat) ≤ handle.timeIdx.mapped

section
variable {cfg : StorageConfig} {disk : StorageDisk} {s : StorageImpl} {log : PartitionLog}
  {handle : SegmentStorage} {seg : Segment}

section
variable (stamped : StampedHandle cfg handle seg) (valid : seg.Valid) (growing : Growing seg.batches)
  (addressable : seg.Addressable)
include stamped valid growing addressable

/-- The entry of a batch leads to its base offset. -/
theorem StampedHandle.place {batch : Bytes} (member : batch ∈ seg.batches) :
    int64 (handle.baseOffset + (timeEntry seg.base batch).relativeOffset.toInt) = baseOffsetOf batch := by
  have grows := growing batch member
  have bounds : seg.base ≤ baseOffsetOf batch ∧ endOffsetOf batch ≤ seg.stop :=
    (growing.between valid.chained).2 batch member
  have offsets := addressable.offsets
  rw [stamped.readable.base, timeEntry, int32_toInt (by omega) (by omega), add_sub_cancel]
  exact baseOffsetOf_range batch

/-- A read by time of one segment finds the first sampled batch that is not older. -/
theorem segmentReadByTime_run (ordered : TimeOrdered seg.batches) (timestampMs : Int64) (maxBytes : Int) :
    FindsByTime (sampledBatches cfg 0 seg.batches) timestampMs (handle.readByTime seg.bytes timestampMs maxBytes) := by
  have entries := stamped.entries
  rw [tEntries_eq_sampledBatches] at entries
  have times : handle.timeIdx.entries.map TimeEntry.timestampMs =
      (sampledBatches cfg 0 seg.batches).map maxTimestampOf := by
    rw [entries, map_map]
    rfl
  have lookup := lookupTimestamp_eq stamped.mapped
    (times ▸ ordered.sublist (sampledBatches_sublist cfg 0 seg.batches)) timestampMs
  rw [entries, find?_map, Option.map_map] at lookup
  replace lookup : lookupTimestamp handle.timeIdx timestampMs =
      .ok (((sampledBatches cfg 0 seg.batches).find? fun batch => decide (timestampMs ≤ maxTimestampOf batch)).map
        fun batch => Int32.ofInt (baseOffsetOf batch - seg.base)) := lookup
  rw [SegmentStorage.readByTime, lookup, FindsByTime]
  cases found : (sampledBatches cfg 0 seg.batches).find? fun batch => decide (timestampMs ≤ maxTimestampOf batch) with
  | none => rfl
  | some batch =>
    have member : batch ∈ seg.batches := (sampledBatches_sublist cfg 0 seg.batches).subset (mem_of_find?_eq_some found)
    have grows := growing batch member
    have bounds : seg.base ≤ baseOffsetOf batch ∧ endOffsetOf batch ≤ seg.stop :=
      (growing.between valid.chained).2 batch member
    have place := stamped.place valid growing addressable member
    obtain ⟨before, chosen, after, split, covers, read⟩ := segmentRead_run stamped.readable valid growing addressable
      bounds.1 (by omega : baseOffsetOf batch < seg.stop) maxBytes
    obtain ⟨first, more, rfl, base, inside⟩ := covers.starts
    have same : batch = first := growing.containing_unique valid.chained
      (by rw [split, append_assoc]; rfl) ⟨base, inside⟩ member ⟨le_refl _, grows⟩
    refine ⟨more.flatten, lastEnd (baseOffsetOf batch) (first :: more), ?_⟩
    change handle.read seg.bytes (int64 (handle.baseOffset + (timeEntry seg.base batch).relativeOffset.toInt))
      maxBytes = _
    rw [place, read, same]
    rfl

end

/-- The loop over the segments finds the first sampled batch of the first segment that has one. -/
theorem readByTimeLoop_run {handles : List SegmentStorage} {segs : List Segment}
    (related : List.Forall₂ (StampedHandle cfg) handles segs) (valid : ∀ seg ∈ segs, seg.Valid)
    (growing : ∀ seg ∈ segs, Growing seg.batches) (addressable : ∀ seg ∈ segs, seg.Addressable)
    (files : ∀ seg ∈ segs, disk.read (.log seg.base) = some seg.bytes)
    (ordered : TimeOrdered (segs.flatMap Segment.batches)) (timestampMs : Int64) (maxBytes : Int) :
    FindsByTime (segs.flatMap fun seg => sampledBatches cfg 0 seg.batches) timestampMs
      (readByTimeLoop disk timestampMs maxBytes handles) := by
  induction related with
  | nil => rfl
  | @cons handle seg handles segs stamped _ ih =>
    rw [flatMap_cons] at ordered ⊢
    have first := segmentReadByTime_run stamped (valid seg mem_cons_self) (growing seg mem_cons_self)
      (addressable seg mem_cons_self) (ordered.sublist (sublist_append_left _ _)) timestampMs maxBytes
    have rest := ih (fun later member => valid later (mem_cons_of_mem _ member))
      (fun later member => growing later (mem_cons_of_mem _ member))
      (fun later member => addressable later (mem_cons_of_mem _ member))
      (fun later member => files later (mem_cons_of_mem _ member))
      (ordered.sublist (sublist_append_right _ _))
    have file := files seg mem_cons_self
    rw [← stamped.readable.base] at file
    simp only [FindsByTime, find?_append] at first rest ⊢
    rw [readByTimeLoop, file]
    cases found : (sampledBatches cfg 0 seg.batches).find? fun batch => decide (timestampMs ≤ maxTimestampOf batch) with
    | none =>
      rw [found] at first
      simp only [first, Option.none_or, if_true]
      exact rest
    | some batch =>
      rw [found] at first
      obtain ⟨more, nextOffset, answer⟩ := first
      have member : batch ∈ seg.batches :=
        (sampledBatches_sublist cfg 0 seg.batches).subset (mem_of_find?_eq_some found)
      have long := ((valid seg mem_cons_self).stored batch member).long
      have present : batch ++ more ≠ [] := by
        intro none
        rw [append_eq_nil_iff] at none
        rw [none.1] at long
        exact absurd long (by decide)
      simp only [answer, Option.some_or]
      exact ⟨more, nextOffset, if_pos present⟩

theorem Represents.stamped (indexable : cfg.Indexable) (rep : Represents True cfg disk s log) :
    List.Forall₂ (StampedHandle cfg) s.segments log.segments := by
  obtain ⟨closed, segments, handles⟩ := rep.handles
  rw [segments, PartitionLog.segments]
  refine rel_append (handles.imp fun handle seg found => ?_) (List.Forall₂.cons ?_ List.Forall₂.nil)
  · obtain ⟨entries, mapped⟩ := found.times trivial
    exact ⟨found.readable, entries, mapped.ge⟩
  · refine ⟨readable_activeHandle indexable rep.valid.slack, rfl, ?_⟩
    have room := @StorageConfig.Indexable.sampled_lt cfg indexable log.active.base _ rep.valid.slack
    have space := indexable.times
    rw [← sampled_lengths] at room
    simp only [activeHandle, timeLayout] at room space ⊢
    push_cast at space ⊢
    omega

/-- Of every segment, the batches that got an index entry. -/
def PartitionLog.sampledBatches (cfg : StorageConfig) (log : PartitionLog) : List Bytes :=
  log.segments.flatMap fun seg => Storage.sampledBatches cfg 0 seg.batches

theorem PartitionLog.sampledBatches_sublist (cfg : StorageConfig) (log : PartitionLog) :
    (log.sampledBatches cfg).Sublist log.contents := by
  rw [PartitionLog.sampledBatches, PartitionLog.contents]
  induction log.segments with
  | nil => exact List.Sublist.slnil
  | cons seg segs ih =>
    rw [flatMap_cons, flatMap_cons]
    exact (Storage.sampledBatches_sublist cfg 0 seg.batches).append ih

/-- A read by time finds the first sampled batch of the log that is not older. -/
theorem readByTime_run (indexable : cfg.Indexable) (rep : Represents True cfg disk s log) (seekable : log.Seekable)
    (ordered : TimeOrdered log.contents) (timestampMs : Int64) (maxBytes : Int) :
    FindsByTime (log.sampledBatches cfg) timestampMs (s.readByTime disk timestampMs maxBytes) :=
  readByTimeLoop_run (rep.stamped indexable) rep.valid.segment seekable.growing seekable.addressable
    (fun _ member => rep.log_file member) ordered timestampMs maxBytes

end

/-- The offsets that the time indexes of the storage lead to. -/
def StorageImpl.timeIndexed (s : StorageImpl) : List Int :=
  s.segments.flatMap fun seg =>
    seg.timeIdx.entries.map fun entry => int64 (seg.baseOffset + entry.relativeOffset.toInt)

section
variable {cfg : StorageConfig} {disk : StorageDisk} {s : StorageImpl} {log : PartitionLog}

/-- The entries lead to the sampled batches. -/
theorem timeIndexed_eq (indexable : cfg.Indexable) (rep : Represents True cfg disk s log) (seekable : log.Seekable) :
    s.timeIndexed = (log.sampledBatches cfg).map baseOffsetOf := by
  have general {handles : List SegmentStorage} {segs : List Segment}
      (related : List.Forall₂ (StampedHandle cfg) handles segs) (valid : ∀ seg ∈ segs, seg.Valid)
      (growing : ∀ seg ∈ segs, Growing seg.batches) (addressable : ∀ seg ∈ segs, seg.Addressable) :
      (handles.flatMap fun seg =>
          seg.timeIdx.entries.map fun entry => int64 (seg.baseOffset + entry.relativeOffset.toInt)) =
        (segs.flatMap fun seg => sampledBatches cfg 0 seg.batches).map baseOffsetOf := by
    induction related with
    | nil => rfl
    | @cons handle seg handles segs stamped _ ih =>
      rw [flatMap_cons, flatMap_cons, map_append,
        ih (fun later member => valid later (mem_cons_of_mem _ member))
          (fun later member => growing later (mem_cons_of_mem _ member))
          (fun later member => addressable later (mem_cons_of_mem _ member)),
        stamped.entries, tEntries_eq_sampledBatches, map_map]
      refine congrArg (· ++ _) (map_congr_left fun batch member => ?_)
      exact stamped.place (valid seg mem_cons_self) (growing seg mem_cons_self)
        (addressable seg mem_cons_self) ((sampledBatches_sublist cfg 0 seg.batches).subset member)
  exact general (rep.stamped indexable) rep.valid.segment seekable.growing seekable.addressable

end

end BunnyMQ.Storage
