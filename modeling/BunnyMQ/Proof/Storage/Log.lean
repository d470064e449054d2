/-
This file describes a partition log as a list of segments of whole batches.
-/

import BunnyMQ.Proof.Storage.Frames

namespace BunnyMQ.Storage
open Foundation FileStore Framing StorageImpl List
variable {batch : Bytes} {limit : Int} {log : PartitionLog}

theorem patch_length (long : 8 ≤ batch.length) (offset : Int) :
    (patchBaseOffset batch offset).length = batch.length := by
  rw [patchBaseOffset, length_append, putUint_length, length_drop]
  omega

/-- The assigned offset leaves every later byte alone. -/
theorem slice_patch (batch : Bytes) (offset : Int) {lo : Nat} (behind : 8 ≤ lo) (hi : Nat) :
    slice (patchBaseOffset batch offset) lo hi = slice batch lo hi := by
  obtain ⟨lo, rfl⟩ := Nat.exists_eq_add_of_le behind
  rcases Nat.lt_or_ge hi 8 with small | large
  · rw [slice, slice, Nat.sub_eq_zero_of_le (by omega), take_zero, take_zero]
  · obtain ⟨hi, rfl⟩ := Nat.exists_eq_add_of_le large
    have tail := slice_append_right (putUint 8 (uint64 offset)) (batch.drop 8) lo hi
    rw [putUint_length] at tail
    rw [patchBaseOffset, tail, slice, slice, drop_drop]
    congr 1
    omega

theorem drop_patch (offset : Int) {lo : Nat} (behind : 8 ≤ lo) :
    (patchBaseOffset batch offset).drop lo = batch.drop lo := by
  obtain ⟨lo, rfl⟩ := Nat.exists_eq_add_of_le behind
  rw [patchBaseOffset, drop_append, putUint_length, drop_eq_nil_of_le (by simp),
    nil_append, drop_drop, Nat.add_sub_cancel_left]

theorem batchLengthOf_patch (batch : Bytes) (offset : Int) :
    batchLengthOf (patchBaseOffset batch offset) = batchLengthOf batch := by
  rw [batchLengthOf, batchLengthOf, uint32At, uint32At, slice_patch batch offset (le_refl 8)]

theorem recordCountOf_patch (batch : Bytes) (offset : Int) :
    recordCountOf (patchBaseOffset batch offset) = recordCountOf batch := by
  rw [recordCountOf, recordCountOf, uint32At, uint32At, slice_patch batch offset (by decide)]

theorem baseOffsetOf_patch (batch : Bytes) (offset : Int) :
    baseOffsetOf (patchBaseOffset batch offset) = int64 offset := by
  have stored : slice (patchBaseOffset batch offset) 0 8 = putUint 8 (uint64 offset) := by
    rw [patchBaseOffset, slice_append_left (by rw [putUint_length]), slice, drop_zero, Nat.sub_zero,
      take_of_length_le (by rw [putUint_length])]
  have bound := uint64_lt offset
  rw [baseOffsetOf, uint64At, stored, getUint_putUint_of_lt (by omega), toInt64_toInt, UInt64.toNat_ofNat',
    Nat.mod_eq_of_lt bound, int64_uint64]

/-- A batch keeps its frame and its checksum when the log assigns its offset. -/
theorem StoredBatch.patch (stored : StoredBatch batch) (offset : Int) :
    StoredBatch (patchBaseOffset batch offset) := by
  have long := stored.long
  have length := patch_length (by omega : 8 ≤ batch.length) offset
  have announced : batchLengthOf batch = batch.length := Framed.announced stored
  have accepted : checksum (batch.drop 38) = uint32At batch 16 := of_decide_eq_true (Framed.accepted stored)
  refine ⟨?_, ?_, decide_eq_true ?_⟩
  · rw [length]
    exact long
  · change batchLengthOf (patchBaseOffset batch offset) = _
    rw [batchLengthOf_patch, announced, length]
  · rw [drop_patch offset (by decide), accepted, uint32At, uint32At, slice_patch batch offset (by decide)]

/-- Consecutive batches start where the one before ends. -/
def Chained : Int → List Bytes → Prop
  | _, [] => True
  | start, batch :: rest => baseOffsetOf batch = start ∧ Chained (endOffsetOf batch) rest

theorem lastEnd_append (start : Int) (first second : List Bytes) :
    lastEnd start (first ++ second) = lastEnd (lastEnd start first) second := by
  simp [lastEnd]

theorem chained_append {start : Int} {first second : List Bytes} :
    Chained start (first ++ second) ↔ Chained start first ∧ Chained (lastEnd start first) second := by
  induction first generalizing start with
  | nil => simp [Chained, lastEnd]
  | cons batch first ih =>
    rw [cons_append, Chained, Chained, ih, and_assoc]
    rfl

/-- A segment of the log holds its base offset and its batches. -/
structure Segment where
  base : Int
  batches : List Bytes
  deriving DecidableEq

def Segment.bytes (seg : Segment) : Bytes := seg.batches.flatten

def Segment.stop (seg : Segment) : Int := lastEnd seg.base seg.batches

structure Segment.Valid (seg : Segment) : Prop where
  nonneg : 0 ≤ seg.base
  range : int64 seg.base = seg.base
  stored : ∀ batch ∈ seg.batches, StoredBatch batch
  chained : Chained seg.base seg.batches

def Segment.push (seg : Segment) (batch : Bytes) : Segment := { seg with batches := seg.batches ++ [batch] }

theorem Segment.push_bytes (seg : Segment) (batch : Bytes) : (seg.push batch).bytes = seg.bytes ++ batch := by
  simp [push, bytes]

theorem Segment.push_stop (seg : Segment) (batch : Bytes) : (seg.push batch).stop = endOffsetOf batch := by
  simp [push, stop, lastEnd]

theorem Segment.Valid.push {seg : Segment} (valid : seg.Valid) (stored : StoredBatch batch)
    (starts : baseOffsetOf batch = seg.stop) : (seg.push batch).Valid where
  nonneg := valid.nonneg
  range := valid.range
  stored := by
    intro other member
    rcases mem_append.mp member with earlier | last
    · exact valid.stored other earlier
    · rw [mem_singleton.mp last]
      exact stored
  chained := chained_append.mpr ⟨valid.chained, starts, trivial⟩

theorem Segment.valid_empty {base : Int} (nonneg : 0 ≤ base) (range : int64 base = base) :
    (Segment.mk base []).Valid :=
  ⟨nonneg, range, by simp, trivial⟩

theorem baseOffsetOf_range (batch : Bytes) : int64 (baseOffsetOf batch) = baseOffsetOf batch := by
  rw [baseOffsetOf, toInt64_toInt, int64, int64]
  omega

theorem endOffsetOf_range (batch : Bytes) : int64 (endOffsetOf batch) = endOffsetOf batch := by
  rw [endOffsetOf, int64, int64]
  omega

/-- The end of a segment is a 64-bit offset. -/
theorem Segment.Valid.stop_range {seg : Segment} (valid : seg.Valid) : int64 seg.stop = seg.stop := by
  rcases eq_nil_or_concat seg.batches with empty | ⟨front, last, split⟩
  · rw [Segment.stop, empty]
    exact valid.range
  · rw [Segment.stop, split, concat_eq_append, lastEnd_append]
    exact endOffsetOf_range last

/-- The partition log appends to its active segment, and its sealed segments stay as they are. -/
structure PartitionLog where
  closedSegs : List Segment
  active : Segment
  deriving DecidableEq

namespace PartitionLog

def empty : PartitionLog := ⟨[], ⟨0, []⟩⟩

def segments (log : PartitionLog) : List Segment := log.closedSegs ++ [log.active]

def bases (log : PartitionLog) : List Int := log.segments.map Segment.base

def next (log : PartitionLog) : Int := log.active.stop

/-- Each batch carries its assigned base offset in its first bytes. -/
def contents (log : PartitionLog) : List Bytes := log.segments.flatMap Segment.batches

/-- The active segment with the batch at the next offset. -/
abbrev pushed (log : PartitionLog) (batch : Bytes) : Segment :=
  log.active.push (patchBaseOffset batch log.next)

/-- A segment that reaches the limit is sealed, and the next one starts at the next offset. -/
def append (limit : Int) (log : PartitionLog) (batch : Bytes) : PartitionLog :=
  let active := log.active.push (patchBaseOffset batch log.next)
  if (active.bytes.length : Int) ≥ limit then ⟨log.closedSegs ++ [active], ⟨active.stop, []⟩⟩
  else ⟨log.closedSegs, active⟩

theorem append_full (full : ((log.pushed batch).bytes.length : Int) ≥ limit) :
    log.append limit batch = ⟨log.closedSegs ++ [log.pushed batch],
      ⟨(log.pushed batch).stop, []⟩⟩ :=
  if_pos full

theorem append_room (room : ¬ ((log.pushed batch).bytes.length : Int) ≥ limit) :
    log.append limit batch = ⟨log.closedSegs, log.pushed batch⟩ :=
  if_neg room

/-- Every segment is well formed and starts behind the one before it. Only the last batch of the active
segment may reach the limit. -/
structure Valid (limit : Int) (log : PartitionLog) : Prop where
  segment : ∀ seg ∈ log.segments, seg.Valid
  increasing : log.bases.Pairwise (· < ·)
  slack : (log.active.batches.dropLast.flatten.length : Int) < limit

/-- The segments alone are well formed, whatever their sizes are. -/
structure Formed (log : PartitionLog) : Prop where
  segment : ∀ seg ∈ log.segments, seg.Valid
  increasing : log.bases.Pairwise (· < ·)

theorem Valid.formed (valid : log.Valid limit) : log.Formed :=
  ⟨valid.segment, valid.increasing⟩

theorem Formed.active (formed : log.Formed) : log.active.Valid :=
  formed.segment log.active (by simp [segments])

theorem Valid.active (valid : log.Valid limit) : log.active.Valid :=
  valid.formed.active

/-- A pushed batch keeps the log well formed below its limit. -/
theorem Valid.push (valid : log.Valid limit) (room : (log.active.bytes.length : Int) < limit)
    (stored : StoredBatch batch) (starts : baseOffsetOf batch = log.next) :
    PartitionLog.Valid limit ⟨log.closedSegs, log.active.push batch⟩ := by
  refine ⟨?_, by simpa [bases, segments, Segment.push] using valid.increasing, ?_⟩
  · intro seg member
    rcases mem_append.mp member with old | new
    · exact valid.segment seg (mem_append_left _ old)
    · rw [mem_singleton.mp new]
      exact valid.active.push stored starts
  · have old : (log.active.push batch).batches.dropLast = log.active.batches := by simp [Segment.push]
    rw [old]
    exact room

theorem append_contents (limit : Int) (log : PartitionLog) (batch : Bytes) :
    (log.append limit batch).contents = log.contents ++ [patchBaseOffset batch log.next] := by
  unfold append
  simp only
  split <;> simp [contents, segments, Segment.push]

/-- What holds of the old segments, of the longer active one and of an empty one holds after an append. -/
theorem forall_append {holds : Segment → Prop} (old : ∀ seg ∈ log.segments, holds seg)
    (pushed : holds (log.pushed batch)) (fresh : ∀ base, holds ⟨base, []⟩) :
    ∀ seg ∈ (log.append limit batch).segments, holds seg := by
  have closed : ∀ seg ∈ log.closedSegs, holds seg := fun seg member => old seg (mem_append_left _ member)
  by_cases full : ((log.pushed batch).bytes.length : Int) ≥ limit
  · rw [append_full full]
    refine forall_mem_append.mpr ⟨forall_mem_append.mpr ⟨closed, ?_⟩, ?_⟩
    · exact forall_mem_singleton.mpr pushed
    · exact forall_mem_singleton.mpr (fresh _)
  · rw [append_room full]
    exact forall_mem_append.mpr ⟨closed, forall_mem_singleton.mpr pushed⟩

theorem append_next (limit : Int) (log : PartitionLog) (batch : Bytes) :
    (log.append limit batch).next = endOffsetOf (patchBaseOffset batch log.next) := by
  unfold append
  simp only
  split
  · exact log.active.push_stop _
  · exact log.active.push_stop _

/-- An append keeps the base offsets of all segments. -/
theorem append_bases (limit : Int) (log : PartitionLog) (batch : Bytes) :
    log.bases <+: (log.append limit batch).bases := by
  unfold append
  simp only
  split
  · simp [bases, segments, Segment.push]
  · simp [bases, segments, Segment.push]

/-- Only a full segment leads to a new one, which starts at its end. -/
theorem append_new_base {base : Int} (member : base ∈ (log.append limit batch).bases) (fresh : base ∉ log.bases) :
    ((log.pushed batch).bytes.length : Int) ≥ limit ∧
      base = (log.pushed batch).stop := by
  have old : PartitionLog.bases ⟨log.closedSegs, log.pushed batch⟩ = log.bases := by
    simp [bases, segments, Segment.push]
  by_cases full : ((log.pushed batch).bytes.length : Int) ≥ limit
  · rw [append_full full, bases, segments, map_append] at member
    rcases mem_append.mp member with earlier | last
    · exact absurd (old ▸ earlier) fresh
    · exact ⟨full, mem_singleton.mp last⟩
  · rw [append_room full, old] at member
    exact absurd member fresh

theorem valid_empty (positive : 0 < limit) : empty.Valid limit where
  segment := by
    intro seg member
    rw [mem_singleton.mp member]
    exact Segment.valid_empty (le_refl 0) (by decide)
  increasing := pairwise_singleton _ _
  slack := by simpa [empty] using positive

/-- An append keeps the segments well formed when a rolled segment has moved the offset. -/
theorem Formed.append {limit : Int} {log : PartitionLog} (formed : log.Formed) {batch : Bytes}
    (stored : StoredBatch batch)
    (advances : limit ≤ log.active.bytes.length + batch.length →
      log.active.base < endOffsetOf (patchBaseOffset batch log.next)) :
    (log.append limit batch).Formed := by
  have starts : baseOffsetOf (patchBaseOffset batch log.next) = log.active.stop :=
    (baseOffsetOf_patch batch log.next).trans formed.active.stop_range
  have pushed := formed.active.push (stored.patch log.next) starts
  have size : ((log.pushed batch).bytes.length : Int) =
      log.active.bytes.length + batch.length := by
    have long := stored.long
    rw [Segment.push_bytes, length_append, patch_length (by omega), Nat.cast_add]
  have others : ∀ seg ∈ log.closedSegs, seg.Valid := fun seg member =>
    formed.segment seg (mem_append_left _ member)
  have increasing : (log.closedSegs.map Segment.base ++ [log.active.base]).Pairwise (· < ·) := by
    simpa [bases, segments] using formed.increasing
  by_cases full : ((log.pushed batch).bytes.length : Int) ≥ limit
  · have moved := advances (by rw [← size]; exact full)
    rw [append_full full]
    refine ⟨?_, ?_⟩
    · intro seg member
      simp only [segments, append_assoc, mem_append, mem_singleton] at member
      rcases member with old | rfl | rfl
      · exact others seg old
      · exact pushed
      · have start := formed.active.nonneg
        exact Segment.valid_empty (by rw [Segment.push_stop]; omega) pushed.stop_range
    · simp only [bases, segments, map_append, map_cons, map_nil, Segment.push_stop]
      refine pairwise_append.mpr ⟨increasing, pairwise_singleton _ _, ?_⟩
      intro base member other new
      rw [mem_singleton.mp new]
      rcases mem_append.mp member with earlier | last
      · have below := (pairwise_append.mp increasing).2.2 base earlier log.active.base (by simp)
        exact below.trans moved
      · rw [mem_singleton.mp last]
        exact moved
  · rw [append_room full]
    refine ⟨?_, by simpa [bases, segments, Segment.push] using increasing⟩
    intro seg member
    simp only [segments, mem_append, mem_singleton] at member
    rcases member with old | rfl
    · exact others seg old
    · exact pushed

/-- A segment that reaches the limit is closed by the append. -/
theorem append_slack (positive : 0 < limit) (log : PartitionLog) (batch : Bytes) :
    ((log.append limit batch).active.batches.dropLast.flatten.length : Int) < limit := by
  by_cases full : ((log.pushed batch).bytes.length : Int) ≥ limit
  · rw [append_full full]
    simpa using positive
  · have old : (log.pushed batch).batches.dropLast = log.active.batches := by
      simp [Segment.push]
    have size := Segment.push_bytes log.active (patchBaseOffset batch log.next)
    rw [append_room full, old, ← Segment.bytes]
    rw [size, length_append] at full
    omega

theorem Valid.append {limit : Int} {log : PartitionLog} (valid : log.Valid limit) (positive : 0 < limit)
    {batch : Bytes} (stored : StoredBatch batch)
    (advances : limit ≤ log.active.bytes.length + batch.length →
      log.active.base < endOffsetOf (patchBaseOffset batch log.next)) :
    (log.append limit batch).Valid limit :=
  have formed := valid.formed.append stored advances
  ⟨formed.segment, formed.increasing, append_slack positive log batch⟩

/-- The active segment has not reached its limit. -/
def HasRoom (limit : Int) (log : PartitionLog) : Prop := (log.active.bytes.length : Int) < limit

theorem append_hasRoom (positive : 0 < limit) (log : PartitionLog) (batch : Bytes) :
    (log.append limit batch).HasRoom limit := by
  unfold append HasRoom
  simp only
  split
  · simpa [Segment.bytes] using positive
  · next room => exact not_le.mp room

end PartitionLog

end BunnyMQ.Storage
