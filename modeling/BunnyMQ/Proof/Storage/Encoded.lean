/-
This file shows that every encoded batch is one that the log can store and find again.
-/

import BunnyMQ.Proof.Storage.Codec
import BunnyMQ.Proof.Storage.Log

namespace BunnyMQ.Storage
open Foundation FileStore Framing StorageImpl

theorem toUInt32_ofNat (n : Nat) : (Int32.ofNat n).toUInt32.toNat = n % 2 ^ 32 := by
  rw [Int32.toUInt32_ofNat', UInt32.toNat_ofNat']

section
variable {baseOffset : Int64} {records : List Record}

/-- Every record takes at least seven bytes. -/
theorem batchBytes_records (baseOffset : Int64) (records : List Record) :
    38 + 7 * records.length ≤ (batchBytes baseOffset records).length := by
  have few := recordsBytes_length (headerOf baseOffset records).baseTimestamp 0 records
  rw [batchBytes_length]
  omega

/-- The header holds the low 32 bits of the length and of the record count. -/
theorem batchBytes_header (baseOffset : Int64) (records : List Record) :
    batchLengthOf (batchBytes baseOffset records) = (batchBytes baseOffset records).length % 2 ^ 32 ∧
      recordCountOf (batchBytes baseOffset records) = (records.length % 2 ^ 32 : Nat) := by
  obtain ⟨_, batchLength, recordCount, _⟩ := encodeHeader_fields (headerOf baseOffset records)
    (recordsBytes (headerOf baseOffset records).baseTimestamp 0 records)
  constructor
  · rw [batchBytes_length, batchLengthOf, batchBytes, uint32At_of_bytesAt batchLength]
    exact toUInt32_ofNat _
  · rw [recordCountOf, batchBytes, uint32At_of_bytesAt recordCount]
    exact congrArg Nat.cast (toUInt32_ofNat _)

section
variable (bounded : (batchBytes baseOffset records).length < 2 ^ 32)
include bounded

theorem batchLengthOf_batchBytes :
    batchLengthOf (batchBytes baseOffset records) = (batchBytes baseOffset records).length := by
  rw [(batchBytes_header baseOffset records).1, Nat.mod_eq_of_lt bounded]

theorem recordCountOf_batchBytes : recordCountOf (batchBytes baseOffset records) = records.length := by
  have few := batchBytes_records baseOffset records
  rw [(batchBytes_header baseOffset records).2, Nat.mod_eq_of_lt (by omega)]

/-- An encoded batch announces its own length and carries its checksum. -/
theorem batchBytes_stored : StoredBatch (batchBytes baseOffset records) := by
  have few := batchBytes_records baseOffset records
  obtain ⟨_, _, _, crc, _⟩ := encodeHeader_fields (headerOf baseOffset records)
    (recordsBytes (headerOf baseOffset records).baseTimestamp 0 records)
  refine ⟨by change 38 ≤ _; omega, batchLengthOf_batchBytes bounded, decide_eq_true ?_⟩
  have payload : (batchBytes baseOffset records).drop 38 =
      recordsBytes (headerOf baseOffset records).baseTimestamp 0 records := by
    rw [batchBytes, List.drop_append, encodeHeader_length, Nat.sub_self, List.drop_zero,
      List.drop_eq_nil_of_le (by simp), List.nil_append]
  rw [payload, batchBytes, uint32At_of_bytesAt crc]
  rfl

end

/-- The log assigns exactly the base offset field. -/
theorem patch_batchBytes (baseOffset : Int64) (records : List Record) (offset : Int) :
    patchBaseOffset (batchBytes baseOffset records) offset = batchBytes (Int64.ofInt offset) records := by
  have word : (Int64.ofInt offset).toUInt64.toNat = uint64 offset := by
    rw [← UInt64.toNat_toBitVec, Int64.toBitVec_toUInt64, Int64.toBitVec_ofInt, BitVec.toNat_ofInt, uint64]
    rfl
  simp only [patchBaseOffset, batchBytes, encodeHeader, headerOf, word, List.append_assoc]
  rw [List.drop_append, putUint_length, List.drop_eq_nil_of_le (by simp)]
  simp

end

/-- An encoded batch below four gigabytes announces its whole length. -/
structure EncodedBatch (payload : Bytes) : Prop where
  encoded : ∃ records, encodeBatch records = .ok payload
  bounded : payload.length < 2 ^ 32

namespace EncodedBatch
variable {payload : Bytes} (batch : EncodedBatch payload)
include batch

theorem stored : StoredBatch payload := by
  obtain ⟨⟨records, encoded⟩, bounded⟩ := batch
  obtain ⟨_, rfl⟩ := encodeBatch_ok_iff.mp encoded
  exact batchBytes_stored bounded

theorem count_pos : 0 < recordCountOf payload := by
  obtain ⟨⟨records, encoded⟩, bounded⟩ := batch
  obtain ⟨present, rfl⟩ := encodeBatch_ok_iff.mp encoded
  rw [recordCountOf_batchBytes bounded]
  exact_mod_cast List.length_pos_iff.mpr present

/-- Every record takes at least seven bytes. -/
theorem count_le : 7 * recordCountOf payload ≤ payload.length := by
  obtain ⟨⟨records, encoded⟩, bounded⟩ := batch
  obtain ⟨_, rfl⟩ := encodeBatch_ok_iff.mp encoded
  have few := batchBytes_records 0 records
  rw [recordCountOf_batchBytes bounded]
  omega

theorem patch_length (offset : Int) : (patchBaseOffset payload offset).length = payload.length := by
  have long := batch.stored.long
  exact Storage.patch_length (by omega) offset

/-- The assigned offsets are those from the given one on. -/
theorem ends {offset : Int} (nonneg : 0 ≤ offset) (room : offset + recordCountOf payload < 2 ^ 63) :
    baseOffsetOf (patchBaseOffset payload offset) = offset ∧
      endOffsetOf (patchBaseOffset payload offset) = offset + recordCountOf payload := by
  have positive := batch.count_pos
  have base : baseOffsetOf (patchBaseOffset payload offset) = offset := by
    rw [baseOffsetOf_patch]
    exact int64_of_range (by omega) (by omega)
  refine ⟨base, ?_⟩
  rw [endOffsetOf, base, recordCountOf_patch]
  exact int64_of_range (by omega) (by omega)

end EncodedBatch

/-- The log can take this many more records without leaving the 64-bit offsets. -/
structure Fits (log : PartitionLog) (count : Int) : Prop where
  start : log.active.base ≤ log.next
  room : log.next + count < 2 ^ 63

/-- An encoded batch moves the next offset by its records. -/
theorem encoded_moves {records : List Record} {payload : Bytes} (encoded : encodeBatch records = .ok payload)
    (bounded : payload.length < 2 ^ 32) {log : PartitionLog} {limit count : Int} (valid : log.Valid limit)
    (fits : Fits log (recordCountOf payload + count)) (spare : 0 ≤ count) :
    StoredBatch payload ∧ log.next < endOffsetOf (patchBaseOffset payload log.next) ∧
      endOffsetOf (patchBaseOffset payload log.next) = log.next + recordCountOf payload := by
  have batch : EncodedBatch payload := ⟨⟨records, encoded⟩, bounded⟩
  have positive := batch.count_pos
  have start := fits.start
  have room := fits.room
  have nonneg := valid.active.nonneg
  have moved := (batch.ends (by omega : 0 ≤ log.next) (by omega)).2
  exact ⟨batch.stored, by omega, moved⟩

/-- A growing append keeps the start of the active segment at or before its end. -/
theorem append_start {limit : Int} {log : PartitionLog} {batch : Bytes} (start : log.active.base ≤ log.next)
    (grows : log.next < endOffsetOf (patchBaseOffset batch log.next)) :
    (log.append limit batch).active.base ≤ (log.append limit batch).next := by
  rw [PartitionLog.append_next]
  unfold PartitionLog.append
  simp only
  split
  · exact (Segment.push_stop _ _).le
  · change log.active.base ≤ _
    omega

end BunnyMQ.Storage
