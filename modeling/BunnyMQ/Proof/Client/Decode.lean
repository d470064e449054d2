/-
This file shows that the client decodes every chunk of encoded batches.
-/

import BunnyMQ.Construction.Client.BatchDecoder
import BunnyMQ.Proof.Storage.Encoded

namespace BunnyMQ.Client
open Foundation Storage List

/-- A later header wins, so distinct keys keep every header. -/
theorem lookup_headerMap {headers : List RecordHeader} (distinct : (headers.map RecordHeader.key).Nodup)
    (key value : Bytes) : (headerMap headers).lookup key = some value ↔ RecordHeader.mk key value ∈ headers := by
  induction headers using reverseRecOn with
  | nil => simp [headerMap]
  | append_singleton headers last ih =>
    rw [map_append, map_singleton] at distinct
    have fresh : last.key ∉ headers.map RecordHeader.key := by
      intro member
      exact (nodup_append.mp distinct).2.2 _ member _ (mem_singleton_self _) rfl
    have step : headerMap (headers ++ [last]) = (headerMap headers).insert last.key last.value := by
      simp [headerMap]
    have known := ih (nodup_append.mp distinct).1
    rw [step, mem_append, mem_singleton]
    by_cases same : key = last.key
    · subst same
      rw [Finmap.lookup_insert, Option.some.injEq]
      constructor
      · intro equal
        exact .inr (by cases last; cases equal; rfl)
      · rintro (old | new)
        · exact absurd (mem_map_of_mem old) fresh
        · rw [← new]
    · rw [Finmap.lookup_insert_of_ne _ same, known]
      constructor
      · exact .inl
      · rintro (old | new)
        · exact old
        · exact absurd (congrArg RecordHeader.key new) same

/-- A batch of records with the offset that the log assigned to it. -/
structure SentBatch where
  offset : Nat
  records : List Record

namespace SentBatch

def bytes (sent : SentBatch) : Bytes := batchBytes (Int64.ofInt sent.offset) sent.records

def decoded (sent : SentBatch) : List DecodedRecord :=
  decodedRecords { headerOf (Int64.ofInt sent.offset) sent.records with records := sent.records }

end SentBatch

/-- Consecutive batches take consecutive offsets. -/
def sentFrom : Nat → List (List Record) → List SentBatch
  | _, [] => []
  | offset, records :: rest => ⟨offset, records⟩ :: sentFrom (offset + records.length) rest

/-- The decoder takes exactly one batch off the data. -/
theorem decodeNextBatch_bytes (before : Bytes) (sent : SentBatch) (rest : Bytes)
    (bounded : sent.bytes.length < 2 ^ 31) :
    decodeNextBatch (before ++ (sent.bytes ++ rest)) before.length =
      .ok ({ headerOf (Int64.ofInt sent.offset) sent.records with records := sent.records },
        before.length + sent.bytes.length) := by
  have long := batchBytes_records (Int64.ofInt sent.offset) sent.records
  have size := batchBytes_length (Int64.ofInt sent.offset) sent.records
  have inside : ¬ before.length ≥ (before ++ (sent.bytes ++ rest)).length := by
    rw [length_append, length_append, SentBatch.bytes]
    omega
  have batchLength : (headerOf (Int64.ofInt sent.offset) sent.records).batchLength.toInt = sent.bytes.length := by
    rw [SentBatch.bytes, size, headerOf,
      Int32.toInt_ofNat_of_lt (by rw [SentBatch.bytes, size] at bounded; exact bounded)]
  have decoded := decodeBatch_batchBytes rest bounded
  have taken := goSlice_eq (Nat.le_of_not_ge inside) (Nat.le_refl (before ++ (sent.bytes ++ rest)).length)
  have tail : slice (before ++ (sent.bytes ++ rest)) before.length (before ++ (sent.bytes ++ rest)).length =
      sent.bytes ++ rest := by
    rw [slice, drop_left, take_of_length_le (by simp)]
  simp only [decodeNextBatch, if_neg inside, taken, tail, bind, Except.bind, pure, Except.pure]
  rw [SentBatch.bytes, decoded]
  simp only [batchLength, Int.toNat_natCast]
  rfl

/-- The loop decodes every batch of the chunk and goes on with what follows. -/
theorem decodeLoop_append {batches : List SentBatch} (bounded : ∀ sent ∈ batches, sent.bytes.length < 2 ^ 31)
    (before rest : Bytes) (fuel : Nat) :
    decodeLoop (before ++ ((batches.map SentBatch.bytes).flatten ++ rest)) (batches.length + fuel) before.length =
      (batches.flatMap SentBatch.decoded ++ (decodeLoop (before ++ ((batches.map SentBatch.bytes).flatten ++ rest)) fuel
        (before.length + (batches.map SentBatch.bytes).flatten.length)).1,
      (decodeLoop (before ++ ((batches.map SentBatch.bytes).flatten ++ rest)) fuel
        (before.length + (batches.map SentBatch.bytes).flatten.length)).2) := by
  induction batches generalizing before with
  | nil => simp
  | cons sent batches ih =>
    have long := batchBytes_records (Int64.ofInt sent.offset) sent.records
    have inside : before.length <
        (before ++ (sent.bytes ++ ((batches.map SentBatch.bytes).flatten ++ rest))).length := by
      rw [length_append, length_append, SentBatch.bytes]
      omega
    have tail := ih (fun other member => bounded other (mem_cons_of_mem _ member)) (before ++ sent.bytes)
    rw [append_assoc, length_append] at tail
    have count : (sent :: batches).length + fuel = (batches.length + fuel) + 1 := by
      rw [length_cons]
      omega
    have place : before.length + (sent.bytes.length + (batches.map SentBatch.bytes).flatten.length) =
        before.length + sent.bytes.length + (batches.map SentBatch.bytes).flatten.length := by omega
    rw [count, map_cons, flatten_cons, append_assoc, decodeLoop, if_pos inside,
      decodeNextBatch_bytes before sent _ (bounded sent mem_cons_self)]
    simp only [tail, length_append, flatMap_cons, append_assoc, place]
    rfl

/-- A chunk has at least as many bytes as batches. -/
theorem batches_length_le (batches : List SentBatch) :
    batches.length ≤ (batches.map SentBatch.bytes).flatten.length := by
  induction batches with
  | nil => simp
  | cons sent batches ih =>
    have long := batchBytes_records (Int64.ofInt sent.offset) sent.records
    rw [map_cons, flatten_cons, length_append, length_cons, SentBatch.bytes]
    omega

theorem decode_append {batches : List SentBatch} (bounded : ∀ sent ∈ batches, sent.bytes.length < 2 ^ 31)
    (rest : Bytes) : ∃ fuel, rest.length ≤ fuel ∧ decode ((batches.map SentBatch.bytes).flatten ++ rest) =
      (batches.flatMap SentBatch.decoded ++ (decodeLoop ((batches.map SentBatch.bytes).flatten ++ rest) fuel
        (batches.map SentBatch.bytes).flatten.length).1,
      (decodeLoop ((batches.map SentBatch.bytes).flatten ++ rest) fuel
        (batches.map SentBatch.bytes).flatten.length).2) := by
  have few := batches_length_le batches
  have size : ((batches.map SentBatch.bytes).flatten ++ rest).length = batches.length +
      ((batches.map SentBatch.bytes).flatten.length - batches.length + rest.length) := by
    rw [length_append]
    omega
  refine ⟨(batches.map SentBatch.bytes).flatten.length - batches.length + rest.length, Nat.le_add_left _ _, ?_⟩
  have whole := decodeLoop_append bounded [] rest
    ((batches.map SentBatch.bytes).flatten.length - batches.length + rest.length)
  rw [nil_append, ← size, length_nil, Nat.zero_add] at whole
  exact whole

theorem decode_bytes {batches : List SentBatch} (bounded : ∀ sent ∈ batches, sent.bytes.length < 2 ^ 31) :
    decode (batches.map SentBatch.bytes).flatten = (batches.flatMap SentBatch.decoded, none) := by
  obtain ⟨fuel, _, decoded⟩ := decode_append bounded []
  have finished : decodeLoop (batches.map SentBatch.bytes).flatten fuel (batches.map SentBatch.bytes).flatten.length =
      ([], none) := by
    cases fuel with
    | zero => rfl
    | succ fuel => rw [decodeLoop, if_neg (Nat.lt_irrefl _)]
  rw [append_nil, finished, append_nil] at decoded
  exact decoded

/-- The record that a consumer receives at an offset. -/
def delivered (offset : Nat) (record : Record) : DecodedRecord where
  offset := Int64.ofNat offset
  key := record.key
  value := record.value
  headers := headerMap record.headers
  timestampMs := record.timestampMs

/-- Consecutive batches deliver their records at consecutive offsets. -/
theorem decoded_sentFrom (offset : Nat) (batches : List (List Record)) :
    (sentFrom offset batches).flatMap SentBatch.decoded =
      (batches.flatten.zipIdx offset).map fun entry => delivered entry.2 entry.1 := by
  induction batches generalizing offset with
  | nil => rfl
  | cons records batches ih =>
    have first : (SentBatch.mk offset records).decoded =
        (records.zipIdx offset).map fun entry => delivered entry.2 entry.1 := by
      have shifted : records.zipIdx offset = records.zipIdx.map fun entry => (entry.1, offset + entry.2) :=
        zipIdx_eq_map_add
      rw [shifted, map_map]
      refine map_congr_left fun entry _ => ?_
      simp only [Function.comp, delivered, headerOf, DecodedRecord.mk.injEq, and_true]
      exact (Int64.ofNat_add _ _).symm
    rw [sentFrom, flatMap_cons, first, ih, flatten_cons, zipIdx_append, map_append]

end BunnyMQ.Client
