/-
This file shows that the batch codec loses nothing and that the client keeps what precedes a damaged batch.
-/

import BunnyMQ.Proof.Client.Decode
import BunnyMQ.Proof.Client.Untrusted

namespace BunnyMQ.Client
open Foundation Storage StorageImpl List

/-- The value of the last header with this key. -/
def lastValue (headers : List RecordHeader) (key : Bytes) : Option Bytes :=
  (headers.reverse.find? fun header => header.key = key).map RecordHeader.value

/-- The map of the headers holds the last value of every key. -/
theorem lookup_headerMap_last (headers : List RecordHeader) (key : Bytes) :
    (headerMap headers).lookup key = lastValue headers key := by
  induction headers using reverseRecOn with
  | nil => rfl
  | append_singleton headers last ih =>
    have step : headerMap (headers ++ [last]) = (headerMap headers).insert last.key last.value := by
      simp [headerMap]
    rw [step, lastValue, reverse_append, reverse_singleton, singleton_append]
    by_cases same : last.key = key
    · subst same
      rw [Finmap.lookup_insert, find?_cons_of_pos (by simp), Option.map_some]
    · rw [Finmap.lookup_insert_of_ne _ (Ne.symm same), find?_cons_of_neg (by simpa using same), ih]
      rfl

/-- A consumer receives the records of a batch with this base offset in order. -/
def received (base : Int64) (records : List Record) : List DecodedRecord :=
  records.zipIdx.map fun entry => {
    offset := base + Int64.ofNat entry.2
    key := entry.1.key
    value := entry.1.value
    headers := headerMap entry.1.headers
    timestampMs := entry.1.timestampMs }

/-- These bytes are the encoded records with a base offset written into them. -/
def EncodedAt (base : Int64) (records : List Record) (chunk : Bytes) : Prop :=
  ∃ bytes, encodeBatch records = .ok bytes ∧ bytes.length < 2 ^ 31 ∧ chunk = patchBaseOffset bytes base.toInt

/-- A batch lost some of its bytes at the end. -/
def Truncated (tail : Bytes) : Prop :=
  ∃ base records chunk, EncodedAt base records chunk ∧ tail ≠ [] ∧ tail <+: chunk ∧ tail ≠ chunk

/-- The announced bytes of a batch are there, and they do not have its checksum. -/
def Corrupted (tail : Bytes) : Prop :=
  38 ≤ tail.length ∧ 38 ≤ (decodeHeader tail).batchLength.toInt ∧ (decodeHeader tail).batchLength.toInt ≤ tail.length ∧
    checksum (slice tail 38 (decodeHeader tail).batchLength.toInt.toNat) ≠ (decodeHeader tail).crc32

/-- Eight other bytes in front of an encoded batch are another base offset. -/
theorem overwrite_batchBytes {front : Bytes} (width : front.length = 8) (base : Int64) (records : List Record) :
    front ++ (batchBytes base records).drop 8 = batchBytes (Int64.ofInt (getUint front)) records := by
  have digits := putUint_getUint front
  have bound := getUint_lt front
  rw [width] at digits bound
  have word : uint64 (getUint front) = getUint front := by
    unfold uint64
    omega
  rw [← patch_batchBytes base records, patchBaseOffset, word, digits]

theorem encodedAt_iff {base : Int64} {records : List Record} {chunk : Bytes} :
    EncodedAt base records chunk ↔ records ≠ [] ∧ batchBytes base records = chunk ∧ chunk.length < 2 ^ 31 := by
  constructor
  · intro ⟨bytes, encoded, small, patched⟩
    obtain ⟨present, rfl⟩ := encodeBatch_ok_iff.mp encoded
    rw [patch_batchBytes, Int64.ofInt_toInt] at patched
    refine ⟨present, patched.symm, ?_⟩
    rw [patched, batchBytes_length_eq base 0]
    exact small
  · rintro ⟨present, rfl, small⟩
    refine ⟨batchBytes 0 records, encodeBatch_eq present, ?_, ?_⟩
    · rw [batchBytes_length_eq 0 base]
      exact small
    · rw [patch_batchBytes, Int64.ofInt_toInt]

/-- A damaged batch is refused with an error. -/
theorem damaged_refused {tail : Bytes} (damaged : Truncated tail ∨ Corrupted tail) :
    tail ≠ [] ∧ ∃ text, decodeBatch tail = .error (.error text) := by
  rcases damaged with ⟨base, records, chunk, encoded, present, front, short⟩ | ⟨long, _, _, different⟩
  · refine ⟨present, decodeBatch_refused ?_⟩
    rintro ⟨long, _, within, _⟩
    obtain ⟨_, rfl, small⟩ := encodedAt_iff.mp encoded
    obtain ⟨rest, whole⟩ := front
    have total := congrArg length whole
    rw [length_append] at total
    have size := batchBytes_length base records
    have lost : 0 < rest.length := by
      rw [length_pos_iff]
      rintro rfl
      rw [append_nil] at whole
      exact short whole
    have header : decodeHeader tail = headerOf base records := by
      have cut : tail = encodeHeader (headerOf base records) ++ tail.drop 38 := by
        have start : (encodeHeader (headerOf base records)) = (tail ++ rest).take 38 := by
          rw [whole, batchBytes, take_left' (encodeHeader_length _)]
        rw [start, take_append_of_le_length long, take_append_drop]
      rw [cut]
      exact decodeHeader_encodeHeader _ _
    have announced : (headerOf base records).batchLength.toInt = (batchBytes base records).length := by
      rw [size, headerOf, Int32.toInt_ofNat_of_lt (by rw [size] at small; exact small)]
    rw [header, announced] at within
    omega
  · refine ⟨by rintro rfl; simp at long, decodeBatch_refused ?_⟩
    rintro ⟨_, _, _, same⟩
    exact different same

theorem ofInt_toUInt64 (base : Int64) : Int64.ofInt (base.toUInt64.toNat : Int) = base := by
  rw [← UInt64.toNat_toBitVec, ← Int64.toBitVec_inj, Int64.toBitVec_ofInt, BitVec.ofInt_natCast,
    Int64.toBitVec_toUInt64, BitVec.ofNat_toNat]
  simp

/-- A chunk of encoded batches is a chunk of sent batches. -/
theorem sent_of_encodedAt {batches : List (Int64 × List Record)} {chunks : List Bytes}
    (encoded : List.Forall₂ (fun placed chunk => EncodedAt placed.1 placed.2 chunk) batches chunks) :
    ∃ sent : List SentBatch, (∀ batch ∈ sent, batch.bytes.length < 2 ^ 31) ∧ chunks = sent.map SentBatch.bytes ∧
      sent.flatMap SentBatch.decoded = batches.flatMap fun placed => received placed.1 placed.2 := by
  induction encoded with
  | nil => exact ⟨[], by simp, rfl, rfl⟩
  | @cons placed chunk batches chunks first rest ih =>
    obtain ⟨sent, bounded, same, decoded⟩ := ih
    obtain ⟨base, records⟩ := placed
    obtain ⟨_, bytes, small⟩ := encodedAt_iff.mp first
    have offset := ofInt_toUInt64 base
    have here : (SentBatch.mk base.toUInt64.toNat records).bytes = chunk := by
      rw [SentBatch.bytes, offset, bytes]
    refine ⟨⟨base.toUInt64.toNat, records⟩ :: sent, ?_, ?_, ?_⟩
    · intro batch member
      rcases mem_cons.mp member with rfl | old
      · rw [here]
        exact small
      · exact bounded batch old
    · rw [map_cons, here, same]
    · rw [flatMap_cons, flatMap_cons, decoded, SentBatch.decoded, offset]
      rfl

/-- Every nonempty list of records survives the codec with any eight bytes in front, a chunk of batches is decoded
completely, and a damaged batch behind a chunk costs none of its records. -/
theorem batch_codec_round_trip :
    (∀ records : List Record, records ≠ [] → ∃ bytes, encodeBatch records = .ok bytes ∧
      (bytes.length < 2 ^ 31 → (∃ batch, decodeBatch bytes = .ok batch ∧ batch.records = records) ∧
        ∀ front : Bytes, front.length = 8 → ∃ batch, decodeBatch (front ++ bytes.drop 8) = .ok batch ∧
          batch.records = records)) ∧
    (∀ (batches : List (Int64 × List Record)) (chunks : List Bytes),
      List.Forall₂ (fun placed chunk => EncodedAt placed.1 placed.2 chunk) batches chunks →
      decode chunks.flatten = (batches.flatMap fun placed => received placed.1 placed.2, none) ∧
      ∀ tail, Truncated tail ∨ Corrupted tail → ∃ text, decode (chunks.flatten ++ tail) =
        (batches.flatMap fun placed => received placed.1 placed.2, some (.error text))) ∧
    ∀ headers key, (headerMap headers).lookup key = lastValue headers key := by
  refine ⟨?_, ?_, lookup_headerMap_last⟩
  · intro records present
    refine ⟨batchBytes 0 records, encodeBatch_eq present, ?_⟩
    intro small
    have decoded (base : Int64) :
        ∃ batch, decodeBatch (batchBytes base records) = .ok batch ∧ batch.records = records := by
      have whole := @decodeBatch_batchBytes base records [] (by rw [batchBytes_length_eq base 0]; exact small)
      rw [append_nil] at whole
      exact ⟨_, whole, rfl⟩
    refine ⟨decoded 0, ?_⟩
    intro front width
    rw [overwrite_batchBytes width]
    exact decoded _
  · intro batches chunks encoded
    obtain ⟨sent, bounded, rfl, same⟩ := sent_of_encodedAt encoded
    rw [← same]
    refine ⟨decode_bytes bounded, ?_⟩
    intro tail damaged
    obtain ⟨present, text, refused⟩ := damaged_refused damaged
    obtain ⟨fuel, enough, decoded⟩ := decode_append bounded tail
    have positive := length_pos_iff.mpr present
    have stopped : ∃ text, decodeLoop ((sent.map SentBatch.bytes).flatten ++ tail) fuel
        (sent.map SentBatch.bytes).flatten.length = ([], some (.error text)) := by
      obtain ⟨fuel, rfl⟩ : ∃ less, fuel = less + 1 := ⟨fuel - 1, by omega⟩
      have inside : (sent.map SentBatch.bytes).flatten.length <
          ((sent.map SentBatch.bytes).flatten ++ tail).length := by
        rw [length_append]
        omega
      rw [decodeLoop, if_pos inside, decodeNextBatch_eq inside, drop_left, refused]
      exact ⟨_, rfl⟩
    obtain ⟨text, stopped⟩ := stopped
    rw [decoded, stopped, append_nil]
    exact ⟨text, rfl⟩

end BunnyMQ.Client
