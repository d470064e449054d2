/-
This file shows which accepted batches a consumer can read.
-/

import BunnyMQ.Proof.Api.Accepted
import BunnyMQ.Proof.Client.Decode
import BunnyMQ.Proof.Client.Untrusted

namespace BunnyMQ.Client
open Foundation Storage StorageImpl Api List
variable {baseTimestamp : Int64} {more : Nat} {batch : Batch}

/-- The offset delta of the record at this position, which the decoder skips. -/
def offsetDeltaAt (data : Bytes) (pos : Nat) : Option Int64 :=
  match decodeUvarint data pos with
  | .error _ => none
  | .ok (_, start) =>
    match decodeUvarint data (start + 1) with
    | .error _ => none
    | .ok (_, next) =>
      match decodeUvarint data next with
      | .error _ => none
      | .ok (delta, _) => some (unzigzag delta)

/-- The offset deltas of the records that the loop of the decoder visits. -/
def offsetDeltas (data : Bytes) (baseTimestamp : Int64) : Nat → Nat → List (Option Int64)
  | 0, _ => []
  | more + 1, pos =>
    if pos < data.length then
      match decodeRecord data pos baseTimestamp with
      | .error _ => []
      | .ok (_, next) => offsetDeltaAt data pos :: offsetDeltas data baseTimestamp more next
    else []

/-- The bytes between the header and the announced end of a batch. -/
def recordBytesOf (data : Bytes) : Bytes := slice data 38 (batchLengthOf data)

def batchDeltas (data : Bytes) : List (Option Int64) :=
  offsetDeltas (recordBytesOf data) (decodeHeader data).baseTimestamp (recordBytesOf data).length 0

/-- The stored batch is decoded without an error into as many records as it announces, and each of them has the
offset that its place and its delta give it. -/
structure Consumed (data : Bytes) (base : Int) : Prop where
  positive : 1 ≤ recordCountOf data
  returned : (decode (patchBaseOffset data base)).2 = none
  counted : ((decode (patchBaseOffset data base)).1.length : Int) = recordCountOf data
  placed : (decode (patchBaseOffset data base)).1.map DecodedRecord.offset =
    (range (recordCountOf data).toNat).map fun i => Int64.ofInt base + Int64.ofNat i
  encoded : (decode (patchBaseOffset data base)).1.map (fun record => some record.offset) =
    (batchDeltas data).map (Option.map fun delta => Int64.ofInt base + delta)

/-- The offsets that a consumer sees when the batch is stored under this offset. -/
def decodedOffsets (data : Bytes) (base : Int) : List Int :=
  (decode (patchBaseOffset data base)).1.map fun record => record.offset.toInt

/-- Exactly this many records with these consecutive deltas stand between the position and the end. -/
inductive RecordsFrom (data : Bytes) (baseTimestamp : Int64) : Nat → Nat → Nat → Prop
  | nil {index : Nat} : RecordsFrom data baseTimestamp data.length index 0
  | cons {pos next index count : Nat} {record : Record} : decodeRecord data pos baseTimestamp = .ok (record, next) →
      offsetDeltaAt data pos = some (Int64.ofNat index) → RecordsFrom data baseTimestamp next (index + 1) count →
      RecordsFrom data baseTimestamp pos index (count + 1)

/-- These bytes are batches without records. -/
inductive Recordless : Bytes → Prop
  | nil : Recordless []
  | cons {data : Bytes} : Checked data → (decodeHeader data).batchLength.toInt = 38 →
    0 ≤ (decodeHeader data).recordCount →
      Recordless (data.drop 38) → Recordless data

/-- The announced records stand in the announced bytes, and only batches without records follow. -/
structure WellFormed (data : Bytes) : Prop where
  positive : 1 ≤ recordCountOf data
  signed : recordCountOf data < 2 ^ 31
  records : RecordsFrom (recordBytesOf data) (decodeHeader data).baseTimestamp 0 0 (recordCountOf data).toNat
  rest : Recordless (data.drop (batchLengthOf data))

section
variable {data : Bytes} {pos : Nat}

/-- The loop returns the records of a well-formed part, with their deltas. -/
theorem RecordsFrom.decoded (small : data.length ≤ maxAlloc) {index count : Nat}
    (records : RecordsFrom data baseTimestamp pos index count) (enough : data.length ≤ pos + more) :
    ∃ list, decodeRecords data baseTimestamp more pos = .ok list ∧ list.length = count ∧
      offsetDeltas data baseTimestamp more pos = (range' index count).map fun i => some (Int64.ofNat i) := by
  induction records generalizing more with
  | nil =>
    cases more with
    | zero => exact ⟨[], rfl, rfl, rfl⟩
    | succ more =>
      rw [decodeRecords, offsetDeltas, if_neg (Nat.lt_irrefl _), if_neg (Nat.lt_irrefl _)]
      exact ⟨[], rfl, rfl, rfl⟩
  | @cons pos next index count record decoded delta _ ih =>
    have forward := decodeRecord_advances small decoded
    obtain ⟨more, rfl⟩ : ∃ less, more = less + 1 := ⟨more - 1, by omega⟩
    obtain ⟨list, rest, length, deltas⟩ := @ih more (by omega)
    refine ⟨record :: list, ?_, by rw [length_cons, length], ?_⟩
    · rw [decodeRecords, if_pos (by omega), decoded]
      simp only [bind, Except.bind, rest, pure, Except.pure]
    · rw [offsetDeltas, if_pos (by omega), decoded]
      simp only [delta, deltas, range'_succ, map_cons]

/-- What the loop returns with consecutive deltas is well-formed. -/
theorem recordsFrom_of_decoded (small : data.length ≤ maxAlloc) {index : Nat} {list : List Record}
    (inside : pos ≤ data.length) (enough : data.length ≤ pos + more)
    (decoded : decodeRecords data baseTimestamp more pos = .ok list)
    (deltas : offsetDeltas data baseTimestamp more pos =
      (range' index list.length).map fun i => some (Int64.ofNat i)) :
    RecordsFrom data baseTimestamp pos index list.length := by
  induction more generalizing pos index list with
  | zero =>
    cases decoded
    have finished : pos = data.length := by omega
    rw [finished]
    exact .nil
  | succ more ih =>
    rw [decodeRecords] at decoded
    rw [offsetDeltas] at deltas
    by_cases below : pos < data.length
    · rw [if_pos below] at decoded deltas
      obtain ⟨⟨record, next⟩, first, rest⟩ := (bind_ok_iff _ _ _).mp decoded
      obtain ⟨tail, others, same⟩ := (bind_ok_iff _ _ _).mp rest
      cases same
      have forward := decodeRecord_advances small first
      rw [first, length_cons, range'_succ, map_cons] at deltas
      obtain ⟨delta, remaining⟩ := cons.inj deltas
      exact .cons first delta (ih forward.2 (by omega) others remaining)
    · rw [if_neg below] at decoded
      cases decoded
      have finished : pos = data.length := by omega
      rw [finished]
      exact .nil

theorem decodeHeader_patch (data : Bytes) (base : Int) :
    decodeHeader (patchBaseOffset data base) = { decodeHeader data with baseOffset := Int64.ofInt base } := by
  have first : slice (patchBaseOffset data base) 0 8 = putUint 8 (uint64 base) := by
    rw [patchBaseOffset, slice_append_left (by rw [putUint_length]), slice, drop_zero, Nat.sub_zero,
      take_of_length_le (by rw [putUint_length])]
  have bound := uint64_lt base
  have offset : (uint64At (patchBaseOffset data base) 0).toInt64 = Int64.ofInt base := by
    rw [← Int64.toInt_inj, toInt64_toInt, uint64At, first, getUint_putUint_of_lt (by omega), UInt64.toNat_ofNat',
      Nat.mod_eq_of_lt bound, int64_uint64, toInt_ofInt_int64]
  simp only [decodeHeader, offset, uint16At, uint32At]
  simp only [uint64At, slice_patch data base (by decide : 8 ≤ 8), slice_patch data base (by decide : 8 ≤ 12),
    slice_patch data base (by decide : 8 ≤ 16), slice_patch data base (by decide : 8 ≤ 20),
    slice_patch data base (by decide : 8 ≤ 22), slice_patch data base (by decide : 8 ≤ 30)]

/-- The signed length of an accepted batch is its announced length. -/
theorem batchLength_of_accepted (accepted : validateBatch data = .ok ()) :
    (decodeHeader data).batchLength.toInt = batchLengthOf data := by
  obtain ⟨_, _, inside, small, _⟩ := validateBatch_ok_iff.mp accepted
  unfold maxBatchBytes at small
  have bound : (uint32At data 8).toNat < 2 ^ 31 := by
    change batchLengthOf data < 2 ^ 31
    omega
  change (uint32At data 8).toBitVec.toInt = ((uint32At data 8).toNat : Int)
  rw [BitVec.toInt_eq_toNat_of_lt (by rw [UInt32.toNat_toBitVec]; omega), UInt32.toNat_toBitVec]

/-- The record count of a batch is read with a sign. -/
theorem recordCount_nonneg (data : Bytes) : ¬ (decodeHeader data).recordCount < 0 ↔ recordCountOf data < 2 ^ 31 := by
  have sign : (decodeHeader data).recordCount.toInt = ((uint32At data 12).toNat : Int).bmod (2 ^ 32) := by
    change (uint32At data 12).toBitVec.toInt = _
    rw [BitVec.toInt_eq_toNat_bmod, UInt32.toNat_toBitVec]
  have bound := (uint32At data 12).toNat_lt
  rw [Int32.lt_iff_toInt_lt, sign, recordCountOf, Int32.toInt_zero]
  generalize (uint32At data 12).toNat = count at bound
  rw [Int.bmod_def]
  omega

/-- The loop of the records returns one delta for each record. -/
theorem offsetDeltas_length {list : List Record} (decoded : decodeRecords data baseTimestamp more pos = .ok list) :
    (offsetDeltas data baseTimestamp more pos).length = list.length := by
  induction more generalizing pos list with
  | zero =>
    cases decoded
    rfl
  | succ more ih =>
    rw [decodeRecords] at decoded
    rw [offsetDeltas]
    by_cases below : pos < data.length
    · rw [if_pos below] at decoded
      rw [if_pos below]
      obtain ⟨⟨record, next⟩, first, rest⟩ := (bind_ok_iff _ _ _).mp decoded
      obtain ⟨tail, others, same⟩ := (bind_ok_iff _ _ _).mp rest
      cases same
      rw [first]
      simp only [length_cons, ih others]
    · rw [if_neg below] at decoded
      rw [if_neg below]
      cases decoded
      rfl

theorem decodedRecords_offsets (batch : Batch) : (decodedRecords batch).map DecodedRecord.offset =
    (range batch.records.length).map fun i => batch.baseOffset + Int64.ofNat i := by
  have places := zipIdx_map_snd 0 batch.records
  rw [decodedRecords, map_map, range_eq_range', ← places, map_map]
  rfl

/-- A batch is decoded to nothing exactly when it ends with its header. -/
theorem decodeBatch_nothing (decoded : decodeBatch data = .ok batch) :
    decodedRecords batch = [] ↔ batch.batchLength.toInt = 38 := by
  obtain ⟨checked, _, header, records⟩ := decodeBatch_ok_iff.mp decoded
  have length := @slice_length data 38 (decodeHeader data).batchLength.toInt.toNat
    (by have inside := checked.2.2.1; omega)
  have least := checked.2.1
  have nothing : decodedRecords batch = [] ↔ batch.records = [] := by
    rw [decodedRecords, map_eq_nil_iff, zipIdx_eq_nil_iff]
  rw [header, nothing]
  generalize slice data 38 (decodeHeader data).batchLength.toInt.toNat = bytes at records length
  constructor
  · intro none
    rw [none] at records
    cases bytes with
    | nil =>
      rw [length_nil] at length
      omega
    | cons byte bytes =>
      rw [length_cons, decodeRecords, if_pos (by rw [length_cons]; omega)] at records
      obtain ⟨_, _, rest⟩ := (bind_ok_iff _ _ _).mp records
      obtain ⟨_, _, same⟩ := (bind_ok_iff _ _ _).mp rest
      cases same
  · intro bare
    have empty : bytes = [] := length_eq_zero_iff.mp (by omega)
    subst empty
    exact (Except.ok.inj records).symm

/-- Bytes without records start with a batch that is decoded to nothing. -/
theorem recordless_iff (nonempty : data ≠ []) : Recordless data ↔
    ∃ batch, decodeBatch data = .ok batch ∧ batch.batchLength.toInt = 38 ∧ Recordless (data.drop 38) := by
  constructor
  · intro recordless
    cases recordless with
    | nil => exact absurd rfl nonempty
    | cons checked bare counted rest =>
      have empty : slice data 38 (decodeHeader data).batchLength.toInt.toNat = [] := by
        rw [bare]
        exact take_zero
      refine ⟨⟨decodeHeader data, []⟩, decodeBatch_ok_iff.mpr ⟨checked, Int32.not_lt.mpr counted, rfl, ?_⟩, bare, rest⟩
      rw [empty]
      rfl
  · rintro ⟨batch, decoded, bare, rest⟩
    obtain ⟨checked, counted, header, _⟩ := decodeBatch_ok_iff.mp decoded
    rw [header] at bare
    exact .cons checked bare (Int32.not_lt.mp counted) rest

/-- The loop of the batches returns nothing exactly when only batches without records are left. -/
theorem decodeLoop_nothing_iff (enough : data.length ≤ pos + more) :
    decodeLoop data more pos = ([], none) ↔ Recordless (data.drop pos) := by
  induction more generalizing pos with
  | zero =>
    rw [drop_eq_nil_of_le (by omega)]
    exact iff_of_true rfl .nil
  | succ more ih =>
    rw [decodeLoop]
    by_cases below : pos < data.length
    · have nonempty : data.drop pos ≠ [] := by
        rw [Ne, drop_eq_nil_iff]
        omega
      rw [if_pos below, decodeNextBatch_eq below, recordless_iff nonempty, drop_drop]
      cases decoded : decodeBatch (data.drop pos) with
      | error failure => simp [bind, Except.bind]
      | ok batch =>
        have bare := decodeBatch_nothing decoded
        have least := decodeBatch_length decoded
        simp only [bind, Except.bind, pure, Except.pure, Prod.mk.injEq, append_eq_nil_iff, bare, and_assoc,
          Except.ok.injEq, exists_eq_left']
        refine and_congr_right fun length => ?_
        rw [length, ← @ih (pos + 38) (by omega), Prod.ext_iff]
        rfl
    · rw [if_neg below, drop_eq_nil_of_le (by omega)]
      exact iff_of_true rfl .nil

/-- A stored batch is decoded exactly when its count has no sign and its announced records are decoded. -/
theorem decodeBatch_stored_iff (accepted : validateBatch data = .ok ()) (base : Int) :
    decodeBatch (patchBaseOffset data base) = .ok batch ↔
      recordCountOf data < 2 ^ 31 ∧ batch.toBatchHeader = decodeHeader (patchBaseOffset data base) ∧
        decodeRecords (recordBytesOf data) (decodeHeader data).baseTimestamp (recordBytesOf data).length 0 =
          .ok batch.records := by
  obtain ⟨long, least, inside, _, same⟩ := validateBatch_ok_iff.mp accepted
  have length := patch_length (by omega : 8 ≤ data.length) base
  have announced := batchLength_of_accepted accepted
  have taken : slice (patchBaseOffset data base) 38 (decodeHeader data).batchLength.toInt.toNat =
      recordBytesOf data := by
    rw [slice_patch data base (by decide), announced, Int.toNat_natCast, recordBytesOf]
  have checked : Checked (patchBaseOffset data base) := by
    unfold Checked
    rw [decodeHeader_patch, length]
    change _ ∧ 38 ≤ (decodeHeader data).batchLength.toInt ∧ (decodeHeader data).batchLength.toInt ≤ _ ∧ _
    refine ⟨long, by omega, by omega, ?_⟩
    rw [taken]
    exact same
  rw [decodeBatch_ok_iff, and_iff_right checked, ← recordCount_nonneg]
  nth_rewrite 1 3 4 5 [decodeHeader_patch]
  simp only [taken]

/-- The decoder reads the announced records of a stored batch and then the bytes behind them. -/
theorem decode_stored_iff (accepted : validateBatch data = .ok ()) (base : Int) {out : List DecodedRecord} :
    decode (patchBaseOffset data base) = (out, none) ↔
      ∃ batch rest, decodeBatch (patchBaseOffset data base) = .ok batch ∧
        decodeLoop (patchBaseOffset data base) (data.length - 1) (batchLengthOf data) = (rest, none) ∧
        decodedRecords batch ++ rest = out := by
  have long := (validateBatch_ok_iff.mp accepted).1
  have length := patch_length (by omega : 8 ≤ data.length) base
  have unrolled : decode (patchBaseOffset data base) =
      decodeLoop (patchBaseOffset data base) (data.length - 1 + 1) 0 := by
    rw [decode, length, Nat.sub_add_cancel (by omega)]
  rw [unrolled, decodeLoop, if_pos (by omega), decodeNextBatch_eq (by omega), drop_zero]
  cases decoded : decodeBatch (patchBaseOffset data base) with
  | error failure => simp [bind, Except.bind]
  | ok batch =>
    obtain ⟨_, header, _⟩ := (decodeBatch_stored_iff accepted base).mp decoded
    have next : 0 + batch.batchLength.toInt.toNat = batchLengthOf data := by
      rw [header, decodeHeader_patch, Nat.zero_add]
      change (decodeHeader data).batchLength.toInt.toNat = _
      rw [batchLength_of_accepted accepted, Int.toNat_natCast]
    simp only [bind, Except.bind, pure, Except.pure, next, Prod.mk.injEq, Except.ok.injEq]
    constructor
    · rintro ⟨rfl, finished⟩
      exact ⟨batch, _, rfl, Prod.ext rfl finished, rfl⟩
    · rintro ⟨_, rest, rfl, finished, rfl⟩
      rw [finished]
      exact ⟨rfl, rfl⟩

/-- The offsets of a stored batch count from its assigned offset. -/
theorem stored_offsets (accepted : validateBatch data = .ok ()) {base : Int}
    (decoded : decodeBatch (patchBaseOffset data base) = .ok batch) : (decodedRecords batch).map DecodedRecord.offset =
      (range batch.records.length).map fun i => Int64.ofInt base + Int64.ofNat i := by
  obtain ⟨_, header, _⟩ := (decodeBatch_stored_iff accepted base).mp decoded
  rw [decodedRecords_offsets, header, decodeHeader_patch]

theorem decodedRecords_length (batch : Batch) : (decodedRecords batch).length = batch.records.length := by
  simp [decodedRecords]

/-- The deltas are consecutive exactly when they give every record the offset of its place. -/
theorem deltas_consecutive_iff (base : Int64) (deltas : List (Option Int64)) (count : Nat) :
    ((range count).map fun i => some (base + Int64.ofNat i)) = deltas.map (Option.map fun delta => base + delta) ↔
      deltas = (range' 0 count).map fun i => some (Int64.ofNat i) := by
  have cancel : Function.Injective (Option.map fun delta => base + delta) :=
    Option.map_injective fun first second same => (Int64.add_right_inj base).mp same
  have shifted : ((range count).map fun i => some (base + Int64.ofNat i)) =
      ((range' 0 count).map fun i => some (Int64.ofNat i)).map (Option.map fun delta => base + delta) := by
    rw [map_map, range_eq_range']
    rfl
  rw [shifted, (map_injective_iff.mpr cancel).eq_iff]
  exact eq_comm

section
variable (accepted : validateBatch data = .ok ())
include accepted

theorem recordBytesOf_small : (recordBytesOf data).length ≤ maxAlloc := by
  obtain ⟨_, _, inside, small, _⟩ := validateBatch_ok_iff.mp accepted
  rw [recordBytesOf, slice_length inside]
  unfold maxBatchBytes at small
  unfold maxAlloc
  omega

/-- Only batches without records follow exactly when the decoder returns nothing more. -/
theorem stored_rest_iff (base : Int) :
    decodeLoop (patchBaseOffset data base) (data.length - 1) (batchLengthOf data) = ([], none) ↔
      Recordless (data.drop (batchLengthOf data)) := by
  obtain ⟨long, least, _⟩ := validateBatch_ok_iff.mp accepted
  rw [decodeLoop_nothing_iff (by rw [patch_length (by omega)]; omega), drop_patch base (by omega)]

/-- A consumed batch is well-formed. -/
theorem Consumed.wellFormed {base : Int} (consumed : Consumed data base) : WellFormed data := by
  obtain ⟨out, whole⟩ : ∃ out, decode (patchBaseOffset data base) = (out, none) :=
    ⟨(decode (patchBaseOffset data base)).1, by rw [← consumed.returned]⟩
  obtain ⟨batch, rest, decoded, behind, rfl⟩ := (decode_stored_iff accepted base).mp whole
  obtain ⟨signed, _, read⟩ := (decodeBatch_stored_iff accepted base).mp decoded
  have encoded := consumed.encoded
  have counted := consumed.counted
  have deltas : (batchDeltas data).length = batch.records.length := offsetDeltas_length read
  rw [whole] at encoded counted
  simp only at encoded counted
  -- There are as many deltas as announced records, so nothing is decoded behind them.
  have empty : rest = [] := by
    have lengths := congrArg length encoded
    rw [length_map, length_map, length_append, deltas, decodedRecords_length] at lengths
    exact length_eq_zero_iff.mp (by omega)
  rw [empty, append_nil] at encoded counted
  rw [decodedRecords_length] at counted
  have count : (recordCountOf data).toNat = batch.records.length := by omega
  have places : (decodedRecords batch).map (fun record => some record.offset) =
      (range batch.records.length).map fun i => some (Int64.ofInt base + Int64.ofNat i) := by
    have mapped := congrArg (map some) (stored_offsets accepted decoded)
    rwa [map_map, map_map] at mapped
  rw [places, deltas_consecutive_iff] at encoded
  refine ⟨consumed.positive, signed, ?_, ?_⟩
  · rw [count]
    exact recordsFrom_of_decoded (recordBytesOf_small accepted) (Nat.zero_le _) (by omega) read encoded
  · rw [← stored_rest_iff accepted base, behind, empty]

/-- A well-formed batch is consumed. -/
theorem WellFormed.consumed (formed : WellFormed data) (base : Int) : Consumed data base := by
  obtain ⟨list, read, length, deltas⟩ := formed.records.decoded (recordBytesOf_small accepted) (Nat.le_add_left _ 0)
  have positive := formed.positive
  have decoded : decodeBatch (patchBaseOffset data base) = .ok ⟨decodeHeader (patchBaseOffset data base), list⟩ :=
    (decodeBatch_stored_iff accepted base).mpr ⟨formed.signed, rfl, read⟩
  have offsets := stored_offsets accepted decoded
  have whole := (decode_stored_iff accepted base).mpr
    ⟨_, [], decoded, (stored_rest_iff accepted base).mpr formed.rest, append_nil _⟩
  have encoded := (deltas_consecutive_iff (Int64.ofInt base) (batchDeltas data) (recordCountOf data).toNat).mpr deltas
  refine ⟨positive, ?_, ?_, ?_, ?_⟩
  · rw [whole]
  · rw [whole, decodedRecords_length, length]
    omega
  · rw [whole, offsets, length]
  · rw [whole, ← encoded, ← length]
    have mapped := congrArg (map some) offsets
    rwa [map_map, map_map] at mapped

end

/-- The offsets of a consumed batch run from its assigned offset through its record count. -/
theorem Consumed.offsets {base : Int} (consumed : Consumed data base) (nonneg : 0 ≤ base)
    (bounded : base + recordCountOf data < 2 ^ 63) :
    decodedOffsets data base = (range (recordCountOf data).toNat).map fun (i : Nat) => base + i := by
  have placed := congrArg (map Int64.toInt) consumed.placed
  have positive := consumed.positive
  rw [map_map, map_map] at placed
  refine placed.trans (map_congr_left fun i member => ?_)
  have below := mem_range.mp member
  have place : (Int64.ofNat i).toInt = i := Int64.toInt_ofNat_of_lt (by omega)
  have width : Int64.size = 2 ^ 64 := rfl
  change (Int64.ofInt base + Int64.ofNat i).toInt = _
  rw [Int64.toInt_add, toInt_ofInt_int64, int64_of_range (by omega) (by omega), place, Int.bmod_def]
  omega

end

/-- A stored batch is consumed exactly when it is well-formed. The offsets of a consumed batch lead up to the next
offset of the log, and no batch behind it has one of them. -/
theorem stored_batch_consumed_iff (cfg : StorageConfig) (disk : StorageDisk) (s left : StorageImpl) (data : Bytes)
    (base : Int) (ops : List (FileStore.FileOp FileName)) (accepted : validateBatch data = .ok ())
    (stored : (s.append cfg data).run disk = (.ok (base, left), ops)) :
    (∃ active ∈ s.segments.getLast?, .append (.log active.log.baseOffset) (patchBaseOffset data base) ∈ ops) ∧
      left.nextOffset = int64 (base + recordCountOf data) ∧
      (Consumed data base ↔ WellFormed data) ∧
      (Consumed data base → 0 ≤ base → base + recordCountOf data < 2 ^ 63 → base < left.nextOffset ∧
        decodedOffsets data base = (range (left.nextOffset - base).toNat).map (fun (i : Nat) => base + i) ∧
        ∀ later next, Consumed later next → left.nextOffset ≤ next → next + recordCountOf later < 2 ^ 63 →
          (decodedOffsets data base).Disjoint (decodedOffsets later next)) := by
  obtain ⟨_, advanced, active, last, behind, written⟩ := append_ok stored
  refine ⟨⟨active, last, ?_⟩, advanced, ⟨Consumed.wellFormed accepted, fun formed => formed.consumed accepted base⟩, ?_⟩
  · rw [written]
    exact mem_cons_self
  intro consumed nonneg bounded
  have positive := consumed.positive
  have offsets := consumed.offsets nonneg bounded
  rw [int64_of_range (by omega) bounded] at advanced
  have count : left.nextOffset - base = recordCountOf data := by omega
  refine ⟨by omega, by rw [count, offsets], ?_⟩
  intro later next also behind limit offset first second
  rw [offsets] at first
  rw [also.offsets (by omega) limit] at second
  obtain ⟨i, below, rfl⟩ := mem_map.mp first
  obtain ⟨j, _, same⟩ := mem_map.mp second
  have bound := mem_range.mp below
  omega

/-- A batch of one record with a value of two bytes. -/
def plainBatch : Bytes := craftedBatch 1 (recordWithLength 2 [7, 9])

/-- The first batch of an empty log is stored and consumed. -/
theorem stored_batch_consumed_first :
    validateBatch plainBatch = .ok () ∧ ∃ left ops,
      (openedState.storage.append smallConfig plainBatch).run openedState.disk = (.ok (0, left), ops) ∧
        decode (patchBaseOffset plainBatch 0) = ([⟨0, none, [7, 9], ∅, 0⟩], none) ∧
        Consumed plainBatch 0 ∧ WellFormed plainBatch := by
  have accepted : validateBatch plainBatch = .ok () := by decide +kernel
  have appended : ((openedState.storage.append smallConfig plainBatch).run openedState.disk).1.map Prod.fst =
      .ok 0 := by
    decide +kernel
  have consumed : Consumed plainBatch 0 :=
    ⟨by decide +kernel, by decide +kernel, by decide +kernel, by decide +kernel, by decide +kernel⟩
  cases ran : (openedState.storage.append smallConfig plainBatch).run openedState.disk with
  | mk result ops =>
    rw [ran] at appended
    cases result with
    | error failure => cases appended
    | ok entry =>
      obtain ⟨base, left⟩ := entry
      cases appended
      have settled := stored_batch_consumed_iff smallConfig openedState.disk openedState.storage left plainBatch 0 ops
        accepted ran
      exact ⟨accepted, left, ops, rfl, by decide +kernel, consumed, settled.2.2.1.mp consumed⟩

/-- A batch that announces two records and holds none is accepted and moves the next offset by two, and a consumer
receives nothing from it. -/
theorem bare_batch_not_consumed :
    validateBatch bareBatch = .ok () ∧
      (stateAfter openedState bareBatch).appended = [patchBaseOffset bareBatch 0] ∧
      (stateAfter openedState bareBatch).storage.nextOffset = 2 ∧
      decode (patchBaseOffset bareBatch 0) = ([], none) ∧ ¬ Consumed bareBatch 0 := by
  refine ⟨by decide +kernel, by decide +kernel, by decide +kernel, by decide +kernel, ?_⟩
  intro consumed
  have counted : ((decode (patchBaseOffset bareBatch 0)).1.length : Int) ≠ recordCountOf bareBatch := by decide +kernel
  exact counted consumed.counted

end BunnyMQ.Client
