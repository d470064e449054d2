/-
This file shows on which bytes the decoders return.
-/

import BunnyMQ.Construction.Client.BatchDecoder
import BunnyMQ.Proof.Storage.Panics

namespace BunnyMQ.Client
open Foundation Storage

/-- The loop goes on behind a decoded batch. -/
def BatchStep (data : Bytes) (pos next : Nat) : Prop := ∃ batch, decodeNextBatch data pos = .ok (batch, next)

section
variable {data : Bytes} {pos : Nat}

theorem decodeError_panic {failure : GoError} {text : String} :
    decodeError pos failure = .panic text ↔ failure = .panic text := by
  cases failure with
  | error message => simp [decodeError]
  | panic message => simp [decodeError]

/-- No batch is reached from behind the data. -/
theorem batchSteps_inside {reached : Nat} (path : Relation.ReflTransGen (BatchStep data) pos reached)
    (inside : reached < data.length) : pos < data.length := by
  rcases path.cases_head with rfl | ⟨next, ⟨batch, decoded⟩, _⟩
  · exact inside
  · have forward := decodeNextBatch_advances decoded
    omega

/-- The loop over the batches panics at the first batch with an overlong field. -/
theorem decodeLoop_panics_iff (small : data.length ≤ maxAlloc) {more : Nat} (enough : data.length ≤ pos + more) :
    (∃ text, (decodeLoop data more pos).2 = some (.panic text)) ↔ ∃ reached,
      Relation.ReflTransGen (BatchStep data) pos reached ∧ reached < data.length ∧
        BatchOverlong (data.drop reached) := by
  induction more generalizing pos with
  | zero =>
    refine iff_of_false (by simp [decodeLoop]) ?_
    rintro ⟨reached, path, inside, _⟩
    have below := batchSteps_inside path inside
    omega
  | succ more ih =>
    rw [decodeLoop]
    by_cases below : pos < data.length
    · rw [if_pos below]
      have here := decodeNextBatch_panics_iff small pos
      cases decoded : decodeNextBatch data pos with
      | error failure =>
        simp only [Option.some.injEq, decodeError_panic]
        constructor
        · rintro ⟨text, rfl⟩
          exact ⟨pos, .refl, here.mp ⟨text, decoded⟩⟩
        · rintro ⟨reached, path, facts⟩
          rcases path.cases_head with rfl | ⟨next, ⟨batch, other⟩, _⟩
          · obtain ⟨text, panicked⟩ := here.mpr facts
            rw [decoded] at panicked
            exact ⟨text, Except.error.inj panicked⟩
          · rw [decoded] at other
            cases other
      | ok entry =>
        obtain ⟨batch, next⟩ := entry
        have forward := decodeNextBatch_advances decoded
        simp only
        rw [@ih next (by omega)]
        constructor
        · rintro ⟨reached, path, facts⟩
          exact ⟨reached, .head ⟨batch, decoded⟩ path, facts⟩
        · rintro ⟨reached, path, facts⟩
          rcases path.cases_head with rfl | ⟨other, ⟨same, also⟩, rest⟩
          · obtain ⟨text, panicked⟩ := here.mpr facts
            rw [decoded] at panicked
            cases panicked
          · rw [decoded] at also
            cases also
            exact ⟨reached, rest, facts⟩
    · rw [if_neg below]
      refine iff_of_false (by simp) ?_
      rintro ⟨reached, path, inside, _⟩
      exact below (batchSteps_inside path inside)

/-- The bound of the loop is never reached, because every batch takes its header. -/
theorem decodeLoop_enough {more other : Nat} (enough : data.length ≤ pos + more) (also : data.length ≤ pos + other) :
    decodeLoop data more pos = decodeLoop data other pos := by
  induction more generalizing pos other with
  | zero =>
    cases other with
    | zero => rfl
    | succ other => rw [decodeLoop, decodeLoop, if_neg (by omega)]
  | succ more ih =>
    cases other with
    | zero => rw [decodeLoop, decodeLoop, if_neg (by omega)]
    | succ other =>
      rw [decodeLoop, decodeLoop]
      by_cases below : pos < data.length
      · rw [if_pos below, if_pos below]
        cases decoded : decodeNextBatch data pos with
        | error failure => rfl
        | ok entry =>
          obtain ⟨batch, next⟩ := entry
          have forward := decodeNextBatch_advances decoded
          simp only [@ih next other (by omega) (by omega)]
      · rw [if_neg below, if_neg below]

end

/-- Every varint, header, record and batch takes at least one byte and ends inside the data, and the bounds of the
loops are never reached. -/
structure Advances (data : Bytes) : Prop where
  varints : ∀ pos length next, decodeUvarint data pos = .ok (length, next) → pos < next ∧ next ≤ data.length
  headers : ∀ pos stop header next, stop ≤ (data.length : Int) → decodeRecordHeader data pos stop = .ok (header, next) →
    pos < next ∧ next ≤ stop
  records : ∀ pos base record next, decodeRecord data pos base = .ok (record, next) → pos < next ∧ next ≤ data.length
  batches : ∀ pos batch next, decodeNextBatch data pos = .ok (batch, next) → pos < next ∧ next ≤ data.length
  recordLoop : ∀ base more, data.length ≤ more → decodeRecords data base more 0 = decodeRecords data base data.length 0
  batchLoop : ∀ more, data.length ≤ more → decodeLoop data more 0 = decode data

/-- The decoders return exactly when they reach no negative record count and no overlong field, and in any case they
advance inside the data. -/
theorem decoding_returns_iff (data : Bytes) (small : data.length ≤ maxAlloc) :
    (¬ Panics (decodeBatch data) ↔ ¬ BatchOverlong data) ∧
      (∀ pos, ¬ Panics (decodeNextBatch data pos) ↔ (pos < data.length → ¬ BatchOverlong (data.drop pos))) ∧
      ((∀ text, (decode data).2 ≠ some (.panic text)) ↔ ∀ reached, Relation.ReflTransGen (BatchStep data) 0 reached →
        reached < data.length → ¬ BatchOverlong (data.drop reached)) ∧
      Advances data := by
  refine ⟨not_congr (decodeBatch_panics_iff small), ?_, ?_, ?_⟩
  · intro pos
    rw [decodeNextBatch_panics_iff small, not_and]
  · have panics := @decodeLoop_panics_iff data 0 small data.length (Nat.le_add_left _ _)
    constructor
    · intro returns reached path inside overlong
      obtain ⟨text, panicked⟩ := panics.mpr ⟨reached, path, inside, overlong⟩
      exact returns text panicked
    · intro harmless text panicked
      obtain ⟨reached, path, inside, overlong⟩ := panics.mp ⟨text, panicked⟩
      exact harmless reached path inside overlong
  · refine ⟨?_, ?_, ?_, ?_, ?_, ?_⟩
    · intro pos length next read
      exact decodeUvarint_advances read
    · intro pos stop header next limit read
      exact decodeRecordHeader_advances small limit read
    · intro pos base record next decoded
      exact decodeRecord_advances small decoded
    · intro pos batch next decoded
      have forward := decodeNextBatch_advances decoded
      exact ⟨by omega, forward.2⟩
    · intro base more enough
      exact decodeRecords_enough small base (by omega) (by omega)
    · intro more enough
      exact decodeLoop_enough (by omega) (by omega)

/-- The bytes of a batch with this record count around some record bytes. -/
def craftedBatch (recordCount : Int32) (records : Bytes) : Bytes :=
  encodeHeader ⟨0, Int32.ofNat (38 + records.length), recordCount, checksum records, 0, 0, 0⟩ ++ records

/-- A record without a key and with a value of this length. -/
def recordWithLength (length : UInt64) (value : Bytes) : Bytes :=
  sizedBytes ([0, 0, 0, 1] ++ uvarintBytes 9 length ++ value ++ [0])

theorem decoding_returns_for_honest_length :
    (craftedBatch 1 (recordWithLength 2 [7, 9])).length ≤ maxAlloc ∧
      decode (craftedBatch 1 (recordWithLength 2 [7, 9])) = ([⟨0, none, [7, 9], ∅, 0⟩], none) ∧
      (¬ Panics (decodeBatch (craftedBatch 1 (recordWithLength 2 [7, 9]))) ↔
        ¬ BatchOverlong (craftedBatch 1 (recordWithLength 2 [7, 9]))) :=
  ⟨by decide +kernel, by decide +kernel, (decoding_returns_iff _ (by decide +kernel)).1⟩

/-- A negative record count and a value length of `2 ^ 63` stop the decoders. -/
theorem decoding_panics_on_lengths :
    decodeBatch (craftedBatch (-1) []) = .error (.panic "runtime error: makeslice: cap out of range") ∧
      decodeBatch (craftedBatch 1 (recordWithLength 0x8000000000000000 [])) = .error errMakeslice ∧
      (decode (craftedBatch 1 (recordWithLength 0x8000000000000000 []))).2 = some errMakeslice :=
  ⟨by decide +kernel, by decide +kernel, by decide +kernel⟩

end BunnyMQ.Client
