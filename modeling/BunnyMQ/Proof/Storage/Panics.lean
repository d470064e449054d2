/-
This file shows which bytes make the batch decoder panic.
-/

import BunnyMQ.Proof.Storage.Codec
import Mathlib.Logic.Relation

namespace BunnyMQ.Storage
open Foundation
variable {start : Nat} {length : UInt64} {batch : Batch}

/-- The call stops with a run-time panic. -/
def Panics {Value : Type} (result : Except GoError Value) : Prop := ∃ text, result = .error (.panic text)

section
variable {Value Other : Type}

/-- A sequence of calls panics where its first panic is. -/
theorem panics_bind (first : Except GoError Value) (next : Value → Except GoError Other) :
    Panics (first >>= next) ↔ Panics first ∨ ∃ value, first = .ok value ∧ Panics (next value) := by
  cases first with
  | error failure => simp [Panics, bind, Except.bind]
  | ok value => simp [Panics, bind, Except.bind]

theorem panics_ite (condition : Prop) [Decidable condition] (yes no : Except GoError Value) :
    Panics (if condition then yes else no) ↔ (condition ∧ Panics yes) ∨ (¬ condition ∧ Panics no) := by
  split
  · next holds => simp [holds]
  · next fails => simp [fails]

@[simp] theorem not_panics_ok (value : Value) : ¬ Panics (.ok value : Except GoError Value) := by
  rintro ⟨text, same⟩
  cases same

@[simp] theorem not_panics_pure (value : Value) : ¬ Panics (pure value : Except GoError Value) := not_panics_ok value

@[simp] theorem not_panics_error (text : String) : ¬ Panics (.error (.error text) : Except GoError Value) := by
  rintro ⟨other, same⟩
  cases same

@[simp] theorem panics_panic (text : String) : Panics (.error (.panic text) : Except GoError Value) := ⟨text, rfl⟩

/-- A sequence of calls succeeds when every call does. -/
theorem bind_ok_iff (first : Except GoError Value) (next : Value → Except GoError Other) (result : Other) :
    (first >>= next) = .ok result ↔ ∃ value, first = .ok value ∧ next value = .ok result := by
  cases first with
  | error failure => simp [bind, Except.bind]
  | ok value => simp [bind, Except.bind]

theorem throw_bind (failure : GoError) (next : Value → Except GoError Other) :
    (throw failure >>= next) = (.error failure : Except GoError Other) := rfl

end

section
variable {data : Bytes} {pos next : Nat}

theorem decodeUvarintLoop_not_panics (data : Bytes) (more pos : Nat) (v : UInt64) (shift : Nat) :
    ¬ Panics (decodeUvarintLoop data more pos v shift) := by
  induction more generalizing pos v shift with
  | zero => exact not_panics_error _
  | succ more ih =>
    rw [decodeUvarintLoop]
    split
    · exact not_panics_error _
    · simp only
      split
      · exact not_panics_ok _
      · split
        · exact not_panics_error _
        · exact ih _ _ _

@[simp] theorem decodeUvarint_not_panics (data : Bytes) (pos : Nat) : ¬ Panics (decodeUvarint data pos) :=
  decodeUvarintLoop_not_panics data 10 pos 0 0

/-- The exact end of a field lies beyond the signed numbers, and the wrapped end does not lie behind the record. -/
def Overlong (start : Nat) (length : UInt64) (stop : Int) : Prop :=
  2 ^ 63 ≤ start + length.toNat ∧ (start + length.toNat : Int) ≤ 2 ^ 64 + stop

section
variable (small : data.length ≤ maxAlloc) (inside : start ≤ data.length) {stop : Int} (limit : stop ≤ data.length)
include small inside limit

/-- A sized field ends where exact arithmetic says, or its length makes the allocation panic, or it is refused. -/
theorem decodeSized_cases (text : String) :
    (Overlong start length stop ∧ decodeSized data start length stop text = .error errMakeslice) ∨
      (¬ Overlong start length stop ∧ decodeSized data start length stop text = .error (.error text)) ∨
      (¬ Overlong start length stop ∧ (start + length.toNat : Int) ≤ stop ∧ decodeSized data start length stop text =
        .ok (slice data start (start + length.toNat), start + length.toNat)) := by
  have signed := toInt64_toInt length
  have bound := length.toNat_lt
  unfold maxAlloc at small
  unfold Overlong
  by_cases exceeds : 2 ^ 63 ≤ start + length.toNat
  · have finish : int64 (start + length.toInt64.toInt) = start + length.toNat - 2 ^ 64 := by
      rw [signed]
      unfold int64
      omega
    by_cases behind : (start + length.toNat : Int) - 2 ^ 64 > stop
    · refine .inr (.inl ⟨by omega, ?_⟩)
      rw [decodeSized, finish]
      exact if_pos behind
    · have large : length.toNat > maxAlloc := by
        unfold maxAlloc
        omega
      refine .inl ⟨⟨exceeds, by omega⟩, ?_⟩
      rw [decodeSized, finish]
      exact (if_neg behind).trans (if_pos large)
  · have finish : int64 (start + length.toInt64.toInt) = (start + length.toNat : Nat) := by
      rw [signed]
      unfold int64
      omega
    by_cases behind : ((start + length.toNat : Nat) : Int) > stop
    · refine .inr (.inl ⟨by omega, ?_⟩)
      rw [decodeSized, finish]
      exact if_pos behind
    · have fits : ¬ length.toNat > maxAlloc := by
        unfold maxAlloc
        omega
      refine .inr (.inr ⟨by omega, by omega, ?_⟩)
      have taken := @goSlice_eq data start (start + length.toNat) (by omega) (by omega)
      rw [decodeSized, finish]
      simp only [if_neg behind, if_neg fits, taken, bind, Except.bind, pure, Except.pure, Int.toNat_natCast]

/-- A sized field panics exactly when its length is overlong. -/
theorem decodeSized_panics_iff (text : String) :
    Panics (decodeSized data start length stop text) ↔ Overlong start length stop := by
  rcases decodeSized_cases small inside limit text with ⟨long, result⟩ | ⟨short, result⟩ | ⟨short, _, result⟩
  · rw [result]
    exact iff_of_true (panics_panic _) long
  · rw [result]
    exact iff_of_false (not_panics_error _) short
  · rw [result]
    exact iff_of_false (not_panics_ok _) short

theorem decodeSized_advances {text : String} {payload : Bytes}
    (read : decodeSized data start length stop text = .ok (payload, next)) : start ≤ next ∧ (next : Int) ≤ stop := by
  rcases decodeSized_cases small inside limit text with ⟨_, result⟩ | ⟨_, result⟩ | ⟨_, within, result⟩
  · rw [result] at read
    cases read
  · rw [result] at read
    cases read
  · rw [result] at read
    cases read
    exact ⟨Nat.le_add_right _ _, by omega⟩

end

/-- A length prefix with the field behind it. -/
def decodeField (data : Bytes) (pos : Nat) (stop : Int) (text : String) : Except GoError (Bytes × Nat) := do
  let (length, start) ← decodeUvarint data pos
  decodeSized data start length stop text

/-- The length prefix at this position is overlong. -/
def FieldOverlong (data : Bytes) (stop : Int) (pos : Nat) : Prop :=
  ∃ length start, decodeUvarint data pos = .ok (length, start) ∧ Overlong start length stop

/-- The length of a key is signed, and a negative one stands for no key. -/
def KeyOverlong (data : Bytes) (stop : Int) (pos : Nat) : Prop :=
  ∃ length start, decodeUvarint data pos = .ok (length, start) ∧ unzigzag length ≥ 0 ∧
    Overlong start (unzigzag length).toUInt64 stop

def HeaderOverlong (data : Bytes) (stop : Int) (pos : Nat) : Prop :=
  FieldOverlong data stop pos ∨ ∃ key next,
    decodeField data pos stop "header key extends beyond record" = .ok (key, next) ∧ FieldOverlong data stop next

/-- One of the next headers is overlong, and the ones before it are not. -/
def HeadersOverlong (data : Bytes) (stop : Int) : Nat → Nat → Prop
  | 0, _ => False
  | count + 1, pos => HeaderOverlong data stop pos ∨ ∃ header next,
      decodeRecordHeader data pos stop = .ok (header, next) ∧ HeadersOverlong data stop count next

/-- This is the part of `decodeRecord` behind the two deltas. -/
def decodePayload (data : Bytes) (stop : Int) (timestampMs : Int64) (pos : Nat) : Except GoError (Record × Nat) := do
  let (key, pos) ← decodeKey data pos stop
  let (value, pos) ← decodeField data pos stop "value extends beyond record"
  let (headersCount, pos) ← decodeUvarint data pos
  if headersCount.toNat * headerSize > maxAlloc then throw errMakeslice
  let (headers, _) ← decodeRecordHeaders data stop headersCount.toNat pos
  return (⟨timestampMs, key, value, headers⟩, stop.toNat)

/-- The fields behind the two deltas of a record. -/
def PayloadOverlong (data : Bytes) (stop : Int) (pos : Nat) : Prop :=
  KeyOverlong data stop pos ∨ ∃ key afterKey, decodeKey data pos stop = .ok (key, afterKey) ∧
    (FieldOverlong data stop afterKey ∨ ∃ value afterValue,
      decodeField data afterKey stop "value extends beyond record" = .ok (value, afterValue) ∧
      ∃ count afterCount, decodeUvarint data afterValue = .ok (count, afterCount) ∧
        (maxAlloc < count.toNat * headerSize ∨ HeadersOverlong data stop count.toNat afterCount))

/-- The record at this position has an overlong field. -/
def RecordOverlong (data : Bytes) (pos : Nat) : Prop :=
  ∃ length start, decodeUvarint data pos = .ok (length, start) ∧ 0 < length.toNat ∧
    start + length.toNat ≤ data.length ∧ ∃ delta afterTime, decodeUvarint data (start + 1) = .ok (delta, afterTime) ∧
      ∃ offset afterOffset, decodeUvarint data afterTime = .ok (offset, afterOffset) ∧
        PayloadOverlong data (start + length.toNat : Nat) afterOffset

section
variable {stop : Int}

section
variable (small : data.length ≤ maxAlloc) (limit : stop ≤ data.length)
include small limit

theorem decodeField_panics_iff (text : String) :
    Panics (decodeField data pos stop text) ↔ FieldOverlong data stop pos := by
  unfold decodeField FieldOverlong
  simp only [panics_bind, decodeUvarint_not_panics, false_or, Prod.exists]
  refine exists_congr fun length => exists_congr fun start => and_congr_right ?_
  intro read
  exact decodeSized_panics_iff small (decodeUvarint_advances read).2 limit text

theorem decodeField_advances {text : String} {payload : Bytes}
    (read : decodeField data pos stop text = .ok (payload, next)) : pos < next ∧ (next : Int) ≤ stop := by
  obtain ⟨⟨length, start⟩, prefixed, sized⟩ := (bind_ok_iff _ _ _).mp read
  have first := decodeUvarint_advances prefixed
  have second := decodeSized_advances small first.2 limit sized
  exact ⟨by omega, second.2⟩

theorem decodeKey_panics_iff : Panics (decodeKey data pos stop) ↔ KeyOverlong data stop pos := by
  unfold decodeKey KeyOverlong
  simp only [panics_bind, decodeUvarint_not_panics, false_or, Prod.exists, panics_ite, not_panics_pure, and_false,
    or_false, exists_false]
  refine exists_congr fun length => exists_congr fun start => and_congr_right ?_
  intro read
  rw [decodeSized_panics_iff small (decodeUvarint_advances read).2 limit]

end

theorem decodeRecordHeader_eq (data : Bytes) (pos : Nat) (stop : Int) : decodeRecordHeader data pos stop = do
    let (key, pos) ← decodeField data pos stop "header key extends beyond record"
    let (value, pos) ← decodeField data pos stop "header value extends beyond record"
    return (⟨key, value⟩, pos) := by
  simp only [decodeRecordHeader, decodeField, bind_assoc]

section
variable (small : data.length ≤ maxAlloc) (limit : stop ≤ data.length)
include small limit

theorem decodeRecordHeader_panics_iff : Panics (decodeRecordHeader data pos stop) ↔ HeaderOverlong data stop pos := by
  rw [decodeRecordHeader_eq]
  simp only [panics_bind, decodeField_panics_iff small limit, not_panics_pure, and_false, or_false, exists_false,
    Prod.exists, HeaderOverlong]

theorem decodeRecordHeader_advances {header : RecordHeader}
    (read : decodeRecordHeader data pos stop = .ok (header, next)) : pos < next ∧ (next : Int) ≤ stop := by
  rw [decodeRecordHeader_eq] at read
  obtain ⟨⟨key, middle⟩, first, rest⟩ := (bind_ok_iff _ _ _).mp read
  obtain ⟨⟨value, last⟩, second, same⟩ := (bind_ok_iff _ _ _).mp rest
  cases same
  have keyEnd := decodeField_advances small limit first
  have valueEnd := decodeField_advances small limit second
  exact ⟨by omega, valueEnd.2⟩

theorem decodeRecordHeaders_panics_iff (count pos : Nat) :
    Panics (decodeRecordHeaders data stop count pos) ↔ HeadersOverlong data stop count pos := by
  induction count generalizing pos with
  | zero => exact iff_of_false (not_panics_ok _) id
  | succ count ih =>
    rw [decodeRecordHeaders, HeadersOverlong]
    simp only [panics_bind, decodeRecordHeader_panics_iff small limit, ih, not_panics_pure, and_false, or_false,
      exists_false, Prod.exists]

end

/-- The frame of a record is its length prefix. -/
theorem decodeRecord_frame (small : data.length ≤ maxAlloc) {length : UInt64} {start : Nat}
    (inside : start ≤ data.length) :
    (0 < length.toNat ∧ start + length.toNat ≤ data.length ∧
      int64 (start + length.toInt64.toInt) = (start + length.toNat : Nat)) ∨
    (¬ (0 < length.toNat ∧ start + length.toNat ≤ data.length) ∧
      (int64 (start + length.toInt64.toInt) > data.length ∨ (start : Int) ≥ int64 (start + length.toInt64.toInt))) := by
  have signed := toInt64_toInt length
  have bound := length.toNat_lt
  unfold maxAlloc at small
  rw [signed]
  unfold int64
  omega

/-- A record with a frame inside the data is read field by field. -/
theorem decodeRecord_framed (base : Int64) (read : decodeUvarint data pos = .ok (length, start))
    (positive : 0 < length.toNat) (within : start + length.toNat ≤ data.length)
    (ends : int64 (start + length.toInt64.toInt) = (start + length.toNat : Nat)) : decodeRecord data pos base = (do
      let (delta, pos) ← decodeUvarint data (start + 1)
      let (_, pos) ← decodeUvarint data pos
      decodePayload data (start + length.toNat : Nat) (base + unzigzag delta) pos) := by
  have opened : ∀ next : UInt64 × Nat → Except GoError (Record × Nat),
      (decodeUvarint data pos >>= next) = next (length, start) := by
    intro next
    rw [read]
    rfl
  rw [decodeRecord, opened]
  simp only [ends]
  rw [if_neg (by omega), if_neg (by omega)]
  simp only [decodePayload, decodeField, bind_assoc]

/-- A record without a frame inside the data is refused. -/
theorem decodeRecord_refused (base : Int64) (read : decodeUvarint data pos = .ok (length, start))
    (refused : int64 (start + length.toInt64.toInt) > data.length ∨ (start : Int) ≥ int64 (start +
      length.toInt64.toInt)) : ∃ text, decodeRecord data pos base = .error (.error text) := by
  by_cases behind : int64 (start + length.toInt64.toInt) > data.length
  · refine ⟨"record extends beyond data", ?_⟩
    rw [decodeRecord, read]
    exact if_pos behind
  · refine ⟨"truncated record", ?_⟩
    rw [decodeRecord, read]
    exact (if_neg behind).trans (if_pos (refused.resolve_left behind))

theorem decodePayload_panics_iff (small : data.length ≤ maxAlloc) (limit : stop ≤ data.length) (timestampMs : Int64) :
    Panics (decodePayload data stop timestampMs pos) ↔ PayloadOverlong data stop pos := by
  have allocation : Panics (.error errMakeslice : Except GoError (Record × Nat)) := panics_panic _
  unfold decodePayload PayloadOverlong
  simp only [panics_bind, decodeKey_panics_iff small limit, decodeField_panics_iff small limit,
    decodeUvarint_not_panics,
    false_or, Prod.exists, panics_ite, throw_bind, decodeRecordHeaders_panics_iff small limit, not_panics_pure,
    and_false,
    exists_false, or_false, allocation, and_true, gt_iff_lt, or_and_left, Classical.em, true_and]

/-- The payload of a record ends where its frame ends. -/
theorem decodePayload_ends {timestampMs : Int64} {record : Record}
    (decoded : decodePayload data stop timestampMs pos = .ok (record, next)) : next = stop.toNat := by
  obtain ⟨⟨key, afterKey⟩, _, rest⟩ := (bind_ok_iff _ _ _).mp decoded
  obtain ⟨⟨value, afterValue⟩, _, rest⟩ := (bind_ok_iff _ _ _).mp rest
  obtain ⟨⟨count, afterCount⟩, _, rest⟩ := (bind_ok_iff _ _ _).mp rest
  simp only [throw_bind] at rest
  split at rest
  · cases rest
  · obtain ⟨⟨headers, _⟩, _, same⟩ := (bind_ok_iff _ _ _).mp rest
    cases same
    rfl

section
variable (small : data.length ≤ maxAlloc)
include small

/-- A record panics exactly when one of its fields is overlong. -/
theorem decodeRecord_panics_iff (base : Int64) : Panics (decodeRecord data pos base) ↔ RecordOverlong data pos := by
  cases read : decodeUvarint data pos with
  | error failure =>
    have same : decodeRecord data pos base = .error failure := by
      rw [decodeRecord, read]
      rfl
    refine iff_of_false ?_ ?_
    · rintro ⟨text, panicked⟩
      rw [same] at panicked
      cases panicked
      exact decodeUvarint_not_panics data pos ⟨text, read⟩
    · rintro ⟨length, start, other, _⟩
      rw [read] at other
      cases other
  | ok entry =>
    obtain ⟨length, start⟩ := entry
    have only : RecordOverlong data pos ↔ 0 < length.toNat ∧ start + length.toNat ≤ data.length ∧
        ∃ delta afterTime, decodeUvarint data (start + 1) = .ok (delta, afterTime) ∧
          ∃ offset afterOffset, decodeUvarint data afterTime = .ok (offset, afterOffset) ∧
            PayloadOverlong data (start + length.toNat : Nat) afterOffset := by
      unfold RecordOverlong
      rw [read]
      simp only [Except.ok.injEq, Prod.mk.injEq]
      constructor
      · rintro ⟨_, _, ⟨rfl, rfl⟩, facts⟩
        exact facts
      · intro facts
        exact ⟨length, start, ⟨rfl, rfl⟩, facts⟩
    rw [only]
    rcases @decodeRecord_frame data small length start (decodeUvarint_advances read).2 with
      ⟨positive, within, ends⟩ | ⟨outside, refused⟩
    · have limit : ((start + length.toNat : Nat) : Int) ≤ data.length := by omega
      rw [decodeRecord_framed base read positive within ends]
      simp only [panics_bind, decodeUvarint_not_panics, false_or, Prod.exists, decodePayload_panics_iff small limit,
        positive, within, true_and]
    · obtain ⟨text, failed⟩ := decodeRecord_refused base read refused
      rw [failed]
      exact iff_of_false (not_panics_error text) fun facts => outside ⟨facts.1, facts.2.1⟩

/-- A decoded record takes at least one byte and ends inside the data. -/
theorem decodeRecord_advances {base : Int64} {record : Record}
    (decoded : decodeRecord data pos base = .ok (record, next)) : pos < next ∧ next ≤ data.length := by
  cases read : decodeUvarint data pos with
  | error failure =>
    rw [decodeRecord, read] at decoded
    cases decoded
  | ok entry =>
    obtain ⟨length, start⟩ := entry
    have first := decodeUvarint_advances read
    rcases @decodeRecord_frame data small length start first.2 with ⟨positive, within, ends⟩ | ⟨outside, refused⟩
    · rw [decodeRecord_framed base read positive within ends] at decoded
      obtain ⟨⟨delta, afterTime⟩, _, rest⟩ := (bind_ok_iff _ _ _).mp decoded
      obtain ⟨⟨offset, afterOffset⟩, _, payload⟩ := (bind_ok_iff _ _ _).mp rest
      rw [decodePayload_ends payload, Int.toNat_natCast]
      exact ⟨by omega, within⟩
    · obtain ⟨text, failed⟩ := decodeRecord_refused base read refused
      rw [failed] at decoded
      cases decoded

/-- The loop goes on behind a decoded record. -/
def RecordStep (data : Bytes) (base : Int64) (pos next : Nat) : Prop :=
  ∃ record, decodeRecord data pos base = .ok (record, next)

theorem recordSteps_forward {base : Int64} {reached : Nat}
    (path : Relation.ReflTransGen (RecordStep data base) pos reached) : pos ≤ reached := by
  induction path with
  | refl => exact Nat.le_refl pos
  | tail _ step ih =>
    obtain ⟨record, decoded⟩ := step
    have forward := decodeRecord_advances small decoded
    omega

/-- The loop over the records panics at the first record with an overlong field. -/
theorem decodeRecords_panics_iff (base : Int64) {more : Nat} (enough : data.length ≤ pos + more) :
    Panics (decodeRecords data base more pos) ↔ ∃ reached, Relation.ReflTransGen (RecordStep data base) pos reached ∧
      reached < data.length ∧ RecordOverlong data reached := by
  induction more generalizing pos with
  | zero =>
    refine iff_of_false (not_panics_ok _) ?_
    rintro ⟨reached, path, below, _⟩
    have forward := recordSteps_forward small path
    omega
  | succ more ih =>
    rw [decodeRecords]
    by_cases below : pos < data.length
    · rw [if_pos below]
      simp only [panics_bind, not_panics_pure, and_false, exists_false, or_false, Prod.exists,
        decodeRecord_panics_iff small]
      constructor
      · rintro (overlong | ⟨record, next, decoded, rest⟩)
        · exact ⟨pos, .refl, below, overlong⟩
        · have forward := decodeRecord_advances small decoded
          obtain ⟨reached, path, facts⟩ := (ih (by omega)).mp rest
          exact ⟨reached, .head ⟨record, decoded⟩ path, facts⟩
      · rintro ⟨reached, path, inside, overlong⟩
        rcases path.cases_head with rfl | ⟨next, ⟨record, decoded⟩, rest⟩
        · exact .inl overlong
        · have forward := decodeRecord_advances small decoded
          exact .inr ⟨record, next, decoded, (ih (by omega)).mpr ⟨reached, rest, inside, overlong⟩⟩
    · rw [if_neg below]
      refine iff_of_false (not_panics_ok _) ?_
      rintro ⟨reached, path, inside, _⟩
      rcases path.cases_head with rfl | ⟨next, ⟨record, decoded⟩, _⟩
      · exact below inside
      · have forward := decodeRecord_advances small decoded
        omega

/-- The bound of the loop is never reached, because every record takes a byte. -/
theorem decodeRecords_enough (base : Int64) {more other : Nat} (enough : data.length ≤ pos + more)
    (also : data.length ≤ pos + other) : decodeRecords data base more pos = decodeRecords data base other pos := by
  induction more generalizing pos other with
  | zero =>
    cases other with
    | zero => rfl
    | succ other => rw [decodeRecords, decodeRecords, if_neg (by omega)]
  | succ more ih =>
    cases other with
    | zero => rw [decodeRecords, decodeRecords, if_neg (by omega)]
    | succ other =>
      rw [decodeRecords, decodeRecords]
      by_cases below : pos < data.length
      · rw [if_pos below, if_pos below]
        cases decoded : decodeRecord data pos base with
        | error failure => rfl
        | ok entry =>
          obtain ⟨record, next⟩ := entry
          have forward := decodeRecord_advances small decoded
          simp only [bind, Except.bind, @ih next other (by omega) (by omega)]
      · rw [if_neg below, if_neg below]

end

end

theorem goSlice_int {hi : Int} (order : 38 ≤ hi) (inside : hi ≤ data.length) :
    goSlice data 38 hi = .ok (slice data 38 hi.toNat) := by
  rw [goSlice, if_pos ⟨by omega, order, inside⟩]
  rfl

/-- The header announces a length inside the data and the checksum of the bytes up to there. -/
def Checked (data : Bytes) : Prop :=
  38 ≤ data.length ∧ 38 ≤ (decodeHeader data).batchLength.toInt ∧ (decodeHeader data).batchLength.toInt ≤ data.length ∧
    checksum (slice data 38 (decodeHeader data).batchLength.toInt.toNat) = (decodeHeader data).crc32

/-- A checked batch is decoded record by record. -/
theorem decodeBatch_checked (checked : Checked data) : decodeBatch data =
    if (decodeHeader data).recordCount < 0 then .error (.panic "runtime error: makeslice: cap out of range")
    else do
      let records ← decodeRecords (slice data 38 (decodeHeader data).batchLength.toInt.toNat)
        (decodeHeader data).baseTimestamp (slice data 38 (decodeHeader data).batchLength.toInt.toNat).length 0
      return { decodeHeader data with records := records } := by
  obtain ⟨long, least, within, same⟩ := checked
  have taken := @goSlice_int data (decodeHeader data).batchLength.toInt (by omega) (by omega)
  unfold decodeBatch
  rw [if_neg (by omega), if_neg (by omega), taken]
  simp only [bind, Except.bind]
  rw [if_neg (by simpa using same)]
  split
  · rfl
  · rfl

/-- An unchecked batch is refused. -/
theorem decodeBatch_refused (unchecked : ¬ Checked data) : ∃ text, decodeBatch data = .error (.error text) := by
  unfold decodeBatch
  by_cases short : data.length < 38
  · exact ⟨"batch too short", by rw [if_pos short]; rfl⟩
  by_cases framed : (decodeHeader data).batchLength.toInt < 38 ∨ (decodeHeader data).batchLength.toInt > data.length
  · exact ⟨"batch data truncated", by rw [if_neg short, if_pos framed]; rfl⟩
  have taken := @goSlice_int data (decodeHeader data).batchLength.toInt (by omega) (by omega)
  have different : checksum (slice data 38 (decodeHeader data).batchLength.toInt.toNat) ≠
      (decodeHeader data).crc32 := by
    intro same
    exact unchecked ⟨by omega, by omega, by omega, same⟩
  refine ⟨"CRC mismatch", ?_⟩
  rw [if_neg short, if_neg framed, taken]
  simp only [bind, Except.bind]
  rw [if_pos different]
  rfl

/-- The batch passes the checks of its header, and its count is negative or it has a record with an overlong
field. -/
def BatchOverlong (data : Bytes) : Prop :=
  let header := decodeHeader data
  let records := slice data 38 header.batchLength.toInt.toNat
  Checked data ∧ (header.recordCount < 0 ∨ ∃ reached,
    Relation.ReflTransGen (RecordStep records header.baseTimestamp) 0 reached ∧ reached < records.length ∧
      RecordOverlong records reached)

theorem decodeBatch_panics_iff (small : data.length ≤ maxAlloc) : Panics (decodeBatch data) ↔ BatchOverlong data := by
  unfold BatchOverlong
  simp only
  by_cases checked : Checked data
  · have fits : (slice data 38 (decodeHeader data).batchLength.toInt.toNat).length ≤ maxAlloc := by
      rw [slice_length (by have within := checked.2.2.1; omega)]
      have within := checked.2.2.1
      omega
    rw [decodeBatch_checked checked]
    simp only [panics_ite, panics_panic, and_true, panics_bind, not_panics_pure, and_false, exists_false, or_false,
      @decodeRecords_panics_iff _ 0 fits _ _ (Nat.le_add_left _ _), checked, true_and, or_and_left, Classical.em]
  · obtain ⟨text, refused⟩ := decodeBatch_refused checked
    rw [refused]
    exact iff_of_false (not_panics_error text) fun overlong => checked overlong.1

/-- A batch is decoded exactly when it passes its checks and its records are decoded. -/
theorem decodeBatch_ok_iff : decodeBatch data = .ok batch ↔
    Checked data ∧ ¬ (decodeHeader data).recordCount < 0 ∧ batch.toBatchHeader = decodeHeader data ∧
      decodeRecords (slice data 38 (decodeHeader data).batchLength.toInt.toNat) (decodeHeader data).baseTimestamp
        (slice data 38 (decodeHeader data).batchLength.toInt.toNat).length 0 = .ok batch.records := by
  by_cases checked : Checked data
  · rw [decodeBatch_checked checked]
    by_cases negative : (decodeHeader data).recordCount < 0
    · rw [if_pos negative]
      exact iff_of_false (fun decoded => by cases decoded) fun facts => facts.2.1 negative
    · rw [if_neg negative]
      constructor
      · intro decoded
        obtain ⟨records, read, same⟩ := (bind_ok_iff _ _ _).mp decoded
        cases same
        exact ⟨checked, negative, rfl, read⟩
      · rintro ⟨_, _, header, read⟩
        rw [read, ← header]
        rfl
  · obtain ⟨text, refused⟩ := decodeBatch_refused checked
    rw [refused]
    exact iff_of_false (fun decoded => by cases decoded) fun facts => checked facts.1

/-- A decoded batch announces its own length. -/
theorem decodeBatch_length (decoded : decodeBatch data = .ok batch) :
    38 ≤ batch.batchLength.toInt ∧ batch.batchLength.toInt ≤ data.length := by
  obtain ⟨checked, _, header, _⟩ := decodeBatch_ok_iff.mp decoded
  rw [header]
  exact ⟨checked.2.1, checked.2.2.1⟩

/-- The next batch is the one of the remaining data. -/
theorem decodeNextBatch_eq (inside : pos < data.length) : decodeNextBatch data pos = (do
    let batch ← decodeBatch (data.drop pos)
    return (batch, pos + batch.batchLength.toInt.toNat)) := by
  have taken := goSlice_eq (Nat.le_of_lt inside) (Nat.le_refl data.length)
  have tail : slice data pos data.length = data.drop pos := by
    rw [slice, List.take_of_length_le (by rw [List.length_drop])]
  unfold decodeNextBatch
  rw [if_neg (by omega), taken, tail]
  rfl

theorem decodeNextBatch_panics_iff (small : data.length ≤ maxAlloc) (pos : Nat) :
    Panics (decodeNextBatch data pos) ↔ pos < data.length ∧ BatchOverlong (data.drop pos) := by
  by_cases inside : pos < data.length
  · rw [decodeNextBatch_eq inside]
    simp only [panics_bind, not_panics_pure, and_false, exists_false, or_false, inside, true_and]
    exact decodeBatch_panics_iff (by rw [List.length_drop]; omega)
  · refine iff_of_false ?_ fun both => inside both.1
    unfold decodeNextBatch
    rw [if_pos (by omega)]
    exact not_panics_error _

/-- A decoded batch takes at least its header and ends inside the data. -/
theorem decodeNextBatch_advances (decoded : decodeNextBatch data pos = .ok (batch, next)) :
    pos + 38 ≤ next ∧ next ≤ data.length := by
  by_cases inside : pos < data.length
  · rw [decodeNextBatch_eq inside] at decoded
    obtain ⟨_, single, same⟩ := (bind_ok_iff _ _ _).mp decoded
    have bounds := decodeBatch_length single
    rw [List.length_drop] at bounds
    cases same
    exact ⟨by omega, by omega⟩
  · unfold decodeNextBatch at decoded
    rw [if_pos (by omega)] at decoded
    cases decoded

end

end BunnyMQ.Storage
