/-
This file shows that the log readers agree on where a batch ends.
-/

import BunnyMQ.Construction.Storage.Storage
import BunnyMQ.Library.Framing

namespace BunnyMQ.Storage
open Foundation FileStore Framing List
variable {batch : Bytes} {width : Nat} {batches : List Bytes} {offset : Int}

theorem batchLengthOf_append {data : Bytes} (rest : Bytes) (inside : 12 ≤ data.length) :
    batchLengthOf (data ++ rest) = batchLengthOf data := by
  rw [batchLengthOf, batchLengthOf, uint32At, uint32At, slice_append_left inside]

/-- The log scan needs twelve bytes and checks nothing else. -/
def scanFormat : Format where
  header := 12
  announced := batchLengthOf
  accepts _ := true
  header_pos := by decide
  announced_append _ rest inside := batchLengthOf_append rest inside

/-- The recovery scan needs the whole header and checks the records. -/
def recoveryFormat : Format where
  header := 38
  announced := batchLengthOf
  accepts frame := decide (checksum (frame.drop 38) = uint32At frame 16)
  header_pos := by decide
  announced_append _ rest inside := batchLengthOf_append rest (by omega)

/-- A stored batch announces its own length and carries the checksum of its records. -/
abbrev StoredBatch (batch : Bytes) : Prop := Framed recoveryFormat batch

theorem StoredBatch.long (stored : StoredBatch batch) : 38 ≤ batch.length :=
  Framed.long stored

theorem StoredBatch.framed (stored : StoredBatch batch) : Framed scanFormat batch := by
  have announced : batchLengthOf batch = batch.length := Framed.announced stored
  exact ⟨le_trans (by decide) stored.long, announced, rfl⟩

/-- The log scan lists the batch, and the index can read its whole header. -/
structure ScannedBatch (batch : Bytes) : Prop where
  long : 38 ≤ batch.length
  framed : Framed scanFormat batch

theorem StoredBatch.scanned (stored : StoredBatch batch) : ScannedBatch batch :=
  ⟨stored.long, stored.framed⟩

/-- A list of batches with the position of each. -/
def placed : Nat → List Bytes → List (Bytes × Int)
  | _, [] => []
  | pos, batch :: rest => (batch, (pos : Int)) :: placed (pos + batch.length) rest

theorem placed_append (pos : Nat) (first second : List Bytes) :
    placed pos (first ++ second) = placed pos first ++ placed (pos + first.flatten.length) second := by
  induction first generalizing pos with
  | nil => simp [placed]
  | cons batch first ih =>
    rw [cons_append, placed, placed, ih, flatten_cons, length_append, Nat.add_assoc,
      cons_append]

theorem placed_map_fst (pos : Nat) (batches : List Bytes) : (placed pos batches).map Prod.fst = batches := by
  induction batches generalizing pos with
  | nil => rfl
  | cons batch batches ih => rw [placed, map_cons, ih]

theorem readAt_drop {file : Bytes} {pos length : Nat} (inside : length ≤ (file.drop pos).length) :
    readAt file pos length = .ok ((file.drop pos).take length) := by
  have size : (slice file pos (pos + length)).length = length := by
    rw [slice, Nat.add_sub_cancel_left, length_take]
    omega
  simp only [readAt, Int.toNat_natCast, size, if_true]
  rw [if_neg (by omega), slice, Nat.add_sub_cancel_left]

theorem readAt_short {file : Bytes} {pos length : Nat} (outside : (file.drop pos).length < length) :
    readAt file pos length = .error errUnexpectedEOF := by
  have size : (slice file pos (pos + length)).length ≠ length := by
    rw [slice, Nat.add_sub_cancel_left, length_take]
    omega
  simp only [readAt, Int.toNat_natCast, size, if_false]
  rw [if_neg (by omega)]

theorem uint32At_take (data : Bytes) {lo : Nat} (inside : lo + 4 ≤ width) :
    uint32At (data.take width) lo = uint32At data lo := by
  rw [uint32At, uint32At, slice_take data inside]

theorem uint64At_take (data : Bytes) {lo : Nat} (inside : lo + 8 ≤ width) :
    uint64At (data.take width) lo = uint64At data lo := by
  rw [uint64At, uint64At, slice_take data inside]

theorem batchLengthOf_take (data : Bytes) (header : 12 ≤ width) :
    batchLengthOf (data.take width) = batchLengthOf data := by
  rw [batchLengthOf, batchLengthOf, uint32At_take data header]

theorem baseOffsetOf_take (data : Bytes) (header : 8 ≤ width) :
    baseOffsetOf (data.take width) = baseOffsetOf data := by
  rw [baseOffsetOf, baseOffsetOf, uint64At_take data header]

theorem recordCountOf_take (data : Bytes) (header : 16 ≤ width) :
    recordCountOf (data.take width) = recordCountOf data := by
  rw [recordCountOf, recordCountOf, uint32At_take data header]

/-- The log scan reads the frames of the file from its start position. -/
theorem scanFrom_eq_frames (file : Bytes) (fuel pos : Nat) :
    scanFrom file file.length fuel pos = (placed pos (framesLoop scanFormat fuel (file.drop pos)), none) := by
  induction fuel generalizing pos with
  | zero => rfl
  | succ fuel ih =>
    rw [scanFrom, framesLoop]
    have left : (file.drop pos).length = file.length - pos := length_drop
    by_cases inside : pos < file.length
    · rw [if_pos (by exact_mod_cast inside)]
      by_cases header : (file.drop pos).length < 12
      · have none : next scanFormat (file.drop pos) = none := next_short header
        rw [readAt_short header, none]
        rfl
      · have long : 12 ≤ (file.drop pos).length := by omega
        have announced := batchLengthOf_take (file.drop pos) (le_refl 12)
        simp only [readAt_drop long, announced]
        by_cases bad : batchLengthOf (file.drop pos) < 12 ∨ (file.drop pos).length < batchLengthOf (file.drop pos)
        · have none : next scanFormat (file.drop pos) = none := next_invalid bad
          rw [none, if_pos (by omega)]
          rfl
        · have found : next scanFormat (file.drop pos) =
              some ((file.drop pos).take (batchLengthOf (file.drop pos))) :=
            next_found (not_lt.mp fun small => bad (.inl small))
              (not_lt.mp fun large => bad (.inr large)) rfl
          have size : ((file.drop pos).take (batchLengthOf (file.drop pos))).length =
              batchLengthOf (file.drop pos) := by
            rw [length_take]
            omega
          have rest := ih (pos + batchLengthOf (file.drop pos))
          rw [Nat.cast_add] at rest
          rw [if_neg (by omega), readAt_drop (by omega), found]
          simp only [rest, size, placed, drop_drop]
    · have short : (file.drop pos).length < 12 := by omega
      have none : next scanFormat (file.drop pos) = none := next_short short
      rw [if_neg (by exact_mod_cast inside), none]
      rfl

/-- A scan from the start of a batch lists exactly the batches from there on. -/
theorem scan_eq_placed {log : LogSegment} (before : List Bytes) {after : List Bytes}
    (framed : ∀ batch ∈ after, Framed scanFormat batch)
    (size : log.logSize = ((before ++ after).flatten.length : Nat)) :
    log.scan (before ++ after).flatten before.flatten.length = placed before.flatten.length after := by
  have bound := flatten_length_le framed
  have whole := framesLoop_flatten framed next_nil (before ++ after).flatten.length
    (by rw [flatten_append, length_append]; omega)
  rw [LogSegment.scan, size, Int.toNat_natCast, scanFrom_eq_frames]
  rw [append_nil] at whole
  simp only [flatten_append, drop_left] at whole ⊢
  rw [whole]

theorem scan_zero {log : LogSegment} (framed : ∀ batch ∈ batches, Framed scanFormat batch)
    (size : log.logSize = (batches.flatten.length : Nat)) : log.scan batches.flatten 0 = placed 0 batches :=
  scan_eq_placed [] framed size

/-- The offset behind the last batch of a list. -/
def lastEnd (start : Int) (batches : List Bytes) : Int :=
  batches.foldl (fun _ batch => endOffsetOf batch) start

/-- The recovery scan stops behind the last valid frame and continues at its end offset. -/
theorem scanActiveLoop_eq_frames (file : Bytes) (fuel pos : Nat) (start : Int) :
    (scanActiveLoop file fuel pos start).1 =
        pos + (framesLoop recoveryFormat fuel (file.drop pos)).flatten.length ∧
      (scanActiveLoop file fuel pos start).2.1 =
        lastEnd start (framesLoop recoveryFormat fuel (file.drop pos)) := by
  induction fuel generalizing pos start with
  | zero => exact ⟨rfl, rfl⟩
  | succ fuel ih =>
    rw [scanActiveLoop, framesLoop]
    have left : (file.drop pos).length = file.length - pos := length_drop
    have hdr : slice file pos (pos + 38) = (file.drop pos).take 38 := by
      rw [slice, Nat.add_sub_cancel_left]
    by_cases inside : pos < file.length
    · rw [if_pos inside]
      simp only [hdr, batchLengthOf_take (file.drop pos) (by decide : 12 ≤ 38),
        baseOffsetOf_take (file.drop pos) (by decide : 8 ≤ 38),
        recordCountOf_take (file.drop pos) (by decide : 16 ≤ 38),
        uint32At_take (file.drop pos) (by decide : 16 + 4 ≤ 38), length_take]
      by_cases header : (file.drop pos).length < 38
      · have none : next recoveryFormat (file.drop pos) = none := next_short header
        rw [none, if_pos (by omega)]
        exact ⟨rfl, rfl⟩
      · rw [if_neg (by omega)]
        by_cases bad : batchLengthOf (file.drop pos) < 38 ∨ (file.drop pos).length < batchLengthOf (file.drop pos)
        · have none : next recoveryFormat (file.drop pos) = none := next_invalid bad
          rw [none, if_pos (by omega)]
          exact ⟨rfl, rfl⟩
        · have records : slice file (pos + 38) (pos + batchLengthOf (file.drop pos)) =
              ((file.drop pos).take (batchLengthOf (file.drop pos))).drop 38 := by
            rw [slice, drop_take, drop_drop]
            congr 1
            omega
          have enough : ¬ (((file.drop pos).take (batchLengthOf (file.drop pos))).drop 38).length <
              batchLengthOf (file.drop pos) - 38 := by
            rw [length_drop, length_take]
            omega
          have stored : uint32At ((file.drop pos).take (batchLengthOf (file.drop pos))) 16 =
              uint32At (file.drop pos) 16 := uint32At_take _ (by omega)
          rw [if_neg (by omega), records, if_neg enough]
          by_cases valid : checksum (((file.drop pos).take (batchLengthOf (file.drop pos))).drop 38) =
              uint32At (file.drop pos) 16
          · have found : next recoveryFormat (file.drop pos) =
                some ((file.drop pos).take (batchLengthOf (file.drop pos))) :=
              next_found (not_lt.mp fun small => bad (.inl small))
                (not_lt.mp fun large => bad (.inr large)) (decide_eq_true (valid.trans stored.symm))
            have size : ((file.drop pos).take (batchLengthOf (file.drop pos))).length =
                batchLengthOf (file.drop pos) := by
              rw [length_take]
              omega
            have ends : endOffsetOf ((file.drop pos).take (batchLengthOf (file.drop pos))) =
                int64 (baseOffsetOf (file.drop pos) + recordCountOf (file.drop pos)) := by
              rw [endOffsetOf, baseOffsetOf_take _ (by omega), recordCountOf_take _ (by omega)]
            obtain ⟨place, next⟩ := ih (pos + batchLengthOf (file.drop pos))
              (int64 (baseOffsetOf (file.drop pos) + recordCountOf (file.drop pos)))
            rw [found, if_neg (by simpa using valid)]
            simp only [place, next, size, drop_drop, flatten_cons, length_append, lastEnd,
              foldl_cons, ends, Nat.add_assoc, and_self]
          · have rejected : next recoveryFormat (file.drop pos) = none :=
              next_rejected (decide_eq_false fun same => valid (same.trans stored))
            rw [rejected, if_pos valid]
            exact ⟨rfl, rfl⟩
    · have short : (file.drop pos).length < 38 := by omega
      have none : next recoveryFormat (file.drop pos) = none := next_short short
      rw [if_neg inside, none]
      exact ⟨rfl, rfl⟩

/-- Recovery finds the stored batches in front of a torn tail. -/
theorem scanActiveLog_torn (stored : ∀ batch ∈ batches, StoredBatch batch) {tail : Bytes}
    (torn : next recoveryFormat tail = none) (baseOffset : Int) :
    (scanActiveLog (batches.flatten ++ tail) baseOffset).1 = batches.flatten.length ∧
      (scanActiveLog (batches.flatten ++ tail) baseOffset).2.1 = lastEnd baseOffset batches := by
  have found := scanActiveLoop_eq_frames (batches.flatten ++ tail) (batches.flatten ++ tail).length 0 baseOffset
  have whole : framesLoop recoveryFormat (batches.flatten ++ tail).length (batches.flatten ++ tail) = batches :=
    frames_flatten stored torn
  rw [drop_zero, whole, Nat.zero_add] at found
  exact found

/-- The search passes a batch with another offset. -/
theorem findBytePosLoop_skip {earlier : Bytes} (framed : Framed scanFormat earlier)
    (skipped : baseOffsetOf earlier ≠ offset) (passed rest : List Bytes) (fuel : Nat) :
    findBytePosLoop (passed ++ earlier :: rest).flatten (passed ++ earlier :: rest).flatten.length offset (fuel + 1)
        passed.flatten.length =
      findBytePosLoop (passed ++ earlier :: rest).flatten (passed ++ earlier :: rest).flatten.length offset fuel
        (passed ++ [earlier]).flatten.length := by
  have long : 12 ≤ earlier.length := framed.long
  have announced : batchLengthOf earlier = earlier.length := framed.announced
  have behind : (passed ++ earlier :: rest).flatten.drop passed.flatten.length = earlier ++ rest.flatten := by
    rw [flatten_append, drop_left, flatten_cons]
  have inside : 12 ≤ (earlier ++ rest.flatten).length := by
    rw [length_append]
    omega
  have header : baseOffsetOf ((earlier ++ rest.flatten).take 12) ≠ offset := by
    rw [take_append_of_le_length long, baseOffsetOf_take _ (by decide)]
    exact skipped
  have length : batchLengthOf ((earlier ++ rest.flatten).take 12) = earlier.length := by
    rw [take_append_of_le_length long, batchLengthOf_take _ (by decide), announced]
  have front : passed.flatten.length < (passed ++ earlier :: rest).flatten.length := by
    rw [flatten_append, flatten_cons, length_append, length_append]
    omega
  rw [findBytePosLoop, if_pos (by exact_mod_cast front), readAt_drop (by rw [behind]; exact inside), behind]
  have next : ((passed ++ [earlier]).flatten.length : Int) = passed.flatten.length + earlier.length := by simp
  simp only [header, length, if_false]
  rw [if_neg (by omega), next]

/-- The search stops at the first batch with the offset. -/
theorem findBytePosLoop_found {before : List Bytes} (after : List Bytes)
    (stored : ∀ earlier ∈ before, StoredBatch earlier) (target : StoredBatch batch)
    (skipped : ∀ earlier ∈ before, baseOffsetOf earlier ≠ offset) (reached : baseOffsetOf batch = offset)
    (passed : List Bytes) (fuel : Nat) (enough : before.length < fuel) :
    findBytePosLoop (passed ++ (before ++ batch :: after)).flatten
        (passed ++ (before ++ batch :: after)).flatten.length offset fuel passed.flatten.length =
      (passed ++ before).flatten.length := by
  induction before generalizing passed fuel with
  | nil =>
    cases fuel with
    | zero => simp at enough
    | succ fuel =>
      have long := target.long
      have rest : (passed ++ ([] ++ batch :: after)).flatten.drop passed.flatten.length =
          batch ++ after.flatten := by
        rw [flatten_append, drop_left, nil_append, flatten_cons]
      have inside : 12 ≤ (batch ++ after.flatten).length := by
        rw [length_append]
        omega
      have header : baseOffsetOf ((batch ++ after.flatten).take 12) = offset := by
        rw [take_append_of_le_length (by omega), baseOffsetOf_take _ (by decide), reached]
      have before : passed.flatten.length < (passed ++ ([] ++ batch :: after)).flatten.length := by
        rw [nil_append, flatten_append, flatten_cons, length_append, length_append]
        omega
      rw [findBytePosLoop, if_pos (by exact_mod_cast before), readAt_drop (by rw [rest]; exact inside), rest]
      simp only [header, if_true, append_nil]
  | cons earlier before ih =>
    cases fuel with
    | zero => simp at enough
    | succ fuel =>
      have later := ih (fun other member => stored other (mem_cons_of_mem _ member))
        (fun other member => skipped other (mem_cons_of_mem _ member)) (passed ++ [earlier]) fuel
        (by simpa using enough)
      have skips := findBytePosLoop_skip (stored earlier mem_cons_self).framed
        (skipped earlier mem_cons_self) passed (before ++ batch :: after) fuel
      rw [append_assoc, append_assoc, singleton_append, singleton_append] at later
      rw [cons_append, skips]
      exact later

end BunnyMQ.Storage
