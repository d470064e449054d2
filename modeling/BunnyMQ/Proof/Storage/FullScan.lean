/-
This file shows that a read through the sparse index of a segment returns what a scan of the whole segment returns.
-/

import BunnyMQ.Proof.Storage.Contents
import BunnyMQ.Proof.Storage.Encoded
import BunnyMQ.Proof.Storage.Truncation

namespace BunnyMQ.Storage
open Foundation FileStore StorageImpl List
variable {batches : List Bytes} {offset : Int}

/-- The batches that fit behind the bytes that are already taken. -/
def fitting (maxBytes : Int) : Int → List Bytes → List Bytes
  | _, [] => []
  | used, batch :: later =>
    if used + batch.length > maxBytes then [] else batch :: fitting maxBytes (used + batch.length) later

/-- No longer run of batches fits. -/
theorem fitting_longest (maxBytes used : Int) (batches : List Bytes) :
    ∃ count ≤ batches.length, fitting maxBytes used batches = batches.take count ∧
      (0 < count → used + (batches.take count).flatten.length ≤ maxBytes) ∧
      ∀ more ≤ batches.length, used + (batches.take more).flatten.length ≤ maxBytes → more ≤ count := by
  induction batches generalizing used with
  | nil => exact ⟨0, le_refl _, rfl, by simp, fun more short _ => short⟩
  | cons batch batches ih =>
    rw [fitting]
    by_cases full : used + batch.length > maxBytes
    · refine ⟨0, Nat.zero_le _, by rw [if_pos full]; rfl, by simp, ?_⟩
      intro more short fits
      cases more with
      | zero => exact le_refl 0
      | succ more =>
        rw [take_succ_cons, flatten_cons, length_append] at fits
        omega
    · obtain ⟨count, short, taken, fits, longest⟩ := ih (used + batch.length)
      have total : ∀ more, used + (((batch :: batches).take (more + 1)).flatten.length : Int) =
          used + batch.length + ((batches.take more).flatten.length : Int) := by
        intro more
        rw [take_succ_cons, flatten_cons, length_append]
        omega
      refine ⟨count + 1, Nat.succ_le_succ short, by rw [if_neg full, taken]; rfl, ?_, ?_⟩
      · intro _
        rw [total]
        cases count with
        | zero =>
          rw [take_zero, flatten_nil, length_nil]
          omega
        | succ count => exact fits (Nat.succ_pos count)
      · intro more within fitsMore
        cases more with
        | zero => exact Nat.zero_le _
        | succ more =>
          rw [total] at fitsMore
          exact Nat.succ_le_succ (longest more (Nat.le_of_succ_le_succ within) fitsMore)

/-- A full scan returns the first batch that ends behind the offset and the later ones that fit. -/
def scanRead (offset maxBytes : Int) (batches : List Bytes) : Bytes × Int :=
  match batches.dropWhile fun batch => decide (endOffsetOf batch ≤ offset) with
  | [] => ([], offset)
  | first :: later =>
    ((first :: fitting maxBytes first.length later).flatten,
      lastEnd offset (first :: fitting maxBytes first.length later))

section
variable {offset : Int} {maxBytes : Int}

/-- Batches that end at or before the offset do not count. -/
theorem scanRead_append {early : List Bytes} (ended : ∀ batch ∈ early, endOffsetOf batch ≤ offset)
    (rest : List Bytes) : scanRead offset maxBytes (early ++ rest) = scanRead offset maxBytes rest := by
  rw [scanRead, dropWhile_append_of_pos fun batch member => decide_eq_true (ended batch member)]
  rfl

theorem scanRead_cons {first : Bytes} (inside : offset < endOffsetOf first) (later : List Bytes) :
    scanRead offset maxBytes (first :: later) =
      ((first :: fitting maxBytes first.length later).flatten,
        lastEnd offset (first :: fitting maxBytes first.length later)) := by
  rw [scanRead, dropWhile_cons_of_neg (by simpa using inside)]

theorem scanRead_ended (ended : ∀ batch ∈ batches, endOffsetOf batch ≤ offset) :
    scanRead offset maxBytes batches = ([], offset) := by
  have none := @scanRead_append offset maxBytes batches ended []
  rw [append_nil] at none
  exact none

/-- A read that has found its first batch takes the further batches that fit. -/
theorem readLoop_fitting {result : Bytes} {nextOffset : Int} (present : 0 < result.length)
    (long : ∀ batch ∈ batches, 38 ≤ batch.length) (behind : ∀ batch ∈ batches, offset < endOffsetOf batch) (pos : Nat) :
    readLoop offset maxBytes (placed pos batches) result nextOffset =
      .ok (result ++ (fitting maxBytes result.length batches).flatten,
        lastEnd nextOffset (fitting maxBytes result.length batches)) := by
  induction batches generalizing result nextOffset pos with
  | nil => simp [placed, readLoop, fitting, lastEnd]
  | cons batch batches ih =>
    have size := long batch mem_cons_self
    have later := behind batch mem_cons_self
    rw [placed, readLoop, if_neg (by omega), if_neg (by omega), fitting]
    by_cases full : (result.length + batch.length : Int) > maxBytes
    · rw [if_pos ⟨present, full⟩, if_pos full]
      simp [lastEnd]
    · have longer : ((result ++ batch).length : Int) = result.length + batch.length := by simp
      rw [if_neg fun both => full both.2, if_neg full, ih (by rw [length_append]; omega)
        (fun other member => long other (mem_cons_of_mem _ member))
        (fun other member => behind other (mem_cons_of_mem _ member)), longer, flatten_cons,
        append_assoc]
      rfl

/-- The loop returns what a full scan returns, when no later batch ends before an earlier one. -/
theorem readLoop_eq {batches : List Bytes} (long : ∀ batch ∈ batches, 38 ≤ batch.length)
    (rising : batches.Pairwise fun first later => endOffsetOf first ≤ endOffsetOf later) (pos : Nat) :
    readLoop offset maxBytes (placed pos batches) [] offset = .ok (scanRead offset maxBytes batches) := by
  induction batches generalizing pos with
  | nil => rfl
  | cons batch batches ih =>
    have size := long batch mem_cons_self
    have rest : ∀ other ∈ batches, 38 ≤ other.length := fun other member => long other (mem_cons_of_mem _ member)
    obtain ⟨lower, rising⟩ := pairwise_cons.mp rising
    rw [placed, readLoop, if_neg (by omega)]
    by_cases done : endOffsetOf batch ≤ offset
    · have skipped := @scanRead_append offset maxBytes [batch] (by simpa using done) batches
      rw [if_pos done, ih rest rising, ← skipped]
      rfl
    · have inside : offset < endOffsetOf batch := not_le.mp done
      rw [if_neg done, if_neg (by simp), scanRead_cons inside, nil_append,
        readLoop_fitting (by omega) rest fun other member => inside.trans_le (lower other member)]
      rfl

end

/-- The ends of a growing chain rise. -/
theorem Growing.rising {start : Int} (growing : Growing batches) (chained : Chained start batches) :
    batches.Pairwise fun first later => endOffsetOf first ≤ endOffsetOf later := by
  induction batches generalizing start with
  | nil => exact List.Pairwise.nil
  | cons batch batches ih =>
    have tail : Growing batches := fun other member => growing other (mem_cons_of_mem _ member)
    refine pairwise_cons.mpr ⟨?_, ih tail chained.2⟩
    intro later member
    have bounds := (tail.between chained.2).2 later member
    have grows := tail later member
    omega

/-- The chosen batches start with the one that contains the offset, and those before them end at or
before it. -/
structure Chosen (offset : Int) (before chosen : List Bytes) : Prop where
  ended : ∀ batch ∈ before, endOffsetOf batch ≤ offset
  starts : ∃ first rest, chosen = first :: rest ∧ baseOffsetOf first ≤ offset ∧ offset < endOffsetOf first

/-- An offset within a growing chain lies in exactly one of its batches. -/
theorem Growing.exists_containing {start : Int} (growing : Growing batches) (chained : Chained start batches)
    (lower : start ≤ offset) (upper : offset < lastEnd start batches) :
    ∃ skipped first later, batches = skipped ++ first :: later ∧
      (∀ batch ∈ skipped, endOffsetOf batch ≤ offset) ∧ baseOffsetOf first ≤ offset ∧
      ∀ batch ∈ first :: later, offset < endOffsetOf batch := by
  induction batches generalizing start with
  | nil =>
    change offset < start at upper
    omega
  | cons batch batches ih =>
    obtain ⟨starts, rest⟩ := chained
    have tail : Growing batches := fun other member => growing other (mem_cons_of_mem _ member)
    rcases Int.lt_or_le offset (endOffsetOf batch) with inside | behind
    · refine ⟨[], batch, batches, rfl, by simp, by omega, ?_⟩
      intro other member
      rcases mem_cons.mp member with rfl | later
      · exact inside
      · have bounds := (tail.between rest).2 other later
        have grows := tail other later
        omega
    · obtain ⟨skipped, first, later, split, ended, base, ahead⟩ := ih tail rest behind upper
      refine ⟨batch :: skipped, first, later, by rw [split]; rfl, ?_, base, ahead⟩
      intro other member
      rcases mem_cons.mp member with rfl | earlier
      · exact behind
      · exact ended other earlier

/-- Positions and relative offsets of the segment fit into 32 bits. -/
structure Segment.Addressable (seg : Segment) : Prop where
  positions : seg.batches.dropLast.flatten.length < 2 ^ 31
  offsets : seg.stop - seg.base < 2 ^ 31

theorem Segment.Addressable.position {seg : Segment} (addressable : seg.Addressable) {before after : List Bytes}
    {batch : Bytes} (split : seg.batches = before ++ batch :: after) : before.flatten.length < 2 ^ 31 := by
  have bound := addressable.positions
  rw [split, dropLast_append_of_ne_nil (cons_ne_nil _ _), flatten_append, length_append] at bound
  omega

theorem StoredBatch.length_lt {batch : Bytes} (stored : StoredBatch batch) : batch.length < 2 ^ 32 := by
  have announced : batchLengthOf batch = batch.length := Framing.Framed.announced stored
  rw [← announced]
  exact (uint32At batch 8).toNat_lt

/-- Records that take seven bytes each have relative offsets of 32 bits while the batches start below two gigabytes. -/
theorem Segment.Valid.addressable {seg : Segment} (valid : seg.Valid)
    (positions : seg.batches.dropLast.flatten.length < 2 ^ 31) (dense : 7 * (seg.stop - seg.base) ≤ seg.bytes.length) :
    seg.Addressable where
  positions := positions
  offsets := by
    rcases eq_nil_or_concat seg.batches with empty | ⟨front, last, split⟩
    · have none : seg.stop = seg.base := by rw [Segment.stop, empty]; rfl
      omega
    · rw [concat_eq_append] at split
      have small := (valid.stored last (by rw [split]; simp)).length_lt
      have size : seg.bytes.length = seg.batches.dropLast.flatten.length + last.length := by
        rw [Segment.bytes, split]
        simp
      omega

theorem int32_toInt {value : Int} (lower : 0 ≤ value) (upper : value < 2 ^ 31) : (Int32.ofInt value).toInt = value :=
  Int32.toInt_ofInt_of_le (by omega) upper

/-- A handle whose index holds the sampled entries of its segment. -/
structure ReadableHandle (cfg : StorageConfig) (handle : SegmentStorage) (seg : Segment) : Prop where
  base : handle.baseOffset = seg.base
  size : handle.log.logSize = (seg.bytes.length : Nat)
  entries : handle.offsetIdx.entries = (sampled cfg seg.base seg.batches).offEntries
  mapped : (handle.offsetIdx.entries.length * offsetLayout.width : Nat) ≤ handle.offsetIdx.mapped

section
variable {cfg : StorageConfig} {handle : SegmentStorage} {seg : Segment}

section
variable (readable : ReadableHandle cfg handle seg)
include readable

/-- The index gives the start of a batch that begins at or before the offset, or nothing. -/
theorem lookupPosition_run (target : Int32) :
    lookupPosition handle.offsetIdx target = .ok none ∨
      ∃ entry ∈ (sampled cfg seg.base seg.batches).offEntries, entry.relativeOffset ≤ target ∧
        lookupPosition handle.offsetIdx target = .ok (some entry.position) := by
  have mapped := readable.mapped
  have entryAt : ∀ slot : Int, 0 ≤ slot → slot ≤ handle.offsetIdx.entries.length - 1 →
      ∃ entry ∈ handle.offsetIdx.entries, handle.offsetIdx.entryAt offsetLayout slot = some entry := by
    intro slot lower upper
    have inside : slot.toNat < handle.offsetIdx.entries.length := by omega
    refine ⟨handle.offsetIdx.entries[slot.toNat], getElem_mem inside, ?_⟩
    rw [IndexSegment.entryAt, if_pos ?_, getElem?_eq_getElem inside]
    simp only [offsetLayout] at mapped ⊢
    omega
  obtain ⟨found, search, place⟩ := @Search.floorLoop_spec
    (fun slot => (handle.offsetIdx.entryAt offsetLayout slot).map fun entry => decide (entry.relativeOffset ≤ target))
    handle.offsetIdx.entries.length 0 (handle.offsetIdx.entries.length - 1) (-1) fun index lower upper => by
      obtain ⟨entry, _, some⟩ := entryAt index lower upper
      simp only [some, Option.map_some, Option.isSome_some]
  simp only [lookupPosition, search]
  rcases place with rfl | ⟨lower, upper, holds⟩
  · exact .inl (if_pos (by decide))
  · obtain ⟨entry, member, some⟩ := entryAt found lower upper
    rw [some, Option.map_some, Option.some.injEq, decide_eq_true_eq] at holds
    rw [readable.entries] at member
    refine .inr ⟨entry, member, holds, ?_⟩
    rw [if_neg (by omega), some]

/-- The index only shortens the scan. It starts at a batch, and every batch before it ends at or before the offset. -/
theorem lookupPosition_early (valid : seg.Valid) (growing : Growing seg.batches) (addressable : seg.Addressable)
    (lower : seg.base ≤ offset) :
    ∃ early rest, seg.batches = early ++ rest ∧ (∀ batch ∈ early, endOffsetOf batch ≤ offset) ∧
      (lookupPosition handle.offsetIdx (Int32.ofInt (offset - handle.baseOffset)) = .ok none ∧ early = [] ∨
        ∃ position : Int32, position.toInt = early.flatten.length ∧
          lookupPosition handle.offsetIdx (Int32.ofInt (offset - handle.baseOffset)) = .ok (some position)) := by
  rcases lookupPosition_run readable (Int32.ofInt (offset - handle.baseOffset)) with none | ⟨entry, member, below, some⟩
  · exact ⟨[], seg.batches, rfl, by simp, .inl ⟨none, rfl⟩⟩
  · obtain ⟨early, batch, rest, split, same⟩ := mem_sampled member
    have place : entry.position.toInt = early.flatten.length := by
      rw [same]
      exact int32_toInt (Int.natCast_nonneg _) (by exact_mod_cast addressable.position split)
    refine ⟨early, batch :: rest, split, ?_, .inr ⟨entry.position, place, some⟩⟩
    intro other earlier
    have offsets := addressable.offsets
    have inside := growing.between valid.chained
    have listed : other ∈ seg.batches := by
      rw [split]
      exact mem_append_left _ earlier
    have upper : endOffsetOf other ≤ seg.stop := (inside.2 other listed).2
    rcases Int.lt_or_le offset seg.stop with stored | past
    · have bounds : seg.base ≤ baseOffsetOf batch ∧ endOffsetOf batch ≤ seg.stop := inside.2 batch (by rw [split]; simp)
      have grows := growing batch (by rw [split]; simp)
      have chained := valid.chained
      rw [split, chained_append] at chained
      rw [split] at growing
      have ends := (growing.append_left.between chained.1).2 other earlier
      have starts : baseOffsetOf batch = lastEnd seg.base early := chained.2.1
      rw [same, readable.base, Int32.le_iff_toInt_le, int32_toInt (by omega) (by omega),
        int32_toInt (by omega) (by omega)] at below
      omega
    · omega

/-- A read at or above the base of a segment returns what a full scan of the segment returns. -/
theorem segmentRead_eq (valid : seg.Valid) (growing : Growing seg.batches) (addressable : seg.Addressable)
    (lower : seg.base ≤ offset) (maxBytes : Int) :
    handle.read seg.bytes offset maxBytes = .ok (scanRead offset maxBytes seg.batches) := by
  obtain ⟨early, rest, split, ended, found⟩ := lookupPosition_early readable valid growing addressable lower
  have stored : ∀ batch ∈ rest, StoredBatch batch := fun batch member =>
    valid.stored batch (by rw [split]; exact mem_append_right _ member)
  have rising := growing.rising valid.chained
  have scanned : handle.log.scan seg.bytes early.flatten.length = placed early.flatten.length rest := by
    have size := readable.size
    rw [Segment.bytes, split] at size ⊢
    exact scan_eq_placed early (fun batch member => (stored batch member).framed) size
  rw [split] at rising
  have read := @readLoop_eq offset maxBytes rest (fun batch member => (stored batch member).long)
    (pairwise_append.mp rising).2.1 early.flatten.length
  rw [split, scanRead_append ended, ← read, ← scanned, SegmentStorage.read]
  rcases found with ⟨missing, none⟩ | ⟨position, place, some⟩
  · simp only [missing, none, bind, Except.bind]
    rfl
  · simp only [some, bind, Except.bind, place]

/-- A read within a segment returns batches from the one that contains the offset on. -/
theorem segmentRead_run (valid : seg.Valid) (growing : Growing seg.batches) (addressable : seg.Addressable)
    (lower : seg.base ≤ offset) (upper : offset < seg.stop) (maxBytes : Int) :
    ∃ before chosen after, seg.batches = before ++ chosen ++ after ∧ Chosen offset before chosen ∧
      handle.read seg.bytes offset maxBytes = .ok (chosen.flatten, lastEnd offset chosen) := by
  obtain ⟨before, first, later, split, ended, starts, ahead⟩ := growing.exists_containing valid.chained lower upper
  have inside := ahead first mem_cons_self
  obtain ⟨count, _, taken, _⟩ := fitting_longest maxBytes first.length later
  refine ⟨before, first :: later.take count, later.drop count, by rw [split]; simp,
    ⟨ended, first, _, rfl, starts, inside⟩, ?_⟩
  rw [segmentRead_eq readable valid growing addressable lower, split, scanRead_append ended, scanRead_cons inside,
    taken]

end

end

end BunnyMQ.Storage
