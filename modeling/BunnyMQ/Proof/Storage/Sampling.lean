/-
This file bounds the sparse index of a segment and relates its entries to batch boundaries.
-/

import BunnyMQ.Proof.Storage.Log
import Mathlib.Algebra.Order.Ring.Int

namespace BunnyMQ.Storage
open Foundation FileStore Framing
variable {cfg : StorageConfig}

/-- The index that a scan of the whole segment collects. -/
def sampled (cfg : StorageConfig) (base : Int) (batches : List Bytes) : IndexScan :=
  (placed 0 batches).foldl (IndexScan.visit cfg base) IndexScan.empty

theorem sampled_push (cfg : StorageConfig) (base : Int) (batches : List Bytes) (batch : Bytes) :
    sampled cfg base (batches ++ [batch]) =
      IndexScan.visit cfg base (sampled cfg base batches) (batch, (batches.flatten.length : Nat)) := by
  rw [sampled, placed_append, List.foldl_append]
  simp [placed, sampled]

theorem sampled_lengths (cfg : StorageConfig) (base : Int) (batches : List Bytes) :
    (sampled cfg base batches).tEntries.length = (sampled cfg base batches).offEntries.length := by
  induction batches using List.reverseRecOn with
  | nil => rfl
  | append_singleton batches batch ih =>
    rw [sampled_push, IndexScan.visit]
    split
    · simp [ih]
    · exact ih

/-- Between two entries lie at least as many bytes as the sampling interval. -/
theorem sampled_count {cfg : StorageConfig} (base : Int) (batches : List Bytes) :
    let scan := sampled cfg base batches
    0 ≤ scan.bytesSince ∧
      scan.offEntries.length * cfg.indexSampleBytes + scan.bytesSince ≤ batches.flatten.length ∧
      scan.offEntries.length * cfg.indexSampleBytes ≤ batches.dropLast.flatten.length := by
  induction batches using List.reverseRecOn with
  | nil => simp [sampled, placed, IndexScan.empty]
  | append_singleton batches batch ih =>
    obtain ⟨positive, total, _⟩ := ih
    have size : (batches ++ [batch]).flatten.length = batches.flatten.length + batch.length := by simp
    rw [sampled_push, IndexScan.visit, size, List.dropLast_concat]
    dsimp only
    split
    · next due =>
      simp only [List.length_append, List.length_singleton, Nat.cast_add, Nat.cast_one, add_mul, one_mul]
      omega
    · dsimp only
      omega

/-- Every entry of the offset index points to the start of a batch. -/
theorem mem_sampled {base : Int} {batches : List Bytes} {entry : OffsetEntry}
    (member : entry ∈ (sampled cfg base batches).offEntries) :
    ∃ before batch after, batches = before ++ batch :: after ∧
      entry = ⟨Int32.ofInt (baseOffsetOf batch - base), Int32.ofInt before.flatten.length⟩ := by
  induction batches using List.reverseRecOn with
  | nil => simp [sampled, placed, IndexScan.empty] at member
  | append_singleton batches last ih =>
    have earlier : entry ∈ (sampled cfg base batches).offEntries → ∃ before batch after,
        batches ++ [last] = before ++ batch :: after ∧
          entry = ⟨Int32.ofInt (baseOffsetOf batch - base), Int32.ofInt before.flatten.length⟩ := by
      intro old
      obtain ⟨before, batch, after, split, same⟩ := ih old
      exact ⟨before, batch, after ++ [last], by rw [split]; simp, same⟩
    rw [sampled_push, IndexScan.visit] at member
    split at member
    · rcases List.mem_append.mp member with old | new
      · exact earlier old
      · exact ⟨batches, last, [], rfl, List.mem_singleton.mp new⟩
    · exact earlier member

/-- The index of a full segment fits into the allocated file. -/
structure StorageConfig.Indexable (cfg : StorageConfig) : Prop where
  segment : 1 ≤ cfg.segmentMaxBytes
  sample : 1 ≤ cfg.indexSampleBytes
  entries : cfg.segmentMaxBytes ≤ cfg.maxEntries * cfg.indexSampleBytes
  offsets : cfg.maxEntries * offsetLayout.width ≤ cfg.allocSize offsetLayout.width
  times : cfg.maxEntries * timeLayout.width ≤ cfg.allocSize timeLayout.width

namespace StorageConfig.Indexable
variable {cfg : StorageConfig} (indexable : cfg.Indexable)
include indexable

theorem maxEntries_pos : 0 < cfg.maxEntries := by
  have segment := indexable.segment
  have sample := indexable.sample
  have entries := indexable.entries
  by_contra none
  have : cfg.maxEntries * cfg.indexSampleBytes ≤ 0 := mul_nonpos_of_nonpos_of_nonneg (by omega) (by omega)
  omega

/-- The allocated file has room for at least one entry. -/
theorem offsets_le : offsetLayout.width ≤ cfg.allocSize offsetLayout.width := by
  have positive := indexable.maxEntries_pos
  have room := indexable.offsets
  simp only [offsetLayout] at room ⊢
  omega

theorem times_le : timeLayout.width ≤ cfg.allocSize timeLayout.width := by
  have positive := indexable.maxEntries_pos
  have room := indexable.times
  simp only [timeLayout] at room ⊢
  omega

/-- A segment whose last batch starts below the limit has room for one more entry. -/
theorem sampled_lt {base : Int} {batches : List Bytes}
    (slack : (batches.dropLast.flatten.length : Int) < cfg.segmentMaxBytes) :
    ((sampled cfg base batches).offEntries.length : Int) < cfg.maxEntries := by
  obtain ⟨_, _, count⟩ := @sampled_count cfg base batches
  have sample := indexable.sample
  have entries := indexable.entries
  by_contra full
  have : cfg.maxEntries * cfg.indexSampleBytes ≤
      (sampled cfg base batches).offEntries.length * cfg.indexSampleBytes :=
    mul_le_mul_of_nonneg_right (by omega) (by omega)
  omega

end StorageConfig.Indexable

/-- Rounding up to pages never loses a byte. -/
theorem le_allocSize {width : Nat} (entries : 0 ≤ cfg.maxEntries)
    (fits : cfg.maxEntries * width + cfg.pageSize ≤ 2 ^ 63) : cfg.maxEntries * width ≤ cfg.allocSize width := by
  have page := cfg.pageSize_pos
  have bytes : 0 ≤ cfg.maxEntries * width := mul_nonneg entries (by omega)
  unfold StorageConfig.allocSize
  simp only
  have small : int64 (cfg.maxEntries * width) = cfg.maxEntries * width :=
    int64_of_range (by omega) (by omega)
  rw [small]
  clear small
  generalize cfg.maxEntries * (width : Int) = total at *
  obtain ⟨size, same⟩ : ∃ size : Int, size = cfg.pageSize := ⟨_, rfl⟩
  rw [← same] at fits ⊢
  have one : 1 ≤ size := by omega
  have sum : int64 (int64 (total + size) - 1) = total + size - 1 := by
    unfold int64
    omega
  rw [sum, Int.tdiv_eq_ediv_of_nonneg (by omega)]
  have lower := Int.lt_ediv_add_one_mul_self (total + size - 1) (by omega : 0 < size)
  have upper := Int.ediv_mul_le (total + size - 1) (by omega : size ≠ 0)
  rw [add_mul, one_mul] at lower
  rw [int64_of_range (by omega) (by omega)]
  omega

/-- The index arithmetic stays exact for every limit that leaves room in 64 bits. -/
theorem StorageConfig.indexable_of_bounds (segment : 1 ≤ cfg.segmentMaxBytes) (sample : 1 ≤ cfg.indexSampleBytes)
    (sum : cfg.segmentMaxBytes + cfg.indexSampleBytes ≤ 2 ^ 63) (small : cfg.segmentMaxBytes ≤ 2 ^ 59) :
    cfg.Indexable := by
  have page := cfg.pageSize_lt
  have exactSum : int64 (int64 (cfg.segmentMaxBytes + cfg.indexSampleBytes) - 1) =
      cfg.segmentMaxBytes + cfg.indexSampleBytes - 1 := by
    unfold int64
    omega
  have quotient : cfg.maxEntries =
      (cfg.segmentMaxBytes + cfg.indexSampleBytes - 1) / cfg.indexSampleBytes := by
    rw [StorageConfig.maxEntries, exactSum, Int.tdiv_eq_ediv_of_nonneg (by omega)]
  have lower := Int.lt_ediv_add_one_mul_self (cfg.segmentMaxBytes + cfg.indexSampleBytes - 1)
    (by omega : 0 < cfg.indexSampleBytes)
  rw [← quotient, add_mul, one_mul] at lower
  have nonneg : 0 ≤ cfg.maxEntries := by
    rw [quotient]
    exact Int.ediv_nonneg (by omega) (by omega)
  have upper : cfg.maxEntries ≤ cfg.segmentMaxBytes := by
    rw [quotient]
    refine Int.ediv_le_of_le_mul (by omega) ?_
    have product : 0 ≤ (cfg.segmentMaxBytes - 1) * (cfg.indexSampleBytes - 1) :=
      mul_nonneg (by omega) (by omega)
    have expand : (cfg.segmentMaxBytes - 1) * (cfg.indexSampleBytes - 1) =
        cfg.segmentMaxBytes * cfg.indexSampleBytes - cfg.segmentMaxBytes - cfg.indexSampleBytes + 1 := by
      ring
    omega
  refine ⟨segment, sample, by omega, le_allocSize nonneg ?_, le_allocSize nonneg ?_⟩
  · simp only [offsetLayout]
    omega
  · simp only [timeLayout]
    omega

/-- A small configuration with one-byte pages. -/
def smallConfig : StorageConfig where
  segmentMaxBytes := 50
  indexSampleBytes := 1
  defaultRetentionMs := 0
  defaultRetentionBytes := -1
  pageSize := 1
  pageSize_pos := by decide
  pageSize_lt := by decide

theorem smallConfig_indexable : smallConfig.Indexable :=
  StorageConfig.indexable_of_bounds (by decide) (by decide) (by decide) (by decide)

/-- A sum beyond 64 bits wraps, and no byte is left for an entry. -/
theorem StorageConfig.allocSize_nonpos (segment : 1 ≤ cfg.segmentMaxBytes) (small : cfg.segmentMaxBytes ≤ 2 ^ 31)
    (sample : cfg.indexSampleBytes < 2 ^ 63) (overflow : 2 ^ 63 < cfg.segmentMaxBytes + cfg.indexSampleBytes) :
    cfg.allocSize offsetLayout.width ≤ 0 := by
  have page := cfg.pageSize_pos
  have pageMax := cfg.pageSize_lt
  have wrapped : int64 (int64 (cfg.segmentMaxBytes + cfg.indexSampleBytes) - 1) =
      -(2 ^ 64 + 1 - cfg.segmentMaxBytes - cfg.indexSampleBytes) := by
    unfold int64
    omega
  have quotient : cfg.maxEntries = 0 ∨ cfg.maxEntries = -1 := by
    have lower : 0 ≤ (2 ^ 64 + 1 - cfg.segmentMaxBytes - cfg.indexSampleBytes) / cfg.indexSampleBytes :=
      Int.ediv_nonneg (by omega) (by omega)
    have upper : (2 ^ 64 + 1 - cfg.segmentMaxBytes - cfg.indexSampleBytes) / cfg.indexSampleBytes < 2 :=
      Int.ediv_lt_of_lt_mul (by omega) (by omega)
    rw [StorageConfig.maxEntries, wrapped, Int.neg_tdiv, Int.tdiv_eq_ediv_of_nonneg (by omega)]
    omega
  have bytes : int64 (cfg.maxEntries * offsetLayout.width) ≤ 0 ∧
      -8 ≤ int64 (cfg.maxEntries * offsetLayout.width) := by
    rcases quotient with none | negative
    · rw [none]
      decide
    · rw [negative]
      decide
  unfold StorageConfig.allocSize
  simp only
  obtain ⟨size, same⟩ : ∃ size : Int, size = cfg.pageSize := ⟨_, rfl⟩
  generalize int64 (cfg.maxEntries * (offsetLayout.width : Int)) = total at bytes ⊢
  rw [← same]
  have sum : int64 (int64 (total + size) - 1) = total + size - 1 := by
    unfold int64
    omega
  rw [sum]
  rcases Int.lt_or_le (total + size - 1) 0 with below | above
  · -- a division of a negative number rounds towards zero
    have negated : total + size - 1 = -(1 - total - size) := by omega
    have lower : 0 ≤ (1 - total - size) / size := Int.ediv_nonneg (by omega) (by omega)
    have upper := Int.ediv_mul_le (1 - total - size) (by omega : size ≠ 0)
    have product : 0 ≤ (1 - total - size) / size * size := mul_nonneg lower (by omega)
    rw [negated, Int.neg_tdiv, Int.tdiv_eq_ediv_of_nonneg (by omega), neg_mul,
      int64_of_range (by omega) (by omega)]
    omega
  · rw [Int.tdiv_eq_zero_of_lt above (by omega), zero_mul]
    decide

end BunnyMQ.Storage
