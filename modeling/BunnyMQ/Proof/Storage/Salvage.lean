/-
This file shows that the recovery of any log file is sound and changes nothing the second time.
-/

import BunnyMQ.Library.Footprint
import BunnyMQ.Proof.Storage.Progress

namespace BunnyMQ.Storage
open Foundation FileStore Framing StorageImpl List
open Program (Quiet)

/-- The loop leaves at a place of its own choice before the bound is used up. -/
theorem scanActiveLoop_stable (file : Bytes) {fuel pos : Nat} (enough : file.length ≤ pos + fuel) (start : Int)
    (more : Nat) : scanActiveLoop file (fuel + more) pos start = scanActiveLoop file fuel pos start := by
  induction fuel generalizing pos start with
  | zero =>
    cases more with
    | zero => rfl
    | succ more =>
      rw [Nat.zero_add]
      exact if_neg (by omega)
  | succ fuel ih =>
    rw [Nat.add_right_comm, scanActiveLoop, scanActiveLoop]
    by_cases inside : pos < file.length
    · rw [if_pos inside, if_pos inside]
      by_cases short : batchLengthOf (slice file pos (pos + 38)) < 38 ∨
          pos + batchLengthOf (slice file pos (pos + 38)) > file.length
      · simp only [if_pos short]
      · simp only [if_neg short]
        rw [ih (by omega)]
    · rw [if_neg inside, if_neg inside]

/-- Recovery keeps the longest front of the file that consists of stored batches. -/
theorem scanActiveLog_longest (file : Bytes) (baseOffset : Int) :
    (∀ batch ∈ frames recoveryFormat file, StoredBatch batch) ∧
      file.take (scanActiveLog file baseOffset).1 = (frames recoveryFormat file).flatten ∧
      (scanActiveLog file baseOffset).1 = (frames recoveryFormat file).flatten.length ∧
      (scanActiveLog file baseOffset).2.1 = lastEnd baseOffset (frames recoveryFormat file) ∧
      ∀ batches : List Bytes, (∀ batch ∈ batches, StoredBatch batch) → batches.flatten <+: file →
        batches.flatten.length ≤ (scanActiveLog file baseOffset).1 := by
  obtain ⟨stored, tail, split, torn⟩ := @frames_split recoveryFormat file
  obtain ⟨place, next⟩ := scanActiveLog_torn stored torn baseOffset
  rw [← split] at place next
  refine ⟨stored, ?_, place, next, ?_⟩
  · rw [place]
    nth_rewrite 2 [split]
    exact take_left
  · intro batches others starts
    obtain ⟨rest, whole⟩ := prefix_frames others starts
    rw [place, ← whole, flatten_append, length_append]
    omega

/-- The scan without checksums agrees with recovery on the file that recovery leaves. -/
theorem scanFrom_recovered (file : Bytes) (baseOffset : Int) {fuel : Nat}
    (enough : (scanActiveLog file baseOffset).1 ≤ fuel) :
    scanFrom (file.take (scanActiveLog file baseOffset).1) (scanActiveLog file baseOffset).1 fuel 0 =
      (placed 0 (frames recoveryFormat file), none) := by
  obtain ⟨stored, kept, place, _, _⟩ := scanActiveLog_longest file baseOffset
  have framed : ∀ batch ∈ frames recoveryFormat file, Framed scanFormat batch := fun batch member =>
    (stored batch member).framed
  have bound := flatten_length_le framed
  have whole := framesLoop_flatten framed next_nil fuel (by omega)
  have scanned := scanFrom_eq_frames (frames recoveryFormat file).flatten fuel 0
  rw [append_nil] at whole
  rw [drop_zero, whole] at scanned
  rw [kept, place]
  exact scanned

section
variable {cfg : StorageConfig} {disk other : StorageDisk}

theorem readFile_quiet {file : FileName} (same : other.read file = disk.read file) :
    Quiet (readFile file) other disk := by
  refine .observe ?_
  rw [same]

/-- A sealed segment is opened from the bytes of its files alone. -/
theorem openSealed_quiet {bases : List Int} (logs : ∀ base ∈ bases, other.read (.log base) = disk.read (.log base))
    (indexes : ∀ base ∈ bases, other.read (.index base) = disk.read (.index base))
    (times : ∀ base ∈ bases, other.read (.timeindex base) = disk.read (.timeindex base)) :
    Quiet (openSealed cfg bases) other disk := by
  induction bases with
  | nil => exact .pure _
  | cons base bases ih =>
    have opened : Quiet (openSegmentStorage base cfg true) other disk := by
      refine .bind ?_ fun log => .bind ?_ fun offsets => .bind ?_ fun stamps => .pure _
      · exact .bind (readFile_quiet (logs base mem_cons_self)) fun data => .pure _
      · exact .bind (readFile_quiet (indexes base mem_cons_self)) fun data => .pure _
      · exact .bind (readFile_quiet (times base mem_cons_self)) fun data => .pure _
    refine .bind opened fun seg => .bind (ih ?_ ?_ ?_) fun segments => .pure _
    · exact fun later member => logs later (mem_cons_of_mem _ member)
    · exact fun later member => indexes later (mem_cons_of_mem _ member)
    · exact fun later member => times later (mem_cons_of_mem _ member)

/-- A successful recovery has allocated both index files. -/
theorem allocates_of_recoverActive {base : Int} {result : SegmentStorage × Int × Nat} {ops : List (FileOp FileName)}
    (ran : (recoverActive cfg base).run disk = (.ok result, ops)) : cfg.Allocates := by
  obtain ⟨file, _, _, _, scanned, _⟩ := Program.bind_run_ok ran
  obtain ⟨_, _, _, _, cut, _⟩ := Program.bind_run_ok scanned
  obtain ⟨_, _, _, _, dropped, _⟩ := Program.bind_run_ok cut
  obtain ⟨_, _, _, _, cleared, _⟩ := Program.bind_run_ok dropped
  obtain ⟨_, _, _, offsets, indexed, _⟩ := Program.bind_run_ok cleared
  obtain ⟨_, _, _, times, _, _⟩ := Program.bind_run_ok indexed
  obtain ⟨_, sample, offsetRoom, _⟩ := openIndex_ok offsets
  obtain ⟨_, _, timeRoom, _⟩ := openIndex_ok times
  exact ⟨sample, offsetRoom, timeRoom⟩

/-- A recovery that succeeds finds the same segments and writes the same files when it runs again. -/
theorem recoverStorage_again {seg : Segment} {tail : Bytes} (stored : ∀ batch ∈ seg.batches, StoredBatch batch)
    (torn : Framing.next recoveryFormat tail = none) (last : (logBases disk).getLast? = some seg.base)
    (found : disk.read (.log seg.base) = some (seg.bytes ++ tail)) {segments : List SegmentStorage}
    {nextOffset : Int} {crcErrors : Nat} {ops : List (FileOp FileName)}
    (ran : (recoverStorage cfg).run disk = (.ok (segments, nextOffset, crcErrors), ops)) :
    (disk.applyAll ops).read (.log seg.base) = some seg.bytes ∧
      (∃ again, (recoverStorage cfg).run (disk.applyAll ops) = (.ok (segments, nextOffset, again), ops)) ∧
      ∀ base, ((disk.applyAll ops).applyAll ops).read (.log base) = (disk.applyAll ops).read (.log base) := by
  have bases : logBases disk = (logBases disk).dropLast ++ [seg.base] := (dropLast_append_getLast? _ last).symm
  obtain ⟨handles, opened, allocates⟩ : ∃ handles, (openSealed cfg (logBases disk).dropLast).run disk =
      (.ok handles, []) ∧ cfg.Allocates := by
    obtain ⟨_, _, _, observed, rest, _⟩ := Program.bind_run_ok ran
    cases observed
    rw [last] at rest
    obtain ⟨handles, before, _, opened, active, _⟩ := Program.bind_run_ok rest
    obtain ⟨_, _, _, recovered, _, _⟩ := Program.bind_run_ok active
    have quiet : Quiet (openSealed cfg (logBases disk).dropLast) disk disk :=
      openSealed_quiet (fun _ _ => rfl) (fun _ _ => rfl) fun _ _ => rfl
    have still := quiet.still
    rw [applyAll_nil] at opened
    rw [opened] at still
    cases still
    exact ⟨handles, opened, allocates_of_recoverActive recovered⟩
  obtain ⟨_, recovered, cut⟩ := recoverActive_run allocates stored found torn
  have first := recoverStorage_eq bases opened recovered
  rw [ran] at first
  obtain ⟨result, same⟩ := Prod.mk.inj first
  have sealed : ∀ base ∈ (logBases disk).dropLast, base ≠ seg.base := by
    have distinct := logBases_nodup disk
    rw [bases] at distinct
    exact fun base member => (nodup_append.mp distinct).2.2 base member seg.base mem_cons_self
  have names : logBases (disk.applyAll (recoveryOps cfg seg)) = logBases disk := by
    refine logBases_congr fun base => ?_
    by_cases active : base = seg.base
    · obtain ⟨left, present, _⟩ := read_eq_some.mp cut
      obtain ⟨content, before, _⟩ := read_eq_some.mp found
      rw [active, present, before]
      rfl
    · rw [lookup_log_recoveryOps cfg active]
  have quiet : Quiet (openSealed cfg (logBases disk).dropLast) (disk.applyAll (recoveryOps cfg seg)) disk :=
    openSealed_quiet (fun base member => read_congr (lookup_log_recoveryOps cfg (sealed base member) disk))
      (fun base member => read_congr (lookup_index_recoveryOps cfg (sealed base member) disk).1)
      fun base member => read_congr (lookup_index_recoveryOps cfg (sealed base member) disk).2
  have whole : (disk.applyAll (recoveryOps cfg seg)).read (.log seg.base) = some (seg.bytes ++ []) := by
    rw [append_nil, cut]
  obtain ⟨again, repeated, kept⟩ := recoverActive_run allocates stored whole next_nil
  have second := recoverStorage_eq (names.trans bases) (quiet.same.trans opened) repeated
  rw [same]
  refine ⟨cut, ⟨again, ?_⟩, ?_⟩
  · rw [second]
    cases outcome : rebuilt cfg seg with
    | error failure =>
      rw [outcome] at result
      cases result
    | ok active =>
      rw [outcome] at result
      cases result
      rfl
  · intro base
    by_cases active : base = seg.base
    · rw [active, kept, cut]
    · exact read_congr (lookup_log_recoveryOps cfg active _)

end

/-- Recovery of any log file keeps its longest front of whole batches, which the scan without checksums then reads
in full, and a second recovery finds the same segments and leaves every log as it is. -/
theorem recovery_sound_and_idempotent (file : Bytes) (baseOffset : Int) :
    ∃ batches : List Bytes, (∀ batch ∈ batches, StoredBatch batch) ∧
      (∀ more, scanActiveLoop file (file.length + more) 0 baseOffset = scanActiveLog file baseOffset) ∧
      (scanActiveLog file baseOffset).1 = batches.flatten.length ∧
      file.take (scanActiveLog file baseOffset).1 = batches.flatten ∧
      (∀ others : List Bytes, (∀ batch ∈ others, StoredBatch batch) → others.flatten <+: file →
        others.flatten.length ≤ (scanActiveLog file baseOffset).1) ∧
      (∀ fuel, (scanActiveLog file baseOffset).1 ≤ fuel →
        scanFrom (file.take (scanActiveLog file baseOffset).1) (scanActiveLog file baseOffset).1 fuel 0 =
          (placed 0 batches, none)) ∧
      ∀ (cfg : StorageConfig) (disk : StorageDisk), (logBases disk).getLast? = some baseOffset →
        disk.read (.log baseOffset) = some file →
        (cfg.Allocates → Mappable cfg ⟨baseOffset, batches⟩ →
          (∃ handles, (openSealed cfg (logBases disk).dropLast).run disk = (.ok handles, [])) →
          ∃ found ops, (recoverStorage cfg).run disk = (.ok found, ops)) ∧
        ∀ segments nextOffset crcErrors ops,
          (recoverStorage cfg).run disk = (.ok (segments, nextOffset, crcErrors), ops) →
          (disk.applyAll ops).read (.log baseOffset) = some batches.flatten ∧
          (∃ again, (recoverStorage cfg).run (disk.applyAll ops) = (.ok (segments, nextOffset, again), ops)) ∧
          ∀ base, ((disk.applyAll ops).applyAll ops).read (.log base) = (disk.applyAll ops).read (.log base) := by
  obtain ⟨stored, kept, place, _, longest⟩ := scanActiveLog_longest file baseOffset
  obtain ⟨_, tail, split, torn⟩ := @frames_split recoveryFormat file
  refine ⟨frames recoveryFormat file, stored, scanActiveLoop_stable file (by omega) baseOffset, place, kept, longest,
    fun fuel enough => scanFrom_recovered file baseOffset enough, ?_⟩
  intro cfg disk last found
  rw [split] at found
  refine ⟨?_, fun segments nextOffset crcErrors ops ran =>
    @recoverStorage_again cfg disk ⟨baseOffset, frames recoveryFormat file⟩ tail stored torn last found _ _ _ _ ran⟩
  rintro allocates room ⟨handles, opened⟩
  obtain ⟨_, recovered, _⟩ :=
    @recoverActive_run cfg disk tail allocates ⟨baseOffset, frames recoveryFormat file⟩ stored found torn
  have bases : logBases disk = (logBases disk).dropLast ++ [baseOffset] := (dropLast_append_getLast? _ last).symm
  have ran := recoverStorage_eq bases opened recovered
  rw [rebuilt, if_pos room] at ran
  exact ⟨_, _, ran⟩

/-- A log file with one whole batch and the start of another one. -/
def tornDisk : StorageDisk :=
  (∅ : StorageDisk).insert (.log 0) ⟨stampedBatch 7 ++ (stampedBatch 9).take 30, 0, false⟩

theorem recovery_sound_and_idempotent_of_torn :
    ∃ segments ops, (recoverStorage smallConfig).run tornDisk = (.ok (segments, 1, 0), ops) ∧
      (tornDisk.applyAll ops).read (.log 0) = some (stampedBatch 7) ∧
      ∃ again, (recoverStorage smallConfig).run (tornDisk.applyAll ops) = (.ok (segments, 1, again), ops) := by
  obtain ⟨batches, _, _, _, kept, _, _, runs⟩ :=
    recovery_sound_and_idempotent (stampedBatch 7 ++ (stampedBatch 9).take 30) 0
  have front : batches.flatten = stampedBatch 7 := by
    rw [← kept]
    decide +kernel
  have ran : (recoverStorage smallConfig).run tornDisk =
      (.ok ([activeHandle smallConfig ⟨0, [stampedBatch 7]⟩], 1, 0),
        recoveryOps smallConfig ⟨0, [stampedBatch 7]⟩) := by
    decide +kernel
  obtain ⟨read, again, _⟩ := (runs smallConfig tornDisk (by decide +kernel) (by decide +kernel)).2 _ _ _ _ ran
  rw [front] at read
  exact ⟨_, _, ran, read, again⟩

end BunnyMQ.Storage
