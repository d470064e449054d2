/-
This file follows one segment from its creation through any number of appends.
-/

import BunnyMQ.Proof.Storage.FullScan

namespace BunnyMQ.Storage
open Foundation FileStore StorageImpl Program List

def SegmentStorage.appendAll (cfg : StorageConfig) : SegmentStorage → List Bytes → StorageProgram SegmentStorage
  | seg, [] => pure seg
  | seg, batch :: later => do
      let (_, seg) ← seg.append cfg batch
      seg.appendAll cfg later

/-- The payloads get contiguous base offsets from the base of the segment on. -/
def numbered : Int → List Bytes → List Bytes
  | _, [] => []
  | base, payload :: later => patchBaseOffset payload base :: numbered (base + recordCountOf payload) later

def recordCounts (payloads : List Bytes) : Int := (payloads.map recordCountOf).sum

theorem recordCounts_cons (payload : Bytes) (payloads : List Bytes) :
    recordCounts (payload :: payloads) = recordCountOf payload + recordCounts payloads := rfl

theorem recordCounts_nonneg (payloads : List Bytes) : 0 ≤ recordCounts payloads := by
  induction payloads with
  | nil => exact le_refl 0
  | cons payload payloads ih =>
    have count : 0 ≤ recordCountOf payload := Int.natCast_nonneg _
    rw [recordCounts_cons]
    omega

section
variable {payloads : List Bytes} (encoded : ∀ payload ∈ payloads, EncodedBatch payload)
include encoded

theorem numbered_stored (base : Int) : ∀ batch ∈ numbered base payloads, StoredBatch batch := by
  induction payloads generalizing base with
  | nil => simp [numbered]
  | cons payload payloads ih =>
    intro batch member
    rcases mem_cons.mp member with rfl | later
    · exact (encoded payload mem_cons_self).stored.patch base
    · exact ih (fun other listed => encoded other (mem_cons_of_mem _ listed)) _ batch later

/-- Numbered batches form a growing chain that ends behind their records. -/
theorem numbered_chained {base : Int} (nonneg : 0 ≤ base) (range : base + recordCounts payloads < 2 ^ 63) :
    Chained base (numbered base payloads) ∧ Growing (numbered base payloads) ∧
      lastEnd base (numbered base payloads) = base + recordCounts payloads := by
  induction payloads generalizing base with
  | nil => exact ⟨trivial, by simp [Growing, numbered], (add_zero base).symm⟩
  | cons payload payloads ih =>
    have first := encoded payload mem_cons_self
    have positive := first.count_pos
    have rest := recordCounts_nonneg payloads
    rw [recordCounts_cons] at range ⊢
    obtain ⟨starts, ends⟩ := first.ends nonneg (by omega)
    obtain ⟨chained, growing, last⟩ := ih (fun other listed => encoded other (mem_cons_of_mem _ listed))
      (by omega : 0 ≤ base + recordCountOf payload) (by omega)
    refine ⟨⟨starts, by rw [ends]; exact chained⟩, ?_, ?_⟩
    · intro batch member
      rcases mem_cons.mp member with rfl | later
      · omega
      · exact growing batch later
    · change lastEnd (endOffsetOf (patchBaseOffset payload base)) (numbered (base + recordCountOf payload) payloads) = _
      rw [ends, last]
      omega

/-- Every record takes at least seven bytes. -/
theorem numbered_dense (base : Int) : 7 * recordCounts payloads ≤ (numbered base payloads).flatten.length := by
  induction payloads generalizing base with
  | nil => exact le_refl 0
  | cons payload payloads ih =>
    have first := encoded payload mem_cons_self
    have count := first.count_le
    have rest := ih (fun other listed => encoded other (mem_cons_of_mem _ listed)) (base + recordCountOf payload)
    rw [recordCounts_cons, numbered, flatten_cons, length_append, first.patch_length]
    push_cast
    omega

end

/-- The index entries and the sampling counter of the segment. -/
def SegmentStorage.indexScan (seg : SegmentStorage) : IndexScan :=
  ⟨seg.offsetIdx.entries, seg.timeIdx.entries, seg.bytesSinceLastIndex⟩

/-- The handle and its log file hold exactly the batches of the segment, and its indexes hold their samples. -/
structure Follows (cfg : StorageConfig) (disk : StorageDisk) (handle : SegmentStorage) (seg : Segment) : Prop where
  base : handle.baseOffset = seg.base
  log : handle.log = ⟨seg.base, seg.bytes.length, false⟩
  scan : handle.indexScan = sampled cfg seg.base seg.batches
  mapped : (handle.offsetIdx.entries.length * offsetLayout.width : Nat) ≤ handle.offsetIdx.mapped
  file : disk.read (.log seg.base) = some seg.bytes

theorem Follows.readable {cfg : StorageConfig} {disk : StorageDisk} {handle : SegmentStorage} {seg : Segment}
    (follows : Follows cfg disk handle seg) : ReadableHandle cfg handle seg where
  base := follows.base
  size := by rw [follows.log]
  entries := congrArg IndexScan.offEntries follows.scan
  mapped := follows.mapped

theorem IndexSegment.append_inv {Entry : Type} {layout : EntryLayout Entry} {index after : IndexSegment Entry}
    {entry : Entry} (ran : index.append layout entry = .ok after) :
    after = { index with entries := index.entries ++ [entry] } ∧
      ((index.entries.length + 1) * layout.width : Nat) ≤ index.mapped := by
  unfold IndexSegment.append at ran
  split at ran
  · cases ran
  split at ran
  · cases ran
  next inside =>
  cases ran
  exact ⟨rfl, not_lt.mp inside⟩

section
variable {cfg : StorageConfig} {disk : StorageDisk} {handle : SegmentStorage} {ops : List (FileOp FileName)}

/-- The handle is that of the batches, their entries fit into the mapping, and the log file holds the batches. -/
structure Grown (cfg : StorageConfig) (disk : StorageDisk) (handle : SegmentStorage) (seg : Segment) : Prop where
  handle : handle = activeHandle cfg seg
  room : Mappable cfg seg
  file : disk.read (.log seg.base) = some seg.bytes

theorem Grown.follows {seg : Segment} (grown : Grown cfg disk handle seg) : Follows cfg disk handle seg := by
  obtain ⟨rfl, room, file⟩ := grown
  exact ⟨rfl, rfl, rfl, room.1, file⟩

/-- A new segment holds no batch. -/
theorem grown_new {base : Int} (absent : Absent disk base)
    (ran : (newSegmentStorage base cfg).run disk = (.ok handle, ops)) :
    Grown cfg (disk.applyAll ops) handle ⟨base, []⟩ := by
  obtain ⟨created, allocates, file⟩ := newSegmentStorage_ok absent.log ran
  have index : disk.read (.index base) = none := by rw [Disk.read, absent.index]; rfl
  have timeindex : disk.read (.timeindex base) = none := by rw [Disk.read, absent.timeindex]; rfl
  rw [index, timeindex] at created
  exact ⟨created, ⟨allocates.offsets.le, allocates.times.le⟩, file⟩

/-- An append that succeeds adds its batch and the samples of it. -/
theorem Grown.append {seg : Segment} (grown : Grown cfg disk handle seg) {batch : Bytes} {position : Int}
    {after : SegmentStorage} (ran : (handle.append cfg batch).run disk = (.ok (position, after), ops)) :
    Grown cfg (disk.applyAll ops) after (seg.push batch) := by
  obtain ⟨rfl, room, stored⟩ := grown
  have file : (disk.applyAll [.append (.log seg.base) batch]).read (.log seg.base) = some (seg.push batch).bytes := by
    rw [Segment.push_bytes]
    exact read_append stored batch
  have size : (seg.bytes.length : Int) + batch.length = ((seg.push batch).bytes.length : Nat) := by
    rw [Segment.push_bytes, length_append, Nat.cast_add]
  have pushed : sampled cfg (seg.push batch).base (seg.push batch).batches = _ :=
    sampled_push cfg seg.base seg.batches batch
  rw [IndexScan.visit] at pushed
  have written : ((activeHandle cfg seg).log.append batch).run disk =
      (.ok ((seg.bytes.length : Int), ⟨seg.base, ((seg.push batch).bytes.length : Nat), false⟩),
        [.append (.log seg.base) batch]) := by
    rw [← size]
    rfl
  obtain ⟨_, _, _, appended, indexed, rfl⟩ := bind_run_ok ran
  rw [written] at appended
  cases appended
  dsimp only at indexed
  split at indexed
  · cases indexed
  split at indexed
  · next due =>
    change (sampled cfg seg.base seg.batches).bytesSince ≥ cfg.indexSampleBytes at due
    rw [if_pos due] at pushed
    obtain ⟨offsetIdx, _, _, offsets, stamped, rfl⟩ := bind_run_ok indexed
    obtain ⟨timeIdx, _, _, times, returned, rfl⟩ := bind_run_ok stamped
    obtain ⟨entered, rfl⟩ := ofExcept_run_ok offsets
    obtain ⟨timed, rfl⟩ := ofExcept_run_ok times
    obtain ⟨rfl, offsetRoom⟩ := IndexSegment.append_inv entered
    obtain ⟨rfl, timeRoom⟩ := IndexSegment.append_inv timed
    have stamps : (activeHandle cfg seg).timeIdx.entries.length = _ := sampled_lengths cfg seg.base seg.batches
    cases returned
    refine ⟨?_, ?_, file⟩
    · rw [activeHandle, activeHandle, pushed]
      rfl
    · rw [Mappable, pushed]
      simp only [length_append, length_singleton]
      rw [stamps] at timeRoom
      exact ⟨by exact_mod_cast offsetRoom, by exact_mod_cast timeRoom⟩
  · next early =>
    change ¬ (sampled cfg seg.base seg.batches).bytesSince ≥ cfg.indexSampleBytes at early
    rw [if_neg early] at pushed
    cases indexed
    refine ⟨?_, ?_, file⟩
    · rw [activeHandle, activeHandle, pushed]
      rfl
    · rw [Mappable, pushed]
      exact room

theorem Grown.appendAll {seg : Segment} {batches : List Bytes} {after : SegmentStorage}
    (grown : Grown cfg disk handle seg) (ran : (handle.appendAll cfg batches).run disk = (.ok after, ops)) :
    Grown cfg (disk.applyAll ops) after ⟨seg.base, seg.batches ++ batches⟩ := by
  induction batches generalizing disk handle seg ops with
  | nil =>
    cases ran
    rw [append_nil]
    exact grown
  | cons batch batches ih =>
    obtain ⟨⟨_, middle⟩, _, _, first, later, rfl⟩ := bind_run_ok ran
    have all := ih (grown.append first) later
    rw [Segment.push, append_assoc] at all
    rw [applyAll_append]
    exact all

end

/-- The answer starts with the batch that contains the offset. It is the longest run of batches from there on
within the limit, and it has at least one batch. -/
def LongestRun (batches : List Bytes) (offset maxBytes : Int) (answer : Bytes × Int) : Prop :=
  ∃ before first later, batches = before ++ first :: later ∧
    (∀ batch ∈ batches, (baseOffsetOf batch ≤ offset ∧ offset < endOffsetOf batch) ↔ batch = first) ∧
    ∃ count ≤ later.length, answer = ((first :: later.take count).flatten, lastEnd offset (first :: later.take count)) ∧
      (0 < count → ((first :: later.take count).flatten.length : Int) ≤ maxBytes) ∧
      ∀ more ≤ later.length, ((first :: later.take more).flatten.length : Int) ≤ maxBytes → more ≤ count

/-- Only one batch of a growing chain contains an offset. -/
theorem Growing.containing_unique {start offset : Int} {batches before later : List Bytes} {first : Bytes}
    (growing : Growing batches) (chained : Chained start batches) (split : batches = before ++ first :: later)
    (inside : baseOffsetOf first ≤ offset ∧ offset < endOffsetOf first) {batch : Bytes} (member : batch ∈ batches)
    (contains : baseOffsetOf batch ≤ offset ∧ offset < endOffsetOf batch) : batch = first := by
  rw [split] at growing chained member
  obtain ⟨front, starts, back⟩ := chained_append.mp chained
  have later : Growing later := fun other listed => growing other (by simp [listed])
  rcases mem_append.mp member with earlier | listed
  · have ends := (growing.append_left.between front).2 batch earlier
    omega
  · rcases mem_cons.mp listed with same | behind
    · exact same
    · have starts := (later.between back).2 batch behind
      omega

/-- The scan returns the longest run of batches within the limit. -/
theorem scanRead_longest {start offset : Int} {batches : List Bytes} (growing : Growing batches)
    (chained : Chained start batches) (lower : start ≤ offset) (upper : offset < lastEnd start batches)
    (maxBytes : Int) :
    LongestRun batches offset maxBytes (scanRead offset maxBytes batches) := by
  obtain ⟨before, first, later, split, ended, starts, ahead⟩ := growing.exists_containing chained lower upper
  have inside := ahead first mem_cons_self
  obtain ⟨count, short, taken, fits, longest⟩ := fitting_longest maxBytes first.length later
  have total : ∀ more, ((first :: later.take more).flatten.length : Int) =
      first.length + ((later.take more).flatten.length : Nat) := by
    intro more
    rw [flatten_cons, length_append, Nat.cast_add]
  refine ⟨before, first, later, split, ?_, count, short, ?_, ?_, ?_⟩
  · intro batch member
    constructor
    · exact growing.containing_unique chained split ⟨starts, inside⟩ member
    · rintro rfl
      exact ⟨starts, inside⟩
  · rw [split, scanRead_append ended, scanRead_cons inside, taken]
  · intro some
    rw [total]
    exact fits some
  · intro more within fitsMore
    rw [total] at fitsMore
    exact longest more within fitsMore

/-- A read of a segment returns what a scan from its first byte returns, for every sampling of its index. -/
theorem read_equals_full_scan (cfg : StorageConfig) (base : Int) (nonneg : 0 ≤ base) (payloads : List Bytes)
    (encoded : ∀ payload ∈ payloads, EncodedBatch payload) (range : base + recordCounts payloads < 2 ^ 63)
    (positions : (numbered base payloads).dropLast.flatten.length < 2 ^ 31) (disk : StorageDisk)
    (absent : Absent disk base) (handle : SegmentStorage) (ops : List (FileOp FileName))
    (ran : (newSegmentStorage base cfg >>= fun seg => seg.appendAll cfg (numbered base payloads)).run disk =
      (.ok handle, ops)) :
    ∃ file, (disk.applyAll ops).read (.log base) = some file ∧ ∀ offset maxBytes, base ≤ offset →
      handle.read file offset maxBytes = readLoop offset maxBytes (handle.log.scan file 0) [] offset ∧
      (base + recordCounts payloads ≤ offset → handle.read file offset maxBytes = .ok ([], offset)) ∧
      (offset < base + recordCounts payloads → ∃ answer, handle.read file offset maxBytes = .ok answer ∧
        LongestRun (numbered base payloads) offset maxBytes answer) := by
  obtain ⟨created, _, _, opened, appended, rfl⟩ := bind_run_ok ran
  have follows := ((grown_new absent opened).appendAll appended).follows
  obtain ⟨chained, growing, stop⟩ := numbered_chained encoded nonneg range
  have stored := numbered_stored encoded base
  have dense := numbered_dense encoded base
  have records := recordCounts_nonneg payloads
  have wide : int64 base = base := int64_of_range (by omega) (by omega)
  have valid : Segment.Valid ⟨base, numbered base payloads⟩ := ⟨nonneg, wide, stored, chained⟩
  have addressable := valid.addressable positions (by
    change 7 * (lastEnd base (numbered base payloads) - base) ≤ ((numbered base payloads).flatten.length : Int)
    omega)
  have size : handle.log.logSize = ((numbered base payloads).flatten.length : Nat) := by rw [follows.log]; rfl
  rw [applyAll_append]
  refine ⟨_, follows.file, ?_⟩
  intro offset maxBytes lower
  have read := segmentRead_eq follows.readable valid growing addressable lower maxBytes
  have scanned := @readLoop_eq offset maxBytes _ (fun batch member => (stored batch member).long)
    (growing.rising chained) 0
  rw [← scan_zero (fun batch member => (stored batch member).framed) size] at scanned
  refine ⟨read.trans scanned.symm, ?_, ?_⟩
  · intro past
    rw [← stop] at past
    exact read.trans (congrArg Except.ok (scanRead_ended fun batch member =>
      ((growing.between chained).2 batch member).2.trans past))
  · intro within
    rw [← stop] at within
    exact ⟨_, read, scanRead_longest growing chained lower within maxBytes⟩

/-- One record, and then two records of which the read asks for the second one. -/
def samplePayloads : List Bytes :=
  [batchBytes 0 [⟨7, none, [1], []⟩], batchBytes 0 [⟨8, some [2], [], []⟩, ⟨9, none, [3], []⟩]]

theorem samplePayloads_encoded : ∀ payload ∈ samplePayloads, EncodedBatch payload := by
  intro payload member
  simp only [samplePayloads, mem_cons, not_mem_nil, or_false] at member
  rcases member with rfl | rfl
  · exact ⟨⟨_, encodeBatch_eq (by simp)⟩, by decide +kernel⟩
  · exact ⟨⟨_, encodeBatch_eq (by simp)⟩, by decide +kernel⟩

theorem samplePayloads_appended : ∃ handle ops,
    (newSegmentStorage 5 smallConfig >>= fun seg => seg.appendAll smallConfig (numbered 5 samplePayloads)).run ∅ =
      (.ok handle, ops) := by
  have succeeds : ((newSegmentStorage 5 smallConfig >>= fun seg =>
      seg.appendAll smallConfig (numbered 5 samplePayloads)).run ∅).1.toOption.isSome := by decide +kernel
  cases ran : (newSegmentStorage 5 smallConfig >>= fun seg =>
      seg.appendAll smallConfig (numbered 5 samplePayloads)).run ∅ with
  | mk outcome ops =>
    rw [ran] at succeeds
    cases outcome with
    | error failure => cases succeeds
    | ok handle => exact ⟨handle, ops, rfl⟩

/-- The second batch is sampled, and a read inside it starts there. -/
theorem read_equals_full_scan_inside_batch :
    ∃ handle ops file answer,
      (newSegmentStorage 5 smallConfig >>= fun seg => seg.appendAll smallConfig (numbered 5 samplePayloads)).run ∅ =
        (.ok handle, ops) ∧ ((∅ : StorageDisk).applyAll ops).read (.log 5) = some file ∧
      handle.read file 7 0 = .ok answer ∧ LongestRun (numbered 5 samplePayloads) 7 0 answer := by
  obtain ⟨handle, ops, ran⟩ := samplePayloads_appended
  obtain ⟨file, found, reads⟩ := read_equals_full_scan smallConfig 5 (by decide) samplePayloads
    samplePayloads_encoded (by decide +kernel) (by decide +kernel) ∅ (empty_absent 5) handle ops ran
  obtain ⟨_, _, inside⟩ := reads 7 0 (by decide)
  obtain ⟨answer, read, longest⟩ := inside (by decide +kernel)
  exact ⟨handle, ops, file, answer, ran, found, read, longest⟩

/-! ## Rebuilt indexes -/

/-- An append to a segment looks at nothing on the disk. -/
theorem SegmentStorage.append_blind (cfg : StorageConfig) (seg : SegmentStorage) (batch : Bytes) :
    (seg.append cfg batch).Blind := by
  refine Program.Blind.bind ?_ ?_
  · intro disk other
    unfold LogSegment.append
    split <;> rfl
  · intro written disk other
    dsimp only
    split
    · rfl
    · split
      · exact Program.Blind.bind (fun _ _ => rfl) (fun _ => Program.Blind.bind (fun _ _ => rfl) fun _ _ _ => rfl)
          disk other
      · rfl

theorem SegmentStorage.appendAll_blind (cfg : StorageConfig) (seg : SegmentStorage) (batches : List Bytes) :
    (seg.appendAll cfg batches).Blind := by
  induction batches generalizing seg with
  | nil => exact fun _ _ => rfl
  | cons batch later ih => exact (seg.append_blind cfg batch).bind fun answer => ih answer.2

/-- Both segments have the same index entries and the same counter, now and after all further appends. -/
def SameIndexes (cfg : StorageConfig) (first second : SegmentStorage) : Prop :=
  first.indexScan = second.indexScan ∧ ∀ (later : List Bytes) (disk other : StorageDisk),
    ((first.appendAll cfg later).run disk).1.map SegmentStorage.indexScan =
      ((second.appendAll cfg later).run other).1.map SegmentStorage.indexScan

theorem SameIndexes.refl (cfg : StorageConfig) (seg : SegmentStorage) : SameIndexes cfg seg seg :=
  ⟨rfl, fun later disk other => by rw [seg.appendAll_blind cfg later disk other]⟩

/-- The indexes that recovery or a truncation computes from the log are those that the appends have built, and they
stay the same under all further appends. -/
theorem rebuilt_indexes_equal_incremental (cfg : StorageConfig) (base : Int) (batches : List Bytes)
    (encoded : ∀ batch ∈ batches, ∃ payload number, EncodedBatch payload ∧ batch = patchBaseOffset payload number)
    (disk : StorageDisk) (absent : Absent disk base) (handle : SegmentStorage) (ops : List (FileOp FileName))
    (ran : (newSegmentStorage base cfg >>= fun seg => seg.appendAll cfg batches).run disk = (.ok handle, ops)) :
    (∃ again, ((rebuildSegmentIndexes cfg handle).run (disk.applyAll ops)).1 = .ok again ∧
      SameIndexes cfg again handle) ∧
    ∀ (left : StorageDisk) (closed : List Int) (handles : List SegmentStorage),
      left.read (.log base) = (disk.applyAll ops).read (.log base) → logBases left = closed ++ [base] →
      (openSealed cfg closed).run left = (.ok handles, []) →
      ∃ again next crcErrors, ((recoverStorage cfg).run left).1 = .ok (handles ++ [again], next, crcErrors) ∧
        SameIndexes cfg again handle := by
  obtain ⟨created, _, _, opened, appended, rfl⟩ := bind_run_ok ran
  obtain ⟨_, allocates, _⟩ := newSegmentStorage_ok absent.log opened
  obtain ⟨rfl, room, file⟩ := (grown_new absent opened).appendAll appended
  rw [← applyAll_append, nil_append] at file
  rw [nil_append] at room ⊢
  have stored : ∀ batch ∈ batches, StoredBatch batch := by
    intro batch member
    obtain ⟨payload, number, batched, rfl⟩ := encoded batch member
    exact batched.stored.patch number
  have fits : rebuilt cfg ⟨base, batches⟩ = .ok (activeHandle cfg ⟨base, batches⟩) := if_pos room
  constructor
  · have again := @rebuildSegmentIndexes_run cfg allocates ⟨base, batches⟩
      (fun batch member => (stored batch member).scanned) _ file (activeHandle cfg ⟨base, batches⟩) rfl rfl
    exact ⟨_, by rw [again, fits], .refl cfg _⟩
  · intro left closed handles same bases sealedOpen
    have found : left.read (.log base) = some (Segment.bytes ⟨base, batches⟩ ++ []) := by
      rw [same, file, append_nil]
    obtain ⟨crcErrors, recovered, _⟩ := @recoverActive_run cfg left [] allocates ⟨base, batches⟩ stored found
      Framing.next_nil
    have again := @recoverStorage_eq cfg left closed handles ⟨base, batches⟩ crcErrors bases sealedOpen recovered
    exact ⟨_, _, _, by rw [again, fits]; rfl, .refl cfg _⟩

/-- Both rebuilds give the indexes of two batches, of which the second one is sampled. -/
theorem rebuilt_indexes_equal_second_sampled : ∃ handle ops again recovered next crcErrors,
    (newSegmentStorage 5 smallConfig >>= fun seg => seg.appendAll smallConfig (numbered 5 samplePayloads)).run ∅ =
      (.ok handle, ops) ∧
    ((rebuildSegmentIndexes smallConfig handle).run ((∅ : StorageDisk).applyAll ops)).1 = .ok again ∧
    SameIndexes smallConfig again handle ∧
    ((recoverStorage smallConfig).run ((∅ : StorageDisk).applyAll ops)).1 = .ok ([recovered], next, crcErrors) ∧
    SameIndexes smallConfig recovered handle := by
  obtain ⟨handle, ops, ran⟩ := samplePayloads_appended
  have encoded : ∀ batch ∈ numbered 5 samplePayloads,
      ∃ payload number, EncodedBatch payload ∧ batch = patchBaseOffset payload number := by
    intro batch member
    simp only [numbered, samplePayloads, mem_cons, not_mem_nil, or_false] at member
    rcases member with rfl | rfl
    · exact ⟨_, _, samplePayloads_encoded _ mem_cons_self, rfl⟩
    · exact ⟨_, _, samplePayloads_encoded _ (mem_cons_of_mem _ mem_cons_self), rfl⟩
  obtain ⟨⟨again, rebuilds, same⟩, recovers⟩ := rebuilt_indexes_equal_incremental smallConfig 5
    (numbered 5 samplePayloads) encoded ∅ (empty_absent 5) handle ops ran
  have written : ops = ((newSegmentStorage 5 smallConfig >>= fun seg =>
      seg.appendAll smallConfig (numbered 5 samplePayloads)).run ∅).2 := by rw [ran]
  have bases : logBases ((∅ : StorageDisk).applyAll ops) = [] ++ [5] := by
    rw [written]
    decide +kernel
  obtain ⟨recovered, next, crcErrors, found, agrees⟩ := recovers _ [] [] rfl bases rfl
  exact ⟨handle, ops, again, recovered, next, crcErrors, ran, rebuilds, same, found, agrees⟩

end BunnyMQ.Storage
