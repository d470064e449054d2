/-
This file shows what a re-opened storage keeps of a last log file that was cut at any byte.
-/

import BunnyMQ.Proof.Storage.Crash
import BunnyMQ.Proof.Storage.Undo

namespace BunnyMQ.Storage
open Foundation FileStore Transition StorageImpl PartitionLog List

/-- The directory keeps a prefix of the last log. The index files of that segment may hold anything or be missing,
and every other file is as it was. -/
structure TornTail (disk : StorageDisk) (base : Int) (kept : Bytes) (left : StorageDisk) : Prop where
  log : left.read (.log base) = some kept
  shorter : ∃ data, disk.read (.log base) = some data ∧ kept <+: data
  others : ∀ name, name ≠ .log base → name ≠ .index base → name ≠ .timeindex base → left.read name = disk.read name

/-- The reads return exactly the listed batches. -/
structure Serving.Returns (state : Serving) (batches : List Bytes) : Prop where
  below : ∀ offset maxBytes, offset < state.storage.earliestOffset →
    state.storage.read state.disk offset maxBytes = .error errOffsetOutOfRange
  inside : ∀ offset maxBytes, state.storage.earliestOffset ≤ offset → offset < state.storage.latestOffset →
    ∃ prior chosen rest, batches = prior ++ chosen ++ rest ∧ Chosen offset prior chosen ∧
      state.storage.read state.disk offset maxBytes = .ok (chosen.flatten, lastEnd offset chosen)
  behind : ∀ offset maxBytes, state.storage.earliestOffset ≤ offset → state.storage.latestOffset ≤ offset →
    state.storage.read state.disk offset maxBytes = .ok ([], offset)

theorem lookup_eq_none_of_read {disk left : StorageDisk} {name : FileName} (same : left.read name = disk.read name)
    (missing : disk.lookup name = none) : left.lookup name = none := by
  rw [Disk.read, Disk.read, missing, Option.map_none, Option.map_eq_none_iff] at same
  exact same

section
variable {indexed : Prop} {cfg : StorageConfig} {disk left : StorageDisk} {s : StorageImpl} {log : PartitionLog}

/-- The torn directory holds the whole batches of the prefix and a torn one. -/
theorem DiskHolds.torn (holds : DiskHolds indexed cfg disk log []) (valid : log.Valid cfg.segmentMaxBytes)
    {kept : Bytes} (torn : TornTail disk log.active.base kept left) :
    ∃ count tail, log.active.batches.take count = fitting kept.length 0 log.active.batches ∧
      DiskHolds indexed cfg left (log.cut count) tail ∧ Framing.next recoveryFormat tail = none := by
  obtain ⟨data, found, shorter⟩ := torn.shorter
  rw [holds.activeLog, append_nil, Option.some.injEq] at found
  rw [← found] at shorter
  obtain ⟨count, tail, within, split, ends, largest⟩ := Framing.exists_torn valid.active.stored shorter
  have whole : log.active.batches.take count = fitting kept.length 0 log.active.batches := by
    obtain ⟨most, short, taken, fits, longest⟩ := fitting_longest kept.length 0 log.active.batches
    have inside : ((log.active.batches.take count).flatten.length : Int) ≤ kept.length := by
      rw [split, length_append]
      omega
    have upper := longest count within (by rw [zero_add]; exact inside)
    have lower : most ≤ count := by
      rcases Nat.eq_zero_or_pos most with none | some
      · omega
      · have bound := fits some
        exact largest most (by omega) short
    rw [taken, le_antisymm upper lower]
  refine ⟨count, tail, whole, ⟨?_, ?_, ?_, ?_⟩, ends⟩
  · intro seg member
    have other := valid.distinct seg member
    rw [torn.others _ (by simpa using other) (by simp) (by simp)]
    exact holds.closedLog seg member
  · intro seg member
    have other := valid.distinct seg member
    obtain ⟨offsets, times, index, timeindex, exactly⟩ := holds.closedIndex seg member
    exact ⟨offsets, times, by rw [torn.others _ (by simp) (by simpa using other) (by simp), index],
      by rw [torn.others _ (by simp) (by simp) (by simpa using other), timeindex], exactly⟩
  · exact torn.log.trans (congrArg some split)
  · intro base absent
    rw [cut_bases] at absent
    have other : base ≠ log.active.base := fun same => absent (same ▸ log.active_mem_bases)
    have old := holds.others base absent
    exact ⟨lookup_eq_none_of_read (torn.others _ (by simpa using other) (by simp) (by simp)) old.log,
      lookup_eq_none_of_read (torn.others _ (by simp) (by simpa using other) (by simp)) old.index,
      lookup_eq_none_of_read (torn.others _ (by simp) (by simp) (by simpa using other)) old.timeindex⟩

/-- A shorter last segment keeps every offset in reach. -/
theorem PartitionLog.Seekable.cut (seekable : log.Seekable) (valid : ∀ seg ∈ log.segments, seg.Valid) (count : Nat) :
    (log.cut count).Seekable := by
  have last : log.active ∈ log.segments := mem_append_right _ (mem_singleton_self _)
  have growing := seekable.growing log.active last
  have chained := (valid log.active last).chained
  have whole := seekable.addressable log.active last
  have parts := take_append_drop count log.active.batches
  rw [← parts] at growing chained
  refine ⟨?_, ?_, ?_⟩
  · intro seg member batch present
    obtain ⟨old, found, _, kept, batches⟩ := mem_cut member
    rw [batches] at present
    exact seekable.growing old found batch (mem_of_mem_take present)
  · obtain ⟨front, _, joint⟩ := isChain_append.mp seekable.contiguous
    refine isChain_append.mpr ⟨front, isChain_singleton _, ?_⟩
    intro earlier found next same
    cases same
    exact joint earlier found log.active rfl
  · refine forall_mem_append.mpr ⟨fun seg member => seekable.addressable seg (mem_append_left _ member), ?_⟩
    refine forall_mem_singleton.mpr ⟨?_, ?_⟩
    · exact (length_dropLast_take_le log.active.batches count).trans_lt whole.positions
    · have offsets := whole.offsets
      have later : Growing (log.active.batches.drop count) :=
        fun batch member => growing batch (mem_append_right _ member)
      have behind := (later.between (chained_append.mp chained).2).1
      rw [← lastEnd_append, parts] at behind
      change lastEnd log.active.base (log.active.batches.take count) - log.active.base < 2 ^ 31
      change lastEnd log.active.base log.active.batches - log.active.base < 2 ^ 31 at offsets
      omega

/-- A seekable log returns its contents. -/
theorem Represents.returns (indexable : cfg.Indexable) (rep : Represents True cfg disk s log)
    (seekable : log.Seekable) : Serving.Returns ⟨disk, s⟩ log.contents where
  below offset maxBytes early := by
    obtain ⟨closed, segments, _⟩ := rep.handles
    exact read_below (by rw [segments]; simp) early maxBytes
  inside offset maxBytes lower upper := read_seekable indexable rep seekable lower upper maxBytes
  behind offset maxBytes lower upper := read_behind lower upper maxBytes

end

/-- In every orderly run a storage that is re-opened with a torn last log keeps exactly the whole batches of it. -/
theorem torn_tail_keeps_whole_batches (cfg : StorageConfig) (indexable : cfg.Indexable) (state : Serving)
    (reached : (serving cfg).Reaches Orderly state) (active : SegmentStorage)
    (last : state.storage.segments.getLast? = some active) (kept : Bytes) (left : StorageDisk)
    (torn : TornTail state.disk active.baseOffset kept left) :
    ∃ reopened, openServing cfg left = some reopened ∧
      reopened.storage.earliestOffset = state.storage.earliestOffset ∧
      reopened.storage.latestOffset =
        lastEnd active.baseOffset (fitting kept.length 0 (active.batches state.disk)) ∧
      reopened.Returns ((state.storage.segments.dropLast.flatMap fun seg => seg.batches state.disk) ++
        fitting kept.length 0 (active.batches state.disk)) ∧
      ∀ payload, EncodedBatch payload → reopened.storage.latestOffset + recordCountOf payload < 2 ^ 63 →
        ∃ storage ops, (reopened.storage.append cfg payload).run reopened.disk =
          (.ok (reopened.storage.latestOffset, storage), ops) := by
  obtain ⟨log, rep, readable⟩ := Serving.holds_of_reaches indexable reached
  obtain ⟨closed, segments, handles⟩ := rep.handles
  have same : active = activeHandle cfg log.active := by
    rw [segments, getLast?_concat] at last
    exact (Option.some.inj last).symm
  subst same
  obtain ⟨count, tail, whole, holds, ends⟩ := rep.holds.torn rep.valid torn
  have valid := rep.valid.cut count
  have seekable := (readable.seekable rep.valid.segment).cut rep.valid.segment count
  obtain ⟨s, opened, after⟩ := openStorage_run indexable valid holds ends
  have batches : (activeHandle cfg log.active).batches state.disk = log.active.batches :=
    batches_of_log (rep.holds.activeLog.trans (congrArg some (append_nil _))) rfl rep.valid.active.stored
  have contents : (log.cut count).contents =
      (state.storage.segments.dropLast.flatMap fun seg => seg.batches state.disk) ++
        fitting kept.length 0 log.active.batches := by
    have scanned := sealed_segments handles rep.holds.closedLog fun seg member =>
      rep.valid.segment seg (mem_append_left _ member)
    have lists := congrArg (fun entries => (entries.map Prod.snd).flatten) scanned
    simp only [map_map] at lists
    rw [segments, dropLast_concat, flatMap_def, ← whole]
    refine Eq.trans ?_ (congrArg (· ++ _) lists.symm)
    simp [contents, PartitionLog.segments, cut, flatMap_def, Function.comp_def]
  have opens : openServing cfg left = some ⟨left.applyAll (recoveryOps cfg (log.cut count).active), s⟩ := by
    rw [openServing, opened]
    rfl
  generalize left.applyAll (recoveryOps cfg (log.cut count).active) = image at opens after
  refine ⟨⟨image, s⟩, opens, ?_, ?_, ?_, ?_⟩
  · rw [after.earliestOffset, rep.earliestOffset, cut_bases]
  · rw [batches, ← whole]
    exact after.next
  · rw [batches, ← contents]
    exact after.returns indexable seekable
  · intro payload encoded room
    change s.nextOffset + _ < _ at room
    have start : (log.cut count).active.base ≤ (log.cut count).next :=
      ((seekable.growing _ (by simp [PartitionLog.segments])).between valid.active.chained).1
    have nonneg := valid.active.nonneg
    have positive := encoded.count_pos
    have next := after.next
    obtain ⟨_, moves⟩ := encoded.ends (by omega : 0 ≤ (log.cut count).next) (by omega)
    obtain ⟨longer, ran, _⟩ := append_run indexable after encoded.stored fun _ => by omega
    rw [← next] at ran
    exact ⟨longer, _, ran⟩

/-- The last log loses its last thirty bytes, and its offset index is gone. -/
def pairTorn : StorageDisk := (pairState.disk.apply (.truncate (.log 0) 70)).apply (.remove (.index 0))

/-- The first of two batches survives, and the next append gets the offset behind it. -/
theorem torn_tail_keeps_whole_batches_of_pair :
    ∃ reopened, openServing pairConfig pairTorn = some reopened ∧ reopened.storage.earliestOffset = 0 ∧
      reopened.storage.latestOffset = 1 ∧ reopened.Returns [patchBaseOffset (stampedBatch 5) 0] := by
  have file : pairState.disk.read (.log 0) = some (numbered 0 [stampedBatch 5, stampedBatch 6]).flatten := by
    decide +kernel
  have torn : TornTail pairState.disk 0 ((numbered 0 [stampedBatch 5, stampedBatch 6]).flatten.take 70) pairTorn := by
    refine ⟨by decide +kernel, ⟨_, file, take_prefix _ _⟩, fun name log index _ => ?_⟩
    simp [pairTorn, Disk.read, log, index]
  have last : pairState.storage.segments.getLast? =
      some (pairState.storage.segments.getLast (by decide +kernel)) := getLast?_eq_getLast_of_ne_nil _
  obtain ⟨reopened, opens, earliest, latest, returns, _⟩ :=
    torn_tail_keeps_whole_batches pairConfig pairConfig_indexable
    pairState pairState_reached _ last _ pairTorn torn
  refine ⟨reopened, opens, earliest.trans (by decide +kernel), latest.trans (by decide +kernel), ?_⟩
  have listed : (pairState.storage.segments.dropLast.flatMap fun seg => seg.batches pairState.disk) ++
      fitting ((numbered 0 [stampedBatch 5, stampedBatch 6]).flatten.take 70).length 0
        ((pairState.storage.segments.getLast (by decide +kernel)).batches pairState.disk) =
      [patchBaseOffset (stampedBatch 5) 0] := by decide +kernel
  rw [listed] at returns
  exact returns

/-- A scan from a negative position fails, and the read drops its error. -/
theorem segmentRead_negative {seg : SegmentStorage} {offset : Int} {position : Int32} (file : Bytes)
    (found : lookupPosition seg.offsetIdx (Int32.ofInt (offset - seg.baseOffset)) = .ok (some position))
    (negative : position.toInt < 0) (maxBytes : Int) : seg.read file offset maxBytes = .ok ([], offset) := by
  have scanned : seg.log.scan file position.toInt = [] := by
    rw [LogSegment.scan]
    cases seg.log.logSize.toNat with
    | zero => rfl
    | succ fuel =>
      rw [scanFrom]
      split
      · rw [readAt, if_pos negative]
        rfl
      · rfl
  rw [SegmentStorage.read, found]
  simp only [bind, Except.bind, scanned]
  rfl

/-- Appends that leave room in the active segment go to it. -/
theorem PartitionLog.appendAll_room {limit : Int} {log : PartitionLog} {payloads : List Bytes}
    (encoded : ∀ payload ∈ payloads, EncodedBatch payload) (nonneg : 0 ≤ log.next)
    (range : log.next + recordCounts payloads < 2 ^ 63)
    (room : (log.active.bytes.length + payloads.flatten.length : Int) < limit) :
    log.appendAll limit payloads =
      ⟨log.closedSegs, ⟨log.active.base, log.active.batches ++ numbered log.next payloads⟩⟩ := by
  induction payloads generalizing log with
  | nil =>
    rw [numbered, append_nil]
    rfl
  | cons payload payloads ih =>
    have first := encoded payload mem_cons_self
    have positive := first.count_pos
    have rest := recordCounts_nonneg payloads
    rw [recordCounts_cons] at range
    rw [flatten_cons, length_append] at room
    push_cast at room
    obtain ⟨_, ends⟩ := first.ends nonneg (by omega)
    have size : (log.pushed payload).bytes.length = log.active.bytes.length + payload.length := by
      rw [Segment.push_bytes, length_append, first.patch_length]
    have appended : log.append limit payload = ⟨log.closedSegs, log.pushed payload⟩ :=
      append_room (by rw [size]; push_cast; omega)
    have next : next ⟨log.closedSegs, log.pushed payload⟩ = log.next + recordCountOf payload := by
      rw [← ends]
      exact log.active.push_stop _
    have later := @ih ⟨log.closedSegs, log.pushed payload⟩
      (fun other listed => encoded other (mem_cons_of_mem _ listed)) (by omega) (by omega)
      (by rw [size]; push_cast; omega)
    rw [appendAll, foldl_cons, appended, ← appendAll, later, next, pushed, Segment.push, numbered,
      append_assoc]
    rfl

/-- A storage with one segment reads from it. -/
theorem read_single {s : StorageImpl} {disk : StorageDisk} {handle : SegmentStorage} {file : Bytes} {offset : Int}
    (segments : s.segments = [handle]) (lower : handle.baseOffset ≤ offset) (upper : offset < s.nextOffset)
    (found : disk.read (.log handle.baseOffset) = some file) (maxBytes : Int) :
    s.read disk offset maxBytes = handle.read file offset maxBytes := by
  simp only [StorageImpl.read, segments, if_neg (not_lt.mpr lower), if_neg (not_le.mpr upper), length_nil,
    Search.lastLoop, List.getElem?_cons_zero, found]

/-- A segment of four gigabytes with one index entry in two gigabytes. -/
def wideConfig : StorageConfig where
  segmentMaxBytes := 2 ^ 32
  indexSampleBytes := 2 ^ 31
  defaultRetentionMs := 0
  defaultRetentionBytes := -1
  pageSize := 4096
  pageSize_pos := by decide
  pageSize_lt := by decide

theorem wideConfig_indexable : wideConfig.Indexable :=
  StorageConfig.indexable_of_bounds (by decide) (by decide) (by decide) (by decide)

theorem length_sizedBytes (data : Bytes) :
    data.length ≤ (sizedBytes data).length ∧ (sizedBytes data).length ≤ data.length + 10 := by
  have bound := length_uvarintBytes 9 (UInt64.ofNat data.length)
  rw [sizedBytes, length_append]
  omega

/-- A batch of one record is little longer than the value of the record. -/
theorem length_batchBytes_single (timestampMs : Int64) (value : Bytes) :
    value.length ≤ (batchBytes 0 [⟨timestampMs, none, value, []⟩]).length ∧
      (batchBytes 0 [⟨timestampMs, none, value, []⟩]).length ≤ value.length + 109 := by
  have body (baseTimestamp offsetDelta : Int64) :
      value.length ≤ (recordBody ⟨timestampMs, none, value, []⟩ baseTimestamp offsetDelta).length ∧
        (recordBody ⟨timestampMs, none, value, []⟩ baseTimestamp offsetDelta).length ≤ value.length + 51 := by
    have stamped := length_uvarintBytes 9 (zigzag (timestampMs - baseTimestamp))
    have numbered := length_uvarintBytes 9 (zigzag offsetDelta)
    have keyed := length_uvarintBytes 9 (zigzag (-1))
    have headers := length_uvarintBytes 9 (UInt64.ofNat 0)
    have sized := length_sizedBytes value
    simp only [recordBody, keyBytes, length_append, length_cons, length_nil, flatMap_nil]
    omega
  have inside := body (headerOf 0 [⟨timestampMs, none, value, []⟩]).baseTimestamp (Int64.ofNat 0)
  have sized := length_sizedBytes (recordBody ⟨timestampMs, none, value, []⟩
    (headerOf 0 [⟨timestampMs, none, value, []⟩]).baseTimestamp (Int64.ofNat 0))
  rw [batchBytes_length, recordsBytes, recordsBytes, append_nil, recordBytes]
  omega

section
variable {wide : Bytes} (encoded : EncodedBatch wide) (once : recordCountOf wide = 1)
  (lower : 2 ^ 30 ≤ wide.length) (upper : wide.length ≤ 2 ^ 30 + 109)
include encoded once lower upper

/-- The third batch is the first one with an index entry, and its position does not fit into 31 bits. -/
theorem sampled_wide :
    (sampled wideConfig 0 (numbered 0 [wide, wide, stampedBatch 0])).offEntries =
      [⟨2, Int32.ofInt (wide.length + wide.length)⟩] := by
  have first := encoded.patch_length 0
  have second := encoded.patch_length 1
  have third : baseOffsetOf (patchBaseOffset (stampedBatch 0) 2) = 2 := by decide +kernel
  have interval : wideConfig.indexSampleBytes = 2 ^ 31 := rfl
  have one : sampled wideConfig 0 [patchBaseOffset wide 0] = ⟨[], [], wide.length⟩ := by
    rw [sampled, placed, placed, foldl_cons, foldl_nil, IndexScan.visit, if_neg (by rw [interval]; decide), first]
    simp [IndexScan.empty]
  have two : sampled wideConfig 0 [patchBaseOffset wide 0, patchBaseOffset wide 1] =
      ⟨[], [], wide.length + wide.length⟩ := by
    have pushed := sampled_push wideConfig 0 [patchBaseOffset wide 0] (patchBaseOffset wide 1)
    rw [one, IndexScan.visit] at pushed
    dsimp only at pushed
    rw [if_neg (by rw [interval]; omega), second] at pushed
    exact pushed
  have three := sampled_push wideConfig 0 [patchBaseOffset wide 0, patchBaseOffset wide 1]
    (patchBaseOffset (stampedBatch 0) 2)
  rw [two, IndexScan.visit] at three
  dsimp only at three
  rw [if_pos (by rw [interval]; omega), third] at three
  have list : numbered 0 [wide, wide, stampedBatch 0] =
      [patchBaseOffset wide 0, patchBaseOffset wide 1] ++ [patchBaseOffset (stampedBatch 0) 2] := by
    simp only [numbered, once]
    rfl
  rw [list, three]
  simp [first, second]

/-- The index of a reopened wide segment sends a read of its third batch to a negative position. -/
theorem wide_read {handle : SegmentStorage} (file : Bytes)
    (same : handle = activeHandle wideConfig ⟨0, numbered 0 [wide, wide, stampedBatch 0]⟩) (maxBytes : Int) :
    handle.read file 2 maxBytes = .ok ([], 2) := by
  have entries : handle.offsetIdx.entries = [⟨2, Int32.ofInt (wide.length + wide.length)⟩] := by
    rw [same]
    exact sampled_wide encoded once lower upper
  have mapped : handle.offsetIdx.mapped = 4096 := by
    rw [same]
    change wideConfig.allocSize offsetLayout.width = 4096
    decide +kernel
  have base : handle.baseOffset = 0 := by
    rw [same]
    rfl
  have negative : (Int32.ofInt (wide.length + wide.length)).toInt < 0 := by
    rw [Int32.toInt_ofInt]
    have size : Int32.size = 2 ^ 32 := rfl
    rw [size, Int.bmod_def]
    split <;> omega
  refine segmentRead_negative file ?_ negative maxBytes
  have probe : handle.offsetIdx.entryAt offsetLayout 0 = some ⟨2, Int32.ofInt (wide.length + wide.length)⟩ := by
    rw [IndexSegment.entryAt, mapped, if_pos (by decide), entries]
    rfl
  rw [lookupPosition, base]
  simp [entries, Search.floorLoop, probe]

/-- A storage with such a segment finds nothing at the offset of its third batch. -/
theorem wide_represented {disk : StorageDisk} {s : StorageImpl}
    (rep : Represents True wideConfig disk s ⟨[], ⟨0, numbered 0 [wide, wide, stampedBatch 0]⟩⟩)
    (next : s.nextOffset = 3) :
    s.segments = [activeHandle wideConfig ⟨0, numbered 0 [wide, wide, stampedBatch 0]⟩] ∧
      ∀ maxBytes, s.read disk 2 maxBytes = .ok ([], 2) := by
  obtain ⟨closed, segments, handles⟩ := rep.handles
  cases handles
  refine ⟨segments, fun maxBytes => ?_⟩
  rw [read_single segments (show (0 : Int) ≤ 2 by decide) (by rw [next]; decide) rep.holds.activeLog]
  exact wide_read encoded once lower upper _ rfl maxBytes

/-- A directory with a wide segment is opened again without any loss, but a read of its third batch finds nothing. -/
theorem wide_reopen : ∃ fresh full active reopened,
    openServing wideConfig ∅ = some fresh ∧
      follow (Serving.step wideConfig) fresh ([wide, wide, stampedBatch 0].map .append) = some full ∧
      full.storage.latestOffset = 3 ∧ (∀ maxBytes, full.storage.read full.disk 2 maxBytes = .ok ([], 2)) ∧
      full.storage.segments.getLast? = some active ∧
      full.disk.read (.log active.baseOffset) = some (numbered 0 [wide, wide, stampedBatch 0]).flatten ∧
      active.batches full.disk = numbered 0 [wide, wide, stampedBatch 0] ∧
      (∀ batch ∈ active.batches full.disk, StoredBatch batch) ∧
      openServing wideConfig full.disk = some reopened ∧ reopened.storage.earliestOffset = 0 ∧
      reopened.storage.latestOffset = 3 ∧
      ∀ maxBytes, reopened.storage.read reopened.disk 2 maxBytes = .ok ([], 2) := by
  have small : EncodedBatch (stampedBatch 0) := ⟨stampedBatch_encoded 0, by decide +kernel⟩
  have count : recordCountOf (stampedBatch 0) = 1 := by decide +kernel
  have length : (stampedBatch 0).length = 50 := by decide +kernel
  have all : ∀ payload ∈ [wide, wide, stampedBatch 0], EncodedBatch payload := by
    simp only [forall_mem_cons, not_mem_nil, false_imp_iff, implies_true, and_true]
    exact ⟨encoded, encoded, small⟩
  have counts : recordCounts [wide, wide, stampedBatch 0] = 3 := by
    simp only [recordCounts_cons, once, count]
    rfl
  have zero : PartitionLog.empty.next = 0 := rfl
  obtain ⟨s, ran, _⟩ := openStorage_empty wideConfig_indexable empty_absent True
  have opened : openServing wideConfig ∅ = some ⟨(∅ : StorageDisk).applyAll (newSegmentOps wideConfig 0), s⟩ := by
    rw [openServing, ran]
    rfl
  obtain ⟨full, followed, pristine⟩ := Pristine.follow all wideConfig_indexable
    (.start wideConfig_indexable opened) (by rw [zero, counts]; decide)
  have log : PartitionLog.empty.appendAll wideConfig.segmentMaxBytes [wide, wide, stampedBatch 0] =
      ⟨[], ⟨0, numbered 0 [wide, wide, stampedBatch 0]⟩⟩ :=
    appendAll_room all zero.ge (by rw [zero, counts]; decide) (by
      have limit : wideConfig.segmentMaxBytes = 2 ^ 32 := rfl
      have empty : PartitionLog.empty.active.bytes.length = 0 := rfl
      simp only [limit, empty, flatten_cons, flatten_nil, length_append, length_nil, length]
      push_cast
      omega)
  rw [log] at pristine
  have rep := pristine.rep
  have file : full.disk.read (.log 0) = some (numbered 0 [wide, wide, stampedBatch 0]).flatten :=
    rep.holds.activeLog.trans (congrArg some (append_nil _))
  have ends := (numbered_chained all (le_refl 0) (by rw [counts]; decide)).2.2
  have stored := numbered_stored all 0
  rw [counts] at ends
  obtain ⟨again, reopens, after⟩ := openStorage_run wideConfig_indexable rep.valid rep.holds Framing.next_nil
  have opens : openServing wideConfig full.disk = some ⟨full.disk.applyAll
      (recoveryOps wideConfig ⟨0, numbered 0 [wide, wide, stampedBatch 0]⟩), again⟩ := by
    rw [openServing, reopens]
    rfl
  have next : again.nextOffset = 3 := after.next.trans ends
  have batches : (activeHandle wideConfig ⟨0, numbered 0 [wide, wide, stampedBatch 0]⟩).batches full.disk =
      numbered 0 [wide, wide, stampedBatch 0] := batches_of_log file rfl stored
  have ended : full.storage.nextOffset = 3 := rep.next.trans ends
  obtain ⟨before, missed⟩ := wide_represented encoded once lower upper rep ended
  obtain ⟨single, reads⟩ := wide_represented encoded once lower upper after next
  refine ⟨_, full, activeHandle wideConfig ⟨0, numbered 0 [wide, wide, stampedBatch 0]⟩, _, opened, followed, ended,
    missed, ?_, file, batches, by rw [batches]; exact stored, opens, ?_, next, ?_⟩
  · rw [before]
    rfl
  · rw [StorageImpl.earliestOffset, single]
    rfl
  · dsimp only at reads ⊢
    exact reads

end

/-- A gigabyte of zeros in one record. -/
def gigabyteBatch : Bytes := batchBytes 0 [⟨0, none, replicate (2 ^ 30) 0, []⟩]

theorem length_gigabyteBatch : 2 ^ 30 ≤ gigabyteBatch.length ∧ gigabyteBatch.length ≤ 2 ^ 30 + 109 := by
  have bounds := length_batchBytes_single 0 (replicate (2 ^ 30) 0)
  rw [length_replicate] at bounds
  exact bounds

theorem gigabyteBatch_encoded : EncodedBatch gigabyteBatch where
  encoded := ⟨_, encodeBatch_eq (cons_ne_nil _ _)⟩
  bounded := length_gigabyteBatch.2.trans_lt (by decide)

theorem recordCountOf_gigabyteBatch : recordCountOf gigabyteBatch = 1 :=
  recordCountOf_batchBytes gigabyteBatch_encoded.bounded

/-- Nothing is torn, and the re-opened storage still loses the batch that starts behind two gigabytes. -/
theorem reopened_loses_batch_behind_two_gigabytes : ∃ fresh full active reopened,
    openServing wideConfig ∅ = some fresh ∧
      follow (Serving.step wideConfig) fresh ([gigabyteBatch, gigabyteBatch, stampedBatch 0].map .append) = some full ∧
      full.storage.segments.getLast? = some active ∧
      TornTail full.disk active.baseOffset (active.batches full.disk).flatten full.disk ∧
      openServing wideConfig full.disk = some reopened ∧ reopened.storage.latestOffset = 3 ∧
      reopened.storage.read reopened.disk 2 1000 = .ok ([], 2) ∧
      ¬ reopened.Returns (fitting (active.batches full.disk).flatten.length 0 (active.batches full.disk)) := by
  obtain ⟨fresh, full, active, reopened, opened, followed, _, _, last, file, batches, stored, reopens, earliest,
    latest, reads⟩ :=
    wide_reopen gigabyteBatch_encoded recordCountOf_gigabyteBatch length_gigabyteBatch.1 length_gigabyteBatch.2
  refine ⟨fresh, full, active, reopened, opened, followed, last, ?_, reopens, latest, reads 1000, ?_⟩
  · rw [batches]
    exact ⟨file, ⟨_, file, prefix_refl _⟩, fun _ _ _ _ => rfl⟩
  · intro returns
    obtain ⟨prior, chosen, rest, split, choice, read⟩ := returns.inside 2 1000 (by omega) (by omega)
    obtain ⟨first, more, rfl, _, _⟩ := choice.starts
    rw [reads 1000, Except.ok.injEq, Prod.mk.injEq, eq_comm] at read
    obtain ⟨_, _, taken, _⟩ := fitting_longest (active.batches full.disk).flatten.length 0 (active.batches full.disk)
    have member : first ∈ active.batches full.disk := by
      have listed : first ∈ prior ++ first :: more ++ rest := by simp
      rw [← split, taken] at listed
      exact mem_of_mem_take listed
    have long := (stored first member).long
    have none := congrArg length read.1
    rw [flatten_cons, length_append, length_nil] at none
    omega

end BunnyMQ.Storage
