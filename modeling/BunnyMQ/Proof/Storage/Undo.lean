/-
This file shows that a truncation leaves the state that the kept batches alone would have built.
-/

import BunnyMQ.Library.Footprint
import BunnyMQ.Proof.Storage.Progress
import BunnyMQ.Proof.Storage.SegmentAppends
import BunnyMQ.Proof.Storage.Touched

namespace BunnyMQ.Storage
open Foundation FileStore Transition StorageImpl SegmentStorage PartitionLog Serving
variable {extra : List Bytes} {newer : List Segment}

section
open Program

theorem readFile_byData (file : FileName) : ByData (readFile file) := by
  refine byData_observe fun first second same => ?_
  rw [same file]

theorem openLogSegment_byData (base : Int) : ByData (openLogSegment base true) :=
  (byData_perform _).bind fun _ => (readFile_byData _).bind fun _ => byData_pure _

theorem openIndex_byData {Entry : Type} (layout : EntryLayout Entry) (file : FileName) (base : Int)
    (cfg : StorageConfig) : ByData (openIndex layout file base cfg) := by
  refine (byData_perform _).bind fun _ => (readFile_byData _).bind fun data => ?_
  dsimp only
  split
  · exact byData_fail _
  split
  · exact byData_fail _
  split
  · exact (byData_perform _).bind fun _ => (byData_perform _).bind fun _ => byData_pure _
  · exact (byData_pure _).bind fun _ => (byData_perform _).bind fun _ => byData_pure _

theorem newSegmentStorage_byData (base : Int) (cfg : StorageConfig) : ByData (newSegmentStorage base cfg) :=
  (openLogSegment_byData _).bind fun _ => (openIndex_byData _ _ _ _).bind fun _ =>
    (openIndex_byData _ _ _ _).bind fun _ => byData_pure _

theorem SegmentStorage.append_byData (seg : SegmentStorage) (cfg : StorageConfig) (batch : Bytes) :
    ByData (seg.append cfg batch) := by
  have written : ByData (seg.log.append batch) := by
    unfold LogSegment.append
    split
    · exact byData_fail _
    · exact (byData_perform _).bind fun _ => byData_pure _
  refine written.bind fun answer => ?_
  dsimp only
  split
  · exact byData_fail _
  split
  · exact (byData_ofExcept _).bind fun _ => (byData_ofExcept _).bind fun _ => byData_pure _
  · exact byData_pure _

theorem IndexSegment.seal_byData {Entry : Type} (layout : EntryLayout Entry) (file : FileName)
    (index : IndexSegment Entry) : ByData (index.seal layout file) := by
  refine (byData_perform _).bind fun _ => ?_
  split
  · split
    · exact (byData_fail _).bind fun _ => (byData_perform _).bind fun _ => byData_pure _
    · exact (byData_perform _).bind fun _ => byData_pure _
  · exact byData_pure _

theorem SegmentStorage.seal_byData (seg : SegmentStorage) : ByData seg.seal :=
  (IndexSegment.seal_byData _ _ _).bind fun _ => (IndexSegment.seal_byData _ _ _).bind fun _ =>
    (byData_perform _).bind fun _ => byData_pure _

theorem roll_byData (s : StorageImpl) (cfg : StorageConfig) : ByData (s.roll cfg) := by
  unfold StorageImpl.roll
  split
  · exact byData_fail _
  · exact (seal_byData _).bind fun _ => (newSegmentStorage_byData _ _).bind fun _ => byData_pure _

/-- An append sees only the bytes of the files, whatever bytes it appends. -/
theorem append_byData (s : StorageImpl) (cfg : StorageConfig) (batch : Bytes) : ByData (s.append cfg batch) := by
  unfold StorageImpl.append
  split
  · exact byData_fail _
  split
  · exact byData_fail _
  split
  · exact byData_fail _
  · refine (SegmentStorage.append_byData _ _ _).bind fun answer => ?_
    dsimp only
    split
    · exact (roll_byData _ _).bind fun _ => byData_pure _
    · exact byData_pure _

end

theorem readStorage_congr {first second : StorageDisk} (same : SameData first second) (s : StorageImpl)
    (offset maxBytes : Int) : s.read first offset maxBytes = s.read second offset maxBytes := by
  unfold StorageImpl.read
  simp only [same _]

inductive LogCall where
  | append (batch : Bytes)
  | read (offset maxBytes : Int)

inductive LogAnswer where
  | appended (answer : Except GoError Int)
  | read (answer : Except GoError (Bytes × Int))

/-- The answers to the calls up to the first append that fails. -/
def Serving.answers (cfg : StorageConfig) : Serving → List LogCall → List LogAnswer
  | _, [] => []
  | state, .read offset maxBytes :: rest =>
    .read (state.storage.read state.disk offset maxBytes) :: Serving.answers cfg state rest
  | state, .append batch :: rest =>
    match (state.storage.append cfg batch).run state.disk with
    | (.ok (base, storage), ops) =>
      .appended (.ok base) :: Serving.answers cfg ⟨state.disk.applyAll ops, storage⟩ rest
    | (.error failure, _) => [.appended (.error failure)]

/-- Equal storages over equal bytes give equal answers to every list of calls. -/
theorem Serving.answers_congr (cfg : StorageConfig) (calls : List LogCall) {first second : Serving}
    (storage : first.storage = second.storage) (same : SameData first.disk second.disk) :
    first.answers cfg calls = second.answers cfg calls := by
  induction calls generalizing first second with
  | nil => rfl
  | cons call calls ih =>
    cases call with
    | read offset maxBytes =>
      rw [answers, answers, storage, readStorage_congr same, ih storage same]
    | append batch =>
      have ran := append_byData second.storage cfg batch _ _ same
      rw [answers, answers, storage, ran]
      cases outcome : (second.storage.append cfg batch).run second.disk with
      | mk answer ops =>
        cases answer with
        | error failure => rfl
        | ok found =>
          exact congrArg _ (@ih ⟨first.disk.applyAll ops, found.2⟩ ⟨second.disk.applyAll ops, found.2⟩ rfl
            (same.applyAll ops))

/-- The storage that appends alone build over the log. -/
def PartitionLog.storage (cfg : StorageConfig) (log : PartitionLog) : StorageImpl :=
  openedStorage cfg
    (log.closedSegs.map (fun seg => sealHandle (activeHandle cfg seg)) ++ [activeHandle cfg log.active]) log.next

/-- The index files of the active segment are allocated, and only their mappings hold entries. -/
structure BlankIndexes (cfg : StorageConfig) (disk : StorageDisk) (base : Int) : Prop where
  index : disk.read (.index base) = some (List.replicate (cfg.allocSize offsetLayout.width).toNat 0)
  timeindex : disk.read (.timeindex base) = some (List.replicate (cfg.allocSize timeLayout.width).toNat 0)

/-- The state is the one that appends alone build over the log. -/
structure Pristine (cfg : StorageConfig) (state : Serving) (log : PartitionLog) : Prop where
  storage : state.storage = log.storage cfg
  rep : Represents True cfg state.disk state.storage log
  growing : ∀ seg ∈ log.segments, Growing seg.batches
  blank : BlankIndexes cfg state.disk log.active.base
  others : ∀ name : FileName, name.base? = none → state.disk.lookup name = none

theorem blankIndexes_indexFileOps (cfg : StorageConfig) {disk : StorageDisk} {base : Int}
    (index : disk.lookup (.index base) = none) (timeindex : disk.lookup (.timeindex base) = none) :
    BlankIndexes cfg (disk.applyAll (indexFileOps cfg base)) base := by
  constructor
  · simp [indexFileOps, indexOps, Disk.read, index, File.empty, File.truncate]
  · simp [indexFileOps, indexOps, Disk.read, timeindex, File.empty, File.truncate]

theorem blankIndexes_newSegmentOps (cfg : StorageConfig) {disk : StorageDisk} {base : Int} (absent : Absent disk base) :
    BlankIndexes cfg (disk.applyAll (newSegmentOps cfg base)) base := by
  rw [newSegmentOps, applyAll_cons]
  exact blankIndexes_indexFileOps cfg (by simpa using absent.index) (by simpa using absent.timeindex)

/-- An append keeps the index files of the active segment or creates those of the next one. -/
theorem BlankIndexes.append {indexed : Prop} {cfg : StorageConfig} {disk : StorageDisk} {log : PartitionLog}
    {batch : Bytes} (blank : BlankIndexes cfg disk log.active.base) (holds : DiskHolds indexed cfg disk log [])
    (distinct : ∀ seg ∈ log.closedSegs, seg.base ≠ log.active.base)
    (valid : (log.append cfg.segmentMaxBytes batch).Valid cfg.segmentMaxBytes) :
    BlankIndexes cfg (disk.applyAll (appendOps cfg log batch)) (log.append cfg.segmentMaxBytes batch).active.base := by
  by_cases full : ((log.pushed batch).bytes.length : Int) ≥ cfg.segmentMaxBytes
  · rw [append_full full] at valid ⊢
    have sealedDisk := (holds.push distinct (patchBaseOffset batch log.next)).seal distinct
    rw [appendOps_full full, applyAll_cons, applyAll_append]
    exact blankIndexes_newSegmentOps cfg (sealedDisk.others _ valid.fresh)
  · rw [append_room full, appendOps_room full, applyAll_cons, applyAll_nil]
    exact ⟨(read_congr (by simp)).trans blank.index, (read_congr (by simp)).trans blank.timeindex⟩

theorem blankIndexes_truncateOps (cfg : StorageConfig) (disk : StorageDisk) (seg : Segment) (wasSealed : Bool) :
    BlankIndexes cfg (disk.applyAll (truncateOps cfg seg wasSealed)) seg.base := by
  rw [truncateOps, applyAll_append, applyAll_cons, restoreOps, applyAll_cons, applyAll_cons]
  exact blankIndexes_indexFileOps cfg (by simp) (by simp)

/-- A truncation keeps the handles of the sealed segments below the cut. -/
theorem truncated_storage (cfg : StorageConfig) {goal log : PartitionLog} (longer : goal.Extends log extra newer) :
    (log.storage cfg).truncated cfg goal = goal.storage cfg := by
  have kept : goal.closedSegs.length ≤ log.closedSegs.length ∧
      log.closedSegs.take goal.closedSegs.length = goal.closedSegs := by
    rcases longer.shape with ⟨_, closedSegs, _⟩ | ⟨front, last, _, closedSegs, _⟩
    · rw [closedSegs]
      exact ⟨le_refl _, List.take_length⟩
    · rw [closedSegs]
      exact ⟨by simp, List.take_left⟩
  simp only [StorageImpl.truncated, PartitionLog.storage, openedStorage]
  rw [List.take_append_of_le_length (by simpa using kept.1), ← List.map_take, kept.2]

def Serving.truncateTo (cfg : StorageConfig) (state : Serving) (offset : Int) : Option Serving :=
  after state.disk id ((state.storage.truncateTo cfg offset).run state.disk)

section
variable {cfg : StorageConfig} {state : Serving} {log : PartitionLog}

/-- The log determines the storage and the bytes of every file. -/
theorem Pristine.unique {other : Serving} (first : Pristine cfg state log) (second : Pristine cfg other log) :
    state.storage = other.storage ∧ SameData state.disk other.disk := by
  refine ⟨first.storage.trans second.storage.symm, fun name => ?_⟩
  have absent : ∀ base, base ∉ log.bases → Absent state.disk base ∧ Absent other.disk base := fun base missing =>
    ⟨first.rep.holds.others base missing, second.rep.holds.others base missing⟩
  have known : ∀ base ∈ log.bases, (∃ seg ∈ log.closedSegs, seg.base = base) ∨ log.active.base = base := by
    intro base member
    obtain ⟨seg, listed, same⟩ := List.mem_map.mp member
    rcases List.mem_append.mp listed with closed | last
    · exact .inl ⟨seg, closed, same⟩
    · exact .inr (List.mem_singleton.mp last ▸ same)
  cases name with
  | log base =>
    by_cases member : base ∈ log.bases
    · rcases known base member with ⟨seg, closed, rfl⟩ | rfl
      · rw [first.rep.holds.closedLog seg closed, second.rep.holds.closedLog seg closed]
      · rw [first.rep.holds.activeLog, second.rep.holds.activeLog]
    · rw [Disk.read, Disk.read, (absent base member).1.log, (absent base member).2.log]
  | index base =>
    by_cases member : base ∈ log.bases
    · rcases known base member with ⟨seg, closed, rfl⟩ | rfl
      · obtain ⟨_, _, index, _, exactly⟩ := first.rep.holds.closedIndex seg closed
        obtain ⟨_, _, again, _, same⟩ := second.rep.holds.closedIndex seg closed
        rw [index, again, (exactly trivial).1, (same trivial).1]
      · rw [first.blank.index, second.blank.index]
    · rw [Disk.read, Disk.read, (absent base member).1.index, (absent base member).2.index]
  | timeindex base =>
    by_cases member : base ∈ log.bases
    · rcases known base member with ⟨seg, closed, rfl⟩ | rfl
      · obtain ⟨_, _, _, timeindex, exactly⟩ := first.rep.holds.closedIndex seg closed
        obtain ⟨_, _, _, again, same⟩ := second.rep.holds.closedIndex seg closed
        rw [timeindex, again, (exactly trivial).2, (same trivial).2]
      · rw [first.blank.timeindex, second.blank.timeindex]
    · rw [Disk.read, Disk.read, (absent base member).1.timeindex, (absent base member).2.timeindex]
  | sidecar => rw [Disk.read, Disk.read, first.others _ rfl, second.others _ rfl]
  | sidecarTmp => rw [Disk.read, Disk.read, first.others _ rfl, second.others _ rfl]

/-- A first open of an empty directory starts such a state. -/
theorem Pristine.start (indexable : cfg.Indexable) (opened : openServing cfg ∅ = some state) :
    Pristine cfg state .empty := by
  obtain ⟨ran, rep⟩ := openStorage_empty_eq indexable empty_absent True
  rw [openServing, ran, after, Option.some.injEq] at opened
  subst opened
  refine ⟨rfl, rep, readable_empty.growing, ?_, ?_⟩
  · exact blankIndexes_newSegmentOps cfg (empty_absent 0)
  · intro name named
    rw [(ofSegments_newSegmentOps cfg 0).lookup_unnamed named]
    exact AList.lookup_empty _

/-- The handles of the longer log are those of an append. -/
theorem appended_storage (cfg : StorageConfig) (log : PartitionLog) (batch : Bytes) :
    (log.storage cfg).appended cfg log batch = (log.append cfg.segmentMaxBytes batch).storage cfg := by
  unfold StorageImpl.appended PartitionLog.append
  dsimp only
  split
  · simp [PartitionLog.storage, openedStorage, StorageImpl.pushed, StorageImpl.rolled, next, Segment.stop,
      lastEnd]
  · simp [PartitionLog.storage, openedStorage, StorageImpl.pushed, next]

/-- An append to such a state is an append to its log. -/
theorem Pristine.append (indexable : cfg.Indexable) (pristine : Pristine cfg state log) {payload : Bytes}
    (encoded : EncodedBatch payload) (room : log.next + recordCountOf payload < 2 ^ 63) :
    ∃ next, state.step cfg (.append payload) = some next ∧
      Pristine cfg next (log.append cfg.segmentMaxBytes payload) := by
  have rep := pristine.rep
  have start : log.active.base ≤ log.next :=
    ((pristine.growing _ (by simp [PartitionLog.segments])).between rep.valid.active.chained).1
  have nonneg := rep.valid.active.nonneg
  have positive := encoded.count_pos
  obtain ⟨_, ends⟩ := encoded.ends (by omega : 0 ≤ log.next) room
  obtain ⟨ran, after⟩ := append_eq indexable rep encoded.stored fun _ => by omega
  have named := ofSegments_appendOps cfg log payload
  refine ⟨⟨state.disk.applyAll (appendOps cfg log payload), state.storage.appended cfg log payload⟩, ?_, ?_, after,
    append_growing pristine.growing rep.valid.formed (by omega), ?_, ?_⟩
  · rw [step, ran]
    rfl
  · rw [← appended_storage, ← pristine.storage]
  · exact pristine.blank.append rep.holds rep.valid.distinct
      (rep.valid.append indexable.segment encoded.stored fun _ => by omega)
  · intro name unnamed
    rw [named.lookup_unnamed unnamed]
    exact pristine.others name unnamed

/-- A truncation to the end of a shorter log leaves the state of that log. -/
theorem Pristine.truncateTo (indexable : cfg.Indexable) (pristine : Pristine cfg state log) {goal : PartitionLog}
    (longer : goal.Extends log extra newer) (valid : goal.Valid cfg.segmentMaxBytes)
    (growing : ∀ seg ∈ goal.segments, Growing seg.batches) (above : goal.next < log.next) :
    ∃ left, state.truncateTo cfg goal.next = some left ∧ Pristine cfg left goal := by
  obtain ⟨ran, after⟩ := truncateTo_eq indexable pristine.rep valid (growing _ (by simp [PartitionLog.segments])) longer
    above
  have named : OfSegments (newer.map Segment.base ++ [goal.active.base])
      (removeOps (newer.map Segment.base) ++ truncateOps cfg goal.active (!newer.isEmpty)) :=
    ((ofSegments_removeOps _).mono (List.subset_append_left _ _)).append
      ((ofSegments_truncateOps cfg _ _).mono (List.subset_append_right _ _))
  refine ⟨⟨state.disk.applyAll
    (removeOps (newer.map Segment.base) ++ truncateOps cfg goal.active (!newer.isEmpty)),
    state.storage.truncated cfg goal⟩, ?_, ?_, after, growing, ?_, ?_⟩
  · rw [Serving.truncateTo, ran]
    rfl
  · rw [pristine.storage]
    exact truncated_storage cfg longer
  · rw [applyAll_append]
    exact blankIndexes_truncateOps cfg _ _ _
  · intro name unnamed
    rw [named.lookup_unnamed unnamed]
    exact pristine.others name unnamed

end

/-- The batches are appended to the log in order. -/
def PartitionLog.appendAll (limit : Int) (log : PartitionLog) (payloads : List Bytes) : PartitionLog :=
  payloads.foldl (PartitionLog.append limit) log

section
variable {cfg : StorageConfig} {state : Serving} {goal log : PartitionLog} {payloads : List Bytes}
  (encoded : ∀ payload ∈ payloads, EncodedBatch payload)
include encoded

/-- The appends move the next offset by their records. -/
theorem PartitionLog.appendAll_next (limit : Int) (nonneg : 0 ≤ log.next)
    (room : log.next + recordCounts payloads < 2 ^ 63) :
    (log.appendAll limit payloads).next = log.next + recordCounts payloads := by
  induction payloads generalizing log with
  | nil => exact (add_zero _).symm
  | cons payload payloads ih =>
    have first := encoded payload List.mem_cons_self
    have positive := first.count_pos
    have rest := recordCounts_nonneg payloads
    rw [recordCounts_cons] at room ⊢
    have moved : (log.append limit payload).next = log.next + recordCountOf payload := by
      rw [append_next, (first.ends nonneg (by omega)).2]
    have later := @ih (log.append limit payload) (fun other listed => encoded other (List.mem_cons_of_mem _ listed))
      (by omega) (by omega)
    rw [appendAll, List.foldl_cons, ← appendAll, later, moved]
    omega

/-- The appends leave a log that still extends the shorter one. -/
theorem PartitionLog.Extends.appendAll (longer : goal.Extends log extra newer) (limit : Int)
    (reaches : goal.next ≤ log.next) (nonneg : 0 ≤ log.next) (room : log.next + recordCounts payloads < 2 ^ 63) :
    ∃ extra newer, goal.Extends (log.appendAll limit payloads) extra newer := by
  induction payloads generalizing log extra newer with
  | nil => exact ⟨extra, newer, longer⟩
  | cons payload payloads ih =>
    have first := encoded payload List.mem_cons_self
    have positive := first.count_pos
    have rest := recordCounts_nonneg payloads
    rw [recordCounts_cons] at room
    have ends := (first.ends nonneg (by omega)).2
    obtain ⟨more, later, longer⟩ :=
      longer.append limit (by omega : goal.next < endOffsetOf (patchBaseOffset payload log.next))
    have moved : (log.append limit payload).next = log.next + recordCountOf payload := by
      rw [append_next, ends]
    exact ih (fun other listed => encoded other (List.mem_cons_of_mem _ listed)) longer (by omega) (by omega) (by omega)

/-- A run of appends ends in the state of the longer log. -/
theorem Pristine.follow (indexable : cfg.Indexable) (pristine : Pristine cfg state log)
    (room : log.next + recordCounts payloads < 2 ^ 63) :
    ∃ last, follow (step cfg) state (payloads.map .append) = some last ∧
      Pristine cfg last (log.appendAll cfg.segmentMaxBytes payloads) := by
  induction payloads generalizing state log with
  | nil => exact ⟨state, rfl, pristine⟩
  | cons payload payloads ih =>
    have first := encoded payload List.mem_cons_self
    have rest := recordCounts_nonneg payloads
    have start : log.active.base ≤ log.next :=
      ((pristine.growing _ (by simp [PartitionLog.segments])).between pristine.rep.valid.active.chained).1
    have nonneg := pristine.rep.valid.active.nonneg
    rw [recordCounts_cons] at room
    obtain ⟨next, stepped, after⟩ := pristine.append indexable first (by omega)
    have moved : (log.append cfg.segmentMaxBytes payload).next = log.next + recordCountOf payload := by
      rw [append_next, (first.ends (by omega) (by omega)).2]
    obtain ⟨last, followed, finished⟩ := ih (fun other listed => encoded other (List.mem_cons_of_mem _ listed)) after
      (by omega)
    refine ⟨last, ?_, finished⟩
    rw [List.map_cons, Transition.follow, stepped]
    exact followed

end

/-- The batches that end at or below the bound when the first of them starts at the given offset. -/
def endingBy (bound : Int) : Int → List Bytes → List Bytes
  | _, [] => []
  | start, payload :: later =>
    if start + recordCountOf payload ≤ bound then payload :: endingBy bound (start + recordCountOf payload) later
    else endingBy bound (start + recordCountOf payload) later

/-- The offset is the start of the log or the end of one of its batches. -/
def Boundary (payloads : List Bytes) (offset : Int) : Prop :=
  ∃ front, front <+: payloads ∧ recordCounts front = offset

theorem endingBy_eq_nil {payloads : List Bytes} (encoded : ∀ payload ∈ payloads, EncodedBatch payload)
    {start bound : Int} (behind : bound ≤ start) : endingBy bound start payloads = [] := by
  induction payloads generalizing start with
  | nil => rfl
  | cons payload payloads ih =>
    have positive := (encoded payload List.mem_cons_self).count_pos
    rw [endingBy, if_neg (by omega)]
    exact ih (fun other listed => encoded other (List.mem_cons_of_mem _ listed)) (by omega)

/-- The batches up to a boundary are those that end at or below it. -/
theorem endingBy_boundary {front back : List Bytes} (encoded : ∀ payload ∈ front ++ back, EncodedBatch payload)
    (start : Int) : endingBy (start + recordCounts front) start (front ++ back) = front := by
  induction front generalizing start with
  | nil => exact endingBy_eq_nil encoded (add_zero start).le
  | cons payload front ih =>
    have rest := recordCounts_nonneg front
    have later := ih (fun other listed => encoded other (List.mem_cons_of_mem _ listed)) (start + recordCountOf payload)
    rw [recordCounts_cons, List.cons_append, endingBy, if_pos (by omega), ← add_assoc, later]

theorem recordCounts_append (first second : List Bytes) :
    recordCounts (first ++ second) = recordCounts first + recordCounts second := by
  rw [recordCounts, List.map_append, List.sum_append]
  rfl

theorem recordCounts_pos {payloads : List Bytes} (encoded : ∀ payload ∈ payloads, EncodedBatch payload)
    (present : payloads ≠ []) : 0 < recordCounts payloads := by
  obtain ⟨payload, later, rfl⟩ := List.exists_cons_of_ne_nil present
  have positive := (encoded payload List.mem_cons_self).count_pos
  have rest := recordCounts_nonneg later
  rw [recordCounts_cons]
  omega

/-- A storage that opens in an empty directory has room for its index entries. -/
theorem indexable_of_serving {cfg : StorageConfig} (segment : 1 ≤ cfg.segmentMaxBytes)
    (segmentMax : cfg.segmentMaxBytes ≤ 2 ^ 31) (sample : 1 ≤ cfg.indexSampleBytes)
    (sampleMax : cfg.indexSampleBytes < 2 ^ 63) {fresh : Serving} (opened : openServing cfg ∅ = some fresh) :
    cfg.Indexable := by
  cases outcome : (openStorage cfg).run ∅ with
  | mk answer ops =>
    rw [openServing, outcome] at opened
    cases answer with
    | error failure => cases opened
    | ok s => exact indexable_of_open empty_absent segment segmentMax sample sampleMax outcome

/-- The first segment keeps its base through every append. -/
theorem Pristine.earliestOffset {cfg : StorageConfig} {state : Serving} {log : PartitionLog}
    (pristine : Pristine cfg state log) (longer : empty.Extends log extra newer) :
    state.storage.earliestOffset = 0 := by
  rw [pristine.storage, PartitionLog.storage]
  rcases longer.shape with ⟨_, closedSegs, active⟩ | ⟨front, last, _, closedSegs, _⟩
  · rw [closedSegs, active]
    rfl
  · rw [closedSegs]
    rfl

/-- A truncation to a batch boundary leaves the storage and the bytes that the batches below it alone would have
left, so every later list of appends and reads gets the same answers. -/
theorem truncation_equals_never_appended (cfg : StorageConfig)
    (segment : 1 ≤ cfg.segmentMaxBytes) (segmentMax : cfg.segmentMaxBytes ≤ 2 ^ 31)
    (sample : 1 ≤ cfg.indexSampleBytes) (sampleMax : cfg.indexSampleBytes < 2 ^ 63)
    (fresh : Serving) (opened : openServing cfg ∅ = some fresh)
    (payloads : List Bytes) (encoded : ∀ payload ∈ payloads, EncodedBatch payload)
    (offsets : recordCounts payloads < 2 ^ 63) (bound : Int) (boundary : Boundary payloads bound) :
    ∃ full kept left, follow (step cfg) fresh (payloads.map .append) = some full ∧
      follow (step cfg) fresh ((endingBy bound 0 payloads).map .append) = some kept ∧
      full.truncateTo cfg bound = some left ∧
      full.storage.earliestOffset = 0 ∧ full.storage.latestOffset = recordCounts payloads ∧
      left.storage = kept.storage ∧ SameData left.disk kept.disk ∧
      ∀ calls, left.answers cfg calls = kept.answers cfg calls := by
  obtain ⟨front, ⟨back, rfl⟩, rfl⟩ := boundary
  have indexable := indexable_of_serving segment segmentMax sample sampleMax opened
  have start := Pristine.start indexable opened
  have zero : empty.next = 0 := rfl
  have below := fun payload listed => encoded payload (List.mem_append_left back listed)
  have above := fun payload listed => encoded payload (List.mem_append_right front listed)
  have counts := recordCounts_append front back
  have spare := recordCounts_nonneg front
  have rest := recordCounts_nonneg back
  obtain ⟨kept, followed, goal⟩ := Pristine.follow below indexable start (by omega)
  have next := appendAll_next below cfg.segmentMaxBytes zero.ge (by omega)
  obtain ⟨_, _, early⟩ := (PartitionLog.Extends.refl .empty).appendAll below cfg.segmentMaxBytes zero.ge zero.ge
    (by omega)
  rw [zero, zero_add] at next
  generalize empty.appendAll cfg.segmentMaxBytes front = short at goal next early
  obtain ⟨full, further, log⟩ := Pristine.follow above indexable goal (by omega)
  have latest : (short.appendAll cfg.segmentMaxBytes back).next = short.next + recordCounts back :=
    appendAll_next above cfg.segmentMaxBytes (by omega) (by omega)
  obtain ⟨_, _, earliest⟩ := early.appendAll above cfg.segmentMaxBytes (by omega) (by omega) (by omega)
  obtain ⟨_, _, longer⟩ := (PartitionLog.Extends.refl short).appendAll above cfg.segmentMaxBytes (le_refl _) (by omega)
    (by omega)
  obtain ⟨left, truncated, restored⟩ : ∃ left, full.truncateTo cfg (recordCounts front) = some left ∧
      Pristine cfg left short := by
    rw [← next]
    by_cases empty : back = []
    · subst empty
      have unmoved : short.next = full.storage.nextOffset := log.rep.next.symm
      refine ⟨full, ?_, log⟩
      rw [Serving.truncateTo, StorageImpl.truncateTo, if_pos unmoved]
      rfl
    · have moved := recordCounts_pos above empty
      exact log.truncateTo indexable longer goal.rep.valid goal.growing (by omega)
  obtain ⟨storage, same⟩ := restored.unique goal
  refine ⟨full, kept, left, ?_, ?_, truncated, log.earliestOffset earliest, ?_, storage, same,
    fun calls => answers_congr cfg calls storage same⟩
  · rw [List.map_append, follow_append, followed]
    exact further
  · have keeps := endingBy_boundary encoded 0
    rw [zero_add] at keeps
    rw [keeps]
    exact followed
  · rw [StorageImpl.latestOffset, log.rep.next, latest, next, counts]

/-- A cut at the base of the second segment. -/
theorem truncation_equals_never_appended_at_segment_base :
    ∃ full kept left,
      follow (step smallConfig) freshServing ([stampedBatch 5, stampedBatch 6].map .append) = some full ∧
      follow (step smallConfig) freshServing ([stampedBatch 5].map .append) = some kept ∧
      full.truncateTo smallConfig 1 = some left ∧ left.storage = kept.storage ∧
      left.storage.segments.map baseOffset = [0, 1] ∧ SameData left.disk kept.disk := by
  have encoded : ∀ payload ∈ [stampedBatch 5, stampedBatch 6], EncodedBatch payload :=
    List.forall_mem_cons.mpr ⟨⟨stampedBatch_encoded 5, by decide +kernel⟩,
      List.forall_mem_singleton.mpr ⟨stampedBatch_encoded 6, by decide +kernel⟩⟩
  obtain ⟨full, kept, left, followed, short, truncated, _, _, storage, same, _⟩ :=
    truncation_equals_never_appended smallConfig (by decide) (by decide) (by decide) (by decide) freshServing
      freshServing_start _ encoded (by decide +kernel) 1 ⟨[stampedBatch 5], by decide +kernel, by decide +kernel⟩
  have keeps : endingBy 1 0 [stampedBatch 5, stampedBatch 6] = [stampedBatch 5] := by decide +kernel
  rw [keeps] at short
  refine ⟨full, kept, left, followed, short, truncated, storage, ?_, same⟩
  have computed : (follow (step smallConfig) freshServing ([stampedBatch 5].map .append)).map
      (fun state => state.storage.segments.map baseOffset) = some [0, 1] := by decide +kernel
  rw [short, Option.map_some, Option.some.injEq] at computed
  rw [storage, computed]

end BunnyMQ.Storage
