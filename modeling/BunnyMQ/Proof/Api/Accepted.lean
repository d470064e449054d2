/-
This file shows which accepted batches keep the log parseable.
-/

import BunnyMQ.Construction.Api.Validate
import BunnyMQ.Library.Transition
import BunnyMQ.Proof.Storage.Contents
import BunnyMQ.Proof.Storage.Recovery

namespace BunnyMQ.Api
open Foundation FileStore Transition Storage StorageImpl

/-- The check passes exactly for a batch with enough bytes for its announced length and with the
checksum of the announced records. -/
theorem validateBatch_ok_iff {data : Bytes} :
    validateBatch data = .ok () ↔ 38 ≤ data.length ∧ 38 ≤ batchLengthOf data ∧ batchLengthOf data ≤ data.length ∧
      data.length ≤ maxBatchBytes ∧ checksum (slice data 38 (batchLengthOf data)) = uint32At data 16 := by
  unfold validateBatch
  constructor
  · intro accepted
    by_cases short : data.length < 38
    · simp [short] at accepted
    by_cases framed : batchLengthOf data < 38 ∨ batchLengthOf data > data.length
    · simp [short, framed] at accepted
    by_cases large : data.length > maxBatchBytes
    · simp [short, framed, large] at accepted
    by_cases checked : checksum (slice data 38 (batchLengthOf data)) = uint32At data 16
    · exact ⟨by omega, by omega, by omega, by omega, checked⟩
    · simp [short, framed, large, checked] at accepted
  · rintro ⟨long, least, inside, small, checked⟩
    simp [checked, Nat.not_lt.mpr long, Nat.not_lt.mpr least, Nat.not_lt.mpr inside, Nat.not_lt.mpr small]

/-- An accepted batch that announces its own length can be stored. -/
theorem storedBatch_of_accepted {data : Bytes} (accepted : validateBatch data = .ok ())
    (announced : batchLengthOf data = data.length) : StoredBatch data := by
  obtain ⟨long, _, _, _, checked⟩ := validateBatch_ok_iff.mp accepted
  refine ⟨long, announced, decide_eq_true ?_⟩
  rw [← checked, announced, slice, List.take_of_length_le (by rw [List.length_drop])]

/-- The directory, the open storage and the byte strings that were appended so far. -/
structure Producing where
  disk : StorageDisk
  storage : StorageImpl
  appended : List Bytes

/-- An append writes the batch with its assigned offset. -/
def appendStep (cfg : StorageConfig) (state : Producing) (data : Bytes) : Option Producing :=
  match (state.storage.append cfg data).run state.disk with
  | (.ok (baseOffset, storage), ops) =>
    some ⟨state.disk.applyAll ops, storage, state.appended ++ [patchBaseOffset data baseOffset]⟩
  | (.error _, _) => none

def openProducing (cfg : StorageConfig) : Option Producing :=
  match (openStorage cfg).run ∅ with
  | (.ok storage, ops) => some ⟨(∅ : StorageDisk).applyAll ops, storage, []⟩
  | (.error _, _) => none

/-- Accepted batches are appended one after another to a fresh directory. -/
def producing (cfg : StorageConfig) : System Producing Bytes where
  start state := openProducing cfg = some state
  step state data next := validateBatch data = .ok () ∧ appendStep cfg state data = some next

/-- The batch announces its own length, and an append that fills the segment moves the next offset behind the
base of the segment. -/
def KeepsFrames (cfg : StorageConfig) (state : Producing) (data : Bytes) : Prop :=
  batchLengthOf data = data.length ∧
    ∀ active ∈ state.storage.segments.getLast?, cfg.segmentMaxBytes ≤ active.log.logSize + data.length →
      active.baseOffset < int64 (state.storage.nextOffset + recordCountOf data)

instance (cfg : StorageConfig) (state : Producing) (data : Bytes) : Decidable (KeepsFrames cfg state data) :=
  inferInstanceAs (Decidable (_ ∧ _))

/-- Opening the directory finds every appended batch and the same next offset. -/
def Recovers (cfg : StorageConfig) (state : Producing) (disk : StorageDisk) : Prop :=
  ∃ storage ops, (openStorage cfg).run disk = (.ok storage, ops) ∧
    storage.latestOffset = state.storage.latestOffset ∧
    storage.segments.flatMap (fun seg => seg.batches (disk.applyAll ops)) = state.appended

/-- The scans of the segments list the appended batches, each file holds only its batches, the base offsets
increase, and a restart with or without a close recovers everything. -/
structure Parseable (cfg : StorageConfig) (state : Producing) : Prop where
  scanned : state.storage.segments.flatMap (fun seg => seg.batches state.disk) = state.appended
  whole : ∀ seg ∈ state.storage.segments,
    state.disk.read (.log seg.baseOffset) = some (seg.batches state.disk).flatten
  framed : ∀ batch ∈ state.appended, batchLengthOf batch = batch.length
  increasing : (state.storage.segments.map SegmentStorage.baseOffset).Pairwise (· < ·)
  restarted : Recovers cfg state state.disk
  reopened : ∃ closed ops, state.storage.close.run state.disk = (.ok closed, ops) ∧
    Recovers cfg state (state.disk.applyAll ops)

/-- The state represents a log of the appended batches. -/
def Holds (cfg : StorageConfig) (state : Producing) : Prop :=
  ∃ log, Represents False cfg state.disk state.storage log ∧ log.contents = state.appended

section
variable {cfg : StorageConfig} {state next : Producing} {data : Bytes}

theorem holds_start (indexable : cfg.Indexable) (started : openProducing cfg = some state) : Holds cfg state := by
  obtain ⟨s, opened, rep⟩ := openStorage_empty indexable
    (fun base => ⟨AList.lookup_empty _, AList.lookup_empty _, AList.lookup_empty _⟩) False
  simp only [openProducing, opened, Option.some.injEq] at started
  subst started
  exact ⟨.empty, rep, rfl⟩

/-- A well framed batch is appended and extends the log. -/
theorem holds_append (indexable : cfg.Indexable) (holds : Holds cfg state) (accepted : validateBatch data = .ok ())
    (frames : KeepsFrames cfg state data) : ∃ next, appendStep cfg state data = some next ∧ Holds cfg next := by
  obtain ⟨log, rep, contents⟩ := holds
  obtain ⟨announced, moves⟩ := frames
  have stored := storedBatch_of_accepted accepted announced
  have last := rep.mounted.getLast
  have range : int64 log.next = log.next := rep.valid.active.stop_range
  have advances : cfg.segmentMaxBytes ≤ log.active.bytes.length + data.length →
      log.active.base < endOffsetOf (patchBaseOffset data log.next) := by
    intro full
    have further := moves _ last full
    rw [rep.next] at further
    rw [endOffsetOf, baseOffsetOf_patch, recordCountOf_patch, range]
    exact further
  obtain ⟨left, ran, after⟩ := append_run indexable rep stored advances
  refine ⟨⟨state.disk.applyAll (appendOps cfg log data), left, state.appended ++ [patchBaseOffset data log.next]⟩,
    by simp only [appendStep, ran], _, after, ?_⟩
  rw [PartitionLog.append_contents, contents]

theorem recovers_of_holds (indexable : cfg.Indexable) {log : PartitionLog} {disk : StorageDisk}
    (rep : Represents False cfg state.disk state.storage log) (contents : log.contents = state.appended)
    (holds : DiskHolds False cfg disk log []) : Recovers cfg state disk := by
  obtain ⟨s, opened, again⟩ := openStorage_run indexable rep.valid holds Framing.next_nil
  exact ⟨s, _, opened, again.next.trans rep.next.symm, again.scanned.trans contents⟩

theorem parseable_of_holds (indexable : cfg.Indexable) (holds : Holds cfg state) : Parseable cfg state := by
  obtain ⟨log, rep, contents⟩ := holds
  obtain ⟨closed, ran, kept⟩ := close_run indexable rep
  refine ⟨rep.scanned.trans contents, fun seg member => rep.file member, ?_, ?_,
    recovers_of_holds indexable rep contents rep.holds, closed, _, ran, recovers_of_holds indexable rep contents kept⟩
  · intro batch member
    rw [← contents] at member
    obtain ⟨seg, found, inside⟩ := List.mem_flatMap.mp member
    exact ((rep.valid.segment seg found).stored batch inside).announced
  · rw [rep.bases]
    exact rep.valid.increasing

end

/-- In a run of well framed batches every state is parseable, and the next well framed batch is appended. -/
theorem accepted_batches_parseable (cfg : StorageConfig) (indexable : cfg.Indexable) (state : Producing)
    (reached : (producing cfg).Reaches (KeepsFrames cfg) state) :
    Parseable cfg state ∧ ∀ data, validateBatch data = .ok () → KeepsFrames cfg state data →
      ∃ next, appendStep cfg state data = some next := by
  have holds : Holds cfg state := by
    refine @System.Reaches.invariant _ _ _ _ (Holds cfg) (fun _ started => holds_start indexable started) ?_ _ reached
    intro state data next holds frames step
    obtain ⟨accepted, moved⟩ := step
    obtain ⟨after, stepped, kept⟩ := holds_append indexable holds accepted frames
    rw [moved] at stepped
    cases stepped
    exact kept
  refine ⟨parseable_of_holds indexable holds, fun data accepted frames => ?_⟩
  obtain ⟨next, stepped, _⟩ := holds_append indexable holds accepted frames
  exact ⟨next, stepped⟩

/-- A batch of two records without bytes announces 38 bytes. -/
def bareBatch : Bytes :=
  putUint 8 0 ++ putUint 4 38 ++ putUint 4 2 ++ putUint 4 0 ++ putUint 2 0 ++ putUint 8 0 ++ putUint 8 0

def openedState : Producing := (openProducing smallConfig).get (by decide +kernel)

def stateAfter (state : Producing) (data : Bytes) : Producing := (appendStep smallConfig state data).getD state

theorem openedState_start : (producing smallConfig).start openedState := (Option.some_get _).symm

theorem stateAfter_step {state : Producing} {data : Bytes} (succeeds : (appendStep smallConfig state data).isSome) :
    appendStep smallConfig state data = some (stateAfter state data) := by
  obtain ⟨next, stepped⟩ := Option.isSome_iff_exists.mp succeeds
  rw [stateAfter, stepped, Option.getD_some]

/-- Two bare batches fill a segment and start the next one. -/
theorem accepted_batches_parseable_after_roll :
    (stateAfter (stateAfter openedState bareBatch) bareBatch).storage.segments.map SegmentStorage.baseOffset = [0, 4] ∧
      Parseable smallConfig (stateAfter (stateAfter openedState bareBatch) bareBatch) := by
  have accepted : validateBatch bareBatch = .ok () := by decide +kernel
  have first : (producing smallConfig).Reaches (KeepsFrames smallConfig) (stateAfter openedState bareBatch) :=
    .step (.start openedState_start) (by decide +kernel : KeepsFrames smallConfig openedState bareBatch)
      ⟨accepted, stateAfter_step (by decide +kernel)⟩
  have second : (producing smallConfig).Reaches (KeepsFrames smallConfig)
      (stateAfter (stateAfter openedState bareBatch) bareBatch) :=
    .step first (by decide +kernel : KeepsFrames smallConfig (stateAfter openedState bareBatch) bareBatch)
      ⟨accepted, stateAfter_step (by decide +kernel)⟩
  exact ⟨by decide +kernel, (accepted_batches_parseable smallConfig smallConfig_indexable _ second).1⟩

/-- A byte behind the announced length is stored, but no scan returns it. -/
theorem accepted_batch_with_trailing_byte :
    validateBatch (bareBatch ++ [0]) = .ok () ∧
      (producing smallConfig).Reaches System.Free (stateAfter openedState (bareBatch ++ [0])) ∧
      (stateAfter openedState (bareBatch ++ [0])).appended = [bareBatch ++ [0]] ∧
      ¬ Parseable smallConfig (stateAfter openedState (bareBatch ++ [0])) := by
  have accepted : validateBatch (bareBatch ++ [0]) = .ok () := by decide +kernel
  refine ⟨accepted, .step (.start openedState_start) trivial ⟨accepted, stateAfter_step (by decide +kernel)⟩,
    by decide +kernel, ?_⟩
  intro parseable
  have cut : (stateAfter openedState (bareBatch ++ [0])).storage.segments.flatMap
      (fun seg => seg.batches (stateAfter openedState (bareBatch ++ [0])).disk) ≠
      (stateAfter openedState (bareBatch ++ [0])).appended := by decide +kernel
  exact cut parseable.scanned

end BunnyMQ.Api
