/-
This file shows which runs of appends, retention and restarts never leave a reader without data.
-/

import BunnyMQ.Proof.Storage.Retention

namespace BunnyMQ.Storage
open Foundation FileStore Selection Transition StorageImpl

/-- The directory and the open storage. -/
structure Serving where
  disk : StorageDisk
  storage : StorageImpl

inductive ServingEvent where
  | append (batch : Bytes)
  | enforceRetention (retentionMs retentionBytes nowMs : Int)
  | reopen

/-- The storage of a successful call and the directory behind it. -/
def Serving.after {Value : Type} (disk : StorageDisk) (storage : Value → StorageImpl) :
    Except GoError Value × List (FileOp FileName) → Option Serving
  | (.ok value, ops) => some ⟨disk.applyAll ops, storage value⟩
  | (.error _, _) => none

def openServing (cfg : StorageConfig) (disk : StorageDisk) : Option Serving :=
  Serving.after disk id ((openStorage cfg).run disk)

def Serving.step (cfg : StorageConfig) (state : Serving) : ServingEvent → Option Serving
  | .append batch => Serving.after state.disk Prod.snd ((state.storage.append cfg batch).run state.disk)
  | .enforceRetention retentionMs retentionBytes nowMs =>
    Serving.after state.disk Prod.snd ((state.storage.enforceRetention retentionMs retentionBytes nowMs).run state.disk)
  | .reopen => (Serving.after state.disk id (state.storage.close.run state.disk)).bind fun closed =>
    openServing cfg closed.disk

/-- Producers append encoded batches. -/
def Encoded : ServingEvent → Prop
  | .append batch => ∃ records, encodeBatch records = .ok batch
  | _ => True

/-- The storage starts in an empty directory. -/
def serving (cfg : StorageConfig) : System Serving ServingEvent where
  start state := openServing cfg ∅ = some state
  step state event next := Encoded event ∧ state.step cfg event = some next

/-- Retention marks the oldest sealed segments only. Batches, positions and offsets keep to their widths. -/
def Orderly (state : Serving) : ServingEvent → Prop
  | .append batch => batch.length < 2 ^ 32 ∧
      (∀ active ∈ state.storage.segments.getLast?, active.log.logSize < 2 ^ 31) ∧
      state.storage.nextOffset + recordCountOf batch < 2 ^ 63
  | .enforceRetention retentionMs retentionBytes nowMs =>
    MarksPrefix (retentionReasons state.storage.segments state.disk retentionMs retentionBytes nowMs)
  | .reopen => True

instance (state : Serving) : (event : ServingEvent) → Decidable (Orderly state event)
  | .append _ => inferInstanceAs (Decidable (_ ∧ _))
  | .enforceRetention _ _ _ => inferInstanceAs (Decidable (MarksPrefix _))
  | .reopen => .isTrue trivial

/-- The segments cover every offset from the earliest to the latest one, and a read of such an offset returns
the batch that contains it and moves on. -/
structure Serving.Covers (state : Serving) : Prop where
  covered : ∀ offset, state.storage.earliestOffset ≤ offset → offset < state.storage.latestOffset →
    ∃ seg ∈ state.storage.segments, ∃ batch ∈ seg.batches state.disk,
      baseOffsetOf batch ≤ offset ∧ offset < endOffsetOf batch
  progress : ∀ offset maxBytes, state.storage.earliestOffset ≤ offset → offset < state.storage.latestOffset →
    ∃ first rest nextOffset, state.storage.read state.disk offset maxBytes = .ok ((first :: rest).flatten, nextOffset) ∧
      first :: rest <:+: state.storage.segments.flatMap (fun seg => seg.batches state.disk) ∧
      baseOffsetOf first ≤ offset ∧ offset < endOffsetOf first ∧ offset < nextOffset

/-- The state represents a readable log. -/
def Serving.Holds (cfg : StorageConfig) (state : Serving) : Prop :=
  ∃ log, Represents True cfg state.disk state.storage log ∧ log.Readable

section
variable {cfg : StorageConfig} {state : Serving}

theorem Serving.Holds.of_represents {disk : StorageDisk} {s : StorageImpl} {log : PartitionLog}
    (rep : Represents True cfg disk s log) (readable : log.Readable) : Serving.Holds cfg ⟨disk, s⟩ :=
  ⟨log, rep, readable⟩

theorem Serving.Holds.start (indexable : cfg.Indexable) (started : openServing cfg ∅ = some state) :
    state.Holds cfg := by
  obtain ⟨s, opened, rep⟩ := openStorage_empty indexable empty_absent True
  simp only [openServing, opened, Serving.after, Option.some.injEq] at started
  subst started
  exact ⟨.empty, rep, PartitionLog.readable_empty⟩

/-- An orderly append succeeds and leaves a storage that holds its log. -/
theorem Serving.Holds.append (indexable : cfg.Indexable) (holds : state.Holds cfg) {batch : Bytes}
    (encoded : Encoded (.append batch)) (orderly : Orderly state (.append batch)) :
    ∃ next, state.step cfg (.append batch) = some next ∧ next.Holds cfg := by
  obtain ⟨log, rep, readable⟩ := holds
  obtain ⟨records, encoded⟩ := encoded
  obtain ⟨bounded, small, room⟩ := orderly
  have last := rep.mounted.getLast
  have size := small _ last
  have length : (activeHandle cfg log.active).log.logSize = log.active.bytes.length := rfl
  rw [length] at size
  have start : log.active.base ≤ log.next :=
    ((readable.growing _ (by simp [PartitionLog.segments])).between rep.valid.active.chained).1
  rw [rep.next] at room
  obtain ⟨stored, grows, ends⟩ := encoded_moves encoded bounded rep.valid ⟨start, by rw [Int.add_zero]; exact room⟩
    (le_refl 0)
  obtain ⟨_, rfl⟩ := encodeBatch_ok_iff.mp encoded
  have few := batchBytes_records 0 records
  have counted := recordCountOf_batchBytes bounded
  obtain ⟨left, ran, after⟩ := append_run indexable rep stored fun _ => by omega
  refine ⟨⟨state.disk.applyAll (appendOps cfg log (batchBytes 0 records)), left⟩, ?_,
    .of_represents after (readable.append rep.valid stored grows (by omega) (by omega))⟩
  simp only [Serving.step, ran, Serving.after]

theorem Serving.Holds.enforceRetention (holds : state.Holds cfg) {retentionMs retentionBytes nowMs : Int}
    (orderly : Orderly state (.enforceRetention retentionMs retentionBytes nowMs)) :
    ∃ next, state.step cfg (.enforceRetention retentionMs retentionBytes nowMs) = some next ∧ next.Holds cfg := by
  obtain ⟨log, rep, readable⟩ := holds
  have judged : (retentionReasons state.storage.segments state.disk retentionMs retentionBytes nowMs).length =
      log.closedSegs.length := by
    obtain ⟨closed, segments, handles⟩ := rep.handles
    rw [retentionReasons_length, segments, List.dropLast_concat, handles.length_eq]
  obtain ⟨left, ran, after⟩ := enforceRetention_run rep retentionMs retentionBytes nowMs
  refine ⟨⟨state.disk.applyAll (retentionOps log (retentionReasons state.storage.segments state.disk retentionMs
    retentionBytes nowMs)), left⟩, ?_, .of_represents after (readable.retain judged orderly)⟩
  simp only [Serving.step, ran, Serving.after]

/-- A close and a new open keep the log. -/
theorem Represents.reopen {indexed : Prop} {log : PartitionLog} (indexable : cfg.Indexable)
    (rep : Represents indexed cfg state.disk state.storage log) :
    ∃ next, state.step cfg .reopen = some next ∧ Represents indexed cfg next.disk next.storage log := by
  obtain ⟨closed, ran, kept⟩ := close_run indexable rep
  obtain ⟨left, opened, again⟩ := openStorage_run indexable rep.valid kept Framing.next_nil
  have closes : Serving.after state.disk id (state.storage.close.run state.disk) =
      some ⟨state.disk.applyAll (sealOps (activeHandle cfg log.active)), closed⟩ := by
    rw [ran]
    rfl
  have moved : state.step cfg .reopen =
      some ⟨(state.disk.applyAll (sealOps (activeHandle cfg log.active))).applyAll (recoveryOps cfg log.active),
        left⟩ := by
    rw [Serving.step, closes, Option.bind_some, openServing, opened]
    rfl
  generalize (state.disk.applyAll (sealOps (activeHandle cfg log.active))).applyAll (recoveryOps cfg log.active) = after
    at moved again
  exact ⟨⟨after, left⟩, moved, again⟩

section
variable (indexable : cfg.Indexable) (holds : state.Holds cfg)
include indexable holds

theorem Serving.Holds.reopen : ∃ next, state.step cfg .reopen = some next ∧ next.Holds cfg := by
  obtain ⟨log, rep, readable⟩ := holds
  obtain ⟨next, moved, again⟩ := rep.reopen indexable
  exact ⟨next, moved, .of_represents again readable⟩

/-- An orderly event succeeds and leaves a readable log. -/
theorem Serving.Holds.step {event : ServingEvent} (encoded : Encoded event) (orderly : Orderly state event) :
    ∃ next, state.step cfg event = some next ∧ next.Holds cfg := by
  cases event with
  | append batch => exact holds.append indexable encoded orderly
  | enforceRetention retentionMs retentionBytes nowMs => exact holds.enforceRetention orderly
  | reopen => exact holds.reopen indexable

/-- A readable log covers its offsets. -/
theorem Serving.Holds.covers : state.Covers := by
  obtain ⟨log, rep, readable⟩ := holds
  obtain ⟨chained, _, growing⟩ := rep.chained readable
  have scanned := rep.scanned
  constructor
  · intro offset lower upper
    obtain ⟨prior, chosen, rest, split, covers, _⟩ := read_run indexable rep readable lower upper 0
    obtain ⟨first, more, rfl, base, inside⟩ := covers.starts
    have member : first ∈ state.storage.segments.flatMap fun seg => seg.batches state.disk := by
      rw [scanned, split]
      simp
    obtain ⟨seg, found, batch⟩ := List.mem_flatMap.mp member
    exact ⟨seg, found, first, batch, base, inside⟩
  · intro offset maxBytes lower upper
    obtain ⟨prior, chosen, rest, split, covers, read⟩ := read_run indexable rep readable lower upper maxBytes
    rw [split] at chained growing
    obtain ⟨_, moved, _⟩ := covers.progress chained growing
    obtain ⟨first, more, rfl, base, inside⟩ := covers.starts
    exact ⟨first, more, _, read, ⟨prior, rest, by rw [scanned, split]⟩, base, inside, moved⟩

end

end

/-- Every orderly run leaves a readable log. -/
theorem Serving.holds_of_reaches {cfg : StorageConfig} {state : Serving} (indexable : cfg.Indexable)
    (reached : (serving cfg).Reaches Orderly state) : state.Holds cfg := by
  refine @System.Reaches.invariant _ _ _ _ (Serving.Holds cfg) (fun _ started => .start indexable started) ?_ _ reached
  intro state event next holds orderly step
  obtain ⟨encoded, moved⟩ := step
  obtain ⟨after, stepped, kept⟩ := holds.step indexable encoded orderly
  rw [moved] at stepped
  cases stepped
  exact kept

/-- In every orderly run a reader below the latest offset gets the batch it asks for. -/
theorem reader_never_stuck (cfg : StorageConfig) (indexable : cfg.Indexable) (state : Serving)
    (reached : (serving cfg).Reaches Orderly state) :
    state.Covers ∧ ∀ event, Encoded event → Orderly state event → ∃ next, state.step cfg event = some next := by
  have holds := Serving.holds_of_reaches indexable reached
  refine ⟨holds.covers indexable, fun event encoded orderly => ?_⟩
  obtain ⟨next, stepped, _⟩ := holds.step indexable encoded orderly
  exact ⟨next, stepped⟩

/-- A batch with one record of this time fills a segment of the small configuration. -/
def stampedBatch (timestampMs : Int64) : Bytes := batchBytes 0 [⟨timestampMs, none, List.replicate 5 0, []⟩]

theorem stampedBatch_encoded (timestampMs : Int64) : Encoded (.append (stampedBatch timestampMs)) :=
  ⟨_, encodeBatch_eq (List.cons_ne_nil _ _)⟩

/-- The storage behind the first open of the small configuration. -/
def freshServing : Serving := (openServing smallConfig ∅).get (by decide +kernel)

theorem freshServing_start : (serving smallConfig).start freshServing := (Option.some_get _).symm

theorem serving_steps {cfg : StorageConfig} {events : List ServingEvent} (encoded : ∀ event ∈ events, Encoded event) :
    ∀ event ∈ events, ∀ state after, Serving.step cfg state event = some after → (serving cfg).step state event after :=
  fun event member _ _ moved => ⟨encoded event member, moved⟩

/-- Two full segments, a byte limit for one of them and a restart. -/
def restartEvents : List ServingEvent :=
  [.append (stampedBatch 0), .append (stampedBatch 1), .enforceRetention 0 50 0, .reopen]

/-- The byte limit removes the first of two segments, and the reader finds the second one after a restart. -/
theorem reader_never_stuck_after_restart :
    ∃ state, follow (Serving.step smallConfig) freshServing restartEvents = some state ∧
      state.storage.segments.map SegmentStorage.baseOffset = [1, 2] ∧ state.Covers := by
  have followed : follow (Serving.step smallConfig) freshServing restartEvents =
      some ((follow (Serving.step smallConfig) freshServing restartEvents).get (by decide +kernel)) :=
    (Option.some_get _).symm
  have encoded : ∀ event ∈ restartEvents, Encoded event := by
    simp only [restartEvents, List.forall_mem_cons, List.not_mem_nil, false_imp_iff, implies_true, and_true]
    exact ⟨stampedBatch_encoded 0, stampedBatch_encoded 1, trivial, trivial⟩
  have reached := System.Reaches.follow (serving_steps encoded) (.start freshServing_start)
    (by decide +kernel : permits _ Orderly _ _) followed
  exact ⟨_, followed, by decide +kernel, (reader_never_stuck smallConfig smallConfig_indexable _ reached).1⟩

/-- The first timestamps of three segments are 0, 1000 and 10, and everything before 500 has expired. -/
def backwardEvents : List ServingEvent :=
  [.append (stampedBatch 0), .append (stampedBatch 1000), .append (stampedBatch 10), .enforceRetention 500 (-1) 1000]

def backwardState : Serving :=
  (follow (Serving.step smallConfig) freshServing backwardEvents).get (by decide +kernel)

/-- Times that run backwards let retention delete a middle segment, and a reader of its offset gets nothing. -/
theorem reader_stuck_behind_deleted_segment :
    follow (Serving.step smallConfig) freshServing backwardEvents = some backwardState ∧
      (serving smallConfig).Reaches System.Free backwardState ∧
      backwardState.storage.segments.map SegmentStorage.baseOffset = [0, 2, 3] ∧
      backwardState.storage.earliestOffset = 0 ∧ backwardState.storage.latestOffset = 3 ∧
      backwardState.storage.read backwardState.disk 1 1000 = .ok ([], 1) ∧ ¬ backwardState.Covers := by
  have followed : follow (Serving.step smallConfig) freshServing backwardEvents = some backwardState :=
    (Option.some_get _).symm
  have encoded : ∀ event ∈ backwardEvents, Encoded event := by
    simp only [backwardEvents, List.forall_mem_cons, List.not_mem_nil, false_imp_iff, implies_true, and_true]
    exact ⟨stampedBatch_encoded 0, stampedBatch_encoded 1000, stampedBatch_encoded 10, trivial⟩
  have reached := System.Reaches.follow (serving_steps encoded) (.start freshServing_start)
    (by decide +kernel : permits _ System.Free _ _) followed
  have empty : backwardState.storage.read backwardState.disk 1 1000 = .ok ([], 1) := by decide +kernel
  refine ⟨followed, reached, by decide +kernel, by decide +kernel, by decide +kernel, empty, ?_⟩
  intro covers
  obtain ⟨first, rest, nextOffset, read, _, _, _, moved⟩ :=
    covers.progress 1 1000 (by decide +kernel) (by decide +kernel)
  rw [empty] at read
  have stuck := (Prod.mk.inj (Except.ok.inj read)).2
  omega

/-- A segment with room for two batches of the small configuration. -/
def pairConfig : StorageConfig := { smallConfig with segmentMaxBytes := 120 }

theorem pairConfig_indexable : pairConfig.Indexable :=
  StorageConfig.indexable_of_bounds (by decide) (by decide) (by decide) (by decide)

def pairEvents : List ServingEvent := [.append (stampedBatch 5), .append (stampedBatch 6)]

def pairFresh : Serving := (openServing pairConfig ∅).get (by decide +kernel)

/-- Both batches stand in the active segment. -/
def pairState : Serving := (follow (Serving.step pairConfig) pairFresh pairEvents).get (by decide +kernel)

theorem pairState_reached : (serving pairConfig).Reaches Orderly pairState := by
  have followed : follow (Serving.step pairConfig) pairFresh pairEvents = some pairState := (Option.some_get _).symm
  have encoded : ∀ event ∈ pairEvents, Encoded event := by
    simp only [pairEvents, List.forall_mem_cons, List.not_mem_nil, false_imp_iff, implies_true, and_true]
    exact ⟨stampedBatch_encoded 5, stampedBatch_encoded 6⟩
  have started : (serving pairConfig).start pairFresh := (Option.some_get _).symm
  exact System.Reaches.follow (serving_steps encoded) (.start started)
    (by decide +kernel : permits _ Orderly _ _) followed

end BunnyMQ.Storage
