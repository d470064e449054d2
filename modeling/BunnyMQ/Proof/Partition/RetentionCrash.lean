/-
This file reconciles a crash with the sidecar while retention deletes segments of the running log.
-/

import BunnyMQ.Proof.Partition.CrashReplay
import BunnyMQ.Proof.Partition.Growth
import BunnyMQ.Proof.Partition.Stray
import BunnyMQ.Proof.Storage.Retention

namespace BunnyMQ.Partition
open Foundation FileStore Selection Transition Storage StorageImpl SegmentStorage List
open Program (Alike)

/-- Retention deletes one segment at a time. Its log goes first, and the other files are still to be removed. -/
structure Retaining where
  disk : StorageDisk
  storage : StorageImpl
  sweeping : List FileName
  deriving DecidableEq

inductive RetainingEvent where
  | apply (entry : Entry)
  | persist (index : UInt64)
  | drop (base : Int)
  | sweep
  deriving DecidableEq, Repr

section
variable (unmarshal : Unmarshal) (cfg : StorageConfig)

/-- The file operations of an event. -/
def Retaining.ops (state : Retaining) : RetainingEvent → List (FileOp FileName)
  | .apply entry => ((applyEntry unmarshal cfg state.storage entry).run state.disk).2
  | .persist index => ((persistApplied state.storage index).run state.disk).2
  | .drop base => [.remove (.log base)]
  | .sweep => (state.sweeping.take 1).map .remove

/-- An update applies its entries and persists the last index. Between any two of its steps retention may
drop a sealed segment and remove its files. -/
def Retaining.step (state : Retaining) : RetainingEvent → Option Retaining
  | .apply entry =>
    match (applyEntry unmarshal cfg state.storage entry).run state.disk with
    | (.ok (_, storage), ops) => some { state with disk := state.disk.applyAll ops, storage := storage }
    | (.error _, _) => none
  | .persist index =>
    match (persistApplied state.storage index).run state.disk with
    | (.ok _, ops) => some { state with disk := state.disk.applyAll ops }
    | (.error _, _) => none
  | .drop base =>
    if state.sweeping = [] ∧ base ∈ state.storage.segments.dropLast.map baseOffset then
      some ⟨state.disk.apply (.remove (.log base)), state.storage.without base, [.index base, .timeindex base]⟩
    else none
  | .sweep =>
    match state.sweeping with
    | [] => none
    | name :: rest => some { state with disk := state.disk.apply (.remove name), sweeping := rest }

def retainingRuns : System Retaining RetainingEvent where
  start state := ∃ fsm ops, (openFSM cfg).run ∅ = (.ok (0, fsm), ops) ∧
    state = ⟨(∅ : StorageDisk).applyAll ops, fsm.storage, []⟩
  step state event next := state.step unmarshal cfg event = some next

end

/-- The segment at the base offset holds the offset at which the sidecar ends. -/
def Retaining.HoldsSidecar (state : Retaining) (base : Int) : Prop :=
  ∃ sidecar, readSidecar state.disk = .ok (some sidecar) ∧ base ≤ sidecar.latestOffset ∧
    ∃ seg ∈ state.storage.segments, seg.baseOffset = base ∧
      ∃ batch ∈ seg.batches state.disk, sidecar.latestOffset < endOffsetOf batch

/-- Retention drops no segment with the offset of the sidecar. The appended batches are encoded ones and
their offsets fit into 64 bits. -/
def Sheltered (unmarshal : Unmarshal) (state : Retaining) : RetainingEvent → Prop
  | .apply entry => Admissible unmarshal entry ∧ state.storage.latestOffset + entry.records < 2 ^ 63
  | .persist _ | .sweep => True
  | .drop base => ¬ state.HoldsSidecar base

/-- No half-deleted segment lies above the offset of the sidecar. -/
def Retaining.SweepsBelow (state : Retaining) : Prop :=
  ∀ sidecar, readSidecar state.disk = .ok (some sidecar) →
    ∀ base, .index base ∈ state.sweeping ∨ .timeindex base ∈ state.sweeping → base ≤ sidecar.latestOffset

/-- The process stops before the last operation of the event at hand. -/
def Retaining.Stops (unmarshal : Unmarshal) (cfg : StorageConfig)
    (state : Retaining) (image : StorageDisk) : Prop :=
  ∃ event count, Sheltered unmarshal state event ∧ count < (state.ops unmarshal cfg event).length ∧
    image = state.disk.applyAll ((state.ops unmarshal cfg event).take count)

/-- The open state machine ends at the offset of the sidecar, and so does every batch in its log. A replay of
any later entries leaves an ordered log. -/
def Reconciles (unmarshal : Unmarshal) (cfg : StorageConfig)
    (image left : StorageDisk) : Prop :=
  ∃ sidecar fsm recovery, readSidecar image = .ok (some sidecar) ∧
    (openFSM cfg).run left = (.ok (sidecar.lastAppliedIndex, fsm), recovery) ∧
    fsm.storage.latestOffset = sidecar.latestOffset ∧
    (∀ seg ∈ fsm.storage.segments, ∀ batch ∈ seg.batches (left.applyAll recovery),
      endOffsetOf batch ≤ sidecar.latestOffset) ∧
    ∀ again : List (List Entry), (∀ entries ∈ again, entries ≠ []) →
      (∀ entry ∈ again.flatten, Admissible unmarshal entry) →
      sidecar.latestOffset + recordTotal again.flatten < 2 ^ 63 →
      ∃ replayed restored more,
        (updates unmarshal cfg fsm again).run (left.applyAll recovery) = (.ok (replayed, restored), more) ∧
        restored.storage.Ordered ((left.applyAll recovery).applyAll more)

section
variable {unmarshal : Unmarshal} {cfg : StorageConfig}

/-- The names are index files of segments without a log. -/
def Strays (names : List FileName) (disk : StorageDisk) (bound : Int) : Prop :=
  ∀ name ∈ names, ∃ base, (name = .index base ∨ name = .timeindex base) ∧ disk.lookup (.log base) = none ∧ base ≤ bound

section
variable {names : List FileName} {disk : StorageDisk} {bound : Int} (strays : Strays names disk bound)
include strays

theorem Strays.only : IndexesOnly (· ∈ names) := by
  intro name member
  obtain ⟨base, named, _⟩ := strays name member
  exact ⟨base, named⟩

theorem Strays.shown {base : Int} (other : disk.lookup (.log base) ≠ none ∨ bound < base) : Shown (· ∈ names) base := by
  refine shown_of_apart fun name member => ?_
  obtain ⟨stray, named, missing, below⟩ := strays name member
  refine ⟨stray, named, ?_⟩
  rintro rfl
  rcases other with present | above
  · exact present missing
  · omega

end

/-- A crash beside index files of deleted segments is reconciled with the sidecar. -/
theorem reconciles_of_image (indexable : cfg.Indexable) {goal : PartitionLog} {names : List FileName}
    {image clean left : StorageDisk} {index : UInt64} (agree : AgreeOff (· ∈ names) image clean)
    (crashed : CrashImage cfg goal (2 ^ 63) clean)
    (found : image.lookup .sidecar = some ⟨encodeSidecar index goal.next, 16, false⟩)
    (valid : goal.Valid cfg.segmentMaxBytes) (spaced : goal.Spaced) (growing : Growing goal.contents)
    (strays : Strays names image goal.next) (survives : Survives image left) :
    Reconciles unmarshal cfg image left := by
  have only := strays.only
  have each := growing_contents.mp growing
  obtain ⟨kept, keptSurvives, alike⟩ := agree.survives survives
  obtain ⟨log, tail, logValid, holds, torn, recoverable, _⟩ := crashed.survive keptSurvives
  obtain ⟨extra, newer, longer⟩ := recoverable.longer
  have gone : Strays names left goal.next := by
    intro name member
    obtain ⟨base, named, missing, below⟩ := strays name member
    exact ⟨base, named, survives.lookup_none missing, below⟩
  have sidecar : kept.read .sidecar = some (encodeSidecar index goal.next) := by
    obtain ⟨file, present, stays⟩ := survives.lookup_some found
    rw [Disk.read, ← alike _ only.sidecar, present, Option.map_some,
      stays.data_eq (encodeSidecar_length _ _).symm rfl]
  have shown : ∀ base ∈ log.bases, Shown (· ∈ names) base := by
    intro base member
    refine gone.shown (.inl ?_)
    have listed := member
    rw [← holds.logBases_eq logValid.formed, mem_logBases] at listed
    rw [alike _ (only.log base)]
    exact Option.isSome_iff_ne_none.mp listed
  obtain ⟨s, opened, rep⟩ := openFSM_restores indexable valid logValid holds torn longer recoverable.growing sidecar
  have same := openFSM_alike alike only indexable logValid holds torn shown
  have after := same.agree
  rw [opened] at after
  refine ⟨⟨index, goal.next⟩, ⟨s, index⟩, _, ?_, same.same.trans opened, rep.next, ?_, ?_⟩
  · exact readSidecar_encodeSidecar (by simp [Disk.read, found]) valid.active.stop_range
  · intro seg member batch inside
    rw [batches_congr fun base => after _ (only.log base)] at inside
    exact rep.ends_le spaced each member inside
  · intro again present admissible offsets
    have start : goal.active.base ≤ goal.next :=
      ((each goal.active (by simp [PartitionLog.segments])).between valid.active.chained).1
    have fits : Fits goal (recordTotal again.flatten) := ⟨start, offsets⟩
    obtain ⟨restored, ran, restoredRep⟩ := @updates_run _ _ _ _ _ indexable ⟨s, index⟩ _ present admissible rep fits
    have free : ∀ base ∈ (replay cfg.segmentMaxBytes goal again.flatten).bases, base ∉ goal.bases →
        Vacant (left.applyAll (restoringOps cfg goal log newer)) base := by
      intro base member fresh
      have above := replay_new_bases indexable.segment admissible valid fits member fresh
      have visible := gone.shown (.inr above)
      exact (rep.holds.others base fresh).vacant.congr (after _ (only.log base)) (after _ visible.index)
        (after _ visible.timeindex)
    have replayed := @updates_alike _ _ _ _ _ _ _ indexable ⟨s, index⟩ _ present admissible rep fits after only free
    have spacedAfter := replay_spaced indexable.segment admissible valid fits spaced
    have growingAfter := replay_growing indexable.segment admissible valid fits growing
    have final := replayed.agree
    rw [ran] at final
    refine ⟨_, restored, _, replayed.same.trans ran, ?_⟩
    exact (restoredRep.ordered spacedAfter (growing_contents.mp growingAfter)).congr fun base =>
      final _ (only.log base)

end

/-- The directory without the files that are still to be removed belongs to the log of the storage. It is ahead
of the log that the sidecar records. -/
structure Tracks (cfg : StorageConfig) (state : Retaining) (clean : StorageDisk) (goal log : PartitionLog) :
    Prop where
  agree : AgreeOff (· ∈ state.sweeping) state.disk clean
  rep : Represents False cfg clean state.storage log
  valid : goal.Valid cfg.segmentMaxBytes
  ahead : Ahead goal log clean
  room : log.HasRoom cfg.segmentMaxBytes
  spaced : log.Spaced
  sidecar : state.disk.lookup .sidecar = none ∨
    ∃ index, state.disk.lookup .sidecar = some ⟨encodeSidecar index goal.next, 16, false⟩
  swept : ∀ name ∈ state.sweeping, ∃ base, (name = .index base ∨ name = .timeindex base) ∧ base ∉ log.bases ∧
    base < log.next

namespace Tracks
variable {unmarshal : Unmarshal} {cfg : StorageConfig} {state : Retaining}
  {clean : StorageDisk} {goal log : PartitionLog}

theorem only (tracks : Tracks cfg state clean goal log) : IndexesOnly (· ∈ state.sweeping) := by
  intro name member
  obtain ⟨base, named, _⟩ := tracks.swept name member
  exact ⟨base, named⟩

theorem shown (tracks : Tracks cfg state clean goal log) {base : Int} (above : log.next ≤ base) :
    Shown (· ∈ state.sweeping) base := by
  refine shown_of_apart fun name member => ?_
  obtain ⟨swept, named, _, below⟩ := tracks.swept name member
  exact ⟨swept, named, by omega⟩

theorem start (tracks : Tracks cfg state clean goal log) : log.active.base ≤ log.next :=
  ((tracks.ahead.growing log.active (by simp [PartitionLog.segments])).between tracks.rep.valid.active.chained).1

theorem entry_ops_keeps {hidden : FileName → Prop} (only : IndexesOnly hidden) (cfg : StorageConfig)
    (log : PartitionLog) (entry : Entry) : ∀ op ∈ entry.ops cfg log, op.KeepsHidden hidden := by
  unfold Entry.ops
  cases entry.batch? with
  | none => exact forall_mem_nil _
  | some batch => exact appendOps_keeps only cfg log batch

/-- An entry extends the tracked log, and a crash within it finds the recorded log. -/
theorem applied (indexable : cfg.Indexable) (tracks : Tracks cfg state clean goal log) {entry : Entry}
    (admissible : Admissible unmarshal entry) (offsets : state.storage.latestOffset + entry.records < 2 ^ 63) :
    ∃ left, (applyEntry unmarshal cfg state.storage entry).run state.disk =
        (.ok (entry.value log, left), entry.ops cfg log) ∧
      Tracks cfg ⟨state.disk.applyAll (entry.ops cfg log), left, state.sweeping⟩
        (clean.applyAll (entry.ops cfg log)) goal (entry.applied cfg.segmentMaxBytes log) ∧
      Along (CrashImage cfg goal (2 ^ 63)) clean (entry.ops cfg log) := by
  have only := tracks.only
  have next : state.storage.latestOffset = log.next := tracks.rep.next
  rw [next] at offsets
  have fits : Fits log (entry.records + 0) := ⟨tracks.start, by omega⟩
  obtain ⟨left, ran, after⟩ := applyEntry_run indexable admissible tracks.rep fits (le_refl 0)
  obtain ⟨images, further, wide⟩ := @replayOps_along unmarshal cfg clean indexable goal log state.storage (2 ^ 63)
    [entry]
    (by simpa using admissible) tracks.rep tracks.ahead tracks.room (by simpa [recordTotal] using fits)
    (by simpa [recordTotal] using offsets.le)
  have single : replayOps cfg log [entry] = entry.ops cfg log := append_nil _
  rw [single] at images further
  have free : ∀ base ∈ (entry.applied cfg.segmentMaxBytes log).bases, base ∉ log.bases → Vacant state.disk base := by
    intro base member fresh
    have visible := tracks.shown (admissible.new_bases tracks.rep.valid fits (le_refl 0) member fresh).le
    exact (tracks.rep.holds.others base fresh).vacant.congr (tracks.agree _ (only.log base))
      (tracks.agree _ visible.index) (tracks.agree _ visible.timeindex)
  have alike := applyEntry_alike indexable admissible tracks.rep fits (le_refl 0) tracks.agree only free
  have agree := alike.agree
  rw [ran] at agree
  have moved := admissible.next tracks.rep.valid fits (le_refl 0)
  refine ⟨left, alike.same.trans ran, ⟨agree, after, tracks.valid, further, wide,
    admissible.spaced tracks.rep.valid fits (le_refl 0) tracks.spaced, ?_, ?_⟩, images⟩
  · rw [(ofSegments_entry cfg log entry).lookup_sidecar]
    exact tracks.sidecar
  · intro name member
    obtain ⟨base, named, fresh, below⟩ := tracks.swept name member
    have records := entry.records_nonneg
    refine ⟨base, named, fun listed => ?_, by omega⟩
    have above := admissible.new_bases tracks.rep.valid fits (le_refl 0) listed fresh
    omega

/-- The new sidecar records the whole tracked log. -/
theorem persisted (tracks : Tracks cfg state clean goal log) (index : UInt64) :
    (persistApplied state.storage index).run state.disk = (.ok (), persistOps log index) ∧
      Tracks cfg ⟨state.disk.applyAll (persistOps log index), state.storage, state.sweeping⟩
        (clean.applyAll (persistOps log index)) log log ∧
      Along (CrashImage cfg goal (2 ^ 63)) clean ((persistOps log index).take 3) := by
  have only := tracks.only
  have bound : log.next ≤ 2 ^ 63 := by
    have range : int64 log.next = log.next := tracks.rep.valid.active.stop_range
    rw [← range, int64]
    omega
  obtain ⟨images, _, further, sidecar⟩ := persistOps_along tracks.rep tracks.ahead bound index
  have alike := persistApplied_alike tracks.agree only state.storage index
  have ran := persistApplied_run tracks.rep index
  have agree := alike.agree
  rw [ran] at agree
  refine ⟨alike.same.trans ran, ⟨agree, Represents.persist tracks.rep index, tracks.rep.valid, further, tracks.room,
    tracks.spaced, Or.inr ⟨index, ?_⟩, tracks.swept⟩, images⟩
  rw [agree _ only.sidecar]
  exact sidecar

/-- A dropped segment leaves the tracked log, and with it the recorded one. -/
theorem dropped (tracks : Tracks cfg state clean goal log) {base : Int} (idle : state.sweeping = [])
    (member : base ∈ state.storage.segments.dropLast.map baseOffset)
    (kept : goal.active.base ≠ base) :
    Tracks cfg ⟨state.disk.apply (.remove (.log base)), state.storage.without base, [.index base, .timeindex base]⟩
      (clean.applyAll (removeOps [base])) (goal.without base) (log.without base) := by
  obtain ⟨closed, segments, handles⟩ := tracks.rep.handles
  rw [segments, dropLast_concat, sealedHandles_bases handles] at member
  obtain ⟨seg, found, rfl⟩ := mem_map.mp member
  have active : log.active.base ≠ seg.base := (tracks.rep.valid.distinct seg found).symm
  have below := PartitionLog.closed_lt_of_increasing tracks.rep.valid.increasing found
  have start := tracks.start
  refine ⟨?_, tracks.rep.without active, tracks.valid.without _, tracks.ahead.without kept active, tracks.room,
    tracks.spaced.without _, ?_, ?_⟩
  · intro name shown
    simp only [mem_cons, not_mem_nil, or_false, not_or] at shown
    have same := tracks.agree name (by rw [idle]; exact not_mem_nil)
    simp [removeOps, shown, same]
  · rw [lookup_remove, if_neg (by simp)]
    exact tracks.sidecar
  · intro name listed
    simp only [mem_cons, not_mem_nil, or_false] at listed
    refine ⟨seg.base, listed, ?_, ?_⟩
    · rw [PartitionLog.mem_without_bases active]
      exact fun both => both.2 rfl
    · change seg.base < log.next
      omega

/-- The removal of one more file of a deleted segment loses nothing. -/
theorem swept_one (tracks : Tracks cfg state clean goal log) {name : FileName} {rest : List FileName}
    (head : state.sweeping = name :: rest) :
    Tracks cfg ⟨state.disk.apply (.remove name), state.storage, rest⟩ clean goal log := by
  obtain ⟨base, named, fresh, _⟩ := tracks.swept name (by rw [head]; exact mem_cons_self)
  have absent := tracks.rep.holds.others base fresh
  refine ⟨?_, tracks.rep, tracks.valid, tracks.ahead, tracks.room, tracks.spaced, ?_, ?_⟩
  · intro other shown
    rw [lookup_remove]
    split
    · next same =>
      rw [same]
      rcases named with rfl | rfl
      · exact absent.index.symm
      · exact absent.timeindex.symm
    · next distinct =>
      refine tracks.agree other ?_
      rw [head]
      exact fun member => (mem_cons.mp member).elim distinct shown
  · have other : FileName.sidecar ≠ name := by
      rcases named with rfl | rfl <;> simp
    rw [lookup_remove, if_neg other]
    exact tracks.sidecar
  · intro later member
    exact tracks.swept later (by rw [head]; exact mem_cons_of_mem _ member)

/-- Without a sidecar the tracked log need not be ahead of anything but its sealed segments. -/
theorem forget (indexable : cfg.Indexable) (tracks : Tracks cfg state clean goal log)
    (fresh : state.disk.lookup .sidecar = none) :
    Tracks cfg state clean ⟨log.closedSegs, ⟨log.active.base, []⟩⟩ log where
  agree := tracks.agree
  rep := tracks.rep
  valid := by
    have valid := tracks.rep.valid
    refine ⟨?_, by simpa [PartitionLog.bases, PartitionLog.segments] using valid.increasing, indexable.segment⟩
    intro seg member
    rcases mem_append.mp member with closed | last
    · exact valid.segment seg (mem_append_left _ closed)
    · rw [mem_singleton.mp last]
      exact Segment.valid_empty valid.active.nonneg valid.active.range
  ahead := tracks.ahead.forget tracks.rep.valid
  room := tracks.room
  spaced := tracks.spaced
  sidecar := .inl fresh
  swept := tracks.swept

/-- A sealed segment with the end of the recorded log also holds a later batch. -/
theorem holdsSidecar (tracks : Tracks cfg state clean goal log) {index : UInt64}
    (found : state.disk.lookup .sidecar = some ⟨encodeSidecar index goal.next, 16, false⟩)
    (member : goal.active.base ∈ state.storage.segments.dropLast.map baseOffset) :
    state.HoldsSidecar goal.active.base := by
  have logs : ∀ base, state.disk.lookup (.log base) = clean.lookup (.log base) :=
    fun base => tracks.agree _ (tracks.only.log base)
  obtain ⟨closed, segments, handles⟩ := tracks.rep.handles
  rw [segments, dropLast_concat, sealedHandles_bases handles] at member
  obtain ⟨seg, inside, base⟩ := mem_map.mp member
  have distinct := tracks.rep.valid.distinct seg inside
  obtain ⟨extra, newer, longer⟩ := tracks.ahead.longer
  have present : extra ≠ [] := by
    rcases longer.shape with ⟨_, _, active⟩ | ⟨front, last, shape, _, _⟩
    · rw [active] at distinct
      exact absurd base distinct
    · exact longer.rolled (by rw [shape]; simp)
  obtain ⟨batch, rest, rfl⟩ := exists_cons_of_ne_nil present
  have listed : ⟨goal.active.base, goal.active.batches ++ batch :: rest⟩ ∈ log.segments := by
    rw [longer.split]
    simp
  obtain ⟨handle, held, handleBase, batches⟩ := tracks.rep.handle listed
  have chained := (chained_append.mp (tracks.rep.valid.segment _ listed).chained).2
  have starts : baseOffsetOf batch = goal.next := chained.1
  have growing := tracks.ahead.growing _ listed
  have grows := growing batch (mem_append_right _ mem_cons_self)
  have before : goal.active.base ≤ goal.next := (growing.append_left.between tracks.valid.active.chained).1
  refine ⟨⟨index, goal.next⟩, ?_, before, handle, held, handleBase, batch, ?_, by change goal.next < _; omega⟩
  · exact readSidecar_encodeSidecar (by simp [Disk.read, found]) tracks.valid.active.stop_range
  · rw [batches_congr logs, batches]
    simp

end Tracks

section
variable {unmarshal : Unmarshal} {cfg : StorageConfig} {state next : Retaining}

/-- Some log of the running storage is tracked. -/
def Tracked (cfg : StorageConfig) (state : Retaining) : Prop :=
  ∃ clean goal log, Tracks cfg state clean goal log

theorem tracked_start (indexable : cfg.Indexable) (begins : (retainingRuns unmarshal cfg).start state) :
    Tracked cfg state := by
  obtain ⟨fsm, ops, opened, rfl⟩ := begins
  obtain ⟨s, ran, running⟩ := openFSM_empty indexable
  rw [ran] at opened
  obtain ⟨same, rfl⟩ := Prod.mk.inj opened
  cases same
  refine ⟨_, .empty, .empty, AgreeOff.refl _ _, running.rep, running.rep.valid, running.ahead, running.room,
    pairwise_singleton _ _, ?_, by simp⟩
  exact .inl ((ofSegments_newSegmentOps cfg 0).lookup_sidecar ∅)

/-- Every event, a crash in a deletion too, keeps the log tracked. -/
theorem tracked_step (indexable : cfg.Indexable) {event : RetainingEvent} (tracked : Tracked cfg state)
    (sheltered : Sheltered unmarshal state event) (moved : state.step unmarshal cfg event = some next) :
    Tracked cfg next := by
  obtain ⟨clean, goal, log, tracks⟩ := tracked
  cases event with
  | apply entry =>
    obtain ⟨left, ran, after, _⟩ := tracks.applied indexable sheltered.1 sheltered.2
    simp only [Retaining.step, ran, Option.some.injEq] at moved
    rw [← moved]
    exact ⟨_, goal, _, after⟩
  | persist index =>
    obtain ⟨ran, after, _⟩ := tracks.persisted index
    simp only [Retaining.step, ran, Option.some.injEq] at moved
    rw [← moved]
    exact ⟨_, log, log, after⟩
  | drop base =>
    simp only [Retaining.step] at moved
    split at moved
    · next allowed =>
      obtain ⟨idle, member⟩ := allowed
      rw [← Option.some.inj moved]
      rcases tracks.sidecar with fresh | ⟨index, found⟩
      · refine ⟨_, _, _, (tracks.forget indexable fresh).dropped idle member ?_⟩
        obtain ⟨closed, segments, handles⟩ := tracks.rep.handles
        rw [segments, dropLast_concat, sealedHandles_bases handles] at member
        obtain ⟨seg, inside, rfl⟩ := mem_map.mp member
        exact (tracks.rep.valid.distinct seg inside).symm
      · refine ⟨_, _, _, tracks.dropped idle member ?_⟩
        rintro rfl
        exact sheltered (tracks.holdsSidecar found member)
    · cases moved
  | sweep =>
    simp only [Retaining.step] at moved
    split at moved
    · cases moved
    · next name rest head =>
      rw [← Option.some.inj moved]
      exact ⟨clean, goal, log, tracks.swept_one head⟩

/-- A process that stops within an event leaves the recorded log, its sidecar and some files of the segment that
retention is deleting. -/
theorem stops_image (indexable : cfg.Indexable) {clean image : StorageDisk} {goal log : PartitionLog}
    (tracks : Tracks cfg state clean goal log) (stops : state.Stops unmarshal cfg image) :
    ∃ kept, AgreeOff (· ∈ state.sweeping) image kept ∧ CrashImage cfg goal (2 ^ 63) kept ∧
      image.lookup .sidecar = state.disk.lookup .sidecar ∧
      ∀ base, base ∉ log.bases → base < log.next → image.lookup (.log base) = none := by
  obtain ⟨event, count, sheltered, inside, rfl⟩ := stops
  have only := tracks.only
  have bound : log.next ≤ 2 ^ 63 := by
    have range : int64 log.next = log.next := tracks.rep.valid.active.stop_range
    rw [← range, int64]
    omega
  have missing : ∀ base, base ∉ log.bases → state.disk.lookup (.log base) = none :=
    fun base fresh => (tracks.agree _ (only.log base)).trans (tracks.rep.holds.others base fresh).log
  have here : ∀ ops : List (FileOp FileName), ops.length ≤ 1 → count < ops.length → ops.take count = [] := by
    intro ops short within
    rw [show count = 0 by omega, take_zero]
  have resting : ∃ kept, AgreeOff (· ∈ state.sweeping) state.disk kept ∧ CrashImage cfg goal (2 ^ 63) kept ∧
      state.disk.lookup .sidecar = state.disk.lookup .sidecar ∧
      ∀ base, base ∉ log.bases → base < log.next → state.disk.lookup (.log base) = none :=
    ⟨clean, tracks.agree, ⟨log, tracks.rep.valid, tracks.rep.holds, tracks.ahead, bound⟩, rfl,
      fun base fresh _ => missing base fresh⟩
  cases event with
  | apply entry =>
    have next : state.storage.latestOffset = log.next := tracks.rep.next
    obtain ⟨left, ran, _, images⟩ := tracks.applied indexable sheltered.1 sheltered.2
    have fits : Fits log (entry.records + 0) := ⟨tracks.start, by rw [← next]; have := sheltered.2; omega⟩
    simp only [Retaining.ops, ran]
    refine ⟨clean.applyAll ((entry.ops cfg log).take count), ?_, images count, ?_, ?_⟩
    · exact tracks.agree.applyAll fun op member =>
        Tracks.entry_ops_keeps only cfg log entry op (mem_of_mem_take member)
    · exact ((ofSegments_entry cfg log entry).take count).lookup_sidecar _
    · intro base fresh below
      have absent : base ∉ (entry.applied cfg.segmentMaxBytes log).bases := by
        intro listed
        have above := sheltered.1.new_bases tracks.rep.valid fits (le_refl 0) listed fresh
        omega
      rw [@OfSegments.lookup _ _ ((ofSegments_entry cfg log entry).take count) _ absent (.log base) rfl,
        missing base fresh]
  | persist index =>
    obtain ⟨ran, _, images⟩ := tracks.persisted index
    simp only [Retaining.ops, ran] at inside ⊢
    have early : (persistOps log index).take count = ((persistOps log index).take 3).take count := by
      have four : (persistOps log index).length = 4 := rfl
      rw [take_take, Nat.min_eq_left (by omega)]
    rw [early]
    refine ⟨clean.applyAll (((persistOps log index).take 3).take count), ?_, images count, ?_, ?_⟩
    · refine tracks.agree.applyAll fun op member => only.keeps fun source target same => ?_
      have listed := mem_of_mem_take (mem_of_mem_take member)
      rw [same] at listed
      simp [persistOps] at listed
      exact listed.1
    · refine lookup_applyAll_of_not_touched _ _ _ fun op member => ?_
      have listed := mem_of_mem_take member
      simp only [persistOps, take_succ_cons, take_zero, mem_cons, not_mem_nil, or_false] at listed
      rcases listed with rfl | rfl | rfl <;> simp [FileOp.touches]
    · intro base fresh _
      rw [lookup_applyAll_of_not_touched _ _ _ fun op member touched => ?_, missing base fresh]
      have listed := mem_of_mem_take member
      simp only [persistOps, take_succ_cons, take_zero, mem_cons, not_mem_nil, or_false] at listed
      rcases listed with rfl | rfl | rfl
      · simp only [FileOp.touches, mem_singleton, FileName.log.injEq] at touched
        exact fresh (touched ▸ log.active_mem_bases)
      · simp [FileOp.touches] at touched
      · simp [FileOp.touches] at touched
  | drop base =>
    rw [here _ (by simp [Retaining.ops]) inside]
    exact resting
  | sweep =>
    rw [here _ (by simp [Retaining.ops]) inside]
    exact resting

end

/-- One deletion of a retention pass. -/
def deletion (base : Int) : List RetainingEvent := [.drop base, .sweep, .sweep]

/-- The deletions run file by file and leave the segments that are kept. -/
theorem follow_deletions (unmarshal : Unmarshal) (cfg : StorageConfig)
    {bases : List Int} {disk : StorageDisk} {s : StorageImpl} {closed : List SegmentStorage} {active : SegmentStorage}
    (segments : s.segments = closed ++ [active])
    (listed : ∀ base ∈ bases, base ∈ closed.map baseOffset) (distinct : bases.Nodup)
    (kept : active.baseOffset ∉ bases) :
    follow (Retaining.step unmarshal cfg) ⟨disk, s, []⟩ (bases.flatMap deletion) =
      some ⟨disk.applyAll (removeOps bases),
        { s with segments := (closed.filter fun seg => seg.baseOffset ∉ bases) ++ [active] }, []⟩ := by
  induction bases generalizing disk s closed with
  | nil => simp [follow, removeOps, ← segments]
  | cons base bases ih =>
    obtain ⟨fresh, rest⟩ := nodup_cons.mp distinct
    obtain ⟨other, later⟩ := not_or.mp (fun member => kept (mem_cons.mpr member))
    have allowed : base ∈ s.segments.dropLast.map baseOffset := by
      rw [segments, dropLast_concat]
      exact listed base mem_cons_self
    have left : (s.without base).segments = (closed.filter fun seg => seg.baseOffset ≠ base) ++ [active] := by
      simp [StorageImpl.without, segments, other]
    have inside : ∀ later ∈ bases, later ∈ (closed.filter fun seg => seg.baseOffset ≠ base).map
        baseOffset := by
      intro later member
      obtain ⟨seg, found, same⟩ := mem_map.mp (listed later (mem_cons_of_mem _ member))
      refine mem_map.mpr ⟨seg, mem_filter.mpr ⟨found, decide_eq_true ?_⟩, same⟩
      rintro rfl
      exact fresh (same ▸ member)
    have dropped : Retaining.step unmarshal cfg ⟨disk, s, []⟩ (.drop base) =
        some ⟨disk.apply (.remove (.log base)), s.without base, [.index base, .timeindex base]⟩ :=
      if_pos ⟨rfl, allowed⟩
    have first : follow (Retaining.step unmarshal cfg) ⟨disk, s, []⟩ ((base :: bases).flatMap deletion) =
        follow (Retaining.step unmarshal cfg) ⟨disk.applyAll (removeOps [base]), s.without base, []⟩
          (bases.flatMap deletion) := by
      simp only [flatMap_cons, deletion, cons_append, nil_append, follow, dropped, Option.bind_some]
      rfl
    rw [first, ih left inside rest later, filter_filter]
    have same : (closed.filter fun seg => decide (seg.baseOffset ∉ bases) && decide (seg.baseOffset ≠ base)) =
        closed.filter fun seg => seg.baseOffset ∉ base :: bases := by
      refine filter_congr fun seg _ => ?_
      simp [Bool.and_comm]
    rw [same]
    rfl

/-- A retention pass deletes some of the sealed segments in their order, whatever its parameters are. -/
theorem enforceRetention_deletions (unmarshal : Unmarshal) {cfg : StorageConfig}
    {state : Retaining} (tracked : Tracked cfg state) (idle : state.sweeping = [])
    (retentionMs retentionBytes nowMs : Int) :
    ∃ (bases : List Int) (left : StorageImpl),
      bases.Sublist (state.storage.segments.dropLast.map baseOffset) ∧
      (state.storage.enforceRetention retentionMs retentionBytes nowMs).run state.disk =
        (.ok (bases.length, left), removeOps bases) ∧
      follow (Retaining.step unmarshal cfg) state (bases.flatMap deletion) =
        some ⟨state.disk.applyAll (removeOps bases), left, []⟩ := by
  obtain ⟨clean, goal, log, tracks⟩ := tracked
  obtain ⟨closed, segments, handles⟩ := tracks.rep.handles
  have bases := tracks.rep.bases
  have increasing := tracks.rep.valid.increasing
  rw [← bases, segments, map_append, map_singleton] at increasing
  obtain ⟨inner, _, across⟩ := pairwise_append.mp increasing
  have distinct : (closed.map baseOffset).Nodup := inner.imp fun lower => lower.ne
  have whole : state = ⟨state.disk, state.storage, []⟩ := by rw [← idle]
  by_cases single : state.storage.segments.length ≤ 1
  · refine ⟨[], state.storage, nil_sublist _, ?_, by rw [← idle]; rfl⟩
    rw [StorageImpl.enforceRetention, if_pos single]
    rfl
  · have front : state.storage.segments.dropLast = closed := by rw [segments, dropLast_concat]
    have last : state.storage.segments.drop (state.storage.segments.length - 1) = [activeHandle cfg log.active] := by
      rw [segments, length_append, length_singleton, Nat.add_sub_cancel, drop_left]
    have judged : (retentionReasons state.storage.segments state.disk retentionMs retentionBytes nowMs).length =
        closed.length := by
      rw [retentionReasons_length, front]
    have reasoned : (Program.observe fun disk =>
        .ok (retentionReasons state.storage.segments disk retentionMs retentionBytes nowMs) :
          StorageProgram (List (Option RetentionReason))).run state.disk =
        (.ok (retentionReasons state.storage.segments state.disk retentionMs retentionBytes nowMs), []) :=
      Program.observe_run _ _
    generalize retentionReasons state.storage.segments state.disk retentionMs retentionBytes nowMs = reasons
      at judged reasoned
    have sublist := (picked_sublist Option.isSome reasons closed).map baseOffset
    have kept : (activeHandle cfg log.active).baseOffset ∉
        (picked Option.isSome reasons closed).map baseOffset := by
      intro member
      exact lt_irrefl _ (across _ (sublist.subset member) _ (mem_singleton_self _))
    have followed := @follow_deletions unmarshal cfg _ state.disk _ _ _ segments (fun _ member => sublist.subset member)
      (distinct.sublist sublist) kept
    rw [← whole] at followed
    refine ⟨_, _, by rw [front]; exact sublist, ?_, followed⟩
    rw [StorageImpl.enforceRetention, if_neg single, Program.bind_ok reasoned, front]
    simp only [applyAll_nil, nil_append]
    rw [Program.bind_ok (removeSegments_run _ state.disk), last, ← picked_none_eq_filter judged distinct, length_map]
    simp [picked]

theorem tracked_of_reaches {unmarshal : Unmarshal} {cfg : StorageConfig} (indexable : cfg.Indexable) {state : Retaining}
    (reached : (retainingRuns unmarshal cfg).Reaches (Sheltered unmarshal) state) : Tracked cfg state := by
  refine @System.Reaches.invariant _ _ _ _ (Tracked cfg) ?_ ?_ _ reached
  · intro initial begins
    exact tracked_start indexable begins
  · intro current event next tracked sheltered moved
    exact tracked_step indexable tracked sheltered moved

/-- Whatever retention deletes, a crash is reconciled with the sidecar as long as retention spares the segment
with the offset of the sidecar and leaves no half-deleted segment above it. -/
theorem crashes_reconciled_with_retention (unmarshal : Unmarshal)
    (cfg : StorageConfig) (indexable : cfg.Indexable) (state : Retaining)
    (reached : (retainingRuns unmarshal cfg).Reaches (Sheltered unmarshal) state) (below : state.SweepsBelow)
    (image left : StorageDisk) (stops : state.Stops unmarshal cfg image)
    (persisted : image.lookup .sidecar ≠ none) (survives : Survives image left) :
    Reconciles unmarshal cfg image left := by
  obtain ⟨clean, goal, log, tracks⟩ := tracked_of_reaches indexable reached
  obtain ⟨kept, agree, crashed, same, missing⟩ := stops_image indexable tracks stops
  obtain ⟨extra, newer, longer⟩ := tracks.ahead.longer
  rw [same] at persisted
  obtain ⟨index, found⟩ := tracks.sidecar.resolve_left persisted
  have growing := growing_contents.mpr (longer.growing tracks.ahead.growing)
  refine reconciles_of_image indexable agree crashed (same.trans found) tracks.valid
    (longer.spaced tracks.spaced) growing
    ?_ survives
  intro name member
  obtain ⟨base, named, fresh, behind⟩ := tracks.swept name member
  have read : readSidecar state.disk = .ok (some ⟨index, goal.next⟩) :=
    readSidecar_encodeSidecar (by simp [Disk.read, found]) tracks.valid.active.stop_range
  refine ⟨base, named, missing base fresh behind, below _ read base ?_⟩
  rcases named with rfl | rfl
  · exact .inl member
  · exact .inr member

instance decidableHoldsSidecar (state : Retaining) (base : Int) : Decidable (state.HoldsSidecar base) :=
  match read : readSidecar state.disk with
  | .ok (some sidecar) =>
    decidable_of_iff (base ≤ sidecar.latestOffset ∧ ∃ seg ∈ state.storage.segments, seg.baseOffset = base ∧
      ∃ batch ∈ seg.batches state.disk, sidecar.latestOffset < endOffsetOf batch)
      ⟨fun held => ⟨sidecar, read, held⟩, fun ⟨_, found, held⟩ =>
        Option.some.inj (Except.ok.inj (read.symm.trans found)) ▸ held⟩
  | .ok none => .isFalse fun ⟨_, found, _⟩ => nomatch read.symm.trans found
  | .error _ => .isFalse fun ⟨_, found, _⟩ => nomatch read.symm.trans found

/-- Sample entries are sheltered unless their offsets run out. -/
def SampleSheltered (state : Retaining) : RetainingEvent → Prop
  | .apply entry => entry = sampleEntry entry.index ∧ state.storage.latestOffset + entry.records < 2 ^ 63
  | .persist _ | .sweep => True
  | .drop base => ¬ state.HoldsSidecar base

instance decidableSampleSheltered (state : Retaining) :
    (event : RetainingEvent) → Decidable (SampleSheltered state event)
  | .apply entry => inferInstanceAs (Decidable (entry = sampleEntry entry.index ∧ _))
  | .persist _ | .sweep => .isTrue trivial
  | .drop base => inferInstanceAs (Decidable (¬ state.HoldsSidecar base))

theorem SampleSheltered.sheltered (state : Retaining) (event : RetainingEvent)
    (sample : SampleSheltered state event) : Sheltered noRetention state event := by
  cases event with
  | apply entry =>
    obtain ⟨same, offsets⟩ := sample
    exact ⟨same ▸ sampleEntry_admissible entry.index, offsets⟩
  | persist index | sweep => trivial
  | drop base => exact sample

/-- The storage that opens an empty directory under the small configuration. -/
def retainingStart : Retaining :=
  match (openFSM smallConfig).run ∅ with
  | (.ok (_, fsm), ops) => ⟨(∅ : StorageDisk).applyAll ops, fsm.storage, []⟩
  | (.error _, _) => ⟨∅, ⟨[], 0, 0, 0, false⟩, []⟩

theorem retainingStart_starts : (retainingRuns noRetention smallConfig).start retainingStart := by
  obtain ⟨s, opened, _⟩ := openFSM_empty smallConfig_indexable
  refine ⟨⟨s, 0⟩, _, opened, ?_⟩
  simp only [retainingStart, opened]

/-- The first segment is sealed below the sidecar, and retention has removed its log. -/
def sweptEvents : List RetainingEvent :=
  [.apply (sampleEntry 1), .apply (sampleEntry 2), .persist 2, .apply (sampleEntry 3), .drop 0]

def sweptState : Retaining :=
  (follow (Retaining.step noRetention smallConfig) retainingStart sweptEvents).get (by decide +kernel)

/-- A crash between two files of a deleted segment is reconciled. -/
theorem crashes_reconciled_half_deleted :
    sweptState.sweeping = [.index 0, .timeindex 0] ∧
      Reconciles noRetention smallConfig sweptState.disk sweptState.disk := by
  have sweeping : sweptState.sweeping = [.index 0, .timeindex 0] := by decide +kernel
  have recorded : readSidecar sweptState.disk = .ok (some ⟨2, 2⟩) := by decide +kernel
  have permitted : permits (Retaining.step noRetention smallConfig) SampleSheltered retainingStart sweptEvents := by
    decide +kernel
  have sampled : (retainingRuns noRetention smallConfig).Reaches SampleSheltered sweptState :=
    System.Reaches.run retainingStart_starts permitted (Option.some_get _).symm
  have reached := sampled.mono SampleSheltered.sheltered
  refine ⟨sweeping, crashes_reconciled_with_retention noRetention smallConfig smallConfig_indexable sweptState
    reached ?_ sweptState.disk sweptState.disk ⟨.persist 3, 0, trivial, by decide +kernel, rfl⟩
    (by decide +kernel) (Survives.refl _)⟩
  intro sidecar read base member
  rw [recorded] at read
  cases read
  rw [sweeping] at member
  simp only [mem_cons, FileName.index.injEq, reduceCtorEq, not_mem_nil, or_false, FileName.timeindex.injEq,
    false_or] at member
  rcases member with rfl | rfl <;> decide

/-- The sidecar ends within the first segment when it is sealed. -/
def sealedEvents : List RetainingEvent :=
  [.apply (sampleEntry 1), .persist 1, .apply (sampleEntry 2), .apply (sampleEntry 3)]

def sealedState : Retaining :=
  (follow (Retaining.step noRetention smallConfig) retainingStart sealedEvents).get (by decide +kernel)

/-- A pass that keeps no bytes deletes the sealed segment. -/
theorem enforceRetention_deletions_sealed :
    ∃ left, (sealedState.storage.enforceRetention 0 0 0).run sealedState.disk = (.ok (1, left), removeOps [0]) ∧
      follow (Retaining.step noRetention smallConfig) sealedState (deletion 0) =
        some ⟨sealedState.disk.applyAll (removeOps [0]), left, []⟩ := by
  have sampled : (retainingRuns noRetention smallConfig).Reaches SampleSheltered sealedState :=
    System.Reaches.run retainingStart_starts
      (by decide +kernel : permits (Retaining.step noRetention smallConfig) SampleSheltered retainingStart sealedEvents)
      (Option.some_get _).symm
  have tracked := tracked_of_reaches smallConfig_indexable (sampled.mono SampleSheltered.sheltered)
  obtain ⟨bases, left, sublist, ran, followed⟩ :=
    enforceRetention_deletions noRetention tracked (by decide +kernel) 0 0 0
  have closed : sealedState.storage.segments.dropLast.map baseOffset = [0] := by decide +kernel
  have one : ((sealedState.storage.enforceRetention 0 0 0).run sealedState.disk).1.toOption.map Prod.fst = some 1 := by
    decide +kernel
  rw [ran] at one
  rw [closed] at sublist
  obtain rfl : bases = [0] := sublist.eq_of_length (Option.some.inj one)
  exact ⟨left, ran, followed⟩

def expiredState : Retaining :=
  (follow (Retaining.step noRetention smallConfig) sealedState (deletion 0)).get (by decide +kernel)

/-- Retention keeps no bytes of the sealed segment, which holds the offset of the sidecar. After a crash the open
log still has the batch behind it. -/
theorem retention_deletes_sidecar_segment :
    (retainingRuns noRetention smallConfig).Reaches System.Free expiredState ∧
      (∃ ops, (sealedState.storage.enforceRetention 0 0 0).run sealedState.disk = (.ok (1, expiredState.storage), ops) ∧
        expiredState.disk = sealedState.disk.applyAll ops) ∧
      expiredState.SweepsBelow ∧ expiredState.Stops noRetention smallConfig expiredState.disk ∧
      ¬ Reconciles noRetention smallConfig expiredState.disk expiredState.disk := by
  have running : (retainingRuns noRetention smallConfig).Reaches System.Free sealedState :=
    System.Reaches.run retainingStart_starts
      (by decide +kernel : permits (Retaining.step noRetention smallConfig) System.Free retainingStart sealedEvents)
      (Option.some_get _).symm
  have reached : (retainingRuns noRetention smallConfig).Reaches System.Free expiredState :=
    System.Reaches.follow (fun _ _ _ _ moved => moved) running
      (by decide +kernel : permits (Retaining.step noRetention smallConfig) System.Free sealedState (deletion 0))
      (Option.some_get _).symm
  have finished : expiredState.sweeping = [] := by decide +kernel
  refine ⟨reached, ⟨removeOps [0], by decide +kernel, AList.ext (by decide +kernel)⟩, ?_,
    ⟨.persist 3, 0, trivial, by decide +kernel, rfl⟩, ?_⟩
  · intro sidecar _ base member
    rw [finished] at member
    simp at member
  · rintro ⟨sidecar, fsm, recovery, read, opened, _, ends, _⟩
    have recorded : readSidecar expiredState.disk = .ok (some ⟨1, 1⟩) := by decide +kernel
    have beyond : (match (openFSM smallConfig).run expiredState.disk with
        | (.ok (_, fsm), ops) => fsm.storage.segments.all fun seg =>
          (seg.batches (expiredState.disk.applyAll ops)).all fun batch => endOffsetOf batch ≤ 1
        | (.error _, _) => true) = false := by
      decide +kernel
    rw [recorded] at read
    cases read
    rw [opened] at beyond
    have within : (fsm.storage.segments.all fun seg =>
        (seg.batches (expiredState.disk.applyAll recovery)).all fun batch => endOffsetOf batch ≤ 1) = true := by
      simp only [all_eq_true, decide_eq_true_eq]
      exact ends
    exact Bool.false_ne_true (beyond.symm.trans within)

end BunnyMQ.Partition
