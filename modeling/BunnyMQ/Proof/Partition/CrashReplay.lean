/-
This file compares a crash and its replay with the run that never crashed.
-/

import BunnyMQ.Proof.Partition.Sidecar
import BunnyMQ.Proof.Storage.Contents

namespace BunnyMQ.Partition
open Foundation FileStore Storage StorageImpl List Program

section
variable {unmarshal : Unmarshal} {cfg : StorageConfig}
  {disk : StorageDisk} {past : List Entry}

/-- At any point of a list of calls the sidecar names the calls before one of them. -/
theorem updates_along (indexable : cfg.Indexable) {fsm : PartitionFSM} {calls : List (List Entry)}
    (present : ∀ entries ∈ calls, entries ≠ [])
    (admissible : ∀ entry ∈ calls.flatten, Admissible unmarshal entry)
    (running : Running cfg past disk fsm.storage)
    (fits : Fits (replay cfg.segmentMaxBytes .empty past) (recordTotal calls.flatten)) :
    Along (fun image => ∃ done, done <+: calls ∧ RecordedOrFresh cfg (past ++ done.flatten) image) disk
      (callsOps cfg (replay cfg.segmentMaxBytes .empty past) calls) := by
  induction calls generalizing past disk fsm with
  | nil => exact along_nil.mpr ⟨[], prefix_refl _, by simpa using running.sidecar⟩
  | cons entries calls ih =>
    obtain ⟨first, second, whole, _, left⟩ := replay_split indexable.segment admissible running.rep.valid fits
    have ends : entries.getLast? = some (entries.getLast (present entries mem_cons_self)) :=
      getLast?_eq_getLast_of_ne_nil _
    obtain ⟨middle, after, crashes⟩ := update_along indexable ends first running whole
    rw [callsOps, ends, Option.map_some, Option.getD_some, along_append, ← replay_append]
    rw [← replay_append] at left
    constructor
    · refine crashes.mono fun image recorded => ?_
      rcases recorded with before | behind
      · exact ⟨[], nil_prefix, by simpa using before⟩
      · exact ⟨[entries], by simp, by simpa using behind⟩
    · have rest := @ih _ _ ⟨middle, (entries.getLast (present entries mem_cons_self)).index⟩
        (fun later member => present later (mem_cons_of_mem _ member)) second after left
      refine rest.mono fun image earlier => ?_
      obtain ⟨done, within, recorded⟩ := earlier
      refine ⟨entries :: done, by simpa using within, ?_⟩
      rw [flatten_cons, ← append_assoc]
      exact recorded

/-- The first open starts with an empty log and no sidecar. -/
theorem openFSM_empty (indexable : cfg.Indexable) :
    ∃ s, (openFSM cfg).run ∅ = (.ok (0, ⟨s, 0⟩), newSegmentOps cfg 0) ∧
      Running cfg [] ((∅ : StorageDisk).applyAll (newSegmentOps cfg 0)) s := by
  obtain ⟨s, opened, rep⟩ := openStorage_empty indexable empty_absent False
  have missing : ((∅ : StorageDisk).applyAll (newSegmentOps cfg 0)).lookup .sidecar = none :=
    (ofSegments_newSegmentOps cfg 0).lookup_sidecar _
  have absent : readSidecar ((∅ : StorageDisk).applyAll (newSegmentOps cfg 0)) = .ok none := by
    simp [readSidecar, Disk.read, missing]
  have created : ((∅ : StorageDisk).applyAll (newSegmentOps cfg 0)).lookup (.log 0) = some File.empty := by
    rw [newSegmentOps, applyAll_cons, lookup_applyAll_of_not_touched _ _ _ ?_]
    · simp
    · intro op member
      rcases mem_append.mp member with index | timeindex
      · rw [touches_indexOps _ _ _ op index]
        simp
      · rw [touches_indexOps _ _ _ op timeindex]
        simp
  refine ⟨s, ?_, rep, Ahead.refl ?_ ?_ ⟨File.empty, created, rfl, rfl, rfl⟩, indexable.segment, .inl missing⟩
  · rw [openFSM, bind_ok opened, observe_bind absent]
    simp
  · intro seg member
    rw [mem_singleton.mp member]
    intro batch none
    cases none
  · intro seg member
    cases member

theorem fits_empty {count : Int} (bound : count < 2 ^ 63) : Fits .empty count :=
  ⟨le_refl _, by simpa [PartitionLog.empty, PartitionLog.next, Segment.stop, lastEnd] using bound⟩

/-- A run without a crash applies every entry, and at each of its points the sidecar names the calls
before one of them. -/
theorem run_along (indexable : cfg.Indexable) {calls : List (List Entry)}
    (present : ∀ entries ∈ calls, entries ≠ [])
    (admissible : ∀ entry ∈ calls.flatten, Admissible unmarshal entry)
    (offsets : recordTotal calls.flatten < 2 ^ 63) :
    ∃ final, (run unmarshal cfg calls).run ∅ =
        (.ok (replayValues cfg.segmentMaxBytes .empty calls.flatten, final),
          newSegmentOps cfg 0 ++ callsOps cfg .empty calls) ∧
      Represents False cfg ((∅ : StorageDisk).applyAll (newSegmentOps cfg 0 ++ callsOps cfg .empty calls))
        final.storage (replay cfg.segmentMaxBytes .empty calls.flatten) ∧
      Along (fun image => ∃ done, done <+: calls ∧ RecordedOrFresh cfg done.flatten image) ∅
        (newSegmentOps cfg 0 ++ callsOps cfg .empty calls) := by
  obtain ⟨s, opened, running⟩ := openFSM_empty indexable
  obtain ⟨final, ran, rep⟩ := @updates_run unmarshal False cfg _ _ indexable ⟨s, 0⟩ calls present admissible
    running.rep (fits_empty offsets)
  refine ⟨final, ?_, by rw [applyAll_append]; exact rep, along_append.mpr ⟨?_, ?_⟩⟩
  · rw [run, bind_ok opened, ran]
    rfl
  · intro count
    exact ⟨[], nil_prefix, .inl (((ofSegments_newSegmentOps cfg 0).take count).lookup_sidecar _)⟩
  · exact (@updates_along unmarshal cfg _ [] indexable ⟨s, 0⟩ calls present admissible running
      (fits_empty offsets)).mono fun image ⟨done, within, recorded⟩ => ⟨done, within, recorded⟩

/-- The operations of an open that restores the recorded log from a longer one. -/
def restoringOps (cfg : StorageConfig) (goal log : PartitionLog) (newer : List Segment) : List (FileOp FileName) :=
  recoveryOps cfg log.active ++
    if goal.next < log.next then
      removeOps (newer.map Segment.base) ++ truncateOps cfg goal.active (!newer.isEmpty)
    else []

/-- The state machine opens a directory with a longer log at the log that its sidecar records. -/
theorem openFSM_restores (indexable : cfg.Indexable) {indexed : Prop} {goal log : PartitionLog} {tail : Bytes}
    {extra : List Bytes} {newer : List Segment} {index : UInt64} (valid : goal.Valid cfg.segmentMaxBytes)
    (logValid : log.Valid cfg.segmentMaxBytes) (holds : DiskHolds indexed cfg disk log tail)
    (torn : Framing.next recoveryFormat tail = none) (longer : goal.Extends log extra newer)
    (growing : ∀ seg ∈ log.segments, Growing seg.batches)
    (recorded : disk.read .sidecar = some (encodeSidecar index goal.next)) :
    ∃ s, (openFSM cfg).run disk = (.ok (index, ⟨s, index⟩), restoringOps cfg goal log newer) ∧
      Represents indexed cfg (disk.applyAll (restoringOps cfg goal log newer)) s goal := by
  have recoverable : Recoverable goal log := ⟨⟨extra, newer, longer⟩, growing⟩
  obtain ⟨s, opened, rep⟩ := openStorage_run indexable logValid holds torn
  have sidecar : readSidecar (disk.applyAll (recoveryOps cfg log.active)) = .ok (some ⟨index, goal.next⟩) := by
    refine readSidecar_encodeSidecar ?_ valid.active.stop_range
    rw [← recorded]
    exact read_congr ((ofSegments_recoveryOps cfg log.active).lookup_sidecar disk)
  rw [openFSM, bind_ok opened, observe_bind sidecar]
  simp only [latestOffset, rep.next]
  rcases recoverable.reaches logValid with above | same
  · obtain ⟨cut, truncated, goalRep⟩ :=
      truncateTo_run indexable rep valid recoverable.goal_growing longer above
    refine ⟨cut, ?_, by rw [restoringOps, if_pos above, applyAll_append]; exact goalRep⟩
    rw [if_pos above, bind_ok truncated]
    simp [restoringOps, above]
  · subst same
    refine ⟨s, ?_, by rw [restoringOps, if_neg (lt_irrefl _), append_nil]; exact rep⟩
    rw [if_neg (lt_irrefl _)]
    simp [restoringOps]

/-- After a crash the state machine opens with the index of its sidecar and the log that belongs to it. -/
theorem openFSM_recorded (indexable : cfg.Indexable) {image left : StorageDisk} {goal : PartitionLog} {bound : Int}
    {index : UInt64} (valid : goal.Valid cfg.segmentMaxBytes)
    (found : image.lookup .sidecar = some ⟨encodeSidecar index goal.next, 16, false⟩)
    (crashed : CrashImage cfg goal bound image) (survives : Survives image left) :
    readSidecar image = .ok (some ⟨index, goal.next⟩) ∧
    ∃ s ops, (openFSM cfg).run left = (.ok (index, ⟨s, index⟩), ops) ∧
      Represents False cfg (left.applyAll ops) s goal := by
  refine ⟨readSidecar_encodeSidecar (by simp [Disk.read, found]) valid.active.stop_range, ?_⟩
  obtain ⟨log, tail, logValid, holds, torn, recoverable, _⟩ := crashed.survive survives
  obtain ⟨extra, newer, longer⟩ := recoverable.longer
  obtain ⟨file, present, kept⟩ := survives.lookup_some found
  have data := kept.data_eq (encodeSidecar_length _ _).symm rfl
  obtain ⟨s, opened, rep⟩ := openFSM_restores indexable valid logValid holds torn longer recoverable.growing
    (by rw [Disk.read, present, Option.map_some, data])
  exact ⟨s, _, opened, rep⟩

end

section
variable {first second : List Entry} {last : Entry} (ends : first.getLast? = some last)
  (ordered : ((first ++ second).map Entry.index).Pairwise (· < ·))
include ends ordered

/-- The entries behind the last recorded one are exactly those with a larger index. -/
theorem later_iff : (∀ entry ∈ first, ¬ last.index < entry.index) ∧ ∀ entry ∈ second, last.index < entry.index := by
  obtain ⟨front, rfl⟩ := getLast?_eq_some_iff.mp ends
  rw [map_append, pairwise_append] at ordered
  obtain ⟨inner, _, across⟩ := ordered
  rw [map_append, pairwise_append] at inner
  constructor
  · intro entry member later
    rcases mem_append.mp member with earlier | same
    · exact UInt64.lt_asymm later (inner.2.2 _ (mem_map_of_mem earlier) last.index (by simp))
    · rw [mem_singleton.mp same] at later
      exact UInt64.lt_irrefl _ later
  · intro entry member
    exact across last.index (by simp) _ (mem_map_of_mem member)

theorem filter_later {before behind : List Nat} (paired : first.length = before.length)
    (follows : second.length = behind.length) :
    (first ++ second).filter (fun entry => last.index < entry.index) = second ∧
      (((first ++ second).zip (before ++ behind)).filter (fun entry => last.index < entry.1.index)).map Prod.snd =
        behind := by
  obtain ⟨earlier, later⟩ := later_iff ends ordered
  constructor
  · rw [filter_append, filter_eq_nil_iff.mpr, filter_eq_self.mpr, nil_append]
    · intro entry member
      exact decide_eq_true (later entry member)
    · intro entry member
      rw [decide_eq_true_eq]
      exact earlier entry member
  · rw [zip_append paired, filter_append, filter_eq_nil_iff.mpr, filter_eq_self.mpr,
      nil_append, map_snd_zip follows.ge]
    · intro entry member
      exact decide_eq_true (later entry.1 (of_mem_zip member).1)
    · intro entry member
      rw [decide_eq_true_eq]
      exact earlier entry.1 (of_mem_zip member).1

end

/-- The disk at some point of the run from an empty directory. -/
def diskAt (unmarshal : Unmarshal) (cfg : StorageConfig)
    (calls : List (List Entry)) (point : Nat) : StorageDisk :=
  (∅ : StorageDisk).applyAll (((run unmarshal cfg calls).run ∅).2.take point)

/-- Only a configuration with room for its index entries gets as far as a sidecar. -/
theorem indexable_of_sidecar {unmarshal : Unmarshal} {cfg : StorageConfig}
    (segment : 1 ≤ cfg.segmentMaxBytes) (segmentMax : cfg.segmentMaxBytes ≤ 2 ^ 31)
    (sample : 1 ≤ cfg.indexSampleBytes) (sampleMax : cfg.indexSampleBytes < 2 ^ 63)
    {calls : List (List Entry)} {point : Nat}
    (persisted : (diskAt unmarshal cfg calls point).lookup .sidecar ≠ none) : cfg.Indexable := by
  by_cases overflow : 2 ^ 63 < cfg.segmentMaxBytes + cfg.indexSampleBytes
  · exfalso
    have failed := openStorage_fails empty_absent sample
      (StorageConfig.allocSize_nonpos segment segmentMax sampleMax overflow)
    have ran : (run unmarshal cfg calls).run ∅ =
        (.error errInvalidArgument, [.create (.log 0), .create (.index 0)]) := by
      rw [run, bind_error]
      rw [openFSM, bind_error failed]
    refine persisted ?_
    rw [diskAt, ran, lookup_applyAll_of_not_touched]
    · exact AList.lookup_empty _
    · intro op member
      have inside := mem_of_mem_take member
      simp only [mem_cons, not_mem_nil, or_false] at inside
      rcases inside with rfl | rfl <;> simp [FileOp.touches]
  · exact StorageConfig.indexable_of_bounds segment sample (by omega) (by omega)

/-- The state machine opens the directory with the index of its sidecar. A replay of the later entries,
however they are cut into calls, returns the values and builds the log of the run without a crash. -/
def Resumes (unmarshal : Unmarshal) (cfg : StorageConfig)
    (calls : List (List Entry)) (image left : StorageDisk) : Prop :=
  ∃ values final ops, (run unmarshal cfg calls).run ∅ = (.ok (values, final), ops) ∧
    ∃ sidecar fsm recovery, readSidecar image = .ok (some sidecar) ∧
      (openFSM cfg).run left = (.ok (sidecar.lastAppliedIndex, fsm), recovery) ∧
      ∀ again : List (List Entry), (∀ entries ∈ again, entries ≠ []) →
        again.flatten = calls.flatten.filter (fun entry => sidecar.lastAppliedIndex < entry.index) →
        ∃ replayed restored more,
          (updates unmarshal cfg fsm again).run (left.applyAll recovery) = (.ok (replayed, restored), more) ∧
          replayed = ((calls.flatten.zip values).filter
            (fun entry => sidecar.lastAppliedIndex < entry.1.index)).map Prod.snd ∧
          restored.storage.latestOffset = final.storage.latestOffset ∧
          restored.storage.batches ((left.applyAll recovery).applyAll more) =
            final.storage.batches ((∅ : StorageDisk).applyAll ops)

/-- Once a sidecar exists, a crash at any point followed by a replay is equivalent to a run without it. -/
theorem crash_replay_equivalence (unmarshal : Unmarshal) (cfg : StorageConfig)
    (segment : 1 ≤ cfg.segmentMaxBytes) (segmentMax : cfg.segmentMaxBytes ≤ 2 ^ 31)
    (sample : 1 ≤ cfg.indexSampleBytes) (sampleMax : cfg.indexSampleBytes < 2 ^ 63)
    (calls : List (List Entry)) (present : ∀ entries ∈ calls, entries ≠ [])
    (admissible : ∀ entry ∈ calls.flatten, Admissible unmarshal entry)
    (ordered : (calls.flatten.map Entry.index).Pairwise (· < ·))
    (offsets : recordTotal calls.flatten < 2 ^ 63) (point : Nat) (left : StorageDisk)
    (persisted : (diskAt unmarshal cfg calls point).lookup .sidecar ≠ none)
    (survives : Survives (diskAt unmarshal cfg calls point) left) :
    Resumes unmarshal cfg calls (diskAt unmarshal cfg calls point) left := by
  have indexable := indexable_of_sidecar segment segmentMax sample sampleMax persisted
  obtain ⟨final, ran, rep, along⟩ := run_along indexable present admissible offsets
  unfold diskAt at persisted survives ⊢
  rw [ran] at persisted survives ⊢
  obtain ⟨done, ⟨rest, rfl⟩, recorded⟩ := along point
  replace recorded := recorded.resolve_left persisted
  rw [flatten_append] at ordered admissible offsets
  obtain ⟨first, second, _, valid, fits⟩ := replay_split indexable.segment admissible
    (PartitionLog.valid_empty indexable.segment) (fits_empty offsets)
  obtain ⟨last, ends, found, crashed⟩ := recorded
  obtain ⟨sidecar, storage, recovery, opened, goalRep⟩ := openFSM_recorded indexable valid found crashed survives
  obtain ⟨later, values⟩ := filter_later ends ordered
    (replayValues_length cfg.segmentMaxBytes .empty done.flatten).symm
    (replayValues_length cfg.segmentMaxBytes (replay cfg.segmentMaxBytes .empty done.flatten) rest.flatten).symm
  rw [← replayValues_append, ← flatten_append] at values
  rw [← flatten_append] at later
  refine ⟨_, final, _, ran, _, ⟨storage, last.index⟩, recovery, sidecar, opened, fun again whole same => ?_⟩
  rw [later] at same
  rw [← same] at second fits
  obtain ⟨restored, replayed, restoredRep⟩ := @updates_run _ _ _ _ _ indexable ⟨storage, last.index⟩ _ whole second
    goalRep fits
  refine ⟨_, restored, _, replayed, ?_, ?_, ?_⟩
  · rw [values, same]
  · rw [latestOffset, latestOffset, restoredRep.next, rep.next, same, flatten_append, replay_append]
  · rw [restoredRep.batches, rep.batches, same, flatten_append, replay_append]

def noRetention : Unmarshal := fun _ => .error "unsupported"

def sampleEntry (index : UInt64) : Entry := ⟨index, cmdAppendBatch :: batchBytes 0 [⟨7, none, [1], []⟩]⟩

theorem sampleEntry_admissible (index : UInt64) : Admissible noRetention (sampleEntry index) :=
  .append (encodeBatch_eq (cons_ne_nil _ _)) (by decide +kernel)

/-- The second call is interrupted between its seal and the files of the new segment. -/
theorem crash_replay_equivalence_in_roll :
    (diskAt noRetention smallConfig [[sampleEntry 1], [sampleEntry 2]] 18).lookup .sidecar ≠ none ∧
      Resumes noRetention smallConfig [[sampleEntry 1], [sampleEntry 2]]
        (diskAt noRetention smallConfig [[sampleEntry 1], [sampleEntry 2]] 18)
        (diskAt noRetention smallConfig [[sampleEntry 1], [sampleEntry 2]] 18) := by
  have persisted : (diskAt noRetention smallConfig [[sampleEntry 1], [sampleEntry 2]] 18).lookup .sidecar ≠ none := by
    decide +kernel
  refine ⟨persisted, crash_replay_equivalence noRetention smallConfig (by decide) (by decide) (by decide) (by decide)
    [[sampleEntry 1], [sampleEntry 2]] (by simp) ?_ (by decide +kernel) (by decide +kernel) 18 _ persisted
    (Survives.refl _)⟩
  intro entry member
  simp only [flatten_cons, flatten_nil, append_nil, cons_append, nil_append, mem_cons,
    not_mem_nil, or_false] at member
  rcases member with rfl | rfl <;> exact sampleEntry_admissible _

/-- The state machine opens the directory and replays the entries behind the index that it returns. -/
def replayFrom (unmarshal : Unmarshal) (cfg : StorageConfig)
    (later : UInt64 → List (List Entry)) : StorageProgram (List Nat × PartitionFSM) := do
  let (index, fsm) ← openFSM cfg
  updates unmarshal cfg fsm (later index)

theorem replayFrom_run {unmarshal : Unmarshal} {cfg : StorageConfig}
    {later : UInt64 → List (List Entry)} {disk : StorageDisk} {index : UInt64} {fsm restored : PartitionFSM}
    {values : List Nat} {recovery more : List (FileOp FileName)}
    (opened : (openFSM cfg).run disk = (.ok (index, fsm), recovery))
    (replayed : (updates unmarshal cfg fsm (later index)).run (disk.applyAll recovery) =
      (.ok (values, restored), more)) :
    (replayFrom unmarshal cfg later).run disk = (.ok (values, restored), recovery ++ more) :=
  bind_eq opened replayed

/-- The batches in the log after a program, unless the program fails. -/
def loggedBy (program : StorageProgram (List Nat × PartitionFSM)) (disk : StorageDisk) :
    Option (List (Int × Bytes)) :=
  match program.run disk with
  | (.ok (_, fsm), ops) => some (fsm.storage.batches (disk.applyAll ops))
  | (.error _, _) => none

theorem loggedBy_eq {program : StorageProgram (List Nat × PartitionFSM)} {disk : StorageDisk} {values : List Nat}
    {fsm : PartitionFSM} {ops : List (FileOp FileName)} (ran : program.run disk = (.ok (values, fsm), ops)) :
    loggedBy program disk = some (fsm.storage.batches (disk.applyAll ops)) := by
  simp only [loggedBy, ran]

theorem replay_contents_length (limit : Int) (log : PartitionLog) (entries : List Entry) :
    (replay limit log entries).contents.length = log.contents.length + (entries.filterMap Entry.batch?).length := by
  induction entries generalizing log with
  | nil => simp [replay]
  | cons entry entries ih =>
    have rest : (replay limit log (entry :: entries)).contents.length =
        (entry.applied limit log).contents.length + (entries.filterMap Entry.batch?).length := ih _
    rw [rest, Entry.applied, filterMap_cons]
    cases entry.batch? with
    | none => simp
    | some batch =>
      simp only [Option.map_some, Option.getD_some, PartitionLog.append_contents, length_append,
        length_cons, length_nil]
      omega

section
variable {unmarshal : Unmarshal} {cfg : StorageConfig}

/-- The first log file shows whether any batch survived. -/
theorem scan_first_log {log : PartitionLog} {left : StorageDisk} {tail : Bytes} {limit : Int}
    (valid : log.Valid limit) (holds : DiskHolds False cfg left log tail)
    (torn : Framing.next recoveryFormat tail = none) (recoverable : Recoverable .empty log) :
    (scanActiveLog ((left.read (.log 0)).getD []) 0).1 = 0 ↔ log.contents = [] := by
  obtain ⟨extra, newer, longer⟩ := recoverable.longer
  have split : log.segments = ⟨0, extra⟩ :: newer := longer.split
  have stored : ∀ batch ∈ extra, StoredBatch batch :=
    (valid.segment ⟨0, extra⟩ (by rw [split]; exact mem_cons_self)).stored
  obtain ⟨rest, found, ends⟩ : ∃ rest, left.read (.log 0) = some (extra.flatten ++ rest) ∧
      Framing.next recoveryFormat rest = none := by
    rcases longer.shape with ⟨_, _, active⟩ | ⟨front, last, _, closedSegs, _⟩
    · have bytes := holds.activeLog
      rw [active] at bytes
      exact ⟨tail, bytes, torn⟩
    · refine ⟨[], ?_, Framing.next_nil⟩
      rw [append_nil]
      exact holds.closedLog ⟨0, extra⟩ (by rw [closedSegs]; exact mem_cons_self)
  have contents : log.contents = extra ++ newer.flatMap Segment.batches := by
    rw [PartitionLog.contents, split]
    rfl
  rw [found, Option.getD_some, (scanActiveLog_torn stored ends 0).1, contents]
  constructor
  · intro none
    have nothing : extra = [] := by
      cases extra with
      | nil => rfl
      | cons batch extra =>
        have long := (stored batch mem_cons_self).long
        rw [flatten_cons, length_append] at none
        omega
    have last : newer = [] := by
      by_contra some
      exact longer.rolled some nothing
    rw [nothing, last]
    rfl
  · intro none
    rw [(append_eq_nil_iff.mp none).1]
    rfl

/-- A log without batches behind the empty log is the empty log. -/
theorem eq_empty_of_contents {log : PartitionLog} {limit : Int} (valid : log.Valid limit)
    (recoverable : Recoverable .empty log) (none : log.contents = []) : log = .empty := by
  rcases recoverable.reaches valid with above | same
  · exfalso
    obtain ⟨extra, newer, longer⟩ := recoverable.longer
    have split : log.segments = ⟨0, extra⟩ :: newer := longer.split
    rw [PartitionLog.contents, split, flatMap_cons, append_eq_nil_iff] at none
    rcases longer.shape with ⟨_, _, active⟩ | ⟨front, last, shape, _, _⟩
    · have nothing : extra = [] := none.1
      rw [PartitionLog.next, PartitionLog.next, active, nothing] at above
      exact lt_irrefl _ above
    · exact longer.rolled (by rw [shape]; simp) none.1
  · exact same

/-- A crash before the first sidecar leaves a log that is ahead of the empty one. -/
theorem firstCall_image (indexable : cfg.Indexable) {entries : List Entry} (present : entries ≠ [])
    (admissible : ∀ entry ∈ entries, Admissible unmarshal entry) (offsets : recordTotal entries < 2 ^ 63)
    {point : Nat} (inside : ((openFSM cfg).run ∅).2.length ≤ point)
    (early : (diskAt unmarshal cfg [entries] point).lookup .sidecar = none) :
    CrashImage cfg .empty (recordTotal entries) (diskAt unmarshal cfg [entries] point) := by
  obtain ⟨s, opened, running⟩ := openFSM_empty indexable
  obtain ⟨final, ran, _, _⟩ := @run_along unmarshal cfg indexable [entries] (by simpa using present)
    (by simpa using admissible) (by simpa using offsets)
  have ends : entries.getLast? = some (entries.getLast present) := getLast?_eq_getLast_of_ne_nil _
  obtain ⟨ops, split, _, images, _, _, sidecar⟩ := updateOps_images indexable admissible running.rep running.ahead
    running.room (fits_empty offsets)
    (by simp [PartitionLog.empty, PartitionLog.next, replay, Segment.stop, lastEnd] : _ ≤ recordTotal entries)
    (entries.getLast present).index
  rw [opened] at inside
  have cut : diskAt unmarshal cfg [entries] point =
      ((∅ : StorageDisk).applyAll (newSegmentOps cfg 0)).applyAll
        ((ops ++ [FileOp.rename FileName.sidecarTmp FileName.sidecar]).take
          (point - (newSegmentOps cfg 0).length)) := by
    rw [diskAt, ran, take_append, take_of_length_le inside, applyAll_append, callsOps, callsOps,
      append_nil, ends, Option.map_some, Option.getD_some, ← split]
    rfl
  rw [cut] at early ⊢
  rcases Nat.lt_or_ge ops.length (point - (newSegmentOps cfg 0).length) with beyond | before
  · exfalso
    rw [take_of_length_le (by rw [length_append, length_singleton]; omega), ← split, sidecar] at early
    cases early
  · rw [take_append_of_le_length before]
    exact images _

end

/-- A crash in the first call, before its sidecar exists, is harmless exactly when the recovery scan of the
first log file finds no whole batch. -/
theorem fresh_crash_replay_iff (unmarshal : Unmarshal) (cfg : StorageConfig)
    (segment : 1 ≤ cfg.segmentMaxBytes) (segmentMax : cfg.segmentMaxBytes ≤ 2 ^ 59)
    (sample : 1 ≤ cfg.indexSampleBytes) (sum : cfg.segmentMaxBytes + cfg.indexSampleBytes ≤ 2 ^ 63)
    (entries : List Entry) (present : entries ≠ []) (admissible : ∀ entry ∈ entries, Admissible unmarshal entry)
    (positive : ∀ entry ∈ entries, 0 < entry.index) (offsets : recordTotal entries < 2 ^ 62)
    (later : UInt64 → List (List Entry)) (nonempty : ∀ index, ∀ call ∈ later index, call ≠ [])
    (whole : ∀ index, (later index).flatten = entries.filter fun entry => index < entry.index)
    (point : Nat) (inside : ((openFSM cfg).run ∅).2.length ≤ point)
    (early : (diskAt unmarshal cfg [entries] point).lookup .sidecar = none)
    (left : StorageDisk) (survives : Survives (diskAt unmarshal cfg [entries] point) left) :
    (loggedBy (replayFrom unmarshal cfg later) left).isSome ∧ (loggedBy (run unmarshal cfg [entries]) ∅).isSome ∧
      (loggedBy (replayFrom unmarshal cfg later) left = loggedBy (run unmarshal cfg [entries]) ∅ ↔
        (scanActiveLog ((left.read (.log 0)).getD []) 0).1 = 0) := by
  have indexable := StorageConfig.indexable_of_bounds segment sample sum segmentMax
  have spare := recordTotal_nonneg entries
  obtain ⟨final, ran, finalRep, _⟩ := @run_along unmarshal cfg indexable [entries] (by simpa using present)
    (by simpa using admissible) (by simp only [flatten_cons, flatten_nil, append_nil]; omega)
  have image := firstCall_image indexable present admissible (by omega) inside early
  obtain ⟨log, tail, valid, holds, torn, recoverable, within⟩ := image.survive survives
  obtain ⟨s, opened, rep⟩ := openStorage_run indexable valid holds torn
  have missing : readSidecar (left.applyAll (recoveryOps cfg log.active)) = .ok none := by
    have lost : (left.applyAll (recoveryOps cfg log.active)).lookup .sidecar = none :=
      ((ofSegments_recoveryOps cfg log.active).lookup_sidecar left).trans (survives.lookup_none early)
    simp [readSidecar, Disk.read, lost]
  have reopened : (openFSM cfg).run left = (.ok (0, ⟨s, 0⟩), recoveryOps cfg log.active) := by
    rw [openFSM, bind_ok opened, observe_bind missing]
    simp
  have all : (later 0).flatten = entries := by
    rw [whole, filter_eq_self]
    intro entry member
    exact decide_eq_true (positive entry member)
  have growing := recoverable.growing log.active (by simp [PartitionLog.segments])
  have fits : Fits log (recordTotal (later 0).flatten) :=
    ⟨(growing.between valid.active.chained).1, by rw [all]; omega⟩
  obtain ⟨restored, replayed, restoredRep⟩ := @updates_run unmarshal False cfg _ _ indexable ⟨s, 0⟩ (later 0)
    (nonempty 0) (by rw [all]; exact admissible) rep fits
  rw [loggedBy_eq ran, loggedBy_eq (replayFrom_run reopened replayed)]
  refine ⟨rfl, rfl, ?_⟩
  rw [applyAll_append, finalRep.batches, restoredRep.batches, scan_first_log valid holds torn recoverable, all,
    flatten_singleton, Option.some_inj, map_inj_right fun first second same => (Prod.mk.inj same).2]
  constructor
  · intro equal
    have lengths := congrArg length equal
    rw [replay_contents_length, replay_contents_length] at lengths
    exact length_eq_zero_iff.mp
      (by simpa [PartitionLog.empty, PartitionLog.contents, PartitionLog.segments] using lengths)
  · intro none
    rw [eq_empty_of_contents valid recoverable none]

def sampleReplay (index : UInt64) : List (List Entry) := if index < 1 then [[sampleEntry 1]] else []

/-- A crash before the first append leaves no batch behind. -/
theorem fresh_crash_replay_before_append :
    loggedBy (replayFrom noRetention smallConfig sampleReplay)
        (diskAt noRetention smallConfig [[sampleEntry 1]] 7) =
      loggedBy (run noRetention smallConfig [[sampleEntry 1]]) ∅ := by
  refine (fresh_crash_replay_iff noRetention smallConfig (by decide) (by decide) (by decide) (by decide)
    [sampleEntry 1] (by simp) ?_ (by simp [sampleEntry]) (by decide +kernel) sampleReplay ?_ ?_ 7
    (by decide +kernel) (by decide +kernel) _ (Survives.refl _)).2.2.mpr (by decide +kernel)
  · intro entry member
    rw [mem_singleton.mp member]
    exact sampleEntry_admissible 1
  · intro index call member
    unfold sampleReplay at member
    split at member
    · rw [mem_singleton.mp member]
      exact cons_ne_nil _ _
    · cases member
  · intro index
    unfold sampleReplay
    split
    · next small => simp [sampleEntry, small]
    · next large => simp [sampleEntry, large]

/-- A crash behind the first append leaves its batch in the log, and the replay appends it again. -/
theorem fresh_crash_duplicates :
    (diskAt noRetention smallConfig [[sampleEntry 1]] 8).lookup .sidecar = none ∧
      Survives (diskAt noRetention smallConfig [[sampleEntry 1]] 8)
        (diskAt noRetention smallConfig [[sampleEntry 1]] 8) ∧
      loggedBy (run noRetention smallConfig [[sampleEntry 1]]) ∅ =
        some [(0, batchBytes 0 [⟨7, none, [1], []⟩])] ∧
      loggedBy (replayFrom noRetention smallConfig sampleReplay)
          (diskAt noRetention smallConfig [[sampleEntry 1]] 8) =
        some [(0, batchBytes 0 [⟨7, none, [1], []⟩]), (1, batchBytes 1 [⟨7, none, [1], []⟩])] :=
  ⟨by decide +kernel, Survives.refl _, by decide +kernel, by decide +kernel⟩

/-- The segment limit has no effect on the results or on the batches of a log. -/
theorem replay_limits (first second : Int) {log other : PartitionLog} (entries : List Entry)
    (contents : log.contents = other.contents) (next : log.next = other.next) :
    replayValues first log entries = replayValues second other entries ∧
      (replay first log entries).contents = (replay second other entries).contents := by
  induction entries generalizing log other with
  | nil => exact ⟨rfl, contents⟩
  | cons entry entries ih =>
    have moved : (entry.applied first log).contents = (entry.applied second other).contents ∧
        (entry.applied first log).next = (entry.applied second other).next := by
      unfold Entry.applied
      cases entry.batch? with
      | none => exact ⟨contents, next⟩
      | some batch => simp [PartitionLog.append_contents, PartitionLog.append_next, contents, next]
    obtain ⟨values, batches⟩ := ih moved.1 moved.2
    exact ⟨by rw [replayValues, replayValues, values, Entry.value, Entry.value, next], batches⟩

theorem contents_prefix_replay (limit : Int) (log : PartitionLog) (entries : List Entry) :
    log.contents <+: (replay limit log entries).contents := by
  induction entries generalizing log with
  | nil => exact prefix_refl _
  | cons entry entries ih =>
    refine List.IsPrefix.trans ?_ (ih (entry.applied limit log))
    unfold Entry.applied
    cases entry.batch? with
    | none => exact prefix_refl _
    | some batch => exact (PartitionLog.append_contents limit log batch).symm ▸ prefix_append _ _

/-- Replicas agree whatever their configurations are and however their entries are cut into calls: one that lags
behind has returned a prefix of the results and holds a prefix of the batches. -/
theorem replicas_agree (unmarshal : Unmarshal) (cfg other : StorageConfig)
    (indexable : cfg.Indexable) (also : other.Indexable) (calls lagging : List (List Entry))
    (present : ∀ entries ∈ calls, entries ≠ []) (whole : ∀ entries ∈ lagging, entries ≠ [])
    (behind : lagging.flatten <+: calls.flatten) (admissible : ∀ entry ∈ calls.flatten, Admissible unmarshal entry)
    (offsets : recordTotal calls.flatten < 2 ^ 63) :
    ∃ values left ops earlier final more, (run unmarshal cfg calls).run ∅ = (.ok (values, left), ops) ∧
      (run unmarshal other lagging).run ∅ = (.ok (earlier, final), more) ∧ earlier <+: values ∧
      final.storage.batches ((∅ : StorageDisk).applyAll more) <+: left.storage.batches
        ((∅ : StorageDisk).applyAll ops) := by
  obtain ⟨rest, split⟩ := behind
  obtain ⟨left, ran, rep, _⟩ := run_along indexable present admissible offsets
  rw [← split] at admissible offsets rep ran
  have later := recordTotal_nonneg rest
  rw [recordTotal_append] at offsets
  obtain ⟨final, lagged, finalRep, _⟩ := run_along also whole (forall_mem_append.mp admissible).1 (by omega)
  refine ⟨_, left, _, _, final, _, ran, lagged, ?_, ?_⟩
  · rw [replayValues_append, (replay_limits cfg.segmentMaxBytes other.segmentMaxBytes lagging.flatten rfl rfl).1]
    exact prefix_append _ _
  · rw [rep.batches, finalRep.batches, replay_append,
      ← (replay_limits cfg.segmentMaxBytes other.segmentMaxBytes lagging.flatten rfl rfl).2]
    exact (contents_prefix_replay _ _ _).map _

theorem replicas_agree_after_first_call :
    ∃ values left ops earlier final more,
      (run noRetention smallConfig [[sampleEntry 1, sampleEntry 2]]).run ∅ = (.ok (values, left), ops) ∧
      (run noRetention { smallConfig with segmentMaxBytes := 1 } [[sampleEntry 1]]).run ∅ =
        (.ok (earlier, final), more) ∧
      earlier <+: values ∧
      final.storage.batches ((∅ : StorageDisk).applyAll more) <+: left.storage.batches
        ((∅ : StorageDisk).applyAll ops) := by
  refine replicas_agree noRetention _ _ smallConfig_indexable
    (StorageConfig.indexable_of_bounds (by decide) (by decide) (by decide) (by decide)) _ _ (by simp) (by simp)
    ⟨[sampleEntry 2], rfl⟩ ?_ (by decide +kernel)
  intro entry member
  rcases mem_pair.mp member with rfl | rfl <;> exact sampleEntry_admissible _

end BunnyMQ.Partition
