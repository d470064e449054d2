/-
This file compares a crash inside the recovery from a crash with the run that never crashed.
-/

import BunnyMQ.Proof.Partition.CrashReplay
import BunnyMQ.Proof.Partition.Growth
import BunnyMQ.Proof.Partition.Stray
import BunnyMQ.Proof.Storage.Indexes
import BunnyMQ.Proof.Storage.Interrupted

namespace BunnyMQ.Partition
open Foundation FileStore Storage StorageImpl Program List
variable {fsm : PartitionFSM} {values : List Nat} {ops : List (FileOp FileName)}

section
variable {unmarshal : Unmarshal} {cfg : StorageConfig}
  {disk left clean : StorageDisk} {s : StorageImpl} {goal log : PartitionLog} {extra : List Bytes}
  {newer : List Segment} {tail : Bytes}

/-- The open works on segments of the log that it finds. -/
theorem ofSegments_restoring (cfg : StorageConfig) (longer : goal.Extends log extra newer) :
    OfSegments log.bases (restoringOps cfg goal log newer) := by
  refine ((ofSegments_recoveryOps cfg log.active).mono
    (cons_subset.mpr ⟨log.active_mem_bases, nil_subset _⟩)).append ?_
  split
  · refine ((ofSegments_removeOps _).mono fun base member => ?_).append
      ((ofSegments_truncateOps cfg _ _).mono (cons_subset.mpr ⟨?_, nil_subset _⟩))
    · rw [longer.bases]
      exact mem_append_right _ member
    · rw [longer.bases]
      exact mem_append_left _ goal.active_mem_bases
  · exact .nil _

/-- A crash at any point of the open leaves a log that continues the recorded one, and at most the index files
of one removed segment beside it. -/
theorem restoringOps_along (valid : goal.Valid cfg.segmentMaxBytes) (logValid : log.Valid cfg.segmentMaxBytes)
    (tight : log.Tight cfg.segmentMaxBytes) (holds : DiskHolds True cfg disk log tail)
    (torn : Framing.next recoveryFormat tail = none) (longer : goal.Extends log extra newer)
    (growing : ∀ seg ∈ log.segments, Growing seg.batches) :
    Along (InterruptedImage cfg goal) disk (restoringOps cfg goal log newer) := by
  obtain ⟨recovering, recovered⟩ := recoveryOps_along logValid holds torn ⟨⟨extra, newer, longer⟩, growing⟩
  refine along_append.mpr ⟨recovering, ?_⟩
  split
  · obtain ⟨removing, last, still, lastValid, lastHolds, lastGrowing⟩ :=
      removeOps_along logValid tight recovered longer growing
    exact along_append.mpr ⟨removing, truncateOps_along valid lastValid lastHolds still lastGrowing _⟩
  · exact along_nil.mpr recovering.final

/-- Every directory on the way through the entries holds a tight log with exact index files. -/
theorem replayOps_exact (indexable : cfg.Indexable) {entries : List Entry}
    (admissible : ∀ entry ∈ entries, Admissible unmarshal entry) (rep : Represents True cfg disk s log)
    (tight : log.Tight cfg.segmentMaxBytes) (room : log.HasRoom cfg.segmentMaxBytes)
    (fits : Fits log (recordTotal entries)) :
    Along (ExactImage cfg) disk (replayOps cfg log entries) ∧
      (replay cfg.segmentMaxBytes log entries).Tight cfg.segmentMaxBytes ∧
      (replay cfg.segmentMaxBytes log entries).HasRoom cfg.segmentMaxBytes := by
  induction entries generalizing disk s log with
  | nil => exact ⟨along_nil.mpr ⟨log, rep.valid, tight, rep.holds⟩, tight, room⟩
  | cons entry entries ih =>
    have spare := recordTotal_nonneg entries
    rw [recordTotal_cons] at fits
    have first := admissible entry mem_cons_self
    obtain ⟨middle, _, after⟩ := applyEntry_run indexable first rep fits spare
    have left := (first.applied indexable.segment rep.valid fits spare).2
    have step : Along (ExactImage cfg) disk (entry.ops cfg log) ∧
        (entry.applied cfg.segmentMaxBytes log).Tight cfg.segmentMaxBytes ∧
        (entry.applied cfg.segmentMaxBytes log).HasRoom cfg.segmentMaxBytes := by
      cases first with
      | append encoded bounded =>
        simp only [Entry.records, Entry.ops, Entry.applied, Entry.batch?_append, Option.map_some,
          Option.getD_some] at fits ⊢
        obtain ⟨stored, grows, _⟩ := encoded_moves encoded bounded rep.valid fits spare
        have start := fits.start
        exact ⟨appendOps_exact indexable rep tight room stored (by omega), tight.append room _,
          PartitionLog.append_hasRoom indexable.segment log _⟩
      | retention parsed =>
        simp only [Entry.ops, Entry.applied, Entry.batch?_retention, Option.map_none, Option.getD_none]
        exact ⟨along_nil.mpr ⟨log, rep.valid, tight, rep.holds⟩, tight, room⟩
    obtain ⟨images, closed, wide⟩ := step
    obtain ⟨later, final⟩ := ih (fun other member => admissible other (mem_cons_of_mem _ member)) after closed
      wide left
    exact ⟨along_append.mpr ⟨images, later⟩, final⟩

theorem persistOps_exact (rep : Represents True cfg disk s log) (tight : log.Tight cfg.segmentMaxBytes)
    (index : UInt64) : Along (ExactImage cfg) disk (persistOps log index) := by
  have only : ∀ op ∈ [FileOp.write FileName.sidecarTmp (encodeSidecar index log.next), .sync .sidecarTmp,
      .rename .sidecarTmp .sidecar], ∀ name ∈ op.touches, name = FileName.sidecarTmp ∨ name = .sidecar := by
    intro op member
    simp only [mem_cons, not_mem_nil, or_false] at member
    rcases member with rfl | rfl | rfl <;> simp [FileOp.touches]
  have along := along_untouched only (disk.apply (.sync (.log log.active.base)))
  refine along_cons.mpr ⟨⟨log, rep.valid, tight, rep.holds⟩, along.mono fun image same => ?_⟩
  exact ⟨log, rep.valid, tight, DiskHolds.persisted rep.holds rep.valid.distinct fun name notTmp notSidecar =>
    same name (not_or.mpr ⟨notTmp, notSidecar⟩)⟩

section
variable (indexable : cfg.Indexable) {calls : List (List Entry)}
  (admissible : ∀ entry ∈ calls.flatten, Admissible unmarshal entry)
include indexable admissible

theorem callsOps_exact (rep : Represents True cfg disk s log) (tight : log.Tight cfg.segmentMaxBytes)
    (room : log.HasRoom cfg.segmentMaxBytes) (fits : Fits log (recordTotal calls.flatten)) :
    Along (ExactImage cfg) disk (callsOps cfg log calls) := by
  induction calls generalizing disk s log with
  | nil => exact along_nil.mpr ⟨log, rep.valid, tight, rep.holds⟩
  | cons entries calls ih =>
    obtain ⟨first, second, whole, _, left⟩ := replay_split indexable.segment admissible rep.valid fits
    obtain ⟨middle, _, after⟩ := applyEntries_run indexable first rep whole
    obtain ⟨images, closed, wide⟩ := replayOps_exact indexable first rep tight room whole
    rw [callsOps, updateOps, along_append, along_append, applyAll_append]
    refine ⟨⟨images, persistOps_exact after closed _⟩, ?_⟩
    exact ih second (Represents.persist after _) closed wide left

/-- Once the sidecar exists, every directory of a run holds a tight log with exact index files. -/
theorem run_exact (offsets : recordTotal calls.flatten < 2 ^ 63) :
    Along (fun image => image.lookup .sidecar = none ∨ ExactImage cfg image) ∅
      (newSegmentOps cfg 0 ++ callsOps cfg .empty calls) := by
  obtain ⟨s, _, rep⟩ := openStorage_empty indexable empty_absent True
  refine along_append.mpr ⟨fun count => .inl ?_, ?_⟩
  · exact ((ofSegments_newSegmentOps cfg 0).take count).lookup_sidecar ∅
  · exact (callsOps_exact indexable admissible rep (forall_mem_nil _) indexable.segment
      (fits_empty offsets)).mono fun image exactly => .inr exactly

end

/-- A crash keeps the index files of every segment that is not the last one. -/
def KeepsSealed (before after : StorageDisk) : Prop :=
  ∀ base later, base < later → (before.lookup (.log later)).isSome →
    after.lookup (.index base) = before.lookup (.index base) ∧
      after.lookup (.timeindex base) = before.lookup (.timeindex base)

/-- A crash that keeps the index files of sealed segments leaves them exact. -/
theorem survive_exact {image : StorageDisk} (valid : log.Valid cfg.segmentMaxBytes)
    (holds : DiskHolds True cfg image log []) (ahead : Ahead goal log image) (survives : Survives image left)
    (keeps : KeepsSealed image left) :
    ∃ count tail, DiskHolds True cfg left (log.cut count) tail ∧ Framing.next recoveryFormat tail = none ∧
      Recoverable goal (log.cut count) := by
  obtain ⟨count, tail, kept, torn, recoverable⟩ := ahead.survive valid holds.weaken survives
  refine ⟨count, tail, ⟨kept.closedLog, ?_, kept.activeLog, kept.others⟩, torn, recoverable⟩
  intro seg member
  obtain ⟨file, found, _⟩ := ahead.active
  obtain ⟨index, timeindex⟩ := keeps seg.base log.active.base
    (PartitionLog.closed_lt_of_increasing valid.increasing member) (by rw [found]; rfl)
  exact sealedFiles_congr (holds.closedIndex seg member) index timeindex

section
variable {base : Int} {index : UInt64}

/-- The state machine opens an interrupted directory at the recorded log. -/
theorem reopen_interrupted (indexable : cfg.Indexable) (interrupted : Interrupted cfg goal left clean base log tail)
    (valid : goal.Valid cfg.segmentMaxBytes) (recorded : left.read .sidecar = some (encodeSidecar index goal.next)) :
    ∃ s recovery, (openFSM cfg).run left = (.ok (index, ⟨s, index⟩), recovery) ∧
      Represents True cfg (clean.applyAll recovery) s goal ∧
      AgreeOff (IndexOf base) (left.applyAll recovery) (clean.applyAll recovery) ∧ OfSegments log.bases recovery := by
  obtain ⟨⟨extra, newer, longer⟩, growing⟩ := interrupted.recoverable
  have sidecar : clean.read .sidecar = some (encodeSidecar index goal.next) := by
    rw [← recorded]
    exact read_congr (interrupted.agree _ (indexOf_only base).sidecar).symm
  obtain ⟨s, opened, rep⟩ := openFSM_restores indexable valid interrupted.valid interrupted.holds interrupted.torn
    longer growing sidecar
  have alike := openFSM_alike interrupted.agree (indexOf_only base) indexable interrupted.valid interrupted.holds
    interrupted.torn fun other member => indexOf_shown fun same => interrupted.apart (same ▸ member)
  have agree := alike.agree
  rw [opened] at agree
  exact ⟨s, _, alike.same.trans opened, rep, agree, ofSegments_restoring cfg longer⟩

/-- Only at the stray files can the place of a later segment be taken. -/
theorem vacant_interrupted (interrupted : Interrupted cfg goal left clean base log tail)
    {recovery : List (FileOp FileName)} (rep : Represents True cfg (clean.applyAll recovery) s goal)
    (agree : AgreeOff (IndexOf base) (left.applyAll recovery) (clean.applyAll recovery))
    (inside : OfSegments log.bases recovery) {other : Int} (fresh : other ∉ goal.bases) :
    (other ≠ base → Vacant (left.applyAll recovery) other) ∧
      (Vacant (left.applyAll recovery) other ↔ (left.lookup (.log other) = none → Vacant left other)) := by
  have apart : other ≠ base → Vacant (left.applyAll recovery) other := by
    intro distinct
    have visible := indexOf_shown distinct
    exact (rep.holds.others other fresh).vacant.congr (agree _ ((indexOf_only base).log other)) (agree _ visible.index)
      (agree _ visible.timeindex)
  refine ⟨apart, ?_⟩
  rw [interrupted.missing_iff other]
  by_cases member : other ∈ log.bases
  · have vacant := apart fun same => interrupted.apart (same ▸ member)
    exact ⟨fun _ absent => absurd member absent, fun _ => vacant⟩
  · rw [vacant_iff fun name named => inside.lookup member named left]
    exact ⟨fun vacant _ => vacant, fun vacant => vacant member⟩

/-- The replay of the first entries leaves sound indexes, and the replay of all of them ends at the log. -/
def ReplaysSoundly (unmarshal : Unmarshal) (cfg : StorageConfig)
    (fsm : PartitionFSM) (disk : StorageDisk) (behind : List Entry) (offset : Int) (batches : List (Int × Bytes)) :
    Prop :=
  ∀ again : List (List Entry), (∀ entries ∈ again, entries ≠ []) → again.flatten <+: behind →
    ∃ replayed restored more, (updates unmarshal cfg fsm again).run disk = (.ok (replayed, restored), more) ∧
      restored.storage.IndexesSound (disk.applyAll more) ∧
      (again.flatten = behind → restored.storage.latestOffset = offset ∧
        restored.storage.batches (disk.applyAll more) = batches)

/-- A replay on free places has the log and sound indexes. -/
theorem replaysSoundly_of_vacant (indexable : cfg.Indexable) {behind : List Entry}
    (admissible : ∀ entry ∈ behind, Admissible unmarshal entry) (rep : Represents True cfg clean fsm.storage goal)
    (growing : Growing goal.contents) (fits : Fits goal (recordTotal behind)) {hidden : FileName → Prop}
    (agree : AgreeOff hidden left clean) (only : IndexesOnly hidden)
    (free : ∀ other ∈ (replay cfg.segmentMaxBytes goal behind).bases, other ∉ goal.bases → Vacant left other) :
    ReplaysSoundly unmarshal cfg fsm left behind (replay cfg.segmentMaxBytes goal behind).next
      ((replay cfg.segmentMaxBytes goal behind).contents.map fun batch => (baseOffsetOf batch, batch)) := by
  rintro again present ⟨later, rfl⟩
  obtain ⟨first, _, enough, _⟩ := replay_split indexable.segment admissible rep.valid fits
  have part := replay_bases cfg.segmentMaxBytes (replay cfg.segmentMaxBytes goal again.flatten) later
  rw [← replay_append] at part
  obtain ⟨restored, ran, after⟩ := updates_run indexable present first rep enough
  have alike := updates_alike indexable present first rep enough agree only fun other member =>
    free other (part.subset member)
  have final := alike.agree
  rw [ran] at final
  have grown := replay_growing indexable.segment first rep.valid enough growing
  refine ⟨_, restored, _, alike.same.trans ran, ?_, ?_⟩
  · exact (after.indexesSound (growing_contents.mp grown)).congr fun base => final _ (only.log base)
  · intro all
    have none : later = [] := self_eq_append_right.mp all
    rw [none, append_nil]
    refine ⟨after.next, ?_⟩
    rw [← after.batches, StorageImpl.batches, StorageImpl.batches]
    simp only [batches_congr fun base => final _ (only.log base)]

/-- A segment that a replay adds comes with one of the entries. -/
theorem exists_rolling_entry {limit : Int} {entries : List Entry} (member : base ∈ (replay limit log entries).bases)
    (fresh : base ∉ log.bases) :
    ∃ front entry back, entries = front ++ entry :: back ∧ base ∉ (replay limit log front).bases ∧
      base ∈ (entry.applied limit (replay limit log front)).bases := by
  induction entries generalizing log with
  | nil => exact absurd member fresh
  | cons entry entries ih =>
    by_cases rolls : base ∈ (entry.applied limit log).bases
    · exact ⟨[], entry, entries, rfl, fresh, rolls⟩
    · obtain ⟨front, other, back, rfl, before, found⟩ := ih member rolls
      exact ⟨entry :: front, other, back, rfl, before, found⟩

/-- The last of some calls runs on what the others leave. -/
theorem updates_last {middle final : PartitionFSM} {prior : List (List Entry)} {last : List Entry} {first : List Nat}
    {before : List (FileOp FileName)}
    (ran : (updates unmarshal cfg fsm (prior ++ [last])).run disk = (.ok (values, final), ops))
    (done : (updates unmarshal cfg fsm prior).run disk = (.ok (first, middle), before)) :
    ∃ more behind, (update unmarshal cfg middle last).run (disk.applyAll before) = (.ok (more, final), behind) := by
  induction prior generalizing fsm disk values first ops before with
  | nil =>
    cases done
    obtain ⟨⟨more, left⟩, _, _, updated, rest, _⟩ := bind_run_ok ran
    obtain ⟨_, _, _, finished, returned, _⟩ := bind_run_ok rest
    cases finished
    cases returned
    exact ⟨more, _, updated⟩
  | cons entries prior ih =>
    obtain ⟨_, _, _, updated, rest, _⟩ := bind_run_ok ran
    obtain ⟨_, _, _, again, others, rfl⟩ := bind_run_ok done
    rw [updated] at again
    cases again
    obtain ⟨⟨_, _⟩, _, _, later, returned, _⟩ := bind_run_ok rest
    obtain ⟨⟨_, _⟩, _, _, earlier, given, rfl⟩ := bind_run_ok others
    cases returned
    cases given
    obtain ⟨more, behind, found⟩ := ih later earlier
    rw [append_nil, applyAll_append]
    exact ⟨more, behind, found⟩

theorem update_single {final : PartitionFSM} {entry : Entry}
    (ran : (update unmarshal cfg fsm [entry]).run disk = (.ok (values, final), ops)) :
    ∃ value behind, (applyEntry unmarshal cfg fsm.storage entry).run disk = (.ok (value, final.storage), behind) := by
  obtain ⟨⟨_, _⟩, _, _, applied, rest, _⟩ := bind_run_ok ran
  obtain ⟨_, _, _, _, returned, _⟩ := bind_run_ok rest
  cases returned
  obtain ⟨⟨value, storage⟩, _, _, one, none, _⟩ := bind_run_ok applied
  obtain ⟨_, _, _, finished, given, _⟩ := bind_run_ok none
  cases finished
  cases given
  exact ⟨value, _, one⟩

/-- An entry that adds a segment leaves sound indexes only if its place was free. -/
theorem vacant_of_applyEntry (indexable : cfg.Indexable) {entry : Entry} (admissible : Admissible unmarshal entry)
    (rep : Represents True cfg clean s log) {count : Int} (fits : Fits log (entry.records + count))
    (spare : 0 ≤ count) (rolls : base ∈ (entry.applied cfg.segmentMaxBytes log).bases) (fresh : base ∉ log.bases)
    (missing : left.lookup (.log base) = none) {value : Nat} {storage : StorageImpl}
    (ran : (applyEntry unmarshal cfg s entry).run left = (.ok (value, storage), ops))
    (sound : storage.IndexesSound disk) : Vacant left base := by
  cases admissible with
  | @append index records payload encoded bounded =>
    simp only [Entry.records, Entry.applied, Entry.batch?_append, Option.map_some, Option.getD_some] at fits rolls
    obtain ⟨stored, _, _⟩ := encoded_moves encoded bounded rep.valid fits spare
    simp only [applyEntry, if_true] at ran
    obtain ⟨⟨_, _⟩, _, _, appended, returned, _⟩ := bind_run_ok ran
    cases returned
    obtain ⟨full, rfl⟩ := PartitionLog.append_new_base rolls fresh
    exact append_sound_vacant indexable rep stored full fresh missing (mapError_run_ok appended) sound
  | retention parsed =>
    simp only [Entry.applied, Entry.batch?_retention, Option.map_none, Option.getD_none] at rolls
    exact absurd rolls fresh

/-- A replay leaves sound indexes only if the places of all segments that it adds were free. -/
theorem vacant_of_replaysSoundly (indexable : cfg.Indexable) {behind : List Entry}
    (admissible : ∀ entry ∈ behind, Admissible unmarshal entry) (rep : Represents True cfg clean fsm.storage goal)
    (fits : Fits goal (recordTotal behind)) (agree : AgreeOff (IndexOf base) left clean) {offset : Int}
    {batches : List (Int × Bytes)} (replays : ReplaysSoundly unmarshal cfg fsm left behind offset batches)
    (member : base ∈ (replay cfg.segmentMaxBytes goal behind).bases) (fresh : base ∉ goal.bases)
    (missing : left.lookup (.log base) = none) (apart : ∀ other ∉ goal.bases, other ≠ base → Vacant left other) :
    Vacant left base := by
  obtain ⟨front, entry, back, rfl, before, rolls⟩ := exists_rolling_entry member fresh
  obtain ⟨prior, present, rfl⟩ : ∃ prior : List (List Entry), (∀ entries ∈ prior, entries ≠ []) ∧
      prior.flatten = front := by
    by_cases none : front = []
    · exact ⟨[], by simp, none.symm⟩
    · exact ⟨[front], by simpa using none, by simp⟩
  have first : ∀ entry ∈ prior.flatten, Admissible unmarshal entry :=
    fun entry listed => admissible entry (mem_append_left _ listed)
  have spare := recordTotal_nonneg back
  have records := entry.records_nonneg
  rw [recordTotal_append, recordTotal_cons] at fits
  obtain ⟨middleValid, room⟩ := replay_valid indexable.segment first rep.valid fits (by omega)
  have enough : Fits goal (recordTotal prior.flatten) := ⟨fits.start, by have := fits.room; omega⟩
  obtain ⟨middle, ran, middleRep⟩ := updates_run indexable present first rep enough
  have alike := updates_alike indexable present first rep enough agree (indexOf_only base) fun other listed new =>
    apart other new fun same => before (same ▸ listed)
  -- the calls up to the entry that rolls are a replay of the first entries
  obtain ⟨_, restored, _, replayed, sound, _⟩ := replays (prior ++ [[entry]])
    (forall_mem_append.mpr ⟨present, by simp⟩) ⟨back, by simp⟩
  obtain ⟨_, _, updated⟩ := updates_last replayed (alike.same.trans ran)
  obtain ⟨value, _, applied⟩ := update_single updated
  have same := lookup_callsOps before left
  refine (vacant_iff same).mp (vacant_of_applyEntry indexable (admissible entry (by simp)) middleRep room spare rolls
    before ?_ applied sound)
  rw [same _ rfl]
  exact missing

/-- The replay behind an interrupted open is sound exactly when no later segment meets stray index files. -/
theorem replaysSoundly_iff (indexable : cfg.Indexable) (interrupted : Interrupted cfg goal left clean base log tail)
    {recovery : List (FileOp FileName)} {fsm : PartitionFSM}
    (rep : Represents True cfg (clean.applyAll recovery) fsm.storage goal)
    (agree : AgreeOff (IndexOf base) (left.applyAll recovery) (clean.applyAll recovery))
    (inside : OfSegments log.bases recovery) {behind : List Entry}
    (admissible : ∀ entry ∈ behind, Admissible unmarshal entry) (fits : Fits goal (recordTotal behind)) :
    ReplaysSoundly unmarshal cfg fsm (left.applyAll recovery) behind (replay cfg.segmentMaxBytes goal behind).next
        ((replay cfg.segmentMaxBytes goal behind).contents.map fun batch => (baseOffsetOf batch, batch)) ↔
      ∀ other ∈ (replay cfg.segmentMaxBytes goal behind).bases, left.lookup (.log other) = none →
        Vacant left other := by
  obtain ⟨⟨extra, newer, longer⟩, growing⟩ := interrupted.recoverable
  have places := fun other (fresh : other ∉ goal.bases) => vacant_interrupted interrupted rep agree inside fresh
  constructor
  · intro replays other member missing
    have absent := (interrupted.missing_iff other).mp missing
    have fresh : other ∉ goal.bases := by
      intro listed
      rw [longer.bases] at absent
      exact absent (mem_append_left _ listed)
    refine (places other fresh).2.mp ?_ missing
    by_cases distinct : other = base
    · subst distinct
      refine vacant_of_replaysSoundly indexable admissible rep fits agree replays member fresh ?_
        fun later new apart => (places later new).1 apart
      rw [@OfSegments.lookup _ _ inside _ absent (.log other) rfl]
      exact missing
    · exact (places other fresh).1 distinct
  · intro free
    exact replaysSoundly_of_vacant indexable admissible rep (growing_contents.mpr (longer.growing growing)) fits agree
      (indexOf_only base) fun other member fresh => (places other fresh).2.mpr (free other member)

end

end

/-- A crash at any point of the open after a crash leaves an interrupted directory with the old sidecar. -/
theorem crash_interrupted {cfg : StorageConfig} (indexable : cfg.Indexable) {past : List Entry}
    {image left : StorageDisk} (recorded : Recorded cfg past image) (exactly : ExactImage cfg image)
    (valid : (replay cfg.segmentMaxBytes .empty past).Valid cfg.segmentMaxBytes) (survives : Survives image left)
    (keeps : KeepsSealed image left) (count : Nat) :
    InterruptedImage cfg (replay cfg.segmentMaxBytes .empty past)
        (left.applyAll (((openFSM cfg).run left).2.take count)) ∧
      ∃ last, past.getLast? = some last ∧
        readSidecar image = .ok (some ⟨last.index, (replay cfg.segmentMaxBytes .empty past).next⟩) ∧
        (left.applyAll (((openFSM cfg).run left).2.take count)).read .sidecar =
          some (encodeSidecar last.index (replay cfg.segmentMaxBytes .empty past).next) := by
  obtain ⟨last, ends, found, log, logValid, holds, ahead, _⟩ := recorded
  obtain ⟨other, otherValid, tight, exactHolds⟩ := exactly
  obtain rfl := exactHolds.unique otherValid holds logValid
  obtain ⟨kept, tail, keptHolds, torn, recoverable⟩ := survive_exact logValid exactHolds ahead survives keeps
  obtain ⟨extra, newer, longer⟩ := recoverable.longer
  obtain ⟨file, stays, survived⟩ := survives.lookup_some found
  have sidecar : left.read .sidecar =
      some (encodeSidecar last.index (replay cfg.segmentMaxBytes .empty past).next) := by
    rw [Disk.read, stays, Option.map_some, survived.data_eq (encodeSidecar_length _ _).symm rfl]
  obtain ⟨_, opened, _⟩ := openFSM_restores indexable valid (logValid.cut kept) keptHolds torn longer
    recoverable.growing sidecar
  rw [opened]
  refine ⟨restoringOps_along valid (logValid.cut kept) tight keptHolds torn longer recoverable.growing count, last,
    ends, readSidecar_encodeSidecar (by simp [Disk.read, found]) valid.active.stop_range, ?_⟩
  rw [← sidecar]
  exact read_congr (((ofSegments_restoring cfg longer).take count).lookup_sidecar left)

/-- The state machine opens the directory with the index of its sidecar. A replay of the later entries is sound
and builds the log of the run without a crash. -/
def ResumesSoundly (unmarshal : Unmarshal) (cfg : StorageConfig)
    (calls : List (List Entry)) (image left : StorageDisk) : Prop :=
  ∃ values final ops, (run unmarshal cfg calls).run ∅ = (.ok (values, final), ops) ∧
    ∃ sidecar fsm recovery, readSidecar image = .ok (some sidecar) ∧
      (openFSM cfg).run left = (.ok (sidecar.lastAppliedIndex, fsm), recovery) ∧
      ReplaysSoundly unmarshal cfg fsm (left.applyAll recovery)
        (calls.flatten.filter fun entry => sidecar.lastAppliedIndex < entry.index) final.storage.latestOffset
        (final.storage.batches ((∅ : StorageDisk).applyAll ops))

/-- No segment of the run without a crash lacks its log and has an entry in one of its index files. -/
def NoStaleIndexes (unmarshal : Unmarshal) (cfg : StorageConfig)
    (calls : List (List Entry)) (left : StorageDisk) : Prop :=
  ∀ values final ops, (run unmarshal cfg calls).run ∅ = (.ok (values, final), ops) →
    ∀ seg ∈ final.storage.segments, left.lookup (.log seg.baseOffset) = none → Vacant left seg.baseOffset

/-- A crash at any point of the open that follows a crash is harmless exactly when it leaves no index entries of
a segment that the run has and whose log is removed. -/
theorem interrupted_recovery_iff (unmarshal : Unmarshal) (cfg : StorageConfig)
    (indexable : cfg.Indexable) (calls : List (List Entry)) (present : ∀ entries ∈ calls, entries ≠ [])
    (admissible : ∀ entry ∈ calls.flatten, Admissible unmarshal entry)
    (ordered : (calls.flatten.map Entry.index).Pairwise (· < ·))
    (offsets : recordTotal calls.flatten < 2 ^ 63) (point : Nat) (left : StorageDisk)
    (persisted : (diskAt unmarshal cfg calls point).lookup .sidecar ≠ none)
    (survives : Survives (diskAt unmarshal cfg calls point) left)
    (keeps : KeepsSealed (diskAt unmarshal cfg calls point) left) (count : Nat) :
    ResumesSoundly unmarshal cfg calls (diskAt unmarshal cfg calls point)
        (left.applyAll (((openFSM cfg).run left).2.take count)) ↔
      NoStaleIndexes unmarshal cfg calls (left.applyAll (((openFSM cfg).run left).2.take count)) := by
  obtain ⟨final, ran, rep, along⟩ := run_along indexable present admissible offsets
  have exactly := @run_exact unmarshal cfg indexable calls admissible offsets point
  unfold diskAt at persisted survives keeps ⊢
  rw [ran] at persisted survives keeps ⊢
  obtain ⟨done, ⟨rest, rfl⟩, recorded⟩ := along point
  rw [flatten_append] at ordered admissible offsets
  obtain ⟨first, second, _, valid, fits⟩ := replay_split indexable.segment admissible
    (PartitionLog.valid_empty indexable.segment) (fits_empty offsets)
  obtain ⟨⟨clean, base, log, tail, interrupted⟩, last, ends, sidecar, stays⟩ := crash_interrupted indexable
    (recorded.resolve_left persisted) (exactly.resolve_left persisted) valid survives keeps count
  obtain ⟨s, recovery, opened, goalRep, agree, inside⟩ := reopen_interrupted indexable interrupted valid stays
  have sound := @replaysSoundly_iff unmarshal _ _ _ _ _ _ _ indexable interrupted recovery ⟨s, last.index⟩ goalRep agree
    inside _ second fits
  rw [flatten_append, replay_append] at rep
  obtain ⟨later, _⟩ := filter_later ends ordered
    (replayValues_length cfg.segmentMaxBytes .empty done.flatten).symm
    (replayValues_length cfg.segmentMaxBytes (replay cfg.segmentMaxBytes .empty done.flatten) rest.flatten).symm
  rw [← rep.batches, ← rep.next, ← rep.bases, ← later, ← flatten_append, forall_mem_map] at sound
  constructor
  · rintro ⟨_, _, _, again, _, _, _, read, reopened, replays⟩ _ _ _ ended
    rw [ran] at again ended
    cases again
    cases ended
    rw [sidecar] at read
    cases read
    rw [opened] at reopened
    cases reopened
    exact sound.mp replays
  · intro clear
    exact ⟨_, final, _, ran, _, ⟨s, last.index⟩, recovery, sidecar, opened, sound.mpr (clear _ final _ ran)⟩

/-- Each segment after a program, with the number of its batches and of its offset index entries. -/
def indexedBy (program : StorageProgram (List Nat × PartitionFSM)) (disk : StorageDisk) : List (Int × Nat × Nat) :=
  match program.run disk with
  | (.ok (_, fsm), ops) => fsm.storage.segments.map fun seg =>
    (seg.baseOffset, (seg.located (disk.applyAll ops)).length, seg.offsetIdx.entries.length)
  | (.error _, _) => []

section
variable {program : StorageProgram (List Nat × PartitionFSM)} {disk : StorageDisk}
  (ran : program.run disk = (.ok (values, fsm), ops))
include ran

theorem indexedBy_eq :
    indexedBy program disk = fsm.storage.segments.map fun seg =>
      (seg.baseOffset, (seg.located (disk.applyAll ops)).length, seg.offsetIdx.entries.length) := by
  simp only [indexedBy, ran]

/-- A sound index has at most one entry for each batch. -/
theorem indexedBy_le (sound : fsm.storage.IndexesSound (disk.applyAll ops)) :
    ∀ found ∈ indexedBy program disk, found.2.2 ≤ found.2.1 := by
  rw [indexedBy_eq ran, forall_mem_map]
  intro seg member
  have fewer := (sound seg member).offsets.length_le
  rw [length_map] at fewer
  exact fewer

end

/-- Two calls of one entry each. The second one fills the first segment. -/
def sampleCalls : List (List Entry) := [[sampleEntry 1], [sampleEntry 2]]

theorem sampleCalls_admissible : ∀ entry ∈ sampleCalls.flatten, Admissible noRetention entry := by
  intro entry member
  simp only [sampleCalls, flatten_cons, flatten_nil, append_nil, cons_append, nil_append,
    mem_cons, not_mem_nil, or_false] at member
  rcases member with rfl | rfl <;> exact sampleEntry_admissible _

/-- The second call is interrupted once the new segment exists. -/
def sampleImage : StorageDisk := diskAt noRetention smallConfig sampleCalls 25

theorem keepsSealed_refl (disk : StorageDisk) : KeepsSealed disk disk := fun _ _ _ _ => ⟨rfl, rfl⟩

/-- The open that follows is interrupted behind the removal of the new segment. -/
theorem interrupted_recovery_removed :
    sampleImage.lookup .sidecar ≠ none ∧
      ResumesSoundly noRetention smallConfig sampleCalls sampleImage
        (sampleImage.applyAll (((openFSM smallConfig).run sampleImage).2.take 13)) := by
  have persisted : sampleImage.lookup .sidecar ≠ none := by decide +kernel
  refine ⟨persisted, (interrupted_recovery_iff noRetention smallConfig smallConfig_indexable
    sampleCalls (by simp [sampleCalls]) sampleCalls_admissible (by decide +kernel) (by decide +kernel) 25 sampleImage
    persisted (Survives.refl _) (keepsSealed_refl _) 13).mpr ?_⟩
  intro values final ops ran seg member missing
  have listed : (seg.baseOffset, (seg.located ((∅ : StorageDisk).applyAll ops)).length, seg.offsetIdx.entries.length) ∈
      [((0 : Int), 2, 1), (2, 0, 0)] := by
    rw [← (by decide +kernel : indexedBy (run noRetention smallConfig sampleCalls) ∅ = [(0, 2, 1), (2, 0, 0)]),
      indexedBy_eq ran]
    exact mem_map.mpr ⟨seg, member, rfl⟩
  simp only [mem_cons, Prod.mk.injEq, not_mem_nil, or_false] at listed
  rcases listed with ⟨base, _⟩ | ⟨base, _⟩
  · rw [base] at missing
    exact absurd missing (by decide +kernel)
  · rw [base]
    exact Absent.vacant ⟨by decide +kernel, by decide +kernel, by decide +kernel⟩

/-- The open that follows is interrupted between the log of the new segment and its index files. The replay creates
the segment again and counts the fifty slots of the old offset index as entries, though it has no batch. -/
theorem interrupted_recovery_stale :
    sampleImage.lookup .sidecar ≠ none ∧ Survives sampleImage sampleImage ∧ KeepsSealed sampleImage sampleImage ∧
      indexedBy (replayFrom noRetention smallConfig fun _ => [[sampleEntry 2]])
          (sampleImage.applyAll (((openFSM smallConfig).run sampleImage).2.take 11)) = [(0, 2, 1), (2, 0, 50)] ∧
      ¬ ResumesSoundly noRetention smallConfig sampleCalls sampleImage
        (sampleImage.applyAll (((openFSM smallConfig).run sampleImage).2.take 11)) := by
  have counted : indexedBy (replayFrom noRetention smallConfig fun _ => [[sampleEntry 2]])
      (sampleImage.applyAll (((openFSM smallConfig).run sampleImage).2.take 11)) = [(0, 2, 1), (2, 0, 50)] := by
    decide +kernel
  refine ⟨by decide +kernel, Survives.refl _, keepsSealed_refl _, counted, ?_⟩
  rintro ⟨_, _, _, _, sidecar, fsm, recovery, read, opened, replays⟩
  have index : readSidecar sampleImage = .ok (some ⟨1, 1⟩) := by decide +kernel
  rw [index] at read
  cases read
  obtain ⟨_, restored, _, replayed, sound, _⟩ := replays [[sampleEntry 2]] (by simp)
    (by rw [(by decide +kernel : sampleCalls.flatten.filter (fun entry => 1 < entry.index) = [sampleEntry 2])]; simp)
  have ran := @replayFrom_run noRetention smallConfig (fun _ => [[sampleEntry 2]]) _ _ _ _ _ _ _ opened replayed
  have fewer := indexedBy_le ran (by rw [applyAll_append]; exact sound) (2, 0, 50) (by rw [counted]; simp)
  exact absurd fewer (by decide)

end BunnyMQ.Partition
