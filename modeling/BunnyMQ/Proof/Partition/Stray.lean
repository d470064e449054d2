/-
This file shows that the state machine does not notice index files of segments that its log does not have.
-/

import BunnyMQ.Proof.Partition.Sidecar
import BunnyMQ.Proof.Storage.Contents
import BunnyMQ.Proof.Storage.Stray

namespace BunnyMQ.Partition
open Foundation FileStore Storage StorageImpl
open Program (Alike)

section
variable {unmarshal : Unmarshal} {hidden : FileName → Prop}
  {first second : StorageDisk} {indexed : Prop} {cfg : StorageConfig} {s : StorageImpl} {log : PartitionLog}

/-- Two disks that differ in hidden files open alike when no log file belongs to a hidden index. -/
theorem openFSM_alike (agree : AgreeOff hidden first second) (only : IndexesOnly hidden) {tail : Bytes}
    (indexable : cfg.Indexable) (valid : log.Valid cfg.segmentMaxBytes) (holds : DiskHolds indexed cfg second log tail)
    (torn : Framing.next recoveryFormat tail = none) (shown : ∀ base ∈ log.bases, Shown hidden base) :
    Alike hidden (openFSM cfg) first second := by
  have bases := holds.logBases_eq valid.formed
  have present : logBases second ≠ [] := by
    rw [bases]
    exact List.ne_nil_of_mem log.active_mem_bases
  refine .bind (openStorage_alike agree only cfg present (by rw [bases]; exact shown)) ?_
  intro storage ops opened after
  obtain ⟨s, ran, rep⟩ := openStorage_run indexable valid holds torn
  rw [ran] at opened
  obtain ⟨same, rfl⟩ := Prod.mk.inj opened
  cases same
  refine .bind (.observe after (by rw [readSidecar, readSidecar, Disk.read, Disk.read, after _ only.sidecar])) ?_
  intro sidecar ops _ looked
  cases sidecar with
  | none => exact .pure looked _
  | some sidecar =>
    dsimp only
    split
    · refine .bind (truncateTo_alike looked only cfg ?_ _) ?_
      · intro seg member
        exact shown _ (by rw [← rep.bases]; exact List.mem_map_of_mem member)
      · intro cut ops _ final
        exact .pure final _
    · exact .pure looked _

/-- A call changes no file of a segment that the log does not reach. -/
theorem lookup_updateOps {entries : List Entry} {base : Int}
    (later : base ∉ (replay cfg.segmentMaxBytes log entries).bases) (index : UInt64) (disk : StorageDisk)
    (name : FileName) (named : name.base? = some base) :
    (disk.applyAll (updateOps cfg log entries index)).lookup name = disk.lookup name := by
  rw [updateOps, applyAll_append, lookup_persistOps _ _ _ (by rintro rfl; cases named) (by rintro rfl; cases named),
    lookup_sync, if_neg, (ofSegments_replay cfg log entries).lookup later named]
  rintro rfl
  exact later (Option.some_inj.mp named ▸ PartitionLog.active_mem_bases _)

theorem lookup_callsOps {calls : List (List Entry)} {base : Int}
    (later : base ∉ (replay cfg.segmentMaxBytes log calls.flatten).bases) (disk : StorageDisk) (name : FileName)
    (named : name.base? = some base) : (disk.applyAll (callsOps cfg log calls)).lookup name = disk.lookup name := by
  induction calls generalizing disk log with
  | nil => rfl
  | cons entries calls ih =>
    rw [List.flatten_cons, replay_append] at later
    rw [callsOps, applyAll_append, ih later, lookup_updateOps (fun member => later ?_) _ _ name named]
    exact (replay_bases cfg.segmentMaxBytes (replay cfg.segmentMaxBytes log entries) calls.flatten).subset member

/-- An entry runs alike when the place of the segment that it may roll to is free. -/
theorem applyEntry_alike (indexable : cfg.Indexable) {entry : Entry} (admissible : Admissible unmarshal entry)
    (rep : Represents indexed cfg second s log) {count : Int} (fits : Fits log (entry.records + count))
    (spare : 0 ≤ count) (agree : AgreeOff hidden first second) (only : IndexesOnly hidden)
    (free : ∀ base ∈ (entry.applied cfg.segmentMaxBytes log).bases, base ∉ log.bases → Vacant first base) :
    Alike hidden (applyEntry unmarshal cfg s entry) first second := by
  have valid := (admissible.applied indexable.segment rep.valid fits spare).1
  cases admissible with
  | @append index records payload encoded bounded =>
    simp only [Entry.records, Entry.applied, Entry.batch?_append, Option.map_some, Option.getD_some]
      at fits free valid
    obtain ⟨stored, grows, _⟩ := encoded_moves encoded bounded rep.valid fits spare
    simp only [applyEntry, if_true]
    refine .bind (.mapError (append_alike indexable rep agree only stored ?_) _) ?_
    · intro full
      rw [PartitionLog.append_full full] at free valid
      have stop := Segment.push_stop log.active (patchBaseOffset payload log.next)
      have fresh : endOffsetOf (patchBaseOffset payload log.next) ∉ log.bases := by
        have apart := @PartitionLog.Valid.fresh _ ⟨log.closedSegs, log.pushed payload⟩
          _ valid
        rw [stop] at apart
        simpa [PartitionLog.bases, PartitionLog.segments, Segment.push] using apart
      refine ⟨fresh, free _ ?_ fresh⟩
      simp [PartitionLog.bases, PartitionLog.segments, stop]
    · intro result ops _ after
      exact .pure after _
  | @retention index payload rc parsed =>
    have other : cmdRetentionConfig ≠ cmdAppendBatch := by decide
    simp only [applyEntry, if_neg other, if_true, parsed]
    exact .pure agree _

/-- The entries run alike when the places of all segments that they add are free. -/
theorem applyEntries_alike (indexable : cfg.Indexable) {entries : List Entry}
    (admissible : ∀ entry ∈ entries, Admissible unmarshal entry) (rep : Represents indexed cfg second s log)
    (fits : Fits log (recordTotal entries)) (agree : AgreeOff hidden first second) (only : IndexesOnly hidden)
    (free : ∀ base ∈ (replay cfg.segmentMaxBytes log entries).bases, base ∉ log.bases → Vacant first base) :
    Alike hidden (applyEntries unmarshal cfg s entries) first second := by
  induction entries generalizing first second s log with
  | nil => exact .pure agree _
  | cons entry entries ih =>
    have spare := recordTotal_nonneg entries
    rw [recordTotal_cons] at fits
    have head := admissible entry List.mem_cons_self
    obtain ⟨middle, ran, after⟩ := applyEntry_run indexable head rep fits spare
    have inside := replay_bases cfg.segmentMaxBytes (entry.applied cfg.segmentMaxBytes log) entries
    refine .bind (applyEntry_alike indexable head rep fits spare agree only fun base member =>
      free base (inside.subset member)) ?_
    intro value ops found further
    rw [ran] at found
    obtain ⟨same, rfl⟩ := Prod.mk.inj found
    cases same
    refine .bind (ih (fun later member => admissible later (List.mem_cons_of_mem _ member)) after
      (head.applied indexable.segment rep.valid fits spare).2 further ?_) ?_
    · intro base member fresh
      refine (vacant_iff fun name named => (ofSegments_entry cfg log entry).lookup fresh named first).mpr
        (free base member fun old => fresh ?_)
      exact (replay_bases cfg.segmentMaxBytes log [entry]).subset old
    · intro rest ops _ final
      exact .pure final _

theorem persistApplied_alike (agree : AgreeOff hidden first second) (only : IndexesOnly hidden) (s : StorageImpl)
    (index : UInt64) : Alike hidden (persistApplied s index) first second := by
  have synced : Alike hidden s.sync first second := by
    rw [StorageImpl.sync]
    split
    · exact .fail agree _
    · exact perform_alike agree only (by simp)
  refine .bind synced ?_
  intro _ ops _ covered
  refine .bind (perform_alike covered only (by simp)) ?_
  intro _ ops _ written
  refine .bind (perform_alike written only (by simp)) ?_
  intro _ ops _ flushed
  exact perform_alike flushed only (by simp)

theorem update_alike (indexable : cfg.Indexable) {fsm : PartitionFSM} {entries : List Entry}
    (admissible : ∀ entry ∈ entries, Admissible unmarshal entry)
    (rep : Represents indexed cfg second fsm.storage log) (fits : Fits log (recordTotal entries))
    (agree : AgreeOff hidden first second) (only : IndexesOnly hidden)
    (free : ∀ base ∈ (replay cfg.segmentMaxBytes log entries).bases, base ∉ log.bases → Vacant first base) :
    Alike hidden (update unmarshal cfg fsm entries) first second := by
  refine .bind (applyEntries_alike indexable admissible rep fits agree only free) ?_
  intro result ops _ after
  dsimp only
  split
  · exact .fail after _
  · refine .bind (.mapError (persistApplied_alike after only _ _) _) ?_
    intro _ ops _ final
    exact .pure final _

/-- The calls run alike when the places of all segments that they add are free. -/
theorem updates_alike (indexable : cfg.Indexable) {fsm : PartitionFSM} {calls : List (List Entry)}
    (present : ∀ entries ∈ calls, entries ≠ [])
    (admissible : ∀ entry ∈ calls.flatten, Admissible unmarshal entry)
    (rep : Represents indexed cfg second fsm.storage log) (fits : Fits log (recordTotal calls.flatten))
    (agree : AgreeOff hidden first second) (only : IndexesOnly hidden)
    (free : ∀ base ∈ (replay cfg.segmentMaxBytes log calls.flatten).bases, base ∉ log.bases → Vacant first base) :
    Alike hidden (updates unmarshal cfg fsm calls) first second := by
  induction calls generalizing first second fsm log with
  | nil => exact .pure agree _
  | cons entries calls ih =>
    rw [List.flatten_cons, replay_append] at free
    obtain ⟨head, rest, whole, _, left⟩ := replay_split indexable.segment admissible rep.valid fits
    have ends : entries.getLast? = some (entries.getLast (present entries List.mem_cons_self)) :=
      List.getLast?_eq_getLast_of_ne_nil _
    obtain ⟨middle, ran, after⟩ := update_run indexable ends head rep whole
    have inside := replay_bases cfg.segmentMaxBytes (replay cfg.segmentMaxBytes log entries) calls.flatten
    refine .bind (update_alike indexable head rep whole agree only fun base member =>
      free base (inside.subset member)) ?_
    intro value ops found further
    rw [ran] at found
    obtain ⟨same, rfl⟩ := Prod.mk.inj found
    cases same
    refine .bind (@ih _ _ _ ⟨middle, (entries.getLast (present entries List.mem_cons_self)).index⟩
      (fun later member => present later (List.mem_cons_of_mem _ member)) rest after left further ?_) ?_
    · intro base member fresh
      refine (vacant_iff (lookup_updateOps fresh _ first)).mpr (free base member fun old => fresh ?_)
      exact (replay_bases cfg.segmentMaxBytes log entries).subset old
    · intro more ops _ final
      exact .pure final _

end

end BunnyMQ.Partition
