/-
This file follows the sidecar through every point at which the state machine can crash.
-/

import BunnyMQ.Proof.Partition.Replay
import BunnyMQ.Proof.Storage.Crash

namespace BunnyMQ.Partition
open Foundation FileStore Storage StorageImpl List

/-- None of the operations names the sidecar. -/
def KeepsSidecar (ops : List (FileOp FileName)) : Prop := ∀ op ∈ ops, FileName.sidecar ∉ op.touches

theorem keepsSidecar_append {first second : List (FileOp FileName)} :
    KeepsSidecar (first ++ second) ↔ KeepsSidecar first ∧ KeepsSidecar second :=
  forall_mem_append

theorem keepsSidecar_of_segments {bases : List Int} {ops : List (FileOp FileName)} (inside : OfSegments bases ops) :
    KeepsSidecar ops := by
  intro op member touched
  obtain ⟨base, _, named⟩ := inside op member _ touched
  cases named

/-- An entry works on the segments that the log has behind it. -/
theorem ofSegments_entry (cfg : StorageConfig) (log : PartitionLog) (entry : Entry) :
    OfSegments (entry.applied cfg.segmentMaxBytes log).bases (entry.ops cfg log) := by
  unfold Entry.ops Entry.applied
  cases entry.batch? with
  | none => exact .nil _
  | some batch => exact ofSegments_appendOps cfg log batch

theorem replay_bases (limit : Int) (log : PartitionLog) (entries : List Entry) :
    log.bases <+: (replay limit log entries).bases := by
  induction entries generalizing log with
  | nil => exact prefix_refl _
  | cons entry entries ih =>
    refine List.IsPrefix.trans ?_ (ih (entry.applied limit log))
    unfold Entry.applied
    cases entry.batch? with
    | none => exact prefix_refl _
    | some batch => exact log.append_bases limit batch

theorem ofSegments_replay (cfg : StorageConfig) (log : PartitionLog) (entries : List Entry) :
    OfSegments (replay cfg.segmentMaxBytes log entries).bases (replayOps cfg log entries) := by
  induction entries generalizing log with
  | nil => exact .nil _
  | cons entry entries ih =>
    refine .append ((ofSegments_entry cfg log entry).mono ?_) (ih _)
    exact (replay_bases cfg.segmentMaxBytes (entry.applied cfg.segmentMaxBytes log) entries).subset

theorem encodeSidecar_length (index : UInt64) (offset : Int) : (encodeSidecar index offset).length = 16 := by
  simp [encodeSidecar]

/-- The sidecar reads back the index and the offset that were written. -/
theorem readSidecar_encodeSidecar {disk : StorageDisk} {index : UInt64} {offset : Int}
    (found : disk.read .sidecar = some (encodeSidecar index offset)) (range : int64 offset = offset) :
    readSidecar disk = .ok (some ⟨index, offset⟩) := by
  have bound := uint64_lt offset
  have whole : BytesAt (encodeSidecar index offset) 0
      (putUint 8 index.toNat ++ putUint 8 (uint64 offset)) := prefix_refl _
  have second := bytesAt_append_right whole
  rw [putUint_length, Nat.zero_add] at second
  have word : (UInt64.ofNat (uint64 offset)).toNat = uint64 offset := by
    rw [UInt64.toNat_ofNat', Nat.mod_eq_of_lt bound]
  rw [← word] at second
  rw [readSidecar, found]
  simp only [encodeSidecar_length, ne_eq, not_true_eq_false, if_false]
  rw [uint64At_of_bytesAt (bytesAt_append_left whole), uint64At_of_bytesAt second, toInt64_toInt, word,
    int64_uint64, range]

/-- The sidecar names the last entry and the next offset of a synced log. -/
def Recorded (cfg : StorageConfig) (past : List Entry) (disk : StorageDisk) : Prop :=
  ∃ last, past.getLast? = some last ∧
    disk.lookup .sidecar =
      some ⟨encodeSidecar last.index (replay cfg.segmentMaxBytes .empty past).next, 16, false⟩ ∧
    CrashImage cfg (replay cfg.segmentMaxBytes .empty past) (2 ^ 63) disk

/-- Before the first call there is no sidecar, and later it names the entries of the calls so far. -/
def RecordedOrFresh (cfg : StorageConfig) (past : List Entry) (disk : StorageDisk) : Prop :=
  disk.lookup .sidecar = none ∨ Recorded cfg past disk

section
variable {unmarshal : Unmarshal} {cfg : StorageConfig}
  {disk : StorageDisk} {past : List Entry}

theorem RecordedOrFresh.along (recorded : RecordedOrFresh cfg past disk) {ops : List (FileOp FileName)}
    (images : Along (CrashImage cfg (replay cfg.segmentMaxBytes .empty past) (2 ^ 63)) disk ops)
    (keeps : KeepsSidecar ops) : Along (RecordedOrFresh cfg past) disk ops := by
  intro count
  have kept : (disk.applyAll (ops.take count)).lookup .sidecar = disk.lookup .sidecar :=
    lookup_applyAll_of_not_touched _ _ _ fun op member => keeps op (mem_of_mem_take member)
  rcases recorded with fresh | ⟨last, ends, found, _⟩
  · exact .inl (kept.trans fresh)
  · exact .inr ⟨last, ends, kept.trans found, images count⟩

/-- A running state machine has synced everything up to its sidecar. -/
structure Running (cfg : StorageConfig) (past : List Entry) (disk : StorageDisk) (s : StorageImpl) : Prop where
  rep : Represents False cfg disk s (replay cfg.segmentMaxBytes .empty past)
  ahead : Ahead (replay cfg.segmentMaxBytes .empty past) (replay cfg.segmentMaxBytes .empty past) disk
  room : (replay cfg.segmentMaxBytes .empty past).HasRoom cfg.segmentMaxBytes
  sidecar : RecordedOrFresh cfg past disk

/-- A crash while entries are applied finds a log that is ahead of the synced one. -/
theorem replayOps_along (indexable : cfg.Indexable) {goal log : PartitionLog} {s : StorageImpl} {bound : Int}
    {entries : List Entry} (admissible : ∀ entry ∈ entries, Admissible unmarshal entry)
    (rep : Represents False cfg disk s log) (ahead : Ahead goal log disk) (room : log.HasRoom cfg.segmentMaxBytes)
    (fits : Fits log (recordTotal entries)) (within : log.next + recordTotal entries ≤ bound) :
    Along (CrashImage cfg goal bound) disk (replayOps cfg log entries) ∧
      Ahead goal (replay cfg.segmentMaxBytes log entries) (disk.applyAll (replayOps cfg log entries)) ∧
      (replay cfg.segmentMaxBytes log entries).HasRoom cfg.segmentMaxBytes := by
  induction entries generalizing disk s log with
  | nil => exact ⟨along_nil.mpr ⟨log, rep.valid, rep.holds, ahead, by simpa [recordTotal] using within⟩, ahead, room⟩
  | cons entry entries ih =>
    have spare := recordTotal_nonneg entries
    rw [recordTotal_cons] at fits within
    have first := admissible entry mem_cons_self
    obtain ⟨middle, _, after⟩ := applyEntry_run indexable first rep fits spare
    have left := (first.applied indexable.segment rep.valid fits spare).2
    have moved := first.next rep.valid fits spare
    have step : Along (CrashImage cfg goal bound) disk (entry.ops cfg log) ∧
        Ahead goal (entry.applied cfg.segmentMaxBytes log) (disk.applyAll (entry.ops cfg log)) ∧
        (entry.applied cfg.segmentMaxBytes log).HasRoom cfg.segmentMaxBytes := by
      cases first with
      | append encoded bounded =>
        simp only [Entry.records, Entry.ops, Entry.applied, Entry.batch?_append, Option.map_some,
          Option.getD_some] at fits within ⊢
        obtain ⟨stored, grows, ends⟩ := encoded_moves encoded bounded rep.valid fits spare
        have inside : endOffsetOf (patchBaseOffset _ log.next) ≤ bound := ends.trans_le (by omega)
        obtain ⟨images, further⟩ := appendOps_along indexable rep ahead room stored grows inside
        exact ⟨images, further, PartitionLog.append_hasRoom indexable.segment log _⟩
      | retention parsed =>
        simp only [Entry.records, Entry.ops, Entry.applied, Entry.batch?_retention, Option.map_none,
          Option.getD_none] at within ⊢
        exact ⟨along_nil.mpr ⟨log, rep.valid, rep.holds, ahead, by omega⟩, ahead, room⟩
    obtain ⟨images, further, wide⟩ := step
    obtain ⟨later, final, last⟩ := ih (fun other member => admissible other (mem_cons_of_mem _ member))
      after further wide left (by rw [moved]; omega)
    exact ⟨along_append.mpr ⟨images, later⟩, by rw [replayOps, applyAll_append]; exact final, last⟩

/-- A crash while the sidecar is replaced finds the old sidecar or the new one. -/
theorem persistOps_along {goal log : PartitionLog} {s : StorageImpl} (rep : Represents False cfg disk s log)
    (ahead : Ahead goal log disk) {bound : Int} (within : log.next ≤ bound) (index : UInt64) :
    Along (CrashImage cfg goal bound) disk ((persistOps log index).take 3) ∧
      KeepsSidecar ((persistOps log index).take 3) ∧
      Ahead log log (disk.applyAll (persistOps log index)) ∧
      (disk.applyAll (persistOps log index)).lookup .sidecar =
        some ⟨encodeSidecar index log.next, 16, false⟩ := by
  obtain ⟨synced, file, found, whole, appended⟩ := ahead.sync rep.valid.distinct
  have data : file.data = log.active.bytes := by
    have bytes := (DiskHolds.persisted rep.holds rep.valid.distinct fun name _ _ => rfl :
      DiskHolds False cfg (disk.apply (.sync (.log log.active.base))) log []).activeLog
    rw [append_nil] at bytes
    obtain ⟨content, same, bytes⟩ := read_eq_some.mp bytes
    rw [found] at same
    cases same
    exact bytes
  have only : ∀ op ∈ [FileOp.write FileName.sidecarTmp (encodeSidecar index log.next), .sync .sidecarTmp],
      ∀ name ∈ op.touches, name = FileName.sidecarTmp := by
    intro op member
    simp only [mem_cons, not_mem_nil, or_false] at member
    rcases member with rfl | rfl <;> simp [FileOp.touches]
  have written := along_untouched only (disk.apply (.sync (.log log.active.base)))
  refine ⟨along_cons.mpr ⟨⟨log, rep.valid, rep.holds, ahead, within⟩, written.mono fun image same => ?_⟩, ?_, ?_, ?_⟩
  · exact ⟨log, rep.valid, DiskHolds.persisted rep.holds rep.valid.distinct fun name notTmp _ => same name notTmp,
      synced.congr fun base => same (.log base) (by simp), within⟩
  · intro op member
    simp only [persistOps, take_succ_cons, take_zero, mem_cons, not_mem_nil, or_false] at member
    rcases member with rfl | rfl | rfl <;> simp [FileOp.touches]
  · refine (Ahead.refl synced.growing synced.closed ⟨file, found, data, whole, appended⟩).congr fun base => ?_
    exact lookup_persistOps disk log index (by simp) (by simp)
  · have tmp : (((disk.apply (.sync (.log log.active.base))).apply
        (.write .sidecarTmp (encodeSidecar index log.next))).apply (.sync .sidecarTmp)).lookup .sidecarTmp =
        some ⟨encodeSidecar index log.next, 16, false⟩ := by
      simp [File.empty, encodeSidecar_length]
    rw [persistOps, applyAll_cons, applyAll_cons, applyAll_cons, applyAll_cons, applyAll_nil, lookup_rename tmp,
      if_pos rfl]

/-- Until its last operation a call changes nothing that the recorded log needs. -/
theorem updateOps_images (indexable : cfg.Indexable) {goal log : PartitionLog} {s : StorageImpl} {bound : Int}
    {entries : List Entry} (admissible : ∀ entry ∈ entries, Admissible unmarshal entry)
    (rep : Represents False cfg disk s log) (ahead : Ahead goal log disk) (room : log.HasRoom cfg.segmentMaxBytes)
    (fits : Fits log (recordTotal entries)) (within : log.next + recordTotal entries ≤ bound) (index : UInt64) :
    ∃ ops, updateOps cfg log entries index = ops ++ [.rename .sidecarTmp .sidecar] ∧ KeepsSidecar ops ∧
      Along (CrashImage cfg goal bound) disk ops ∧
      Ahead (replay cfg.segmentMaxBytes log entries) (replay cfg.segmentMaxBytes log entries)
        (disk.applyAll (updateOps cfg log entries index)) ∧
      (replay cfg.segmentMaxBytes log entries).HasRoom cfg.segmentMaxBytes ∧
      (disk.applyAll (updateOps cfg log entries index)).lookup .sidecar =
        some ⟨encodeSidecar index (replay cfg.segmentMaxBytes log entries).next, 16, false⟩ := by
  obtain ⟨left, _, applied⟩ := applyEntries_run indexable admissible rep fits
  obtain ⟨images, further, wide⟩ := replayOps_along indexable admissible rep ahead room fits within
  have ends := (replay_next indexable.segment admissible rep.valid fits).trans_le within
  obtain ⟨persisting, keeps, final, sidecar⟩ := persistOps_along applied further ends index
  refine ⟨replayOps cfg log entries ++ (persistOps (replay cfg.segmentMaxBytes log entries) index).take 3, ?_,
    keepsSidecar_append.mpr ⟨keepsSidecar_of_segments (ofSegments_replay cfg log entries), keeps⟩,
    along_append.mpr ⟨images, persisting⟩, ?_, wide, ?_⟩
  · rw [append_assoc]
    rfl
  · rw [updateOps, applyAll_append]
    exact final
  · rw [updateOps, applyAll_append]
    exact sidecar

/-- A call leads from one recorded state to the next, and a crash within it finds one of the two. -/
theorem update_along (indexable : cfg.Indexable) {fsm : PartitionFSM} {entries : List Entry} {last : Entry}
    (ends : entries.getLast? = some last) (admissible : ∀ entry ∈ entries, Admissible unmarshal entry)
    (running : Running cfg past disk fsm.storage)
    (fits : Fits (replay cfg.segmentMaxBytes .empty past) (recordTotal entries)) :
    ∃ left, Running cfg (past ++ entries)
        (disk.applyAll (updateOps cfg (replay cfg.segmentMaxBytes .empty past) entries last.index)) left ∧
      Along (fun image => RecordedOrFresh cfg past image ∨ RecordedOrFresh cfg (past ++ entries) image) disk
        (updateOps cfg (replay cfg.segmentMaxBytes .empty past) entries last.index) := by
  obtain ⟨left, _, after⟩ := update_run indexable ends admissible running.rep fits
  obtain ⟨ops, split, keeps, images, final, room, sidecar⟩ := updateOps_images indexable admissible running.rep
    running.ahead running.room fits fits.room.le last.index
  rw [← replay_append] at after room final sidecar
  have recorded : RecordedOrFresh cfg (past ++ entries)
      (disk.applyAll (updateOps cfg (replay cfg.segmentMaxBytes .empty past) entries last.index)) := by
    have range : int64 (replay cfg.segmentMaxBytes .empty (past ++ entries)).next =
        (replay cfg.segmentMaxBytes .empty (past ++ entries)).next := after.valid.active.stop_range
    refine .inr ⟨last, ?_, sidecar, _, after.valid, after.holds, final, ?_⟩
    · rw [getLast?_append, ends, Option.some_or]
    · rw [← range, int64]
      omega
  refine ⟨left, ⟨after, final, room, recorded⟩, ?_⟩
  rw [split] at recorded ⊢
  refine along_append.mpr ⟨(running.sidecar.along images keeps).mono fun image prior => .inl prior, ?_⟩
  refine along_cons.mpr ⟨.inl (running.sidecar.along images keeps).final, along_nil.mpr (.inr ?_)⟩
  rw [applyAll_append] at recorded
  exact recorded

end

end BunnyMQ.Partition
