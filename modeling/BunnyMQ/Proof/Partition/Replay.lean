/-
This file shows that the state machine applies Raft entries to the partition log.
-/

import BunnyMQ.Construction.Partition.PartitionFSM
import BunnyMQ.Proof.Storage.Encoded
import BunnyMQ.Proof.Storage.Recovery

namespace BunnyMQ.Partition
open Foundation FileStore Storage StorageImpl Program List
variable {limit : Int} {entries : List Entry}

/-- An entry appends an encoded batch below four gigabytes, or it carries a readable retention
configuration. -/
inductive Admissible (unmarshal : Unmarshal) : Entry → Prop
  | append {index : UInt64} {records : List Record} {payload : Bytes}
      (encoded : encodeBatch records = .ok payload) (bounded : payload.length < 2 ^ 32) :
      Admissible unmarshal ⟨index, cmdAppendBatch :: payload⟩
  | retention {index : UInt64} {payload : Bytes} {rc : RetentionConfigPayload}
      (parsed : unmarshal payload = .ok rc) : Admissible unmarshal ⟨index, cmdRetentionConfig :: payload⟩

namespace Entry

def batch? (entry : Entry) : Option Bytes :=
  match entry.cmd with
  | [] => none
  | kind :: payload => if kind = cmdAppendBatch then some payload else none

@[simp] theorem batch?_append (index : UInt64) (payload : Bytes) :
    (Entry.mk index (cmdAppendBatch :: payload)).batch? = some payload := by
  simp [batch?]

@[simp] theorem batch?_retention (index : UInt64) (payload : Bytes) :
    (Entry.mk index (cmdRetentionConfig :: payload)).batch? = none := by
  have other : cmdRetentionConfig ≠ cmdAppendBatch := by decide
  simp [batch?, other]

/-- The number of records that the entry appends. -/
def records (entry : Entry) : Int := (entry.batch?.map recordCountOf).getD 0

/-- The result of an entry depends only on the log before it. -/
def value (entry : Entry) (log : PartitionLog) : Nat :=
  if entry.batch?.isSome then uint64 log.next else 0

def applied (entry : Entry) (limit : Int) (log : PartitionLog) : PartitionLog :=
  (entry.batch?.map (log.append limit)).getD log

def ops (entry : Entry) (cfg : StorageConfig) (log : PartitionLog) : List (FileOp FileName) :=
  (entry.batch?.map (appendOps cfg log)).getD []

end Entry

def recordTotal (entries : List Entry) : Int := (entries.map Entry.records).sum

/-- The abstract state machine folds its entries into the log. -/
def replay (limit : Int) (log : PartitionLog) (entries : List Entry) : PartitionLog :=
  entries.foldl (fun log entry => entry.applied limit log) log

def replayValues (limit : Int) : PartitionLog → List Entry → List Nat
  | _, [] => []
  | log, entry :: rest => entry.value log :: replayValues limit (entry.applied limit log) rest

def replayOps (cfg : StorageConfig) : PartitionLog → List Entry → List (FileOp FileName)
  | _, [] => []
  | log, entry :: rest => entry.ops cfg log ++ replayOps cfg (entry.applied cfg.segmentMaxBytes log) rest

theorem replay_append (limit : Int) (log : PartitionLog) (first second : List Entry) :
    replay limit log (first ++ second) = replay limit (replay limit log first) second := by
  simp [replay]

theorem replayValues_append (limit : Int) (log : PartitionLog) (first second : List Entry) :
    replayValues limit log (first ++ second) =
      replayValues limit log first ++ replayValues limit (replay limit log first) second := by
  induction first generalizing log with
  | nil => rfl
  | cons entry first ih =>
    rw [cons_append, replayValues, replayValues, ih]
    rfl

theorem replayValues_length (limit : Int) (log : PartitionLog) (entries : List Entry) :
    (replayValues limit log entries).length = entries.length := by
  induction entries generalizing log with
  | nil => rfl
  | cons entry entries ih => rw [replayValues, length_cons, length_cons, ih]

theorem recordTotal_cons (entry : Entry) (rest : List Entry) :
    recordTotal (entry :: rest) = entry.records + recordTotal rest := by
  simp [recordTotal]

theorem recordTotal_append (first second : List Entry) :
    recordTotal (first ++ second) = recordTotal first + recordTotal second := by
  simp [recordTotal]

theorem Entry.records_nonneg (entry : Entry) : 0 ≤ entry.records := by
  unfold Entry.records
  cases entry.batch? with
  | none => simp
  | some batch => simp [recordCountOf]

theorem recordTotal_nonneg (entries : List Entry) : 0 ≤ recordTotal entries := by
  induction entries with
  | nil => simp [recordTotal]
  | cons entry entries ih =>
    have first := entry.records_nonneg
    rw [recordTotal_cons]
    omega

section
variable {unmarshal : Unmarshal} {indexed : Prop} {cfg : StorageConfig}
  {disk : StorageDisk} {s : StorageImpl} {log : PartitionLog} {entry : Entry} {count : Int}

/-- An admissible entry keeps the log well formed and uses up its own records. -/
theorem Admissible.applied (admissible : Admissible unmarshal entry) (positive : 0 < limit) (valid : log.Valid limit)
    (fits : Fits log (entry.records + count)) (spare : 0 ≤ count) :
    (entry.applied limit log).Valid limit ∧ Fits (entry.applied limit log) count := by
  cases admissible with
  | @append index records payload encoded bounded =>
    simp only [Entry.records, Entry.applied, Entry.batch?_append, Option.map_some, Option.getD_some] at fits ⊢
    obtain ⟨stored, grows, ends⟩ := encoded_moves encoded bounded valid fits spare
    have start := fits.start
    have room := fits.room
    refine ⟨valid.append positive stored fun _ => by omega, append_start fits.start grows, ?_⟩
    rw [PartitionLog.append_next, ends]
    omega
  | retention parsed =>
    simp only [Entry.records, Entry.applied, Entry.batch?_retention, Option.map_none, Option.getD_none,
      zero_add] at fits ⊢
    exact ⟨valid, fits⟩

theorem Admissible.next (admissible : Admissible unmarshal entry) (valid : log.Valid limit)
    (fits : Fits log (entry.records + count)) (spare : 0 ≤ count) :
    (entry.applied limit log).next = log.next + entry.records := by
  cases admissible with
  | append encoded bounded =>
    simp only [Entry.records, Entry.applied, Entry.batch?_append, Option.map_some, Option.getD_some] at fits ⊢
    obtain ⟨_, _, ends⟩ := encoded_moves encoded bounded valid fits spare
    exact (PartitionLog.append_next _ _ _).trans ends
  | retention parsed => simp [Entry.records, Entry.applied]

/-- An entry returns the offset of its batch and extends the log. -/
theorem applyEntry_run (indexable : cfg.Indexable) (admissible : Admissible unmarshal entry)
    (rep : Represents indexed cfg disk s log) (fits : Fits log (entry.records + count)) (spare : 0 ≤ count) :
    ∃ left, (applyEntry unmarshal cfg s entry).run disk = (.ok (entry.value log, left), entry.ops cfg log) ∧
      Represents indexed cfg (disk.applyAll (entry.ops cfg log)) left
        (entry.applied cfg.segmentMaxBytes log) := by
  cases admissible with
  | append encoded bounded =>
    simp only [Entry.records, Entry.batch?_append, Option.map_some, Option.getD_some] at fits
    obtain ⟨stored, grows, _⟩ := encoded_moves encoded bounded rep.valid fits spare
    have start := fits.start
    obtain ⟨left, ran, after⟩ := append_run indexable rep stored fun _ => by omega
    refine ⟨left, ?_, after⟩
    simp only [applyEntry, if_true]
    rw [bind_ok (mapError_ok ran)]
    simp [Entry.value, Entry.ops]
  | @retention index payload rc parsed =>
    refine ⟨s.setRetentionConfig rc.retentionMs rc.retentionBytes, ?_, rep.valid, rep.handles, rep.next,
      rep.opened, rep.holds, rep.files⟩
    have other : cmdRetentionConfig ≠ cmdAppendBatch := by decide
    simp [applyEntry, parsed, Entry.value, Entry.ops, other]

/-- A list of entries returns every value and extends the log by every batch. -/
theorem applyEntries_run (indexable : cfg.Indexable) (admissible : ∀ entry ∈ entries, Admissible unmarshal entry)
    (rep : Represents indexed cfg disk s log) (fits : Fits log (recordTotal entries)) :
    ∃ left, (applyEntries unmarshal cfg s entries).run disk =
        (.ok (replayValues cfg.segmentMaxBytes log entries, left), replayOps cfg log entries) ∧
      Represents indexed cfg (disk.applyAll (replayOps cfg log entries)) left
        (replay cfg.segmentMaxBytes log entries) := by
  induction entries generalizing disk s log with
  | nil => exact ⟨s, rfl, rep⟩
  | cons entry entries ih =>
    have spare := recordTotal_nonneg entries
    rw [recordTotal_cons] at fits
    have first := admissible entry mem_cons_self
    obtain ⟨middle, ran, after⟩ := applyEntry_run indexable first rep fits spare
    obtain ⟨left, rest, final⟩ := ih (fun later member => admissible later (mem_cons_of_mem _ member))
      after (first.applied indexable.segment rep.valid fits spare).2
    refine ⟨left, ?_, by rw [replayOps, applyAll_append]; exact final⟩
    rw [applyEntries, bind_ok ran]
    simp only
    rw [bind_ok rest]
    simp [replayValues, replayOps]

/-- The log reaches the disk before the new sidecar takes its place. -/
def persistOps (log : PartitionLog) (index : UInt64) : List (FileOp FileName) :=
  [.sync (.log log.active.base), .write .sidecarTmp (encodeSidecar index log.next), .sync .sidecarTmp,
    .rename .sidecarTmp .sidecar]

theorem lookup_persistOps (disk : StorageDisk) (log : PartitionLog) (index : UInt64) {name : FileName}
    (notTmp : name ≠ .sidecarTmp) (notSidecar : name ≠ .sidecar) :
    (disk.applyAll (persistOps log index)).lookup name =
      (disk.apply (.sync (.log log.active.base))).lookup name := by
  refine lookup_applyAll_of_not_touched (disk.apply (.sync (.log log.active.base)))
    [.write .sidecarTmp (encodeSidecar index log.next), .sync .sidecarTmp, .rename .sidecarTmp .sidecar] name ?_
  intro op member
  simp only [mem_cons, not_mem_nil, or_false] at member
  rcases member with rfl | rfl | rfl <;> simp [FileOp.touches, notTmp, notSidecar]

/-- A sync of the log and a change of the sidecar files keep what the directory holds. -/
theorem DiskHolds.persisted {tail : Bytes} {left : StorageDisk} {base : Int}
    (holds : DiskHolds indexed cfg disk log tail)
    (distinct : ∀ seg ∈ log.closedSegs, seg.base ≠ log.active.base)
    (same : ∀ name, name ≠ .sidecarTmp → name ≠ .sidecar →
      left.lookup name = (disk.apply (.sync (.log base))).lookup name) :
    DiskHolds indexed cfg left log tail := by
  refine holds.transfer distinct ?_ (fun base _ => ?_) fun base _ => ?_
  · intro other
    rw [Disk.read, same _ (by simp) (by simp), lookup_sync, Disk.read]
    split
    · next active =>
      rw [active]
      cases disk.lookup (.log base) <;> rfl
    · rfl
  · rw [same _ (by simp) (by simp), lookup_sync, if_neg (by simp)]
  · rw [same _ (by simp) (by simp), lookup_sync, if_neg (by simp)]

theorem Represents.persist (rep : Represents indexed cfg disk s log) (index : UInt64) :
    Represents indexed cfg (disk.applyAll (persistOps log index)) s log := by
  have same : ∀ name : FileName, name ≠ .sidecarTmp → name ≠ .sidecar →
      (disk.applyAll (persistOps log index)).lookup name =
        (disk.apply (.sync (.log log.active.base))).lookup name :=
    fun name notTmp notSidecar => lookup_persistOps disk log index notTmp notSidecar
  refine ⟨rep.valid, rep.handles, rep.next, rep.opened, DiskHolds.persisted rep.holds rep.valid.distinct same, ?_, ?_⟩
  · rw [same _ (by simp) (by simp), lookup_sync, if_neg (by simp)]
    exact rep.files.index
  · rw [same _ (by simp) (by simp), lookup_sync, if_neg (by simp)]
    exact rep.files.timeindex

theorem persistApplied_run (rep : Represents indexed cfg disk s log) (index : UInt64) :
    (persistApplied s index).run disk = (.ok (), persistOps log index) := by
  obtain ⟨closed, segments, _⟩ := rep.handles
  have synced : s.sync.run disk = (.ok (), [.sync (.log log.active.base)]) := by
    simp [StorageImpl.sync, segments, LogSegment.sync, activeHandle]
  rw [persistApplied, bind_ok synced]
  simp [latestOffset, rep.next, persistOps]

/-- One call applies its entries and then records the last of them. -/
def updateOps (cfg : StorageConfig) (log : PartitionLog) (entries : List Entry) (index : UInt64) :
    List (FileOp FileName) :=
  replayOps cfg log entries ++ persistOps (replay cfg.segmentMaxBytes log entries) index

theorem update_run (indexable : cfg.Indexable) {fsm : PartitionFSM} {last : Entry}
    (ends : entries.getLast? = some last) (admissible : ∀ entry ∈ entries, Admissible unmarshal entry)
    (rep : Represents indexed cfg disk fsm.storage log) (fits : Fits log (recordTotal entries)) :
    ∃ left, (update unmarshal cfg fsm entries).run disk =
        (.ok (replayValues cfg.segmentMaxBytes log entries, ⟨left, last.index⟩),
          updateOps cfg log entries last.index) ∧
      Represents indexed cfg (disk.applyAll (updateOps cfg log entries last.index)) left
        (replay cfg.segmentMaxBytes log entries) := by
  obtain ⟨left, ran, after⟩ := applyEntries_run indexable admissible rep fits
  refine ⟨left, ?_, by rw [updateOps, applyAll_append]; exact Represents.persist after _⟩
  rw [update, bind_ok ran]
  simp only [ends]
  rw [bind_ok (mapError_ok (persistApplied_run after last.index))]
  simp [updateOps]

/-- Admissible entries keep the log well formed and use up their own records. -/
theorem replay_valid (positive : 0 < limit) (admissible : ∀ entry ∈ entries, Admissible unmarshal entry)
    (valid : log.Valid limit) (fits : Fits log (recordTotal entries + count)) (spare : 0 ≤ count) :
    (replay limit log entries).Valid limit ∧ Fits (replay limit log entries) count := by
  induction entries generalizing log with
  | nil => exact ⟨valid, by simpa [recordTotal, replay] using fits⟩
  | cons entry entries ih =>
    have more := recordTotal_nonneg entries
    rw [recordTotal_cons, add_assoc] at fits
    obtain ⟨next, left⟩ := (admissible entry mem_cons_self).applied positive valid fits (by omega)
    exact ih (fun later member => admissible later (mem_cons_of_mem _ member)) next left

/-- Entries that are replayed in two parts are admissible in both, and the second part fits behind the first. -/
theorem replay_split (positive : 0 < limit) {front back : List Entry}
    (admissible : ∀ entry ∈ front ++ back, Admissible unmarshal entry) (valid : log.Valid limit)
    (fits : Fits log (recordTotal (front ++ back))) :
    (∀ entry ∈ front, Admissible unmarshal entry) ∧ (∀ entry ∈ back, Admissible unmarshal entry) ∧
      Fits log (recordTotal front) ∧ (replay limit log front).Valid limit ∧
      Fits (replay limit log front) (recordTotal back) := by
  obtain ⟨first, second⟩ := forall_mem_append.mp admissible
  have spare := recordTotal_nonneg back
  have room := fits.room
  rw [recordTotal_append] at fits room
  exact ⟨first, second, ⟨fits.start, by omega⟩, replay_valid positive first valid fits spare⟩

/-- The entries move the next offset by all their records. -/
theorem replay_next (positive : 0 < limit) (admissible : ∀ entry ∈ entries, Admissible unmarshal entry)
    (valid : log.Valid limit) (fits : Fits log (recordTotal entries)) :
    (replay limit log entries).next = log.next + recordTotal entries := by
  induction entries generalizing log with
  | nil => simp [replay, recordTotal]
  | cons entry entries ih =>
    have spare := recordTotal_nonneg entries
    rw [recordTotal_cons] at fits ⊢
    have first := admissible entry mem_cons_self
    obtain ⟨next, left⟩ := first.applied positive valid fits spare
    have rest : (replay limit log (entry :: entries)).next =
        (entry.applied limit log).next + recordTotal entries :=
      ih (fun later member => admissible later (mem_cons_of_mem _ member)) next left
    rw [rest, first.next valid fits spare]
    omega

/-- The operations of a list of calls. -/
def callsOps (cfg : StorageConfig) : PartitionLog → List (List Entry) → List (FileOp FileName)
  | _, [] => []
  | log, entries :: rest =>
    updateOps cfg log entries ((entries.getLast?.map Entry.index).getD 0) ++
      callsOps cfg (replay cfg.segmentMaxBytes log entries) rest

/-- A list of calls applies all entries, however they are cut. -/
theorem updates_run (indexable : cfg.Indexable) {fsm : PartitionFSM} {calls : List (List Entry)}
    (present : ∀ entries ∈ calls, entries ≠ [])
    (admissible : ∀ entry ∈ calls.flatten, Admissible unmarshal entry)
    (rep : Represents indexed cfg disk fsm.storage log) (fits : Fits log (recordTotal calls.flatten)) :
    ∃ left, (updates unmarshal cfg fsm calls).run disk =
        (.ok (replayValues cfg.segmentMaxBytes log calls.flatten, left), callsOps cfg log calls) ∧
      Represents indexed cfg (disk.applyAll (callsOps cfg log calls)) left.storage
        (replay cfg.segmentMaxBytes log calls.flatten) := by
  induction calls generalizing disk fsm log with
  | nil => exact ⟨fsm, rfl, rep⟩
  | cons entries calls ih =>
    obtain ⟨first, rest, whole, _, left⟩ := replay_split indexable.segment admissible rep.valid fits
    have ends : entries.getLast? = some (entries.getLast (present entries mem_cons_self)) :=
      getLast?_eq_getLast_of_ne_nil _
    obtain ⟨middle, ran, after⟩ := update_run indexable ends first rep whole
    obtain ⟨final, more, reached⟩ := @ih _ _ ⟨middle, (entries.getLast (present entries mem_cons_self)).index⟩
      (fun later member => present later (mem_cons_of_mem _ member)) rest after left
    refine ⟨final, ?_, ?_⟩
    · rw [updates, bind_ok ran]
      simp only
      rw [bind_ok more]
      simp [callsOps, ends, replayValues_append]
    · rw [callsOps, ends, applyAll_append, flatten_cons, replay_append]
      exact reached

end

end BunnyMQ.Partition
