/-
This file shows which retention settings a replica holds after it is opened and after each update.
-/

import BunnyMQ.Construction.Partition.PartitionFSM

namespace BunnyMQ.Partition
open Foundation FileStore Storage Program
variable {s left : StorageImpl}

/-- The settings that the retention loop passes on. -/
def retentionOf (s : StorageImpl) : RetentionConfigPayload := ⟨s.retentionMs, s.retentionBytes⟩

def defaultRetention (cfg : StorageConfig) : RetentionConfigPayload :=
  ⟨cfg.defaultRetentionMs, cfg.defaultRetentionBytes⟩

/-- A time limit counts when it is positive, and a byte limit when it is not negative. -/
def meaning (rc : RetentionConfigPayload) : Option Int × Option Int :=
  (if rc.retentionMs > 0 then some rc.retentionMs else none,
    if rc.retentionBytes ≥ 0 then some rc.retentionBytes else none)

/-- The last setting holds, and without one the first. -/
def settle (first : RetentionConfigPayload) (configs : List RetentionConfigPayload) : RetentionConfigPayload :=
  configs.getLast?.getD first

theorem settle_append (first : RetentionConfigPayload) (earlier later : List RetentionConfigPayload) :
    settle first (earlier ++ later) = settle (settle first earlier) later := by
  unfold settle
  rw [List.getLast?_append]
  cases later.getLast? <;> rfl

theorem settle_eq {first last : RetentionConfigPayload} {configs : List RetentionConfigPayload}
    (ends : configs.getLast? = some last) : settle first configs = last := by
  rw [settle, ends]
  rfl

/-- Retention judges the segments by the meaning of its settings. -/
theorem retentionReasons_eq (segs : List SegmentStorage) (disk : StorageDisk) (rc : RetentionConfigPayload)
    (nowMs : Int) :
    retentionReasons segs disk rc.retentionMs rc.retentionBytes nowMs =
      (meaning rc).1.elim
        ((meaning rc).2.elim (segs.dropLast.map fun _ => none) fun limit => markBytes limit segs.dropLast
          (totalLogSize segs))
        fun limit => List.zipWith (markTime disk (int64 (nowMs - limit)))
          ((meaning rc).2.elim (segs.dropLast.map fun _ => none) fun limit =>
            markBytes limit segs.dropLast (totalLogSize segs)) segs.tail := by
  unfold retentionReasons meaning
  dsimp only
  split
  · split <;> rfl
  · split <;> rfl

/-- Settings of one meaning delete the same segments. -/
theorem enforceRetention_meaning {first second : RetentionConfigPayload} (same : meaning first = meaning second)
    (s : StorageImpl) (nowMs : Int) :
    s.enforceRetention first.retentionMs first.retentionBytes nowMs =
      s.enforceRetention second.retentionMs second.retentionBytes nowMs := by
  unfold StorageImpl.enforceRetention
  simp only [retentionReasons_eq, same]

section
variable {cfg : StorageConfig} {disk : StorageDisk} {ops : List (FileOp FileName)}

theorem roll_retention (ran : (s.roll cfg).run disk = (.ok left, ops)) : retentionOf left = retentionOf s := by
  unfold StorageImpl.roll at ran
  split at ran
  · cases ran
  · obtain ⟨_, _, _, _, ran, _⟩ := bind_run_ok ran
    obtain ⟨_, _, _, _, ran, _⟩ := bind_run_ok ran
    cases ran
    rfl

theorem append_retention {batch : Bytes} {baseOffset : Int}
    (ran : (s.append cfg batch).run disk = (.ok (baseOffset, left), ops)) : retentionOf left = retentionOf s := by
  unfold StorageImpl.append at ran
  split at ran
  · cases ran
  split at ran
  · cases ran
  split at ran
  · cases ran
  obtain ⟨⟨_, active⟩, _, _, _, ran, _⟩ := bind_run_ok ran
  dsimp only at ran
  split at ran
  · obtain ⟨rolled, _, _, rolls, ran, _⟩ := bind_run_ok ran
    cases ran
    rw [roll_retention rolls]
    rfl
  · cases ran
    rfl

theorem truncateTo_retention {offset : Int} (ran : (s.truncateTo cfg offset).run disk = (.ok left, ops)) :
    retentionOf left = retentionOf s := by
  unfold StorageImpl.truncateTo at ran
  split at ran
  · cases ran
    rfl
  split at ran
  · cases ran
  dsimp only at ran
  split at ran
  · cases ran
    rfl
  · obtain ⟨_, _, _, _, ran, _⟩ := bind_run_ok ran
    obtain ⟨_, _, _, _, ran, _⟩ := bind_run_ok ran
    cases ran
    rfl

theorem openStorage_retention (ran : (openStorage cfg).run disk = (.ok s, ops)) :
    retentionOf s = defaultRetention cfg := by
  unfold openStorage at ran
  obtain ⟨_, _, _, _, ran, _⟩ := bind_run_ok ran
  cases ran
  rfl

/-- An opened replica starts from the configuration of its node. -/
theorem openFSM_retention {index : UInt64} {fsm : PartitionFSM}
    (ran : (openFSM cfg).run disk = (.ok (index, fsm), ops)) :
    retentionOf fsm.storage = defaultRetention cfg ∧ fsm.lastAppliedIndex = index := by
  unfold openFSM at ran
  obtain ⟨storage, _, _, opened, ran, _⟩ := bind_run_ok ran
  have defaults := openStorage_retention opened
  obtain ⟨sidecar, _, _, _, ran, _⟩ := bind_run_ok ran
  cases sidecar with
  | none =>
    cases ran
    exact ⟨defaults, rfl⟩
  | some sidecar =>
    dsimp only at ran
    split at ran
    · obtain ⟨cut, _, _, truncated, ran, _⟩ := bind_run_ok ran
      cases ran
      exact ⟨(truncateTo_retention truncated).trans defaults, rfl⟩
    · cases ran
      exact ⟨defaults, rfl⟩

variable {unmarshal : Unmarshal}

/-- The setting that an entry carries. -/
def configOf (unmarshal : Unmarshal) (entry : Entry) : Option RetentionConfigPayload :=
  match entry.cmd with
  | [] => none
  | kind :: payload => if kind = cmdRetentionConfig then (unmarshal payload).toOption else none

/-- An entry settles the retention of the storage by its own configuration. -/
theorem applyEntry_retention {entry : Entry} {value : Nat}
    (ran : (applyEntry unmarshal cfg s entry).run disk = (.ok (value, left), ops)) :
    retentionOf left = settle (retentionOf s) (configOf unmarshal entry).toList := by
  unfold applyEntry at ran
  unfold configOf
  cases shape : entry.cmd with
  | nil =>
    rw [shape] at ran
    cases ran
  | cons kind payload =>
  rw [shape] at ran
  dsimp only at ran ⊢
  split at ran
  · next appends =>
    obtain ⟨⟨baseOffset, storage⟩, _, _, appended, ran, _⟩ := bind_run_ok ran
    cases ran
    rw [appends, if_neg (by decide)]
    exact append_retention (mapError_run_ok appended)
  split at ran
  · next configures =>
    rw [if_pos configures]
    cases read : unmarshal payload with
    | error text =>
      rw [read] at ran
      cases ran
    | ok rc =>
      rw [read] at ran
      cases ran
      rfl
  · cases ran

theorem applyEntries_retention {entries : List Entry} {values : List Nat}
    (ran : (applyEntries unmarshal cfg s entries).run disk = (.ok (values, left), ops)) :
    retentionOf left = settle (retentionOf s) (entries.filterMap (configOf unmarshal)) := by
  induction entries generalizing s disk values ops with
  | nil =>
    cases ran
    rfl
  | cons entry rest ih =>
    obtain ⟨⟨value, between⟩, _, _, applied, ran, _⟩ := bind_run_ok ran
    obtain ⟨⟨more, last⟩, _, _, further, ran, _⟩ := bind_run_ok ran
    cases ran
    rw [ih further, applyEntry_retention applied, ← settle_append]
    cases config : configOf unmarshal entry with
    | none => rw [List.filterMap_cons_none config, Option.toList_none, List.nil_append]
    | some rc => rw [List.filterMap_cons_some config, Option.toList_some, List.singleton_append]

/-- An update leaves the last setting among its entries and remembers its last index. -/
theorem update_retention {fsm left : PartitionFSM} {entries : List Entry} {values : List Nat}
    (ran : (update unmarshal cfg fsm entries).run disk = (.ok (values, left), ops)) :
    retentionOf left.storage = settle (retentionOf fsm.storage) (entries.filterMap (configOf unmarshal)) ∧
      ∃ last, entries.getLast? = some last ∧ left.lastAppliedIndex = last.index := by
  unfold update at ran
  obtain ⟨⟨_, storage⟩, _, _, applied, ran, _⟩ := bind_run_ok ran
  cases ends : entries.getLast? with
  | none =>
    simp only [ends] at ran
    cases ran
  | some last =>
    simp only [ends] at ran
    obtain ⟨_, _, _, _, ran, _⟩ := bind_run_ok ran
    cases ran
    exact ⟨applyEntries_retention applied, last, rfl, rfl⟩

end

end BunnyMQ.Partition
