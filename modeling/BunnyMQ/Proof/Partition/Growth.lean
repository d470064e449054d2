/-
This file keeps the batches and the segments of a log in order while entries are applied.
-/

import BunnyMQ.Proof.Partition.Replay
import BunnyMQ.Proof.Storage.Deletion

namespace BunnyMQ.Partition
open Foundation FileStore Storage StorageImpl
variable {limit : Int} {entries : List Entry}

section
variable {unmarshal : Unmarshal} {log : PartitionLog} {entry : Entry} {count : Int}

section
variable (admissible : Admissible unmarshal entry) (valid : log.Valid limit) (fits : Fits log (entry.records + count))
  (spare : 0 ≤ count)
include admissible valid fits spare

theorem Admissible.growing (growing : Growing log.contents) : Growing (entry.applied limit log).contents := by
  cases admissible with
  | @append index records payload encoded bounded =>
    simp only [Entry.records, Entry.applied, Entry.batch?_append, Option.map_some, Option.getD_some] at fits ⊢
    obtain ⟨_, grows, _⟩ := encoded_moves encoded bounded valid fits spare
    have range : int64 log.next = log.next := valid.active.stop_range
    rw [PartitionLog.append_contents]
    intro batch member
    rcases List.mem_append.mp member with old | new
    · exact growing batch old
    · rw [List.mem_singleton.mp new, baseOffsetOf_patch, range]
      exact grows
  | retention parsed => simpa [Entry.applied] using growing

theorem Admissible.spaced (spaced : log.Spaced) : (entry.applied limit log).Spaced := by
  cases admissible with
  | append encoded bounded =>
    simp only [Entry.records, Entry.applied, Entry.batch?_append, Option.map_some, Option.getD_some] at fits ⊢
    obtain ⟨_, grows, _⟩ := encoded_moves encoded bounded valid fits spare
    have start := fits.start
    exact spaced.append limit (by omega)
  | retention parsed => simpa [Entry.applied] using spaced

/-- An entry adds at most one segment, and it starts behind the log. -/
theorem Admissible.new_bases {base : Int} (member : base ∈ (entry.applied limit log).bases) (fresh : base ∉ log.bases) :
    log.next < base := by
  cases admissible with
  | @append index records payload encoded bounded =>
    simp only [Entry.records, Entry.applied, Entry.batch?_append, Option.map_some, Option.getD_some] at fits member
    obtain ⟨_, grows, _⟩ := encoded_moves encoded bounded valid fits spare
    rw [(PartitionLog.append_new_base member fresh).2, Segment.push_stop]
    exact grows
  | retention parsed =>
    simp only [Entry.applied, Entry.batch?_retention, Option.map_none, Option.getD_none] at member
    exact absurd member fresh

end

/-- The segments that a replay adds start behind the log. -/
theorem replay_new_bases (positive : 0 < limit) (admissible : ∀ entry ∈ entries, Admissible unmarshal entry)
    (valid : log.Valid limit) (fits : Fits log (recordTotal entries)) {base : Int}
    (member : base ∈ (replay limit log entries).bases) (fresh : base ∉ log.bases) : log.next < base := by
  induction entries generalizing log with
  | nil => exact absurd member fresh
  | cons entry entries ih =>
    have spare := recordTotal_nonneg entries
    rw [recordTotal_cons] at fits
    have first := admissible entry List.mem_cons_self
    obtain ⟨next, left⟩ := first.applied positive valid fits spare
    by_cases old : base ∈ (entry.applied limit log).bases
    · exact first.new_bases valid fits spare old fresh
    · have later := ih (fun other inside => admissible other (List.mem_cons_of_mem _ inside)) next left member old
      have moved := first.next valid fits spare
      have records := entry.records_nonneg
      omega

/-- What every admissible entry keeps holds behind a replay. -/
theorem replay_keeps {limit : Int} (positive : 0 < limit) {entries : List Entry}
    (admissible : ∀ entry ∈ entries, Admissible unmarshal entry) (valid : log.Valid limit)
    (fits : Fits log (recordTotal entries)) {holds : PartitionLog → Prop} (initial : holds log)
    (step : ∀ {log entry count}, Admissible unmarshal entry → log.Valid limit → Fits log (entry.records + count) →
      0 ≤ count → holds log → holds (entry.applied limit log)) : holds (replay limit log entries) := by
  induction entries generalizing log with
  | nil => exact initial
  | cons entry entries ih =>
    have spare := recordTotal_nonneg entries
    rw [recordTotal_cons] at fits
    have first := admissible entry List.mem_cons_self
    obtain ⟨next, left⟩ := first.applied positive valid fits spare
    exact ih (fun other inside => admissible other (List.mem_cons_of_mem _ inside)) next left
      (step first valid fits spare initial)

section
variable (positive : 0 < limit) (admissible : ∀ entry ∈ entries, Admissible unmarshal entry) (valid : log.Valid limit)
  (fits : Fits log (recordTotal entries))
include positive admissible valid fits

theorem replay_spaced (spaced : log.Spaced) : (replay limit log entries).Spaced :=
  replay_keeps positive admissible valid fits spaced fun first => first.spaced

theorem replay_growing (growing : Growing log.contents) : Growing (replay limit log entries).contents :=
  @replay_keeps _ _ _ positive _ admissible valid fits (fun log => Growing log.contents) growing
    fun first => first.growing

end

end

end BunnyMQ.Partition
