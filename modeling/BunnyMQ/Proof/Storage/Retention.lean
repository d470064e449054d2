/-
This file shows which segments retention removes and when the rest of the log stays readable.
-/

import BunnyMQ.Library.Selection
import BunnyMQ.Library.Transition
import BunnyMQ.Proof.Storage.Read

namespace BunnyMQ.Storage
open Foundation FileStore Selection Transition StorageImpl SegmentStorage List

theorem markBytes_length (retentionBytes : Int) (segs : List SegmentStorage) (total : Int) :
    (markBytes retentionBytes segs total).length = segs.length := by
  induction segs generalizing total with
  | nil => rfl
  | cons seg segs ih =>
    rw [markBytes]
    split
    · rw [length_cons, ih, length_cons]
    · rw [length_cons, ih, length_cons]

/-- Every sealed segment is judged. -/
theorem retentionReasons_length (segs : List SegmentStorage) (disk : StorageDisk)
    (retentionMs retentionBytes nowMs : Int) :
    (retentionReasons segs disk retentionMs retentionBytes nowMs).length = segs.dropLast.length := by
  have marked : (if retentionBytes ≥ 0 then markBytes retentionBytes segs.dropLast (totalLogSize segs)
      else segs.dropLast.map fun _ => none).length = segs.dropLast.length := by
    split
    · exact markBytes_length _ _ _
    · exact length_map _
  unfold retentionReasons
  simp only
  split
  · rw [length_zipWith, marked, length_dropLast, length_tail, Nat.min_self]
  · exact marked

/-- The marked segments leave the list and the directory, and the active segment is never judged. -/
theorem enforceRetention_eq (s : StorageImpl) (disk : StorageDisk) (retentionMs retentionBytes nowMs : Int) :
    (s.enforceRetention retentionMs retentionBytes nowMs).run disk =
      (.ok ((picked Option.isSome (retentionReasons s.segments disk retentionMs retentionBytes nowMs)
          s.segments.dropLast).length,
        { s with
          segments := picked Option.isNone (retentionReasons s.segments disk retentionMs retentionBytes nowMs)
            s.segments.dropLast ++ s.segments.drop (s.segments.length - 1) }),
        removeOps ((picked Option.isSome (retentionReasons s.segments disk retentionMs retentionBytes nowMs)
          s.segments.dropLast).map baseOffset)) := by
  have reasoned : (Program.observe fun disk =>
      .ok (retentionReasons s.segments disk retentionMs retentionBytes nowMs) :
        StorageProgram (List (Option RetentionReason))).run disk =
      (.ok (retentionReasons s.segments disk retentionMs retentionBytes nowMs), []) := Program.observe_run _ _
  generalize retentionReasons s.segments disk retentionMs retentionBytes nowMs = reasons at reasoned ⊢
  by_cases single : s.segments.length ≤ 1
  · have none : s.segments.dropLast = [] :=
      length_eq_zero_iff.mp (by rw [length_dropLast]; omega)
    have all : s.segments.length - 1 = 0 := by omega
    rw [StorageImpl.enforceRetention, if_pos single, none, all]
    simp only [picked_nil, nil_append, length_nil, map_nil, drop_zero]
    rfl
  · rw [StorageImpl.enforceRetention, if_neg single, Program.bind_ok reasoned]
    simp only [applyAll_nil, nil_append]
    rw [Program.bind_ok (removeSegments_run _ disk)]
    change (Except.ok ((picked Option.isSome reasons s.segments.dropLast).length,
      { s with segments := picked Option.isNone reasons s.segments.dropLast ++
        s.segments.drop (s.segments.length - 1) }),
      removeOps ((picked Option.isSome reasons s.segments.dropLast).map baseOffset) ++ []) = _
    rw [append_nil]

/-- The sealed segments without a reason stay. -/
def PartitionLog.retain (log : PartitionLog) (reasons : List (Option RetentionReason)) : PartitionLog :=
  ⟨picked Option.isNone reasons log.closedSegs, log.active⟩

theorem PartitionLog.retain_segments (log : PartitionLog) (reasons : List (Option RetentionReason)) :
    (log.retain reasons).segments.Sublist log.segments :=
  (picked_sublist _ reasons log.closedSegs).append (List.Sublist.refl _)

theorem PartitionLog.Valid.retain {log : PartitionLog} {limit : Int} (valid : log.Valid limit)
    (reasons : List (Option RetentionReason)) : (log.retain reasons).Valid limit where
  segment seg member := valid.segment seg ((log.retain_segments reasons).subset member)
  increasing := valid.increasing.sublist ((log.retain_segments reasons).map _)
  slack := valid.slack

/-- The files of the removed segments. -/
def retentionOps (log : PartitionLog) (reasons : List (Option RetentionReason)) : List (FileOp FileName) :=
  removeOps ((picked Option.isSome reasons log.closedSegs).map Segment.base)

section
variable {indexed : Prop} {cfg : StorageConfig} {disk : StorageDisk} {s : StorageImpl} {log : PartitionLog}

/-- The directory holds the kept segments after the files of the others are removed. -/
theorem DiskHolds.retain {limit : Int} (holds : DiskHolds indexed cfg disk log []) (valid : log.Valid limit)
    {reasons : List (Option RetentionReason)} (judged : reasons.length = log.closedSegs.length) :
    DiskHolds indexed cfg (disk.applyAll (retentionOps log reasons)) (log.retain reasons) [] := by
  have distinct : (log.closedSegs.map Segment.base).Nodup := by
    have all : (log.closedSegs.map Segment.base ++ [log.active.base]).Pairwise (· < ·) := by
      simpa [PartitionLog.bases, PartitionLog.segments] using valid.increasing
    exact (pairwise_append.mp all).1.imp fun lower => lower.ne
  have kept : ∀ seg ∈ picked Option.isNone reasons log.closedSegs,
      seg.base ∉ (picked Option.isSome reasons log.closedSegs).map Segment.base := by
    intro seg member
    rw [← picked_map]
    apply picked_disjoint reasons distinct
    rw [picked_map]
    exact mem_map_of_mem member
  have closed : ∀ seg ∈ picked Option.isNone reasons log.closedSegs, seg ∈ log.closedSegs := fun seg member =>
    (picked_sublist _ reasons _).subset member
  have active : log.active.base ∉ (picked Option.isSome reasons log.closedSegs).map Segment.base := by
    intro removed
    obtain ⟨seg, member, same⟩ := mem_map.mp removed
    exact valid.distinct seg ((picked_sublist _ reasons _).subset member) same
  refine ⟨?_, ?_, ?_, ?_⟩
  · intro seg member
    obtain ⟨logs, _, _⟩ := lookup_removeOps ((picked Option.isSome reasons log.closedSegs).map Segment.base) disk
      seg.base
    rw [← holds.closedLog seg (closed seg member)]
    exact read_congr (logs.trans (if_neg (kept seg member)))
  · intro seg member
    obtain ⟨_, index, timeindex⟩ :=
      lookup_removeOps ((picked Option.isSome reasons log.closedSegs).map Segment.base) disk seg.base
    exact sealedFiles_congr (holds.closedIndex seg (closed seg member)) (index.trans (if_neg (kept seg member)))
      (timeindex.trans (if_neg (kept seg member)))
  · obtain ⟨logs, _, _⟩ :=
      lookup_removeOps ((picked Option.isSome reasons log.closedSegs).map Segment.base) disk log.active.base
    rw [PartitionLog.retain, ← holds.activeLog]
    exact read_congr (logs.trans (if_neg active))
  · intro base absent
    obtain ⟨logs, index, timeindex⟩ :=
      lookup_removeOps ((picked Option.isSome reasons log.closedSegs).map Segment.base) disk base
    by_cases removed : base ∈ (picked Option.isSome reasons log.closedSegs).map Segment.base
    · exact ⟨logs.trans (if_pos removed), index.trans (if_pos removed), timeindex.trans (if_pos removed)⟩
    · have old : base ∉ log.bases := by
        intro member
        obtain ⟨seg, found, same⟩ := mem_map.mp member
        apply absent
        rw [← same]
        apply mem_map_of_mem
        rcases mem_append.mp found with closed | active
        · rcases mem_picked_or judged closed with stays | leaves
          · exact mem_append_left _ stays
          · exact absurd (by rw [← same]; exact mem_map_of_mem leaves) removed
        · exact mem_append_right _ active
      have missing := holds.others base old
      exact ⟨logs.trans ((if_neg removed).trans missing.log), index.trans ((if_neg removed).trans missing.index),
        timeindex.trans ((if_neg removed).trans missing.timeindex)⟩

/-- Retention removes exactly the segments that got a reason. -/
theorem enforceRetention_run (rep : Represents indexed cfg disk s log) (retentionMs retentionBytes nowMs : Int) :
    ∃ left, (s.enforceRetention retentionMs retentionBytes nowMs).run disk =
        (.ok ((picked Option.isSome (retentionReasons s.segments disk retentionMs retentionBytes nowMs)
          log.closedSegs).length, left),
          retentionOps log (retentionReasons s.segments disk retentionMs retentionBytes nowMs)) ∧
      Represents indexed cfg (disk.applyAll (retentionOps log
          (retentionReasons s.segments disk retentionMs retentionBytes nowMs))) left
        (log.retain (retentionReasons s.segments disk retentionMs retentionBytes nowMs)) := by
  obtain ⟨closed, segments, handles⟩ := rep.handles
  have front : s.segments.dropLast = closed := by rw [segments, dropLast_concat]
  have judged : (retentionReasons s.segments disk retentionMs retentionBytes nowMs).length = closed.length := by
    rw [retentionReasons_length, front]
  have last : s.segments.drop (s.segments.length - 1) = [activeHandle cfg log.active] := by
    rw [segments, length_append, length_singleton, Nat.add_sub_cancel, drop_left]
  have ran := enforceRetention_eq s disk retentionMs retentionBytes nowMs
  rw [front, last] at ran
  generalize retentionReasons s.segments disk retentionMs retentionBytes nowMs = reasons at judged ran ⊢
  have listed : closed.map baseOffset = log.closedSegs.map Segment.base := by
    have same := rep.bases
    rw [segments, PartitionLog.bases, PartitionLog.segments, map_append, map_append] at same
    exact (append_inj_left' same rfl)
  have removed : (picked Option.isSome reasons closed).map baseOffset =
      (picked Option.isSome reasons log.closedSegs).map Segment.base := by
    rw [← picked_map, ← picked_map, listed]
  have counted : (picked Option.isSome reasons closed).length =
      (picked Option.isSome reasons log.closedSegs).length := by
    have lengths := congrArg length removed
    rwa [length_map, length_map] at lengths
  refine ⟨{ s with segments := picked Option.isNone reasons closed ++ [activeHandle cfg log.active] }, ?_, ?_⟩
  · rw [ran, counted, removed, retentionOps]
  · refine ⟨rep.valid.retain reasons, ⟨_, rfl, picked_forall₂ _ reasons handles⟩, rep.next, rep.opened,
      rep.holds.retain rep.valid (judged.trans handles.length_eq), ?_⟩
    have active : log.active.base ∉ (picked Option.isSome reasons log.closedSegs).map Segment.base := by
      intro member
      obtain ⟨seg, found, equal⟩ := mem_map.mp member
      exact rep.valid.distinct seg ((picked_sublist _ reasons _).subset found) equal
    obtain ⟨_, index, timeindex⟩ :=
      lookup_removeOps ((picked Option.isSome reasons log.closedSegs).map Segment.base) disk log.active.base
    exact ⟨by rw [retentionOps, PartitionLog.retain, index, if_neg active]; exact rep.files.index,
      by rw [retentionOps, PartitionLog.retain, timeindex, if_neg active]; exact rep.files.timeindex⟩

end

/-- A log stays readable when retention removes its oldest segments. -/
theorem PartitionLog.Readable.retain {log : PartitionLog} (readable : log.Readable)
    {reasons : List (Option RetentionReason)} (judged : reasons.length = log.closedSegs.length)
    (marks : MarksPrefix reasons) : (log.retain reasons).Readable := by
  have inside : ∀ seg ∈ (log.retain reasons).segments, seg ∈ log.segments := fun seg member =>
    (log.retain_segments reasons).subset member
  refine ⟨fun seg member => readable.growing seg (inside seg member), ?_,
    fun seg member => readable.positions seg (inside seg member),
    fun seg member => readable.dense seg (inside seg member)⟩
  obtain ⟨front, split⟩ := picked_suffix judged marks
  have contiguous := readable.contiguous
  rw [segments, ← split, append_assoc] at contiguous
  exact (isChain_append.mp contiguous).2.1

end BunnyMQ.Storage
