/-
This file compares the index entries of a segment with the batches in its log.
-/

import BunnyMQ.Proof.Storage.Deletion
import BunnyMQ.Proof.Storage.Stray

namespace BunnyMQ.Storage
open Foundation FileStore StorageImpl SegmentStorage List
variable {s : StorageImpl} {cfg : StorageConfig} {ops : List (FileOp FileName)}

/-- The entry that a batch has in the offset index of its segment. -/
def offsetEntryOf (base : Int) (found : Bytes × Int) : OffsetEntry :=
  ⟨Int32.ofInt (baseOffsetOf found.1 - base), Int32.ofInt found.2⟩

/-- The entry that a batch has in the time index of its segment. -/
def timeEntryOf (base : Int) (found : Bytes × Int) : TimeEntry :=
  ⟨maxTimestampOf found.1, Int32.ofInt (baseOffsetOf found.1 - base)⟩

/-- The batches in the log of the segment with their byte positions. -/
def SegmentStorage.located (seg : SegmentStorage) (disk : StorageDisk) : List (Bytes × Int) :=
  seg.log.scan ((disk.read (.log seg.baseOffset)).getD []) 0

/-- Both indexes hold only entries of batches in the log, in the order of these batches, and the offsets of the
batches increase. -/
structure SegmentStorage.IndexesSound (seg : SegmentStorage) (disk : StorageDisk) : Prop where
  offsets : seg.offsetIdx.entries.Sublist ((seg.located disk).map (offsetEntryOf seg.baseOffset))
  times : seg.timeIdx.entries.Sublist ((seg.located disk).map (timeEntryOf seg.baseOffset))
  increasing : ((seg.located disk).map fun found => baseOffsetOf found.1).Pairwise (· < ·)

def StorageImpl.IndexesSound (s : StorageImpl) (disk : StorageDisk) : Prop :=
  ∀ seg ∈ s.segments, seg.IndexesSound disk

theorem StorageImpl.IndexesSound.congr {first second : StorageDisk} (sound : s.IndexesSound second)
    (logs : ∀ base, first.lookup (.log base) = second.lookup (.log base)) : s.IndexesSound first := by
  intro seg member
  have same : seg.located first = seg.located second := by
    rw [located, located, read_congr (logs _)]
  obtain ⟨offsets, times, increasing⟩ := sound seg member
  rw [← same] at offsets times increasing
  exact ⟨offsets, times, increasing⟩

/-- The sampled entries belong to batches of the segment and keep their order. -/
theorem sampled_sublist (cfg : StorageConfig) (base : Int) (batches : List Bytes) :
    (sampled cfg base batches).offEntries.Sublist ((placed 0 batches).map (offsetEntryOf base)) ∧
      (sampled cfg base batches).tEntries.Sublist ((placed 0 batches).map (timeEntryOf base)) := by
  induction batches using reverseRecOn with
  | nil => exact ⟨List.Sublist.refl _, List.Sublist.refl _⟩
  | append_singleton batches batch ih =>
    have last : placed 0 (batches ++ [batch]) = placed 0 batches ++ [(batch, (batches.flatten.length : Int))] := by
      rw [placed_append]
      simp [placed]
    rw [sampled_push, IndexScan.visit, last, map_append, map_append]
    split
    · exact ⟨ih.1.append (List.Sublist.refl _), ih.2.append (List.Sublist.refl _)⟩
    · exact ⟨ih.1.trans (sublist_append_left _ _), ih.2.trans (sublist_append_left _ _)⟩

theorem indexesSound_of_sampled {handle : SegmentStorage} {disk : StorageDisk} {seg : Segment} (valid : seg.Valid)
    (growing : Growing seg.batches) (base : handle.baseOffset = seg.base)
    (size : handle.log.logSize = (seg.bytes.length : Nat)) (found : disk.read (.log seg.base) = some seg.bytes)
    (offsets : handle.offsetIdx.entries = (sampled cfg seg.base seg.batches).offEntries)
    (times : handle.timeIdx.entries = (sampled cfg seg.base seg.batches).tEntries) : handle.IndexesSound disk := by
  have located : handle.located disk = placed 0 seg.batches := by
    rw [located, base, found]
    exact scan_zero (fun batch member => (valid.stored batch member).framed) size
  obtain ⟨first, second⟩ := sampled_sublist cfg seg.base seg.batches
  refine ⟨?_, ?_, ?_⟩
  · rw [offsets, located, base]
    exact first
  · rw [times, located, base]
    exact second
  · have batches : (placed 0 seg.batches).map (fun found => baseOffsetOf found.1) = seg.batches.map baseOffsetOf := by
      rw [← congrArg (map baseOffsetOf) (placed_map_fst 0 seg.batches), map_map]
      rfl
    rw [located, batches]
    exact growing.increasing valid.chained

theorem sealedHandles_mem {indexed : Prop} {handles : List SegmentStorage} {segs : List Segment}
    (related : List.Forall₂ (SealedHandle indexed cfg) handles segs) {handle : SegmentStorage}
    (member : handle ∈ handles) : ∃ seg ∈ segs, SealedHandle indexed cfg handle seg := by
  induction related with
  | nil => cases member
  | @cons first seg handles segs matched _ ih =>
    rcases mem_cons.mp member with rfl | later
    · exact ⟨seg, mem_cons_self, matched⟩
    · obtain ⟨other, listed, found⟩ := ih later
      exact ⟨other, mem_cons_of_mem _ listed, found⟩

/-- The handles of an indexed directory have sound indexes. -/
theorem Represents.indexesSound {disk : StorageDisk} {log : PartitionLog} (rep : Represents True cfg disk s log)
    (growing : ∀ seg ∈ log.segments, Growing seg.batches) : s.IndexesSound disk := by
  obtain ⟨closed, segments, handles⟩ := rep.handles
  intro handle member
  rw [segments] at member
  rcases mem_append.mp member with old | last
  · obtain ⟨seg, listed, matched⟩ := sealedHandles_mem handles old
    have inside : seg ∈ log.segments := mem_append_left _ listed
    exact indexesSound_of_sampled (rep.valid.segment seg inside) (growing seg inside) matched.base matched.size
      (rep.holds.closedLog seg listed) (matched.offsets trivial).1 (matched.times trivial).1
  · rw [mem_singleton.mp last]
    have bytes := rep.holds.activeLog
    rw [append_nil] at bytes
    exact indexesSound_of_sampled rep.valid.active (growing log.active (by simp [PartitionLog.segments])) rfl rfl bytes
      rfl rfl

section
variable {cfg : StorageConfig} {disk : StorageDisk}

/-- A sound index of an empty segment leaves no room for entries in its file. -/
theorem entriesOf_sublist_nil {Entry : Type} {layout : EntryLayout Entry} (width : 0 < layout.width) {data : Bytes}
    (sound : (layout.entriesOf data).Sublist []) : data.length < layout.width := by
  have none := congrArg length (sublist_nil.mp sound)
  rw [EntryLayout.entriesOf, length_map, length_range, length_nil] at none
  exact (Nat.div_eq_zero_iff_lt width).mp none

/-- An empty segment with sound indexes was created in a free place. -/
theorem vacant_of_sound {base : Int} (missing : disk.lookup (.log base) = none) {created : SegmentStorage}
    (ran : (newSegmentStorage base cfg).run disk = (.ok created, ops)) {later : StorageDisk}
    (sound : created.IndexesSound later) : Vacant disk base := by
  obtain ⟨rfl, _⟩ := newSegmentStorage_ok missing ran
  have first : (offsetLayout.entriesOf ((disk.read (.index base)).getD [])).Sublist [] := sound.offsets
  have second : (timeLayout.entriesOf ((disk.read (.timeindex base)).getD [])).Sublist [] := sound.times
  refine ⟨missing, fun data read => ?_, fun data read => ?_⟩
  · rw [read] at first
    exact entriesOf_sublist_nil (by decide) first
  · rw [read] at second
    exact entriesOf_sublist_nil (by decide) second

/-- A roll creates its segment behind the seal of the last one. -/
theorem roll_created {left : StorageImpl} {active : Segment} (mappable : Mappable cfg active)
    (last : s.segments.getLast? = some (activeHandle cfg active)) (ran : (s.roll cfg).run disk = (.ok left, ops)) :
    ∃ created behind, (newSegmentStorage s.nextOffset cfg).run (disk.applyAll (sealOps (activeHandle cfg active))) =
      (.ok created, behind) ∧ created ∈ left.segments := by
  rw [roll, last] at ran
  obtain ⟨sealedSeg, before, _, sealing, ran, _⟩ := Program.bind_run_ok ran
  rw [activeHandle_seal mappable] at sealing
  cases sealing
  obtain ⟨created, behind, _, opened, ran, _⟩ := Program.bind_run_ok ran
  cases ran
  have member : created ∈ s.segments.dropLast ++ [sealHandle (activeHandle cfg active), created] :=
    mem_append_right _ (mem_cons_of_mem _ (mem_singleton_self created))
  exact ⟨created, behind, opened, member⟩

/-- An append that rolls leaves sound indexes only if the place of the new segment was free. -/
theorem append_sound_vacant (indexable : cfg.Indexable) {log : PartitionLog} {second : StorageDisk} {indexed : Prop}
    (rep : Represents indexed cfg second s log) {batch : Bytes} (stored : StoredBatch batch)
    (full : ((log.pushed batch).bytes.length : Int) ≥ cfg.segmentMaxBytes)
    (fresh : (log.pushed batch).stop ∉ log.bases)
    (missing : disk.lookup (.log (log.pushed batch).stop) = none) {base : Int}
    {left : StorageImpl} (ran : (s.append cfg batch).run disk = (.ok (base, left), ops)) {later : StorageDisk}
    (sound : left.IndexesSound later) : Vacant disk (log.pushed batch).stop := by
  rw [rep.mounted.append_steps indexable (rep.spare indexable) stored disk] at ran
  obtain ⟨_, _, _, performed, rest, _⟩ := Program.bind_run_ok ran
  cases performed
  rw [if_pos full] at rest
  obtain ⟨rolled, _, _, rolling, finished, _⟩ := Program.bind_run_ok rest
  cases finished
  have last : (s.pushed cfg (log.pushed batch)).segments.getLast? =
      some (activeHandle cfg (log.pushed batch)) := getLast?_concat ..
  obtain ⟨created, _, opened, member⟩ := roll_created (rep.mappable_pushed indexable batch) last rolling
  have next : (s.pushed cfg (log.pushed batch)).nextOffset =
      (log.pushed batch).stop := rfl
  rw [next, ← applyAll_append, singleton_append] at opened
  have inside : OfSegments [log.active.base] (.append (.log log.active.base) (patchBaseOffset batch log.next) ::
      sealOps (activeHandle cfg (log.pushed batch))) :=
    OfSegments.cons rfl rfl (mem_singleton_self _) (ofSegments_sealOps cfg _)
  have absent : (log.pushed batch).stop ∉ [log.active.base] := by
    intro member
    rw [mem_singleton] at member
    exact fresh (member ▸ log.active_mem_bases)
  rw [← vacant_iff fun name named => inside.lookup absent named disk]
  have unlisted := @OfSegments.lookup _ _ inside _ absent (.log _) rfl disk
  exact vacant_of_sound (unlisted.trans missing) opened (sound created member)

end

end BunnyMQ.Storage
