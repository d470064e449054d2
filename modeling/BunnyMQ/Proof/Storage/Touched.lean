/-
This file names the segments whose files an operation of the storage works on.
-/

import BunnyMQ.Proof.Storage.Truncation

namespace BunnyMQ.Storage
open Foundation FileStore StorageImpl List

/-- The segment that the file belongs to. -/
def FileName.base? : FileName → Option Int
  | .log base | .index base | .timeindex base => some base
  | .sidecar | .sidecarTmp => none

/-- Every file that the operations name belongs to a listed segment. -/
def OfSegments (bases : List Int) (ops : List (FileOp FileName)) : Prop :=
  ∀ op ∈ ops, ∀ name ∈ op.touches, ∃ base ∈ bases, name.base? = some base

namespace OfSegments
variable {bases wider : List Int} {ops first second : List (FileOp FileName)}

theorem nil (bases : List Int) : OfSegments bases [] := forall_mem_nil _

theorem append (before : OfSegments bases first) (behind : OfSegments bases second) :
    OfSegments bases (first ++ second) :=
  forall_mem_append.mpr ⟨before, behind⟩

/-- An operation on one file belongs to the segment of this file. -/
theorem cons {op : FileOp FileName} {name : FileName} {base : Int} (touches : op.touches = [name])
    (named : name.base? = some base) (member : base ∈ bases) (rest : OfSegments bases ops) :
    OfSegments bases (op :: ops) := by
  refine forall_mem_cons.mpr ⟨?_, rest⟩
  intro other touched
  rw [touches] at touched
  rw [mem_singleton.mp touched]
  exact ⟨base, member, named⟩

section
variable (inside : OfSegments bases ops)
include inside

theorem mono (subset : bases ⊆ wider) : OfSegments wider ops := by
  intro op member name touched
  obtain ⟨base, listed, named⟩ := inside op member name touched
  exact ⟨base, subset listed, named⟩

theorem take (count : Nat) : OfSegments bases (ops.take count) :=
  fun op member => inside op (mem_of_mem_take member)

/-- The files of every other segment keep their contents. -/
theorem lookup {base : Int} (absent : base ∉ bases) {name : FileName} (named : name.base? = some base)
    (disk : StorageDisk) : (disk.applyAll ops).lookup name = disk.lookup name := by
  refine lookup_applyAll_of_not_touched _ _ _ fun op member touched => ?_
  obtain ⟨other, listed, same⟩ := inside op member name touched
  rw [named, Option.some_inj] at same
  exact absent (same ▸ listed)

/-- A file of no segment keeps its contents. -/
theorem lookup_unnamed {name : FileName} (unnamed : name.base? = none) (disk : StorageDisk) :
    (disk.applyAll ops).lookup name = disk.lookup name := by
  refine lookup_applyAll_of_not_touched _ _ _ fun op member touched => ?_
  obtain ⟨base, _, named⟩ := inside op member _ touched
  rw [unnamed] at named
  cases named

theorem lookup_sidecar (disk : StorageDisk) : (disk.applyAll ops).lookup .sidecar = disk.lookup .sidecar :=
  inside.lookup_unnamed rfl disk

end

end OfSegments

theorem touches_sealIndexOps {Entry : Type} (layout : EntryLayout Entry) (file : FileName) (entries : List Entry)
    (op : FileOp FileName) (member : op ∈ sealIndexOps layout file entries) : op.touches = [file] := by
  unfold sealIndexOps at member
  split at member
  · rcases mem_cons.mp member with rfl | last
    · rfl
    · rw [mem_singleton.mp last]
      rfl
  · rw [mem_singleton.mp member]
    rfl

theorem touches_indexOps (cfg : StorageConfig) (width : Nat) (file : FileName) (op : FileOp FileName)
    (member : op ∈ indexOps cfg width file) : op.touches = [file] := by
  simp only [indexOps, mem_cons, not_mem_nil, or_false] at member
  rcases member with rfl | rfl | rfl <;> rfl

theorem ofSegments_file {ops : List (FileOp FileName)} {name : FileName} {base : Int}
    (touches : ∀ op ∈ ops, op.touches = [name]) (named : name.base? = some base) : OfSegments [base] ops := by
  intro op member other touched
  rw [touches op member] at touched
  rw [mem_singleton.mp touched]
  exact ⟨base, mem_singleton_self _, named⟩

section
variable (cfg : StorageConfig)

theorem ofSegments_indexFileOps (base : Int) : OfSegments [base] (indexFileOps cfg base) :=
  (ofSegments_file (touches_indexOps cfg _ _) rfl).append (ofSegments_file (touches_indexOps cfg _ _) rfl)

theorem ofSegments_newSegmentOps (base : Int) : OfSegments [base] (newSegmentOps cfg base) :=
  OfSegments.cons rfl rfl (mem_singleton_self _) (ofSegments_indexFileOps cfg base)

theorem ofSegments_sealOps (seg : Segment) : OfSegments [seg.base] (sealOps (activeHandle cfg seg)) :=
  (ofSegments_file (touches_sealIndexOps _ _ _) rfl).append
    ((ofSegments_file (touches_sealIndexOps _ _ _) rfl).append
      (.cons rfl rfl (mem_singleton_self _) (.nil _)))

theorem ofSegments_restoreOps (base : Int) : OfSegments [base] (restoreOps cfg base) :=
  OfSegments.cons rfl rfl (mem_singleton_self _)
    (.cons rfl rfl (mem_singleton_self _) (ofSegments_indexFileOps cfg base))

theorem ofSegments_recoveryOps (seg : Segment) : OfSegments [seg.base] (recoveryOps cfg seg) :=
  OfSegments.cons rfl rfl (mem_singleton_self _)
    ((ofSegments_restoreOps cfg seg.base).append
      (.cons rfl rfl (mem_singleton_self _) (.nil _)))

theorem ofSegments_truncateOps (seg : Segment) (wasSealed : Bool) :
    OfSegments [seg.base] (truncateOps cfg seg wasSealed) := by
  refine .append ?_ (.cons rfl rfl (mem_singleton_self _) (ofSegments_restoreOps cfg seg.base))
  split
  · exact .cons rfl rfl (mem_singleton_self _) (.nil _)
  · exact .nil _

/-- An append works on the active segment and on the one that it may roll to. -/
theorem ofSegments_appendOps (log : PartitionLog) (batch : Bytes) :
    OfSegments (log.append cfg.segmentMaxBytes batch).bases (appendOps cfg log batch) := by
  have active := (log.append_bases cfg.segmentMaxBytes batch).subset log.active_mem_bases
  refine .cons rfl rfl active ?_
  split
  · next full =>
    refine ((ofSegments_sealOps cfg _).mono ?_).append ((ofSegments_newSegmentOps cfg _).mono ?_)
    · exact cons_subset.mpr ⟨active, nil_subset _⟩
    · rw [PartitionLog.append_full full]
      exact cons_subset.mpr ⟨PartitionLog.active_mem_bases _, nil_subset _⟩
  · exact .nil _

end

theorem ofSegments_removeOps (bases : List Int) : OfSegments bases (removeOps bases) := by
  intro op member name touched
  obtain ⟨base, listed, inside⟩ := mem_flatMap.mp member
  refine ⟨base, listed, ?_⟩
  simp only [mem_cons, not_mem_nil, or_false] at inside
  rcases inside with rfl | rfl | rfl <;> (rw [mem_singleton.mp touched]; rfl)

end BunnyMQ.Storage
