/-
This file shows that a read returns the batches from the one that contains its offset on.
-/

import BunnyMQ.Proof.Storage.FullScan
import Mathlib.Data.List.Chain

namespace BunnyMQ.Storage
open Foundation FileStore StorageImpl List
variable {log : PartitionLog} {seg : Segment} {offset : Int} {failure : GoError}

/-- The segments follow each other without a hole. -/
def Contiguous (segs : List Segment) : Prop := segs.IsChain fun seg next => seg.stop = next.base

/-- A log that can be read at every offset has growing segments without holes between them. Every record
takes seven bytes, and every batch starts below two gigabytes. -/
structure PartitionLog.Readable (log : PartitionLog) : Prop where
  growing : ∀ seg ∈ log.segments, Growing seg.batches
  contiguous : Contiguous log.segments
  positions : ∀ seg ∈ log.segments, seg.batches.dropLast.flatten.length < 2 ^ 31
  dense : ∀ seg ∈ log.segments, 7 * (seg.stop - seg.base) ≤ seg.bytes.length

theorem PartitionLog.Readable.addressable (readable : log.Readable) (member : seg ∈ log.segments) (valid : seg.Valid) :
    seg.Addressable :=
  valid.addressable (readable.positions seg member) (readable.dense seg member)

/-- A read finds every offset of the log. -/
structure PartitionLog.Seekable (log : PartitionLog) : Prop where
  growing : ∀ seg ∈ log.segments, Growing seg.batches
  contiguous : Contiguous log.segments
  addressable : ∀ seg ∈ log.segments, seg.Addressable

theorem PartitionLog.Readable.seekable (readable : log.Readable) (valid : ∀ seg ∈ log.segments, seg.Valid) :
    log.Seekable :=
  ⟨readable.growing, readable.contiguous, fun seg member => readable.addressable member (valid seg member)⟩

/-- Every earlier segment ends at or before the base of a later one. -/
theorem Contiguous.stop_le {front back : List Segment} (contiguous : Contiguous (front ++ seg :: back))
    (increasing : ((front ++ seg :: back).map Segment.base).Pairwise (· < ·)) :
    ∀ earlier ∈ front, earlier.stop ≤ seg.base := by
  induction front with
  | nil => simp
  | cons first front ih =>
    have rest : Contiguous (front ++ seg :: back) := List.IsChain.of_cons contiguous
    rw [cons_append, map_cons, pairwise_cons] at increasing
    intro earlier member
    rcases mem_cons.mp member with rfl | later
    · cases front with
      | nil => exact (isChain_cons_cons.mp contiguous).1.le
      | cons second front =>
        have next : earlier.stop = second.base := (isChain_cons_cons.mp contiguous).1
        have ordered := increasing.2
        rw [cons_append, map_cons, pairwise_cons] at ordered
        exact next.le.trans (ordered.1 seg.base (by simp)).le
    · exact ih rest increasing.2 earlier later

section
variable {cfg : StorageConfig} {disk : StorageDisk} {s : StorageImpl} {log : PartitionLog}

theorem SealedHandle.readable {handle : SegmentStorage} (found : SealedHandle True cfg handle seg) :
    ReadableHandle cfg handle seg := by
  obtain ⟨entries, mapped⟩ := found.offsets trivial
  exact ⟨found.base, found.size, entries, mapped.ge⟩

theorem readable_activeHandle (indexable : cfg.Indexable)
    (slack : (seg.batches.dropLast.flatten.length : Int) < cfg.segmentMaxBytes) :
    ReadableHandle cfg (activeHandle cfg seg) seg := by
  refine ⟨rfl, rfl, rfl, ?_⟩
  have room := @StorageConfig.Indexable.sampled_lt cfg indexable seg.base _ slack
  have space := indexable.offsets
  simp only [activeHandle, offsetLayout] at room space ⊢
  push_cast at space ⊢
  omega

theorem Represents.readable (indexable : cfg.Indexable) (rep : Represents True cfg disk s log) :
    List.Forall₂ (ReadableHandle cfg) s.segments log.segments := by
  obtain ⟨closed, segments, handles⟩ := rep.handles
  rw [segments, PartitionLog.segments]
  exact rel_append (handles.imp fun _ _ found => found.readable)
    (List.Forall₂.cons (readable_activeHandle indexable rep.valid.slack) List.Forall₂.nil)

theorem Represents.log_file {indexed : Prop} (rep : Represents indexed cfg disk s log) (member : seg ∈ log.segments) :
    disk.read (.log seg.base) = some seg.bytes := by
  rcases mem_append.mp member with closed | active
  · exact rep.holds.closedLog seg closed
  · have bytes := rep.holds.activeLog
    rw [append_nil] at bytes
    rw [mem_singleton.mp active]
    exact bytes

/-- A read of a stored offset returns batches from the one that contains it on. -/
theorem read_seekable (indexable : cfg.Indexable) (rep : Represents True cfg disk s log) (readable : log.Seekable)
    (lower : s.earliestOffset ≤ offset) (upper : offset < s.latestOffset) (maxBytes : Int) :
    ∃ prior chosen rest, log.contents = prior ++ chosen ++ rest ∧ Chosen offset prior chosen ∧
      s.read disk offset maxBytes = .ok (chosen.flatten, lastEnd offset chosen) := by
  have handles := rep.readable indexable
  have lengths := handles.length_eq
  obtain ⟨first, later, segments⟩ : ∃ first later, s.segments = first :: later := by
    obtain ⟨closed, segments, _⟩ := rep.handles
    rw [segments]
    cases closed with
    | nil => exact ⟨_, _, rfl⟩
    | cons first closed => exact ⟨_, _, rfl⟩
  rw [StorageImpl.earliestOffset, segments] at lower
  rw [StorageImpl.latestOffset] at upper
  rw [segments] at handles lengths
  have found := @Search.lastLoop_spec (startsAtOrBefore (first :: later) offset) later.length 0 later.length
    (Nat.zero_le _) (le_refl _) (by simpa [startsAtOrBefore] using lower) (later.length + 1) (Nat.lt_succ_self _)
    (by omega)
  obtain ⟨place, searched⟩ : ∃ place, place = Search.lastLoop (startsAtOrBefore (first :: later) offset)
    later.length 0 later.length := ⟨_, rfl⟩
  rw [← searched] at found
  obtain ⟨inside, starts, stops⟩ := found
  have bound : place < (first :: later).length := inside
  have segBound : place < log.segments.length := by rw [← lengths]; exact bound
  have handle := handles.get bound segBound
  simp only [get_eq_getElem] at handle
  have member := getElem_mem segBound
  have split : log.segments = log.segments.take place ++ log.segments[place] :: log.segments.drop (place + 1) := by
    rw [← drop_eq_getElem_cons segBound, take_append_drop]
  have valid := rep.valid.segment _ member
  have base : log.segments[place].base ≤ offset := by
    rw [startsAtOrBefore, getElem?_eq_getElem bound, Option.any_some, decide_eq_true_eq, handle.base] at starts
    exact starts
  have contiguous := readable.contiguous
  have stop : offset < log.segments[place].stop := by
    by_cases last : place + 1 < log.segments.length
    · have next := isChain_iff_getElem.mp contiguous place last
      have behind := stops (by rw [← lengths] at last; exact last)
      have nextBound : place + 1 < (first :: later).length := by rw [lengths]; exact last
      have nextHandle := handles.get nextBound last
      simp only [get_eq_getElem] at nextHandle
      rw [startsAtOrBefore, getElem?_eq_getElem nextBound, Option.any_some, decide_eq_false_iff_not,
        nextHandle.base] at behind
      omega
    · have final : log.segments[place] = log.active := by
        have size : log.segments.length = log.closedSegs.length + 1 := by simp [PartitionLog.segments]
        have index : place = log.closedSegs.length := by omega
        subst index
        simp [PartitionLog.segments]
      rw [final]
      exact upper.trans_eq rep.next
  obtain ⟨before, chosen, after, parts, covers, read⟩ := segmentRead_run handle valid
    (readable.growing _ member) (readable.addressable _ member) base stop maxBytes
  refine ⟨(log.segments.take place).flatMap Segment.batches ++ before, chosen,
    after ++ (log.segments.drop (place + 1)).flatMap Segment.batches, ?_, ⟨?_, covers.starts⟩, ?_⟩
  · rw [PartitionLog.contents, split, flatMap_append, flatMap_cons, parts]
    simp
  · intro batch found
    rcases mem_append.mp found with earlier | same
    · obtain ⟨seg, old, within⟩ := mem_flatMap.mp earlier
      have ordered := rep.valid.increasing
      rw [PartitionLog.bases, split] at ordered
      rw [split] at contiguous
      have limit := contiguous.stop_le ordered seg old
      have oldMember : seg ∈ log.segments := mem_of_mem_take old
      have ends := ((readable.growing seg oldMember).between (rep.valid.segment seg oldMember).chained).2 batch within
      change _ ∧ endOffsetOf batch ≤ seg.stop at ends
      omega
    · exact covers.ended batch same
  · have notBefore : ¬ offset < first.baseOffset := by simpa using lower
    simp only [StorageImpl.read, segments, if_neg notBefore, if_neg (not_le.mpr upper), ← searched]
    rw [getElem?_eq_getElem bound]
    simp only [handle.base, rep.log_file member]
    exact read

theorem read_run (indexable : cfg.Indexable) (rep : Represents True cfg disk s log) (readable : log.Readable)
    (lower : s.earliestOffset ≤ offset) (upper : offset < s.latestOffset) (maxBytes : Int) :
    ∃ prior chosen rest, log.contents = prior ++ chosen ++ rest ∧ Chosen offset prior chosen ∧
      s.read disk offset maxBytes = .ok (chosen.flatten, lastEnd offset chosen) :=
  read_seekable indexable rep (readable.seekable rep.valid.segment) lower upper maxBytes

end

theorem PartitionLog.readable_empty : PartitionLog.empty.Readable := by
  refine ⟨?_, isChain_singleton _, ?_, ?_⟩
  · intro seg member batch none
    rw [mem_singleton.mp member] at none
    cases none
  · intro seg member
    rw [mem_singleton.mp member]
    decide
  · intro seg member
    rw [mem_singleton.mp member]
    decide

/-- A longer active segment follows the sealed segments as before. -/
theorem Contiguous.push {closedSegs : List Segment} {active : Segment}
    (contiguous : Contiguous (closedSegs ++ [active])) (batch : Bytes) :
    Contiguous (closedSegs ++ [active.push batch]) := by
  obtain ⟨front, _, joint⟩ := isChain_append.mp contiguous
  refine isChain_append.mpr ⟨front, isChain_singleton _, ?_⟩
  intro last found next same
  have start := joint last found active rfl
  cases same
  exact start

/-- A new segment at the end of the log follows it without a hole. -/
theorem Contiguous.roll {segs : List Segment} {last : Segment} (contiguous : Contiguous (segs ++ [last])) :
    Contiguous (segs ++ [last] ++ [⟨last.stop, []⟩]) := by
  refine isChain_append.mpr ⟨contiguous, isChain_singleton _, ?_⟩
  intro seg found next same
  rw [getLast?_concat, Option.mem_some_iff] at found
  cases same
  rw [found]

/-- A pushed batch that ends behind the log keeps its segments growing. -/
theorem PartitionLog.append_growing {limit : Int} {batch : Bytes}
    (growing : ∀ seg ∈ log.segments, Growing seg.batches) (formed : log.Formed)
    (grows : log.next < endOffsetOf (patchBaseOffset batch log.next)) :
    ∀ seg ∈ (log.append limit batch).segments, Growing seg.batches := by
  have starts : baseOffsetOf (patchBaseOffset batch log.next) = log.next :=
    (baseOffsetOf_patch batch log.next).trans formed.active.stop_range
  refine forall_append growing ?_ (fun _ => forall_mem_nil _)
  refine forall_mem_append.mpr ⟨growing _ (by simp [segments]), forall_mem_singleton.mpr ?_⟩
  rw [starts]
  exact grows

/-- An append keeps the log readable while its active segment stays below two gigabytes. -/
theorem PartitionLog.Readable.append {log : PartitionLog} {limit : Int} {batch : Bytes} (readable : log.Readable)
    (valid : log.Valid limit) (stored : StoredBatch batch)
    (grows : log.next < endOffsetOf (patchBaseOffset batch log.next))
    (dense : 7 * (endOffsetOf (patchBaseOffset batch log.next) - log.next) ≤ batch.length)
    (small : log.active.bytes.length < 2 ^ 31) : (log.append limit batch).Readable := by
  have long := stored.long
  have length := patch_length (by omega : 8 ≤ batch.length) log.next
  refine ⟨append_growing readable.growing valid.formed grows, ?_, forall_append readable.positions ?_ ?_,
    forall_append readable.dense ?_ ?_⟩
  · have contiguous := readable.contiguous.push (patchBaseOffset batch log.next)
    by_cases full : ((log.pushed batch).bytes.length : Int) ≥ limit
    · rw [append_full full]
      exact contiguous.roll
    · rw [append_room full]
      exact contiguous
  · rw [pushed, Segment.push, dropLast_concat]
    exact small
  · exact fun _ => Nat.two_pow_pos 31
  · have old := readable.dense log.active (by simp [segments])
    change 7 * (log.next - log.active.base) ≤ _ at old
    rw [Segment.push_stop, Segment.push_bytes, length_append, length]
    change 7 * (endOffsetOf (patchBaseOffset batch log.next) - log.active.base) ≤ _
    push_cast
    omega
  · intro base
    simp [Segment.stop, lastEnd]

theorem lastEnd_congr {batches : List Bytes} (present : batches ≠ []) (first second : Int) :
    lastEnd first batches = lastEnd second batches := by
  cases batches with
  | nil => exact absurd rfl present
  | cons batch batches => rfl

/-- The batches of contiguous segments form one chain. -/
theorem Contiguous.chained {first : Segment} {later : List Segment} (contiguous : Contiguous (first :: later))
    (valid : ∀ seg ∈ first :: later, seg.Valid) :
    Chained first.base ((first :: later).flatMap Segment.batches) ∧
      lastEnd first.base ((first :: later).flatMap Segment.batches) =
        ((first :: later).getLast (cons_ne_nil _ _)).stop := by
  induction later generalizing first with
  | nil => simpa using ⟨(valid first mem_cons_self).chained, rfl⟩
  | cons second later ih =>
    obtain ⟨next, rest⟩ := isChain_cons_cons.mp contiguous
    obtain ⟨chain, ends⟩ := ih rest fun seg member => valid seg (mem_cons_of_mem _ member)
    have stop : lastEnd first.base first.batches = second.base := next
    rw [flatMap_cons, chained_append, lastEnd_append, stop, getLast_cons_cons]
    exact ⟨⟨(valid first mem_cons_self).chained, chain⟩, ends⟩

section
variable {cfg : StorageConfig} {disk : StorageDisk} {s : StorageImpl} {log : PartitionLog} {indexed : Prop}

/-- The whole log is one chain from its earliest to its latest offset. -/
theorem Represents.chained (rep : Represents indexed cfg disk s log) (readable : log.Readable) :
    Chained s.earliestOffset log.contents ∧ lastEnd s.earliestOffset log.contents = s.latestOffset ∧
      Growing log.contents := by
  have growing : Growing log.contents := by
    intro batch member
    obtain ⟨seg, found, inside⟩ := mem_flatMap.mp member
    exact readable.growing seg found batch inside
  obtain ⟨first, later, split, base⟩ : ∃ first later, log.segments = first :: later ∧
      s.earliestOffset = first.base := by
    have bases := rep.bases
    unfold StorageImpl.earliestOffset
    obtain ⟨first, later, split⟩ := exists_cons_of_ne_nil
      (by simp [PartitionLog.segments] : log.segments ≠ [])
    rw [PartitionLog.bases, split, map_cons] at bases
    obtain ⟨handle, handles, segments, base, _⟩ := map_eq_cons_iff.mp bases
    rw [segments]
    exact ⟨first, later, split, base⟩
  have contiguous := readable.contiguous
  have valid := rep.valid.segment
  rw [split] at contiguous valid
  obtain ⟨chain, ends⟩ := contiguous.chained valid
  have last : (first :: later).getLast (cons_ne_nil _ _) = log.active := by
    simp only [← split, PartitionLog.segments, getLast_append_singleton]
  rw [PartitionLog.contents, split, base, ends, last]
  rw [PartitionLog.contents, split] at growing
  exact ⟨chain, rep.next.symm, growing⟩

/-- The batches that a read chooses end behind its offset and within the log. -/
theorem Chosen.progress {start : Int} {prior chosen rest : List Bytes} (chosenOk : Chosen offset prior chosen)
    (chained : Chained start (prior ++ chosen ++ rest)) (growing : Growing (prior ++ chosen ++ rest)) :
    lastEnd offset chosen = lastEnd start (prior ++ chosen) ∧ offset < lastEnd offset chosen ∧
      lastEnd offset chosen ≤ lastEnd start (prior ++ chosen ++ rest) := by
  obtain ⟨first, more, rfl, base, inside⟩ := chosenOk.starts
  have same : lastEnd offset (first :: more) = lastEnd start (prior ++ first :: more) := by
    rw [lastEnd_append]
    exact lastEnd_congr (cons_ne_nil _ _) _ _
  obtain ⟨before, after⟩ := chained_append.mp chained
  have bounds := (growing.append_left.between before).2 first (by simp)
  have later : Growing rest := fun batch member => growing batch (mem_append_right _ member)
  have ends := (later.between after).1
  rw [lastEnd_append _ (prior ++ first :: more)]
  exact ⟨same, by omega, by omega⟩

/-- Nothing lies behind the latest offset. -/
theorem read_behind (lower : s.earliestOffset ≤ offset) (upper : s.latestOffset ≤ offset) (maxBytes : Int) :
    s.read disk offset maxBytes = .ok ([], offset) := by
  unfold StorageImpl.read
  unfold StorageImpl.earliestOffset at lower
  cases found : s.segments with
  | nil => rfl
  | cons first later =>
    rw [found] at lower
    simp only [if_neg (not_lt.mpr lower)]
    exact if_pos upper

/-- The log starts at its earliest offset. -/
theorem read_below (present : s.segments ≠ []) (early : offset < s.earliestOffset) (maxBytes : Int) :
    s.read disk offset maxBytes = .error errOffsetOutOfRange := by
  obtain ⟨first, later, segments⟩ := exists_cons_of_ne_nil present
  rw [StorageImpl.earliestOffset, segments] at early
  rw [StorageImpl.read, segments]
  exact if_pos early

theorem lookupPosition_error {idx : IndexSegment OffsetEntry} {relativeOffset : Int32}
    (failed : lookupPosition idx relativeOffset = .error failure) : failure = errSliceBounds := by
  unfold lookupPosition at failed
  dsimp only at failed
  split at failed
  · cases failed
    rfl
  · split at failed
    · cases failed
    · split at failed
      · cases failed
        rfl
      · cases failed

theorem readLoop_error {maxBytes nextOffset : Int} {found : List (Bytes × Int)} {result : Bytes}
    (failed : readLoop offset maxBytes found result nextOffset = .error failure) : failure = errSliceBounds := by
  induction found generalizing result nextOffset with
  | nil => cases failed
  | cons first rest ih =>
    rw [readLoop] at failed
    split at failed
    · cases failed
      rfl
    · split at failed
      · exact ih failed
      · split at failed
        · cases failed
        · exact ih failed

/-- A segment fails only outside of its own bytes. -/
theorem SegmentStorage.read_error {seg : SegmentStorage} {file : Bytes} {maxBytes : Int}
    (failed : seg.read file offset maxBytes = .error failure) : failure = errSliceBounds := by
  unfold SegmentStorage.read at failed
  cases found : lookupPosition seg.offsetIdx (Int32.ofInt (offset - seg.baseOffset)) with
  | error other =>
    rw [found] at failed
    cases failed
    exact lookupPosition_error found
  | ok position =>
    rw [found] at failed
    exact readLoop_error failed

/-- A read is rejected as out of range exactly below the first segment. -/
theorem read_outOfRange_iff {offset maxBytes : Int} :
    s.read disk offset maxBytes = .error errOffsetOutOfRange ↔ s.segments ≠ [] ∧ offset < s.earliestOffset := by
  constructor
  · intro rejected
    unfold StorageImpl.read at rejected
    unfold StorageImpl.earliestOffset
    cases segments : s.segments with
    | nil =>
      rw [segments] at rejected
      cases rejected
    | cons first later =>
      rw [segments] at rejected
      refine ⟨cons_ne_nil _ _, ?_⟩
      by_contra! above
      simp only [if_neg (not_lt.mpr above)] at rejected
      split at rejected
      · cases rejected
      · split at rejected
        · cases rejected
        · split at rejected
          · exact absurd (Except.error.inj rejected) (by decide)
          · cases SegmentStorage.read_error rejected
  · rintro ⟨present, early⟩
    exact read_below present early maxBytes

end

end BunnyMQ.Storage
