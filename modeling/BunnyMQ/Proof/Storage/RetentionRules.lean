/-
This file shows exactly which segments retention removes by size and by time.
-/

import BunnyMQ.Proof.Storage.Undo

namespace BunnyMQ.Storage
open Foundation FileStore Selection Transition StorageImpl SegmentStorage List
variable {retentionBytes retentionMs : Int} {place : Nat}

/-- The log of a segment with the given base offsets and records of its batches. -/
def segmentBytes (batches : List (Int64 × List Record)) : Bytes :=
  batches.flatMap fun batch => batchBytes batch.1 batch.2

/-- The timestamps of the records of a segment in offset order. -/
def segmentTimes (batches : List (Int64 × List Record)) : List Int64 :=
  batches.flatMap fun batch => batch.2.map Record.timestampMs

/-- A segment whose log file holds the batches. -/
structure StoresSegment (disk : StorageDisk) (seg : SegmentStorage) (batches : List (Int64 × List Record)) : Prop where
  file : disk.read (.log seg.baseOffset) = some (segmentBytes batches)
  size : seg.log.logSize = (segmentBytes batches).length
  filled : ∀ batch ∈ batches, batch.2 ≠ []

/-- A storage whose segments hold the batches. Only the active segment can be empty. -/
structure Stores (disk : StorageDisk) (s : StorageImpl) (contents : List (List (Int64 × List Record))) : Prop where
  segments : List.Forall₂ (StoresSegment disk) s.segments contents
  sealedFilled : ∀ batches ∈ contents.dropLast, batches ≠ []
  distinct : (s.segments.map baseOffset).Nodup

instance (disk : StorageDisk) (seg : SegmentStorage) (batches : List (Int64 × List Record)) :
    Decidable (StoresSegment disk seg batches) :=
  decidable_of_iff (disk.read (.log seg.baseOffset) = some (segmentBytes batches) ∧
      seg.log.logSize = (segmentBytes batches).length ∧ ∀ batch ∈ batches, batch.2 ≠ [])
    ⟨fun parts => ⟨parts.1, parts.2.1, parts.2.2⟩, fun stores => ⟨stores.file, stores.size, stores.filled⟩⟩

instance (disk : StorageDisk) (s : StorageImpl) (contents : List (List (Int64 × List Record))) :
    Decidable (Stores disk s contents) :=
  decidable_of_iff ((s.segments.length = contents.length ∧
        ∀ pair ∈ s.segments.zip contents, StoresSegment disk pair.1 pair.2) ∧
      (∀ batches ∈ contents.dropLast, batches ≠ []) ∧ (s.segments.map baseOffset).Nodup)
    ⟨fun parts => ⟨forall₂_iff_zip.mpr ⟨parts.1.1, fun member => parts.1.2 _ member⟩, parts.2.1, parts.2.2⟩,
      fun stores => ⟨⟨stores.segments.length_eq, fun _ member => (forall₂_iff_zip.mp stores.segments).2 member⟩,
        stores.sealedFilled, stores.distinct⟩⟩

/-- The size of the segments from the place on is above the cap. -/
def OverCap (retentionBytes : Int) (segs : List SegmentStorage) (place : Nat) : Prop :=
  0 ≤ retentionBytes ∧ retentionBytes < totalLogSize (segs.drop place)

/-- The first record of the next segment is older than the limit. -/
def Expired (retentionMs : Int) (limit : Int) (contents : List (List (Int64 × List Record))) (place : Nat) : Prop :=
  0 < retentionMs ∧ ∃ batches ts, contents[place + 1]? = some batches ∧ (segmentTimes batches).head? = some ts ∧
    ts.toInt < limit

/-- The count is the smallest number of sealed segments whose removal brings the log under the cap. All sealed
segments go when even that does not suffice. -/
structure ShortestPrefix (retentionBytes : Int) (segs : List SegmentStorage) (count : Nat) : Prop where
  within : count ≤ segs.length - 1
  enough : totalLogSize (segs.drop count) ≤ retentionBytes ∨ count = segs.length - 1
  least : ∀ fewer < count, retentionBytes < totalLogSize (segs.drop fewer)

/-! ## The marks of one call -/

theorem totalLogSize_cons (seg : SegmentStorage) (segs : List SegmentStorage) :
    totalLogSize (seg :: segs) = seg.log.logSize + totalLogSize segs := by
  rw [totalLogSize, map_cons, sum_cons, totalLogSize]

theorem totalLogSize_nonneg {segs : List SegmentStorage} (sizes : ∀ seg ∈ segs, 0 ≤ seg.log.logSize) :
    0 ≤ totalLogSize segs :=
  sum_nonneg fun size member => by
    obtain ⟨seg, listed, rfl⟩ := mem_map.mp member
    exact sizes seg listed

theorem totalLogSize_split (segs : List SegmentStorage) (place : Nat) :
    totalLogSize (segs.take place) + totalLogSize (segs.drop place) = totalLogSize segs := by
  simp only [totalLogSize]
  rw [← sum_append, ← map_append, take_append_drop]

/-- The size rule marks a place exactly while the segments from it on are above the cap. -/
theorem markBytes_isSome {segs : List SegmentStorage} (sizes : ∀ seg ∈ segs, 0 ≤ seg.log.logSize) (total : Int)
    {reason : Option RetentionReason} (found : (markBytes retentionBytes segs total)[place]? = some reason) :
    reason.isSome ↔ retentionBytes < total - totalLogSize (segs.take place) := by
  induction segs generalizing total place with
  | nil => cases found
  | cons seg segs ih =>
    have size := sizes seg mem_cons_self
    have rest : ∀ other ∈ segs, 0 ≤ other.log.logSize := fun other member =>
      sizes other (mem_cons_of_mem _ member)
    rw [markBytes] at found
    by_cases above : total > retentionBytes
    · rw [if_pos above] at found
      cases place with
      | zero =>
        cases found
        simpa [totalLogSize] using above
      | succ place =>
        rw [ih rest _ found, take_succ_cons, totalLogSize_cons]
        omega
    · rw [if_neg above] at found
      cases place with
      | zero =>
        cases found
        simpa [totalLogSize] using above
      | succ place =>
        have front : 0 ≤ totalLogSize (segs.take place) :=
          totalLogSize_nonneg fun other member => rest other (mem_of_mem_take member)
        rw [ih rest _ found, take_succ_cons, totalLogSize_cons]
        omega

section
variable {disk : StorageDisk} {seg : SegmentStorage} {batches : List (Int64 × List Record)}

/-- The first timestamp that retention reads is the one of the first record. -/
theorem StoresSegment.firstBatchTimestamp (stores : StoresSegment disk seg batches) :
    firstBatchTimestamp disk seg = (segmentTimes batches).head?.map Int64.toInt := by
  cases batches with
  | nil =>
    rw [Storage.firstBatchTimestamp, stores.file]
    rfl
  | cons batch batches =>
    obtain ⟨record, records, shape⟩ := exists_cons_of_ne_nil (stores.filled batch mem_cons_self)
    have long := batchBytes_records batch.1 batch.2
    have enough : 38 ≤ (segmentBytes (batch :: batches)).length := by
      rw [segmentBytes, flatMap_cons, length_append]
      omega
    have header : readAt (segmentBytes (batch :: batches)) 0 38 = .ok ((segmentBytes (batch :: batches)).take 38) := by
      rw [readAt, if_neg (by omega)]
      simp only [slice, Int.toNat_zero, Nat.zero_add, drop_zero]
      rw [if_pos (by simp only [length_take, Nat.sub_zero]; omega), Nat.sub_zero]
    obtain ⟨_, _, _, _, _, stamp, _⟩ := encodeHeader_fields (headerOf batch.1 batch.2)
      (recordsBytes (headerOf batch.1 batch.2).baseTimestamp 0 batch.2 ++ segmentBytes batches)
    rw [Storage.firstBatchTimestamp, stores.file]
    simp only [header]
    rw [uint64At_take _ (by omega), segmentBytes, flatMap_cons, ← segmentBytes, batchBytes, append_assoc,
      uint64At_of_bytesAt stamp, segmentTimes, flatMap_cons, shape]
    simp [headerOf]

end

section
variable {disk : StorageDisk} {s : StorageImpl} {contents : List (List (Int64 × List Record))}

section
variable (stores : Stores disk s contents)
include stores

theorem Stores.sizes : ∀ seg ∈ s.segments, 0 ≤ seg.log.logSize := by
  intro seg member
  obtain ⟨place, inside, rfl⟩ := getElem_of_mem member
  have held := stores.segments.get inside (by rw [← stores.segments.length_eq]; exact inside)
  rw [get_eq_getElem] at held
  rw [held.size]
  exact Int.natCast_nonneg _

/-- A sealed segment is marked exactly if one of the rules holds for it. -/
theorem Stores.marked_iff {nowMs : Int} {reason : Option RetentionReason}
    (found : (retentionReasons s.segments disk retentionMs retentionBytes nowMs)[place]? = some reason) :
    reason.isSome ↔ OverCap retentionBytes s.segments place ∨
      Expired retentionMs (int64 (nowMs - retentionMs)) contents place := by
  have sizes : ∀ seg ∈ s.segments.dropLast, 0 ≤ seg.log.logSize := fun seg member =>
    stores.sizes seg (dropLast_subset _ member)
  have split := totalLogSize_split s.segments place
  have bytes {mark : Option RetentionReason}
      (marked : (if retentionBytes ≥ 0 then markBytes retentionBytes s.segments.dropLast (totalLogSize s.segments)
        else s.segments.dropLast.map fun _ => none)[place]? = some mark) :
      mark.isSome ↔ OverCap retentionBytes s.segments place := by
    by_cases limited : retentionBytes ≥ 0
    · rw [if_pos limited] at marked
      have inside := (List.getElem?_eq_some_iff.mp marked).1
      rw [markBytes_length, length_dropLast] at inside
      have front : s.segments.dropLast.take place = s.segments.take place := by
        rw [dropLast_eq_take, take_take, Nat.min_eq_left (by omega)]
      rw [markBytes_isSome sizes _ marked, front, OverCap]
      omega
    · rw [if_neg limited, List.getElem?_map] at marked
      obtain ⟨_, _, rfl⟩ := Option.map_eq_some_iff.mp marked
      exact ⟨fun impossible => absurd impossible (by simp), fun above => absurd above.1 (by omega)⟩
  unfold retentionReasons at found
  simp only at found
  by_cases timed : retentionMs > 0
  · rw [if_pos timed, List.getElem?_zipWith_eq_some] at found
    obtain ⟨mark, next, marked, following, rfl⟩ := found
    rw [List.getElem?_tail] at following
    obtain ⟨inside, rfl⟩ := List.getElem?_eq_some_iff.mp following
    have within : place + 1 < contents.length := by rw [← stores.segments.length_eq]; exact inside
    have held := stores.segments.get inside within
    rw [get_eq_getElem, get_eq_getElem] at held
    have time : Expired retentionMs (int64 (nowMs - retentionMs)) contents place ↔
        ∃ ts, (segmentTimes contents[place + 1]).head? = some ts ∧ ts.toInt < int64 (nowMs - retentionMs) := by
      constructor
      · rintro ⟨_, batches, ts, listed, first, old⟩
        rw [List.getElem?_eq_getElem within] at listed
        cases listed
        exact ⟨ts, first, old⟩
      · rintro ⟨ts, first, old⟩
        exact ⟨timed, _, ts, List.getElem?_eq_getElem within, first, old⟩
    rw [← bytes marked, time, markTime, held.firstBatchTimestamp]
    cases mark with
    | some value => simp
    | none =>
      cases (segmentTimes contents[place + 1]).head? with
      | none => simp
      | some ts =>
        by_cases old : ts.toInt < int64 (nowMs - retentionMs)
        · simp [old]
        · simp [old]
  · rw [if_neg timed] at found
    rw [bytes found]
    exact ⟨.inl, fun either => either.resolve_right fun expired => timed expired.1⟩

/-- A call removes as many segments as the rules mark when they mark a front. -/
theorem Stores.enforceRetention_run {nowMs : Int} {count : Nat} (within : count ≤ s.segments.length - 1)
    (counted : ∀ place < s.segments.length - 1, (OverCap retentionBytes s.segments place ∨
      Expired retentionMs (int64 (nowMs - retentionMs)) contents place) ↔ place < count) :
    (s.enforceRetention retentionMs retentionBytes nowMs).run disk =
      (.ok (count, { s with segments := s.segments.drop count }),
        removeOps ((s.segments.take count).map baseOffset)) := by
  have judged := retentionReasons_length s.segments disk retentionMs retentionBytes nowMs
  obtain ⟨taken, left⟩ := @picked_of_marks _ _ _ _ judged count fun place reason found => by
    have inside := (List.getElem?_eq_some_iff.mp found).1
    rw [judged, length_dropLast] at inside
    exact (stores.marked_iff found).trans (counted place inside)
  have front : s.segments.dropLast.take count = s.segments.take count := by
    rw [dropLast_eq_take, take_take, Nat.min_eq_left within]
  have rest : s.segments.dropLast.drop count ++ s.segments.drop (s.segments.length - 1) = s.segments.drop count := by
    have whole := take_append_drop (s.segments.length - 1 - count) (s.segments.drop count)
    rw [drop_drop, Nat.add_sub_cancel' within, take_drop, Nat.add_sub_cancel' within] at whole
    rw [dropLast_eq_take, whole]
  rw [enforceRetention_eq, taken, left, front, rest, length_take, Nat.min_eq_left (by omega)]

/-- The files of the kept segments stay when those of the oldest are removed. -/
theorem Stores.drop {count : Nat} (within : count ≤ s.segments.length - 1) :
    Stores (disk.applyAll (removeOps ((s.segments.take count).map baseOffset)))
      { s with segments := s.segments.drop count } (contents.drop count) where
  segments := by
    have apart : ∀ seg ∈ s.segments.drop count,
        seg.baseOffset ∉ (s.segments.take count).map baseOffset := by
      intro seg kept removed
      have distinct := stores.distinct
      rw [← take_append_drop count s.segments, map_append] at distinct
      exact (nodup_append.mp distinct).2.2 _ removed _ (mem_map_of_mem kept) rfl
    have held := forall₂_drop count stores.segments
    refine forall₂_iff_get.mpr ⟨held.length_eq, fun place inside within => ?_⟩
    have old := held.get inside within
    have logs := (lookup_removeOps ((s.segments.take count).map baseOffset) disk
      ((s.segments.drop count).get ⟨place, inside⟩).baseOffset).1
    rw [if_neg (apart _ (get_mem _ _))] at logs
    exact ⟨(read_congr logs).trans old.file, old.size, old.filled⟩
  sealedFilled batches member := by
    apply stores.sealedFilled batches
    rw [dropLast_eq_take, length_drop, take_drop] at member
    have later := mem_of_mem_drop member
    have same := stores.segments.length_eq
    rw [dropLast_eq_take]
    exact take_subset_take_left _ (by omega) later
  distinct := stores.distinct.sublist ((drop_sublist count _).map _)

/-! ## Logs in time order -/

/-- Each sealed segment has a first record. -/
theorem Stores.first {batches : List (Int64 × List Record)} (found : contents[place]? = some batches)
    (closed : place + 1 < contents.length) : ∃ ts, (segmentTimes batches).head? = some ts := by
  obtain ⟨inside, rfl⟩ := List.getElem?_eq_some_iff.mp found
  have present : contents[place] ≠ [] := by
    apply stores.sealedFilled
    rw [dropLast_eq_take]
    exact mem_take_iff_getElem.mpr ⟨place, by omega, rfl⟩
  have held := stores.segments.get (by rw [stores.segments.length_eq]; exact inside) inside
  rw [get_eq_getElem, get_eq_getElem] at held
  obtain ⟨batch, rest, shape⟩ := exists_cons_of_ne_nil present
  rw [shape] at held ⊢
  obtain ⟨record, records, filled⟩ := exists_cons_of_ne_nil (held.filled batch mem_cons_self)
  exact ⟨record.timestampMs, by rw [segmentTimes, flatMap_cons, filled]; rfl⟩

/-- A smaller rest of the log is above the cap only if a larger one is. -/
theorem Stores.overCap_earlier (inside : place + 1 < s.segments.length - 1)
    (above : OverCap retentionBytes s.segments (place + 1)) : OverCap retentionBytes s.segments place := by
  have size := stores.sizes s.segments[place] (getElem_mem (by omega))
  refine ⟨above.1, ?_⟩
  rw [drop_eq_getElem_cons (by omega), totalLogSize_cons]
  have rest := above.2
  omega

end

section
variable (ordered : (contents.flatMap segmentTimes).Pairwise (· ≤ ·))
include ordered

theorem times_le {first second : Nat} (before : first < second) {earlier later : List (Int64 × List Record)}
    (found : contents[first]? = some earlier) (also : contents[second]? = some later) {old young : Int64}
    (member : old ∈ segmentTimes earlier) (other : young ∈ segmentTimes later) : old ≤ young := by
  obtain ⟨inside, rfl⟩ := List.getElem?_eq_some_iff.mp found
  obtain ⟨within, rfl⟩ := List.getElem?_eq_some_iff.mp also
  have pairs := (pairwise_flatMap.mp ordered).2
  exact pairwise_iff_getElem.mp pairs first second inside within before old member young other

/-- In time order a segment before an expired one is expired as well. -/
theorem Stores.expired_earlier (stores : Stores disk s contents) {limit : Int}
    (expired : Expired retentionMs limit contents (place + 1)) : Expired retentionMs limit contents place := by
  obtain ⟨timed, batches, ts, found, first, old⟩ := expired
  obtain ⟨inside, _⟩ := List.getElem?_eq_some_iff.mp found
  have next : contents[place + 1]? = some contents[place + 1] := List.getElem?_eq_getElem (by omega)
  obtain ⟨earliest, starts⟩ := stores.first next inside
  have order := times_le ordered (Nat.lt_succ_self _) next found (mem_of_mem_head? starts)
    (mem_of_mem_head? first)
  exact ⟨timed, _, earliest, next, starts, by rw [Int64.le_iff_toInt_le] at order; omega⟩

/-- In time order an expired segment holds no young record. -/
theorem expired_old {limit : Int} (expired : Expired retentionMs limit contents place)
    {batches : List (Int64 × List Record)} (found : contents[place]? = some batches) {ts : Int64}
    (member : ts ∈ segmentTimes batches) : ts.toInt < limit := by
  obtain ⟨_, later, first, next, starts, old⟩ := expired
  have order := times_le ordered (Nat.lt_succ_self _) found next member (mem_of_mem_head? starts)
  rw [Int64.le_iff_toInt_le] at order
  omega

end

end

/-- Retention of a log in time order removes a front of the sealed segments. Its length is the larger one of the
shortest front that brings the log under the cap and of the front of the expired segments. The same call
removes nothing the second time. -/
theorem retention_exact {disk : StorageDisk} {s : StorageImpl} {contents : List (List (Int64 × List Record))}
    (stores : Stores disk s contents) (ordered : (contents.flatMap segmentTimes).Pairwise (· ≤ ·))
    (retentionMs retentionBytes nowMs : Int64) :
    ∃ bytes time ops left,
      (s.enforceRetention retentionMs.toInt retentionBytes.toInt nowMs.toInt).run disk =
        (.ok (max bytes time, left), ops) ∧
      left = { s with segments := s.segments.drop (max bytes time) } ∧ max bytes time ≤ s.segments.length - 1 ∧
      ops = removeOps ((s.segments.take (max bytes time)).map baseOffset) ∧
      (0 ≤ retentionBytes → ShortestPrefix retentionBytes.toInt s.segments bytes) ∧ (retentionBytes < 0 → bytes = 0) ∧
      (∀ place < s.segments.length - 1,
        place < time ↔ Expired retentionMs.toInt (nowMs - retentionMs).toInt contents place) ∧
      (∀ batches ∈ contents.take time, ∀ ts ∈ segmentTimes batches, ts < nowMs - retentionMs ∧
        (0 ≤ nowMs → ts.toInt < nowMs.toInt - retentionMs.toInt)) ∧
      (left.enforceRetention retentionMs.toInt retentionBytes.toInt nowMs.toInt).run (disk.applyAll ops) =
        (.ok (0, left), []) := by
  have same := stores.segments.length_eq
  obtain ⟨bytes, bytesWithin, bytesCounted⟩ := @exists_count (OverCap retentionBytes.toInt s.segments)
    (s.segments.length - 1) fun place inside => stores.overCap_earlier inside
  obtain ⟨time, timeWithin, timeCounted⟩ :=
    @exists_count (Expired retentionMs.toInt (nowMs - retentionMs).toInt contents) (s.segments.length - 1)
      fun place _ => stores.expired_earlier ordered
  have within : max bytes time ≤ s.segments.length - 1 := Nat.max_le.mpr ⟨bytesWithin, timeWithin⟩
  have run : (s.enforceRetention retentionMs.toInt retentionBytes.toInt nowMs.toInt).run disk = _ :=
    stores.enforceRetention_run within fun place inside => by
      rw [int64_sub, ← bytesCounted place inside, ← timeCounted place inside]
      omega
  refine ⟨bytes, time, _, _, run, rfl, within, rfl, ?_, ?_, timeCounted, ?_, ?_⟩
  · intro limited
    rw [Int64.le_iff_toInt_le] at limited
    refine ⟨bytesWithin, ?_, fun fewer less => ((bytesCounted fewer (by omega)).mp less).2⟩
    rcases Nat.eq_or_lt_of_le bytesWithin with all | some
    · exact .inr all
    · have enough := (bytesCounted bytes some).not.mp (Nat.lt_irrefl _)
      exact .inl (not_lt.mp fun above => enough ⟨limited, above⟩)
  · intro unlimited
    rw [Int64.lt_iff_toInt_lt] at unlimited
    rcases Nat.eq_zero_or_pos bytes with none | positive
    · exact none
    · have limited := ((bytesCounted 0 (by omega)).mp positive).1
      exact absurd unlimited (not_lt.mpr limited)
  · intro batches member ts stamped
    obtain ⟨place, inside, rfl⟩ := mem_take_iff_getElem.mp member
    have expired := (timeCounted place (by omega)).mp (by omega)
    have old := expired_old ordered expired (List.getElem?_eq_getElem (by omega)) stamped
    refine ⟨Int64.lt_iff_toInt_lt.mpr old, fun clock => ?_⟩
    have timed := expired.1
    have ranges := nowMs.toInt_lt
    have lower := retentionMs.toInt_lt
    rw [Int64.le_iff_toInt_le, Int64.toInt_zero] at clock
    rw [← int64_sub, int64_of_range (by omega) (by omega)] at old
    exact old
  · have settled : ∀ place < (s.segments.drop (max bytes time)).length - 1,
        (OverCap retentionBytes.toInt (s.segments.drop (max bytes time)) place ∨
          Expired retentionMs.toInt (int64 (nowMs.toInt - retentionMs.toInt)) (contents.drop (max bytes time)) place) ↔
            place < 0 := by
      intro place inside
      rw [length_drop] at inside
      have fewer := (bytesCounted (max bytes time + place) (by omega)).not.mp (by omega)
      have younger := (timeCounted (max bytes time + place) (by omega)).not.mp (by omega)
      refine ⟨fun either => absurd either ?_, fun impossible => absurd impossible (Nat.not_lt_zero _)⟩
      rw [int64_sub, OverCap, drop_drop, Expired, List.getElem?_drop, ← Nat.add_assoc]
      rintro (above | expired)
      · exact fewer above
      · exact younger expired
    have again := (stores.drop within).enforceRetention_run (Nat.zero_le _) settled
    rw [again]
    rfl

/-- The timestamps are 0, 10 and 1000, one segment each. -/
def agingState : Serving :=
  (follow (Serving.step smallConfig) freshServing
    [.append (stampedBatch 0), .append (stampedBatch 10), .append (stampedBatch 1000)]).get (by decide +kernel)

def agingContents : List (List (Int64 × List Record)) :=
  [[(0, [⟨0, none, replicate 5 0, []⟩])], [(1, [⟨10, none, replicate 5 0, []⟩])],
    [(2, [⟨1000, none, replicate 5 0, []⟩])], []]

theorem agingState_stores : Stores agingState.disk agingState.storage agingContents := by
  decide +kernel

/-- The first segment is expired, and the second one has a young successor. -/
theorem retention_exact_of_aging :
    ∃ bytes time ops left, (agingState.storage.enforceRetention 500 (-1) 1000).run agingState.disk =
        (.ok (max bytes time, left), ops) ∧ bytes = 0 ∧ time = 1 ∧
      left.segments.map baseOffset = [1, 2, 3] ∧
      (left.enforceRetention 500 (-1) 1000).run (agingState.disk.applyAll ops) = (.ok (0, left), []) := by
  obtain ⟨bytes, time, ops, left, ran, kept, within, _, _, unlimited, timed, _, again⟩ :=
    retention_exact agingState_stores (by decide +kernel) 500 (-1) 1000
  have length : agingState.storage.segments.length = 4 := by decide +kernel
  have none : bytes = 0 := unlimited (by decide)
  have expired : Expired 500 500 agingContents 0 := ⟨by decide, _, 10, rfl, rfl, by decide⟩
  have young : ¬ Expired 500 500 agingContents 1 := by
    rintro ⟨_, batches, ts, found, first, old⟩
    cases found
    cases first
    exact absurd old (by decide)
  have one : time = 1 := by
    have lower := (timed 0 (by omega)).mpr expired
    have upper := (timed 1 (by omega)).not.mpr young
    omega
  refine ⟨bytes, time, ops, left, ran, none, one, ?_, again⟩
  rw [kept, none, one]
  decide +kernel

/-! ## Storages built by appends -/

/-- The batches of the log were encoded from the records, and every sealed segment has one. -/
structure PartitionLog.Encodes (log : PartitionLog) (closed : List (List (Int64 × List Record)))
    (last : List (Int64 × List Record)) : Prop where
  closedSegs : List.Forall₂ (fun seg batches => seg.batches = batches.map fun batch => batchBytes batch.1 batch.2)
    log.closedSegs closed
  active : log.active.batches = last.map fun batch => batchBytes batch.1 batch.2
  sealedFilled : ∀ batches ∈ closed, batches ≠ []
  filled : ∀ batches ∈ closed ++ [last], ∀ batch ∈ batches, batch.2 ≠ []

section
variable {log : PartitionLog} {closed : List (List (Int64 × List Record))} {last : List (Int64 × List Record)}

/-- An append adds its records to the last segment, which may be sealed by it. -/
theorem PartitionLog.Encodes.append (encodes : log.Encodes closed last) (limit : Int) {records : List Record}
    (present : records ≠ []) :
    ∃ more rest, (log.append limit (batchBytes 0 records)).Encodes more rest ∧
      (more ++ [rest]).flatten.map Prod.snd = (closed ++ [last]).flatten.map Prod.snd ++ [records] := by
  have pushed : (log.pushed (batchBytes 0 records)).batches =
      (last ++ [(Int64.ofInt log.next, records)]).map fun batch => batchBytes batch.1 batch.2 := by
    rw [PartitionLog.pushed, patch_batchBytes, Segment.push, encodes.active, map_append]
    rfl
  have filled : ∀ batches ∈ closed ++ [last ++ [(Int64.ofInt log.next, records)]], ∀ batch ∈ batches,
      batch.2 ≠ [] := by
    intro batches listed batch member
    rcases mem_append.mp listed with old | new
    · exact encodes.filled batches (mem_append_left _ old) batch member
    · rw [mem_singleton.mp new] at member
      rcases mem_append.mp member with older | added
      · exact encodes.filled last (by simp) batch older
      · rw [mem_singleton.mp added]
        exact present
  by_cases full : ((log.pushed (batchBytes 0 records)).bytes.length : Int) ≥ limit
  · refine ⟨closed ++ [last ++ [(Int64.ofInt log.next, records)]], [], ?_, by simp⟩
    rw [PartitionLog.append_full full]
    refine ⟨rel_append encodes.closedSegs (.cons pushed .nil), rfl, ?_, ?_⟩
    · simpa [or_imp, forall_and] using encodes.sealedFilled
    · simpa [or_imp, forall_and] using filled
  · refine ⟨closed, last ++ [(Int64.ofInt log.next, records)], ?_, by simp⟩
    rw [PartitionLog.append_room full]
    exact ⟨encodes.closedSegs, pushed, encodes.sealedFilled, filled⟩

theorem PartitionLog.Encodes.appendAll (encodes : log.Encodes closed last) (limit : Int) {batches : List (List Record)}
    (filled : ∀ records ∈ batches, records ≠ []) :
    ∃ more rest, (log.appendAll limit (batches.map (batchBytes 0))).Encodes more rest ∧
      (more ++ [rest]).flatten.map Prod.snd = (closed ++ [last]).flatten.map Prod.snd ++ batches := by
  induction batches generalizing log closed last with
  | nil => exact ⟨closed, last, encodes, (append_nil _).symm⟩
  | cons records batches ih =>
    obtain ⟨more, rest, after, added⟩ := encodes.append limit (filled records mem_cons_self)
    obtain ⟨all, ending, final, total⟩ := ih after fun other member => filled other (mem_cons_of_mem _ member)
    exact ⟨all, ending, final, by rw [total, added, append_assoc]; rfl⟩

/-- A storage that represents such a log stores its records. -/
theorem Represents.stores {indexed : Prop} {cfg : StorageConfig} {disk : StorageDisk} {s : StorageImpl}
    (rep : Represents indexed cfg disk s log) (encodes : log.Encodes closed last) :
    Stores disk s (closed ++ [last]) where
  segments := by
    obtain ⟨handles, segments, sealedHandles⟩ := rep.handles
    have bytes {seg : Segment} {batches : List (Int64 × List Record)}
        (same : seg.batches = batches.map fun batch => batchBytes batch.1 batch.2) :
        seg.bytes = segmentBytes batches := by
      rw [Segment.bytes, same, segmentBytes, flatMap_def]
    rw [segments]
    refine rel_append ?_ (.cons ⟨?_, ?_, encodes.filled last (by simp)⟩ .nil)
    · refine forall₂_iff_get.mpr ⟨sealedHandles.length_eq.trans encodes.closedSegs.length_eq,
        fun place inside within => ?_⟩
      have middle : place < log.closedSegs.length := by
        rw [← sealedHandles.length_eq]
        exact inside
      have handle := sealedHandles.get inside middle
      have same := encodes.closedSegs.get middle within
      refine ⟨?_, ?_, encodes.filled _ (mem_append_left _ (get_mem _ _))⟩
      · rw [handle.base, ← bytes same]
        exact rep.holds.closedLog _ (get_mem _ _)
      · rw [handle.size, bytes same]
    · rw [← bytes encodes.active, activeHandle_baseOffset, rep.holds.activeLog, append_nil]
    · rw [← bytes encodes.active]
      rfl
  sealedFilled batches member := by
    rw [dropLast_concat] at member
    exact encodes.sealedFilled batches member
  distinct := by
    rw [rep.bases]
    exact rep.valid.increasing.imp fun lower => lower.ne

end

/-- Appends of encoded batches to a new partition leave a storage that holds their records in order. -/
theorem stores_of_appends {cfg : StorageConfig} (indexable : cfg.Indexable) {fresh state : Serving}
    (opened : openServing cfg ∅ = some fresh) {batches : List (List Record)}
    (filled : ∀ records ∈ batches, records ≠ []) (small : ∀ records ∈ batches, (batchBytes 0 records).length < 2 ^ 32)
    (room : recordCounts (batches.map (batchBytes 0)) < 2 ^ 63)
    (followed : follow (Serving.step cfg) fresh ((batches.map (batchBytes 0)).map .append) = some state) :
    ∃ contents, Stores state.disk state.storage contents ∧ contents.flatten.map Prod.snd = batches := by
  have encoded : ∀ payload ∈ batches.map (batchBytes 0), EncodedBatch payload := by
    intro payload member
    obtain ⟨records, listed, rfl⟩ := mem_map.mp member
    exact ⟨⟨records, encodeBatch_eq (filled records listed)⟩, small records listed⟩
  have start : PartitionLog.empty.Encodes [] [] := ⟨.nil, rfl, by simp, by simp⟩
  obtain ⟨closed, last, encodes, total⟩ := start.appendAll cfg.segmentMaxBytes filled
  obtain ⟨final, reached, pristine⟩ := (Pristine.start indexable opened).follow encoded indexable
    (by rw [show PartitionLog.empty.next = 0 from rfl, zero_add]; exact room)
  rw [followed] at reached
  cases reached
  exact ⟨closed ++ [last], pristine.rep.stores encodes, total⟩

/-! ## Logs in any time order -/

/-- A segment stays unless it is sealed and one of the rules holds for it. -/
theorem Stores.kept_iff {disk : StorageDisk} {s : StorageImpl} {contents : List (List (Int64 × List Record))}
    (stores : Stores disk s contents) {nowMs : Int} {seg : SegmentStorage} (found : s.segments[place]? = some seg) :
    seg ∈ picked Option.isNone (retentionReasons s.segments disk retentionMs retentionBytes nowMs)
      s.segments.dropLast ++ s.segments.drop (s.segments.length - 1) ↔
      ¬ (place < s.segments.length - 1 ∧ (OverCap retentionBytes s.segments place ∨
        Expired retentionMs (int64 (nowMs - retentionMs)) contents place)) := by
  have unique : ∀ {other : Nat}, s.segments[other]? = some seg → other = place := by
    intro other also
    obtain ⟨inside, _⟩ := List.getElem?_eq_some_iff.mp also
    exact (List.getElem?_inj inside (List.Nodup.of_map _ stores.distinct)).mp (also.trans found.symm)
  have judged := retentionReasons_length s.segments disk retentionMs retentionBytes nowMs
  constructor
  · intro member
    rintro ⟨inside, rule⟩
    rcases mem_append.mp member with unmarked | last
    · obtain ⟨other, reason, listed, mark, chosen⟩ := mem_picked_iff.mp unmarked
      obtain ⟨within, _⟩ := List.getElem?_eq_some_iff.mp listed
      rw [length_dropLast] at within
      rw [List.getElem?_dropLast, if_pos within] at listed
      cases unique listed
      have marked := (stores.marked_iff mark).mpr rule
      rw [← Option.not_isSome, marked] at chosen
      cases chosen
    · obtain ⟨behind, listed⟩ := mem_iff_getElem?.mp last
      rw [List.getElem?_drop] at listed
      have same := unique listed
      omega
  · intro spared
    by_cases inside : place < s.segments.length - 1
    · have within : place < (retentionReasons s.segments disk retentionMs retentionBytes nowMs).length := by
        rw [judged, length_dropLast]
        exact inside
      have mark := List.getElem?_eq_getElem within
      have unmarked := (stores.marked_iff mark).not.mpr fun rule => spared ⟨inside, rule⟩
      refine mem_append_left _ (mem_picked_iff.mpr ⟨place, _, ?_, mark, ?_⟩)
      · rw [List.getElem?_dropLast, if_pos inside]
        exact found
      · simpa using unmarked
    · obtain ⟨within, _⟩ := List.getElem?_eq_some_iff.mp found
      refine mem_append_right _ (mem_iff_getElem?.mpr ⟨0, ?_⟩)
      rw [List.getElem?_drop, ← found]
      congr 1
      omega

/-- No record of a removed segment is young. -/
def SparesYoung (limit : Int64) (s left : StorageImpl) (contents : List (List (Int64 × List Record))) : Prop :=
  ∀ (place : Nat) (seg : SegmentStorage) (batches : List (Int64 × List Record)), s.segments[place]? = some seg →
    contents[place]? = some batches → seg ∉ left.segments → ∀ ts ∈ segmentTimes batches, ts < limit

/-- No young record stands in a segment before one that starts with an old record. -/
def OldBeforeOld (limit : Int64) (contents : List (List (Int64 × List Record))) : Prop :=
  ∀ (place : Nat) (batches later : List (Int64 × List Record)) (first : Int64), contents[place]? = some batches →
    contents[place + 1]? = some later → (segmentTimes later).head? = some first → first < limit →
      ∀ ts ∈ segmentTimes batches, ts < limit

/-- Retention by time alone removes no young record exactly if none stands before an old start. -/
theorem time_retention_spares_young_iff {disk : StorageDisk} {s : StorageImpl}
    {contents : List (List (Int64 × List Record))} (stores : Stores disk s contents)
    (retentionMs retentionBytes nowMs : Int64) (timed : 0 < retentionMs) (unlimited : retentionBytes < 0) :
    ∃ count left ops, (s.enforceRetention retentionMs.toInt retentionBytes.toInt nowMs.toInt).run disk =
        (.ok (count, left), ops) ∧
      (SparesYoung (nowMs - retentionMs) s left contents ↔ OldBeforeOld (nowMs - retentionMs) contents) := by
  refine ⟨_, _, _, enforceRetention_eq s disk _ _ _, ?_⟩
  have same := stores.segments.length_eq
  rw [Int64.lt_iff_toInt_lt] at timed unlimited
  constructor
  · intro spares place batches later first found next starts old
    obtain ⟨within, _⟩ := List.getElem?_eq_some_iff.mp next
    have listed : s.segments[place]? = some s.segments[place] := List.getElem?_eq_getElem (by omega)
    apply spares place s.segments[place] batches listed found
    rw [stores.kept_iff listed, not_not, int64_sub]
    exact ⟨by omega, .inr ⟨timed, later, first, next, starts, Int64.lt_iff_toInt_lt.mp old⟩⟩
  · intro sorted place seg batches listed found removed
    rw [stores.kept_iff listed, not_not, int64_sub] at removed
    rcases removed.2 with above | ⟨_, later, first, next, starts, old⟩
    · exact absurd above.1 (not_le.mpr unlimited)
    · exact sorted place batches later first found next starts (Int64.lt_iff_toInt_lt.mpr old)

theorem time_retention_spares_young_of_aging :
    ∃ count left ops, (agingState.storage.enforceRetention 500 (-1) 1000).run agingState.disk =
        (.ok (count, left), ops) ∧ SparesYoung 500 agingState.storage left agingContents := by
  obtain ⟨count, left, ops, ran, spares⟩ :=
    time_retention_spares_young_iff agingState_stores 500 (-1) 1000 (by decide) (by decide)
  refine ⟨count, left, ops, ran, spares.mpr ?_⟩
  intro place batches later first found next starts old ts member
  match place with
  | 0 =>
    cases found
    rw [show ts = 0 by simpa [segmentTimes] using member]
    decide
  | 1 =>
    cases next
    cases starts
    exact absurd old (by decide)
  | 2 =>
    cases next
    cases starts
  | place + 3 => cases next

/-- A clock that runs behind stamps the second of two segments. -/
def skewedState : Serving :=
  (follow (Serving.step smallConfig) freshServing
    [.append (stampedBatch 1000), .append (stampedBatch 0)]).get (by decide +kernel)

/-- The old start of the second segment removes the first one, whose record is written at this moment. -/
theorem time_retention_removes_young_record :
    follow (Serving.step smallConfig) freshServing [.append (stampedBatch 1000), .append (stampedBatch 0)] =
        some skewedState ∧
      skewedState.disk.read (.log 0) = some (batchBytes 0 [⟨1000, none, replicate 5 0, []⟩]) ∧
      ∃ left ops, (skewedState.storage.enforceRetention 500 (-1) 1000).run skewedState.disk = (.ok (1, left), ops) ∧
        left.segments.map baseOffset = [1, 2] ∧
        (skewedState.disk.applyAll ops).lookup (.log 0) = none := by
  have reasons : retentionReasons skewedState.storage.segments skewedState.disk 500 (-1) 1000 = [some .time, none] := by
    decide +kernel
  have ran := enforceRetention_eq skewedState.storage skewedState.disk 500 (-1) 1000
  have one : (picked Option.isSome [some RetentionReason.time, none] skewedState.storage.segments.dropLast).length =
      1 := by
    decide +kernel
  rw [reasons, one] at ran
  exact ⟨(Option.some_get _).symm, by decide +kernel, _, _, ran, by decide +kernel, by decide +kernel⟩

end BunnyMQ.Storage
