/-
This file follows records from the producer through the storage to the consumer.
-/

import BunnyMQ.Proof.Client.Decode
import BunnyMQ.Proof.Storage.Read

namespace BunnyMQ.Client
open Foundation FileStore Storage StorageImpl List SentBatch

/-- The batches are appended one after another, and each append returns its base offset. -/
def appendAll (cfg : StorageConfig) : StorageImpl → List Bytes → StorageProgram (List Int × StorageImpl)
  | s, [] => pure ([], s)
  | s, batch :: rest => do
      let (baseOffset, s) ← s.append cfg batch
      let (offsets, s) ← appendAll cfg s rest
      return (baseOffset :: offsets, s)

/-- The consumer continues at the returned offset until a read makes no progress. -/
def fetchLoop (s : StorageImpl) (disk : StorageDisk) (maxBytes : Nat → Int) :
    Nat → Nat → Int → Except GoError (List Bytes × Int)
  | 0, _, offset => .ok ([], offset)
  | more + 1, step, offset => do
      let (chunk, next) ← s.read disk offset (maxBytes step)
      if next = offset then return ([], offset)
      else
        let (chunks, last) ← fetchLoop s disk maxBytes more (step + 1) next
        return (chunk :: chunks, last)

/-- The encoder turns the records into a payload below two gigabytes. -/
def Encodes (records : List Record) (payload : Bytes) : Prop :=
  encodeBatch records = .ok payload ∧ payload.length < 2 ^ 31

def recordSum (batches : List (List Record)) : Nat := (batches.map length).sum

section
variable {cfg : StorageConfig} {disk : StorageDisk} {s : StorageImpl} {log : PartitionLog}

/-- Every append returns the number of records before it, and the log holds the batches at these offsets. -/
theorem appendAll_run (indexable : cfg.Indexable) (small : cfg.segmentMaxBytes ≤ 2 ^ 31)
    {batches : List (List Record)} {payloads : List Bytes} (encoded : List.Forall₂ Encodes batches payloads)
    (rep : Represents True cfg disk s log) (readable : log.Readable) (room : log.HasRoom cfg.segmentMaxBytes)
    {offset : Nat} (next : log.next = offset) (fits : Fits log (recordSum batches)) :
    ∃ left ops after, (appendAll cfg s payloads).run disk =
        (.ok ((sentFrom offset batches).map fun sent => (sent.offset : Int), left), ops) ∧
      Represents True cfg (disk.applyAll ops) left after ∧ after.Readable ∧
      after.contents = log.contents ++ (sentFrom offset batches).map bytes ∧
      after.next = (offset + recordSum batches : Nat) ∧ log.bases <+: after.bases := by
  induction encoded generalizing disk s log offset with
  | nil => exact ⟨s, [], log, rfl, rep, readable, by simp [sentFrom], by simpa [recordSum] using next,
      prefix_refl _⟩
  | @cons records payload batches payloads first rest ih =>
    obtain ⟨present, rfl⟩ := encodeBatch_ok_iff.mp first.1
    have bounded : (batchBytes 0 records).length < 2 ^ 32 := by have small := first.2; omega
    have few := batchBytes_records 0 records
    have total : recordSum (records :: batches) = records.length + recordSum batches := by simp [recordSum]
    have counted : recordCountOf (batchBytes 0 records) = records.length := recordCountOf_batchBytes bounded
    rw [total, Nat.cast_add, ← counted] at fits
    have spare : 0 ≤ (recordSum batches : Int) := Int.natCast_nonneg _
    obtain ⟨stored, grows, ends⟩ := encoded_moves first.1 bounded rep.valid fits spare
    have start := fits.start
    have left := fits.room
    obtain ⟨middle, ran, after⟩ := append_run indexable rep stored fun _ => by omega
    have smallActive : log.active.bytes.length < 2 ^ 31 := by
      have below : (log.active.bytes.length : Int) < cfg.segmentMaxBytes := room
      omega
    have further := readable.append rep.valid stored grows (by omega) smallActive
    have moved : (log.append cfg.segmentMaxBytes (batchBytes 0 records)).next = (offset + records.length : Nat) := by
      rw [PartitionLog.append_next, ends, next, counted]
      rfl
    obtain ⟨final, ops, last, more, lastRep, lastReadable, contents, lastNext, bases⟩ := ih after further
      (PartitionLog.append_hasRoom indexable.segment log _) moved
      ⟨append_start start grows, by rw [PartitionLog.append_next, ends]; omega⟩
    have patched : patchBaseOffset (batchBytes 0 records) log.next = (mk offset records).bytes := by
      rw [patch_batchBytes, next, bytes]
    refine ⟨final, _, last, ?_, by rw [applyAll_append]; exact lastRep, lastReadable, ?_, ?_,
      (PartitionLog.append_bases _ _ _).trans bases⟩
    · rw [appendAll, Program.bind_ok ran]
      simp only
      rw [Program.bind_ok more]
      simp [sentFrom, next]
    · rw [contents, PartitionLog.append_contents, patched, sentFrom, map_cons, append_assoc]
      rfl
    · rw [lastNext, total, Nat.add_assoc]

/-- A split of the log at an offset is unique. -/
theorem split_unique {offset : Int} {done todo prior chosen rest : List Bytes}
    (same : done ++ todo = prior ++ (chosen ++ rest)) (ended : ∀ batch ∈ done, endOffsetOf batch ≤ offset)
    (ahead : ∀ batch ∈ todo, offset < endOffsetOf batch) (covers : Chosen offset prior chosen) :
    prior = done ∧ chosen ++ rest = todo := by
  obtain ⟨first, more, rfl, _, inside⟩ := covers.starts
  rcases append_eq_append_iff.mp same with ⟨extra, grown, left⟩ | ⟨extra, shrunk, left⟩
  · cases extra with
    | nil => exact ⟨by rw [grown, append_nil], by rw [left, nil_append]⟩
    | cons batch extra =>
      exfalso
      have behind := ahead batch (by rw [left]; simp)
      have before := covers.ended batch (by rw [grown]; simp)
      omega
  · cases extra with
    | nil => exact ⟨by rw [shrunk, append_nil], left⟩
    | cons batch extra =>
      exfalso
      have head : batch = first := (cons.inj left).1.symm
      have before := ended batch (by rw [shrunk]; simp)
      rw [head] at before
      omega

/-- A read at a batch boundary returns the next batches and moves to the next boundary. -/
theorem read_boundary (indexable : cfg.Indexable) (rep : Represents True cfg disk s log) (readable : log.Readable)
    {done todo : List Bytes} (split : log.contents = done ++ todo) (present : todo ≠ []) (maxBytes : Int) :
    ∃ chosen rest, todo = chosen ++ rest ∧ chosen ≠ [] ∧
      s.read disk (lastEnd s.earliestOffset done) maxBytes =
        .ok (chosen.flatten, lastEnd s.earliestOffset (done ++ chosen)) ∧
      lastEnd s.earliestOffset done < lastEnd s.earliestOffset (done ++ chosen) := by
  obtain ⟨chained, latest, growing⟩ := rep.chained readable
  rw [split] at chained latest growing
  obtain ⟨chainDone, chainTodo⟩ := chained_append.mp chained
  have later : Growing todo := fun batch member => growing batch (mem_append_right _ member)
  have lower := growing.append_left.between chainDone
  have upper := later.lt_lastEnd chainTodo present
  rw [← lastEnd_append, latest] at upper
  obtain ⟨prior, chosen, rest, parts, covers, read⟩ := read_run indexable rep readable lower.1 upper maxBytes
  have ahead : ∀ batch ∈ todo, lastEnd s.earliestOffset done < endOffsetOf batch := by
    intro batch member
    have bounds := (later.between chainTodo).2 batch member
    have grows := later batch member
    omega
  rw [append_assoc] at parts
  obtain ⟨rfl, taken⟩ := split_unique (split.symm.trans parts) (fun batch member => (lower.2 batch member).2) ahead
    covers
  rw [← taken, ← append_assoc] at chained growing
  obtain ⟨same, moves, _⟩ := covers.progress chained growing
  obtain ⟨first, more, head, _⟩ := covers.starts
  exact ⟨chosen, rest, taken.symm, by rw [head]; simp, by rw [read, same], by rw [← same]; exact moves⟩

/-- From a batch boundary on, the loop fetches every later batch and stops at the latest offset. -/
theorem fetchLoop_run (indexable : cfg.Indexable) (rep : Represents True cfg disk s log) (readable : log.Readable)
    (maxBytes : Nat → Int) {done : List Bytes} {todo : List SentBatch}
    (bounded : ∀ sent ∈ todo, sent.bytes.length < 2 ^ 31)
    (split : log.contents = done ++ todo.map bytes) (step : Nat) :
    ∃ chunks, (∀ fuel, todo.length ≤ fuel →
        fetchLoop s disk maxBytes fuel step (lastEnd s.earliestOffset done) = .ok (chunks, s.latestOffset)) ∧
      (∀ chunk ∈ chunks, (decode chunk).2 = none) ∧
      chunks.flatMap (fun chunk => (decode chunk).1) = todo.flatMap decoded := by
  -- each read takes at least one batch, so the induction is on the number of batches that are left
  induction size : todo.length using Nat.strong_induction_on generalizing done todo step with
  | _ size ih =>
    by_cases finished : todo = []
    · subst finished
      obtain ⟨chained, latest, growing⟩ := rep.chained readable
      rw [split, map_nil, append_nil] at chained latest growing
      have ordered := (growing.between chained).1
      refine ⟨[], fun fuel _ => ?_, by simp, rfl⟩
      rw [latest] at ordered ⊢
      cases fuel with
      | zero => rfl
      | succ fuel =>
        rw [fetchLoop, read_behind ordered (le_refl _)]
        simp [bind, Except.bind, pure, Except.pure]
    · obtain ⟨chosen, rest, taken, some, read, moves⟩ :=
        read_boundary indexable rep readable split (by simpa using finished) (maxBytes step)
      obtain ⟨first, more, rfl, rfl, rfl⟩ := map_eq_append_iff.mp taken
      have counted : 0 < first.length := length_pos_iff.mpr (by simpa using some)
      rw [length_append] at size
      rw [map_append, ← append_assoc] at split
      obtain ⟨chunks, fetched, clean, records⟩ := ih more.length (by omega)
        (fun sent member => bounded sent (mem_append_right _ member)) split (step + 1) rfl
      have decoded := decode_bytes fun sent member => bounded sent (mem_append_left more member)
      refine ⟨(first.map bytes).flatten :: chunks, ?_, ?_, ?_⟩
      · intro fuel enough
        obtain ⟨fuel, rfl⟩ := Nat.exists_eq_add_of_le' (by omega : 1 ≤ fuel)
        rw [fetchLoop, read]
        simp only [bind, Except.bind, if_neg moves.ne', fetched fuel (by omega)]
        rfl
      · intro chunk member
        rcases mem_cons.mp member with rfl | later
        · rw [decoded]
        · exact clean chunk later
      · rw [flatMap_cons, decoded, records, flatMap_append]

theorem sentFrom_bounded {batches : List (List Record)} {payloads : List Bytes}
    (encoded : List.Forall₂ Encodes batches payloads) (offset : Nat) :
    ∀ sent ∈ sentFrom offset batches, sent.bytes.length < 2 ^ 31 := by
  induction encoded generalizing offset with
  | nil => simp [sentFrom]
  | @cons records payload batches payloads first rest ih =>
    intro sent member
    rcases mem_cons.mp member with rfl | later
    · obtain ⟨_, rfl⟩ := encodeBatch_ok_iff.mp first.1
      rw [bytes, batchBytes_length_eq _ 0]
      exact first.2
    · exact ih _ sent later

theorem sentFrom_length (offset : Nat) (batches : List (List Record)) :
    (sentFrom offset batches).length = batches.length := by
  induction batches generalizing offset with
  | nil => rfl
  | cons records batches ih => rw [sentFrom, length_cons, length_cons, ih]

theorem sentFrom_offsets (offset : Nat) (batches : List (List Record)) :
    (sentFrom offset batches).map (fun sent => (sent.offset : Int)) =
      (range batches.length).map fun index => ((offset + recordSum (batches.take index) : Nat) : Int) := by
  induction batches generalizing offset with
  | nil => rfl
  | cons records batches ih =>
    rw [sentFrom, map_cons, ih, length_cons, range_succ_eq_map, map_cons, map_map]
    congr 1
    refine map_congr_left fun index _ => ?_
    simp [recordSum, Nat.add_assoc]

end

/-- Every append returns the number of records before it. From offset zero on, reads with any limits make
progress at every stored offset, stop at the latest offset and deliver every record once at its own offset. -/
theorem produce_fetch_fidelity (cfg : StorageConfig) (segment : 1 ≤ cfg.segmentMaxBytes)
    (segmentMax : cfg.segmentMaxBytes ≤ 2 ^ 31) (sample : 1 ≤ cfg.indexSampleBytes)
    (sampleMax : cfg.indexSampleBytes < 2 ^ 63) (fresh : StorageImpl) (created : List (FileOp FileName))
    (opened : (openStorage cfg).run ∅ = (.ok fresh, created))
    (batches : List (List Record)) (payloads : List Bytes) (encoded : List.Forall₂ Encodes batches payloads)
    (offsets : recordSum batches < 2 ^ 63) :
    ∃ s ops, (appendAll cfg fresh payloads).run ((∅ : StorageDisk).applyAll created) =
        (.ok ((range batches.length).map fun index => (recordSum (batches.take index) : Int), s), ops) ∧
      s.latestOffset = recordSum batches ∧
      (∀ offset maxBytes, 0 ≤ offset → offset < s.latestOffset →
        ∃ chunk next, s.read (((∅ : StorageDisk).applyAll created).applyAll ops) offset maxBytes = .ok (chunk, next) ∧
          offset < next ∧ next ≤ s.latestOffset) ∧
      ∀ maxBytes : Nat → Int, ∃ chunks,
        (∀ fuel, batches.length ≤ fuel →
          fetchLoop s (((∅ : StorageDisk).applyAll created).applyAll ops) maxBytes fuel 0 0 =
            .ok (chunks, s.latestOffset)) ∧
        (∀ chunk ∈ chunks, (decode chunk).2 = none) ∧
        chunks.flatMap (fun chunk => (decode chunk).1) =
          batches.flatten.zipIdx.map (fun entry => delivered entry.2 entry.1) ∧
        ∀ record ∈ batches.flatten, (record.headers.map RecordHeader.key).Nodup → ∀ key value,
          (headerMap record.headers).lookup key = some value ↔ RecordHeader.mk key value ∈ record.headers := by
  have absent : ∀ base, Absent (∅ : StorageDisk) base :=
    fun base => ⟨AList.lookup_empty _, AList.lookup_empty _, AList.lookup_empty _⟩
  have indexable := indexable_of_open absent segment segmentMax sample sampleMax opened
  obtain ⟨storage, ran, rep⟩ := openStorage_empty indexable absent True
  rw [opened] at ran
  cases ran
  obtain ⟨s, ops, log, appended, finalRep, readable, contents, next, bases⟩ :=
    @appendAll_run cfg _ fresh .empty indexable
    segmentMax batches payloads encoded rep PartitionLog.readable_empty segment 0 rfl
    ⟨le_refl _, by simpa [PartitionLog.empty, PartitionLog.next, Segment.stop, lastEnd] using offsets⟩
  have earliest : s.earliestOffset = 0 := by
    obtain ⟨later, split⟩ := bases
    rw [finalRep.earliestOffset, ← split]
    rfl
  have latest : s.latestOffset = recordSum batches := by
    rw [latestOffset, finalRep.next, next, Nat.zero_add]
  have contents : log.contents = [] ++ (sentFrom 0 batches).map bytes := contents
  obtain ⟨chained, ends, growing⟩ := finalRep.chained readable
  refine ⟨s, ops, ?_, latest, ?_, ?_⟩
  · rw [appended, sentFrom_offsets]
    simp
  · intro offset maxBytes lower upper
    obtain ⟨prior, chosen, rest, parts, covers, read⟩ :=
      read_run indexable finalRep readable (by rw [earliest]; exact lower) upper maxBytes
    rw [parts] at chained growing ends
    obtain ⟨_, moves, within⟩ := covers.progress chained growing
    exact ⟨_, _, read, moves, by rw [← ends]; exact within⟩
  · intro maxBytes
    obtain ⟨chunks, fetched, clean, records⟩ := fetchLoop_run indexable finalRep readable maxBytes
      (sentFrom_bounded encoded 0) contents 0
    have start : lastEnd s.earliestOffset [] = 0 := earliest
    rw [start, sentFrom_length] at fetched
    exact ⟨chunks, fetched, clean, records.trans (decoded_sentFrom 0 batches),
      fun record _ distinct key value => lookup_headerMap distinct key value⟩

/-- Three records in two batches get the offsets zero to two. -/
theorem produce_fetch_fidelity_two_batches :
    ∃ fresh created s ops, (openStorage smallConfig).run ∅ = (.ok fresh, created) ∧
      (appendAll smallConfig fresh [batchBytes 0 [⟨7, none, [1], []⟩],
        batchBytes 0 [⟨8, some [2], [], [⟨[3], [4]⟩]⟩, ⟨9, some [], [5], []⟩]]).run
          ((∅ : StorageDisk).applyAll created) = (.ok ([0, 1], s), ops) ∧ s.latestOffset = 3 := by
  obtain ⟨fresh, opened, _⟩ := openStorage_empty smallConfig_indexable
    (fun base => ⟨AList.lookup_empty _, AList.lookup_empty _, AList.lookup_empty _⟩) True
  have encodes : ∀ records, records ≠ [] → (batchBytes 0 records).length < 2 ^ 31 →
      Encodes records (batchBytes 0 records) := fun records present bounded => ⟨encodeBatch_eq present, bounded⟩
  obtain ⟨s, ops, appended, latest, _⟩ := produce_fetch_fidelity smallConfig (by decide) (by decide) (by decide)
    (by decide) fresh _ opened [[⟨7, none, [1], []⟩], [⟨8, some [2], [], [⟨[3], [4]⟩]⟩, ⟨9, some [], [5], []⟩]] _
    (.cons (encodes _ (by simp) (by decide +kernel)) (.cons (encodes _ (by simp) (by decide +kernel)) .nil)) (by decide)
  exact ⟨fresh, _, s, ops, opened, appended, latest⟩

end BunnyMQ.Client
