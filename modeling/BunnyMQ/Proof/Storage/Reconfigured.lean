/-
This file shows when a log that was written under one configuration is safe under another one.
-/

import BunnyMQ.Proof.Storage.Deletion
import BunnyMQ.Proof.Storage.Undo

namespace BunnyMQ.Storage
open Foundation FileStore Transition StorageImpl List
variable {cfg : StorageConfig} {base : Int} {front back : List Bytes} {batch : Bytes}

/-! ## Entries of a segment -/

theorem entryCount_empty (cfg : StorageConfig) (base : Int) : entryCount cfg ⟨base, []⟩ = 0 := rfl

theorem entryCount_mono (cfg : StorageConfig) (base : Int) (front back : List Bytes) :
    entryCount cfg ⟨base, front⟩ ≤ entryCount cfg ⟨base, front ++ back⟩ := by
  induction back using reverseRecOn with
  | nil => rw [append_nil]
  | append_singleton back batch ih =>
    have pushed := entryCount_push cfg base (front ++ back) batch
    rw [append_assoc] at pushed
    omega

/-- A segment that is not over its capacity has a free slot at each of its batches. -/
theorem spareSlot_of_front (few : (entryCount cfg ⟨base, front ++ batch :: back⟩ : Int) ≤ cfg.maxEntries) :
    SpareSlot cfg ⟨base, front⟩ := by
  intro due
  have pushed := entryCount_push cfg base front batch
  have rest := entryCount_mono cfg base (front ++ [batch]) back
  rw [if_pos due] at pushed
  rw [append_assoc, singleton_append] at rest
  change (entryCount cfg ⟨base, front⟩ : Int) < cfg.maxEntries
  omega

/-- A segment over its capacity has a batch that finds its index full. -/
theorem exists_full_front (indexable : cfg.Indexable) {batches : List Bytes}
    (many : cfg.maxEntries < entryCount cfg ⟨base, batches⟩) :
    ∃ front batch back, batches = front ++ batch :: back ∧
      (entryCount cfg ⟨base, front⟩ : Int) ≤ cfg.maxEntries ∧ ¬ SpareSlot cfg ⟨base, front⟩ := by
  induction batches using reverseRecOn with
  | nil =>
    have positive := indexable.maxEntries_pos
    rw [entryCount_empty] at many
    omega
  | append_singleton batches last ih =>
    by_cases early : cfg.maxEntries < entryCount cfg ⟨base, batches⟩
    · obtain ⟨front, batch, back, split, few, full⟩ := ih early
      exact ⟨front, batch, back ++ [last], by rw [split, append_assoc]; rfl, few, full⟩
    · have few := not_lt.mp early
      exact ⟨batches, last, [], rfl, few, fun spare => not_le.mpr many (spare.push few last)⟩

/-- The configuration has room for the entries of every segment and for the next one of the active segment. -/
structure Roomy (cfg : StorageConfig) (log : PartitionLog) : Prop where
  entries : ∀ seg ∈ log.segments, (entryCount cfg seg : Int) ≤ cfg.maxEntries
  spare : SpareSlot cfg log.active

theorem Roomy.active {cfg : StorageConfig} {log : PartitionLog} (roomy : Roomy cfg log) :
    (entryCount cfg log.active : Int) ≤ cfg.maxEntries :=
  roomy.entries log.active (by simp [PartitionLog.segments])

theorem Roomy.append {cfg : StorageConfig} (indexable : cfg.Indexable) {log : PartitionLog} (roomy : Roomy cfg log)
    (batch : Bytes) : Roomy cfg (log.append cfg.segmentMaxBytes batch) where
  entries := by
    refine PartitionLog.forall_append roomy.entries ?_ fun base => ?_
    · exact roomy.spare.push roomy.active _
    · have positive := indexable.maxEntries_pos
      rw [entryCount_empty]
      omega
  spare := spareSlot_of_slack indexable (PartitionLog.append_slack indexable.segment log batch)

/-! ## Truncations to a stored batch -/

namespace PartitionLog
variable {log : PartitionLog}

theorem Extends.formed {goal : PartitionLog} {extra : List Bytes} {newer : List Segment}
    (longer : goal.Extends log extra newer) (formed : log.Formed) : goal.Formed where
  segment seg member := by
    rcases mem_append.mp member with closed | active
    · exact formed.segment seg (by rw [longer.split]; exact mem_append_left _ closed)
    · rw [mem_singleton.mp active]
      have whole := formed.segment ⟨goal.active.base, goal.active.batches ++ extra⟩ (by rw [longer.split]; simp)
      exact ⟨whole.nonneg, whole.range, fun batch stored => whole.stored batch (mem_append_left _ stored),
        (chained_append.mp whole.chained).1⟩
  increasing := by
    have increasing := formed.increasing
    rw [longer.bases] at increasing
    exact (pairwise_append.mp increasing).1

/-- The log in front of a stored batch ends at the base offset of the batch. -/
theorem extends_of_split (formed : log.Formed) (spaced : log.Spaced)
    (growing : ∀ seg ∈ log.segments, Growing seg.batches) {before later : List Segment}
    (split : log.segments = before ++ ⟨base, front ++ batch :: back⟩ :: later) :
    Extends ⟨before, ⟨base, front⟩⟩ log (batch :: back) later ∧ next ⟨before, ⟨base, front⟩⟩ = baseOffsetOf batch ∧
      baseOffsetOf batch < log.next := by
  have member : Segment.mk base (front ++ batch :: back) ∈ log.segments := by rw [split]; simp
  have chained : Chained base (front ++ batch :: back) := (formed.segment _ member).chained
  have grows : Growing (front ++ batch :: back) := growing _ member
  obtain ⟨_, starts, _⟩ := chained_append.mp chained
  have inside := (grows.between chained).2 batch (by simp)
  have moves := grows batch (by simp)
  have stop : Segment.stop ⟨base, front ++ batch :: back⟩ = lastEnd base (front ++ batch :: back) := rfl
  have active := (growing log.active (by simp [segments])).between formed.active.chained
  refine ⟨⟨split, ?_, fun _ => cons_ne_nil _ _⟩, starts.symm, ?_⟩
  · intro seg listed
    have apart := spaced
    rw [Spaced, split] at apart
    have order := (pairwise_cons.mp (pairwise_append.mp apart).2.1).1 seg listed
    change lastEnd base front < seg.base
    omega
  · have below := spaced.stop_le active.1 member
    omega

end PartitionLog

/-! ## Calls behind a restart -/

inductive ReopenedCall where
  | append (payload : Bytes)
  | truncateTo (offset : Int)

def ReopenedCall.run (cfg : StorageConfig) (state : Serving) :
    ReopenedCall → Except GoError StorageImpl × List (FileOp FileName)
  | .append payload => (state.storage.append cfg payload >>= fun answer => pure answer.2).run state.disk
  | .truncateTo offset => (state.storage.truncateTo cfg offset).run state.disk

/-- Producers append encoded batches with 64-bit offsets. A truncation names a stored batch or the end of the log. -/
def Permitted (state : Serving) : ReopenedCall → Prop
  | .append payload => EncodedBatch payload ∧ state.storage.nextOffset + recordCountOf payload < 2 ^ 63
  | .truncateTo offset => offset = state.storage.nextOffset ∨
      ∃ seg ∈ state.storage.segments, ∃ batch ∈ seg.batches state.disk, baseOffsetOf batch = offset

/-- The storage is opened in a directory and then serves calls. -/
def reopened (cfg : StorageConfig) (disk : StorageDisk) : System Serving ReopenedCall where
  start state := openServing cfg disk = some state
  step state call next := Serving.after state.disk id (call.run cfg state) = some next

/-- The directory opens, and no call of any run overruns an index file or finds its index full. -/
structure IndexSafe (cfg : StorageConfig) (disk : StorageDisk) : Prop where
  opens : ∃ state, openServing cfg disk = some state
  serves : ∀ state, (reopened cfg disk).Reaches Permitted state → ∀ call, Permitted state call →
    (call.run cfg state).1 ≠ .error errSliceBounds ∧ (call.run cfg state).1 ≠ .error errIndexFull

/-- The state holds a log whose batches and segments follow one another. -/
structure Serving.Housed (cfg : StorageConfig) (state : Serving) (log : PartitionLog) : Prop where
  mounted : Mounted False cfg state.disk state.storage log
  growing : ∀ seg ∈ log.segments, Growing seg.batches
  spaced : log.Spaced

section
variable {cfg : StorageConfig} {state : Serving} {log : PartitionLog}

theorem Serving.Housed.start_le (housed : state.Housed cfg log) : log.active.base ≤ log.next :=
  ((housed.growing _ (by simp [PartitionLog.segments])).between housed.mounted.formed.active.chained).1

/-- With a free slot an append succeeds. -/
theorem Serving.Housed.append (indexable : cfg.Indexable) (housed : state.Housed cfg log)
    (roomy : Roomy cfg log) {payload : Bytes} (permitted : Permitted state (.append payload)) :
    ∃ storage ops, (ReopenedCall.append payload).run cfg state = (.ok storage, ops) ∧
      Serving.Housed cfg ⟨state.disk.applyAll ops, storage⟩ (log.append cfg.segmentMaxBytes payload) := by
  obtain ⟨encoded, room⟩ := permitted
  have start := housed.start_le
  have nonneg := housed.mounted.formed.active.nonneg
  have positive := encoded.count_pos
  rw [housed.mounted.next] at room
  obtain ⟨_, ends⟩ := encoded.ends (by omega : 0 ≤ log.next) room
  obtain ⟨ran, after⟩ := housed.mounted.append_eq indexable roomy.spare roomy.active encoded.stored fun _ => by omega
  refine ⟨_, _, Program.bind_pure_run ran Prod.snd, after, ?_, housed.spaced.append _ (by omega)⟩
  exact PartitionLog.append_growing housed.growing housed.mounted.formed (by omega)

/-- Without a free slot an append fails. -/
theorem Serving.Housed.append_full (housed : state.Housed cfg log) (full : ¬ SpareSlot cfg log.active) {payload : Bytes}
    (encoded : EncodedBatch payload) : ((ReopenedCall.append payload).run cfg state).1 = .error errIndexFull := by
  have refused := housed.mounted.append_full full encoded.stored state.disk
  rw [ReopenedCall.run, Program.bind_error refused]

/-- A truncation to a stored batch whose earlier entries fit leaves the log in front of it. -/
theorem Serving.Housed.truncateTo (indexable : cfg.Indexable) (housed : state.Housed cfg log)
    {before later : List Segment} (split : log.segments = before ++ ⟨base, front ++ batch :: back⟩ :: later)
    (few : (entryCount cfg ⟨base, front⟩ : Int) ≤ cfg.maxEntries) :
    ∃ storage ops, (ReopenedCall.truncateTo (baseOffsetOf batch)).run cfg state = (.ok storage, ops) ∧
      Serving.Housed cfg ⟨state.disk.applyAll ops, storage⟩ ⟨before, ⟨base, front⟩⟩ := by
  obtain ⟨longer, next, above⟩ :=
    PartitionLog.extends_of_split housed.mounted.formed housed.spaced housed.growing split
  have growing := longer.growing housed.growing
  rw [← next] at above
  obtain ⟨ran, after⟩ := housed.mounted.truncateTo_eq indexable (longer.formed housed.mounted.formed)
    (growing ⟨base, front⟩ (by simp [PartitionLog.segments])) longer above (mappable_of_count indexable few)
  rw [next] at ran
  exact ⟨_, _, ran, after, growing, longer.spaced housed.spaced⟩

/-- A batch that a segment of the storage returns stands in a segment of the log. -/
theorem Mounted.exists_split {indexed : Prop} (mounted : Mounted indexed cfg state.disk state.storage log)
    {handle : SegmentStorage} (listed : handle ∈ state.storage.segments) (stored : batch ∈ handle.batches state.disk) :
    ∃ before later base front back, log.segments = before ++ ⟨base, front ++ batch :: back⟩ :: later := by
  have inside : batch ∈ log.contents := by
    rw [← mounted.scanned]
    exact mem_flatMap.mpr ⟨handle, listed, stored⟩
  obtain ⟨⟨base, batches⟩, member, found⟩ := mem_flatMap.mp inside
  obtain ⟨before, later, split⟩ := append_of_mem member
  obtain ⟨front, back, rfl⟩ := append_of_mem found
  exact ⟨before, later, base, front, back, split⟩

/-- Every permitted call succeeds and keeps the room. -/
theorem Serving.Housed.call (indexable : cfg.Indexable) (housed : state.Housed cfg log) (roomy : Roomy cfg log)
    {call : ReopenedCall} (permitted : Permitted state call) :
    ∃ storage ops left, call.run cfg state = (.ok storage, ops) ∧
      Serving.Housed cfg ⟨state.disk.applyAll ops, storage⟩ left ∧ Roomy cfg left := by
  cases call with
  | append payload =>
    obtain ⟨storage, ops, ran, after⟩ := housed.append indexable roomy permitted
    exact ⟨storage, ops, _, ran, after, roomy.append indexable payload⟩
  | truncateTo offset =>
    rcases permitted with same | ⟨handle, listed, batch, stored, rfl⟩
    · refine ⟨state.storage, [], log, ?_, housed, roomy⟩
      rw [ReopenedCall.run, StorageImpl.truncateTo, if_pos same]
      rfl
    · obtain ⟨before, later, base, front, back, split⟩ := housed.mounted.exists_split listed stored
      have few := roomy.entries ⟨base, front ++ batch :: back⟩ (by rw [split]; simp)
      have fewer : (entryCount cfg ⟨base, front⟩ : Int) ≤ cfg.maxEntries := by
        have shorter := entryCount_mono cfg base front (batch :: back)
        omega
      obtain ⟨storage, ops, ran, after⟩ := housed.truncateTo indexable split fewer
      refine ⟨storage, ops, _, ran, after, ?_, spareSlot_of_front few⟩
      intro seg kept
      rcases mem_append.mp kept with old | active
      · exact roomy.entries seg (by rw [split]; exact mem_append_left _ old)
      · rw [mem_singleton.mp active]
        exact fewer

end

/-- Index files play no part in what the logs hold. -/
theorem DiskHolds.reconfigure {indexed : Prop} {disk : StorageDisk} {log : PartitionLog} {tail : Bytes}
    (holds : DiskHolds indexed cfg disk log tail) (other : StorageConfig) :
    DiskHolds False other disk log tail where
  closedLog := holds.closedLog
  closedIndex seg member := by
    obtain ⟨offsets, times, index, timeindex, _⟩ := holds.closedIndex seg member
    exact ⟨offsets, times, index, timeindex, False.elim⟩
  activeLog := holds.activeLog
  others := holds.others

section
variable {cfg : StorageConfig} {disk : StorageDisk} {log : PartitionLog} {tail : Bytes}

section
variable (indexable : cfg.Indexable) (formed : log.Formed) (growing : ∀ seg ∈ log.segments, Growing seg.batches)
  (spaced : log.Spaced) (holds : DiskHolds False cfg disk log tail) (torn : Framing.next recoveryFormat tail = none)
include indexable formed growing spaced holds torn

/-- A directory opens exactly if the entries of its active segment fit into the mapping. -/
theorem openServing_housed :
    (Mappable cfg log.active → ∃ state, openServing cfg disk = some state ∧ state.Housed cfg log) ∧
      (¬ Mappable cfg log.active → openServing cfg disk = none) := by
  constructor
  · intro room
    obtain ⟨s, ran, mounted⟩ := openStorage_mounted indexable formed holds torn room
    have opened : openServing cfg disk = some ⟨disk.applyAll (recoveryOps cfg log.active), s⟩ := by
      rw [openServing, ran]
      rfl
    generalize disk.applyAll (recoveryOps cfg log.active) = left at opened mounted
    exact ⟨⟨left, s⟩, opened, mounted, growing, spaced⟩
  · intro overruns
    obtain ⟨handles, _, ran, _⟩ := openStorage_eq indexable formed holds torn
    rw [openServing, ran, rebuilt, if_neg overruns]
    rfl

/-- A log is safe under a configuration exactly if the configuration has room for it. -/
theorem indexSafe_iff_roomy (room : log.next + 1 < 2 ^ 63) : IndexSafe cfg disk ↔ Roomy cfg log := by
  obtain ⟨opens, overruns⟩ := openServing_housed indexable formed growing spaced holds torn
  have sample : EncodedBatch (stampedBatch 0) := ⟨stampedBatch_encoded 0, by decide +kernel⟩
  have single : recordCountOf (stampedBatch 0) = 1 := by decide +kernel
  constructor
  · intro safe
    have mappable : Mappable cfg log.active := by
      by_contra full
      obtain ⟨state, opened⟩ := safe.opens
      rw [overruns full] at opened
      cases opened
    obtain ⟨state, opened, housed⟩ := opens mappable
    have reached : (reopened cfg disk).Reaches Permitted state := .start opened
    constructor
    · rintro ⟨base, batches⟩ member
      by_contra many
      obtain ⟨front, batch, back, rfl, few, full⟩ := exists_full_front indexable (not_le.mp many)
      obtain ⟨before, later, split⟩ := append_of_mem member
      obtain ⟨_, next, above⟩ := PartitionLog.extends_of_split formed spaced growing split
      obtain ⟨storage, ops, ran, after⟩ := housed.truncateTo indexable split few
      have stored : Permitted state (.truncateTo (baseOffsetOf batch)) := by
        have inside : batch ∈ log.contents :=
          mem_flatMap.mpr ⟨_, member, mem_append_right _ mem_cons_self⟩
        rw [← housed.mounted.scanned] at inside
        obtain ⟨handle, listed, found⟩ := mem_flatMap.mp inside
        exact .inr ⟨handle, listed, batch, found, rfl⟩
      have moved : (reopened cfg disk).Reaches Permitted ⟨state.disk.applyAll ops, storage⟩ :=
        .step reached stored (by change Serving.after _ _ _ = _; rw [ran]; rfl)
      have allowed : Permitted ⟨state.disk.applyAll ops, storage⟩ (.append (stampedBatch 0)) :=
        ⟨sample, by rw [after.mounted.next, single]; omega⟩
      exact (safe.serves _ moved _ allowed).2 (after.append_full full sample)
    · by_contra full
      have allowed : Permitted state (.append (stampedBatch 0)) :=
        ⟨sample, by rw [housed.mounted.next, single]; exact room⟩
      exact (safe.serves _ reached _ allowed).2 (housed.append_full full sample)
  · intro roomy
    obtain ⟨state, opened, housed⟩ := opens
      (mappable_of_count indexable roomy.active)
    refine ⟨⟨state, opened⟩, fun later reached call permitted => ?_⟩
    have invariant : ∃ left, later.Housed cfg left ∧ Roomy cfg left := by
      refine @System.Reaches.invariant _ _ _ _ (fun current => ∃ left, current.Housed cfg left ∧ Roomy cfg left)
        ?_ ?_ later reached
      · intro first begins
        cases opened.symm.trans begins
        exact ⟨log, housed, roomy⟩
      · rintro current event next ⟨left, held, spacious⟩ allowed moves
        obtain ⟨storage, ops, after, ran, kept, still⟩ := held.call indexable spacious allowed
        change Serving.after _ _ _ = _ at moves
        rw [ran] at moves
        cases moves
        exact ⟨after, kept, still⟩
    obtain ⟨left, held, spacious⟩ := invariant
    obtain ⟨storage, ops, _, ran, _, _⟩ := held.call indexable spacious permitted
    rw [ran]
    exact ⟨by simp, by simp⟩

end

end

/-- Appends leave each segment at or before the base of the next one. -/
theorem Pristine.spaced (indexable : cfg.Indexable) {state : Serving} {log : PartitionLog}
    (pristine : Pristine cfg state log) (spaced : log.Spaced) {payloads : List Bytes}
    (encoded : ∀ payload ∈ payloads, EncodedBatch payload) (room : log.next + recordCounts payloads < 2 ^ 63) :
    (log.appendAll cfg.segmentMaxBytes payloads).Spaced := by
  induction payloads generalizing state log with
  | nil => exact spaced
  | cons payload payloads ih =>
    have first := encoded payload mem_cons_self
    have rest := recordCounts_nonneg payloads
    have positive := first.count_pos
    have start : log.active.base ≤ log.next :=
      ((pristine.growing _ (by simp [PartitionLog.segments])).between pristine.rep.valid.active.chained).1
    have nonneg := pristine.rep.valid.active.nonneg
    rw [recordCounts_cons] at room
    have ends := (first.ends (by omega : 0 ≤ log.next) (by omega)).2
    obtain ⟨next, _, after⟩ := pristine.append indexable first (by omega)
    have moved : (log.append cfg.segmentMaxBytes payload).next = log.next + recordCountOf payload := by
      rw [PartitionLog.append_next, ends]
    exact ih after (spaced.append cfg.segmentMaxBytes (by omega))
      (fun other listed => encoded other (mem_cons_of_mem _ listed)) (by omega)

/-- A log that was written under one configuration is safe under another one, both after a close and without it,
exactly if the new capacity holds the entries of each of its segments and one more of the active segment. -/
theorem reopened_index_safe_iff (cfg other : StorageConfig) (indexable : cfg.Indexable) (capacity : other.Indexable)
    (fresh : Serving) (opened : openServing cfg ∅ = some fresh) (payloads : List Bytes)
    (encoded : ∀ payload ∈ payloads, EncodedBatch payload) (offsets : recordCounts payloads + 1 < 2 ^ 63) :
    ∃ state closed, follow (Serving.step cfg) fresh (payloads.map .append) = some state ∧
      Serving.after state.disk id (state.storage.close.run state.disk) = some closed ∧
      ∀ disk ∈ [state.disk, closed.disk],
        IndexSafe other disk ↔ Roomy other (PartitionLog.empty.appendAll cfg.segmentMaxBytes payloads) := by
  have zero : PartitionLog.empty.next = 0 := rfl
  have start := Pristine.start indexable opened
  obtain ⟨state, followed, pristine⟩ := start.follow encoded indexable (by omega)
  have spaced := start.spaced indexable (pairwise_singleton _ _) encoded (by omega)
  have next := PartitionLog.appendAll_next encoded cfg.segmentMaxBytes zero.ge (by omega)
  generalize PartitionLog.empty.appendAll cfg.segmentMaxBytes payloads = log at pristine spaced next ⊢
  obtain ⟨left, closes, holds⟩ := close_run indexable pristine.rep
  have formed := pristine.rep.valid.formed
  refine ⟨state, ⟨_, left⟩, followed, by rw [closes]; rfl, ?_⟩
  simp only [forall_mem_cons, not_mem_nil, false_imp_iff, implies_true, and_true]
  exact ⟨indexSafe_iff_roomy capacity formed pristine.growing spaced (pristine.rep.holds.reconfigure other)
      Framing.next_nil (by omega),
    indexSafe_iff_roomy capacity formed pristine.growing spaced (holds.reconfigure other) Framing.next_nil (by omega)⟩

/-- A log of two batches is twice as long as a segment of the new configuration, but its entries fit. -/
theorem reopened_index_safe_of_pair : ∃ state closed,
    follow (Serving.step pairConfig) pairFresh ([stampedBatch 5, stampedBatch 6].map .append) = some state ∧
      Serving.after state.disk id (state.storage.close.run state.disk) = some closed ∧
      IndexSafe smallConfig state.disk ∧ IndexSafe smallConfig closed.disk := by
  have encoded : ∀ payload ∈ [stampedBatch 5, stampedBatch 6], EncodedBatch payload :=
    forall_mem_cons.mpr ⟨⟨stampedBatch_encoded 5, by decide +kernel⟩,
      forall_mem_singleton.mpr ⟨stampedBatch_encoded 6, by decide +kernel⟩⟩
  obtain ⟨state, closed, followed, closes, safe⟩ :=
    reopened_index_safe_iff pairConfig smallConfig pairConfig_indexable smallConfig_indexable pairFresh
      (Option.some_get _).symm _ encoded (by decide +kernel)
  have roomy : Roomy smallConfig
      (PartitionLog.empty.appendAll pairConfig.segmentMaxBytes [stampedBatch 5, stampedBatch 6]) :=
    ⟨by decide +kernel, by unfold SpareSlot; decide +kernel⟩
  exact ⟨state, closed, followed, closes, (safe _ (by simp)).mpr roomy, (safe _ (by simp)).mpr roomy⟩

/-- Four batches fit into one segment. -/
def longConfig : StorageConfig := { smallConfig with segmentMaxBytes := 1000 }

/-- The index of a segment has one slot. -/
def tightConfig : StorageConfig := { smallConfig with segmentMaxBytes := 1 }

def longFresh : Serving := (openServing longConfig ∅).get (by decide +kernel)

def longState (count : Nat) : Option Serving :=
  follow (Serving.step longConfig) longFresh (replicate count (.append (stampedBatch 0)))

/-- After four batches the restart stores an entry behind the mapping. After three batches it succeeds, and the
first append finds the index full. -/
theorem reopened_overruns_index :
    (∃ four, longState 4 = some four ∧
      ((openStorage tightConfig).run four.disk).1 = .error errSliceBounds) ∧
    ∃ three restarted, longState 3 = some three ∧ openServing tightConfig three.disk = some restarted ∧
      ((restarted.storage.append tightConfig (stampedBatch 0)).run restarted.disk).1 = .error errIndexFull := by
  refine ⟨⟨(longState 4).get (by decide +kernel), (Option.some_get _).symm, by decide +kernel⟩,
    (longState 3).get (by decide +kernel),
    (openServing tightConfig ((longState 3).get (by decide +kernel)).disk).get (by decide +kernel),
    (Option.some_get _).symm, (Option.some_get _).symm, by decide +kernel⟩

end BunnyMQ.Storage
