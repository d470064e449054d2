/-
This file shows when a poll moves a position past records that it does not return.
-/

import BunnyMQ.Proof.Client.Positions
import BunnyMQ.Proof.Storage.Codec

namespace BunnyMQ.Client
open Foundation Storage Consumer List

/-- The answer to a fetch comes too late, moves the position, is passed over or ends the poll. -/
inductive Outcome where
  | late
  | stored (recs : List PolledRecord) (nextOff : Int)
  | skipped
  | failed (failure : FetchError)

namespace Outcome

/-- The loop leaves the later partitions alone. -/
def stops : Outcome → Bool
  | late | failed _ => true
  | stored _ _ | skipped => false

def recs : Outcome → List PolledRecord
  | stored recs _ => recs
  | late | skipped | failed _ => []

end Outcome

def outcome (answer : FetchAnswers) (pw : PartitionWork) : Outcome :=
  match answer pw with
  | none => .late
  | some response =>
    match fetchPartition response pw.tp with
    | .ok (recs, nextOff) => .stored recs nextOff
    | .error failure => if failure.transient then .skipped else .failed failure

/-- The fetches in front of the first one whose answer stops the loop. -/
def passed (answer : FetchAnswers) (work : List PartitionWork) : List PartitionWork :=
  work.takeWhile fun pw => !(outcome answer pw).stops

/-- When the first answer that stops the loop is a failure, the fetches in front of it are answered with no other
offset than their own. -/
def StoppedInPlace (answer : FetchAnswers) (work : List PartitionWork) : Prop :=
  ∀ pw failure, work.find? (fun pw => (outcome answer pw).stops) = some pw → outcome answer pw = .failed failure →
    ∀ earlier ∈ passed answer work, ∀ recs nextOff, outcome answer earlier = .stored recs nextOff →
      nextOff = earlier.off

/-- A fetch returns every stored record between its offset and the next one. -/
def Truthful (answer : FetchAnswers) (stored : TP → List PolledRecord) : Prop :=
  ∀ pw recs nextOff, outcome answer pw = .stored recs nextOff → ∀ record ∈ stored pw.tp,
    pw.off ≤ record.offset.toInt → record.offset.toInt < nextOff → record ∈ recs

/-- A poll moves the positions past records that it returns only, and none of them when it fails. -/
structure KeepsUnreceived (answer : FetchAnswers) (c : Consumer) : Prop where
  received : ∀ stored, Truthful answer stored → ∀ tp, ∀ record ∈ stored tp, c.fetchOffset tp ≤ record.offset.toInt →
    record.offset.toInt < (c.poll answer).1.fetchOffset tp → ∃ out, (c.poll answer).2 = .ok out ∧ record ∈ out
  unmoved : ∀ failure, (c.poll answer).2 = .error failure → ∀ tp, (c.poll answer).1.fetchOffset tp = c.fetchOffset tp
  again : ∀ failure, (c.poll answer).2 = .error failure →
    (c.poll answer).1.pollWork = c.pollWork ∧ ∀ rpcs, (c.poll answer).1.commit rpcs = c.commit rpcs

section
variable {answer : FetchAnswers} {work : List PartitionWork} {c : Consumer} {pw : PartitionWork} {tp : TP}

/-- The loop does to the first partition what the outcome of its fetch says. -/
theorem pollLoop_cons (pw : PartitionWork) (rest : List PartitionWork) (c : Consumer) (out : List PolledRecord) :
    pollLoop answer (pw :: rest) c out =
      match outcome answer pw with
      | .late => (c, .ok out)
      | .stored recs nextOff => pollLoop answer rest (c.storeFetched pw.tp nextOff) (out ++ recs)
      | .skipped => pollLoop answer rest c out
      | .failed failure => (c, .error failure) := by
  rw [pollLoop, outcome]
  cases answer pw with
  | none => rfl
  | some response =>
    cases ended : fetchPartition response pw.tp with
    | ok result =>
      simp only [ended]
    | error failure =>
      simp only [ended]
      cases failure.transient with
      | true => rfl
      | false => rfl

theorem passed_cons (pw : PartitionWork) (rest : List PartitionWork) :
    passed answer (pw :: rest) = if (outcome answer pw).stops then [] else pw :: passed answer rest := by
  rw [passed, takeWhile_cons]
  cases (outcome answer pw).stops with
  | true => rfl
  | false => rfl

theorem fetchOffset_storeFetched (c : Consumer) (tp other : TP) (nextOff : Int) :
    (c.storeFetched tp nextOff).fetchOffset other = if other = tp then nextOff else c.fetchOffset other := by
  unfold fetchOffset storeFetched
  by_cases same : other = tp
  · rw [if_pos same, same, Finmap.lookup_insert, Option.getD_some]
  · rw [if_neg same, Finmap.lookup_insert_of_ne _ same]

theorem pollLoop_same (work : List PartitionWork) (c : Consumer) (out : List PolledRecord) :
    ∃ offsets, (pollLoop answer work c out).1 = { c with fetchOffsets := offsets } := by
  induction work generalizing c out with
  | nil => exact ⟨c.fetchOffsets, rfl⟩
  | cons pw rest ih =>
    rw [pollLoop_cons]
    cases outcome answer pw with
    | late | failed failure => exact ⟨c.fetchOffsets, rfl⟩
    | stored recs nextOff => exact ih _ _
    | skipped => exact ih c out

/-- The loop fails exactly with the failure of the first answer that stops it. -/
theorem pollLoop_fails_iff (work : List PartitionWork) (c : Consumer) (out : List PolledRecord) (failure : FetchError) :
    (pollLoop answer work c out).2 = .error failure ↔
      ∃ pw, work.find? (fun pw => (outcome answer pw).stops) = some pw ∧ outcome answer pw = .failed failure := by
  induction work generalizing c out with
  | nil => simp [pollLoop]
  | cons pw rest ih =>
    rw [pollLoop_cons, find?_cons]
    cases ended : outcome answer pw with
    | late => simp [Outcome.stops, ended]
    | stored recs nextOff => exact ih _ _
    | skipped => exact ih c out
    | failed other => simp [Outcome.stops, ended]

/-- The loop stores the offsets of the fetches that it gets through. -/
theorem pollLoop_stores (work : List PartitionWork) (c : Consumer) (out : List PolledRecord) (tp : TP) :
    (∃ pw ∈ passed answer work, ∃ recs nextOff, outcome answer pw = .stored recs nextOff ∧ pw.tp = tp ∧
        (pollLoop answer work c out).1.fetchOffset tp = nextOff) ∨
      (pollLoop answer work c out).1.fetchOffset tp = c.fetchOffset tp ∧
        ∀ pw ∈ passed answer work, ∀ recs nextOff, outcome answer pw = .stored recs nextOff → pw.tp ≠ tp := by
  induction work generalizing c out with
  | nil => exact .inr ⟨rfl, forall_mem_nil _⟩
  | cons pw rest ih =>
    rw [pollLoop_cons, passed_cons]
    cases ended : outcome answer pw with
    | late | failed failure => exact .inr ⟨rfl, forall_mem_nil _⟩
    | stored recs nextOff =>
      simp only [Outcome.stops, Bool.false_eq_true, if_false]
      obtain ⟨later, member, stored⟩ | ⟨kept, never⟩ := ih (c.storeFetched pw.tp nextOff) (out ++ recs)
      · exact .inl ⟨later, mem_cons_of_mem _ member, stored⟩
      · rw [fetchOffset_storeFetched] at kept
        by_cases same : tp = pw.tp
        · rw [if_pos same] at kept
          exact .inl ⟨pw, mem_cons_self, recs, nextOff, ended, same.symm, kept⟩
        · rw [if_neg same] at kept
          exact .inr ⟨kept, forall_mem_cons.mpr ⟨fun _ _ _ equal => same equal.symm, never⟩⟩
    | skipped =>
      simp only [Outcome.stops, Bool.false_eq_true, if_false]
      obtain ⟨later, member, stored⟩ | ⟨kept, never⟩ := ih c out
      · exact .inl ⟨later, mem_cons_of_mem _ member, stored⟩
      · refine .inr ⟨kept, forall_mem_cons.mpr ⟨?_, never⟩⟩
        intro recs nextOff other
        rw [ended] at other
        cases other

/-- A loop that does not fail returns the records of the fetches that it gets through. -/
theorem pollLoop_returns (work : List PartitionWork) (c : Consumer) {out returned : List PolledRecord}
    (finished : (pollLoop answer work c out).2 = .ok returned) :
    returned = out ++ (passed answer work).flatMap fun pw => (outcome answer pw).recs := by
  induction work generalizing c out with
  | nil =>
    cases finished
    simp [passed]
  | cons pw rest ih =>
    rw [pollLoop_cons] at finished
    rw [passed_cons]
    cases ended : outcome answer pw with
    | late =>
      rw [ended] at finished
      cases finished
      simp [Outcome.stops]
    | stored recs nextOff =>
      rw [ended] at finished
      simpa [Outcome.stops, Outcome.recs, ended] using ih _ finished
    | skipped =>
      rw [ended] at finished
      simpa [Outcome.stops, Outcome.recs, ended] using ih _ finished
    | failed failure =>
      rw [ended] at finished
      cases finished

theorem mem_pollWork (member : pw ∈ c.pollWork) : pw.off = c.fetchOffset pw.tp := by
  obtain ⟨tp, _, rfl⟩ := mem_map.mp member
  rfl

theorem mem_passed (member : pw ∈ passed answer work) : pw ∈ work := takeWhile_subset _ member

/-- The position behind a poll is the one that the fetch of the partition was answered with. -/
theorem poll_fetchOffset (member : pw ∈ passed answer c.pollWork) {recs : List PolledRecord} {nextOff : Int}
    (ended : outcome answer pw = .stored recs nextOff) : (c.poll answer).1.fetchOffset pw.tp = nextOff := by
  obtain ⟨other, found, _, _, also, same, stored⟩ | ⟨_, never⟩ := @pollLoop_stores answer c.pollWork c [] pw.tp
  · have offsets : other.off = pw.off := by
      rw [mem_pollWork (mem_passed found), mem_pollWork (mem_passed member), same]
    have works : other = pw := by
      cases other
      cases pw
      cases same
      cases offsets
      rfl
    rw [works, ended] at also
    cases also
    exact stored
  · exact absurd rfl (never pw member recs nextOff ended)

/-- A poll that moves no position is repeated by the next one, and a commit behind it sends the same positions. -/
theorem poll_again (unmoved : ∀ tp, (c.poll answer).1.fetchOffset tp = c.fetchOffset tp) :
    (c.poll answer).1.pollWork = c.pollWork ∧ ∀ rpcs, (c.poll answer).1.commit rpcs = c.commit rpcs := by
  obtain ⟨offsets, same⟩ := @pollLoop_same answer c.pollWork c []
  change (c.poll answer).1 = _ at same
  rw [same] at unmoved ⊢
  have everywhere : fetchOffset { c with fetchOffsets := offsets } = c.fetchOffset := funext unmoved
  constructor
  · show c.soughtPartitions.map
      (fun tp => PartitionWork.mk tp (fetchOffset { c with fetchOffsets := offsets } tp)) = _
    rw [everywhere]
    rfl
  · intro rpcs
    have positions : positions { c with fetchOffsets := offsets } = c.positions := by
      unfold positions
      rw [everywhere]
    unfold commit
    rw [positions]
    rfl

end

/-- A poll keeps what it does not return exactly when no failure comes behind a fetch with a new offset. -/
theorem poll_keeps_unreceived_iff (answer : FetchAnswers) (c : Consumer) :
    KeepsUnreceived answer c ↔ StoppedInPlace answer c.pollWork := by
  constructor
  · intro keeps pw failure first failed earlier member recs nextOff ended
    have unmoved := keeps.unmoved failure ((pollLoop_fails_iff _ c [] failure).mpr ⟨pw, first, failed⟩) earlier.tp
    rw [← poll_fetchOffset member ended, unmoved, mem_pollWork (mem_passed member)]
  · intro still
    have unmoved (failure : FetchError) (failed : (c.poll answer).2 = .error failure) (tp : TP) :
        (c.poll answer).1.fetchOffset tp = c.fetchOffset tp := by
      obtain ⟨pw, first, stops⟩ := (pollLoop_fails_iff _ c [] failure).mp failed
      obtain ⟨earlier, member, recs, nextOff, ended, rfl, stored⟩ | ⟨kept, _⟩ :=
        @pollLoop_stores answer c.pollWork c [] tp
      · rw [← mem_pollWork (mem_passed member), ← still pw failure first stops earlier member recs nextOff ended]
        exact stored
      · exact kept
    refine ⟨?_, unmoved, fun failure failed => poll_again (unmoved failure failed)⟩
    intro stored truthful tp record held behind before
    cases result : (c.poll answer).2 with
    | error failure =>
      rw [unmoved failure result] at before
      omega
    | ok out =>
      refine ⟨out, rfl, ?_⟩
      obtain ⟨pw, member, recs, nextOff, ended, rfl, moved⟩ | ⟨kept, _⟩ := @pollLoop_stores answer c.pollWork c [] tp
      · have returned : out = [] ++ (passed answer c.pollWork).flatMap fun pw => (outcome answer pw).recs :=
          pollLoop_returns _ _ result
        have found : record ∈ recs := by
          refine truthful pw recs nextOff ended record held ?_ ?_
          · rw [mem_pollWork (mem_passed member)]
            exact behind
          · rw [← moved]
            exact before
        rw [returned, nil_append]
        exact mem_flatMap.mpr ⟨pw, member, by rw [ended]; exact found⟩
      · have same : (c.poll answer).1.fetchOffset tp = c.fetchOffset tp := kept
        omega

/-- A consumer of two partitions that has read nothing yet. -/
def readingBoth : Consumer where
  config := ⟨["a:1"], "billing", 0, 0, .earliest, 0, 5000⟩
  knownAddrs := ["a:1"]
  fetchOffsets := ((∅ : KeyMap TP Int).insert ⟨"orders", 0⟩ 0).insert ⟨"orders", 1⟩ 0
  soughtPartitions := [⟨"orders", 0⟩, ⟨"orders", 1⟩]
  subscribedTopics := ["orders"]
  memberID := "m"
  generationID := 1
  coordAddr := "a:1"
  assignedPartitions := [⟨"orders", 0⟩, ⟨"orders", 1⟩]
  rebalancing := false

/-- The first partition answers with a record, and the bytes of the second are damaged. -/
def damagedAnswer (pw : PartitionWork) : Option (Except RpcError FetchResponse) :=
  if pw.tp.partitionID = 0 then some (.ok ⟨batchBytes 0 [⟨7, none, [1], []⟩], 1⟩) else some (.ok ⟨[1], 1⟩)

def skippedRecord : PolledRecord := ⟨⟨0, none, [1], ∅, 7⟩, "orders", 0⟩

/-- The damaged second partition makes the poll fail behind the first one, whose record is never returned, and a
commit sends the position behind it. -/
theorem failed_poll_skips_record :
    (readingBoth.poll damagedAnswer).2 = .error (.decode (.error "decode batch at byte 0: batch too short")) ∧
      (fetchPartition (.ok ⟨batchBytes 0 [⟨7, none, [1], []⟩], 1⟩) ⟨"orders", 0⟩).toOption = some ([skippedRecord], 1) ∧
      (readingBoth.poll damagedAnswer).1.positions.lookup ⟨"orders", 0⟩ = some 1 ∧
      ¬ KeepsUnreceived damagedAnswer readingBoth := by
  refine ⟨by decide +kernel, by decide +kernel, by decide +kernel, ?_⟩
  intro keeps
  have moved : (readingBoth.poll damagedAnswer).1.fetchOffset ⟨"orders", 0⟩ ≠
      readingBoth.fetchOffset ⟨"orders", 0⟩ := by
    decide +kernel
  exact moved (keeps.unmoved (.decode (.error "decode batch at byte 0: batch too short")) (by decide +kernel)
    ⟨"orders", 0⟩)

end BunnyMQ.Client
