/-
This file shows after which failures of its calls a rebalance heals.
-/

import BunnyMQ.Proof.Client.Positions

namespace BunnyMQ.Client
open Foundation BunnyMQ.Group Consumer

/-- The answers to the calls of one rebalance, and the generation of the group when it returns. -/
structure Attempt where
  rpcs : Rpcs
  generation : Int

namespace Attempt

/-- The answer to the join of this attempt. -/
def answer (a : Attempt) (c : Consumer) : Except RpcError JoinGroupResponse :=
  (c.clearPositions.requestJoin a.rpcs c.subscribedTopics).2

/-- The consumer that has stored the answer. -/
def joined (a : Attempt) (c : Consumer) (resp : JoinGroupResponse) : Consumer :=
  (c.clearPositions.requestJoin a.rpcs c.subscribedTopics).1.storeJoin resp

/-- The offset at which this attempt starts a partition without a saved position. -/
def start (a : Attempt) (c : Consumer) (resp : JoinGroupResponse) : TP → Except RpcError Int :=
  (a.joined c resp).startOf a.rpcs

/-- The consumer joins and commits what it has saved. -/
def Succeeds (a : Attempt) (c : Consumer) : Prop :=
  let join := c.clearPositions.joinGroup a.rpcs c.subscribedTopics
  let offsets := toCommit c.fetchOffsets join.1.assignedPartitions
  join.2 = none ∧ (visit offsets = [] ∨ join.1.commitOffsets a.rpcs offsets = none)

/-- Every partition of the answer gets its start. -/
def Starts (a : Attempt) (c : Consumer) (resp : JoinGroupResponse) : Prop :=
  ∀ tp ∈ protoToTP resp.assignments, ∃ offset, a.start c resp tp = .ok offset

/-- The commit of the saved positions is answered, or there is nothing to commit. -/
def Commits (a : Attempt) (c : Consumer) (resp : JoinGroupResponse) : Prop :=
  let offsets := toCommit c.fetchOffsets (protoToTP resp.assignments)
  visit offsets = [] ∨ (a.joined c resp).commitOffsets a.rpcs offsets = none

/-- The join is refused, or one of its partitions gets no start. -/
def Refused (a : Attempt) (c : Consumer) : Prop := ∀ resp, a.answer c = .ok resp → ¬ a.Starts c resp

/-- The starts of the partitions in front of the first one that gets none. -/
def given (start : TP → Except RpcError Int) : List TP → List (TP × Int)
  | [] => []
  | tp :: rest =>
    match start tp with
    | .error _ => []
    | .ok offset => (tp, offset) :: given start rest

/-- What the answers to a failed attempt leave. A refused join keeps the old assignment without a position, and an
answered one has the positions that were given behind it. -/
def heard (a : Attempt) (c : Consumer) : Consumer :=
  match a.answer c with
  | .error _ => { (c.clearPositions.requestJoin a.rpcs c.subscribedTopics).1 with rebalancing := false }
  | .ok resp =>
    { (given (a.start c resp) (protoToTP resp.assignments)).foldl (fun c entry => c.seek entry.1 entry.2)
        (a.joined c resp) with rebalancing := false }

/-- An unanswered join leaves a stale generation or nothing to poll. Behind an answered one every partition gets its
start or the group moves on, and a partition with a held position starts there. -/
def Heals (last : Attempt) (c : Consumer) (held : KeyMap TP Int) : Prop :=
  match last.answer c with
  | .error _ => c.assignedPartitions = [] ∨ c.generationID ≠ last.generation
  | .ok resp =>
    (last.Starts c resp ∨ resp.generationID ≠ last.generation) ∧
    (last.Starts c resp ∧ last.Commits c resp → ∀ tp ∈ protoToTP resp.assignments, ∀ position,
      held.lookup tp = some position → c.fetchOffsets.lookup tp = some position ∨
        c.fetchOffsets.lookup tp = none ∧ last.start c resp tp = .ok position)

end Attempt

/-- After a rebalance every assigned partition is polled or the generation of the consumer is not that of the group.
When it succeeds, the positions held before the failed attempts are there again. -/
def Resumes (last : Attempt) (before : Consumer) (held : KeyMap TP Int) : Prop :=
  let after := before.rebalance last.rpcs
  (after.Covered ∨ after.generationID ≠ last.generation) ∧
    (last.Succeeds before → ∀ tp position, held.lookup tp = some position → tp ∈ after.assignedPartitions →
      after.fetchOffsets.lookup tp = some position)

/-- The answers to all these attempts make them fail. -/
def AllRefused : Consumer → List Attempt → Prop
  | _, [] => True
  | c, a :: rest => a.Refused c ∧ AllRefused (a.heard c) rest

/-- The last attempt heals what the answers to the failed ones have left. -/
def Recoverable (c : Consumer) (failed : List Attempt) (last : Attempt) : Prop :=
  AllRefused c failed → last.Heals (failed.foldl (fun c a => a.heard c) c) c.fetchOffsets

section
variable {a : Attempt} {c : Consumer} {resp : JoinGroupResponse}

/-- The positions behind the loop over the assigned partitions. -/
def Attempt.sought (a : Attempt) (c : Consumer) (resp : JoinGroupResponse) : Consumer × Option RpcError :=
  seekAll (a.start c resp) (protoToTP resp.assignments) (a.joined c resp)

theorem sought_same : SameBut (a.joined c resp) (a.sought c resp).1 := seekAll_same _ _ _

theorem joinGroup_answered (answered : a.answer c = .ok resp) :
    c.clearPositions.joinGroup a.rpcs c.subscribedTopics = a.sought c resp := joinGroup_ok answered

/-- Committed positions replace the start offsets. -/
theorem lookup_commitSaved {rpcs : Rpcs} {saved : KeyMap TP Int}
    (committed : visit (toCommit saved c.assignedPartitions) = [] ∨
      c.commitOffsets rpcs (toCommit saved c.assignedPartitions) = none) (tp : TP) :
    (commitSaved rpcs saved c).fetchOffsets.lookup tp =
      ((toCommit saved c.assignedPartitions).lookup tp).or (c.fetchOffsets.lookup tp) := by
  unfold commitSaved
  simp only
  split
  · next some =>
    have accepted := committed.resolve_left (by
      intro none
      rw [none] at some
      exact Nat.lt_irrefl _ some)
    rw [accepted]
    exact lookup_seekCommitted _ c tp
  · next none =>
    have absent : tp ∉ toCommit saved c.assignedPartitions := by
      rw [← mem_visit, List.length_eq_zero_iff.mp (Nat.eq_zero_of_not_pos none)]
      exact List.not_mem_nil
    rw [Finmap.lookup_eq_none.mpr absent, Option.none_or]

section
variable (answered : a.answer c = .ok resp)
include answered

theorem rebalance_finished (finished : (a.sought c resp).2 = none) :
    c.rebalance a.rpcs = { commitSaved a.rpcs c.fetchOffsets (a.sought c resp).1 with rebalancing := false } := by
  rw [Consumer.rebalance, joinGroup_answered answered]
  simp only
  rw [← @Prod.mk.eta _ _ (a.sought c resp), finished]

/-- A successful attempt resumes at the saved positions and at the start offsets of the other partitions. -/
theorem rebalance_lookup (succeeds : a.Succeeds c) {tp : TP} (member : tp ∈ protoToTP resp.assignments) :
    (c.rebalance a.rpcs).fetchOffsets.lookup tp = (c.fetchOffsets.lookup tp).or (a.start c resp tp).toOption := by
  obtain ⟨finished, committed⟩ := succeeds
  rw [joinGroup_answered answered] at finished committed
  have assigned : (a.sought c resp).1.assignedPartitions = protoToTP resp.assignments := by
    obtain ⟨_, _, final⟩ := @sought_same a c resp
    rw [final]
    rfl
  have started := seekAll_lookup finished tp
  rw [if_pos member] at started
  obtain ⟨offset, start, stored⟩ := started
  rw [rebalance_finished answered finished]
  change (commitSaved a.rpcs c.fetchOffsets (a.sought c resp).1).fetchOffsets.lookup tp = _
  rw [lookup_commitSaved committed, assigned, lookup_toCommit, if_pos member, start]
  exact congrArg _ stored

end

end

end BunnyMQ.Client
