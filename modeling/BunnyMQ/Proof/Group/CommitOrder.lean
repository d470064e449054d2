/-
This file shows when the stored offsets of a group are the greatest ones among its commits.
-/

import BunnyMQ.Proof.Group.Commands
import Mathlib.Order.Bounds.Basic

namespace BunnyMQ.Group
open Foundation Metadata MetadataState List

def applyCommits (groupID : String) (state : MetadataState) (applied : List (KeyMap TopicPartition Int)) :
    MetadataState :=
  applied.foldl (fun state offsets => (state.update (.commitConsumerOffset ⟨groupID, [], some offsets⟩)).1) state

/-- The offset in the last commit that names the partition. -/
def lastCommitted (applied : List (KeyMap TopicPartition Int)) (tp : TopicPartition) : Option Int :=
  applied.reverse.findSome? fun offsets => offsets.lookup tp

/-- The offsets with which the commits name the partition. -/
def committedOffsets (issued : List (KeyMap TopicPartition Int)) (tp : TopicPartition) : Set Int :=
  {offset | ∃ offsets ∈ issued, offsets.lookup tp = some offset}

/-- Every partition that a commit names is stored with the greatest of its offsets. -/
def TakesMaximum (groupID : String) (issued : List (KeyMap TopicPartition Int)) (state : MetadataState) : Prop :=
  ∀ tp, (committedOffsets issued tp).Nonempty → ∃ offset,
    ((state.getGroupState groupID).bind fun group => group.offsets.lookup tp) = some offset ∧
      IsGreatest (committedOffsets issued tp) offset

section
variable {state : MetadataState} {groupID : String} {group : GroupState} {tp : TopicPartition}

section
variable (found : state.getGroupState groupID = some group)
include found

/-- A commit lays its offsets over those of the group, also when its map is empty and gets lost. -/
theorem update_commit_offsets (offsets : KeyMap TopicPartition Int) :
    (state.update (.commitConsumerOffset ⟨groupID, [], some offsets⟩)).1.getGroupState groupID =
      some { group with offsets := offsets ∪ group.offsets } := by
  have stored : state.groupStates.lookup groupID = some group := found
  simp only [update, MetadataCommand.roundTrip, applyCommand,
    applyCommitConsumerOffset]
  by_cases empty : offsets = ∅
  · rw [empty, omitEmpty, Option.filter_some, if_neg (by simp), Finmap.empty_union]
    simp only
    cases state.groups.lookup groupID with
    | none => exact stored
    | some group => exact stored
  · rw [omitEmpty, Option.filter_some, if_pos (by simpa using empty)]
    simp only [applyGroupStateCommitOffset, stored]
    exact Finmap.lookup_insert _

theorem applyCommits_offsets (applied : List (KeyMap TopicPartition Int)) :
    (applyCommits groupID state applied).getGroupState groupID =
      some { group with offsets := applied.foldl (fun entries offsets => offsets ∪ entries) group.offsets } := by
  induction applied generalizing state group with
  | nil => exact found
  | cons offsets rest ih => exact ih (update_commit_offsets found offsets)

/-- The stored offset is the one of the last commit that names the partition. -/
theorem applyCommits_lookup (applied : List (KeyMap TopicPartition Int)) (tp : TopicPartition) :
    (((applyCommits groupID state applied).getGroupState groupID).bind fun group => group.offsets.lookup tp) =
      (lastCommitted applied tp).or (group.offsets.lookup tp) := by
  rw [applyCommits_offsets found, Option.bind_some]
  exact KeyMap.lookup_foldl_union applied group.offsets tp

end

theorem lastCommitted_mem {applied : List (KeyMap TopicPartition Int)} {offset : Int}
    (last : lastCommitted applied tp = some offset) : offset ∈ committedOffsets applied tp := by
  obtain ⟨offsets, member, named⟩ := exists_of_findSome?_eq_some last
  exact ⟨offsets, mem_reverse.mp member, named⟩

theorem lastCommitted_isSome {applied : List (KeyMap TopicPartition Int)}
    (named : (committedOffsets applied tp).Nonempty) : ∃ offset, lastCommitted applied tp = some offset := by
  obtain ⟨offset, offsets, member, stored⟩ := named
  cases last : lastCommitted applied tp with
  | some offset => exact ⟨offset, rfl⟩
  | none =>
    have unnamed := findSome?_eq_none_iff.mp last offsets (mem_reverse.mpr member)
    rw [stored] at unnamed
    cases unnamed

end

/-- Commits that are applied in any order and any number of times leave the greatest offsets exactly when the last
commit that names a partition carries the greatest one. -/
theorem committed_offsets_maximal_iff (state : MetadataState) (groupID : String)
    (present : (state.getGroupState groupID).isSome) (issued applied : List (KeyMap TopicPartition Int))
    (same : ∀ offsets, offsets ∈ applied ↔ offsets ∈ issued) :
    TakesMaximum groupID issued (applyCommits groupID state applied) ↔
      ∀ tp offset, lastCommitted applied tp = some offset → ∀ other ∈ committedOffsets issued tp, other ≤ offset := by
  obtain ⟨group, found⟩ := Option.isSome_iff_exists.mp present
  have sets (tp : TopicPartition) : committedOffsets applied tp = committedOffsets issued tp := by
    ext offset
    exact exists_congr fun offsets => and_congr_left fun _ => same offsets
  constructor
  · intro maximal tp offset last other member
    obtain ⟨stored, held, greatest⟩ := maximal tp ⟨other, member⟩
    rw [applyCommits_lookup found, last] at held
    cases held
    exact greatest.2 member
  · intro carries tp named
    obtain ⟨offset, last⟩ := lastCommitted_isSome (sets tp ▸ named)
    refine ⟨offset, ?_, ?_, ?_⟩
    · rw [applyCommits_lookup found, last]
      rfl
    · rw [← sets tp]
      exact lastCommitted_mem last
    · exact carries tp offset last

/-- A group without offsets. -/
def commitState : MetadataState :=
  { initial with
    groupStates := (∅ : KeyMap String GroupState).insert "billing" ⟨"billing", ∅, 1, ∅, ∅⟩ }

def commitAt (offset : Int) : KeyMap TopicPartition Int := (∅ : KeyMap TopicPartition Int).insert ⟨"orders", 0⟩ offset

theorem lookup_commitAt (offset : Int) (tp : TopicPartition) :
    (commitAt offset).lookup tp = if tp = ⟨"orders", 0⟩ then some offset else none := by
  unfold commitAt
  by_cases same : tp = ⟨"orders", 0⟩
  · rw [if_pos same, same, Finmap.lookup_insert]
  · rw [if_neg same, Finmap.lookup_insert_of_ne _ same, Finmap.lookup_empty]

/-- Commits in order leave their maximum, also with a repeated one. -/
theorem committed_offsets_maximal_in_order :
    (commitState.getGroupState "billing").isSome ∧ TakesMaximum "billing" [commitAt 5, commitAt 9]
      (applyCommits "billing" commitState [commitAt 5, commitAt 5, commitAt 9]) := by
  have present : (commitState.getGroupState "billing").isSome := by decide +kernel
  refine ⟨present, (committed_offsets_maximal_iff commitState "billing" present _ _ ?_).mpr ?_⟩
  · intro offsets
    simp
  · intro tp offset last other member
    obtain ⟨offsets, listed, named⟩ := member
    simp only [lastCommitted, reverse_cons, reverse_nil, nil_append, cons_append,
      findSome?_cons, lookup_commitAt] at last
    by_cases same : tp = ⟨"orders", 0⟩
    · rw [if_pos same] at last
      cases last
      simp only [mem_cons, not_mem_nil, or_false] at listed
      rcases listed with rfl | rfl
      · rw [lookup_commitAt, if_pos same] at named
        cases named
        decide
      · rw [lookup_commitAt, if_pos same] at named
        cases named
        decide
    · simp [same] at last

/-- Two commits with growing offsets that are applied in the other order leave the smaller offset. -/
theorem delayed_commit_moves_back :
    [commitAt 5, commitAt 9].Pairwise
      (fun first second => ∀ tp, ∀ earlier ∈ first.lookup tp, ∀ later ∈ second.lookup tp, earlier ≤ later) ∧
      (((applyCommits "billing" commitState [commitAt 9, commitAt 5]).getGroupState "billing").bind fun group =>
        group.offsets.lookup ⟨"orders", 0⟩) = some 5 ∧
      ¬ TakesMaximum "billing" [commitAt 5, commitAt 9]
        (applyCommits "billing" commitState [commitAt 9, commitAt 5]) := by
  have stored : (((applyCommits "billing" commitState [commitAt 9, commitAt 5]).getGroupState
      "billing").bind fun group => group.offsets.lookup ⟨"orders", 0⟩) = some 5 := by decide +kernel
  refine ⟨?_, stored, ?_⟩
  · refine pairwise_pair.mpr fun tp earlier first later second => ?_
    rw [lookup_commitAt] at first second
    by_cases same : tp = ⟨"orders", 0⟩
    · rw [if_pos same] at first second
      cases first
      cases second
      decide
    · rw [if_neg same] at first
      cases first
  · intro maximal
    have nine : (9 : Int) ∈ committedOffsets [commitAt 5, commitAt 9] ⟨"orders", 0⟩ :=
      ⟨commitAt 9, mem_cons_of_mem _ mem_cons_self, by decide +kernel⟩
    obtain ⟨offset, held, greatest⟩ := maximal ⟨"orders", 0⟩ ⟨9, nine⟩
    rw [stored] at held
    cases held
    exact absurd (greatest.2 nine) (by decide)

end BunnyMQ.Group
