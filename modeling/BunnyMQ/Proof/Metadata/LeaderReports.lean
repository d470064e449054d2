/-
This file shows that the reports of partition leaders merge in any order and with any repetition.
-/

import BunnyMQ.Library.Latest
import BunnyMQ.Proof.Metadata.Structure
import Mathlib.Data.Finset.Max

namespace BunnyMQ.Metadata
open Foundation Latest MetadataCommand

def AssignPartitionLeaderCmd.key (cmd : AssignPartitionLeaderCmd) : PartitionKey := ⟨cmd.topic, cmd.partitionID⟩

/-- The reported leader with the epoch as its stamp. -/
def AssignPartitionLeaderCmd.leader (cmd : AssignPartitionLeaderCmd) : Int × Nat := (cmd.leaderEpoch, cmd.leaderNodeID)

def PartitionMeta.leader (pm : PartitionMeta) : Int × Nat := (pm.leaderEpoch, pm.leaderNodeID)

def PartitionMeta.withLeader (pm : PartitionMeta) (leader : Int × Nat) : PartitionMeta :=
  { pm with leaderNodeID := leader.2, leaderEpoch := leader.1 }

@[simp] theorem PartitionMeta.withLeader_self (pm : PartitionMeta) : pm.withLeader pm.leader = pm := rfl

@[simp] theorem PartitionMeta.leader_withLeader (pm : PartitionMeta) (leader : Int × Nat) :
    (pm.withLeader leader).leader = leader := rfl

@[simp] theorem PartitionMeta.withLeader_withLeader (pm : PartitionMeta) (first second : Int × Nat) :
    (pm.withLeader first).withLeader second = pm.withLeader second := rfl

/-- The leaders that a list of commands reports for one partition. -/
def reportedTo (key : PartitionKey) : List MetadataCommand → List (Int × Nat)
  | [] => []
  | .assignPartitionLeader cmd :: rest =>
    if cmd.key = key then cmd.leader :: reportedTo key rest else reportedTo key rest
  | _ :: rest => reportedTo key rest

section
variable {state : MetadataState} {key : PartitionKey}

/-- The reported leaders are those of the commands for the partition. -/
theorem mem_reportedTo {commands : List MetadataCommand} {leader : Int × Nat} :
    leader ∈ reportedTo key commands ↔
      ∃ cmd, .assignPartitionLeader cmd ∈ commands ∧ cmd.key = key ∧ cmd.leader = leader := by
  induction commands with
  | nil => simp [reportedTo]
  | cons command rest ih =>
    cases command with
    | assignPartitionLeader cmd =>
      by_cases here : cmd.key = key
      · simp only [reportedTo, if_pos here, List.mem_cons, ih, assignPartitionLeader.injEq]
        constructor
        · rintro (rfl | ⟨other, member, same, stamp⟩)
          · exact ⟨cmd, .inl rfl, here, rfl⟩
          · exact ⟨other, .inr member, same, stamp⟩
        · rintro ⟨other, rfl | member, same, stamp⟩
          · exact .inl stamp.symm
          · exact .inr ⟨other, member, same, stamp⟩
      · simp only [reportedTo, if_neg here, List.mem_cons, ih, assignPartitionLeader.injEq]
        constructor
        · rintro ⟨other, member, same, stamp⟩
          exact ⟨other, .inr member, same, stamp⟩
        · rintro ⟨other, rfl | member, same, stamp⟩
          · exact absurd same here
          · exact ⟨other, member, same, stamp⟩
    | _ => simp [reportedTo, ih]

/-- One report changes the leader of its partition, and only to a greater epoch. -/
theorem report_lookup (cmd : AssignPartitionLeaderCmd) :
    (state.update (.assignPartitionLeader cmd)).1.partitions.lookup key =
      (state.partitions.lookup key).map fun pm =>
        if cmd.key = key then pm.withLeader (take pm.leader cmd.leader) else pm := by
  change (state.applyAssignPartitionLeader cmd).1.partitions.lookup key = _
  unfold MetadataState.applyAssignPartitionLeader
  by_cases here : cmd.key = key
  · subst here
    cases found : state.partitions.lookup ⟨cmd.topic, cmd.partitionID⟩ with
    | none =>
      change state.partitions.lookup cmd.key = none at found
      rw [found]
      rfl
    | some pm =>
      change state.partitions.lookup cmd.key = some pm at found
      rw [found]
      by_cases older : cmd.leaderEpoch ≤ pm.leaderEpoch
      · have kept : take pm.leader cmd.leader = pm.leader := if_pos older
        simp only [if_pos older, Option.map_some, if_true, kept, PartitionMeta.withLeader_self]
        exact found
      · have taken : take pm.leader cmd.leader = cmd.leader := if_neg older
        simp only [if_neg older, Option.map_some, if_true, taken]
        exact Finmap.lookup_insert _
  · simp only [if_neg here, Option.map_id']
    split
    · rfl
    split
    · rfl
    exact Finmap.lookup_insert_of_ne _ (Ne.symm here)

/-- One report changes nothing but the partitions. -/
theorem report_frame (cmd : AssignPartitionLeaderCmd) :
    (state.update (.assignPartitionLeader cmd)).1 =
      { state with partitions := (state.update (.assignPartitionLeader cmd)).1.partitions } := by
  obtain ⟨_, same⟩ := update_frame state (.assignPartitionLeader cmd)
  rw [same]

/-- A command that neither reports a leader nor touches a topic leaves the partitions alone. -/
theorem update_partitions_other {command : MetadataCommand} (kept : command.reshapes = false)
    (silent : ∀ cmd, command ≠ .assignPartitionLeader cmd) :
    (state.update command).1.partitions = state.partitions := by
  have frame := update_frame state command
  cases command with
  | createTopic cmd | deleteTopic cmd | alterTopicPartCount cmd => cases kept
  | assignPartitionLeader cmd => exact absurd rfl (silent cmd)
  | alterTopicRetention cmd | registerNode cmd =>
    obtain ⟨_, same⟩ := frame
    rw [same]
  | _ =>
    obtain ⟨_, _, same⟩ := frame
    rw [same]

/-- The partitions behind a run of commands hold the latest of the leaders that were reported to them. -/
theorem updateAll_lookup {commands : List MetadataCommand} (kept : ∀ command ∈ commands, command.reshapes = false) :
    (state.updateAll commands).partitions.lookup key =
      (state.partitions.lookup key).map fun pm => pm.withLeader ((reportedTo key commands).foldl take pm.leader) := by
  -- The induction keeps the state general, since every command starts from the state that the one before has left.
  induction commands generalizing state with
  | nil =>
    simp only [reportedTo, List.foldl_nil, PartitionMeta.withLeader_self, Option.map_id']
    rfl
  | cons command rest ih =>
    change ((state.update command).1.updateAll rest).partitions.lookup key = _
    rw [ih fun other member => kept other (List.mem_cons_of_mem _ member)]
    by_cases report : ∃ cmd, command = .assignPartitionLeader cmd
    · obtain ⟨cmd, rfl⟩ := report
      rw [report_lookup, Option.map_map]
      congr 1
      funext pm
      by_cases here : cmd.key = key
      · simp [reportedTo, here]
      · simp [reportedTo, here]
    · have silent : ∀ cmd, command ≠ .assignPartitionLeader cmd := fun cmd same => report ⟨cmd, same⟩
      have skipped : reportedTo key (command :: rest) = reportedTo key rest := by
        cases command with
        | assignPartitionLeader cmd => exact absurd rfl (silent cmd)
        | _ => rfl
      rw [update_partitions_other (kept command List.mem_cons_self) silent, skipped]

theorem updateAll_frame (applied : List AssignPartitionLeaderCmd) :
    state.updateAll (applied.map .assignPartitionLeader) =
      { state with partitions := (state.updateAll (applied.map .assignPartitionLeader)).partitions } := by
  induction applied generalizing state with
  | nil => rfl
  | cons cmd rest ih =>
    change (state.update (.assignPartitionLeader cmd)).1.updateAll (rest.map .assignPartitionLeader) =
      { state with
        partitions := ((state.update (.assignPartitionLeader cmd)).1.updateAll
          (rest.map .assignPartitionLeader)).partitions }
    rw [ih, report_frame]

end

/-- Two reports about one partition and one epoch name one leader. -/
def ElectionSafe (reports : Finset AssignPartitionLeaderCmd) : Prop :=
  ∀ first ∈ reports, ∀ second ∈ reports, first.key = second.key → first.leaderEpoch = second.leaderEpoch →
    first.leaderNodeID = second.leaderNodeID

/-- Each partition has the reported leader with the greatest epoch if this exceeds its own epoch. -/
structure Merged (reports : Finset AssignPartitionLeaderCmd)
    (before after : KeyMap PartitionKey PartitionMeta) : Prop where
  missing : ∀ key, before.lookup key = none → after.lookup key = none
  kept : ∀ key pm, before.lookup key = some pm →
    (∀ cmd ∈ reports, cmd.key = key → cmd.leaderEpoch ≤ pm.leaderEpoch) → after.lookup key = some pm
  greatest : ∀ key pm, before.lookup key = some pm → ∀ cmd ∈ reports, cmd.key = key →
    pm.leaderEpoch < cmd.leaderEpoch →
    (∀ other ∈ reports, other.key = key → other.leaderEpoch ≤ cmd.leaderEpoch) →
    after.lookup key = some { pm with leaderNodeID := cmd.leaderNodeID, leaderEpoch := cmd.leaderEpoch }

section
variable {reports : Finset AssignPartitionLeaderCmd} {before first second : KeyMap PartitionKey PartitionMeta}

/-- The set of the reports alone determines what they merge to. -/
theorem Merged.unique (one : Merged reports before first) (two : Merged reports before second) : first = second := by
  apply Finmap.ext_lookup
  intro key
  cases found : before.lookup key with
  | none => rw [one.missing key found, two.missing key found]
  | some pm =>
    by_cases exceeded : ∃ cmd ∈ reports, cmd.key = key ∧ pm.leaderEpoch < cmd.leaderEpoch
    · obtain ⟨some, member, here, above⟩ := exceeded
      obtain ⟨cmd, within, greatest⟩ := (reports.filter fun cmd => cmd.key = key).exists_max_image
        AssignPartitionLeaderCmd.leaderEpoch ⟨some, Finset.mem_filter.mpr ⟨member, here⟩⟩
      obtain ⟨member', here'⟩ := Finset.mem_filter.mp within
      have bound : ∀ other ∈ reports, other.key = key → other.leaderEpoch ≤ cmd.leaderEpoch :=
        fun other member same => greatest other (Finset.mem_filter.mpr ⟨member, same⟩)
      have above' : pm.leaderEpoch < cmd.leaderEpoch := above.trans_le (bound some member here)
      rw [one.greatest key pm found cmd member' here' above' bound,
        two.greatest key pm found cmd member' here' above' bound]
    · have bound : ∀ cmd ∈ reports, cmd.key = key → cmd.leaderEpoch ≤ pm.leaderEpoch :=
        fun cmd member here => not_lt.mp fun above => exceeded ⟨cmd, member, here, above⟩
      rw [one.kept key pm found bound, two.kept key pm found bound]

/-- Any run that holds exactly the reports of the set among commands about other things merges the set. -/
theorem updateAll_merged {state : MetadataState} (safe : ElectionSafe reports) {commands : List MetadataCommand}
    (kept : ∀ command ∈ commands, command.reshapes = false)
    (same : ∀ cmd, .assignPartitionLeader cmd ∈ commands ↔ cmd ∈ reports) :
    Merged reports state.partitions (state.updateAll commands).partitions := by
  have latest (key : PartitionKey) (pm : PartitionMeta) := foldl_take_isLatest (reportedTo key commands) pm.leader
  have stored {key : PartitionKey} {pm : PartitionMeta} (found : state.partitions.lookup key = some pm) :
      (state.updateAll commands).partitions.lookup key =
        some (pm.withLeader ((reportedTo key commands).foldl take pm.leader)) := by
    rw [updateAll_lookup kept, found]
    rfl
  have reported {key : PartitionKey} {cmd : AssignPartitionLeaderCmd} (member : cmd ∈ reports) (here : cmd.key = key) :
      cmd.leader ∈ reportedTo key commands := mem_reportedTo.mpr ⟨cmd, (same cmd).mpr member, here, rfl⟩
  refine ⟨fun key absent => ?_, fun key pm found bound => ?_, fun key pm found cmd member here above bound => ?_⟩
  · rw [updateAll_lookup kept, absent]
    rfl
  · have held := (latest key pm).eq_first fun leader member => by
      obtain ⟨cmd, within, here, rfl⟩ := mem_reportedTo.mp member
      exact bound cmd ((same cmd).mp within) here
    rw [stored found, held, PartitionMeta.withLeader_self]
  · have functional : ∀ one two, one ∈ reportedTo key commands → two ∈ reportedTo key commands →
        one.1 = two.1 → one = two := by
      intro one two first second epochs
      obtain ⟨left, within, atKey, rfl⟩ := mem_reportedTo.mp first
      obtain ⟨right, also, atKey', rfl⟩ := mem_reportedTo.mp second
      exact Prod.ext epochs (safe left ((same left).mp within) right ((same right).mp also)
        (atKey.trans atKey'.symm) epochs)
    have held := (latest key pm).eq_greatest functional (reported member here) above fun leader within => by
      obtain ⟨other, sent, atKey, rfl⟩ := mem_reportedTo.mp within
      exact bound other ((same other).mp sent) atKey
    rw [stored found, held]
    rfl

end

/-- Reports of leaders that agree on each epoch lead to one state, in whatever order and how often they are applied,
and other commands in between that touch no topic change nothing about the partitions. -/
theorem leader_reports_merge (state : MetadataState) (reports : Finset AssignPartitionLeaderCmd)
    (safe : ElectionSafe reports) :
    ∃ partitions, Merged reports state.partitions partitions ∧
      (∀ applied : List AssignPartitionLeaderCmd, (∀ cmd, cmd ∈ applied ↔ cmd ∈ reports) →
        state.updateAll (applied.map .assignPartitionLeader) = { state with partitions := partitions }) ∧
      ∀ commands : List MetadataCommand, (∀ command ∈ commands, command.reshapes = false) →
        (∀ cmd, .assignPartitionLeader cmd ∈ commands ↔ cmd ∈ reports) →
        (state.updateAll commands).partitions = partitions := by
  have kept (applied : List AssignPartitionLeaderCmd) :
      ∀ command ∈ applied.map assignPartitionLeader, command.reshapes = false := by
    intro command member
    obtain ⟨cmd, _, rfl⟩ := List.mem_map.mp member
    rfl
  have listed {applied : List AssignPartitionLeaderCmd} (same : ∀ cmd, cmd ∈ applied ↔ cmd ∈ reports) :
      ∀ cmd, .assignPartitionLeader cmd ∈ applied.map assignPartitionLeader ↔ cmd ∈ reports := by
    intro cmd
    rw [List.mem_map_of_injective fun _ _ equal => assignPartitionLeader.inj equal]
    exact same cmd
  have merged : Merged reports state.partitions _ :=
    updateAll_merged safe (kept reports.toList) (listed fun _ => Finset.mem_toList)
  refine ⟨_, merged, fun applied same => ?_, fun commands untouched same => ?_⟩
  · rw [updateAll_frame, (updateAll_merged safe (kept applied) (listed same)).unique merged]
  · exact (updateAll_merged safe untouched same).unique merged

/-- Two elections of one partition and one of another. -/
def ordersReports : List AssignPartitionLeaderCmd := [⟨"orders", 0, 1, 1⟩, ⟨"orders", 0, 2, 2⟩, ⟨"orders", 1, 3, 1⟩]

theorem leader_reports_merge_of_orders :
    let state := (MetadataState.initial.update (.createTopic ⟨"orders", 2, 1, 0, 0, 0, [[1], [2]]⟩)).1
    ElectionSafe ordersReports.toFinset ∧
      (∃ partitions, Merged ordersReports.toFinset state.partitions partitions ∧
        (∀ applied : List AssignPartitionLeaderCmd, (∀ cmd, cmd ∈ applied ↔ cmd ∈ ordersReports.toFinset) →
          state.updateAll (applied.map .assignPartitionLeader) = { state with partitions := partitions }) ∧
        ∀ commands : List MetadataCommand, (∀ command ∈ commands, command.reshapes = false) →
          (∀ cmd, .assignPartitionLeader cmd ∈ commands ↔ cmd ∈ ordersReports.toFinset) →
          (state.updateAll commands).partitions = partitions) ∧
      ([0, 1] : List Int).map (fun number => ((state.updateAll
        ((ordersReports.reverse ++ ordersReports).map .assignPartitionLeader)).partitions.lookup ⟨"orders", number⟩).map
          PartitionMeta.leader) = [some (2, 2), some (1, 3)] := by
  have safe : ElectionSafe ordersReports.toFinset := by
    unfold ElectionSafe
    decide
  exact ⟨safe, leader_reports_merge _ _ safe, by decide +kernel⟩

end BunnyMQ.Metadata
