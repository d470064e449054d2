/-
This file describes runs in which group operations read, compute and are applied in any interleaving.
-/

import BunnyMQ.Library.Transition
import BunnyMQ.Proof.Group.Commands

namespace BunnyMQ.Group
open Foundation Metadata Transition

/-- The calls that propose a command for a group. The lists are the orders in which their loops visit a map. -/
inductive Operation where
  | join (visited : List String) (fresh : String) (now : Int) (req : JoinGroupRequest)
  | leave (visited : List String) (memberID : String)
  | evict (visited : List String) (memberID : String) (table : HeartbeatTable) (now : Int)
  | commit (visited : List TopicPartition) (memberID : String) (generationID : Int)
      (offsets : KeyMap TopicPartition Int)
  deriving DecidableEq

/-- An operation reads the state and computes its command. -/
def Operation.command (config : GroupCoordinatorConfig) (groupID : String) (state : MetadataState) :
    Operation → Option MetadataCommand
  | .join visited fresh now req =>
    (joinCommand config (readsOf state) visited fresh now req).toOption.map .joinConsumerGroup
  | .leave visited memberID =>
    (leaveCommand (readsOf state) visited groupID memberID).toOption.map .leaveConsumerGroup
  | .evict visited memberID table now => (state.getGroupState groupID).bind fun group =>
    (sweepMember state.getTopic table now groupID memberID group visited).map .leaveConsumerGroup
  | .commit visited memberID generationID offsets =>
    (commitCommand (readsOf state) visited groupID memberID generationID offsets).toOption.map .commitConsumerOffset

/-- The operation is about this group, and its loops visit every entry once. -/
def Operation.Fits (groupID : String) (state : MetadataState) : Operation → Prop
  | .join visited _ _ req => req.groupID = groupID ∧ Enumerates visited (membersOf (state.getGroupState groupID))
  | .leave visited _ => Enumerates visited (membersOf (state.getGroupState groupID))
  | .evict visited _ _ _ => Enumerates visited (membersOf (state.getGroupState groupID))
  | .commit visited _ _ offsets => visited.Nodup ∧ visited.toFinset = offsets.keys

instance (groupID : String) (state : MetadataState) : (op : Operation) → Decidable (op.Fits groupID state)
  | .join _ _ _ _ => inferInstanceAs (Decidable (_ ∧ _))
  | .leave _ _ => inferInstanceAs (Decidable (Enumerates _ _))
  | .evict _ _ _ _ => inferInstanceAs (Decidable (Enumerates _ _))
  | .commit _ _ _ _ => inferInstanceAs (Decidable (_ ∧ _))

/-- A command on its way, with the group that its operation has read and the number of commands applied by then. -/
structure Pending where
  op : Operation
  command : MetadataCommand
  read : Option GroupState
  since : Nat

/-- A command with the state in which it was applied and its result. -/
structure Applied where
  op : Operation
  command : MetadataCommand
  before : MetadataState
  result : Result

structure GroupRun where
  state : MetadataState
  pending : List Pending
  applied : List Applied

inductive GroupEvent where
  | propose (op : Operation)
  | apply (place : Nat)

def GroupRun.propose (run : GroupRun) (groupID : String) (op : Operation) (command : MetadataCommand) : GroupRun :=
  { run with pending := run.pending ++ [⟨op, command, run.state.getGroupState groupID, run.applied.length⟩] }

def GroupRun.apply (run : GroupRun) (place : Nat) (entry : Pending) : GroupRun where
  state := (run.state.update entry.command).1
  pending := run.pending.eraseIdx place
  applied := run.applied ++ [⟨entry.op, entry.command, run.state, (run.state.update entry.command).2⟩]

/-- Operations propose at any time, and the proposed commands are applied in any order. -/
def GroupRun.step (config : GroupCoordinatorConfig) (groupID : String) (run : GroupRun) : GroupEvent → Option GroupRun
  | .propose op =>
    if op.Fits groupID run.state then (op.command config groupID run.state).map (run.propose groupID op)
    else none
  | .apply place => run.pending[place]?.map (run.apply place)

/-- The partition counts are 32-bit numbers. -/
def WellCounted (topics : KeyMap String TopicMeta) : Prop :=
  ∀ topic tm, topics.lookup topic = some tm → 0 ≤ tm.partitionCount ∧ tm.partitionCount < 2 ^ 31

/-- A run starts before the first member of the group. -/
def groupRuns (config : GroupCoordinatorConfig) (groupID : String) : System GroupRun GroupEvent where
  start run := run.state.getGroupState groupID = none ∧ WellCounted run.state.topics ∧ run.pending = [] ∧
    run.applied = []
  step run event next := run.step config groupID event = some next

section
variable {config : GroupCoordinatorConfig} {groupID : String} {run next : GroupRun}

/-- A step proposes the command of an operation or applies a pending one. -/
theorem GroupRun.step_cases {event : GroupEvent} (stepped : run.step config groupID event = some next) :
    (∃ op command, event = .propose op ∧ op.Fits groupID run.state ∧
        op.command config groupID run.state = some command ∧ next = run.propose groupID op command) ∨
      ∃ place entry, event = .apply place ∧ run.pending[place]? = some entry ∧ next = run.apply place entry := by
  cases event with
  | propose op =>
    rw [GroupRun.step] at stepped
    split at stepped
    · next fits =>
      obtain ⟨command, computed, same⟩ := Option.map_eq_some_iff.mp stepped
      exact .inl ⟨op, command, rfl, fits, computed, same.symm⟩
    · cases stepped
  | apply place =>
    obtain ⟨entry, found, same⟩ := Option.map_eq_some_iff.mp stepped
    exact .inr ⟨place, entry, rfl, found, same.symm⟩

end

/-- A topic with two partitions. -/
def ordersState : MetadataState :=
  (MetadataState.initial.update (.createTopic ⟨"orders", 2, 1, 0, 0, 0, [[1], [1]]⟩)).1

def ordersRun : GroupRun := ⟨ordersState, [], []⟩

theorem ordersState_wellCounted : WellCounted ordersState.topics := by
  intro topic tm found
  have topics : ordersState.topics = (∅ : KeyMap String TopicMeta).insert "orders" ⟨"orders", 2, 1, 0, 0, 0⟩ := by
    decide +kernel
  rw [topics] at found
  by_cases same : topic = "orders"
  · subst same
    rw [Finmap.lookup_insert] at found
    cases found
    decide
  · rw [Finmap.lookup_insert_of_ne _ same, Finmap.lookup_empty] at found
    cases found

def defaultConfig : GroupCoordinatorConfig := newGroupCoordinator ⟨1, 0, 0⟩

theorem ordersRun_start : (groupRuns defaultConfig "billing").start ordersRun :=
  ⟨by decide +kernel, ordersState_wellCounted, rfl, rfl⟩

/-- A join of this member, whose loop visits the other members in this order. -/
def joins (memberID : String) (visited : List String) : GroupEvent :=
  .propose (.join visited "" 0 ⟨"billing", memberID, ["orders"], 5000, 1000⟩)

end BunnyMQ.Group
