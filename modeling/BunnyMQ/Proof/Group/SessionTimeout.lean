/-
This file shows when the session timeouts of the members survive a change of the leader.
-/

import BunnyMQ.Proof.Group.Heartbeats
import BunnyMQ.Proof.Group.Interleaving

namespace BunnyMQ.Group
open Foundation Metadata Transition Option
variable {node : Nat} {state : MetadataState} {table : HeartbeatTable}

section
variable {state : MetadataState} {table : HeartbeatTable} {now : Int}

/-- Some visits of a sweep took members away. Each proposal was about a member whose entry was too old. -/
structure Sweep.Within (state : MetadataState) (table : HeartbeatTable) (now : Int) (sweep : Sweep) : Prop where
  kept : ∀ groupID memberID ms, memberOf sweep.state groupID memberID = some ms →
    memberOf state groupID memberID = some ms ∧ sweep.table.entry groupID memberID = table.entry groupID memberID
  expired : ∀ cmd ∈ sweep.proposed, ∃ ms lastHB, memberOf state cmd.groupID cmd.memberID = some ms ∧
    table.entry cmd.groupID cmd.memberID = some lastHB ∧ ms.sessionTimeoutMs < now - lastHB

/-- A visit takes away at most a member whose entry is too old. -/
theorem sweepVisit_within {sweep : Sweep} (within : sweep.Within state table now) (visit : SweepVisit) :
    (sweepVisit now sweep visit).Within state table now := by
  unfold sweepVisit
  split
  · exact within
  next group found =>
  split
  · exact within
  next cmd proposed =>
  obtain ⟨sameGroup, sameMember, ms, lastHB, present, entry, late, _⟩ := sweepMember_some proposed
  have stored : memberOf sweep.state visit.groupID visit.memberID = some ms := by
    rw [memberOf, found, bind_some, present]
  obtain ⟨original, sameEntry⟩ := within.kept _ _ _ stored
  have expired : ∀ other ∈ sweep.proposed ++ [cmd], ∃ ms lastHB,
      memberOf state other.groupID other.memberID = some ms ∧
        table.entry other.groupID other.memberID = some lastHB ∧ ms.sessionTimeoutMs < now - lastHB := by
    intro other member
    rcases List.mem_append.mp member with earlier | last
    · exact within.expired other earlier
    · rw [List.mem_singleton.mp last, sameGroup, sameMember]
      exact ⟨ms, lastHB, original, sameEntry ▸ entry, late⟩
  split
  · refine ⟨?_, expired⟩
    intro groupID memberID other left
    rw [memberOf_leave, sameGroup, sameMember] at left
    split at left
    · cases left
    next different =>
    rw [HeartbeatTable.entry_forget, if_neg different]
    exact within.kept _ _ _ left
  · exact ⟨within.kept, expired⟩

/-- A whole sweep only takes members away, and only those with an old entry. -/
theorem sweepOnce_within (config : GroupCoordinatorConfig) (leader : Option Nat) (visits : List SweepVisit) :
    (sweepOnce config leader now visits state table).Within state table now := by
  have start : (Sweep.mk state table []).Within state table now := by
    refine ⟨fun _ _ _ present => ⟨present, rfl⟩, ?_⟩
    intro cmd member
    cases member
  unfold sweepOnce
  split
  · exact start
  · generalize Sweep.mk state table [] = sweep at start
    induction visits generalizing sweep with
    | nil => exact start
    | cons visit visits ih => exact ih _ (sweepVisit_within start visit)

end

/-- What the leader saw when it swept, with the proposals of the sweep. -/
structure Swept where
  state : MetadataState
  table : HeartbeatTable
  now : Int
  since : String → String → Int
  proposed : List LeaveConsumerGroupCmd

/-- Each evicted member was silent for longer than its timeout. -/
def Swept.Timely (swept : Swept) : Prop :=
  ∀ cmd ∈ swept.proposed, ∃ ms, memberOf swept.state cmd.groupID cmd.memberID = some ms ∧
    ms.sessionTimeoutMs < swept.now - swept.since cmd.groupID cmd.memberID

/-- The leader has an entry for every member of every group. -/
def Swept.Covered (swept : Swept) : Prop :=
  ∀ groupID memberID, (memberOf swept.state groupID memberID).isSome → (swept.table.entry groupID memberID).isSome

/-- The nodes share the metadata, and each has its own table. The run also keeps the last accepted heartbeat or
join of each member, the time of the last election and the sweeps. -/
structure Brokers where
  state : MetadataState
  tables : Nat → HeartbeatTable
  leader : Option Nat
  now : Int
  lastSeen : String → String → Option Int
  ledSince : Int
  swept : List Swept

/-- The later of the last sign of the member and the election of the leader. -/
def Brokers.since (brokers : Brokers) (groupID memberID : String) : Int :=
  match brokers.lastSeen groupID memberID with
  | none => brokers.ledSince
  | some seen => max seen brokers.ledSince

inductive BrokerEvent where
  | tick (elapsed : Nat)
  | start (node : Nat) (seeded : Bool)
  | elect (node : Nat)
  | depose
  | join (visited : List String) (fresh : String) (req : JoinGroupRequest)
  | heartbeat (groupID memberID : String) (generationID : Int)
  | leave (visited : List String) (groupID memberID : String)
  | propose (command : MetadataCommand)
  | sweep (node : Nat) (visits : List SweepVisit)

namespace Brokers

/-- A call at a node changes the metadata and the table of the node. -/
def handled (brokers : Brokers) (node : Nat) (state : MetadataState) (table : HeartbeatTable) : Brokers :=
  { brokers with
    state := state
    tables := Function.update brokers.tables node table }

/-- The member has shown itself now. -/
def sees (brokers : Brokers) (groupID memberID : String) : Brokers :=
  { brokers with
    lastSeen := fun otherGroup otherMember =>
      if otherGroup = groupID ∧ otherMember = memberID then some brokers.now
      else brokers.lastSeen otherGroup otherMember }

def joins (config : GroupCoordinatorConfig) (brokers : Brokers) (visited : List String) (fresh : String)
    (req : JoinGroupRequest) (node : Nat) : Brokers :=
  let answer := joinGroup config visited fresh brokers.now req brokers.state (brokers.tables node)
  let after := brokers.handled node answer.2.1 answer.2.2
  match answer.1 with
  | .ok response => after.sees req.groupID response.memberID
  | .error _ => after

def beats (brokers : Brokers) (groupID memberID : String) (generationID : Int) (node : Nat) : Brokers :=
  let answer := Group.heartbeat (readsOf brokers.state) (brokers.tables node) brokers.now groupID memberID generationID
  let after := brokers.handled node brokers.state answer.2
  match answer.1 with
  | .ok _ => after.sees groupID memberID
  | .error _ => after

def leaves (brokers : Brokers) (visited : List String) (groupID memberID : String) (node : Nat) : Brokers :=
  let answer := leaveGroup visited groupID memberID brokers.state (brokers.tables node)
  brokers.handled node answer.2.1 answer.2.2

/-- A sweep of the leader is recorded. Another node sweeps in vain. -/
def sweeps (config : GroupCoordinatorConfig) (brokers : Brokers) (node : Nat) (visits : List SweepVisit) : Brokers :=
  let sweep := sweepOnce { config with thisNodeID := node } brokers.leader brokers.now visits brokers.state
    (brokers.tables node)
  let after := brokers.handled node sweep.state sweep.table
  if brokers.leader = some node then { after with
    swept := brokers.swept ++
      [⟨brokers.state, brokers.tables node, brokers.now, brokers.since, sweep.proposed⟩] }
  else after

/-- A node rebuilds its table when it starts and at no other time. Only the leader answers joins, heartbeats and
leaves, and the members change through no other command. -/
def step (config : GroupCoordinatorConfig) (brokers : Brokers) : BrokerEvent → Option Brokers
  | .tick elapsed => some { brokers with now := brokers.now + elapsed }
  | .start node seeded => some (brokers.handled node brokers.state
      (if seeded then rebuildHeartbeatTable brokers.state.getAllGroupStates ∅ brokers.now else ∅))
  | .elect node => some (if brokers.leader = some node then brokers else { brokers with
      leader := some node
      ledSince := brokers.now })
  | .depose => some { brokers with leader := none }
  | .join visited fresh req => brokers.leader.map (brokers.joins config visited fresh req)
  | .heartbeat groupID memberID generationID => brokers.leader.map (brokers.beats groupID memberID generationID)
  | .leave visited groupID memberID => brokers.leader.map (brokers.leaves visited groupID memberID)
  | .propose command =>
    if changesMembers command then none else some { brokers with state := (brokers.state.update command).1 }
  | .sweep node visits => some (brokers.sweeps config node visits)

end Brokers

/-- A node that becomes the leader has just rebuilt its table, and no leader starts without a rebuilt table. -/
def Reseeded (brokers : Brokers) : BrokerEvent → Prop
  | .start node seeded => brokers.leader = some node → seeded
  | .elect node => brokers.leader ≠ some node → ∀ groupID ∈ brokers.state.groupStates.keys,
      ∀ memberID ∈ membersOf (brokers.state.getGroupState groupID),
        (brokers.tables node).entry groupID memberID = some brokers.now
  | _ => True

instance (brokers : Brokers) : (event : BrokerEvent) → Decidable (Reseeded brokers event)
  | .start _ _ => inferInstanceAs (Decidable (_ → _))
  | .elect _ => inferInstanceAs (Decidable (_ → _))
  | .tick _ | .depose | .join _ _ _ | .heartbeat _ _ _ | .leave _ _ _ | .propose _ | .sweep _ _ => .isTrue trivial

/-- Every member has an entry that is no older than this time. -/
def Fresh (state : MetadataState) (table : HeartbeatTable) (since : String → String → Int) : Prop :=
  ∀ groupID memberID, (memberOf state groupID memberID).isSome →
    ∃ entry, table.entry groupID memberID = some entry ∧ since groupID memberID ≤ entry

namespace Brokers
variable {config : GroupCoordinatorConfig} {brokers : Brokers}

structure Tracked (brokers : Brokers) : Prop where
  led : brokers.ledSince ≤ brokers.now
  seen : ∀ groupID memberID, ∀ seen ∈ brokers.lastSeen groupID memberID, seen ≤ brokers.now
  fresh : ∀ node, brokers.leader = some node → Fresh brokers.state (brokers.tables node) brokers.since
  swept : ∀ swept ∈ brokers.swept, swept.Timely ∧ swept.Covered

theorem Tracked.since_le (tracked : brokers.Tracked) (groupID memberID : String) :
    brokers.since groupID memberID ≤ brokers.now := by
  unfold Brokers.since
  cases found : brokers.lastSeen groupID memberID with
  | none => exact tracked.led
  | some seen => exact max_le (tracked.seen groupID memberID seen found) tracked.led

/-- A call at the leader keeps what its own table keeps. -/
theorem Tracked.handled (tracked : brokers.Tracked) (leads : brokers.leader = some node)
    (fresh : Fresh state table brokers.since) : (brokers.handled node state table).Tracked := by
  refine ⟨tracked.led, tracked.seen, ?_, tracked.swept⟩
  intro other led
  have same : other = node := some.inj (led.symm.trans leads)
  subst same
  change Fresh state (Function.update brokers.tables other table other) brokers.since
  rw [Function.update_self]
  exact fresh

theorem since_sees (groupID memberID otherGroup otherMember : String) :
    (brokers.sees groupID memberID).since otherGroup otherMember =
      if otherGroup = groupID ∧ otherMember = memberID then max brokers.now brokers.ledSince
      else brokers.since otherGroup otherMember := by
  by_cases same : otherGroup = groupID ∧ otherMember = memberID
  · simp only [Brokers.since, sees, if_pos same]
  · simp only [Brokers.since, sees, if_neg same]

/-- A member that shows itself at the leader has the current time in its table. -/
theorem Tracked.sees (tracked : brokers.Tracked) {groupID memberID : String} (leads : brokers.leader = some node)
    (others : ∀ otherGroup otherMember, (memberOf state otherGroup otherMember).isSome →
      (otherGroup = groupID ∧ otherMember = memberID) ∨ (memberOf brokers.state otherGroup otherMember).isSome)
    (recorded : table = (brokers.tables node).record groupID memberID brokers.now) :
    ((brokers.handled node state table).sees groupID memberID).Tracked := by
  refine ⟨tracked.led, ?_, ?_, tracked.swept⟩
  · intro otherGroup otherMember seen found
    simp only [Brokers.sees] at found
    split at found
    · cases found
      exact le_refl _
    · exact tracked.seen otherGroup otherMember seen found
  · intro other led otherGroup otherMember present
    have same : other = node := some.inj (led.symm.trans leads)
    subst same
    change ∃ entry, (Function.update brokers.tables other table other).entry otherGroup otherMember = some entry ∧ _
    rw [Function.update_self, recorded, HeartbeatTable.entry_record, since_sees]
    rcases others otherGroup otherMember present with own | old
    · rw [if_pos own, if_pos own]
      exact ⟨brokers.now, rfl, max_le (le_refl _) tracked.led⟩
    · by_cases own : otherGroup = groupID ∧ otherMember = memberID
      · rw [if_pos own, if_pos own]
        exact ⟨brokers.now, rfl, max_le (le_refl _) tracked.led⟩
      · rw [if_neg own, if_neg own]
        exact tracked.fresh other leads otherGroup otherMember old

theorem Tracked.joins (tracked : brokers.Tracked) (leads : brokers.leader = some node) (visited : List String)
    (fresh : String) (req : JoinGroupRequest) : (brokers.joins config visited fresh req node).Tracked := by
  unfold Brokers.joins
  obtain ⟨failure, failed⟩ | ⟨response, group, joined, name, _, _, members⟩ := joinGroup_cases config visited fresh
    brokers.now req brokers.state (brokers.tables node)
  · simp only [failed]
    exact tracked.handled leads (tracked.fresh node leads)
  · simp only [joined, name]
    refine tracked.sees leads ?_ rfl
    intro otherGroup otherMember present
    rw [memberOf_insert] at present
    by_cases sameGroup : otherGroup = req.groupID
    · subst sameGroup
      by_cases sameMember : otherMember = memberName fresh req
      · exact .inl ⟨rfl, sameMember⟩
      · rw [if_pos rfl, members, Finmap.lookup_insert_of_ne _ sameMember, groupOrNew_lookup] at present
        exact .inr present
    · rw [if_neg sameGroup] at present
      exact .inr present

theorem Tracked.beats (tracked : brokers.Tracked) (leads : brokers.leader = some node) (groupID memberID : String)
    (generationID : Int) : (brokers.beats groupID memberID generationID node).Tracked := by
  have kept := tracked.handled leads (tracked.fresh node leads)
  unfold Brokers.beats heartbeat
  rw [lookupGroup_readsOf]
  cases brokers.state.getGroupState groupID with
  | none => exact kept
  | some group =>
    by_cases stranger : (group.members.lookup memberID).isNone
    · simp only [if_pos stranger]
      exact kept
    · simp only [if_neg stranger]
      exact tracked.sees leads (fun _ _ present => .inr present) rfl

/-- A leave that succeeds takes away the member from the group and from the table. -/
theorem leaveGroup_cases (visited : List String) (groupID memberID : String) (state : MetadataState)
    (table : HeartbeatTable) :
    (∃ failure, leaveGroup visited groupID memberID state table = (.error failure, state, table)) ∨
      ∃ cmd, cmd.groupID = groupID ∧ cmd.memberID = memberID ∧ leaveGroup visited groupID memberID state table =
        (.ok (), (state.update (.leaveConsumerGroup cmd)).1, table.forget groupID memberID) := by
  unfold leaveGroup
  cases prepared : leaveCommand (readsOf state) visited groupID memberID with
  | error failure => exact .inl ⟨failure, rfl⟩
  | ok cmd =>
    obtain ⟨sameGroup, sameMember, _⟩ := leaveCommand_shape prepared
    exact .inr ⟨cmd, sameGroup, sameMember, rfl⟩

theorem Tracked.leaves (tracked : brokers.Tracked) (leads : brokers.leader = some node) (visited : List String)
    (groupID memberID : String) : (brokers.leaves visited groupID memberID node).Tracked := by
  unfold Brokers.leaves
  obtain ⟨failure, failed⟩ | ⟨cmd, sameGroup, sameMember, left⟩ := leaveGroup_cases visited groupID memberID
    brokers.state (brokers.tables node)
  · simp only [failed]
    exact tracked.handled leads (tracked.fresh node leads)
  · simp only [left]
    refine tracked.handled leads ?_
    intro otherGroup otherMember present
    rw [memberOf_leave, sameGroup, sameMember] at present
    split at present
    · cases present
    next different =>
    rw [HeartbeatTable.entry_forget, if_neg different]
    exact tracked.fresh node leads otherGroup otherMember present

theorem Fresh.sweep {since : String → String → Int} {now : Int} {sweep : Sweep} (fresh : Fresh state table since)
    (within : sweep.Within state table now) : Fresh sweep.state sweep.table since := by
  intro groupID memberID present
  obtain ⟨ms, found⟩ := isSome_iff_exists.mp present
  obtain ⟨original, sameEntry⟩ := within.kept groupID memberID ms found
  rw [sameEntry]
  exact fresh groupID memberID (isSome_iff_exists.mpr ⟨ms, original⟩)

section
variable (tracked : brokers.Tracked)
include tracked

/-- A sweep of the leader finds every member and evicts only the silent ones. -/
theorem Tracked.sweeps (node : Nat) (visits : List SweepVisit) : (brokers.sweeps config node visits).Tracked := by
  unfold Brokers.sweeps
  have within := @sweepOnce_within brokers.state (brokers.tables node) brokers.now { config with thisNodeID := node }
    brokers.leader visits
  simp only
  generalize swept : sweepOnce { config with thisNodeID := node } brokers.leader brokers.now visits brokers.state
    (brokers.tables node) = sweep at within
  split
  · next leads =>
    have fresh := tracked.fresh node leads
    have handled := tracked.handled leads (Fresh.sweep fresh within)
    refine ⟨handled.led, handled.seen, handled.fresh, ?_⟩
    intro record member
    rcases List.mem_append.mp member with earlier | last
    · exact tracked.swept record earlier
    · rw [List.mem_singleton.mp last]
      refine ⟨?_, ?_⟩
      · intro cmd proposed
        obtain ⟨ms, lastHB, present, entry, late⟩ := within.expired cmd proposed
        obtain ⟨recorded, found, later⟩ := fresh _ _ (isSome_iff_exists.mpr ⟨ms, present⟩)
        have same : lastHB = recorded := some.inj (entry.symm.trans found)
        exact ⟨ms, present, by simp only; omega⟩
      · intro groupID memberID present
        obtain ⟨entry, found, _⟩ := fresh groupID memberID present
        exact isSome_iff_exists.mpr ⟨entry, found⟩
  · next follows =>
    have idle : sweep = ⟨brokers.state, brokers.tables node, []⟩ := by
      rw [← swept, sweepOnce, if_pos follows]
    rw [idle]
    refine ⟨tracked.led, tracked.seen, ?_, tracked.swept⟩
    intro other leads
    have same : (brokers.handled node brokers.state (brokers.tables node)).tables = brokers.tables :=
      Function.update_eq_self node brokers.tables
    rw [same]
    exact tracked.fresh other leads

/-- A starting node seeds its own table and touches no other. -/
theorem Tracked.starts {seeded : Bool} (allowed : brokers.leader = some node → seeded) :
    (brokers.handled node brokers.state
      (if seeded then rebuildHeartbeatTable brokers.state.getAllGroupStates ∅ brokers.now else ∅)).Tracked := by
  by_cases leads : brokers.leader = some node
  · refine tracked.handled leads ?_
    rw [if_pos (allowed leads)]
    intro groupID memberID present
    obtain ⟨ms, found⟩ := isSome_iff_exists.mp present
    obtain ⟨group, stored, member⟩ := bind_eq_some_iff.mp found
    refine ⟨brokers.now, ?_, tracked.since_le groupID memberID⟩
    exact rebuildHeartbeatTable_entry stored (Finmap.mem_of_lookup_eq_some member) ∅ brokers.now
  · refine ⟨tracked.led, tracked.seen, ?_, tracked.swept⟩
    intro other led
    have different : other ≠ node := fun same => leads (same ▸ led)
    change Fresh brokers.state (Function.update brokers.tables node _ other) brokers.since
    rw [Function.update_of_ne different]
    exact tracked.fresh other led

theorem Tracked.elects (reseeded : Reseeded brokers (.elect node)) (changed : brokers.leader ≠ some node) :
    { brokers with leader := some node, ledSince := brokers.now }.Tracked := by
  refine ⟨le_refl _, tracked.seen, ?_, tracked.swept⟩
  intro other led groupID memberID present
  have same : node = other := some.inj led
  subst same
  obtain ⟨ms, found⟩ := isSome_iff_exists.mp present
  obtain ⟨group, stored, member⟩ := bind_eq_some_iff.mp found
  have known : groupID ∈ brokers.state.groupStates.keys := Finmap.mem_keys.mpr (Finmap.mem_of_lookup_eq_some stored)
  have listed : memberID ∈ membersOf (brokers.state.getGroupState groupID) := by
    have stored : brokers.state.getGroupState groupID = some group := stored
    rw [membersOf, stored]
    exact Finmap.mem_keys.mpr (Finmap.mem_of_lookup_eq_some member)
  refine ⟨brokers.now, reseeded changed groupID known memberID listed, ?_⟩
  unfold Brokers.since
  simp only
  cases shown : brokers.lastSeen groupID memberID with
  | none => exact le_refl _
  | some seen => exact max_le (tracked.seen groupID memberID seen shown) (le_refl _)

theorem Tracked.ticks (elapsed : Nat) : { brokers with now := brokers.now + elapsed }.Tracked := by
  have led := tracked.led
  refine ⟨by simp only; omega, ?_, tracked.fresh, tracked.swept⟩
  intro groupID memberID seen found
  have earlier := tracked.seen groupID memberID seen found
  simp only
  omega

/-- Every event keeps the heartbeats tracked when new leaders reseed. -/
theorem Tracked.step {event : BrokerEvent} {next : Brokers} (reseeded : Reseeded brokers event)
    (stepped : brokers.step config event = some next) : next.Tracked := by
  cases event with
  | tick elapsed =>
    cases stepped
    exact tracked.ticks elapsed
  | start node seeded =>
    cases stepped
    exact tracked.starts reseeded
  | elect node =>
    cases stepped
    split
    · exact tracked
    · next changed => exact tracked.elects reseeded changed
  | depose =>
    cases stepped
    refine ⟨tracked.led, tracked.seen, ?_, tracked.swept⟩
    intro node leads
    cases leads
  | join visited fresh req =>
    obtain ⟨node, leads, rfl⟩ := map_eq_some_iff.mp stepped
    exact tracked.joins leads visited fresh req
  | heartbeat groupID memberID generationID =>
    obtain ⟨node, leads, rfl⟩ := map_eq_some_iff.mp stepped
    exact tracked.beats leads groupID memberID generationID
  | leave visited groupID memberID =>
    obtain ⟨node, leads, rfl⟩ := map_eq_some_iff.mp stepped
    exact tracked.leaves leads visited groupID memberID
  | propose command =>
    rw [Brokers.step] at stepped
    split at stepped
    · cases stepped
    next other =>
    cases stepped
    refine ⟨tracked.led, tracked.seen, ?_, tracked.swept⟩
    intro node leads groupID memberID present
    rw [memberOf_other (Bool.not_eq_true _ ▸ other)] at present
    exact tracked.fresh node leads groupID memberID present
  | sweep node visits =>
    cases stepped
    exact tracked.sweeps node visits

end

end Brokers

end BunnyMQ.Group
