/-
This file shows when the members of a group stop joining again.
-/

import BunnyMQ.Proof.Group.Interleaving

namespace BunnyMQ.Group
open Foundation Metadata Finmap

/-- Every client keeps the generation of its last join. The list records the group before and behind each join. -/
structure Clients where
  state : MetadataState
  table : HeartbeatTable
  held : String → Int
  rejoins : List (Option GroupState × Option GroupState)

/-- A member takes its turn at some time. Its join visits the members of the group in the given order. -/
structure Turn where
  memberID : String
  visited : List String
  now : Int

/-- A member joins again under its own name with the subscription that the group has stored. -/
def rejoinRequest (groupID memberID : String) (ms : MemberState) : JoinGroupRequest :=
  ⟨groupID, memberID, ms.subscribedTopics, ms.sessionTimeoutMs, ms.heartbeatIntervalMs⟩

/-- A client that joins keeps the generation of the answer. A failed join keeps the old one. -/
def Clients.join (config : GroupCoordinatorConfig) (clients : Clients) (visited : List String) (now : Int)
    (req : JoinGroupRequest) : Clients :=
  match joinGroup config visited "" now req clients.state clients.table with
  | (.error _, state, table) => { clients with
      state := state
      table := table }
  | (.ok response, state, table) => {
      state := state
      table := table
      held := Function.update clients.held req.memberID response.generationID
      rejoins := clients.rejoins ++ [(clients.state.getGroupState req.groupID, state.getGroupState req.groupID)] }

/-- A member sends a heartbeat with its generation and joins again when it is told so. -/
def Clients.turn (config : GroupCoordinatorConfig) (groupID : String) (clients : Clients) (turn : Turn) : Clients :=
  let beat := heartbeat (readsOf clients.state) clients.table turn.now groupID turn.memberID
    (clients.held turn.memberID)
  let heard := { clients with table := beat.2 }
  match beat.1, memberOf clients.state groupID turn.memberID with
  | .ok true, some ms => heard.join config turn.visited turn.now (rejoinRequest groupID turn.memberID ms)
  | _, _ => heard

/-- The members take their turns one behind the other. -/
def Clients.turns (config : GroupCoordinatorConfig) (groupID : String) : Clients → List Turn → Clients
  | clients, [] => clients
  | clients, turn :: rest => (clients.turn config groupID turn).turns config groupID rest

/-- A round records its own joins. -/
def Clients.round (config : GroupCoordinatorConfig) (groupID : String) (clients : Clients) (turns : List Turn) :
    Clients :=
  { clients with rejoins := [] }.turns config groupID turns

/-- Every member holds the generation of its group. -/
def Clients.Settled (groupID : String) (clients : Clients) : Prop :=
  ∀ group, clients.state.getGroupState groupID = some group → ∀ memberID ∈ group.members,
    clients.held memberID = group.generationID

/-- The join has changed neither the generation nor the assignments. -/
def Unchanged (before after : Option GroupState) : Prop :=
  before.map (fun group => (group.generationID, group.assignments)) =
    after.map fun group => (group.generationID, group.assignments)

instance (before after : Option GroupState) : Decidable (Unchanged before after) :=
  inferInstanceAs (Decidable (_ = _))

section
variable {config : GroupCoordinatorConfig} {groupID : String} {clients : Clients}

/-- The heartbeat of a member compares the generations. -/
theorem heartbeat_member {state : MetadataState} {table : HeartbeatTable} {now generationID : Int}
    {memberID : String} {group : GroupState} (found : state.getGroupState groupID = some group)
    (member : memberID ∈ group.members) :
    heartbeat (readsOf state) table now groupID memberID generationID =
      (.ok (decide (group.generationID > generationID)), table.record groupID memberID now) := by
  have present : ¬ (group.members.lookup memberID).isNone := fun none => KeyMap.lookup_isNone.mp none member
  unfold heartbeat
  rw [lookupGroup_readsOf, found]
  exact if_neg present

/-- The turn has left the group and the generations as they were. -/
def Clients.Idle (clients after : Clients) : Prop :=
  after.state = clients.state ∧ after.held = clients.held ∧ after.rejoins = clients.rejoins

/-- The turn was a join of a member that was behind. It starts the next generation of the same members. -/
structure Clients.Rejoined (groupID : String) (clients : Clients) (memberID : String) (before group : GroupState)
    (after : Clients) : Prop where
  found : clients.state.getGroupState groupID = some before
  member : memberID ∈ before.members
  behind : clients.held memberID < before.generationID
  stored : after.state.getGroupState groupID = some group
  members : group.members.keys = before.members.keys
  generation : group.generationID = int32 (before.generationID + 1)
  held : after.held = Function.update clients.held memberID group.generationID
  rejoins : after.rejoins = clients.rejoins ++ [(some before, some group)]

/-- A turn does nothing to the group or joins again. -/
theorem Clients.turn_cases (config : GroupCoordinatorConfig) (groupID : String) (clients : Clients) (turn : Turn) :
    clients.Idle (clients.turn config groupID turn) ∨ ∃ before group,
      clients.Rejoined groupID turn.memberID before group (clients.turn config groupID turn) := by
  unfold Clients.turn
  simp only
  split
  case h_2 => exact .inl ⟨rfl, rfl, rfl⟩
  next ms told present =>
  obtain ⟨before, found, known⟩ := Option.bind_eq_some_iff.mp present
  have member : turn.memberID ∈ before.members := mem_of_lookup_eq_some known
  rw [heartbeat_member found member] at told ⊢
  have behind : clients.held turn.memberID < before.generationID := by simpa using told
  have old : groupOrNew clients.state groupID = before := by rw [groupOrNew, found, Option.getD_some]
  have name : memberName "" (rejoinRequest groupID turn.memberID ms) = turn.memberID := ite_eq_right_iff.mpr Eq.symm
  unfold Clients.join
  obtain ⟨failure, failed⟩ | ⟨response, group, joined, _, answered, generation, members⟩ := joinGroup_cases config
    turn.visited "" turn.now (rejoinRequest groupID turn.memberID ms) clients.state
    (clients.table.record groupID turn.memberID turn.now)
  · simp only [failed]
    exact .inl ⟨rfl, rfl, rfl⟩
  · have stored : (clients.state.groupStates.insert groupID group).lookup groupID = some group :=
      lookup_insert _
    have same : group.members.keys = before.members.keys := by
      rw [members, name, KeyMap.keys_insert, ← old]
      exact Finset.insert_eq_of_mem (mem_keys.mpr (old ▸ member))
    rw [show (rejoinRequest groupID turn.memberID ms).groupID = groupID from rfl, old] at generation
    simp only [joined]
    refine .inr ⟨before, group, found, member, behind, stored, same, generation, ?_, ?_⟩
    · rw [answered]
      rfl
    · simp only [rejoinRequest]
      rw [found, MetadataState.getGroupState, stored]

theorem Clients.Idle.settled {after : Clients} (idle : clients.Idle after) :
    after.Settled groupID ↔ clients.Settled groupID := by
  unfold Clients.Settled
  rw [idle.1, idle.2.1]

/-- No join leaves the generation as it was. -/
theorem Clients.Rejoined.changed {memberID : String} {before group : GroupState} {after : Clients}
    (rejoined : clients.Rejoined groupID memberID before group after) : ¬ Unchanged (some before) (some group) := by
  intro unchanged
  have same : before.generationID = group.generationID := congrArg Prod.fst (Option.some.inj unchanged)
  have next := rejoined.generation
  rw [← same, int32] at next
  omega

theorem Clients.turns_rejoins (config : GroupCoordinatorConfig) (groupID : String) (clients : Clients)
    (turns : List Turn) :
    clients.rejoins <+: (clients.turns config groupID turns).rejoins := by
  induction turns generalizing clients with
  | nil => exact List.prefix_refl _
  | cons turn rest ih =>
    refine List.IsPrefix.trans ?_ (ih (clients.turn config groupID turn))
    obtain idle | ⟨before, group, rejoined⟩ := clients.turn_cases config groupID turn
    · rw [idle.2.2]
    · rw [rejoined.rejoins]
      exact List.prefix_append _ _

/-- Turns whose joins change nothing are turns without joins. -/
theorem Clients.turns_idle (turns : List Turn) (clients : Clients)
    (unchanged : ∀ rejoin ∈ (clients.turns config groupID turns).rejoins, Unchanged rejoin.1 rejoin.2) :
    clients.Idle (clients.turns config groupID turns) := by
  induction turns generalizing clients with
  | nil => exact ⟨rfl, rfl, rfl⟩
  | cons turn rest ih =>
    obtain ⟨state, held, rejoins⟩ := ih (clients.turn config groupID turn) unchanged
    obtain ⟨sameState, sameHeld, sameRejoins⟩ | ⟨before, group, rejoined⟩ := clients.turn_cases config groupID turn
    · exact ⟨state.trans sameState, held.trans sameHeld, rejoins.trans sameRejoins⟩
    · have recorded : (some before, some group) ∈ (clients.turn config groupID turn).rejoins := by
        rw [rejoined.rejoins]
        exact List.mem_append_right _ (List.mem_singleton.mpr rfl)
      have kept := (Clients.turns_rejoins config groupID (clients.turn config groupID turn) rest).subset recorded
      exact absurd (unchanged _ kept) rejoined.changed

/-- A member that holds the generation of its group is not told to join again. -/
theorem Clients.Settled.turn (config : GroupCoordinatorConfig) (settled : clients.Settled groupID) (turn : Turn) :
    clients.Idle (clients.turn config groupID turn) := by
  obtain idle | ⟨before, group, rejoined⟩ := clients.turn_cases config groupID turn
  · exact idle
  · have current := settled before rejoined.found turn.memberID rejoined.member
    have behind := rejoined.behind
    omega

theorem Clients.Settled.turns (config : GroupCoordinatorConfig) (turns : List Turn) {clients : Clients}
    (settled : clients.Settled groupID) :
    clients.Idle (clients.turns config groupID turns) := by
  induction turns generalizing clients with
  | nil => exact ⟨rfl, rfl, rfl⟩
  | cons turn rest ih =>
    have idle := settled.turn config turn
    obtain ⟨state, held, rejoins⟩ := ih (idle.settled.mpr settled)
    exact ⟨state.trans idle.1, held.trans idle.2.1, rejoins.trans idle.2.2⟩

/-- A group of at least two members, one of which is behind, with room for more generations. -/
structure Clients.Stale (groupID : String) (room : Nat) (clients : Clients) (group : GroupState) : Prop where
  found : clients.state.getGroupState groupID = some group
  several : 1 < group.members.keys.card
  received : ∀ memberID ∈ group.members, clients.held memberID ≤ group.generationID
  behind : ∃ memberID ∈ group.members, clients.held memberID < group.generationID
  lower : -2 ^ 31 ≤ group.generationID
  upper : group.generationID + room < 2 ^ 31

/-- The join of one member leaves the others behind. -/
theorem Clients.Stale.turn (config : GroupCoordinatorConfig) {group : GroupState} {room : Nat}
    (stale : clients.Stale groupID (room + 1) group) (turn : Turn) :
    ∃ next, (clients.turn config groupID turn).Stale groupID room next := by
  obtain ⟨found, several, received, behind, lower, upper⟩ := stale
  obtain ⟨state, held, _⟩ | ⟨before, next, rejoined⟩ := clients.turn_cases config groupID turn
  · refine ⟨group, ?_, several, ?_, ?_, lower, by omega⟩
    · rw [state, found]
    · rw [held]
      exact received
    · rw [held]
      exact behind
  · have same : before = group := Option.some.inj (rejoined.found.symm.trans found)
    subst same
    have bumped : next.generationID = before.generationID + 1 := by
      rw [rejoined.generation, int32]
      omega
    have known : ∀ memberID, memberID ∈ next.members ↔ memberID ∈ before.members := by
      intro memberID
      rw [← mem_keys, rejoined.members, mem_keys]
    obtain ⟨other, member, different⟩ := Finset.exists_mem_ne several turn.memberID
    refine ⟨next, rejoined.stored, ?_, ?_, ⟨other, ?_, ?_⟩, by omega, by omega⟩
    · rw [rejoined.members]
      exact several
    · intro memberID present
      rw [rejoined.held, Function.update_apply]
      split
      · exact le_refl _
      · have bound := received memberID ((known memberID).mp present)
        omega
    · exact (known other).mpr (mem_keys.mp member)
    · have bound := received other (mem_keys.mp member)
      rw [rejoined.held, Function.update_of_ne different]
      omega

theorem Clients.Stale.turns (turns : List Turn) {clients : Clients} {group : GroupState}
    (stale : clients.Stale groupID turns.length group) :
    ∃ next, (clients.turns config groupID turns).Stale groupID 0 next := by
  induction turns generalizing clients group with
  | nil => exact ⟨group, stale⟩
  | cons turn rest ih =>
    obtain ⟨next, stepped⟩ := stale.turn config turn
    exact ih stepped

end

/-- A group of several members with one behind always has a member behind, in whatever order the members take their
turns. -/
theorem stale_group_never_settles (config : GroupCoordinatorConfig) (groupID : String) (clients : Clients)
    (group : GroupState) (turns : List Turn) (stale : clients.Stale groupID turns.length group) :
    ∃ next, (clients.round config groupID turns).state.getGroupState groupID = some next ∧
      ∃ memberID ∈ next.members, (clients.round config groupID turns).held memberID < next.generationID := by
  have started : { clients with rejoins := [] }.Stale groupID turns.length group := ⟨stale.found, stale.several,
    stale.received, stale.behind, stale.lower, stale.upper⟩
  obtain ⟨next, ends⟩ := Clients.Stale.turns turns started
  exact ⟨next, ends.found, ends.behind⟩

/-- A round ends settled and without a change of the group exactly when it begins settled. -/
theorem round_settles_iff (config : GroupCoordinatorConfig) (groupID : String) (clients : Clients) (turns : List Turn) :
    ((clients.round config groupID turns).Settled groupID ∧
      ∀ rejoin ∈ (clients.round config groupID turns).rejoins, Unchanged rejoin.1 rejoin.2) ↔
      clients.Settled groupID := by
  constructor
  · rintro ⟨settled, unchanged⟩
    have idle := Clients.turns_idle turns { clients with rejoins := [] } unchanged
    exact idle.settled.mp settled
  · intro settled
    have started : { clients with rejoins := [] }.Settled groupID := settled
    have idle := Clients.Settled.turns config turns started
    refine ⟨idle.settled.mpr started, ?_⟩
    intro rejoin member
    rw [Clients.round, idle.2.2] at member
    cases member

/-- Two clients have joined in turn. The first one is a generation behind. -/
def billingClients : Clients :=
  let first := Clients.join defaultConfig ⟨ordersState, ∅, fun _ => 0, []⟩ [] 0 ⟨"billing", "a", ["orders"], 5000, 1000⟩
  first.join defaultConfig ["a"] 0 ⟨"billing", "b", ["orders"], 5000, 1000⟩

def billingTurns : List Turn := [⟨"a", ["a", "b"], 1000⟩, ⟨"b", ["a", "b"], 1000⟩]

def billingGroup : GroupState := (billingClients.state.getGroupState "billing").get (by decide +kernel)

theorem stale_group_never_settles_for_two :
    ∃ next, (billingClients.round defaultConfig "billing" billingTurns).state.getGroupState "billing" = some next ∧
      ∃ memberID ∈ next.members,
        (billingClients.round defaultConfig "billing" billingTurns).held memberID < next.generationID := by
  have received : ∀ memberID ∈ billingGroup.members.keys,
      billingClients.held memberID ≤ billingGroup.generationID := by decide +kernel
  exact stale_group_never_settles _ _ _ billingGroup _ ⟨(Option.some_get _).symm, by decide +kernel,
    fun memberID member => received memberID (mem_keys.mpr member), ⟨"a", by decide +kernel, by decide +kernel⟩,
    by decide +kernel, by decide +kernel⟩

/-- Each client joins again and starts a generation, so that the first one is behind once more. -/
theorem rejoining_members_chase_generation :
    (billingClients.state.getGroupState "billing").map GroupState.generationID = some 2 ∧
      (billingClients.held "a", billingClients.held "b") = (1, 2) ∧
      ((billingClients.round defaultConfig "billing" billingTurns).state.getGroupState "billing").map
        GroupState.generationID = some 4 ∧
      ((billingClients.round defaultConfig "billing" billingTurns).held "a",
        (billingClients.round defaultConfig "billing" billingTurns).held "b") = (3, 4) ∧
      ¬ (billingClients.round defaultConfig "billing" billingTurns).Settled "billing" ∧
      ¬ ∀ rejoin ∈ (billingClients.round defaultConfig "billing" billingTurns).rejoins,
        Unchanged rejoin.1 rejoin.2 := by
  have generation : ((billingClients.round defaultConfig "billing" billingTurns).state.getGroupState "billing").map
      (fun group => (group.generationID, decide ("a" ∈ group.members))) = some (4, true) := by decide +kernel
  refine ⟨by decide +kernel, by decide +kernel, by decide +kernel, by decide +kernel, ?_, by decide +kernel⟩
  intro settled
  obtain ⟨group, found, same⟩ := Option.map_eq_some_iff.mp generation
  obtain ⟨current, member⟩ := Prod.mk.inj same
  have held := settled group found "a" (of_decide_eq_true member)
  rw [current] at held
  exact absurd held (by decide +kernel)

end BunnyMQ.Group
