/-
This file shows when the commits of a group are fenced by its generation and its assignments.
-/

import BunnyMQ.Proof.Group.Interleaving

namespace BunnyMQ.Group
open Foundation Metadata Transition MetadataState Option

def Applied.changesMembers (entry : Applied) : Bool :=
  match entry.command with
  | .joinConsumerGroup _ => entry.result = okResult
  | .leaveConsumerGroup _ => entry.result = okResult
  | _ => false

/-- Since the lookup of a commit no join, leave or eviction was accepted. -/
def Pending.undisturbed (run : GroupRun) (entry : Pending) : Bool :=
  (run.applied.drop entry.since).all fun applied => !applied.changesMembers

def Operation.isCommit : Operation → Bool
  | .commit _ _ _ _ => true
  | _ => false

/-- Every commit is applied before the members change again. -/
def Undisturbed (run : GroupRun) : GroupEvent → Prop
  | .propose _ => True
  | .apply place => ∀ entry ∈ run.pending[place]?, entry.op.isCommit → entry.undisturbed run

instance (run : GroupRun) : (event : GroupEvent) → Decidable (Undisturbed run event)
  | .propose _ => .isTrue trivial
  | .apply _ => inferInstanceAs (Decidable (∀ _ ∈ _, _))

/-- The member owns the partition in this generation of the group. -/
def Fenced (group : Option GroupState) (memberID : String) (generationID : Int) (tp : TopicPartition) : Prop :=
  ∃ current, group = some current ∧ memberID ∈ current.members ∧ current.generationID = generationID ∧
    tp ∈ owned current.assignments memberID

theorem Fenced.congr {first second : Option GroupState} (same : first.map membership = second.map membership)
    {memberID : String} {generationID : Int} {tp : TopicPartition} (fenced : Fenced first memberID generationID tp) :
    Fenced second memberID generationID tp := by
  obtain ⟨group, rfl, member, generation, owns⟩ := fenced
  obtain ⟨other, found, equal⟩ := map_eq_some_iff.mp same.symm
  obtain ⟨members, generations, assignments⟩ : _ ∧ _ ∧ _ := by simpa [membership] using equal
  exact ⟨other, found, by rw [members]; exact member, by rw [generations]; exact generation,
    by rw [assignments]; exact owns⟩

/-- Every write of an offset happened in a state in which its member owned the partition at its generation. -/
def CommitsFenced (groupID : String) (run : GroupRun) : Prop :=
  ∀ applied ∈ run.applied, ∀ visited memberID generationID offsets,
    applied.op = .commit visited memberID generationID offsets → ∀ tp ∈ offsets,
      Fenced (applied.before.getGroupState groupID) memberID generationID tp

section
variable {config : GroupCoordinatorConfig} {groupID : String} {run next : GroupRun}

/-- The coordinator proposes joins with a member, leaves and commits. -/
def Proposable : MetadataCommand → Prop
  | .joinConsumerGroup cmd => cmd.member.isSome
  | .leaveConsumerGroup _ => True
  | .commitConsumerOffset _ => True
  | _ => False

/-- A command that is not an accepted change of the members keeps the membership of the group. -/
theorem update_keeps_membership {op : Operation} {command : MetadataCommand} (proposable : Proposable command)
    (state : MetadataState)
    (quiet : (Applied.mk op command state (state.update command).2).changesMembers = false) :
    ((state.update command).1.getGroupState groupID).map membership = (state.getGroupState groupID).map membership := by
  cases command with
  | joinConsumerGroup cmd =>
    obtain ⟨ms, member⟩ := isSome_iff_exists.mp proposable
    have accepted : (state.update (.joinConsumerGroup cmd)).2 = okResult := by
      simp only [update, MetadataCommand.roundTrip, applyCommand,
        applyJoinConsumerGroup, member, applyGroupStateJoin]
    simp [Applied.changesMembers, accepted] at quiet
  | leaveConsumerGroup cmd =>
    cases found : state.getGroupState cmd.groupID with
    | none =>
      rw [getGroupState, (update_leave_missing found).2]
      rfl
    | some group =>
      by_cases present : cmd.memberID ∈ group.members
      · simp [Applied.changesMembers, update_leave found present] at quiet
      · rw [update_leave_absent found present]
  | commitConsumerOffset cmd => exact (update_commit cmd groupID).2
  | _ => exact proposable.elim

/-- A pending commit has passed its checks against the group that it has read. -/
def Checked (entry : Pending) : Prop :=
  ∀ visited memberID generationID offsets, entry.op = .commit visited memberID generationID offsets →
    ∀ tp ∈ offsets, Fenced entry.read memberID generationID tp

structure Fencing (groupID : String) (run : GroupRun) : Prop where
  proposable : ∀ entry ∈ run.pending, Proposable entry.command
  earlier : ∀ entry ∈ run.pending, entry.since ≤ run.applied.length
  checked : ∀ entry ∈ run.pending, Checked entry
  unchanged : ∀ entry ∈ run.pending, entry.undisturbed run →
    (run.state.getGroupState groupID).map membership = entry.read.map membership
  fenced : CommitsFenced groupID run

/-- An operation proposes a command that it has checked. -/
theorem command_checked {op : Operation} {command : MetadataCommand} {state : MetadataState} {since : Nat}
    (fits : op.Fits groupID state) (computed : op.command config groupID state = some command) :
    Proposable command ∧ Checked ⟨op, command, state.getGroupState groupID, since⟩ := by
  cases op with
  | join visited fresh now req =>
    obtain ⟨same, enumerates⟩ := fits
    obtain ⟨cmd, prepared, rfl⟩ := map_eq_some_iff.mp computed
    rw [← same] at enumerates
    obtain ⟨_, ⟨ms, member, _⟩, _⟩ := joinCommand_ok enumerates (ok_of_toOption prepared)
    refine ⟨isSome_iff_exists.mpr ⟨ms, member⟩, ?_⟩
    intro _ _ _ _ other
    cases other
  | leave visited memberID =>
    obtain ⟨cmd, _, rfl⟩ := map_eq_some_iff.mp computed
    refine ⟨trivial, ?_⟩
    intro _ _ _ _ other
    cases other
  | evict visited memberID table now =>
    obtain ⟨group, _, swept⟩ := bind_eq_some_iff.mp computed
    obtain ⟨cmd, _, rfl⟩ := map_eq_some_iff.mp swept
    refine ⟨trivial, ?_⟩
    intro _ _ _ _ other
    cases other
  | commit visited memberID generationID offsets =>
    obtain ⟨cmd, prepared, rfl⟩ := map_eq_some_iff.mp computed
    obtain ⟨_, group, found, member, generation, owns⟩ := commitCommand_ok (ok_of_toOption prepared)
    refine ⟨trivial, ?_⟩
    intro _ _ _ _ same tp written
    cases same
    refine ⟨group, found, member, generation, owns tp ?_⟩
    rw [← List.mem_toFinset, fits.2, Finmap.mem_keys]
    exact written

/-- A new proposal is checked against the state that it has read. -/
theorem Fencing.propose (fencing : Fencing groupID run) {op : Operation} {command : MetadataCommand}
    (fits : op.Fits groupID run.state) (computed : op.command config groupID run.state = some command) :
    Fencing groupID (run.propose groupID op command) := by
  obtain ⟨proposable, checked⟩ := @command_checked config groupID op command run.state run.applied.length
    fits computed
  refine ⟨?_, ?_, ?_, ?_, fencing.fenced⟩
  all_goals
    intro entry member
    rcases List.mem_append.mp member with old | last
  · exact fencing.proposable entry old
  · rw [List.mem_singleton.mp last]
    exact proposable
  · exact fencing.earlier entry old
  · rw [List.mem_singleton.mp last]
    exact le_refl _
  · exact fencing.checked entry old
  · rw [List.mem_singleton.mp last]
    exact checked
  · exact fencing.unchanged entry old
  · rw [List.mem_singleton.mp last]
    intro _
    rfl

/-- A command that is applied undisturbed keeps the commits fenced. -/
theorem Fencing.apply (fencing : Fencing groupID run) {place : Nat} {entry : Pending}
    (found : run.pending[place]? = some entry) (undisturbed : Undisturbed run (.apply place)) :
    Fencing groupID (run.apply place entry) := by
  have known := List.mem_of_getElem? found
  have old : ∀ other ∈ (run.apply place entry).pending, other ∈ run.pending := fun other member =>
    List.mem_of_mem_eraseIdx member
  refine ⟨fun other member => fencing.proposable other (old other member), ?_,
    fun other member => fencing.checked other (old other member), ?_, ?_⟩
  · intro other member
    have earlier := fencing.earlier other (old other member)
    simp only [GroupRun.apply, List.length_append, List.length_singleton]
    omega
  · intro other member quiet
    have earlier := fencing.earlier other (old other member)
    simp only [Pending.undisturbed, GroupRun.apply, List.drop_append_of_le_length earlier, List.all_append,
      List.all_cons, List.all_nil, Bool.and_true, Bool.and_eq_true, Bool.not_eq_true'] at quiet
    have kept := @update_keeps_membership groupID entry.op entry.command (fencing.proposable entry known) run.state
      quiet.2
    exact kept.trans (fencing.unchanged other (old other member) quiet.1)
  · intro applied member visited memberID generationID offsets op tp written
    rcases List.mem_append.mp member with earlier | last
    · exact fencing.fenced applied earlier visited memberID generationID offsets op tp written
    · rw [List.mem_singleton.mp last] at op ⊢
      have allowed := undisturbed entry found (congrArg Operation.isCommit op)
      exact (fencing.checked entry known visited memberID generationID offsets op tp written).congr
        (fencing.unchanged entry known allowed).symm

theorem Fencing.step (fencing : Fencing groupID run) {event : GroupEvent} (undisturbed : Undisturbed run event)
    (stepped : run.step config groupID event = some next) : Fencing groupID next := by
  obtain ⟨op, command, rfl, fits, computed, rfl⟩ | ⟨place, entry, rfl, found, rfl⟩ := GroupRun.step_cases stepped
  · exact fencing.propose fits computed
  · exact fencing.apply found undisturbed

end

/-- In every run of undisturbed commits each commit is fenced by its generation and its assignment. -/
theorem commits_fenced (config : GroupCoordinatorConfig) (groupID : String) (run : GroupRun)
    (reached : (groupRuns config groupID).Reaches Undisturbed run) : CommitsFenced groupID run := by
  have fencing : Fencing groupID run := by
    refine @System.Reaches.invariant _ _ _ _ (Fencing groupID) ?_ ?_ _ reached
    · rintro run ⟨_, _, pending, applied⟩
      refine ⟨?_, ?_, ?_, ?_, ?_⟩
      all_goals
        intro entry member
        simp only [pending, applied] at member
        cases member
    · intro run event next fencing undisturbed stepped
      exact fencing.step undisturbed stepped
  exact fencing.fenced

/-- A commit of offset five for the second partition by the first member in its first generation. -/
def commits : GroupEvent :=
  .propose (.commit [⟨"orders", 1⟩] "a" 1 ((∅ : KeyMap TopicPartition Int).insert ⟨"orders", 1⟩ 5))

/-- The commit is applied before the second member joins. -/
def promptEvents : List GroupEvent := [joins "a" [], .apply 0, commits, joins "b" ["a"], .apply 0, .apply 0]

theorem commits_fenced_before_join :
    ∃ run, follow (GroupRun.step defaultConfig "billing") ordersRun promptEvents = some run ∧
      (run.state.getGroupState "billing").bind (fun group => group.offsets.lookup ⟨"orders", 1⟩) = some 5 ∧
      CommitsFenced "billing" run := by
  have followed : follow (GroupRun.step defaultConfig "billing") ordersRun promptEvents =
      some ((follow (GroupRun.step defaultConfig "billing") ordersRun promptEvents).get
        (by decide +kernel)) := (some_get _).symm
  have reached := System.Reaches.run ordersRun_start
    (by decide +kernel : permits _ Undisturbed _ _) followed
  exact ⟨_, followed, by decide +kernel, commits_fenced defaultConfig "billing" _ reached⟩

/-- The second member joins between the check and the commit. -/
def delayedEvents : List GroupEvent := [joins "a" [], .apply 0, commits, joins "b" ["a"], .apply 1, .apply 0]

def delayedRun : GroupRun :=
  (follow (GroupRun.step defaultConfig "billing") ordersRun delayedEvents).get (by decide +kernel)

/-- The delayed commit writes an offset of a partition that belongs to another member in a later generation. -/
theorem delayed_commit_not_fenced :
    follow (GroupRun.step defaultConfig "billing") ordersRun delayedEvents = some delayedRun ∧
      (groupRuns defaultConfig "billing").Reaches System.Free delayedRun ∧
      delayedRun.applied.map (fun applied => (applied.result, (applied.before.getGroupState "billing").map
        fun group => (group.generationID, owned group.assignments "a", owned group.assignments "b"))) =
        [(okResult, none), (okResult, some (1, [⟨"orders", 0⟩, ⟨"orders", 1⟩], [])),
          (okResult, some (2, [⟨"orders", 0⟩], [⟨"orders", 1⟩]))] ∧
      (delayedRun.state.getGroupState "billing").bind (fun group => group.offsets.lookup ⟨"orders", 1⟩) = some 5 ∧
      ¬ CommitsFenced "billing" delayedRun := by
  have followed : follow (GroupRun.step defaultConfig "billing") ordersRun delayedEvents =
      some delayedRun := (some_get _).symm
  have reached := System.Reaches.run ordersRun_start
    (by decide +kernel : permits _ System.Free _ _) followed
  refine ⟨followed, reached, by decide +kernel, by decide +kernel, ?_⟩
  intro fenced
  have third : delayedRun.applied[2]?.map Applied.op = some (.commit [⟨"orders", 1⟩] "a" 1
      ((∅ : KeyMap TopicPartition Int).insert ⟨"orders", 1⟩ 5)) := by decide +kernel
  have later : delayedRun.applied[2]?.map (fun applied =>
      (applied.before.getGroupState "billing").map GroupState.generationID) = some (some 2) := by decide +kernel
  obtain ⟨applied, found, op⟩ := map_eq_some_iff.mp third
  obtain ⟨group, stored, _, generation, _⟩ := fenced applied (List.mem_of_getElem? found) _ _ _ _ op ⟨"orders", 1⟩
    (Finmap.mem_insert.mpr (.inl rfl))
  rw [found, map_some, stored, map_some, generation] at later
  exact absurd later (by decide)

end BunnyMQ.Group
