/-
This file shows when a consumer of a group polls everything that it owns.
-/

import BunnyMQ.Proof.Client.ConsumerRun

namespace BunnyMQ.Client
open Foundation Transition BunnyMQ.Group Consumer

/-- The partition of the next fetch still has an offset. -/
def Polling.Holds (c : Consumer) : Polling → Prop
  | .fetching (pw :: _) _ => pw.tp ∈ c.fetchOffsets
  | _ => True

/-- A fetched offset is stored only for a partition that still has one. -/
def Attached (run : ConsumerRun) : ConsumerEvent → Prop
  | .poll (.fetched _ _) => run.polling.Holds run.consumer
  | _ => True

instance (c : Consumer) : (polling : Polling) → Decidable (polling.Holds c)
  | .fetching (_ :: _) _ => inferInstanceAs (Decidable (_ ∈ _))
  | .outside | .entered | .fetching [] _ => .isTrue trivial

instance (run : ConsumerRun) : (event : ConsumerEvent) → Decidable (Attached run event)
  | .poll (.fetched _ _) => inferInstanceAs (Decidable (Polling.Holds _ _))
  | .poll .enter | .poll .snapshot | .poll .skipped | .poll .returned | .poll .failed | .loop _ => .isTrue trivial

/-- While no rebalance is in progress, the sought partitions are distinct, they are the keys of the offsets and every
assigned partition is among them. -/
def PollsOwned (run : ConsumerRun) : Prop :=
  run.background = .waiting → run.consumer.Tracked ∧ run.consumer.Covered

/-- What the background loop has still to seek before every assigned partition is covered. -/
def Background.Progress (c : Consumer) : Background → Prop
  | .required | .cleared _ _ | .located _ _ | .joined _ => True
  | .fetching _ assigned => c.assignedPartitions = assigned
  | .seeking _ _ pending => ∀ tp ∈ c.assignedPartitions, tp ∈ c.soughtPartitions ∨ tp ∈ pending
  | .waiting | .initialized _ | .committing _ | .reseeking _ | .finishing => c.Covered

structure Owning (run : ConsumerRun) : Prop where
  tracked : run.consumer.Tracked
  progress : run.background.Progress run.consumer

section
variable {c after : Consumer} {run next : ConsumerRun}

theorem mem_sought_seek (c : Consumer) {tp other : TP} {offset : Int} (sought : other ∈ c.soughtPartitions) :
    other ∈ (c.seek tp offset).soughtPartitions := by
  unfold Consumer.seek
  split
  · exact sought
  · exact List.mem_append_left _ sought

theorem sought_seek (tracked : c.Tracked) (tp : TP) (offset : Int) : tp ∈ (c.seek tp offset).soughtPartitions :=
  ((tracked.seek tp offset).keys tp).mpr (mem_seek.mpr (.inl rfl))

/-- A step of the background loop keeps the partitions tracked and makes progress. -/
theorem loopStep_owning {background later : Background} {event : LoopEvent} (tracked : c.Tracked)
    (progress : background.Progress c) (moved : loopStep c background event = some (after, later)) :
    after.Tracked ∧ later.Progress after := by
  cases background with
  | waiting =>
    cases event <;> cases moved
    exact ⟨⟨tracked.distinct, tracked.keys⟩, trivial⟩
  | required =>
    cases event <;> cases moved
    exact ⟨.clearPositions c, trivial⟩
  | cleared saved topics =>
    cases event <;> cases moved
    exact ⟨⟨tracked.distinct, tracked.keys⟩, trivial⟩
  | located saved topics =>
    cases event <;> cases moved
    exact ⟨⟨tracked.distinct, tracked.keys⟩, trivial⟩
  | joined saved =>
    cases event <;> cases moved
    refine ⟨tracked, ?_⟩
    split
    · next empty =>
      intro tp member
      rw [List.length_eq_zero_iff.mp empty] at member
      cases member
    · rfl
  | fetching saved assigned =>
    cases event <;> cases moved
    refine ⟨tracked, fun tp member => .inr ?_⟩
    rwa [progress] at member
  | seeking saved committed pending =>
    cases pending with
    | nil =>
      cases event <;> cases moved
      refine ⟨tracked, fun tp member => ?_⟩
      exact (progress tp member).resolve_right List.not_mem_nil
    | cons first pending =>
      cases event with
      | seek latestOffset =>
        simp only [loopStep] at moved
        split at moved
        · next offset _ =>
          cases moved
          refine ⟨tracked.seek first offset, fun tp member => ?_⟩
          rcases progress tp member with sought | waiting
          · exact .inl (mem_sought_seek c sought)
          · rcases List.mem_cons.mp waiting with rfl | later
            · exact .inl (sought_seek tracked tp offset)
            · exact .inr later
        · cases moved
      | _ => cases moved
  | initialized saved =>
    cases event <;> cases moved
    refine ⟨tracked, ?_⟩
    split
    · exact progress
    · exact progress
  | committing offsets =>
    cases event <;> cases moved
    exact ⟨tracked, progress⟩
  | reseeking pending =>
    cases event with
    | reseek tp =>
      obtain ⟨offset, _, same⟩ := Option.map_eq_some_iff.mp moved
      cases same
      exact ⟨tracked.seek tp offset, fun other member => mem_sought_seek c (progress other member)⟩
    | endReseek =>
      simp only [loopStep] at moved
      split at moved
      · cases moved
        exact ⟨tracked, progress⟩
      · cases moved
    | _ => cases moved
  | finishing =>
    cases event <;> cases moved
    exact ⟨⟨tracked.distinct, tracked.keys⟩, progress⟩

/-- A step of a poll moves only positions that the consumer tracks. -/
theorem pollStep_owning {polling later : Polling} {event : PollEvent} {background : Background} (tracked : c.Tracked)
    (progress : background.Progress c) (attached : Attached ⟨c, polling, background⟩ (.poll event))
    (moved : pollStep c polling event = some (after, later)) : after.Tracked ∧ background.Progress after := by
  cases polling with
  | outside =>
    cases event with
    | enter =>
      simp only [pollStep] at moved
      split at moved
      · cases moved
      · cases moved
        exact ⟨tracked, progress⟩
    | _ => cases moved
  | entered =>
    cases event <;> cases moved
    exact ⟨tracked, progress⟩
  | fetching work out =>
    cases work with
    | nil =>
      cases event <;> cases moved
      exact ⟨tracked, progress⟩
    | cons pw work =>
      cases event with
      | fetched recs nextOff =>
        cases moved
        refine ⟨tracked.storeFetched attached nextOff, ?_⟩
        -- A fetched offset changes neither the assigned nor the sought partitions.
        cases background <;> exact progress
      | enter => cases moved
      | snapshot => cases moved
      | _ =>
        cases moved
        exact ⟨tracked, progress⟩

/-- Every allowed step keeps the partitions tracked. -/
theorem Owning.step {event : ConsumerEvent} (owning : Owning run) (attached : Attached run event)
    (moved : run.step event = some next) : Owning next := by
  obtain ⟨tracked, progress⟩ := owning
  cases event with
  | loop event =>
    obtain ⟨⟨after, later⟩, stepped, rfl⟩ := Option.map_eq_some_iff.mp moved
    obtain ⟨kept, further⟩ := loopStep_owning tracked progress stepped
    exact ⟨kept, further⟩
  | poll event =>
    obtain ⟨⟨after, later⟩, stepped, rfl⟩ := Option.map_eq_some_iff.mp moved
    obtain ⟨kept, further⟩ := pollStep_owning tracked progress attached stepped
    exact ⟨kept, further⟩

/-- A consumer that has subscribed covers its assignment. -/
theorem subscribe_owning {config : ConsumerConfig} {fresh : Consumer} {rpcs : Rpcs} {topics : List String}
    (grouped : config.groupID ≠ "") (created : newConsumer config = .ok fresh)
    (subscribed : fresh.subscribe rpcs topics = (c, none)) : c.Tracked ∧ c.Covered := by
  have empty : fresh.soughtPartitions = [] ∧ fresh.fetchOffsets = ∅ ∧ fresh.config.groupID ≠ "" := by
    unfold newConsumer at created
    split at created
    · cases created
    · cases created
      exact ⟨rfl, rfl, grouped⟩
  obtain ⟨none, nowhere, member⟩ := empty
  rw [Consumer.subscribe, if_neg member] at subscribed
  have tracked : Tracked { fresh with subscribedTopics := topics } := by
    refine ⟨?_, fun tp => ?_⟩
    · rw [none]
      exact List.nodup_nil
    · rw [none, nowhere]
      exact iff_of_false List.not_mem_nil Finmap.notMem_empty
  have joined := @joinGroup_finished _ rpcs topics tracked (congrArg Prod.snd subscribed)
  rw [subscribed] at joined
  exact joined

end

/-- In every run in which fetched offsets are stored for tracked partitions only, the consumer polls what it owns. -/
theorem owned_partitions_polled (run : ConsumerRun) (reached : consumerRuns.Reaches Attached run) : PollsOwned run := by
  have owning : Owning run := by
    refine @System.Reaches.invariant _ _ _ _ Owning ?_ ?_ _ reached
    · rintro state ⟨⟨config, fresh, rpcs, topics, grouped, created, subscribed⟩, _, waiting⟩
      obtain ⟨tracked, covered⟩ := subscribe_owning grouped created subscribed
      refine ⟨tracked, ?_⟩
      rw [waiting]
      exact covered
    · intro state event next owning attached moved
      exact owning.step attached moved
  intro waiting
  have progress := owning.progress
  rw [waiting] at progress
  exact ⟨owning.tracked, progress⟩

def billingConfig : ConsumerConfig := ⟨["a:1"], "billing", 0, 0, .earliest, 0, 5000⟩

/-- Every call is answered, and the group gives this partition to the consumer. -/
def billingRpcs : Rpcs where
  describeCluster _ _ := .ok ["a:1"]
  joinGroup _ _ _ := .ok ⟨"m", 1, [⟨"orders", 0⟩]⟩
  fetchCommittedOffsets _ _ := .ok [(⟨"orders", 0⟩, 3)]
  latestOffset _ := .ok 0
  commitOffset _ _ := .ok ()

def freshConsumer : Consumer := (newConsumer billingConfig).toOption.get (by decide)

def subscribedRun : ConsumerRun := ⟨(freshConsumer.subscribe billingRpcs ["orders"]).1, .outside, .waiting⟩

theorem subscribedRun_start : consumerRuns.start subscribedRun :=
  ⟨⟨billingConfig, freshConsumer, billingRpcs, ["orders"], by decide, rfl, Prod.ext rfl (by decide +kernel)⟩, rfl, rfl⟩

/-- The background loop behind the moment in which it has cleared the positions. -/
def rejoinEvents : List ConsumerEvent :=
  [.loop (.locate "a:1"), .loop (.join ⟨"m", 2, [⟨"orders", 0⟩]⟩), .loop .copyAssigned,
    .loop (.receiveCommitted [(⟨"orders", 0⟩, 3)]), .loop (.seek 0), .loop .endSeek, .loop .prepareCommit,
    .loop .commit,
    .loop (.reseek ⟨"orders", 0⟩), .loop .endReseek, .loop .finish]

/-- The fetch is stored before the positions are cleared. -/
def orderlyEvents : List ConsumerEvent :=
  [.poll .enter, .poll .snapshot, .loop .require, .poll (.fetched [] 5), .loop .clear] ++ rejoinEvents

def orderlyRun : ConsumerRun := (follow ConsumerRun.step subscribedRun orderlyEvents).get (by decide +kernel)

theorem owned_partitions_polled_after_rebalance :
    consumerRuns.Reaches Attached orderlyRun ∧ orderlyRun.background = .waiting ∧
      orderlyRun.consumer.fetchOffsets.lookup ⟨"orders", 0⟩ = some 5 ∧ PollsOwned orderlyRun := by
  have followed : follow ConsumerRun.step subscribedRun orderlyEvents = some orderlyRun := (Option.some_get _).symm
  have reached : consumerRuns.Reaches Attached orderlyRun :=
    System.Reaches.run subscribedRun_start
      (by decide +kernel : permits ConsumerRun.step Attached subscribedRun orderlyEvents) followed
  exact ⟨reached, by decide +kernel, by decide +kernel, owned_partitions_polled orderlyRun reached⟩

/-- The fetch is stored behind the moment in which the positions are cleared. -/
def lateEvents : List ConsumerEvent :=
  [.poll .enter, .poll .snapshot, .loop .require, .loop .clear, .poll (.fetched [] 5)] ++ rejoinEvents

def lateRun : ConsumerRun := (follow ConsumerRun.step subscribedRun lateEvents).get (by decide +kernel)

/-- A fetch in flight stores its offset while the positions are cleared, and the partition is never polled again. -/
theorem late_fetch_hides_partition :
    consumerRuns.Reaches System.Free lateRun ∧ lateRun.background = .waiting ∧
      lateRun.consumer.assignedPartitions = [⟨"orders", 0⟩] ∧ lateRun.consumer.soughtPartitions = [] ∧
      ⟨"orders", 0⟩ ∈ lateRun.consumer.fetchOffsets ∧ ¬ PollsOwned lateRun := by
  have followed : follow ConsumerRun.step subscribedRun lateEvents = some lateRun := (Option.some_get _).symm
  have reached : consumerRuns.Reaches System.Free lateRun :=
    System.Reaches.run subscribedRun_start
      (by decide +kernel : permits ConsumerRun.step System.Free subscribedRun lateEvents) followed
  have waiting : lateRun.background = .waiting := by decide +kernel
  have assigned : lateRun.consumer.assignedPartitions = [⟨"orders", 0⟩] := by decide +kernel
  have sought : lateRun.consumer.soughtPartitions = [] := by decide +kernel
  refine ⟨reached, waiting, assigned, sought, by decide +kernel, ?_⟩
  intro owned
  have covered := (owned waiting).2 ⟨"orders", 0⟩ (by rw [assigned]; exact List.mem_singleton_self _)
  rw [sought] at covered
  cases covered

end BunnyMQ.Client
