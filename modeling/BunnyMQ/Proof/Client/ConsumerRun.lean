/-
This file describes runs in which the polls of a consumer and its background loop take their locks in any order.
-/

import BunnyMQ.Library.Transition
import BunnyMQ.Proof.Client.Positions

namespace BunnyMQ.Client
open Foundation Transition BunnyMQ.Group

/-- The background loop is between two of its critical sections. -/
inductive Background where
  | waiting
  | required
  | cleared (saved : KeyMap TP Int) (topics : List String)
  | located (saved : KeyMap TP Int) (topics : List String)
  | joined (saved : KeyMap TP Int)
  | fetching (saved : KeyMap TP Int) (assigned : List TP)
  | seeking (saved committed : KeyMap TP Int) (pending : List TP)
  | initialized (saved : KeyMap TP Int)
  | committing (offsets : KeyMap TP Int)
  | reseeking (pending : KeyMap TP Int)
  | finishing
  deriving DecidableEq

/-- The application is outside of `Poll`, has seen the flag or fetches partition by partition. -/
inductive Polling where
  | outside
  | entered
  | fetching (work : List PartitionWork) (out : List PolledRecord)
  deriving DecidableEq

structure ConsumerRun where
  consumer : Consumer
  polling : Polling
  background : Background
  deriving DecidableEq

/-- The critical sections of the background loop, with the answers of its calls. -/
inductive LoopEvent where
  | require
  | clear
  | locate (addr : String)
  | join (resp : JoinGroupResponse)
  | copyAssigned
  | receiveCommitted (offsets : List (TP × Int))
  | seek (latestOffset : Int)
  | endSeek
  | prepareCommit
  | commit
  | reseek (tp : TP)
  | endReseek
  | finish
  deriving DecidableEq

/-- The critical sections of a poll. A fetch ends with records, is skipped or fails. -/
inductive PollEvent where
  | enter
  | snapshot
  | fetched (recs : List PolledRecord) (nextOff : Int)
  | skipped
  | returned
  | failed
  deriving DecidableEq

inductive ConsumerEvent where
  | loop (event : LoopEvent)
  | poll (event : PollEvent)
  deriving DecidableEq

/-- The background loop rebalances while every call succeeds. -/
def loopStep (c : Consumer) : Background → LoopEvent → Option (Consumer × Background)
  | .waiting, .require => some ({ c with rebalancing := true }, .required)
  | .required, .clear => some (c.clearPositions, .cleared c.fetchOffsets c.subscribedTopics)
  | .cleared saved topics, .locate addr => some ({ c with coordAddr := addr }, .located saved topics)
  | .located saved _, .join resp => some (c.storeJoin resp, .joined saved)
  | .joined saved, .copyAssigned =>
    some (c, if c.assignedPartitions.length = 0 then .initialized saved else .fetching saved c.assignedPartitions)
  | .fetching saved assigned, .receiveCommitted offsets =>
    some (c, .seeking saved (Consumer.committedOffsets offsets) assigned)
  | .seeking saved committed (tp :: pending), .seek latestOffset =>
    match Consumer.startOffset c.config.autoOffsetReset (fun _ => .ok latestOffset) committed tp with
    | .ok offset => some (c.seek tp offset, .seeking saved committed pending)
    | .error _ => none
  | .seeking saved _ [], .endSeek => some (c, .initialized saved)
  | .initialized saved, .prepareCommit =>
    let offsets := Consumer.toCommit saved c.assignedPartitions
    some (c, if (visit offsets).length > 0 then .committing offsets else .finishing)
  | .committing offsets, .commit => some (c, .reseeking offsets)
  | .reseeking pending, .reseek tp =>
    (pending.lookup tp).map fun offset => (c.seek tp offset, .reseeking (pending.erase tp))
  | .reseeking pending, .endReseek => if pending = ∅ then some (c, .finishing) else none
  | .finishing, .finish => some ({ c with rebalancing := false }, .waiting)
  | _, _ => none

/-- A poll passes its first check only while the flag is down. -/
def pollStep (c : Consumer) : Polling → PollEvent → Option (Consumer × Polling)
  | .outside, .enter => if c.rebalancing then none else some (c, .entered)
  | .entered, .snapshot => some (c, .fetching c.pollWork [])
  | .fetching (pw :: work) out, .fetched recs nextOff =>
    some (c.storeFetched pw.tp nextOff, .fetching work (out ++ recs))
  | .fetching (_ :: work) out, .skipped => some (c, .fetching work out)
  | .fetching _ _, .returned => some (c, .outside)
  | .fetching (_ :: _) _, .failed => some (c, .outside)
  | _, _ => none

def ConsumerRun.step (run : ConsumerRun) : ConsumerEvent → Option ConsumerRun
  | .loop event => (loopStep run.consumer run.background event).map fun after => ⟨after.1, run.polling, after.2⟩
  | .poll event => (pollStep run.consumer run.polling event).map fun after => ⟨after.1, after.2, run.background⟩

/-- A run starts when a consumer of a group has subscribed. -/
def consumerRuns : System ConsumerRun ConsumerEvent where
  start run := (∃ config fresh rpcs topics, config.groupID ≠ "" ∧ newConsumer config = .ok fresh ∧
    fresh.subscribe rpcs topics = (run.consumer, none)) ∧ run.polling = .outside ∧ run.background = .waiting
  step run event next := run.step event = some next

def loopAlone (state : Consumer × Background) (event : LoopEvent) : Option (Consumer × Background) :=
  loopStep state.1 state.2 event

def pollAlone (state : Consumer × Polling) (event : PollEvent) : Option (Consumer × Polling) :=
  pollStep state.1 state.2 event

/-- Every call of a rebalance is answered. -/
structure Rpcs.Answered (rpcs : Rpcs) : Prop where
  cluster : ∀ call addr, ∃ nodes, rpcs.describeCluster call addr = .ok nodes
  join : ∀ call addr req, ∃ resp, rpcs.joinGroup call addr req = .ok resp
  committed : ∀ addr assigned, ∃ offsets, rpcs.fetchCommittedOffsets addr assigned = .ok offsets
  latest : ∀ tp, ∃ offset, rpcs.latestOffset tp = .ok offset
  commit : ∀ addr req, rpcs.commitOffset addr req = .ok ()

section
variable {c : Consumer} {rpcs : Rpcs}

/-- Without a rebalance in between, the steps of a poll compute `Poll`. -/
theorem poll_of_steps (answer : FetchAnswers) (idle : c.rebalancing = false) :
    Leads pollAlone (c, .outside) ((c.poll answer).1, .outside) := by
  have fetches (work : List PartitionWork) (c : Consumer) (out : List PolledRecord) :
      Leads pollAlone (c, .fetching work out) ((Consumer.pollLoop answer work c out).1, .outside) := by
    induction work generalizing c out with
    | nil => exact .head .returned rfl (.refl _ _)
    | cons pw work ih =>
      rw [Consumer.pollLoop]
      cases answer pw with
      | none => exact .head .returned rfl (.refl _ _)
      | some response =>
        simp only
        cases fetchPartition response pw.tp with
        | ok fetched => exact .head (.fetched fetched.1 fetched.2) rfl (ih _ _)
        | error failure =>
          simp only
          split
          · exact .head .skipped rfl (ih _ _)
          · exact .head .failed rfl (.refl _ _)
  have entered : pollAlone (c, .outside) .enter = some (c, .entered) := by
    rw [pollAlone, pollStep, if_neg (by rw [idle]; decide)]
  exact .head .enter entered (.head .snapshot rfl (fetches _ _ _))

/-- One answered latest offset gives the start offset. -/
theorem startOffset_answered (latest : ∀ tp, ∃ offset, rpcs.latestOffset tp = .ok offset) (policy : OffsetResetPolicy)
    (committed : KeyMap TP Int) (tp : TP) :
    ∃ offset answer, Consumer.startOffset policy rpcs.latestOffset committed tp = .ok offset ∧
      Consumer.startOffset policy (fun _ => .ok answer) committed tp = .ok offset := by
  obtain ⟨answer, answered⟩ := latest tp
  have same : Consumer.startOffset policy rpcs.latestOffset committed tp =
      Consumer.startOffset policy (fun _ => .ok answer) committed tp := by
    unfold Consumer.startOffset
    rw [answered]
  have reset : ∃ offset, Consumer.resetOffset policy (.ok answer) = .ok offset := by
    cases policy with
    | latest => exact ⟨answer, rfl⟩
    | earliest => exact ⟨0, rfl⟩
  have found : ∃ offset, Consumer.startOffset policy (fun _ => .ok answer) committed tp = .ok offset := by
    unfold Consumer.startOffset
    split
    · split
      · exact ⟨_, rfl⟩
      · exact reset
    · exact reset
  obtain ⟨offset, started⟩ := found
  exact ⟨offset, answer, same.trans started, started⟩

/-- The loop over the assigned partitions takes one step for each of them. -/
theorem seekAll_of_steps (answered : rpcs.Answered) (saved committed : KeyMap TP Int) (pending : List TP)
    (c : Consumer) :
    ∃ after, Consumer.seekAll (Consumer.startOffset c.config.autoOffsetReset rpcs.latestOffset committed) pending c =
        (after, none) ∧ Leads loopAlone (c, .seeking saved committed pending) (after, .initialized saved) := by
  induction pending generalizing c with
  | nil => exact ⟨c, rfl, .head .endSeek rfl (.refl _ _)⟩
  | cons tp pending ih =>
    obtain ⟨offset, answer, started, stepped⟩ :=
      startOffset_answered answered.latest c.config.autoOffsetReset committed tp
    obtain ⟨after, sought, leads⟩ := ih (c.seek tp offset)
    refine ⟨after, ?_, .head (.seek answer) ?_ leads⟩
    · rw [Consumer.seekAll, started]
      exact sought
    · simp only [loopAlone, loopStep, stepped]

/-- The loop over the committed positions takes one step for each of them. -/
theorem seekCommitted_of_steps (offsets : KeyMap TP Int) (c : Consumer) :
    Leads loopAlone (c, .reseeking offsets) (Consumer.seekCommitted offsets c, .finishing) := by
  have visits (keys : List TP) (distinct : keys.Nodup) (pending : KeyMap TP Int) (c : Consumer)
      (all : ∀ tp, tp ∈ pending ↔ tp ∈ keys) (same : ∀ tp ∈ keys, pending.lookup tp = offsets.lookup tp) :
      Leads loopAlone (c, .reseeking pending)
        (keys.foldl (fun c tp => c.seek tp ((offsets.lookup tp).getD 0)) c, .finishing) := by
    induction keys generalizing pending c with
    | nil =>
      have empty : pending = ∅ := by
        refine Finmap.ext_lookup fun tp => ?_
        rw [Finmap.lookup_empty, Finmap.lookup_eq_none, all]
        exact List.not_mem_nil
      refine .head .endReseek ?_ (.refl _ _)
      rw [loopAlone, loopStep, if_pos empty]
      rfl
    | cons tp keys ih =>
      obtain ⟨fresh, further⟩ := List.nodup_cons.mp distinct
      obtain ⟨offset, found⟩ := Finmap.mem_iff.mp ((all tp).mpr List.mem_cons_self)
      have value : (offsets.lookup tp).getD 0 = offset := by
        rw [← same tp List.mem_cons_self, found, Option.getD_some]
      rw [List.foldl_cons, value]
      refine .head (.reseek tp) ?_ (ih further (pending.erase tp) (c.seek tp offset) ?_ ?_)
      · rw [loopAlone, loopStep, found]
        rfl
      · intro other
        rw [Finmap.mem_erase, all, List.mem_cons]
        constructor
        · rintro ⟨different, rfl | later⟩
          · exact absurd rfl different
          · exact later
        · intro later
          exact ⟨fun equal => fresh (equal ▸ later), .inr later⟩
      · intro other later
        have different : other ≠ tp := fun equal => fresh (equal ▸ later)
        rw [Finmap.lookup_erase_ne different, same other (List.mem_cons_of_mem _ later)]
  exact visits (visit offsets) (Consumer.visit_nodup offsets) offsets c (fun tp => Consumer.mem_visit.symm)
    (fun _ _ => rfl)

/-- The positions are initialised by steps of the background loop. -/
theorem initFetchOffsets_of_steps (answered : rpcs.Answered) (saved : KeyMap TP Int) (c : Consumer) :
    ∃ after, c.initFetchOffsets rpcs = (after, none) ∧
      Leads loopAlone (c, .joined saved) (after, .initialized saved) := by
  unfold Consumer.initFetchOffsets
  by_cases empty : c.assignedPartitions.length = 0
  · refine ⟨c, if_pos empty, .head .copyAssigned ?_ (.refl _ _)⟩
    rw [loopAlone, loopStep, if_pos empty]
  · obtain ⟨offsets, received⟩ := answered.committed c.coordAddr c.assignedPartitions
    obtain ⟨after, sought, leads⟩ :=
      seekAll_of_steps answered saved (Consumer.committedOffsets offsets) c.assignedPartitions c
    have copied : loopAlone (c, .joined saved) .copyAssigned = some (c, .fetching saved c.assignedPartitions) := by
      rw [loopAlone, loopStep, if_neg empty]
    refine ⟨after, ?_, .head .copyAssigned copied (.head (.receiveCommitted offsets) rfl leads)⟩
    rw [if_neg empty, received]
    exact sought

/-- The saved positions are committed and sought by steps of the background loop. -/
theorem commitSaved_of_steps (answered : rpcs.Answered) (grouped : c.config.groupID ≠ "") (saved : KeyMap TP Int) :
    Leads loopAlone (c, .initialized saved)
      ({ Consumer.commitSaved rpcs saved c with rebalancing := false }, .waiting) := by
  refine .head .prepareCommit rfl ?_
  unfold Consumer.commitSaved
  simp only
  split
  · refine .head .commit rfl ((seekCommitted_of_steps _ c).trans ?_)
    rw [Consumer.commitOffsets, if_neg grouped, answered.commit]
    exact .head .finish rfl (.refl _ _)
  · exact .head .finish rfl (.refl _ _)

theorem requestJoin_answered (answered : rpcs.Answered) (reachable : c.knownAddrs ≠ []) (topics : List String) :
    ∃ addr resp, c.requestJoin rpcs topics = ({ c with coordAddr := addr }, .ok resp) := by
  obtain ⟨first, rest, known⟩ := List.exists_cons_of_ne_nil reachable
  obtain ⟨nodes, described⟩ := answered.cluster 0 first
  have located : c.findCoordinator (rpcs.describeCluster 0) = ({ c with coordAddr := nodes.headD first }, none) := by
    rw [Consumer.findCoordinator, known, Consumer.firstCoordinator, described]
  have joins (c : Consumer) : ∃ resp, c.doJoinGroup (rpcs.joinGroup 0) topics = .ok resp := answered.join _ _ _
  obtain ⟨resp, joined⟩ := joins { c with coordAddr := nodes.headD first }
  refine ⟨nodes.headD first, resp, ?_⟩
  rw [Consumer.requestJoin, located]
  simp only [joined]

/-- Without a poll in between, the steps of the background loop compute `rebalance`. -/
theorem rebalance_of_steps (answered : rpcs.Answered) (reachable : c.knownAddrs ≠ [])
    (grouped : c.config.groupID ≠ "") :
    Leads loopAlone (c, .required) (c.rebalance rpcs, .waiting) := by
  obtain ⟨addr, resp, requested⟩ := @requestJoin_answered c.clearPositions rpcs answered reachable c.subscribedTopics
  obtain ⟨after, initialized, leads⟩ := initFetchOffsets_of_steps answered c.fetchOffsets
    ({ c.clearPositions with coordAddr := addr }.storeJoin resp)
  have joined : c.clearPositions.joinGroup rpcs c.subscribedTopics = (after, none) := by
    rw [Consumer.joinGroup, requested]
    exact initialized
  have kept : after.config.groupID ≠ "" := by
    have same := Consumer.initFetchOffsets_same rpcs ({ c.clearPositions with coordAddr := addr }.storeJoin resp)
    rw [initialized] at same
    obtain ⟨_, _, rfl⟩ := same
    exact grouped
  rw [Consumer.rebalance, joined]
  refine .head .clear rfl (.head (.locate addr) rfl (.head (.join resp) rfl (leads.trans ?_)))
  exact commitSaved_of_steps answered kept c.fetchOffsets

end

end BunnyMQ.Client
