/-
This file relates the offsets that a consumer commits to the records that its polls have returned.
-/

import BunnyMQ.Proof.Client.Coverage

namespace BunnyMQ.Client
open Foundation Transition

def PolledRecord.tp (record : PolledRecord) : TP := ⟨record.topic, record.partitionID⟩

/-- The records that a poll has fetched and not returned yet. -/
def Polling.undelivered : Polling → List PolledRecord
  | .fetching _ out => out
  | .outside | .entered => []

/-- The offsets of a commit, with what the consumer had fetched and the application had received by then. -/
structure SentCommit where
  offsets : KeyMap TP Int
  fetched : List PolledRecord
  returned : List PolledRecord
  deriving DecidableEq

/-- Every fetched record below a committed offset has been returned. -/
def SentCommit.Delivered (commit : SentCommit) : Prop :=
  ∀ record ∈ commit.fetched, ∀ offset, commit.offsets.lookup record.tp = some offset → record.offset.toInt < offset →
    record ∈ commit.returned

/-- A consumer and its application, with the records and the commits so far. -/
structure DeliveryRun where
  run : ConsumerRun
  /-- A poll has ended. -/
  polled : Bool
  /-- The positions that `Commit` has read and not sent yet. -/
  pending : Option (KeyMap TP Int)
  fetched : List PolledRecord
  returned : List PolledRecord
  commits : List SentCommit
  deriving DecidableEq

/-- The application polls and commits in one thread. -/
inductive DeliveryEvent where
  | loop (event : LoopEvent)
  | poll (event : PollEvent)
  | readPositions
  | sendCommit
  deriving DecidableEq

namespace DeliveryRun

def send (state : DeliveryRun) (offsets : KeyMap TP Int) : DeliveryRun :=
  { state with commits := state.commits ++ [⟨offsets, state.fetched, state.returned⟩] }

/-- The commit of a rebalance is recorded. -/
def noteLoop (state : DeliveryRun) : Background → LoopEvent → DeliveryRun
  | .committing offsets, .commit => state.send offsets
  | _, _ => state

/-- What a poll fetches and what it returns is recorded. -/
def notePoll (state : DeliveryRun) (polling : Polling) : PollEvent → DeliveryRun
  | .fetched recs _ => { state with fetched := state.fetched ++ recs }
  | .returned => { state with returned := state.returned ++ polling.undelivered, polled := true }
  | .failed => { state with polled := true }
  | .enter | .snapshot | .skipped => state

def step (state : DeliveryRun) : DeliveryEvent → Option DeliveryRun
  | .loop event => (state.run.step (.loop event)).map
    fun next => { state.noteLoop state.run.background event with run := next }
  | .poll event =>
    if state.pending = none then
      (state.run.step (.poll event)).map fun next => { state.notePoll state.run.polling event with run := next }
    else none
  | .readPositions =>
    if state.run.polling = .outside ∧ state.polled ∧ state.pending = none then
      some { state with pending := some state.run.consumer.positions }
    else none
  | .sendCommit => state.pending.map fun offsets => { state.send offsets with pending := none }

end DeliveryRun

/-- A run starts with a consumer that has subscribed and an application that has not polled yet. -/
def deliveryRuns : System DeliveryRun DeliveryEvent where
  start state := consumerRuns.start state.run ∧ state.polled = false ∧ state.pending = none ∧ state.fetched = [] ∧
    state.returned = [] ∧ state.commits = []
  step state event next := state.step event = some next

/-- The offsets of a rebalance pass no record of a poll in progress. -/
def Background.Passes (polling : Polling) : Background → Prop
  | .committing offsets => ∀ record ∈ polling.undelivered, ∀ offset ∈ offsets.lookup record.tp,
    offset ≤ record.offset.toInt
  | _ => True

/-- A rebalance commits no position behind a record that a poll still holds, and a poll fails before it holds one. -/
def Handed (state : DeliveryRun) : DeliveryEvent → Prop
  | .loop .commit => state.run.background.Passes state.run.polling
  | .poll .failed => state.run.polling.undelivered = []
  | _ => True

/-- Every fetched record has been returned or is held by the poll in progress. -/
structure Accounted (state : DeliveryRun) : Prop where
  fetched : ∀ record ∈ state.fetched, record ∈ state.returned ∨ record ∈ state.run.polling.undelivered
  outside : state.pending ≠ none → state.run.polling = .outside
  commits : ∀ commit ∈ state.commits, commit.Delivered

instance (polling : Polling) : (background : Background) → Decidable (background.Passes polling)
  | .committing offsets => inferInstanceAs (Decidable
      (∀ record ∈ polling.undelivered, ∀ offset ∈ offsets.lookup record.tp, offset ≤ record.offset.toInt))
  | .waiting | .required | .cleared _ _ | .located _ _ | .joined _ | .fetching _ _ | .seeking _ _ _ | .initialized _
  | .reseeking _ | .finishing => .isTrue trivial

instance (state : DeliveryRun) : (event : DeliveryEvent) → Decidable (Handed state event)
  | .loop .commit => inferInstanceAs (Decidable (Background.Passes _ _))
  | .poll .failed => inferInstanceAs (Decidable (_ = []))
  | .loop .require | .loop .clear | .loop (.locate _) | .loop (.join _) | .loop .copyAssigned
  | .loop (.receiveCommitted _) | .loop (.seek _) | .loop .endSeek | .loop .prepareCommit | .loop (.reseek _)
  | .loop .endReseek | .loop .finish | .poll .enter | .poll .snapshot | .poll (.fetched _ _) | .poll .skipped
  | .poll .returned | .readPositions | .sendCommit => .isTrue trivial

section
variable {state next : DeliveryRun}

/-- What a poll holds behind one of its steps. -/
def PollEvent.holding (held : List PolledRecord) : PollEvent → List PolledRecord
  | .fetched recs _ => held ++ recs
  | .returned | .failed => []
  | .enter | .snapshot | .skipped => held

/-- A step changes the records that a poll holds by its event. -/
theorem pollStep_undelivered {c after : Consumer} {polling later : Polling} {event : PollEvent}
    (moved : pollStep c polling event = some (after, later)) :
    later.undelivered = event.holding polling.undelivered := by
  cases polling with
  | outside =>
    cases event with
    | enter =>
      simp only [pollStep] at moved
      split at moved
      · cases moved
      · cases moved
        rfl
    | _ => cases moved
  | entered =>
    cases event <;> cases moved
    rfl
  | fetching work out =>
    cases work with
    | nil =>
      cases event <;> cases moved
      rfl
    | cons pw work =>
      cases event <;> cases moved <;> rfl

theorem Accounted.send (accounted : Accounted state) {offsets : KeyMap TP Int}
    (delivered : SentCommit.Delivered ⟨offsets, state.fetched, state.returned⟩) : Accounted (state.send offsets) where
  fetched := accounted.fetched
  outside := accounted.outside
  commits := by
    intro commit member
    rcases List.mem_append.mp member with earlier | last
    · exact accounted.commits commit earlier
    · rw [List.mem_singleton.mp last]
      exact delivered

/-- The background loop commits positions that every poll has passed on. -/
theorem Accounted.noteLoop (accounted : Accounted state) {event : LoopEvent} (handed : Handed state (.loop event)) :
    Accounted (state.noteLoop state.run.background event) := by
  unfold DeliveryRun.noteLoop
  split
  · next offsets committing =>
    refine accounted.send ?_
    intro record fetched offset committed below
    rcases accounted.fetched record fetched with returned | held
    · exact returned
    · change Background.Passes state.run.polling state.run.background at handed
      rw [committing] at handed
      have behind := handed record held offset committed
      omega
  · exact accounted

/-- What a poll fetches is accounted for until the poll returns it. -/
theorem Accounted.notePoll (accounted : Accounted state) {event : PollEvent} (handed : Handed state (.poll event))
    {after : Consumer} {later : Polling}
    (moved : pollStep state.run.consumer state.run.polling event = some (after, later)) :
    ∀ record ∈ (state.notePoll state.run.polling event).fetched,
      record ∈ (state.notePoll state.run.polling event).returned ∨ record ∈ later.undelivered := by
  have held := pollStep_undelivered moved
  intro record member
  rw [held]
  cases event with
  | fetched recs nextOff =>
    rcases List.mem_append.mp member with earlier | new
    · rcases accounted.fetched record earlier with returned | waiting
      · exact .inl returned
      · exact .inr (List.mem_append_left _ waiting)
    · exact .inr (List.mem_append_right _ new)
  | returned =>
    rcases accounted.fetched record member with returned | waiting
    · exact .inl (List.mem_append_left _ returned)
    · exact .inl (List.mem_append_right _ waiting)
  | failed =>
    rcases accounted.fetched record member with returned | waiting
    · exact .inl returned
    · change state.run.polling.undelivered = [] at handed
      rw [handed] at waiting
      cases waiting
  | enter => exact accounted.fetched record member
  | snapshot => exact accounted.fetched record member
  | skipped => exact accounted.fetched record member

theorem commits_notePoll (state : DeliveryRun) (polling : Polling) (event : PollEvent) :
    (state.notePoll polling event).commits = state.commits ∧
    (state.notePoll polling event).pending = state.pending := by
  cases event <;> exact ⟨rfl, rfl⟩

/-- Every allowed step keeps the records accounted for. -/
theorem Accounted.step {event : DeliveryEvent} (accounted : Accounted state) (handed : Handed state event)
    (moved : state.step event = some next) : Accounted next := by
  cases event with
  | loop event =>
    obtain ⟨run, stepped, rfl⟩ := Option.map_eq_some_iff.mp moved
    obtain ⟨⟨after, later⟩, _, rfl⟩ := Option.map_eq_some_iff.mp stepped
    have noted := accounted.noteLoop handed
    have kept : (state.noteLoop state.run.background event).run = state.run := by
      unfold DeliveryRun.noteLoop
      split <;> rfl
    refine ⟨?_, ?_, noted.commits⟩
    · have held := noted.fetched
      rw [kept] at held
      exact held
    · have waits := noted.outside
      rw [kept] at waits
      exact waits
  | poll event =>
    simp only [DeliveryRun.step] at moved
    split at moved
    · next free =>
      obtain ⟨run, stepped, rfl⟩ := Option.map_eq_some_iff.mp moved
      obtain ⟨⟨after, later⟩, polls, rfl⟩ := Option.map_eq_some_iff.mp stepped
      obtain ⟨commits, pending⟩ := commits_notePoll state state.run.polling event
      refine ⟨accounted.notePoll handed polls, ?_, ?_⟩
      · intro busy
        exact absurd (pending.trans free) busy
      · intro commit member
        exact accounted.commits commit (commits ▸ member)
    · cases moved
  | readPositions =>
    simp only [DeliveryRun.step] at moved
    split at moved
    · next free =>
      cases moved
      exact ⟨accounted.fetched, fun _ => free.1, accounted.commits⟩
    · cases moved
  | sendCommit =>
    obtain ⟨offsets, read, rfl⟩ := Option.map_eq_some_iff.mp moved
    have outside := accounted.outside (by rw [read]; exact Option.some_ne_none _)
    have sent : Accounted (state.send offsets) := by
      refine accounted.send ?_
      intro record fetched offset _ _
      rcases accounted.fetched record fetched with returned | held
      · exact returned
      · rw [outside] at held
        cases held
    exact ⟨sent.fetched, fun busy => absurd rfl busy, sent.commits⟩

end

/-- In every run in which neither a rebalance nor a failure overtakes the records of a poll, every committed offset
lies behind records that the application has received. -/
theorem committed_records_delivered (state : DeliveryRun) (reached : deliveryRuns.Reaches Handed state) :
    ∀ commit ∈ state.commits, commit.Delivered := by
  have accounted : Accounted state := by
    refine @System.Reaches.invariant _ _ _ _ Accounted ?_ ?_ _ reached
    · intro first begins
      obtain ⟨_, _, free, fetched, _, commits⟩ := begins
      refine ⟨?_, fun busy => absurd free busy, ?_⟩
      · rw [fetched]
        exact List.forall_mem_nil _
      · rw [commits]
        exact List.forall_mem_nil _
    · intro first event next accounted handed moved
      exact accounted.step handed moved
  exact accounted.commits

def firstRecord : PolledRecord := ⟨⟨3, none, [1], ∅, 7⟩, "orders", 0⟩

def subscribedDelivery : DeliveryRun := ⟨subscribedRun, false, none, [], [], []⟩

theorem subscribedDelivery_start : deliveryRuns.start subscribedDelivery :=
  ⟨subscribedRun_start, rfl, rfl, rfl, rfl, rfl⟩

/-- The background loop from the heartbeat that asks for a rebalance up to its commit. -/
def rebalanceEvents : List DeliveryEvent :=
  [.loop .require, .loop .clear, .loop (.locate "a:1"), .loop (.join ⟨"m", 2, [⟨"orders", 0⟩]⟩), .loop .copyAssigned,
    .loop (.receiveCommitted [(⟨"orders", 0⟩, 3)]), .loop (.seek 0), .loop .endSeek, .loop .prepareCommit,
    .loop .commit]

/-- The poll has returned before the application commits and a rebalance starts. -/
def deliveredEvents : List DeliveryEvent :=
  [.poll .enter, .poll .snapshot, .poll (.fetched [firstRecord] 4), .poll .returned, .readPositions, .sendCommit] ++
    rebalanceEvents

def deliveredState : DeliveryRun :=
  (follow DeliveryRun.step subscribedDelivery deliveredEvents).get (by decide +kernel)

theorem committed_records_delivered_twice :
    deliveryRuns.Reaches Handed deliveredState ∧ deliveredState.commits.length = 2 ∧
      ∀ commit ∈ deliveredState.commits, commit.Delivered := by
  have followed : follow DeliveryRun.step subscribedDelivery deliveredEvents = some deliveredState :=
    (Option.some_get _).symm
  have reached : deliveryRuns.Reaches Handed deliveredState :=
    System.Reaches.run subscribedDelivery_start
      (by decide +kernel : permits DeliveryRun.step Handed subscribedDelivery deliveredEvents) followed
  exact ⟨reached, by decide +kernel, committed_records_delivered deliveredState reached⟩

/-- The group gives two partitions to the consumer. -/
def pairRpcs : Rpcs :=
  { billingRpcs with joinGroup := fun _ _ _ => .ok ⟨"m", 1, [⟨"orders", 0⟩, ⟨"orders", 1⟩]⟩ }

def pairDelivery : DeliveryRun :=
  ⟨⟨(freshConsumer.subscribe pairRpcs ["orders"]).1, .outside, .waiting⟩, false, none, [], [], []⟩

/-- The second fetch fails behind the commit of a rebalance. -/
def overtakenEvents : List DeliveryEvent :=
  [.poll .enter, .poll .snapshot, .poll (.fetched [firstRecord] 4)] ++ rebalanceEvents ++ [.poll .failed]

def overtakenState : DeliveryRun := (follow DeliveryRun.step pairDelivery overtakenEvents).get (by decide +kernel)

/-- A rebalance commits the position behind a record that a poll holds while it waits for another partition, and the
poll fails, so that the application never receives the record. -/
theorem rebalance_commits_undelivered :
    deliveryRuns.Reaches System.Free overtakenState ∧
      overtakenState.commits.map (fun commit => commit.offsets.lookup ⟨"orders", 0⟩) = [some 4] ∧
      overtakenState.returned = [] ∧ overtakenState.run.polling = .outside ∧
      ¬ ∀ commit ∈ overtakenState.commits, commit.Delivered := by
  have begins : deliveryRuns.start pairDelivery :=
    ⟨⟨⟨billingConfig, freshConsumer, pairRpcs, ["orders"], by decide, rfl, Prod.ext rfl (by decide +kernel)⟩, rfl, rfl⟩,
      rfl, rfl, rfl, rfl, rfl⟩
  have followed : follow DeliveryRun.step pairDelivery overtakenEvents = some overtakenState := (Option.some_get _).symm
  have reached : deliveryRuns.Reaches System.Free overtakenState :=
    System.Reaches.run begins
      (by decide +kernel : permits DeliveryRun.step System.Free pairDelivery overtakenEvents) followed
  refine ⟨reached, by decide +kernel, by decide +kernel, by decide +kernel, ?_⟩
  intro delivered
  have sent : (⟨(∅ : KeyMap TP Int).insert ⟨"orders", 0⟩ 4, [firstRecord], []⟩ : SentCommit) ∈
      overtakenState.commits := by
    decide +kernel
  have received := delivered _ sent firstRecord (List.mem_singleton_self _) 4 (by decide +kernel) (by decide +kernel)
  cases received

end BunnyMQ.Client
