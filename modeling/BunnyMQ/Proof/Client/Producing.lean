/-
This file proves what the retries of the producer do to a batch and how its records are spread.
-/

import BunnyMQ.Construction.Client.Producer
import BunnyMQ.Proof.Api.Timestamps
import Mathlib.Data.Int.CardIntervalMod

namespace BunnyMQ.Client
open Foundation Storage BunnyMQ.Api BunnyMQ.Partition List

namespace Delivery

/-- The node accepts the batch and leads the partition, so that it proposes the batch to its Raft host. -/
def Proposes (request : ProduceRequest) : Delivery → Prop
  | .refused _ _ => False
  | .answered node _ | .lost node _ _ _ => validateBatch request.batchData = .ok () ∧
      ∃ shardID, node.leaderCheck request.topic request.partitionId = .ok shardID

def IsLost : Delivery → Prop
  | .refused _ _ | .answered _ _ => False
  | .lost _ _ _ _ => True

end Delivery

section
variable {p q : Producer} {request : ProduceRequest} {delivery : Delivery} {ended : RoundEnd} {calls : List Delivery}

/-- A node that has proposed the batch answers with an offset or with an error without details. -/
theorem produce_of_leader {node : DataNode} {shardID : Nat} (host : Proposals)
    (valid : validateBatch request.batchData = .ok ())
    (leads : node.leaderCheck request.topic request.partitionId = .ok shardID) :
    (∃ resp, node.produce host request = .ok resp) ∨ node.produce host request = .error internalError := by
  simp only [DataNode.produce, valid, DataNode.produceBatch, leads]
  cases request.acks with
  | all => cases host.syncPropose shardID (cmdAppendBatch :: request.batchData) <;> simp [mapDataError]
  | zero => cases host.propose shardID (cmdAppendBatch :: request.batchData) <;> simp [mapDataError]

theorem handle_done {answer : Except ProduceError Int} {offset : Int} :
    (p.handle request answer).1 = .done (.ok offset) ↔ answer = .ok offset := by
  cases answer with
  | ok found => simp [Producer.handle]
  | error failure =>
    unfold Producer.handle
    dsimp only
    split
    · split <;> simp
    all_goals simp

/-- The producer does not repeat a call whose batch was proposed, unless the answer was lost. -/
theorem handle_again {failure : SendError}
    (again : (p.handle request (delivery.answer request)).1 = .again failure)
    (proposes : delivery.Proposes request) : delivery.IsLost := by
  cases delivery with
  | refused statusUnavailable text => exact proposes.elim
  | lost node host statusUnavailable text => exact trivial
  | answered node host =>
    obtain ⟨valid, shardID, leads⟩ := proposes
    rcases produce_of_leader host valid leads with ⟨resp, produced⟩ | produced
    · simp [Delivery.answer, produced, Producer.handle] at again
    · simp [Delivery.answer, produced, Producer.handle, extractErr, internalError] at again

/-- A pass of the loop makes one call and goes by its answer, or it makes no call and has no offset. -/
theorem sendRound_calls {round : SendRound} (passed : p.sendRound request round = (ended, q, calls)) :
    (∃ delivery held, calls = [delivery] ∧ ended = (Producer.handle held request (delivery.answer request)).1) ∨
      calls = [] ∧ ∀ offset, ended ≠ .done (.ok offset) := by
  unfold Producer.sendRound at passed
  split at passed
  · cases passed
    simp
  · cases passed
    simp
  next addr held _ =>
    split at passed
    · cases passed
      simp
    · cases passed
      exact .inl ⟨round.deliver addr, held, rfl, rfl⟩

/-- The calls of a send are bounded, those before the last one have proposed nothing that was answered, and the last
one has the result. -/
structure Accounts (request : ProduceRequest) (bound : Nat) (sent : Sent) : Prop where
  bounded : sent.calls.length ≤ bound
  once : ∀ delivery ∈ sent.calls.dropLast, delivery.Proposes request → delivery.IsLost
  truthful : ∀ offset, sent.result = .ok offset ↔
    ∃ delivery, sent.calls.getLast? = some delivery ∧ delivery.answer request = .ok offset

/-- A pass that ends the loop. -/
theorem Accounts.single {round : SendRound} (passed : p.sendRound request round = (ended, q, calls))
    {result : Except SendError Int} {bound : Nat} (same : ∀ offset, result = .ok offset ↔ ended = .done (.ok offset)) :
    Accounts request (bound + 1) ⟨result, q, calls⟩ := by
  rcases sendRound_calls passed with ⟨delivery, held, rfl, rfl⟩ | ⟨rfl, silent⟩
  · exact ⟨by simp, by simp, fun offset => by rw [same, handle_done]; simp⟩
  · exact ⟨by simp, by simp, fun offset => by rw [same]; simp [silent]⟩

/-- A pass in front of the others. -/
theorem Accounts.cons {round : SendRound} {failure : SendError} {bound : Nat} {rest : Sent}
    (passed : p.sendRound request round = (.again failure, q, calls)) (accounts : Accounts request bound rest) :
    Accounts request (bound + 1) { rest with calls := calls ++ rest.calls } := by
  rcases sendRound_calls passed with ⟨delivery, held, rfl, handled⟩ | ⟨rfl, _⟩
  · have unanswered : ∀ offset, delivery.answer request ≠ .ok offset := by
      intro offset answered
      rw [handle_done.mpr answered] at handled
      cases handled
    refine ⟨by simpa using accounts.bounded, ?_, fun offset => ?_⟩
    · cases later : rest.calls with
      | nil => simp
      | cons next others =>
        intro other member
        rw [singleton_append, dropLast_cons_cons, mem_cons] at member
        rcases member with rfl | member
        · exact handle_again handled.symm
        · exact accounts.once other (later ▸ member)
    · rw [accounts.truthful offset]
      cases later : rest.calls with
      | nil => simp [unanswered]
      | cons next others => rw [singleton_append, getLast?_cons_cons]
  · exact ⟨accounts.bounded.trans (Nat.le_succ _), accounts.once, accounts.truthful⟩

end

section
variable {request : ProduceRequest} {rounds : Nat → SendRound} {attempt : Nat} {p q : Producer} {calls : List Delivery}

theorem sendLoop_done {result : Except SendError Int} (left : Nat)
    (passed : p.sendRound request (rounds attempt) = (.done result, q, calls)) :
    Producer.sendLoop request rounds attempt left p = ⟨result, q, calls⟩ := by
  unfold Producer.sendLoop
  rw [passed]

theorem sendLoop_last {failure : SendError}
    (passed : p.sendRound request (rounds attempt) = (.again failure, q, calls)) :
    Producer.sendLoop request rounds attempt 0 p = ⟨.error failure, q, calls⟩ := by
  unfold Producer.sendLoop
  rw [passed]

theorem sendLoop_again {failure : SendError} (left : Nat)
    (passed : p.sendRound request (rounds attempt) = (.again failure, q, calls)) :
    Producer.sendLoop request rounds attempt (left + 1) p =
      { Producer.sendLoop request rounds (attempt + 1) left q with
        calls := calls ++ (Producer.sendLoop request rounds (attempt + 1) left q).calls } := by
  conv_lhs => unfold Producer.sendLoop
  rw [passed]

end

theorem sendLoop_accounts (request : ProduceRequest) (rounds : Nat → SendRound) (attempt left : Nat) (p : Producer) :
    Accounts request (left + 1) (Producer.sendLoop request rounds attempt left p) := by
  induction left generalizing attempt p with
  | zero =>
    rcases passed : p.sendRound request (rounds attempt) with ⟨result | failure, q, calls⟩
    · rw [sendLoop_done 0 passed]
      exact .single passed (by simp)
    · rw [sendLoop_last passed]
      exact .single passed (by simp)
  | succ left ih =>
    rcases passed : p.sendRound request (rounds attempt) with ⟨result | failure, q, calls⟩
    · rw [sendLoop_done _ passed]
      exact .single passed (by simp)
    · rw [sendLoop_again left passed]
      exact .cons passed (ih (attempt + 1) q)

/-- A batch is sent at most once for each attempt, the nodes propose it at most once apart from lost answers, and the
producer returns an offset exactly when its last call was answered with it. -/
theorem send_proposes_at_most_once (p : Producer) (rounds : Nat → SendRound) (topic : String) (partID : Int)
    (batchData : Bytes) (acks : AcksMode) :
    Accounts ⟨topic, partID, batchData, acks⟩ (p.maxRetries.toNat + 1)
      (p.sendBatch rounds topic partID batchData acks) :=
  sendLoop_accounts _ rounds 0 _ p

/-- The cached entry counts, the connection is there and the node answers. -/
structure SendRound.Meets (round : SendRound) (expiry : Int) (addr : String) (node : DataNode) (host : Proposals) :
    Prop where
  fresh : round.now ≤ expiry
  named : addr ≠ ""
  dialed : round.dial addr = none
  answered : round.deliver addr = .answered node host

/-- From an address each node names another one as the leader, and the last node takes the batch. -/
inductive Redirects (rounds : Nat → SendRound) (request : ProduceRequest) (expiry : Int) :
    (attempt : Nat) → (addr : String) → (hops : Nat) → (leader : String) → (offset : Int) → Prop
  | leader {attempt : Nat} {addr : String} {node : DataNode} {host : Proposals} {resp : ProduceResponse}
      (meets : (rounds attempt).Meets expiry addr node host) (produced : node.produce host request = .ok resp) :
      Redirects rounds request expiry attempt addr 0 addr resp.offset
  | stale {attempt : Nat} {addr next leader : String} {hops leaderID : Nat} {offset : Int} {node : DataNode}
      {host : Proposals} (meets : (rounds attempt).Meets expiry addr node host)
      (elsewhere : node.leaderCheck request.topic request.partitionId = .error (.notLeader leaderID next))
      (rest : Redirects rounds request expiry (attempt + 1) next hops leader offset) :
      Redirects rounds request expiry attempt addr (hops + 1) leader offset

section
variable {p q : Producer} {request : ProduceRequest} {round : SendRound} {addr : String}

theorem leaderFor_cached {held : TopicMeta} {topic : String} {partID : Int}
    (cached : p.metaCache.cache.lookup topic = some held) (known : held.leaders.lookup partID = some addr)
    (fresh : round.now ≤ held.fetchedAt + p.metaCache.ttl) (named : addr ≠ "") :
    p.leaderFor round topic partID = (.ok addr, p) := by
  have young : round.now - held.fetchedAt ≤ p.metaCache.ttl := by omega
  have got : p.metaCache.get round.now topic = some held := by
    rw [MetaCache.get, cached, Option.filter_some, if_pos (decide_eq_true young)]
  have led : Producer.knownLeader held partID = some addr := by
    rw [Producer.knownLeader, known, Option.filter_some, if_pos (decide_eq_true named)]
  simp only [Producer.leaderFor, Producer.metaFor, got, led]

theorem sendRound_of_leader (found : p.leaderFor round request.topic request.partitionId = (.ok addr, q))
    (dialed : round.dial addr = none) :
    p.sendRound request round = ((q.handle request ((round.deliver addr).answer request)).1,
      (q.handle request ((round.deliver addr).answer request)).2, [round.deliver addr]) := by
  simp [Producer.sendRound, found, dialed]

theorem answer_elsewhere {node : DataNode} {leaderID : Nat} {next : String} (host : Proposals)
    (valid : validateBatch request.batchData = .ok ())
    (elsewhere : node.leaderCheck request.topic request.partitionId = .error (.notLeader leaderID next)) :
    ∃ text, (Delivery.answered node host).answer request = .error ⟨some .notLeader, next, false, text⟩ := by
  refine ⟨s!"not leader: leader is node {leaderID} at {next}", ?_⟩
  simp [Delivery.answer, DataNode.produce, valid, DataNode.produceBatch, elsewhere, mapDataError, extractErr, sendCode]

end

/-- Induction on the redirects that are left: each one renews the cached leader. -/
theorem sendLoop_redirects {rounds : Nat → SendRound} {request : ProduceRequest} {expiry offset : Int}
    {attempt hops left : Nat} {addr leader : String} (valid : validateBatch request.batchData = .ok ())
    (route : Redirects rounds request expiry attempt addr hops leader offset) (allowed : hops ≤ left)
    {p : Producer} {held : TopicMeta} (cached : p.metaCache.cache.lookup request.topic = some held)
    (known : held.leaders.lookup request.partitionId = some addr) (lives : expiry = held.fetchedAt + p.metaCache.ttl) :
    ∃ q calls renewed, Producer.sendLoop request rounds attempt left p = ⟨.ok offset, q, calls⟩ ∧
      calls.length = hops + 1 ∧ q.metaCache.cache.lookup request.topic = some renewed ∧
      renewed.leaders.lookup request.partitionId = some leader := by
  induction route generalizing left p held with
  | leader meets produced =>
    have passed := sendRound_of_leader (leaderFor_cached cached known (lives ▸ meets.fresh) meets.named) meets.dialed
    rw [meets.answered] at passed
    simp only [Delivery.answer, produced, Producer.handle] at passed
    exact ⟨_, _, held, sendLoop_done left passed, rfl, cached, known⟩
  | @stale attempt addr next leader hops leaderID offset node host meets elsewhere rest ih =>
    obtain ⟨left, rfl⟩ := Nat.exists_eq_add_of_le' (Nat.one_le_of_lt (Nat.lt_of_succ_le allowed))
    have passed := sendRound_of_leader (leaderFor_cached cached known (lives ▸ meets.fresh) meets.named) meets.dialed
    obtain ⟨text, answer⟩ := answer_elsewhere host valid elsewhere
    have named : next ≠ "" := by
      cases rest with
      | leader meets _ => exact meets.named
      | stale meets _ _ => exact meets.named
    rw [meets.answered, answer] at passed
    simp only [Producer.handle, if_pos named, MetaCache.setLeader, cached] at passed
    -- the entry keeps its time and therefore its expiry
    let told : TopicMeta := { held with leaders := held.leaders.insert request.partitionId next }
    obtain ⟨q, calls, renewed, looped, length, stored, led⟩ := @ih left (Nat.le_of_succ_le_succ allowed)
      { p with metaCache := p.metaCache.put request.topic told } told (Finmap.lookup_insert _)
      (Finmap.lookup_insert _) lives
    rw [sendLoop_again left passed, looped]
    exact ⟨q, _, renewed, rfl, by simp [length], stored, led⟩

/-- A producer with a stale leader reaches the leader along the redirects of the nodes, if its retries cover them, and
knows the leader afterwards. -/
theorem send_follows_redirects (p : Producer) (rounds : Nat → SendRound) (topic : String) (partID : Int)
    (batchData : Bytes) (acks : AcksMode) (held : TopicMeta) (first leader : String) (hops : Nat) (offset : Int)
    (cached : p.metaCache.cache.lookup topic = some held) (known : held.leaders.lookup partID = some first)
    (valid : validateBatch batchData = .ok ())
    (route : Redirects rounds ⟨topic, partID, batchData, acks⟩ (held.fetchedAt + p.metaCache.ttl) 0 first hops leader
      offset) (allowed : hops ≤ p.maxRetries.toNat) :
    let sent := p.sendBatch rounds topic partID batchData acks
    sent.result = .ok offset ∧ sent.calls.length = hops + 1 ∧ ∃ renewed,
      sent.producer.metaCache.cache.lookup topic = some renewed ∧ renewed.leaders.lookup partID = some leader := by
  obtain ⟨q, calls, renewed, sent, length, stored, led⟩ := sendLoop_redirects valid route allowed cached known rfl
  rw [Producer.sendBatch, Producer.sendToPartition, sent]
  exact ⟨rfl, length, renewed, stored, led⟩

/-- Every address but one is the leader's. -/
def staleRound : SendRound where
  now := 0
  describe _ _ := none
  dial _ := none
  deliver addr := .answered { leadingNode lonelyState with
    nodeID := if addr = "old" then 2 else 1
    address := fun _ => "new" }
    ⟨fun _ _ => .ok 5, fun _ _ => .ok ()⟩

theorem send_follows_redirect_to_leader :
    (Producer.sendBatch ⟨1,
      ⟨(∅ : KeyMap String TopicMeta).insert "topic" ⟨1, (∅ : KeyMap Int String).insert 0 "old", 0⟩, 9⟩,
      0, []⟩ (fun _ => staleRound) "topic" 0 (batchBytes 0 [⟨7, none, [1], []⟩]) .all).result = .ok 5 := by
  refine (send_follows_redirects _ _ "topic" 0 _ .all _ "old" "new" 1 5 (Finmap.lookup_insert _)
    (Finmap.lookup_insert _) (by decide +kernel) ?_ (by decide)).1
  exact .stale ⟨by decide, by decide, rfl, rfl⟩
    (show _ = Except.error (Cluster.RouteError.notLeader 1 "new") by decide +kernel)
    (.leader ⟨by decide, by decide, rfl, rfl⟩ (show _ = Except.ok (ProduceResponse.mk 0 5) by decide +kernel))

namespace Producer
variable (p : Producer)

theorem refreshMeta_counter (describe : String → Option TopicDescription) (topic : String) :
    (p.refreshMeta describe topic).2.roundRobinCounter = p.roundRobinCounter := by
  unfold refreshMeta
  split <;> rfl

theorem metaFor_counter (now : Int) (describe : String → Option TopicDescription) (topic : String) :
    (p.metaFor now describe topic).2.roundRobinCounter = p.roundRobinCounter := by
  unfold metaFor
  split
  · rfl
  · exact p.refreshMeta_counter describe topic

theorem leaderFor_counter (round : SendRound) (topic : String) (partID : Int) :
    (p.leaderFor round topic partID).2.roundRobinCounter = p.roundRobinCounter := by
  have first := p.metaFor_counter round.now (round.describe 0) topic
  unfold leaderFor
  split
  · next found =>
    rw [found] at first
    exact first
  · next held q found =>
    rw [found] at first
    have second := (q.refreshMeta_counter (round.describe 1) topic).trans first
    split
    · exact first
    · split
      · next again =>
        rw [again] at second
        exact second
      · next again =>
        rw [again] at second
        split <;> exact second

theorem handle_counter (request : ProduceRequest) (answer : Except ProduceError Int) :
    (p.handle request answer).2.roundRobinCounter = p.roundRobinCounter := by
  cases answer with
  | ok offset => rfl
  | error failure =>
    unfold handle
    repeat' split
    all_goals rfl

theorem sendRound_counter (request : ProduceRequest) (round : SendRound) :
    (p.sendRound request round).2.1.roundRobinCounter = p.roundRobinCounter := by
  have located := p.leaderFor_counter round request.topic request.partitionId
  unfold sendRound
  split
  · next found =>
    rw [found] at located
    exact located
  · next found =>
    rw [found] at located
    exact located
  · next held found =>
    rw [found] at located
    split
    · exact located
    · exact (held.handle_counter request _).trans located

/-- The attempts of a send leave the counter alone. -/
theorem sendLoop_counter (request : ProduceRequest) (rounds : Nat → SendRound) (attempt left : Nat) (p : Producer) :
    (sendLoop request rounds attempt left p).producer.roundRobinCounter = p.roundRobinCounter := by
  induction left generalizing attempt p with
  | zero =>
    have passed := p.sendRound_counter request (rounds attempt)
    unfold sendLoop
    generalize p.sendRound request (rounds attempt) = round at passed ⊢
    obtain ⟨ended, q, calls⟩ := round
    cases ended with
    | done result | again failure => exact passed
  | succ left ih =>
    have passed := p.sendRound_counter request (rounds attempt)
    unfold sendLoop
    generalize p.sendRound request (rounds attempt) = round at passed ⊢
    obtain ⟨ended, q, calls⟩ := round
    cases ended with
    | done result => exact passed
    | again failure => exact (ih (attempt + 1) q).trans passed

end Producer

/-- The arguments of a call of `Send`, with the answers that it gets. -/
structure SendCall where
  now : Int
  describe : String → Option TopicDescription
  rounds : Nat → SendRound
  timestampMs : Int64
  topic : String
  key : Option Bytes
  value : Bytes
  headers : List (String × Bytes)
  acks : AcksMode

namespace SendCall

def sent (call : SendCall) (p : Producer) : Option Sent :=
  p.send call.now call.describe call.rounds call.timestampMs call.topic call.key call.value call.headers call.acks

def encoded (call : SendCall) : Except GoError Bytes :=
  Producer.encode call.key call.value call.headers call.timestampMs

end SendCall

/-- Every call finds a topic of so many partitions. -/
def Finds (partitionCount : Int) : Producer → List SendCall → Prop
  | _, [] => True
  | p, call :: calls => (∃ held, (p.metaFor call.now call.describe call.topic).1 = .ok held ∧
      held.partitionCount = partitionCount) ∧ ∀ sent, call.sent p = some sent → Finds partitionCount sent.producer calls

/-- The calls send their records to these partitions, one behind the other. -/
inductive Spreads : Producer → List SendCall → List (Option Int) → Prop
  | nil (p : Producer) : Spreads p [] []
  | cons {p : Producer} {call : SendCall} {calls : List SendCall} {sent : Sent} {partID : Int}
    {others : List (Option Int)} :
      call.sent p = some sent →
      (∀ batchData, call.encoded = .ok batchData →
        ∃ q : Producer, sent = q.sendToPartition call.rounds call.topic partID batchData call.acks) →
      Spreads sent.producer calls others → Spreads p (call :: calls) (some partID :: others)

/-- The partitions that a list of records is spread over. -/
def selectPartitions (partitionCount : Int) : Int → List Bytes → List (Option Int)
  | _, [] => []
  | counter, key :: keys => (selectPartition key partitionCount counter).1 ::
      selectPartitions partitionCount (selectPartition key partitionCount counter).2 keys

theorem selectPartition_chosen {partitionCount : Int} (present : partitionCount ≠ 0) (key : Bytes) (counter : Int) :
    ∃ partID, (selectPartition key partitionCount counter).1 = some partID := by
  unfold selectPartition
  simp only [if_neg present]
  split <;> exact ⟨_, rfl⟩

/-- A call of `Send` takes the partition of its counter and moves the counter as it says. -/
theorem sent_selects {p : Producer} {call : SendCall} {held : TopicMeta} {partID : Int}
    (found : (p.metaFor call.now call.describe call.topic).1 = .ok held)
    (chosen : (selectPartition (call.key.getD []) held.partitionCount p.roundRobinCounter).1 = some partID) :
    ∃ sent, call.sent p = some sent ∧
      (∀ batchData, call.encoded = .ok batchData →
        ∃ q : Producer, sent = q.sendToPartition call.rounds call.topic partID batchData call.acks) ∧
      sent.producer.roundRobinCounter =
        (selectPartition (call.key.getD []) held.partitionCount p.roundRobinCounter).2 := by
  have kept := p.metaFor_counter call.now call.describe call.topic
  unfold SendCall.sent Producer.send SendCall.encoded
  generalize p.metaFor call.now call.describe call.topic = looked at found kept ⊢
  obtain ⟨result, q⟩ := looked
  obtain rfl : result = .ok held := found
  rw [← kept] at chosen ⊢
  dsimp only
  generalize selectPartition (call.key.getD []) held.partitionCount q.roundRobinCounter = selected at chosen ⊢
  obtain ⟨part, counter⟩ := selected
  obtain rfl : part = some partID := chosen
  dsimp only
  cases Producer.encode call.key call.value call.headers call.timestampMs with
  | error failure => exact ⟨_, rfl, (fun _ encoded => by cases encoded), rfl⟩
  | ok batchData =>
    refine ⟨_, rfl, ?_, Producer.sendLoop_counter _ _ _ _ _⟩
    intro _ same
    cases same
    exact ⟨_, rfl⟩

/-- The calls of a producer are spread as its counter says. -/
theorem spreads_selectPartitions {partitionCount : Int} (present : partitionCount ≠ 0) {p : Producer}
    {calls : List SendCall} (finds : Finds partitionCount p calls) :
    Spreads p calls (selectPartitions partitionCount p.roundRobinCounter (calls.map fun call => call.key.getD [])) := by
  induction calls generalizing p with
  | nil => exact .nil p
  | cons call calls ih =>
    obtain ⟨⟨held, found, rfl⟩, later⟩ := finds
    obtain ⟨partID, chosen⟩ := selectPartition_chosen present (call.key.getD []) p.roundRobinCounter
    obtain ⟨sent, sends, goes, counter⟩ := sent_selects found chosen
    have rest := ih (later sent sends)
    rw [counter] at rest
    rw [map_cons, selectPartitions, chosen]
    exact .cons sends goes rest

/-- The calls of a new producer are spread from the first partition on. -/
theorem newProducer_spreads {config : ProducerConfig} {p : Producer} (created : newProducer config = .ok p)
    {partitionCount : Int} (present : partitionCount ≠ 0) {calls : List SendCall}
    (finds : Finds partitionCount p calls) :
    Spreads p calls (selectPartitions partitionCount 0 (calls.map fun call => call.key.getD [])) := by
  have fresh : p.roundRobinCounter = 0 := by
    unfold newProducer at created
    split at created
    · cases created
    · cases created
      rfl
  rw [← fresh]
  exact spreads_selectPartitions present finds

theorem selectPartition_keyless {partitionCount counter : Nat} (inside : 0 < partitionCount)
    (small : partitionCount < 2 ^ 31) (room : counter + 1 < 2 ^ 63) :
    selectPartition [] partitionCount counter =
      (some ((counter % partitionCount : Nat) : Int), ((counter + 1 : Nat) : Int)) := by
  have remains := Nat.mod_lt counter inside
  have next : int64 ((counter : Int) + 1) = ((counter + 1 : Nat) : Int) := int64_of_range (by omega) (by omega)
  have same : int64 (((counter + 1 : Nat) : Int) - 1) = counter := by
    rw [int64_of_range (by omega) (by omega)]
    omega
  simp only [selectPartition, length_nil, if_true, next, same]
  rw [if_neg (by omega), ← Int.ofNat_tmod, int32_of_range (by omega) (by omega)]

/-- The keyless records of a list take the residues of consecutive numbers. -/
theorem count_selectPartitions {partitionCount counter partID : Nat} {keys : List Bytes} (inside : 0 < partitionCount)
    (small : partitionCount < 2 ^ 31) (room : counter + keys.length < 2 ^ 63) :
    ((keys.zip (selectPartitions partitionCount counter keys)).countP fun sent =>
      sent.1.length = 0 ∧ sent.2 = some (partID : Int)) =
      (keys.countP fun key => key.length = 0).count fun n => (counter + n) % partitionCount = partID := by
  induction keys generalizing counter with
  | nil => rfl
  | cons key keys ih =>
    rw [length_cons] at room
    by_cases keyless : key.length = 0
    · obtain rfl := eq_nil_of_length_eq_zero keyless
      rw [selectPartitions, selectPartition_keyless inside small (by omega), zip_cons_cons,
        countP_cons, ih (by omega), countP_cons, if_pos (decide_eq_true keyless), Nat.count_succ']
      simp only [length_nil, true_and, Option.some.injEq, Nat.cast_inj, decide_eq_true_eq, Nat.add_zero,
        Nat.add_assoc, Nat.add_comm 1]
    · have kept : (selectPartition key partitionCount counter).2 = counter := by rw [selectPartition, if_neg keyless]
      rw [selectPartitions, kept, zip_cons_cons, countP_cons, ih (by omega), countP_cons]
      simp [keyless]

/-- A new producer gives each partition its share of the keyless records, whatever keyed records lie between them. -/
theorem keyless_records_balanced (partitionCount partID : Nat) (keys : List Bytes) (inside : partID < partitionCount)
    (small : partitionCount < 2 ^ 31) (room : keys.length < 2 ^ 63) :
    let received := (keys.zip (selectPartitions partitionCount 0 keys)).countP fun sent =>
      sent.1.length = 0 ∧ sent.2 = some (partID : Int)
    let keyless := keys.countP fun key => key.length = 0
    keyless / partitionCount ≤ received ∧ received ≤ (keyless + partitionCount - 1) / partitionCount := by
  have positive := Nat.zero_lt_of_lt inside
  have counted := @count_selectPartitions _ 0 partID keys positive small (by omega)
  have residue : ∀ n, (0 + n) % partitionCount = partID ↔ n ≡ partID [MOD partitionCount] := by
    intro n
    rw [Nat.ModEq, Nat.zero_add, Nat.mod_eq_of_lt inside]
  simp only [residue, Nat.count_modEq_card _ positive] at counted
  have split := Nat.div_add_mod (keys.countP fun key => key.length = 0) partitionCount
  refine ⟨counted.symm ▸ Nat.le_add_right _ _, counted.symm ▸ (Nat.le_div_iff_mul_le positive).mpr ?_⟩
  rw [Nat.add_mul, Nat.mul_comm]
  split <;> omega

theorem keyless_records_balanced_between_keys :
    let received := ([[], [1], [], [2], []].zip (selectPartitions 2 0 [[], [1], [], [2], []])).countP fun sent =>
      sent.1.length = 0 ∧ sent.2 = some 0
    3 / 2 ≤ received ∧ received ≤ (3 + 2 - 1) / 2 :=
  keyless_records_balanced 2 0 [[], [1], [], [2], []] (by decide) (by decide) (by decide)

end BunnyMQ.Client
