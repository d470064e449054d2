/-
This file models the coordinator of the consumer groups.
-/

import BunnyMQ.Construction.Metadata.MetadataFSM

namespace BunnyMQ.Group
open Foundation Metadata

inductive GroupErrorKind where
  | notGroupMember
  | notFound
  | invalidArgument
  | staleGeneration
  | other
  deriving DecidableEq, Repr

/-- An error wraps one of the known kinds or another failure. -/
structure GroupError where
  kind : GroupErrorKind
  text : String
  deriving DecidableEq, Repr

def errNotGroupMember : GroupError := ⟨.notGroupMember, "not a group member"⟩

def errNotFound (detail : String) : GroupError := ⟨.notFound, s!"not found: {detail}"⟩

def errInvalidArgument (detail : String) : GroupError := ⟨.invalidArgument, s!"invalid argument: {detail}"⟩

def errStaleGeneration (detail : String) : GroupError := ⟨.staleGeneration, s!"stale generation: {detail}"⟩

def lookupText : LookupError → String
  | .notFound => "not found"
  | .failed text => text

structure GroupCoordinatorConfig where
  thisNodeID : Nat
  sessionTimeoutMinMs : Int
  sessionTimeoutMaxMs : Int
  deriving DecidableEq, Repr

/-- A bound that is zero gets its default. -/
def newGroupCoordinator (config : GroupCoordinatorConfig) : GroupCoordinatorConfig :=
  { config with
    sessionTimeoutMinMs := if config.sessionTimeoutMinMs = 0 then 1000 else config.sessionTimeoutMinMs
    sessionTimeoutMaxMs := if config.sessionTimeoutMaxMs = 0 then 300000 else config.sessionTimeoutMaxMs }

structure JoinGroupRequest where
  groupID : String
  memberID : String
  topics : List String
  sessionTimeoutMs : Int
  heartbeatIntervalMs : Int
  deriving DecidableEq, Repr

structure JoinGroupResponse where
  memberID : String
  generationID : Int
  assignments : List TopicPartition
  deriving DecidableEq, Repr

/-- The results of the stale reads that a coordinator makes. -/
structure Reads where
  getTopic : String → Except LookupError TopicMeta
  getGroupState : String → Except LookupError (Option GroupState)

/-- These reads succeed and see the given state. -/
def readsOf (state : MetadataState) : Reads where
  getTopic := state.getTopic
  getGroupState groupID := .ok (state.getGroupState groupID)

/-- The members of the list take consecutive ranges, and the first ones take one partition more. -/
def assignRanges (topic : String) (base remainder : Int) :
    List String → Nat → Int → KeyMap String (List TopicPartition) → KeyMap String (List TopicPartition)
  | [], _, _, result => result
  | memberID :: rest, i, cursor, result =>
    let count := if (i : Int) < remainder then base + 1 else base
    let partitions := (List.range count.toNat).map fun (p : Nat) => TopicPartition.mk topic (int32 (cursor + p))
    assignRanges topic base remainder rest (i + 1) (cursor + count)
      (result.insert memberID ((result.lookup memberID).getD [] ++ partitions))

def assignTopic (sorted : List String) (partitionCounts : KeyMap String Int)
    (result : KeyMap String (List TopicPartition)) (topic : String) : KeyMap String (List TopicPartition) :=
  let nPartitions := (partitionCounts.lookup topic).getD 0
  if nPartitions = 0 then result
  else assignRanges topic (nPartitions.tdiv sorted.length) (nPartitions.tmod sorted.length) sorted 0 0 result

/-- A member without partitions appears with an empty list. -/
def rangeAssign (memberIDs topics : List String) (partitionCounts : KeyMap String Int) :
    KeyMap String (List TopicPartition) :=
  if memberIDs.length = 0 then ∅
  else
    let sorted := memberIDs.insertionSort (· ≤ ·)
    let sortedTopics := topics.insertionSort (· ≤ ·)
    let result : KeyMap String (List TopicPartition) :=
      sorted.foldl (fun result memberID => result.insert memberID []) ∅
    sortedTopics.foldl (assignTopic sorted partitionCounts) result

def topicSetsEqual (a b : List String) : Bool :=
  if a.length ≠ b.length then false else a.insertionSort (· ≤ ·) = b.insertionSort (· ≤ ·)

/-- The partition counts of the topics. A failed lookup ends the loop or skips the topic. -/
def countTopics (getTopic : String → Except LookupError TopicMeta)
    (onError : String → LookupError → Except GroupError Unit) :
    List String → KeyMap String Int → Except GroupError (KeyMap String Int)
  | [], counts => .ok counts
  | topic :: rest, counts =>
    match getTopic topic with
    | .ok tm => countTopics getTopic onError rest (counts.insert topic tm.partitionCount)
    | .error failure => do
        onError topic failure
        countTopics getTopic onError rest counts

def lookupTopicError (topic : String) (failure : LookupError) : GroupError :=
  ⟨.other, s!"lookup topic {topic.quote}: {lookupText failure}"⟩

def lookupGroup (reads : Reads) (groupID : String) : Except GroupError (Option GroupState) :=
  match reads.getGroupState groupID with
  | .ok group => .ok group
  | .error failure => .error ⟨.other, s!"lookup group: {lookupText failure}"⟩

/-- A join fails for every topic that it cannot look up. -/
def joinTopicError (topic : String) : LookupError → Except GroupError Unit
  | .notFound => .error (errNotFound s!"topic {topic.quote}")
  | failure => .error (lookupTopicError topic failure)

/-- A leave skips the topics that are gone. -/
def leaveTopicError (topic : String) : LookupError → Except GroupError Unit
  | .notFound => .ok ()
  | failure => .error (lookupTopicError topic failure)

/-- The topics of the request are compared with those of the first member that the loop visits. -/
def checkSubscription (group : Option GroupState) (visited : List String) (req : JoinGroupRequest) :
    Except GroupError Unit :=
  match group with
  | none => .ok ()
  | some group =>
    match visited.head?.bind group.members.lookup with
    | none => .ok ()
    | some ms =>
      if topicSetsEqual ms.subscribedTopics req.topics then .ok ()
      else .error (errInvalidArgument s!"mixed topic subscriptions in group {req.groupID.quote}")

/-- This is the part of `JoinGroup` before its proposal. The loop over the members visits them in the given
order, and a request without a member gets the fresh name. -/
def joinCommand (config : GroupCoordinatorConfig) (reads : Reads) (visited : List String) (fresh : String)
    (now : Int) (req : JoinGroupRequest) : Except GroupError JoinConsumerGroupCmd := do
  if req.sessionTimeoutMs < config.sessionTimeoutMinMs ∨ req.sessionTimeoutMs > config.sessionTimeoutMaxMs then
    .error (errInvalidArgument (s!"session_timeout_ms {req.sessionTimeoutMs} out of range " ++
      s!"[{config.sessionTimeoutMinMs}, {config.sessionTimeoutMaxMs}]"))
  let partitionCounts ← countTopics reads.getTopic joinTopicError req.topics ∅
  let currentGroup ← lookupGroup reads req.groupID
  checkSubscription currentGroup visited req
  let memberID := if req.memberID = "" then fresh else req.memberID
  let memberIDs := memberID :: if currentGroup.isSome then visited.filter (· ≠ memberID) else []
  return {
    groupID := req.groupID
    memberID := memberID
    clientHost := ""
    subscribedTopics := []
    joinedAtMs := 0
    member := some ⟨memberID, req.topics, req.sessionTimeoutMs, req.heartbeatIntervalMs, now⟩
    newAssignment := some (rangeAssign memberIDs req.topics partitionCounts) }

/-- This is the part of `LeaveGroup` before its proposal. -/
def leaveCommand (reads : Reads) (visited : List String) (groupID memberID : String) :
    Except GroupError LeaveConsumerGroupCmd := do
  let some currentGroup ← lookupGroup reads groupID | .error errNotGroupMember
  let some ms := currentGroup.members.lookup memberID | .error errNotGroupMember
  let partitionCounts ← countTopics reads.getTopic leaveTopicError ms.subscribedTopics ∅
  return {
    groupID := groupID
    memberID := memberID
    reason := "voluntary"
    newAssignment := some (rangeAssign (visited.filter (· ≠ memberID)) ms.subscribedTopics partitionCounts) }

def notAssignedError (tp : TopicPartition) (memberID : String) : GroupError :=
  errInvalidArgument s!"partition \x7b{tp.topic} {tp.partitionID}\x7d not assigned to member {memberID.quote}"

/-- This is the part of `CommitOffset` before its proposal. The offsets are visited in the given order. -/
def commitCommand (reads : Reads) (visited : List TopicPartition) (groupID memberID : String) (generationID : Int)
    (offsets : KeyMap TopicPartition Int) : Except GroupError CommitConsumerOffsetCmd := do
  let some group ← lookupGroup reads groupID | .error errNotGroupMember
  if (group.members.lookup memberID).isNone then .error errNotGroupMember
  if generationID ≠ group.generationID then
    .error (errStaleGeneration s!"client generation {generationID}, current {group.generationID}")
  match visited.find? fun tp => !((group.assignments.lookup memberID).getD []).contains tp with
  | some tp => .error (notAssignedError tp memberID)
  | none => return ⟨groupID, [], some offsets⟩

/-- The coordinator of each node keeps the last heartbeat of each member in memory. -/
abbrev HeartbeatTable := KeyMap String (KeyMap String Int)

namespace HeartbeatTable

def entry (table : HeartbeatTable) (groupID memberID : String) : Option Int :=
  (table.lookup groupID).bind fun members => members.lookup memberID

def record (table : HeartbeatTable) (groupID memberID : String) (now : Int) : HeartbeatTable :=
  table.insert groupID (((table.lookup groupID).getD ∅).insert memberID now)

def forget (table : HeartbeatTable) (groupID memberID : String) : HeartbeatTable :=
  match table.lookup groupID with
  | none => table
  | some members => table.insert groupID (members.erase memberID)

end HeartbeatTable

/-- This is the part of `JoinGroup` behind its proposal. -/
def joinResponse (reads : Reads) (table : HeartbeatTable) (groupID memberID : String) (now : Int) :
    Except GroupError JoinGroupResponse × HeartbeatTable :=
  match reads.getGroupState groupID with
  | .error failure => (.error ⟨.other, s!"lookup group after join: {lookupText failure}"⟩, table)
  | .ok none => (.error ⟨.other, "interface conversion: interface \x7b\x7d is nil, not *metadata.GroupState"⟩, table)
  | .ok (some group) =>
    (.ok ⟨memberID, group.generationID, (group.assignments.lookup memberID).getD []⟩, table.record groupID memberID now)

/-- This is `JoinGroup` with nothing in between. -/
def joinGroup (config : GroupCoordinatorConfig) (visited : List String) (fresh : String) (now : Int)
    (req : JoinGroupRequest) (state : MetadataState) (table : HeartbeatTable) :
    Except GroupError JoinGroupResponse × MetadataState × HeartbeatTable :=
  match joinCommand config (readsOf state) visited fresh now req with
  | .error failure => (.error failure, state, table)
  | .ok cmd =>
    let joined := (state.update (.joinConsumerGroup cmd)).1
    let answer := joinResponse (readsOf joined) table req.groupID cmd.memberID now
    (answer.1, joined, answer.2)

/-- This is `LeaveGroup` with nothing in between. -/
def leaveGroup (visited : List String) (groupID memberID : String) (state : MetadataState) (table : HeartbeatTable) :
    Except GroupError Unit × MetadataState × HeartbeatTable :=
  match leaveCommand (readsOf state) visited groupID memberID with
  | .error failure => (.error failure, state, table)
  | .ok cmd => (.ok (), (state.update (.leaveConsumerGroup cmd)).1, table.forget groupID memberID)

/-- A heartbeat of a member is recorded before the generations are compared. -/
def heartbeat (reads : Reads) (table : HeartbeatTable) (now : Int) (groupID memberID : String) (generationID : Int) :
    Except GroupError Bool × HeartbeatTable :=
  match lookupGroup reads groupID with
  | .error failure => (.error failure, table)
  | .ok none => (.error errNotGroupMember, table)
  | .ok (some group) =>
    if (group.members.lookup memberID).isNone then (.error errNotGroupMember, table)
    else (.ok (group.generationID > generationID), table.record groupID memberID now)

/-- Every member of every group gets the current time. -/
def rebuildHeartbeatTable (groups : KeyMap String GroupState) (table : HeartbeatTable) (now : Int) : HeartbeatTable :=
  groups.sortedKeys.foldl (fun table groupID =>
    let members := ((groups.lookup groupID).map GroupState.members).getD ∅
    let entries := members.sortedKeys.foldl (fun entries memberID => entries.insert memberID now)
      ((table.lookup groupID).getD ∅)
    table.insert groupID entries) table

/-- One visit of the sweep proposes an eviction when the last heartbeat is older than the session timeout. The
members of the group are those at the time of the visit, because the lookup shares their map. -/
def sweepMember (getTopic : String → Except LookupError TopicMeta) (table : HeartbeatTable) (now : Int)
    (groupID memberID : String) (group : GroupState) (visited : List String) : Option LeaveConsumerGroupCmd :=
  match group.members.lookup memberID, table.entry groupID memberID with
  | some ms, some lastHB =>
    if now - lastHB ≤ ms.sessionTimeoutMs then none
    else
      let partitionCounts := (countTopics getTopic (fun _ _ => .ok ()) ms.subscribedTopics ∅).toOption.getD ∅
      some {
        groupID := groupID
        memberID := memberID
        reason := "timeout"
        newAssignment := some (rangeAssign (visited.filter (· ≠ memberID)) ms.subscribedTopics partitionCounts) }
  | _, _ => none

/-- The sweep visits the members of the groups in some order, and each proposal is accepted or fails. -/
structure SweepVisit where
  groupID : String
  memberID : String
  visited : List String
  accepted : Bool

/-- The state and the table behind some visits, with the proposals that they have made. -/
structure Sweep where
  state : MetadataState
  table : HeartbeatTable
  proposed : List LeaveConsumerGroupCmd

def sweepVisit (now : Int) (sweep : Sweep) (visit : SweepVisit) : Sweep :=
  match sweep.state.getGroupState visit.groupID with
  | none => sweep
  | some group =>
    match sweepMember sweep.state.getTopic sweep.table now visit.groupID visit.memberID group visit.visited with
    | none => sweep
    | some cmd =>
      if visit.accepted then {
        state := (sweep.state.update (.leaveConsumerGroup cmd)).1
        table := sweep.table.forget visit.groupID visit.memberID
        proposed := sweep.proposed ++ [cmd] }
      else { sweep with proposed := sweep.proposed ++ [cmd] }

/-- Only the leader of the metadata sweeps. -/
def sweepOnce (config : GroupCoordinatorConfig) (leader : Option Nat) (now : Int) (visits : List SweepVisit)
    (state : MetadataState) (table : HeartbeatTable) : Sweep :=
  if leader ≠ some config.thisNodeID then ⟨state, table, []⟩
  else visits.foldl (sweepVisit now) ⟨state, table, []⟩

end BunnyMQ.Group
