/-
This file shows when the replicas of all partitions are placed on distinct registered nodes.
-/

import BunnyMQ.Construction.Cluster.ClusterCoordinator
import BunnyMQ.Library.Ranges
import BunnyMQ.Proof.Metadata.Structure

namespace BunnyMQ.Cluster
open Foundation Metadata Transition MetadataState Finmap Finset List Option
variable {nodes : List NodeInfo} {replicas : List Nat} {state : MetadataState} {name : String}

/-- A partition has as many replicas as its topic asks for, on distinct registered nodes. -/
def Placed (nodes : KeyMap Nat NodeInfo) (replicationFactor : Int) (replicas : List Nat) : Prop :=
  replicas.length = replicationFactor ∧ replicas.Nodup ∧ ∀ nodeID ∈ replicas, nodeID ∈ nodes

/-- Nodes are registered under their numbers. -/
def NodesNamed (state : MetadataState) : Prop :=
  ∀ nodeID node, state.nodes.lookup nodeID = some node → node.nodeID = nodeID

section
variable {state : MetadataState}

theorem listNodes_ids (named : NodesNamed state) : state.listNodes.map NodeInfo.nodeID = state.nodes.sortedKeys := by
  have each : ∀ nodeID ∈ state.nodes.sortedKeys, (state.nodes.lookup nodeID).map NodeInfo.nodeID = some nodeID := by
    intro nodeID member
    obtain ⟨node, found⟩ := mem_iff.mp (KeyMap.mem_sortedKeys.mp member)
    rw [found, map_some, named nodeID node found]
  rw [listNodes, map_filterMap]
  rw [List.filterMap_congr each, List.filterMap_some]

theorem listNodes_length (named : NodesNamed state) : state.listNodes.length = state.nodes.keys.card := by
  have ids := congrArg length (listNodes_ids named)
  rw [length_map] at ids
  have sorted := congrArg Multiset.card (KeyMap.coe_increasing state.nodes.keys.val)
  rw [Multiset.coe_card] at sorted
  exact ids.trans sorted

/-- Assigned replicas are consecutive nodes, hence distinct ones. -/
theorem assignReplicas_placed {topicName : String} {partitionID rf : Int}
    (assigned : assignReplicas nodes topicName partitionID rf = some replicas) (nonneg : 0 ≤ partitionID)
    (distinct : (nodes.map NodeInfo.nodeID).Nodup) (enough : rf ≤ nodes.length) :
    replicas.length = rf ∧ replicas.Nodup ∧ ∀ nodeID ∈ replicas, nodeID ∈ nodes.map NodeInfo.nodeID := by
  unfold assignReplicas at assigned
  have sorting := perm_insertionSort (fun (first second : NodeInfo) => first.nodeID ≤ second.nodeID) nodes
  generalize nodes.insertionSort (fun first second => first.nodeID ≤ second.nodeID) = sorted at assigned sorting
  simp only at assigned
  split at assigned
  · cases assigned
  next possible =>
  obtain ⟨_, factor⟩ := not_or.mp possible
  rw [Selection.mapM_eq_some_iff] at assigned
  have ids := sorting.map NodeInfo.nodeID
  have size := sorting.length_eq
  have count : rf.toNat = replicas.length := by simpa using congrArg length assigned
  have picked : (Ranges.ringPlaces ((fnv32a topicName).toNat % sorted.length + partitionID.toNat) rf.toNat
      sorted.length).map (fun place => (sorted.map NodeInfo.nodeID)[place]?) = replicas.map some := by
    rw [← assigned, Ranges.ringPlaces, List.map_map]
    refine map_congr_left ?_
    intro step _
    generalize (fnv32a topicName).toNat % sorted.length = start
    have whole : (start : Int) + partitionID + step = ((start + partitionID.toNat + step : Nat) : Int) := by omega
    rw [whole, ← Int.ofNat_tmod, if_neg (by omega), Int.toNat_natCast, Function.comp_apply, getElem?_map]
  refine ⟨by omega, ?_, ?_⟩
  · exact Selection.nodup_of_places (ids.nodup_iff.mpr distinct) (Ranges.ringPlaces_nodup _ (by omega)) picked
  · intro nodeID member
    exact ids.mem_iff.mp (Selection.mem_of_places picked member)

end

/-- A call of an administrator whose command is on its way, with the topic that it has read. -/
inductive AdminProposal where
  | create (cmd : CreateTopicCmd)
  | delete (cmd : DeleteTopicCmd)
  | alter (cmd : AlterTopicPartCountCmd) (read : TopicMeta)
  deriving DecidableEq

def AdminProposal.command : AdminProposal → MetadataCommand
  | .create cmd => .createTopic cmd
  | .delete cmd => .deleteTopic cmd
  | .alter cmd _ => .alterTopicPartCount cmd

structure AdminRun where
  history : History
  proposals : List AdminProposal

/-- A lookup reads one of the states of the history. The nodes are read after the topic. -/
inductive AdminEvent where
  | other (command : MetadataCommand)
  | createTopic (name : String) (partitionCount replicationFactor : Int) (configOverrides : TopicConfigOverrides)
      (now : Int) (nodesAt : Nat)
  | deleteTopic (name : String) (topicAt : Nat)
  | alterTopicPartitionCount (name : String) (newCount : Int) (topicAt nodesAt : Nat)
  | apply (proposal : AdminProposal)

namespace AdminRun

def propose (run : AdminRun) (proposal : AdminProposal) : AdminRun :=
  { run with proposals := run.proposals ++ [proposal] }

def alter (run : AdminRun) (name : String) (newCount : Int) (topicState nodesState : MetadataState) : AdminRun :=
  match topicState.getTopic name with
  | .error _ => run
  | .ok read =>
    match alterTopicPartitionCount (.ok read) (.ok nodesState.listNodes) name newCount with
    | .ok cmd => run.propose (.alter cmd read)
    | .error _ => run

/-- The new count of a call is a signed 32-bit number. -/
def step (run : AdminRun) : AdminEvent → Option AdminRun
  | .other command => if command.reshapes then none else some { run with history := run.history.apply command }
  | .createTopic name partitionCount replicationFactor configOverrides now nodesAt =>
    run.history.states[nodesAt]?.map fun state =>
      match createTopic (.ok state.listNodes) name partitionCount replicationFactor configOverrides now with
      | .ok cmd => run.propose (.create cmd)
      | .error _ => run
  | .deleteTopic name topicAt =>
    run.history.states[topicAt]?.map fun state =>
      match deleteTopic (state.getTopic name) name with
      | .ok cmd => run.propose (.delete cmd)
      | .error _ => run
  | .alterTopicPartitionCount name newCount topicAt nodesAt =>
    if topicAt ≤ nodesAt ∧ int32 newCount = newCount then
      run.history.states[topicAt]?.bind fun topicState =>
        run.history.states[nodesAt]?.map fun nodesState => run.alter name newCount topicState nodesState
    else none
  | .apply proposal =>
    if proposal ∈ run.proposals then
      some ⟨run.history.apply proposal.command, run.proposals.erase proposal⟩
    else none

def start : AdminRun := ⟨History.start, []⟩

end AdminRun

def adminRuns : System AdminRun AdminEvent where
  start run := run = AdminRun.start
  step run event next := run.step event = some next

/-- An accepted extension finds the replication factor that it has read and no fewer partitions than it has read. -/
def AdminProposal.Fits (state : MetadataState) : AdminProposal → Prop
  | .alter cmd read => ∀ tm ∈ state.topics.lookup cmd.name, tm.partitionCount < cmd.newPartitionCount →
      tm.replicationFactor = read.replicationFactor ∧ read.partitionCount ≤ tm.partitionCount
  | _ => True

def InTime (run : AdminRun) : AdminEvent → Prop
  | .apply proposal => Bounded run.history proposal.command ∧ proposal.Fits run.history.current
  | _ => True

instance AdminProposal.decidableFits (state : MetadataState) :
    (proposal : AdminProposal) → Decidable (proposal.Fits state)
  | .alter _ _ => inferInstanceAs (Decidable (∀ _ ∈ _, _))
  | .create _ | .delete _ => .isTrue trivial

instance (run : AdminRun) : (event : AdminEvent) → Decidable (InTime run event)
  | .apply _ => inferInstanceAs (Decidable (_ ∧ _))
  | .other _ | .createTopic _ _ _ _ _ _ | .deleteTopic _ _ | .alterTopicPartitionCount _ _ _ _ => .isTrue trivial

/-- All partitions of this state are placed as their topics ask for. -/
def PlacedAll (state : MetadataState) : Prop :=
  ∀ key pm, state.partitions.lookup key = some pm → ∃ tm, state.topics.lookup pm.topic = some tm ∧
    Placed state.nodes tm.replicationFactor pm.replicaNodeIDs

/-- No topic asks for more replicas than there are nodes. -/
def Staffed (state : MetadataState) : Prop :=
  ∀ topic shape, state.shapes topic = some shape → shape.2 ≤ state.nodes.keys.card

/-- The command of a call places replicas as its topic asked for when it was read. -/
def AdminProposal.Sound (nodes : KeyMap Nat NodeInfo) : AdminProposal → Prop
  | .create cmd => cmd.replicationFactor ≤ nodes.keys.card ∧ cmd.replicaNodeIDs.length = cmd.partitionCount ∧
      ∀ replicas ∈ cmd.replicaNodeIDs, Placed nodes cmd.replicationFactor replicas
  | .delete _ => True
  | .alter cmd read => cmd.newReplicaAssignments.length = cmd.newPartitionCount - read.partitionCount ∧
      ∀ replicas ∈ cmd.newReplicaAssignments, Placed nodes read.replicationFactor replicas

section
variable {state next : MetadataState} {nodes more : KeyMap Nat NodeInfo}

theorem Placed.mono {rf : Int} (placed : Placed nodes rf replicas) (grown : nodes.keys ⊆ more.keys) :
    Placed more rf replicas := by
  obtain ⟨count, distinct, registered⟩ := placed
  refine ⟨count, distinct, ?_⟩
  intro nodeID member
  exact mem_keys.mp (grown (mem_keys.mpr (registered nodeID member)))

theorem AdminProposal.Sound.mono {proposal : AdminProposal} (sound : proposal.Sound nodes)
    (grown : nodes.keys ⊆ more.keys) : proposal.Sound more := by
  cases proposal with
  | create cmd =>
    obtain ⟨enough, count, placed⟩ := sound
    have cards := card_le_card grown
    exact ⟨by omega, count, fun replicas member => (placed replicas member).mono grown⟩
  | delete cmd => trivial
  | alter cmd read =>
    obtain ⟨count, placed⟩ := sound
    exact ⟨count, fun replicas member => (placed replicas member).mono grown⟩

/-- Only a registration changes the nodes. -/
theorem update_nodes (state : MetadataState) (command : MetadataCommand) :
    (state.update command).1.nodes = state.nodes ∨ ∃ cmd : RegisterNodeCmd,
      (state.update command).1.nodes = state.nodes.insert cmd.nodeID ⟨cmd.nodeID, cmd.address⟩ := by
  have frame := update_frame state command
  cases command with
  | registerNode cmd => exact .inr ⟨cmd, rfl⟩
  | createTopic cmd | deleteTopic cmd | alterTopicPartCount cmd =>
    obtain ⟨_, _, _, same⟩ := frame
    rw [same]
    exact .inl rfl
  | alterTopicRetention cmd | assignPartitionLeader cmd =>
    obtain ⟨_, same⟩ := frame
    rw [same]
    exact .inl rfl
  | _ =>
    obtain ⟨_, _, same⟩ := frame
    rw [same]
    exact .inl rfl

theorem update_nodes_grown (state : MetadataState) (command : MetadataCommand) :
    state.nodes.keys ⊆ (state.update command).1.nodes.keys := by
  rcases update_nodes state command with same | ⟨cmd, inserted⟩
  · rw [same]
  · rw [inserted, KeyMap.keys_insert]
    exact subset_insert _ _

theorem NodesNamed.update (named : NodesNamed state) (command : MetadataCommand) :
    NodesNamed (state.update command).1 := by
  intro nodeID node found
  rcases update_nodes state command with same | ⟨cmd, inserted⟩
  · rw [same] at found
    exact named nodeID node found
  · rw [inserted] at found
    by_cases own : nodeID = cmd.nodeID
    · subst own
      rw [lookup_insert] at found
      cases found
      rfl
    · rw [lookup_insert_of_ne _ own] at found
      exact named nodeID node found

/-- Placement depends on the shapes of the topics and the identities of the partitions. -/
theorem placedAll_iff : PlacedAll state ↔ ∀ key part, state.identities key = some part →
    ∃ shape, state.shapes part.1 = some shape ∧ Placed state.nodes shape.2 part.2.2.2 := by
  constructor
  · intro placed key part found
    obtain ⟨pm, stored, rfl⟩ := map_eq_some_iff.mp found
    obtain ⟨tm, known, good⟩ := placed key pm stored
    exact ⟨tm.shape, map_eq_some_iff.mpr ⟨tm, known, rfl⟩, good⟩
  · intro placed key pm stored
    obtain ⟨shape, known, good⟩ := placed key pm.identity (map_eq_some_iff.mpr ⟨pm, stored, rfl⟩)
    obtain ⟨tm, found, rfl⟩ := map_eq_some_iff.mp known
    exact ⟨tm, found, good⟩

section
variable {topic : String} {first : Int} {count : Nat} {replicas : List (List Nat)} {shape : Int × Int}

/-- New partitions with placed replicas keep all partitions placed. -/
theorem PlacedAll.grows (placed : PlacedAll state) (grows : Grows state topic first count replicas shape next)
    (grown : state.nodes.keys ⊆ next.nodes.keys) (long : count ≤ replicas.length)
    (good : ∀ assigned ∈ replicas, Placed next.nodes shape.2 assigned)
    (kept : ∀ old, state.shapes topic = some old → old.2 = shape.2) : PlacedAll next := by
  have shapes : ∀ other, next.shapes other = if other = topic then some shape else state.shapes other := grows.topics
  rw [placedAll_iff] at placed ⊢
  intro key part found
  rw [identities, grows.partitions] at found
  split at found
  · next inside =>
    obtain ⟨_, lower, upper⟩ := inside
    cases found
    refine ⟨shape, by rw [shapes, if_pos rfl], good _ ?_⟩
    have within : (key.partitionID - first).toNat < replicas.length := by omega
    rw [getD_eq_getElem?_getD, getElem?_eq_getElem within, getD_some]
    exact getElem_mem within
  · obtain ⟨old, known, before⟩ := placed key part found
    by_cases own : part.1 = topic
    · rw [own] at known
      refine ⟨shape, by rw [shapes, if_pos own], ?_⟩
      rw [← kept old known]
      exact before.mono grown
    · exact ⟨old, by rw [shapes, if_neg own, known], before.mono grown⟩

theorem Staffed.grows (staffed : Staffed state) (grows : Grows state topic first count replicas shape next)
    (grown : state.nodes.keys ⊆ next.nodes.keys) (enough : shape.2 ≤ next.nodes.keys.card) : Staffed next := by
  intro other found known
  have cards := card_le_card grown
  rw [shapes, grows.topics] at known
  split at known
  · cases known
    exact enough
  · have before := staffed other found known
    omega

end

/-- What is left of topics and partitions stays placed. -/
theorem PlacedAll.restrict (placed : PlacedAll state) (staffed : Staffed state)
    (grown : state.nodes.keys ⊆ next.nodes.keys)
    (topics : ∀ topic shape, next.shapes topic = some shape → state.shapes topic = some shape)
    (partitions : ∀ key part, next.identities key = some part → state.identities key = some part ∧
      next.shapes part.1 = state.shapes part.1) : PlacedAll next ∧ Staffed next := by
  refine ⟨?_, ?_⟩
  · rw [placedAll_iff] at placed ⊢
    intro key part found
    obtain ⟨before, same⟩ := partitions key part found
    obtain ⟨shape, known, good⟩ := placed key part before
    exact ⟨shape, same.trans known, good.mono grown⟩
  · intro topic shape found
    have cards := card_le_card grown
    have before := staffed topic shape (topics topic shape found)
    omega

theorem PlacedAll.keeps (placed : PlacedAll state) (staffed : Staffed state)
    (grown : state.nodes.keys ⊆ next.nodes.keys) (keeps : Keeps state next) : PlacedAll next ∧ Staffed next := by
  refine placed.restrict staffed grown ?_ ?_
  · intro topic shape found
    exact (keeps.topics topic).symm.trans found
  · intro key part found
    exact ⟨(keeps.partitions key).symm.trans found, keeps.topics part.1⟩

/-- A deleted topic takes its partitions with it and leaves the others placed. -/
theorem PlacedAll.drops {topic : String} {count : Nat} {shape : Int × Int} (placed : PlacedAll state)
    (staffed : Staffed state) (structured : Structured state) (grown : state.nodes.keys ⊆ next.nodes.keys)
    (known : state.shapes topic = some shape) (whole : count = shape.1.toNat) (drops : Drops state topic count next) :
    PlacedAll next ∧ Staffed next := by
  have layout := structured_iff_layout.mp structured
  have shapes : ∀ other, next.shapes other = if other = topic then none else state.shapes other := drops.topics
  refine placed.restrict staffed grown ?_ ?_
  · intro other found present
    rw [shapes] at present
    split at present
    · cases present
    · exact present
  · intro key part found
    rw [identities, drops.partitions] at found
    split at found
    · cases found
    next outside =>
    refine ⟨found, ?_⟩
    have name := (layout.named key part found).1
    rw [shapes, if_neg]
    intro own
    obtain ⟨size, present, lower, upper⟩ := (layout.keys key).mp (isSome_iff_exists.mpr ⟨part, found⟩)
    rw [← name, own, known] at present
    cases present
    exact outside ⟨name.symm.trans own, lower, by omega⟩

/-- A sound proposal that fits keeps the placement. -/
theorem PlacedAll.proposal {proposal : AdminProposal} (placed : PlacedAll state) (staffed : Staffed state)
    (structured : Structured state) (sound : proposal.Sound state.nodes) (fits : proposal.Fits state)
    (grown : state.nodes.keys ⊆ next.nodes.keys) (reshaped : Reshaped state proposal.command next) :
    PlacedAll next ∧ Staffed next := by
  have cards := card_le_card grown
  have sound := sound.mono grown
  generalize same : proposal.command = command at reshaped
  cases reshaped with
  | kept keeps => exact placed.keeps staffed grown keeps
  | created cmd absent _ _ grows =>
    cases proposal with
    | delete cmd => cases same
    | alter cmd read => cases same
    | create cmd =>
      cases same
      obtain ⟨enough, count, good⟩ := sound
      refine ⟨placed.grows grows grown (by omega) good ?_, staffed.grows grows grown enough⟩
      intro old known
      rw [shapes, absent] at known
      cases known
  | extended cmd tm found larger grows =>
    cases proposal with
    | create cmd => cases same
    | delete cmd => cases same
    | alter cmd read =>
      cases same
      obtain ⟨count, good⟩ := sound
      obtain ⟨factor, before⟩ := fits tm found larger
      have known : state.shapes cmd.name = some tm.shape := map_eq_some_iff.mpr ⟨tm, found, rfl⟩
      have enough : tm.replicationFactor ≤ state.nodes.keys.card := staffed cmd.name tm.shape known
      refine ⟨placed.grows grows grown (by omega) (factor ▸ good) ?_, staffed.grows grows grown (by simp only; omega)⟩
      intro old also
      rw [known] at also
      cases also
      rfl
  | deleted cmd tm found drops =>
    have known : state.shapes cmd.name = some tm.shape := map_eq_some_iff.mpr ⟨tm, found, rfl⟩
    exact placed.drops staffed structured grown known rfl drops

end

/-- The placement holds now, and the calls on their way will keep it. -/
structure Administered (run : AdminRun) : Prop where
  recorded : Recorded run.history
  named : ∀ state ∈ run.history.states, NodesNamed state
  staffed : ∀ state ∈ run.history.states, Staffed state
  grown : run.history.states.Pairwise fun earlier later => earlier.nodes.keys ⊆ later.nodes.keys
  placed : PlacedAll run.history.current
  proposed : ∀ proposal ∈ run.proposals, proposal.Sound run.history.current.nodes

section
variable {run next : AdminRun}

theorem Administered.start : Administered AdminRun.start := by
  refine ⟨Recorded.start, ?_, ?_, pairwise_singleton _ _, ?_, ?_⟩
  · intro state member
    rw [List.mem_singleton.mp member]
    intro nodeID node found
    cases found
  · intro state member
    rw [List.mem_singleton.mp member]
    intro topic shape found
    cases found
  · intro key pm found
    cases found
  · intro proposal member
    cases member

theorem Administered.grown_current (administered : Administered run) (member : state ∈ run.history.states) :
    state.nodes.keys ⊆ run.history.current.nodes.keys := by
  rcases mem_append.mp member with earlier | current
  · exact (List.pairwise_append.mp administered.grown).2.2 state earlier _ (List.mem_singleton.mpr rfl)
  · rw [List.mem_singleton.mp current]

/-- A command that leaves the partitions placed keeps the invariant of the proposals. -/
theorem Administered.apply (administered : Administered run) {command : MetadataCommand}
    {proposals : List AdminProposal} (left : ∀ proposal ∈ proposals, proposal ∈ run.proposals)
    (reshaped : Reshaped run.history.current command (run.history.current.update command).1)
    (placed : PlacedAll (run.history.current.update command).1 ∧ Staffed (run.history.current.update command).1) :
    Administered ⟨run.history.apply command, proposals⟩ := by
  have grown := update_nodes_grown run.history.current command
  refine ⟨administered.recorded.reshaped reshaped, ?_, ?_, ?_, placed.1, ?_⟩
  · intro state member
    rcases mem_append.mp member with old | new
    · exact administered.named state old
    · rw [List.mem_singleton.mp new]
      exact (administered.named _ run.history.current_mem).update command
  · intro state member
    rcases mem_append.mp member with old | new
    · exact administered.staffed state old
    · rw [List.mem_singleton.mp new]
      exact placed.2
  · refine List.pairwise_append.mpr ⟨administered.grown, pairwise_singleton _ _, ?_⟩
    intro state member last new
    rw [List.mem_singleton.mp new]
    exact (administered.grown_current member).trans grown
  · intro proposal member
    exact (administered.proposed proposal (left proposal member)).mono grown

theorem Administered.propose (administered : Administered run) {proposal : AdminProposal}
    (sound : proposal.Sound run.history.current.nodes) : Administered (run.propose proposal) := by
  refine ⟨administered.recorded, administered.named, administered.staffed, administered.grown, administered.placed, ?_⟩
  intro other member
  rcases mem_append.mp member with old | new
  · exact administered.proposed other old
  · rw [List.mem_singleton.mp new]
    exact sound

/-- The nodes of one state serve as replicas in all later states. -/
theorem NodesNamed.placed (named : NodesNamed state) {nodes : KeyMap Nat NodeInfo}
    (grown : state.nodes.keys ⊆ nodes.keys) {partitionID rf : Int}
    (assigned : assignReplicas state.listNodes name partitionID rf = some replicas) (nonneg : 0 ≤ partitionID)
    (enough : rf ≤ state.nodes.keys.card) : Placed nodes rf replicas := by
  have ids := listNodes_ids named
  obtain ⟨count, distinct, registered⟩ := assignReplicas_placed assigned nonneg
    (ids ▸ KeyMap.sortedKeys_nodup state.nodes) (by rw [listNodes_length named]; exact enough)
  refine ⟨count, distinct, ?_⟩
  intro nodeID member
  have listed := registered nodeID member
  rw [ids] at listed
  exact mem_keys.mp (grown (mem_keys.mpr (KeyMap.mem_sortedKeys.mp listed)))

/-- A traversal that assigns replicas gives every place its own. -/
theorem mem_assigned {count : Nat} {assign : Nat → Option (List Nat)} {assignments : List (List Nat)}
    (assigned : (List.range count).mapM assign = some assignments) :
    assignments.length = count ∧ ∀ replicas ∈ assignments, ∃ i : Nat, assign i = some replicas := by
  rw [Selection.mapM_eq_some_iff] at assigned
  refine ⟨by simpa using (congrArg length assigned).symm, ?_⟩
  intro replicas member
  have present : some replicas ∈ (List.range count).map assign := assigned ▸ mem_map_of_mem member
  obtain ⟨i, _, found⟩ := mem_map.mp present
  exact ⟨i, found⟩

/-- A creation that passes its checks proposes replicas for every partition. -/
theorem createTopic_ok {partitionCount replicationFactor : Int} {configOverrides : TopicConfigOverrides} {now : Int}
    {cmd : CreateTopicCmd}
    (created : createTopic (.ok nodes) name partitionCount replicationFactor configOverrides now = .ok cmd) :
    1 ≤ partitionCount ∧ 1 ≤ replicationFactor ∧ replicationFactor ≤ nodes.length ∧ cmd.name = name ∧
      cmd.partitionCount = partitionCount ∧ cmd.replicationFactor = replicationFactor ∧
      (List.range partitionCount.toNat).mapM (fun (p : Nat) => assignReplicas nodes name p replicationFactor) =
        some cmd.replicaNodeIDs := by
  unfold createTopic at created
  split at created
  · cases created
  split at created
  · cases created
  split at created
  · cases created
  simp only at created
  split at created
  · cases created
  split at created
  · cases created
  next assignments assigned =>
  cases created
  exact ⟨by omega, by omega, by omega, rfl, rfl, rfl, assigned⟩

/-- An extension that passes its checks proposes replicas for every new partition. -/
theorem alterTopicPartitionCount_ok {read : TopicMeta} {newCount : Int} {cmd : AlterTopicPartCountCmd}
    (altered : alterTopicPartitionCount (.ok read) (.ok nodes) name newCount = .ok cmd) :
    read.partitionCount < newCount ∧ cmd.name = name ∧ cmd.newPartitionCount = newCount ∧
      (List.range (int32 (newCount - read.partitionCount)).toNat).mapM (fun (i : Nat) =>
        assignReplicas nodes name (read.partitionCount + i) read.replicationFactor) =
          some cmd.newReplicaAssignments := by
  unfold alterTopicPartitionCount at altered
  simp only at altered
  split at altered
  · cases altered
  split at altered
  · cases altered
  next assignments assigned =>
  cases altered
  exact ⟨by omega, rfl, rfl, assigned⟩

theorem Administered.create (administered : Administered run) (member : state ∈ run.history.states)
    {partitionCount replicationFactor : Int} {configOverrides : TopicConfigOverrides} {now : Int}
    {cmd : CreateTopicCmd}
    (created : createTopic (.ok state.listNodes) name partitionCount replicationFactor configOverrides now = .ok cmd) :
    (AdminProposal.create cmd).Sound run.history.current.nodes := by
  have named := administered.named state member
  have grown := administered.grown_current member
  have cards := card_le_card grown
  have size := listNodes_length named
  obtain ⟨positive, _, enough, _, counted, factor, assigned⟩ := createTopic_ok created
  obtain ⟨count, each⟩ := mem_assigned assigned
  have registered : replicationFactor ≤ state.nodes.keys.card := by omega
  refine ⟨by omega, by omega, ?_⟩
  intro replicas inside
  obtain ⟨i, found⟩ := each replicas inside
  rw [factor]
  exact named.placed grown found (by omega) registered

/-- An extension computed from earlier reads is sound for the current nodes. -/
theorem Administered.alter (administered : Administered run) {topicAt nodesAt : Nat}
    {topicState nodesState : MetadataState}
    (order : topicAt ≤ nodesAt) (atTopic : run.history.states[topicAt]? = some topicState)
    (atNodes : run.history.states[nodesAt]? = some nodesState) {name : String} {newCount : Int}
    (typed : int32 newCount = newCount) {read : TopicMeta} (got : topicState.getTopic name = .ok read)
    {cmd : AlterTopicPartCountCmd}
    (altered : alterTopicPartitionCount (.ok read) (.ok nodesState.listNodes) name newCount = .ok cmd) :
    (AdminProposal.alter cmd read).Sound run.history.current.nodes := by
  have inTopic := mem_of_getElem? atTopic
  have inNodes := mem_of_getElem? atNodes
  have named := administered.named nodesState inNodes
  have grown := administered.grown_current inNodes
  have between := Selection.related_of_le (fun (state : MetadataState) => Finset.Subset.refl state.nodes.keys)
    administered.grown order atTopic atNodes
  have cards := card_le_card between
  have found : topicState.topics.lookup name = some read := by
    unfold getTopic found at got
    split at got
    · next present =>
      cases got
      exact present
    · cases got
  have positive := (administered.recorded.structured topicState inTopic).counted name read found
  have enough : read.replicationFactor ≤ topicState.nodes.keys.card :=
    administered.staffed topicState inTopic name read.shape (map_eq_some_iff.mpr ⟨read, found, rfl⟩)
  obtain ⟨larger, _, counted, assigned⟩ := alterTopicPartitionCount_ok altered
  obtain ⟨count, each⟩ := mem_assigned assigned
  have unwrapped : int32 (newCount - read.partitionCount) = newCount - read.partitionCount := by
    unfold int32 at typed ⊢
    omega
  rw [unwrapped] at count
  refine ⟨by omega, ?_⟩
  intro replicas inside
  obtain ⟨i, replica⟩ := each replicas inside
  exact named.placed grown replica (by omega) (by omega)

/-- Every event in time keeps the invariant. -/
theorem Administered.step {event : AdminEvent} (administered : Administered run) (inTime : InTime run event)
    (moved : run.step event = some next) : Administered next := by
  cases event with
  | other command =>
    simp only [AdminRun.step] at moved
    split at moved
    · cases moved
    next other =>
    cases moved
    have keeps := @keeps_other run.history.current command (by simpa using other)
    exact administered.apply (fun _ member => member) (.kept keeps)
      (administered.placed.keeps (administered.staffed _ run.history.current_mem) (update_nodes_grown _ command) keeps)
  | createTopic name partitionCount replicationFactor configOverrides now nodesAt =>
    obtain ⟨state, found, rfl⟩ := map_eq_some_iff.mp moved
    split
    · next cmd created => exact administered.propose (administered.create (mem_of_getElem? found) created)
    · exact administered
  | deleteTopic name topicAt =>
    obtain ⟨state, found, rfl⟩ := map_eq_some_iff.mp moved
    split
    · exact administered.propose trivial
    · exact administered
  | alterTopicPartitionCount name newCount topicAt nodesAt =>
    simp only [AdminRun.step] at moved
    split at moved
    · next guarded =>
      obtain ⟨topicState, atTopic, rest⟩ := bind_eq_some_iff.mp moved
      obtain ⟨nodesState, atNodes, rfl⟩ := map_eq_some_iff.mp rest
      unfold AdminRun.alter
      split
      · exact administered
      next read got =>
      split
      · next cmd altered =>
        exact administered.propose (administered.alter guarded.1 atTopic atNodes guarded.2 got altered)
      · exact administered
    · cases moved
  | apply proposal =>
    simp only [AdminRun.step] at moved
    split at moved
    · next member =>
      cases moved
      obtain ⟨bounded, fits⟩ := inTime
      have structured := administered.recorded.structured _ run.history.current_mem
      have reshaped := update_reshaped bounded structured.nonneg
      exact administered.apply (fun _ left => mem_of_mem_erase left) reshaped
        (administered.placed.proposal (administered.staffed _ run.history.current_mem) structured
          (administered.proposed proposal member) fits (update_nodes_grown _ _) reshaped)
    · cases moved

end

/-- Every partition has as many replicas as its topic asks for, on distinct registered nodes, when every accepted
extension finds its topic as large and as replicated as it has read it. -/
theorem replicas_placed (run : AdminRun) (reached : adminRuns.Reaches InTime run) : PlacedAll run.history.current := by
  have administered : Administered run := by
    refine @System.Reaches.invariant _ _ _ _ Administered ?_ ?_ _ reached
    · rintro run rfl
      exact Administered.start
    · intro run event next administered inTime moved
      exact administered.step inTime moved
  exact administered.placed

def ordersCmd (partitionCount : Int) (replicas : List (List Nat)) : CreateTopicCmd :=
  ⟨"orders", partitionCount, 2, 0, -1, 0, replicas⟩

/-- Two nodes register, a topic with three partitions is created on them, and its extension is computed. -/
def extendOrders : List AdminEvent :=
  [.other (.registerNode ⟨1, "node-1:9000"⟩), .other (.registerNode ⟨2, "node-2:9000"⟩),
    .createTopic "orders" 3 2 ⟨none, none⟩ 0 2, .apply (.create (ordersCmd 3 [[1, 2], [2, 1], [1, 2]])),
    .alterTopicPartitionCount "orders" 4 3 3]

/-- The extension gives one new partition its replicas. -/
def ordersExtension : AdminEvent := .apply (.alter ⟨"orders", 4, [[2, 1]]⟩ ⟨"orders", 3, 2, 0, -1, 0⟩)

def replicasOf (run : AdminRun) : List (Option (List Nat)) :=
  ([0, 1, 2, 3] : List Int).map fun number =>
    (run.history.current.partitions.lookup ⟨"orders", number⟩).map PartitionMeta.replicaNodeIDs

def extendedRun : AdminRun :=
  (follow AdminRun.step AdminRun.start (extendOrders ++ [ordersExtension])).get (by decide +kernel)

theorem replicas_placed_after_extension :
    follow AdminRun.step AdminRun.start (extendOrders ++ [ordersExtension]) = some extendedRun ∧
      replicasOf extendedRun = [some [1, 2], some [2, 1], some [1, 2], some [2, 1]] ∧
      PlacedAll extendedRun.history.current := by
  have followed : follow AdminRun.step AdminRun.start (extendOrders ++ [ordersExtension]) = some extendedRun :=
    (some_get _).symm
  have reached : adminRuns.Reaches InTime extendedRun :=
    System.Reaches.run rfl (by decide +kernel : permits _ InTime _ _) followed
  exact ⟨followed, by decide +kernel, replicas_placed extendedRun reached⟩

/-- The topic is deleted and created again with one partition before the extension is applied. -/
def shrinkOrders : List AdminEvent :=
  [.deleteTopic "orders" 3, .apply (.delete ⟨"orders"⟩), .createTopic "orders" 1 2 ⟨none, none⟩ 0 4,
    .apply (.create (ordersCmd 1 [[1, 2]]))]

def unplacedRun : AdminRun :=
  (follow AdminRun.step AdminRun.start (extendOrders ++ shrinkOrders ++ [ordersExtension])).get (by decide +kernel)

/-- The extension has replicas for one of the three partitions that it adds now. -/
theorem late_extension_without_replicas :
    follow AdminRun.step AdminRun.start (extendOrders ++ shrinkOrders ++ [ordersExtension]) = some unplacedRun ∧
      adminRuns.Reaches System.Free unplacedRun ∧
      replicasOf unplacedRun = [some [1, 2], some [2, 1], some [], some []] ∧
      ¬ PlacedAll unplacedRun.history.current := by
  have followed : follow AdminRun.step AdminRun.start (extendOrders ++ shrinkOrders ++ [ordersExtension]) =
      some unplacedRun := (some_get _).symm
  have reached : adminRuns.Reaches System.Free unplacedRun :=
    System.Reaches.run rfl (by decide +kernel : permits _ System.Free _ _) followed
  refine ⟨followed, reached, by decide +kernel, ?_⟩
  intro placed
  have stored : unplacedRun.history.current.partitions.lookup ⟨"orders", 2⟩ = some ⟨"orders", 2, 6, [], 0, 0⟩ := by
    decide +kernel
  have factor : (unplacedRun.history.current.topics.lookup "orders").map TopicMeta.replicationFactor = some 2 := by
    decide +kernel
  obtain ⟨tm, known, count, _⟩ := placed _ _ stored
  rw [known, map_some] at factor
  have same := some.inj factor
  simp only [length_nil] at count
  omega

end BunnyMQ.Cluster
