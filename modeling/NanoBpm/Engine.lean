import NanoBpm.Apply
import NanoBpm.Command

/-!
# The engine (`engine-core/src/engine/mod.rs:463-626`, `:1250-1314`, `engine/memory.rs:18-173`)

An engine is the `State` plus the key generator, the clock and a few leader-local sets that are no
part of the log. `observeKey` is the one rule by which a logged key advances the generator; it is
shared by `replay_partition`, `apply_replayed_events` and `install_deployment`.
-/

namespace NanoBpm

structure Engine where
  state : State := {}
  partitionId : Nat := 0
  nextLocal : Nat := 0
  numPartitions : Nat := 1
  now : Nat := 0
  startDispatchRr : Nat := 0
  lenientCompletion : Bool := false
  trackDirtyVars : Bool := false
  dirtyVars : KeySet := ∅
  forgottenVars : KeySet := ∅
  retiredTombstones : KeySet := ∅
  tornDownScopes : KeySet := ∅
  /-- The shared handle's current contents: the host's configuration, never part of the log. -/
  clusterVariables : Vars := ∅

structure EngineSnapshot where
  state : State
  partitionId : Nat
  nextLocal : Nat
  numPartitions : Nat
  now : Nat
  startDispatchRr : Nat

namespace Engine

/-- `Engine::with_partition`. -/
def withPartition (partitionId : Nat) : Engine := { partitionId }

/-- `Engine::new`. -/
def new : Engine := withPartition 0

def setNumPartitions (e : Engine) (numPartitions : Nat) : Engine :=
  { e with numPartitions := max numPartitions 1 }

def setLenientCompletion (e : Engine) (lenient : Bool) : Engine := { e with lenientCompletion := lenient }

/-! ## Keys -/

/-- `next_local = next_local.max(local_of(max_key))` when `max_key` belongs to the partition. -/
def observeKey (partitionId nextLocal : Nat) (maxKey : Key) : Nat :=
  if partitionOf maxKey = partitionId then max nextLocal (localOf maxKey) else nextLocal

/-- The key `mint_key` returns from a counter (`engine/mod.rs:618`). -/
def mintedKey (partitionId nextLocal : Nat) : Key := composeKey partitionId (nextLocal + 1)

def mintKey (e : Engine) : Key × Engine :=
  (mintedKey e.partitionId e.nextLocal, { e with nextLocal := e.nextLocal + 1 })

/-! ## Replay -/

/-- One turn of the loop of `apply_replayed_events` and `replay_partition`. -/
def applyReplayedEvent (e : Engine) (event : Event) : Engine :=
  { e with
    nextLocal := observeKey e.partitionId e.nextLocal event.maxKey
    state := apply e.state event }

/-- `apply_replayed_events` (`memory.rs:162`). -/
def applyReplayedEvents (e : Engine) (events : List Event) : Engine := events.foldl applyReplayedEvent e

/-- `replay_partition` (`engine/mod.rs:583`): the same loop from the empty engine. -/
def replayPartition (partitionId : Nat) (events : List Event) : Engine :=
  (withPartition partitionId).applyReplayedEvents events

/-- One turn of the loop of `install_deployment` (`engine/mod.rs:1250`). -/
def installDeploymentEvent (e : Engine) (event : Event) : Engine :=
  { e with
    nextLocal := observeKey e.partitionId e.nextLocal event.maxKey
    state := if event.isDeployment then apply e.state event else e.state }

def installDeployment (e : Engine) (events : List Event) : Engine := events.foldl installDeploymentEvent e

/-- `install_deployment_if_newer` (`engine/mod.rs:1290`): the version guard lives in the appliers, so
the body is that of `install_deployment`. -/
def installDeploymentIfNewer (e : Engine) (events : List Event) : Engine :=
  events.foldl installDeploymentEvent e

@[simp] theorem applyReplayedEvents_nil (e : Engine) : e.applyReplayedEvents [] = e := rfl

@[simp] theorem applyReplayedEvents_cons (e : Engine) (x : Event) (xs : List Event) :
    e.applyReplayedEvents (x :: xs) = (e.applyReplayedEvent x).applyReplayedEvents xs := rfl

theorem applyReplayedEvents_append (e : Engine) (xs ys : List Event) :
    e.applyReplayedEvents (xs ++ ys) = (e.applyReplayedEvents xs).applyReplayedEvents ys := by
  simp [applyReplayedEvents, List.foldl_append]

/-- Replay folds the applier over the log: no other field of the engine reaches the state. -/
@[simp] theorem state_applyReplayedEvents (e : Engine) (events : List Event) :
    (e.applyReplayedEvents events).state = applyAll e.state events := by
  induction events generalizing e with
  | nil => rfl
  | cons x xs ih => rw [applyReplayedEvents_cons, ih, applyAll_cons]; rfl

@[simp] theorem partitionId_applyReplayedEvents (e : Engine) (events : List Event) :
    (e.applyReplayedEvents events).partitionId = e.partitionId := by
  induction events generalizing e with
  | nil => rfl
  | cons x xs ih => rw [applyReplayedEvents_cons, ih]; rfl

/-! ## Snapshots -/

/-- `snapshot` (`memory.rs:24`). -/
def snapshot (e : Engine) : EngineSnapshot where
  state := e.state
  partitionId := e.partitionId
  nextLocal := e.nextLocal
  numPartitions := e.numPartitions
  now := e.now
  startDispatchRr := e.startDispatchRr

/-- The loop of `from_snapshot` over `processes` and `process_versions` (`memory.rs:52-60`). -/
def normalizeDefinitions (s : State) : State :=
  { s with
    processes := s.processes.map fun _ d => { d with definition := d.definition.normalizeLegacyAgentTasks }
    processVersions := s.processVersions.map fun _ d =>
      { d with definition := d.definition.normalizeLegacyAgentTasks } }

/-- `from_snapshot` (`memory.rs:43`). -/
def fromSnapshot (snapshot : EngineSnapshot) : Engine where
  state := normalizeDefinitions snapshot.state
  partitionId := snapshot.partitionId
  nextLocal := snapshot.nextLocal
  numPartitions := max snapshot.numPartitions 1
  now := snapshot.now
  startDispatchRr := snapshot.startDispatchRr

end Engine

/-! ## Definitions of an instance's elements (`engine/mod.rs:12107-12150`) -/

namespace State

def processOfInstance (s : State) (instanceKey : Key) : Option ProcessDefinition := do
  let i ← s.instances[instanceKey]?
  (s.definitionFor i).map (·.definition)

def element (s : State) (instanceKey : Key) (elementId : ElementId) : Option Element := do
  (← s.processOfInstance instanceKey).elements[elementId]?

def elementKind (s : State) (instanceKey : Key) (elementId : ElementId) : Option ElementKind :=
  (s.element instanceKey elementId).map (·.kind)

def multiInstanceOf (s : State) (instanceKey : Key) (elementId : ElementId) : Option MultiInstance :=
  (s.element instanceKey elementId).bind (·.multiInstance)

/-- `resolve_link_catch` (`engine/mod.rs:12128`). -/
def resolveLinkCatch (s : State) (instanceKey : Key) (throwId : ElementId) (linkName : String) :
    Option ElementId := do
  let d ← s.processOfInstance instanceKey
  let throwParent := d.elements[throwId]?.bind (·.parent)
  let e ← d.elements.vals.find? fun e => e.kind == .linkIntermediateCatchEvent linkName && e.parent == throwParent
  return e.id

def instanceIsSuspended (s : State) (instanceKey : Key) : Bool :=
  s.instances[instanceKey]?.any (·.state == .suspended)

/-- `agent_type_for_element` (`agent_behavior.rs:8`). -/
def agentTypeForElement (s : State) (instanceKey : Key) (elementId : ElementId) (elementInstanceKey : Key) :
    Except EngineError AgentType :=
  match s.elementKind instanceKey elementId with
  | some (.serviceTask _ _ (some agentType) _ _) => .ok agentType
  | some (.serviceTask ..) => .error (.agentInstanceMissingAgentDefinition elementInstanceKey)
  | _ => .error (.agentInstanceElementNotEligible elementInstanceKey)

/-- `job_supports_agent_instance` (`api.rs:114`). -/
def jobSupportsAgentInstance (s : State) (jobKey : Key) : Bool :=
  s.jobs[jobKey]?.any fun j => (s.agentTypeForElement j.instanceKey j.elementId j.elementInstanceKey).isOk

/-- `job_requires_durable_activation` (`api.rs:123`). -/
def jobRequiresDurableActivation (s : State) (jobKey : Key) : Bool :=
  s.jobs[jobKey]?.any fun j => j.durableActivation || j.leaseToken.isSome || s.jobSupportsAgentInstance jobKey

end State

end NanoBpm
