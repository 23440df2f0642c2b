import NanoBpm.Model

/-!
# State records and key machinery (`engine-core/src/state/types.rs`)

`State` is the engine's working memory. Integers are `Nat`/`Int`; a `u64` sum that the source
saturates is `satAdd`. The three job indices (`activatableJobs`, `activatedJobs`, `jobsByInstance`)
are kept by hand by the appliers through `resyncJobIndex` and `deindexJob`, as in the source.
-/

namespace NanoBpm

/-! ## Keys (`types.rs:14-83`) -/

/-- `LOCAL_BITS = 64 - PARTITION_BITS`, as the size of the local key space. -/
def localSpan : Nat := 2 ^ 51

/-- `MAX_PARTITION_ID = 2^13 - 1`. -/
def maxPartitionId : Nat := 2 ^ 13 - 1

/-- `LOCAL_MASK`. -/
def localMask : Nat := localSpan - 1

/-- `partition_of(key) = key >> LOCAL_BITS`. -/
def partitionOf (key : Key) : Nat := key / localSpan

/-- `local_of(key) = key & LOCAL_MASK`. -/
def localOf (key : Key) : Nat := key % localSpan

/-- `compose_key(partition_id, local) = (partition_id << LOCAL_BITS) | (local & LOCAL_MASK)`. -/
def composeKey (partitionId loc : Nat) : Key := partitionId * localSpan + loc % localSpan

/-- `u64::MAX`. -/
def u64Max : Nat := 2 ^ 64 - 1

/-- `u64::saturating_add`. -/
def satAdd (a b : Nat) : Nat := min (a + b) u64Max

/-- `i64::saturating_add`. -/
def satAddI64 (a b : Int) : Int := max (-(2 ^ 63)) (min (a + b) (2 ^ 63 - 1))

/-- `stable_hash` (`types.rs:57`): 64-bit FNV-1a. -/
def stableHash (bytes : List UInt8) : Nat :=
  bytes.foldl (fun hash b => ((hash ^^^ b.toNat) * 0x00000100000001b3) % 2 ^ 64) 0xcbf29ce484222325

/-- `subscription_partition` (`types.rs:78`). -/
def subscriptionPartition (correlationKey : String) (numPartitions : Nat) : Nat :=
  if numPartitions ≤ 1 then 0 else stableHash correlationKey.toUTF8.toList % numPartitions

@[simp] theorem partitionOf_composeKey (p l : Nat) : partitionOf (composeKey p l) = p := by
  have hs : 0 < localSpan := by decide
  unfold partitionOf composeKey
  rw [Nat.add_comm, Nat.add_mul_div_right _ _ hs, Nat.div_eq_of_lt (Nat.mod_lt _ hs), Nat.zero_add]

theorem localOf_composeKey {p l : Nat} (h : l < localSpan) : localOf (composeKey p l) = l := by
  unfold localOf composeKey
  rw [Nat.add_comm, Nat.add_mul_mod_self_right, Nat.mod_mod, Nat.mod_eq_of_lt h]

/-! ## Jobs -/

inductive ProcessInstanceState where
  | active | completed | terminated | terminating | suspended
deriving DecidableEq, Inhabited

inductive JobState where
  | created | activated | failed | errored | canceled | completed
deriving DecidableEq, Inhabited

inductive JobKind where
  | bpmnElement
  | executionListener (eventType : ListenerEventType) (index : Nat) (scope : Key)
  | taskListener (eventType : TaskListenerEventType) (index : Nat) (userTaskKey : Key)
deriving DecidableEq, Inhabited

structure Job where
  key : Key
  instanceKey : Key
  elementInstanceKey : Key
  elementId : ElementId
  jobType : String
  state : JobState := .created
  worker : Option String := none
  deadline : Option Nat := none
  activatedAt : Option Nat := none
  activationTimeout : Option Nat := none
  leaseToken : Option String := none
  durableActivation : Bool := false
  activated : Bool := false
  retries : Int
  priority : Int
  createdAt : Nat
  kind : JobKind := .bpmnElement
deriving DecidableEq, Inhabited

/-- `Job::attribution_worker` (`types.rs:351`). -/
def Job.attributionWorker (j : Job) : Option String := j.worker.filter (! ·.isEmpty)

/-- `DEFAULT_JOB_PRIORITY`. -/
def defaultJobPriority : Int := 50

/-- `DEFAULT_JOB_RETRIES`. -/
def defaultJobRetries : Int := 3

/-- A slot of the activatable index: `(-priority, key)`. -/
abbrev JobSlot := Int × Key

/-- `activation_order` (`types.rs:374`). -/
def activationOrder (priority : Int) (key : Key) : JobSlot := (-priority, key)

/-- Rust's derived order on `(i32, Key)`. -/
def JobSlot.cmp : JobSlot → JobSlot → Ordering := compareLex (compareOn (·.1)) (compareOn (·.2))

instance : Std.TransCmp JobSlot.cmp := inferInstanceAs (Std.TransCmp (compareLex _ _))

instance : Std.LawfulEqCmp JobSlot.cmp where
  compare_self := by simp [JobSlot.cmp, compareLex, compareOn]
  eq_of_compare := by
    intro a b h
    simp [JobSlot.cmp, compareLex, compareOn, Ordering.then_eq_eq] at h
    exact Prod.ext h.1 h.2

abbrev JobSlots := Std.ExtTreeSet JobSlot JobSlot.cmp

/-! ## User tasks -/

structure PendingUserTaskUpdate where
  candidateGroups : Option (List String) := none
  candidateUsers : Option (List String) := none
  dueDate : Option (Option String) := none
  followUpDate : Option (Option String) := none
  priority : Option Int := none
deriving DecidableEq, Inhabited

structure PendingUserTaskTransition where
  eventType : TaskListenerEventType
  assignee : Option String := none
  update : Option PendingUserTaskUpdate := none
  vars : Vars := ∅
  corrections : UserTaskCorrections := {}

inductive UserTaskState where
  | created | completed | canceled
deriving DecidableEq, Inhabited

structure UserTask where
  key : Key
  instanceKey : Key
  elementInstanceKey : Key
  elementId : ElementId
  state : UserTaskState := .created
  assignee : Option String
  candidateGroups : List String
  candidateUsers : List String
  dueDate : Option String
  followUpDate : Option String
  priority : Int
  formKey : Option Key
  externalFormReference : Option String
  createdAt : Nat
  pending : Option PendingUserTaskTransition := none

/-! ## Parallel-join arrivals (`types.rs:106-186`) -/

/-- `#[derive(Ord)]` on `IncomingFlow`. -/
def IncomingFlow.cmp (a b : IncomingFlow) : Ordering :=
  (compare a.source b.source).then (compare a.ordinal b.ordinal)

/-- `FlowArrivals`: tokens per identified incoming flow, sorted by flow with no zero counts. -/
structure FlowArrivals where
  entries : List (IncomingFlow × Nat) := []
deriving DecidableEq, Inhabited

/-- The sorted insertion behind `FlowArrivals::add`: the binary search finds the entry of `flow`
or the place to insert it. -/
def FlowArrivals.addTo (flow : IncomingFlow) (tokens : Nat) :
    List (IncomingFlow × Nat) → List (IncomingFlow × Nat)
  | [] => [(flow, tokens)]
  | (f, c) :: rest =>
    match IncomingFlow.cmp f flow with
    | .lt => (f, c) :: addTo flow tokens rest
    | .eq => (f, c + tokens) :: rest
    | .gt => (flow, tokens) :: (f, c) :: rest

def FlowArrivals.add (a : FlowArrivals) (flow : IncomingFlow) (tokens : Nat) : FlowArrivals :=
  if tokens = 0 then a else ⟨addTo flow tokens a.entries⟩

def FlowArrivals.record (a : FlowArrivals) (flow : IncomingFlow) : FlowArrivals := a.add flow 1

def FlowArrivals.distinctFlows (a : FlowArrivals) : Nat := a.entries.length

def FlowArrivals.count (a : FlowArrivals) (flow : IncomingFlow) : Nat :=
  ((a.entries.find? (·.1 == flow)).map (·.2)).getD 0

def FlowArrivals.consumeOneEach (a : FlowArrivals) : FlowArrivals :=
  ⟨(a.entries.map fun (f, c) => (f, c - 1)).filter (·.2 > 0)⟩

def FlowArrivals.isEmpty (a : FlowArrivals) : Bool := a.entries.isEmpty

def FlowArrivals.remap (a : FlowArrivals) (remapId : ElementId → ElementId) : FlowArrivals :=
  a.entries.foldl (fun acc (f, c) => acc.add { f with source := remapId f.source } c) {}

/-! ## Process instances -/

structure CompensationSubscription where
  elementInstanceKey : Key
  elementId : ElementId
  handler : ElementId
  scope : Key
deriving DecidableEq, Inhabited

structure CompensationWait where
  throwElementId : ElementId
  scope : Key
  pendingHandlers : List ElementId
deriving DecidableEq, Inhabited

structure MultiInstanceState where
  elementId : ElementId
  sequential : Bool
  items : List Value
  outputCollection : Option String
  outputElement : Option String
  completionCondition : Option String
  inputElement : Option String
  spawned : Nat := 0
  active : KeySet := ∅
  childIndices : KeyMap Nat := ∅
  outputValues : List (Option Value) := []

structure AdHocState where
  elementId : ElementId
  outputCollection : Option String
  outputElement : Option String
  active : KeySet := ∅
  iterations : Nat := 0
  completionConditionFulfilled : Bool := false

structure ProcessInstance where
  key : Key
  processId : String
  processDefinitionKey : Key
  state : ProcessInstanceState := .active
  suspendedAt : Option Nat := none
  createdAt : Nat
  tags : List String := []
  businessId : Option String := none
  parentProcessInstanceKey : Option Key := none
  parentElementInstanceKey : Option Key := none
  active : KeyMap ElementId := ∅
  scopes : KeyMap Key := ∅
  vars : Vars := ∅
  joinCounts : StrMap Nat := ∅
  joinFlowArrivals : StrMap FlowArrivals := ∅
  joinInstances : StrMap Key := ∅
  incidents : List Key := []
  variablesSpilled : Bool := false
  multiInstances : KeyMap MultiInstanceState := ∅
  adhocInstances : KeyMap AdHocState := ∅
  scopeParents : KeyMap Key := ∅
  scopeVariables : KeyMap Vars := ∅
  compensable : List CompensationSubscription := []
  compensationWaits : KeyMap CompensationWait := ∅
  agentInstances : KeyMap AgentInstance := ∅
  agentHistory : KeyMap (List AgentHistoryRecord) := ∅

/-- `ProcessInstance::join_flows_taken` (`types.rs:192`). -/
def ProcessInstance.joinFlowsTaken (i : ProcessInstance) (join : ElementId) : Nat :=
  ((i.joinFlowArrivals[join]?).map (·.distinctFlows)).getD 0 + (i.joinCounts[join]?).getD 0

/-! ## Incidents, timers, subscriptions -/

inductive IncidentKind where
  | jobNoRetries | noMatchingSequenceFlow | expressionEvaluation | unhandledError
  | decisionEvaluation | calledElementError | ioMapping
deriving DecidableEq, Inhabited

inductive IoMappingRedrive where
  | activation
  | completion
  | miChildActivation (bodyKey : Key) (index : Nat)
  | miBodyActivation
  | miBodyCompletion
  | adHocToolActivation (elementId : ElementId) (vars : Vars)
  | callActivitySpawn
  | adHocCallActivitySpawn (childSeed : Vars)
  | adHocToolOutputCollection (precomputedOutput : Vars)
  | callActivityCompletion (childVariables : Vars)

inductive IncidentState where
  | active | resolved
deriving DecidableEq, Inhabited

structure Incident where
  key : Key
  instanceKey : Key
  elementInstanceKey : Key
  elementId : ElementId
  kind : IncidentKind
  redrive : Option IoMappingRedrive
  reason : String
  jobKey : Option Key
  createdAt : Nat
  state : IncidentState := .active
  resolvedAt : Option Nat := none
  operationReference : Option Int := none

inductive TimerState where
  | created | triggered | canceled
deriving DecidableEq, Inhabited

/-- `TimerKind` and `MessageSubscriptionKind` have the same three shapes. -/
inductive TimerKind where
  | intermediateCatch
  | interruptingBoundary (boundaryElementId : ElementId)
  | nonInterruptingBoundary (boundaryElementId : ElementId)
deriving DecidableEq, Inhabited

structure Timer where
  key : Key
  instanceKey : Key
  elementInstanceKey : Key
  elementId : ElementId
  dueAt : Nat
  state : TimerState := .created
  kind : TimerKind
deriving DecidableEq, Inhabited

inductive MessageSubscriptionState where
  | opened | opening | correlated | canceled
deriving DecidableEq, Inhabited

inductive MessageSubscriptionKind where
  | intermediateCatch
  | interruptingBoundary (boundaryElementId : ElementId)
  | nonInterruptingBoundary (boundaryElementId : ElementId)
deriving DecidableEq, Inhabited

/-- `matches!(kind, NonInterruptingBoundary { .. })`. -/
def MessageSubscriptionKind.isNonInterrupting : MessageSubscriptionKind → Bool
  | .nonInterruptingBoundary _ => true
  | _ => false

structure MessageSubscription where
  key : Key
  instanceKey : Key
  elementInstanceKey : Key
  elementId : ElementId
  messageName : String
  correlationKey : String
  state : MessageSubscriptionState
  kind : MessageSubscriptionKind
deriving DecidableEq, Inhabited

structure SignalSubscription where
  key : Key
  instanceKey : Key
  elementInstanceKey : Key
  elementId : ElementId
  signalName : String
  state : MessageSubscriptionState
  kind : MessageSubscriptionKind
deriving DecidableEq, Inhabited

structure ConditionalSubscription where
  key : Key
  instanceKey : Key
  elementInstanceKey : Key
  elementId : ElementId
  condition : String
  referencedVars : List String
  state : MessageSubscriptionState
  kind : MessageSubscriptionKind
deriving DecidableEq, Inhabited

structure MessageStartSubscription where
  processDefinitionKey : Key
  processId : String
  messageName : String
  startElementId : ElementId
deriving DecidableEq, Inhabited

structure StartTimer where
  timerKey : Key
  processDefinitionKey : Key
  processId : String
  startElementId : ElementId
  dueAt : Option Nat
  intervalMillis : Nat
  repeating : Bool
deriving DecidableEq, Inhabited

/-! ## Deployed resources -/

structure DeployedProcess where
  key : Key
  version : Int
  definition : ProcessDefinition

structure DeployedDrg where
  key : Key
  version : Int
  drg : DecisionRequirementsGraph
deriving DecidableEq, Inhabited

structure DeployedDecision where
  key : Key
  version : Int
  decisionRequirementsKey : Key
  decisionId : String
  decisionName : String
  drg : DecisionRequirementsGraph
deriving DecidableEq, Inhabited

structure DeployedForm where
  key : Key
  version : Int
  formId : String
  resourceName : String
  schema : String
deriving DecidableEq, Inhabited

structure DeployedResource where
  key : Key
  version : Int
  resourceId : String
  resourceName : String
  content : String
deriving DecidableEq, Inhabited

/-! ## The state -/

structure State where
  processes : StrMap DeployedProcess := ∅
  processVersions : KeyMap DeployedProcess := ∅
  instances : KeyMap ProcessInstance := ∅
  jobs : KeyMap Job := ∅
  userTasks : KeyMap UserTask := ∅
  incidents : KeyMap Incident := ∅
  timers : KeyMap Timer := ∅
  messageSubscriptions : KeyMap MessageSubscription := ∅
  signalSubscriptions : KeyMap SignalSubscription := ∅
  conditionalSubscriptions : KeyMap ConditionalSubscription := ∅
  messageStartSubscriptions : StrMap MessageStartSubscription := ∅
  startTimers : KeyMap StartTimer := ∅
  /-- Jobs in state `Created`, per job type, as `(-priority, key)`. -/
  activatableJobs : StrMap JobSlots := ∅
  /-- Keys of the jobs in state `Activated`. -/
  activatedJobs : KeySet := ∅
  jobsByInstance : KeyMap KeySet := ∅
  inflightByProcess : StrMap Nat := ∅
  createdByProcess : StrMap Nat := ∅
  decisionRequirements : StrMap DeployedDrg := ∅
  decisionRequirementsVersions : KeyMap DeployedDrg := ∅
  decisions : StrMap DeployedDecision := ∅
  decisionVersions : KeyMap DeployedDecision := ∅
  forms : StrMap DeployedForm := ∅
  formVersions : KeyMap DeployedForm := ∅
  resources : StrMap DeployedResource := ∅
  resourceVersions : KeyMap DeployedResource := ∅

/-- `State::new`. -/
def State.new : State := {}

instance : Inhabited State := ⟨State.new⟩

/-- A self-contained snapshot of one instance and everything it owns (`types.rs:1427`). -/
structure InstanceSnapshot where
  inst : ProcessInstance
  jobs : List Job
  timers : List Timer
  messageSubscriptions : List MessageSubscription
  signalSubscriptions : List SignalSubscription
  conditionalSubscriptions : List ConditionalSubscription
  userTasks : List UserTask
  incidents : List Incident

/-! ## Lookups (`types.rs:1444-1612`) -/

namespace State

/-- `definition_for`: the pinned version, else the latest of the process id. -/
def definitionFor (s : State) (i : ProcessInstance) : Option DeployedProcess :=
  if i.processDefinitionKey ≠ 0 then
    s.processVersions[i.processDefinitionKey]? <|> s.processes[i.processId]?
  else s.processes[i.processId]?

def processByKey (s : State) (key : Key) : Option DeployedProcess :=
  s.processVersions[key]? <|> s.processes.vals.find? (·.key == key)

def processVersion (s : State) (processId : String) (version : Int) : Option DeployedProcess :=
  (s.processVersions.vals.find? fun d => d.definition.id == processId && d.version == version) <|>
    s.processes[processId]?.filter (·.version == version)

def drgByKey (s : State) (key : Key) : Option DeployedDrg :=
  s.decisionRequirementsVersions[key]? <|> s.decisionRequirements.vals.find? (·.key == key)

def decisionByKey (s : State) (key : Key) : Option DeployedDecision :=
  s.decisionVersions[key]? <|> s.decisions.vals.find? (·.key == key)

def formByKey (s : State) (key : Key) : Option DeployedForm :=
  s.formVersions[key]? <|> s.forms.vals.find? (·.key == key)

def resourceByKey (s : State) (key : Key) : Option DeployedResource :=
  s.resourceVersions[key]? <|> s.resources.vals.find? (·.key == key)

/-! ## The job indices (`types.rs:1615-1711`) -/

/-- `live_job_count`: the activated jobs plus every activatable slot. -/
def liveJobCount (s : State) : Nat :=
  s.activatedJobs.size + (s.activatableJobs.vals.map (·.size)).sum

/-- Inserting into the per-type slot set: `activatable_jobs.entry(ty).or_default().insert(slot)`. -/
def addSlot (m : StrMap JobSlots) (ty : String) (slot : JobSlot) : StrMap JobSlots :=
  m.insert ty ((m[ty]?.getD ∅).insert slot)

/-- Removing from the per-type slot set, pruning it when it becomes empty. -/
def dropSlot (m : StrMap JobSlots) (ty : String) (slot : JobSlot) : StrMap JobSlots :=
  match m[ty]? with
  | none => m
  | some set =>
    let set := set.erase slot
    if set.isEmpty then m.erase ty else m.insert ty set

/-- `deindex_job` (`types.rs:1646`). -/
def deindexJob (s : State) (jobType : String) (key : Key) (priority : Int) : State :=
  { s with
    activatableJobs := dropSlot s.activatableJobs jobType (activationOrder priority key)
    activatedJobs := s.activatedJobs.erase key }

/-- `resync_job_index` (`types.rs:1673`): membership of one job as a function of its state. -/
def resyncJobIndex (s : State) (jobKey : Key) : State :=
  match s.jobs[jobKey]? with
  | none => s
  | some job =>
    let order := activationOrder job.priority jobKey
    { s with
      activatableJobs :=
        if job.state = .created then addSlot s.activatableJobs job.jobType order
        else dropSlot s.activatableJobs job.jobType order
      activatedJobs :=
        if job.state = .activated then s.activatedJobs.insert jobKey else s.activatedJobs.erase jobKey }

/-- `jobs_by_instance.entry(instance).or_default().insert(job)`. -/
def linkJob (s : State) (instanceKey jobKey : Key) : State :=
  let owned := (s.jobsByInstance[instanceKey]?.getD ∅).insert jobKey
  { s with jobsByInstance := s.jobsByInstance.insert instanceKey owned }

/-- `if let Some(instance) = state.instances.get_mut(key) { f(instance) }`. -/
def modifyInstance (s : State) (key : Key) (f : ProcessInstance → ProcessInstance) : State :=
  { s with instances := s.instances.modify key f }

/-- `if let Some(job) = state.jobs.get_mut(key) { f(job) }`. -/
def modifyJob (s : State) (key : Key) (f : Job → Job) : State :=
  { s with jobs := s.jobs.modify key f }

end State

end NanoBpm
