import NanoBpm.Planner.Boundary

/-!
# Listener chains, sequence flows and gateways (`engine-core/src/engine/mod.rs:5716`, `:9584-9615`, `:10322-11493`)

A flow into a join is counted when it is taken; the join's guard runs only when an activation reaches it.
-/

namespace NanoBpm

/-! ## Flows of a definition (`model.rs:967`, `:1515-1552`) -/

/-- `attached_to`. -/
def ElementKind.attachedTo : ElementKind → Option ElementId
  | .errorBoundaryEvent host _ | .timerBoundaryEvent host .. | .messageBoundaryEvent host .. | .signalBoundaryEvent host ..
  | .conditionalBoundaryEvent host .. | .escalationBoundaryEvent host .. | .compensationBoundaryEvent host _ => some host
  | _ => none

namespace ProcessDefinition

def incomingCount (d : ProcessDefinition) (id : ElementId) : Nat :=
  ((d.elements.vals.flatMap (·.outgoing)).filter (·.target == id)).length

def incomingFlow (d : ProcessDefinition) (source : ElementId) (index : Nat) : Option (ElementId × IncomingFlow) := do
  let outgoing := (← d.elements[source]?).outgoing
  let target := (← outgoing[index]?).target
  return (target, { source, ordinal := ((outgoing.take index).filter (·.target == target)).length })

/-- The nodes `path_reaches_join` goes on to from `node`: the catches of a link, else the flows not yet taken
into the join and the boundary events on `node`. -/
def reaches (d : ProcessDefinition) (join : ElementId) (taken : FlowArrivals) (node : ElementId) : List ElementId :=
  match d.elements[node]? with
  | none => []
  | some el =>
    match el.kind with
    | .linkIntermediateThrowEvent linkName =>
      (d.elements.vals.filter fun other =>
        other.kind == .linkIntermediateCatchEvent linkName && other.parent == el.parent).map (·.id)
    | _ =>
      let flows := (el.outgoing.zipIdx.filter fun (flow, index) =>
        !(flow.target == join && (d.incomingFlow node index).any fun (_, incoming) => taken.count incoming > 0)).map
          (·.1.target)
      flows ++ (d.elements.vals.filter (·.kind.attachedTo == some node)).map (·.id)

/-- The search of `path_reaches_join`, with the nodes visited and those still to visit. -/
def searchJoin (d : ProcessDefinition) (join : ElementId) (taken : FlowArrivals) :
    Nat → List ElementId → List ElementId → Bool
  | 0, _, _ => false
  | _ + 1, _, [] => false
  | fuel + 1, visited, node :: rest =>
    if node = join then true
    else if visited.contains node then d.searchJoin join taken fuel visited rest
    else d.searchJoin join taken fuel (node :: visited) (rest ++ d.reaches join taken node)

/-- `path_reaches_join` (`engine/mod.rs:12342`). Every element is expanded once, so the fuel covers every node
that is ever queued. -/
def pathReachesJoin (d : ProcessDefinition) (source join : ElementId) (taken : FlowArrivals) : Bool :=
  let fuel := 2 + (d.elements.vals.map fun el => el.outgoing.length + d.elements.size).sum
  d.searchJoin join taken fuel [] [source]

end ProcessDefinition

/-! ## Taking flows -/

namespace State

def incomingCount (s : State) (instanceKey : Key) (elementId : ElementId) : Nat :=
  ((s.processOfInstance instanceKey).map (·.incomingCount elementId)).getD 0

def joinKind (s : State) (instanceKey : Key) (elementId : ElementId) : Option JoinKind :=
  let join := match s.elementKind instanceKey elementId with
    | some .parallelGateway => some JoinKind.parallel
    | some .inclusiveGateway => some JoinKind.inclusive
    | _ => none
  if s.incomingCount instanceKey elementId > 1 then join else none

/-- `take_flow`. The callers only pass an index of an outgoing flow; the source panics on any other. -/
def takeFlow (s : State) (instanceKey : Key) (source : ElementId) (index : Nat) (scope : Key) :
    Option (List Event × Step) := do
  let (target, flow) ← (← s.processOfInstance instanceKey).incomingFlow source index
  let arrival := if (s.joinKind instanceKey target).isSome then
    [Event.parallelJoinTokenArrived instanceKey target (some flow)] else []
  return (.sequenceFlowTaken instanceKey source target :: arrival, .activate instanceKey target scope (some flow))

/-- The flows of the given indices, as the callers fold them into their events and followups. -/
def takeFlows (s : State) (instanceKey : Key) (source : ElementId) (scope : Key) (indices : List Nat) : Outcome :=
  let taken := indices.filterMap fun index => s.takeFlow instanceKey source index scope
  (taken.flatMap (·.1), taken.map (·.2))

def takeAllFlows (s : State) (instanceKey : Key) (source : ElementId) (scope : Key) : Outcome :=
  s.takeFlows instanceKey source scope (List.range (s.outgoing instanceKey source).length)

def joinArrivals (s : State) (instanceKey : Key) (elementId : ElementId) : FlowArrivals :=
  (s.instances[instanceKey]?.bind (·.joinFlowArrivals[elementId]?)).getD {}

/-- `has_active_path_to`: the sources are the other active elements of the scope and the queued activations. -/
def hasActivePathTo (s : State) (instanceKey : Key) (join : ElementId) (scope : Key) (taken : FlowArrivals)
    (pending : List Step) : Bool :=
  match s.processOfInstance instanceKey, s.instances[instanceKey]? with
  | some d, some i =>
    let active := (i.active.toList.filter fun (eik, id) => id != join && s.scopeOf instanceKey eik == scope).map (·.2)
    let inTransit := pending.filterMap fun step =>
      match step with
      | .activate key id stepScope (some _) =>
        if key = instanceKey ∧ stepScope = scope ∧ id ≠ join then some id else none
      | _ => none
    (active ++ inTransit).any fun source => d.pathReachesJoin source join taken
  | _, _ => false

/-- Whether `scope` is a multi-instance body whose loop runs `elementId`. -/
def isMiChild (s : State) (instanceKey scope : Key) (elementId : ElementId) : Bool :=
  (s.instances[instanceKey]?.bind (·.multiInstances[scope]?)).any (·.elementId == elementId)

end State

/-! ## Incidents and listener jobs -/

namespace Engine

/-- An `IncidentRaised` on a fresh key, with no job. -/
def incident (e : Engine) (instanceKey eik : Key) (elementId : ElementId) (kind : IncidentKind)
    (redrive : Option IoMappingRedrive) (reason : String) : StepM Event := do
  let incidentKey ← StepM.mintKey
  return .incidentRaised incidentKey instanceKey eik elementId kind redrive reason none e.now

/-- An incident that parks the token: `(vec![incident], Vec::new())`. -/
def park (e : Engine) (instanceKey eik : Key) (elementId : ElementId) (kind : IncidentKind)
    (redrive : Option IoMappingRedrive) (reason : String) : StepM Outcome := do
  return ([← e.incident instanceKey eik elementId kind redrive reason], [])

/-- `io_mapping_incident` (`engine/mod.rs:5716`), parking the token. -/
def parkIoMapping (e : Engine) (instanceKey eik : Key) (elementId : ElementId) (failure : IoMappingFailure)
    (redrive : IoMappingRedrive) : StepM Outcome :=
  e.park instanceKey eik elementId .ioMapping (some redrive) failure.reason

variable [Feel]

/-- The job of the execution listener at `index` of its chain. -/
def listenerJob (e : Engine) (instanceKey eik : Key) (elementId : ElementId) (scope : Key) (vars : Vars)
    (eventType : ListenerEventType) (index : Nat) (listener : ExecutionListener) : StepM Event := do
  let jobKey ← StepM.mintKey
  return .executionListenerJobCreated jobKey instanceKey eik elementId (resolveJobType vars listener.jobType) eventType
    index scope e.now (resolveRetries vars listener.retries)

/-- `begin_end_listener_chain` (`engine/mod.rs:9584`). -/
def beginEndListenerChain (e : Engine) (instanceKey eik : Key) (elementId : ElementId) (scope : Key) (vars : Vars) :
    StepM (Option Event) := do
  match e.state.listenersOf instanceKey elementId .end with
  | [] => return none
  | first :: _ => return some (← e.listenerJob instanceKey eik elementId scope vars .end 0 first)

/-- `mint_task_listener_job` (`engine/mod.rs:10368`). -/
def mintTaskListenerJob (e : Engine) (userTaskKey instanceKey eik : Key) (elementId : ElementId)
    (eventType : TaskListenerEventType) (index : Nat) (listener : TaskListener) : StepM Event := do
  let vars := e.variablesForElement instanceKey eik
  let jobKey ← StepM.mintKey
  return .taskListenerJobCreated jobKey instanceKey eik elementId userTaskKey (resolveJobType vars listener.jobType)
    eventType index e.now (resolveRetries vars listener.retries)

/-- `start_task_listener_chain` (`engine/mod.rs:10336`). -/
def startTaskListenerChain (e : Engine) (userTaskKey instanceKey eik : Key) (elementId : ElementId)
    (eventType : TaskListenerEventType) (pending : PendingUserTaskTransition) (first : TaskListener) :
    StepM (List Event) := do
  let job ← e.mintTaskListenerJob userTaskKey instanceKey eik elementId eventType 0 first
  return [.userTaskTransitionDeferred userTaskKey instanceKey pending, job]

/-! ## Exclusive gateways -/

/-- A condition that failed to evaluate. -/
def conditionFailure (condition : Condition) (gateway : String) (elementId : ElementId) (err : String) : String :=
  "failed to evaluate condition '" ++ condition.expression ++ "' at " ++ gateway ++ " gateway '" ++ elementId ++
    "': " ++ err

def noMatchingFlow (gateway : String) (elementId : ElementId) : String :=
  "no matching outgoing sequence flow at " ++ gateway ++ " gateway '" ++ elementId ++ "'"

/-- The loop of `select_exclusive_flow`: the first flow that holds, with the last default kept aside. -/
def selectFirst (vars : Vars) (elementId : ElementId) :
    Option Nat → List (SequenceFlow × Nat) → Except String (Option Nat)
  | default, [] => .ok default
  | default, (flow, index) :: rest =>
    if flow.isDefault then selectFirst vars elementId (some index) rest
    else
      match flow.condition with
      | none => .ok (some index)
      | some condition =>
        match Feel.evalBool condition.expression vars with
        | .ok true => .ok (some index)
        | .ok false => selectFirst vars elementId default rest
        | .error err => .error (conditionFailure condition "exclusive" elementId err)

def selectExclusiveFlow (e : Engine) (instanceKey : Key) (elementId : ElementId) : Except String (Option Nat) :=
  selectFirst (e.variablesOf instanceKey) elementId none (e.state.outgoing instanceKey elementId).zipIdx

def completeExclusiveGateway (e : Engine) (instanceKey eik : Key) (elementId : ElementId) : StepM Outcome := do
  match e.selectExclusiveFlow instanceKey elementId with
  | .error reason => e.park instanceKey eik elementId .expressionEvaluation none reason
  | .ok none => e.park instanceKey eik elementId .noMatchingSequenceFlow none (noMatchingFlow "exclusive" elementId)
  | .ok (some index) =>
    let scope := e.state.scopeOf instanceKey eik
    let completing := Event.elementCompleting instanceKey eik elementId
    match ← e.beginEndListenerChain instanceKey eik elementId scope (e.variablesOf instanceKey) with
    | some job => return ([completing, job], [])
    | none =>
      let (taken, steps) := e.state.takeFlows instanceKey elementId scope [index]
      return ([completing, .elementCompleted instanceKey eik elementId] ++ taken, steps)

/-- `finalize_exclusive_gateway`: selects again once the end listeners are through. -/
def finalizeExclusiveGateway (e : Engine) (instanceKey eik : Key) (elementId : ElementId) (scope : Key) :
    StepM Outcome := do
  match e.selectExclusiveFlow instanceKey elementId with
  | .error reason => e.park instanceKey eik elementId .expressionEvaluation none reason
  | .ok none => e.park instanceKey eik elementId .noMatchingSequenceFlow none (noMatchingFlow "exclusive" elementId)
  | .ok (some index) =>
    let (taken, steps) := e.state.takeFlows instanceKey elementId scope [index]
    return (.elementCompleted instanceKey eik elementId :: taken, steps)

/-! ## Inclusive gateways and joins -/

/-- The loop of `select_inclusive_flows`: every flow that holds, and the last default. -/
def selectEvery (vars : Vars) (elementId : ElementId) :
    Option Nat → List (SequenceFlow × Nat) → Except String (List Nat × Option Nat)
  | default, [] => .ok ([], default)
  | default, (flow, index) :: rest =>
    if flow.isDefault then selectEvery vars elementId (some index) rest
    else
      let keep := (selectEvery vars elementId default rest).map fun (selected, d) => (index :: selected, d)
      match flow.condition with
      | none => keep
      | some condition =>
        match Feel.evalBool condition.expression vars with
        | .ok true => keep
        | .ok false => selectEvery vars elementId default rest
        | .error err => .error (conditionFailure condition "inclusive" elementId err)

def selectInclusiveFlows (e : Engine) (instanceKey : Key) (elementId : ElementId) : Except String (List Nat) :=
  (selectEvery (e.variablesOf instanceKey) elementId none (e.state.outgoing instanceKey elementId).zipIdx).map
    fun (selected, default) => if selected.isEmpty then default.toList else selected

/-- `open_join`. -/
def openJoin (instanceKey : Key) (elementId : ElementId) (scope : Key) : StepM (List Event) := do
  let eik ← StepM.mintKey
  return [.elementActivating instanceKey eik elementId, .elementActivated instanceKey eik elementId scope,
    .parallelJoinOpened instanceKey eik elementId]

/-- `fire_join`: a surplus reopens the join. -/
def fireJoin (instanceKey : Key) (elementId : ElementId) (scope : Key) (arrivals : FlowArrivals) :
    StepM (List Event) := do
  let fired := Event.parallelJoinFired instanceKey elementId
  if arrivals.consumeOneEach.isEmpty then return [fired]
  return fired :: (← openJoin instanceKey elementId scope)

/-- `fire_open_inclusive_join`. -/
def fireOpenInclusiveJoin (e : Engine) (instanceKey eik : Key) (elementId : ElementId) (scope : Key) :
    StepM (List Event) := do
  if e.state.joinEik instanceKey elementId = some eik then
    fireJoin instanceKey elementId scope (e.state.joinArrivals instanceKey elementId)
  else return []

def routeInclusiveGateway (e : Engine) (instanceKey eik : Key) (elementId : ElementId) (scope : Key) :
    StepM Outcome := do
  match e.selectInclusiveFlows instanceKey elementId with
  | .error reason => e.park instanceKey eik elementId .expressionEvaluation none reason
  | .ok [] => e.park instanceKey eik elementId .noMatchingSequenceFlow none (noMatchingFlow "inclusive" elementId)
  | .ok selected =>
    let completing := Event.elementCompleting instanceKey eik elementId
    match ← e.beginEndListenerChain instanceKey eik elementId scope (e.variablesOf instanceKey) with
    | some job => return ([completing, job], [])
    | none =>
      let (taken, steps) := e.state.takeFlows instanceKey elementId scope selected
      return ([completing, .elementCompleted instanceKey eik elementId] ++ taken, steps)

def completeInclusiveGateway (e : Engine) (instanceKey eik : Key) (elementId : ElementId) : StepM Outcome := do
  let scope := e.state.scopeOf instanceKey eik
  let fired ← e.fireOpenInclusiveJoin instanceKey eik elementId scope
  let (routed, steps) ← e.routeInclusiveGateway instanceKey eik elementId scope
  return (fired ++ routed, steps)

def finalizeInclusiveGateway (e : Engine) (instanceKey eik : Key) (elementId : ElementId) (scope : Key) :
    StepM Outcome := do
  let fired ← e.fireOpenInclusiveJoin instanceKey eik elementId scope
  match e.selectInclusiveFlows instanceKey elementId with
  | .error reason => return (fired ++ [← e.incident instanceKey eik elementId .expressionEvaluation none reason], [])
  | .ok [] =>
    let reason := noMatchingFlow "inclusive" elementId
    return (fired ++ [← e.incident instanceKey eik elementId .noMatchingSequenceFlow none reason], [])
  | .ok selected =>
    let (taken, steps) := e.state.takeFlows instanceKey elementId scope selected
    return (fired ++ .elementCompleted instanceKey eik elementId :: taken, steps)

/-- `activate_join`: the guard, then the firing and the routing of an accepted activation. -/
def activateJoin (e : Engine) (instanceKey : Key) (elementId : ElementId) (scope : Key) (via : Option IncomingFlow)
    (join : JoinKind) (pending : List Step) : StepM Outcome := do
  let s := e.state
  let counted := (s.instances[instanceKey]?.bind (·.joinCounts[elementId]?)).getD 0
  let (arrival, unidentified) := if via.isNone then
    ([Event.parallelJoinTokenArrived instanceKey elementId none], counted + 1) else ([], counted)
  let arrivals := s.joinArrivals instanceKey elementId
  let taken := arrivals.distinctFlows + unidentified
  let allTaken := taken ≥ s.incomingCount instanceKey elementId
  let accepted := match join with
    | .parallel => decide allTaken
    | .inclusive => allTaken || (taken > 0 && !s.hasActivePathTo instanceKey elementId scope arrivals pending)
  let opened := s.joinEik instanceKey elementId
  if !accepted then
    if taken > 0 ∧ opened.isNone then return (arrival ++ (← openJoin instanceKey elementId scope), [])
    return (arrival, [])
  let (eik, activation) ← match opened with
    | some eik => pure (eik, [])
    | none => do
      let eik ← StepM.mintKey
      pure (eik, [Event.elementActivating instanceKey eik elementId, .elementActivated instanceKey eik elementId scope])
  let fired ← fireJoin instanceKey elementId scope arrivals
  match join with
  | .parallel =>
    let (flows, steps) := s.takeAllFlows instanceKey elementId scope
    return (arrival ++ activation ++ fired ++ [.elementCompleting instanceKey eik elementId,
      .elementCompleted instanceKey eik elementId] ++ flows, steps)
  | .inclusive =>
    let (routed, steps) ← e.routeInclusiveGateway instanceKey eik elementId scope
    return (arrival ++ activation ++ fired ++ routed, steps)

end Engine

end NanoBpm
