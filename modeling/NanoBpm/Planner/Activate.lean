import NanoBpm.Planner.CallActivity

/-!
# Activation (`engine-core/src/engine/mod.rs:5463-6925`, `:7570-8230`)

An element instance is activated in three stages: its key and scope, its input mappings and start listeners
(`activateBody`), and its own behaviour (`runActivationBody`). Multi-instance children and ad-hoc tools are built by
hand and join at the third.
-/

namespace NanoBpm

/-! ## Ad-hoc catalogs -/

/-- `adhoc_inner_instance_id`. -/
def adhocInnerInstanceId (containerElementId : ElementId) : ElementId := containerElementId ++ "#innerInstance"

namespace AdHocSubProcessDef

def tool (d : AdHocSubProcessDef) (elementId : ElementId) : Option AdHocTool := d.tools.find? (·.elementId == elementId)

def declarative (d : AdHocSubProcessDef) : Bool := d.implType == .bpmnTask

/-- `advertised_adhoc_catalog`. -/
def advertisedCatalog (d : AdHocSubProcessDef) : List Value :=
  (d.tools.filter (·.kind != .other)).map fun t =>
    .map [("elementId", .str t.elementId), ("elementName", .str t.name)]

/-- `eval_adhoc_active_elements`: only ids of the catalog are kept. -/
def evalActiveElements [Feel] (d : AdHocSubProcessDef) (expr : String) (vars : Vars) : List ElementId :=
  match Feel.eval expr vars with
  | .ok (.list items) =>
    items.filterMap fun v =>
      match v with
      | .str s => if (d.tool s).isSome then some s else none
      | _ => none
  | _ => []

def activeElements [Feel] (d : AdHocSubProcessDef) (vars : Vars) : List ElementId :=
  (d.activeElementsCollection.map fun expr => d.evalActiveElements expr vars).getD []

end AdHocSubProcessDef

namespace State

def adhocDefOf (s : State) (instanceKey : Key) (elementId : ElementId) : Option AdHocSubProcessDef :=
  (s.processOfInstance instanceKey).bind fun d => d.adhoc.find? (·.containerId == elementId)

def adhocTool (s : State) (instanceKey : Key) (containerElementId elementId : ElementId) : Option AdHocTool :=
  (s.adhocDefOf instanceKey containerElementId).bind (·.tool elementId)

def adhocToolIo (s : State) (instanceKey : Key) (containerElementId elementId : ElementId) : IoMapping :=
  ((s.adhocTool instanceKey containerElementId elementId).map (·.io)).getD {}

def adhocState (s : State) (instanceKey containerKey : Key) : Option AdHocState :=
  s.instances[instanceKey]?.bind (·.adhocInstances[containerKey]?)

def miState (s : State) (instanceKey bodyKey : Key) : Option MultiInstanceState :=
  s.instances[instanceKey]?.bind (·.multiInstances[bodyKey]?)

/-- `adhoc_tool_container_of` (`engine/mod.rs:11652`): the container and the inner instance of a tool. -/
def adhocToolContainerOf (s : State) (instanceKey eik : Key) : Option (Key × Key) :=
  let innerKey := s.scopeOf instanceKey eik
  let containerKey := s.scopeOf instanceKey innerKey
  if innerKey ≠ 0 ∧ containerKey ≠ 0 ∧ (s.adhocState instanceKey containerKey).any (·.active.contains eik) then
    some (containerKey, innerKey)
  else none

end State

namespace Engine

variable [Feel]

def adhocToolInputUpdates (e : Engine) (instanceKey : Key) (containerElementId elementId : ElementId) (view : Vars) :
    Except IoMappingFailure Vars :=
  evalIoMappingsIn view (e.state.adhocToolIo instanceKey containerElementId elementId).inputs

/-- The steps of a declarative container: its elements, or its completion when there are none. -/
def declarativeSteps (instanceKey containerKey : Key) (ids : List ElementId) : List Step :=
  if ids.isEmpty then [.completeAdHoc instanceKey containerKey false]
  else ids.map fun id => .activateAdHocTool instanceKey containerKey id ∅

def adHocActivatedEvent (instanceKey containerKey : Key) (elementId : ElementId) (d : AdHocSubProcessDef) : Event :=
  .adHocActivated instanceKey containerKey elementId d.outputCollection d.outputElement

/-- The variable that advertises the tools to the agent. -/
def catalogEvent (instanceKey containerKey : Key) (d : AdHocSubProcessDef) : Event :=
  .scopedVariablesUpdated instanceKey containerKey
    ((∅ : Vars).insert "adHocSubProcessElements" (.list d.advertisedCatalog))

/-! ## Jobs and user tasks -/

/-- The job of a service task, its attributes resolved against `vars`. -/
def jobFor (e : Engine) (instanceKey eik : Key) (elementId : ElementId) (vars : Vars) (jobType : String)
    (priority retries : Option String) : StepM Event := do
  let jobKey ← StepM.mintKey
  return .jobCreated jobKey instanceKey eik elementId (resolveJobType vars jobType) e.now
    (resolvePriority vars priority) (resolveRetries vars retries)

/-- The assignee a user task is declared with. -/
def declaredAssignee (vars : Vars) (props : UserTaskProps) : Option String :=
  (resolveUserTaskString vars props.assignee).filter (! ·.isEmpty)

def userTaskEvent (e : Engine) (userTaskKey instanceKey eik : Key) (elementId : ElementId) (vars : Vars)
    (props : UserTaskProps) (assignee : Option String) : Event :=
  let (formKey, externalFormReference) := e.state.resolveUserTaskFormLinkage props
  .userTaskCreated userTaskKey instanceKey eik elementId e.now assignee
    (resolveUserTaskList vars props.candidateGroups) (resolveUserTaskList vars props.candidateUsers)
    ((resolveUserTaskString vars props.dueDate).filter (! ·.isEmpty))
    ((resolveUserTaskString vars props.followUpDate).filter (! ·.isEmpty))
    (resolvePriority vars props.priority) formKey externalFormReference

/-- The chain a fresh user task starts with: its creating listeners, else the assigning ones for an assignee that
was held back. -/
def userTaskChain (e : Engine) (userTaskKey instanceKey eik : Key) (elementId : ElementId)
    (deferredAssignee : Option String) : StepM (List Event) := do
  let listeners := e.state.taskListenersOf instanceKey elementId
  match listeners .creating, deferredAssignee, listeners .assigning with
  | first :: _, _, _ =>
    e.startTaskListenerChain userTaskKey instanceKey eik elementId .creating
      { eventType := .creating, assignee := deferredAssignee } first
  | [], some initial, first :: _ =>
    e.startTaskListenerChain userTaskKey instanceKey eik elementId .assigning
      { eventType := .assigning, assignee := some initial } first
  | [], _, _ => return []

def activateUserTask (e : Engine) (instanceKey eik : Key) (elementId : ElementId) (vars : Vars)
    (props : UserTaskProps) : StepM (List Event) := do
  let userTaskKey ← StepM.mintKey
  let assignee := declaredAssignee vars props
  -- with assigning listeners the assignee only takes effect through their chain
  let held := assignee.isSome && !(e.state.taskListenersOf instanceKey elementId .assigning).isEmpty
  let created := e.userTaskEvent userTaskKey instanceKey eik elementId vars props (if held then none else assignee)
  return created :: (← e.userTaskChain userTaskKey instanceKey eik elementId (if held then assignee else none))

/-! ## The behaviour of an element -/

/-- `run_activation_body`. -/
def runActivationBody (e : Engine) (instanceKey : Key) (elementId : ElementId) (eik scope : Key) (vars : Vars) :
    StepM Outcome := do
  let s := e.state
  match s.elementKind instanceKey elementId with
  | none => return ([], [])
  | some (.serviceTask jobType priority ..) =>
    match s.adhocDefOf instanceKey elementId with
    | some d =>
      if d.declarative then
        let armed ← e.armBoundaryEvents instanceKey eik scope elementId
        return (adHocActivatedEvent instanceKey eik elementId d :: armed,
          declarativeSteps instanceKey eik (d.activeElements vars))
      let job ← e.jobFor instanceKey eik elementId vars jobType priority (s.retriesOf instanceKey elementId)
      let armed ← e.armBoundaryEvents instanceKey eik scope elementId
      return ([job, adHocActivatedEvent instanceKey eik elementId d, catalogEvent instanceKey eik d] ++ armed, [])
    | none =>
      let job ← e.jobFor instanceKey eik elementId vars jobType priority (s.retriesOf instanceKey elementId)
      return (job :: (← e.armBoundaryEvents instanceKey eik scope elementId), [])
  | some (.userTask props) =>
    let task ← e.activateUserTask instanceKey eik elementId vars props
    return (task ++ (← e.armBoundaryEvents instanceKey eik scope elementId), [])
  | some (.timerIntermediateCatchEvent durationMillis) =>
    let timerKey ← StepM.mintKey
    let (dueAt, _) := resolveTimer vars (s.timerDefOf instanceKey elementId) e.now durationMillis
    return ([.timerCreated timerKey instanceKey eik elementId dueAt .intermediateCatch], [])
  | some (.messageIntermediateCatchEvent messageName correlationKey) =>
    let subscriptionKey ← StepM.mintKey
    match resolveCorrelationValueChecked vars correlationKey with
    | .error reason =>
      return ([.incidentRaised subscriptionKey instanceKey eik elementId .expressionEvaluation none reason none e.now],
        [])
    | .ok value =>
      return ([e.openSubscription subscriptionKey instanceKey eik elementId (resolveEventName vars messageName) value
        .intermediateCatch], [])
  | some (.signalIntermediateCatchEvent signalName) =>
    let subscriptionKey ← StepM.mintKey
    return ([.signalSubscriptionCreated subscriptionKey instanceKey eik elementId (resolveEventName vars signalName)
      .intermediateCatch], [])
  | some (.conditionalIntermediateCatchEvent condition) =>
    match Feel.evalBool condition (e.variablesOf instanceKey) with
    | .ok true => return ([], [.complete instanceKey eik elementId])
    | _ =>
      let subscriptionKey ← StepM.mintKey
      return ([.conditionalSubscriptionCreated subscriptionKey instanceKey eik elementId condition
        (sortedReferencedVars condition) .intermediateCatch], [])
  | some (.subProcess startEvent) =>
    return (← e.armBoundaryEvents instanceKey eik scope elementId, [.activate instanceKey startEvent eik none])
  | some (.callActivity calledProcessId propagateAllParent _) =>
    let armed ← e.armBoundaryEvents instanceKey eik scope elementId
    let (spawned, steps) ← e.spawnCallActivityChild instanceKey eik elementId calledProcessId propagateAllParent vars
    return (armed ++ spawned, steps)
  | some .compensationThrowEvent =>
    match (s.compensableInScope instanceKey scope).reverse with
    | [] => return ([], [.complete instanceKey eik elementId])
    | targets =>
      let handlers := targets.map (·.handler)
      return ([.compensationTriggered instanceKey eik elementId scope handlers (targets.map (·.elementInstanceKey))],
        handlers.map fun handler => .activate instanceKey handler scope none)
  | some _ => return ([], [.complete instanceKey eik elementId])

def isCallActivity (e : Engine) (instanceKey : Key) (elementId : ElementId) : Bool :=
  match e.state.elementKind instanceKey elementId with
  | some (.callActivity ..) => true
  | _ => false

/-- The input mappings an activation applies itself: a call activity's seed its child instead. -/
def activationInputs (e : Engine) (instanceKey : Key) (elementId : ElementId) : List Mapping :=
  if e.isCallActivity instanceKey elementId then [] else e.state.ioInputs instanceKey elementId

/-- Sub-processes and ad-hoc containers own a variable scope from the start. -/
def ownsScope (e : Engine) (instanceKey : Key) (elementId : ElementId) : Bool :=
  e.state.isSubprocess instanceKey elementId || (e.state.adhocDefOf instanceKey elementId).isSome

/-- `activate_body`. -/
def activateBody (e : Engine) (instanceKey : Key) (elementId : ElementId) (eik scope : Key) : StepM Outcome := do
  let elementVars := e.variablesForElement instanceKey scope
  let seed := match (e.state.adhocDefOf instanceKey elementId).bind (·.outputCollection) with
    | some name => [Event.scopedVariablesUpdated instanceKey eik ((∅ : Vars).insert name (.list []))]
    | none => []
  match evalIoMappingsIn elementVars (e.activationInputs instanceKey elementId) with
  | .error failure => e.parkIoMapping instanceKey eik elementId failure .activation
  | .ok inputUpdates =>
    let writes := if inputUpdates.isEmpty then []
      else
        (if e.ownsScope instanceKey elementId then [] else [Event.variableScopeCreated instanceKey eik scope]) ++
          [.scopedVariablesUpdated instanceKey eik inputUpdates]
    let vars := elementVars.extend inputUpdates
    match e.state.listenersOf instanceKey elementId .start with
    | first :: _ =>
      return (seed ++ writes ++ [← e.listenerJob instanceKey eik elementId scope vars .start 0 first], [])
    | [] =>
      let (events, steps) ← e.runActivationBody instanceKey elementId eik scope vars
      return (seed ++ writes ++ events, steps)

/-! ## Multi-instance bodies and children -/

/-- The children a body starts with, or its completion when there is nothing to loop over. -/
def miFanOut (instanceKey : Key) (elementId : ElementId) (bodyKey : Key) (sequential : Bool) (total : Nat) :
    List Step :=
  if total = 0 then [.completeMiBody instanceKey bodyKey]
  else if sequential then [.activateMiChild instanceKey elementId bodyKey 0]
  else (List.range total).map fun index => .activateMiChild instanceKey elementId bodyKey index

def spawnMultiInstanceChildren (e : Engine) (instanceKey bodyKey : Key) : List Step :=
  match e.state.miState instanceKey bodyKey with
  | none => []
  | some mi => miFanOut instanceKey mi.elementId bodyKey mi.sequential mi.items.length

/-- The names only a child binds. -/
def childBindings (inputElement : Option String) : List String := "loopCounter" :: inputElement.toList

/-- `run_mi_body_activation`. -/
def runMiBodyActivation (e : Engine) (instanceKey : Key) (elementId : ElementId) (bodyKey scope : Key)
    (mi : MultiInstance) : StepM Outcome := do
  let enclosing := e.variablesForElement instanceKey scope
  match evalIoMappingsTolerating enclosing (e.activationInputs instanceKey elementId) (childBindings mi.inputElement) with
  | .error failure => e.parkIoMapping instanceKey bodyKey elementId failure .miBodyActivation
  | .ok inputUpdates =>
    let writes := if inputUpdates.isEmpty then [] else [Event.scopedVariablesUpdated instanceKey bodyKey inputUpdates]
    let vars := enclosing.extend inputUpdates
    let items := match Feel.eval mi.inputCollection vars with
      | .ok (.list items) => items
      | _ => []
    let armed ← e.armBoundaryEvents instanceKey bodyKey scope elementId
    let opened := writes ++ .multiInstanceActivated instanceKey bodyKey elementId mi.sequential items mi.inputElement
      mi.outputCollection mi.outputElement mi.completionCondition :: armed
    match e.state.listenersOf instanceKey elementId .start with
    | first :: _ =>
      return (opened ++ [← e.listenerJob instanceKey bodyKey elementId scope vars .start 0 first], [])
    | [] => return (opened, miFanOut instanceKey elementId bodyKey mi.sequential items.length)

/-- `activate_multi_instance_body`. -/
def activateMultiInstanceBody (e : Engine) (instanceKey : Key) (elementId : ElementId) (scope : Key)
    (mi : MultiInstance) : StepM Outcome := do
  let bodyKey ← StepM.mintKey
  let (events, steps) ← e.runMiBodyActivation instanceKey elementId bodyKey scope mi
  return ([.elementActivating instanceKey bodyKey elementId, .elementActivated instanceKey bodyKey elementId scope,
    .variableScopeCreated instanceKey bodyKey scope] ++ events, steps)

/-- `run_mi_child_behaviour`: boundary events are armed on the body, never on a child. -/
def runMiChildBehaviour (e : Engine) (instanceKey : Key) (elementId : ElementId) (childKey : Key) (vars : Vars) :
    StepM Outcome := do
  match e.state.elementKind instanceKey elementId with
  | some (.serviceTask jobType priority ..) =>
    match e.state.adhocDefOf instanceKey elementId with
    | some d =>
      if d.declarative then
        return ([adHocActivatedEvent instanceKey childKey elementId d],
          declarativeSteps instanceKey childKey (d.activeElements vars))
      let job ← e.jobFor instanceKey childKey elementId vars jobType priority (e.state.retriesOf instanceKey elementId)
      return ([job, adHocActivatedEvent instanceKey childKey elementId d, catalogEvent instanceKey childKey d], [])
    | none =>
      return ([← e.jobFor instanceKey childKey elementId vars jobType priority
        (e.state.retriesOf instanceKey elementId)], [])
  | some (.subProcess startEvent) => return ([], [.activate instanceKey startEvent childKey none])
  | some (.callActivity calledProcessId propagateAllParent _) =>
    e.spawnCallActivityChild instanceKey childKey elementId calledProcessId propagateAllParent vars
  | _ => return ([], [.complete instanceKey childKey elementId])

/-- `activate_mi_child`. -/
def activateMiChild (e : Engine) (instanceKey : Key) (elementId : ElementId) (bodyKey : Key) (index : Nat) :
    StepM Outcome := do
  match e.state.miState instanceKey bodyKey with
  | none => return ([], [])
  | some mi =>
    let childKey ← StepM.mintKey
    let bound : Vars := match mi.inputElement with
      | some name => (∅ : Vars).insert name ((mi.items[index]?).getD .null)
      | none => ∅
    let counted := bound.insert "loopCounter" (.int (index + 1))
    let locals := match (e.state.adhocDefOf instanceKey elementId).bind (·.outputCollection) with
      | some name => counted.insert name (.list [])
      | none => counted
    let childVars := (e.variablesForElement instanceKey bodyKey).extend locals
    let activation (locals : Vars) : List Event :=
      [.elementActivating instanceKey childKey elementId, .elementActivated instanceKey childKey elementId bodyKey,
        .multiInstanceChildActivated instanceKey bodyKey childKey index locals]
    match evalIoMappingsIn childVars (e.activationInputs instanceKey elementId) with
    | .error failure =>
      let (parked, steps) ← e.parkIoMapping instanceKey childKey elementId failure (.miChildActivation bodyKey index)
      return (activation locals ++ parked, steps)
    | .ok mapped =>
      -- `loopCounter` stays the engine's own
      let mapped := mapped.erase "loopCounter"
      let (events, steps) ← e.runMiChildBehaviour instanceKey elementId childKey (childVars.extend mapped)
      return (activation (locals.extend mapped) ++ events, steps)

/-- `retry_mi_child_activation`: reads the mappings of the element itself, a call activity's included. -/
def retryMiChildActivation (e : Engine) (instanceKey : Key) (elementId : ElementId) (bodyKey childKey : Key)
    (index : Nat) : StepM Outcome := do
  let childVars := e.variablesForElement instanceKey childKey
  match evalIoMappingsIn childVars (e.state.ioInputs instanceKey elementId) with
  | .error failure => e.parkIoMapping instanceKey childKey elementId failure (.miChildActivation bodyKey index)
  | .ok mapped =>
    let mapped := mapped.erase "loopCounter"
    let writes := if mapped.isEmpty then [] else [Event.scopedVariablesUpdated instanceKey childKey mapped]
    let (events, steps) ← e.runMiChildBehaviour instanceKey elementId childKey (childVars.extend mapped)
    return (writes ++ events, steps)

/-! ## Activating an element -/

/-- `activate`. -/
def activate (e : Engine) (instanceKey : Key) (elementId : ElementId) (scope : Key) (via : Option IncomingFlow)
    (pending : List Step) : StepM Outcome := do
  match e.state.joinKind instanceKey elementId with
  | some join => e.activateJoin instanceKey elementId scope via join pending
  | none =>
    let isChild := scope ≠ 0 ∧ e.state.isMiChild instanceKey scope elementId
    match if isChild then none else e.state.multiInstanceOf instanceKey elementId with
    | some mi => e.activateMultiInstanceBody instanceKey elementId scope mi
    | none =>
      let eik ← StepM.mintKey
      let ownScope := if e.ownsScope instanceKey elementId then [Event.variableScopeCreated instanceKey eik scope] else []
      let (events, steps) ← e.activateBody instanceKey elementId eik scope
      return ([.elementActivating instanceKey eik elementId, .elementActivated instanceKey eik elementId scope] ++
        ownScope ++ events, steps)

/-! ## Ad-hoc tools -/

/-- A tool that is itself an ad-hoc container. -/
def activateNestedContainer (e : Engine) (instanceKey childKey : Key) (elementId : ElementId) (vars : Vars)
    (d : AdHocSubProcessDef) (toolKind : Option AdHocToolKind) : StepM Outcome := do
  let seed := match d.outputCollection with
    | some name => [Event.scopedVariablesUpdated instanceKey childKey ((∅ : Vars).insert name (.list []))]
    | none => []
  let opened := adHocActivatedEvent instanceKey childKey elementId d :: seed
  if d.declarative then return (opened, declarativeSteps instanceKey childKey (d.activeElements vars))
  let jobType := match toolKind with
    | some (.serviceTask jobType) => jobType
    | _ => elementId
  let job ← e.jobFor instanceKey childKey elementId vars jobType none none
  return (opened ++ [catalogEvent instanceKey childKey d, job], [])

/-- What a tool does, by its kind in the catalog. -/
def runTool (e : Engine) (instanceKey childKey innerKey : Key) (elementId : ElementId) (vars applied : Vars)
    (toolKind : Option AdHocToolKind) : StepM Outcome := do
  match toolKind with
  | some (.serviceTask jobType) => return ([← e.jobFor instanceKey childKey elementId vars jobType none none], [])
  | some (.userTask props) =>
    let userTaskKey ← StepM.mintKey
    return ([e.userTaskEvent userTaskKey instanceKey childKey elementId vars props (declaredAssignee vars props)], [])
  | some (.subProcess startEvent) =>
    return (← e.armBoundaryEvents instanceKey childKey innerKey elementId,
      [.activate instanceKey startEvent childKey none])
  | some (.callActivity (some called) propagateAllParent _) =>
    let childSeed := if propagateAllParent then vars else applied
    e.spawnCallActivityInstance instanceKey childKey elementId called vars childSeed (some applied)
  | _ => return ([], [.complete instanceKey childKey elementId])

/-- `activate_adhoc_tool`: the tool hangs off an inner instance of its own below the container. -/
def activateAdhocTool (e : Engine) (instanceKey containerKey : Key) (elementId : ElementId) (seedVars : Vars) :
    StepM Outcome := do
  let childKey ← StepM.mintKey
  let view := (e.variablesForElement instanceKey containerKey).extend seedVars
  let container := (e.state.adhocState instanceKey containerKey).map (·.elementId)
  let inputs := match container with
    | some cid => e.adhocToolInputUpdates instanceKey cid elementId view
    | none => .ok ∅
  match inputs with
  | .error failure =>
    e.parkIoMapping instanceKey containerKey (container.getD "") failure (.adHocToolActivation elementId seedVars)
  | .ok applied =>
    let vars := view.extend applied
    let innerKey ← StepM.mintKey
    let innerId := adhocInnerInstanceId (container.getD elementId)
    let activation : List Event :=
      [.elementActivating instanceKey innerKey innerId, .elementActivated instanceKey innerKey innerId containerKey,
        .elementActivating instanceKey childKey elementId, .elementActivated instanceKey childKey elementId innerKey,
        .adHocToolActivated instanceKey containerKey childKey (seedVars.extend applied)]
    let toolKind := (container.bind fun cid => e.state.adhocTool instanceKey cid elementId).map (·.kind)
    let (events, steps) ← match e.state.adhocDefOf instanceKey elementId with
      | some nested => e.activateNestedContainer instanceKey childKey elementId vars nested toolKind
      | none => e.runTool instanceKey childKey innerKey elementId vars applied toolKind
    return (activation ++ events, steps)

end Engine

end NanoBpm
