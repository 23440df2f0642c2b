import NanoBpm.Planner.Resolve

/-!
# Scopes, boundary events and teardown (`engine-core/src/engine/boundary.rs`, `engine/mod.rs:11889-12045`)

The element instances of a process instance form a tree: `scopes` maps each to the one that encloses it, `0`
standing for the root. Tearing a scope down cancels everything its descendants own.
-/

namespace NanoBpm

/-! ## Jobs, timers and subscriptions to cancel -/

/-- A job that a teardown cancels: not completed, errored or canceled. -/
def JobState.inPlay : JobState → Bool
  | .completed | .errored | .canceled => false
  | _ => true

/-- `MessageSubscriptionState::Open | Opening`. -/
def MessageSubscriptionState.isLive : MessageSubscriptionState → Bool
  | .opened | .opening => true
  | _ => false

def TimerKind.isBoundary : TimerKind → Bool
  | .intermediateCatch => false
  | _ => true

def MessageSubscriptionKind.isBoundary : MessageSubscriptionKind → Bool
  | .intermediateCatch => false
  | _ => true

/-- `disarm_subscription_event`: a placeholder of a remote subscription asks the remote partition to close. -/
def disarmSubscriptionEvent (s : MessageSubscription) : Event :=
  if s.state = .opening then
    .messageSubscriptionClosing s.key s.instanceKey s.elementInstanceKey s.elementId s.messageName s.correlationKey
  else .messageSubscriptionCanceled s.key s.instanceKey s.elementInstanceKey s.elementId

namespace State

def timerCancels (s : State) (p : Timer → Bool) : List Event :=
  (sortByKey (·.key) (s.timers.vals.filter fun t => t.state == .created && p t)).map fun t =>
    .timerCanceled t.key t.instanceKey t.elementInstanceKey t.elementId

def messageCancels (s : State) (p : MessageSubscription → Bool) : List Event :=
  (sortByKey (·.key) (s.messageSubscriptions.vals.filter fun m => m.state.isLive && p m)).map disarmSubscriptionEvent

def signalCancels (s : State) (p : SignalSubscription → Bool) : List Event :=
  (sortByKey (·.key) (s.signalSubscriptions.vals.filter fun m => m.state == .opened && p m)).map fun m =>
    .signalSubscriptionCanceled m.key m.instanceKey m.elementInstanceKey m.elementId

def conditionalCancels (s : State) (p : ConditionalSubscription → Bool) : List Event :=
  (sortByKey (·.key) (s.conditionalSubscriptions.vals.filter fun m => m.state == .opened && p m)).map fun m =>
    .conditionalSubscriptionCanceled m.key m.instanceKey m.elementInstanceKey m.elementId

def userTaskCancels (s : State) (p : UserTask → Bool) : List Event :=
  (sortByKey (·.key) (s.userTasks.vals.filter fun t => t.state == .created && p t)).map fun t =>
    .userTaskCanceled t.key t.instanceKey

def cancelAllTimersOn (s : State) (eik : Key) : List Event := s.timerCancels (·.elementInstanceKey == eik)

def cancelAllSubscriptionsOn (s : State) (eik : Key) : List Event := s.messageCancels (·.elementInstanceKey == eik)

def cancelAllSignalSubscriptionsOn (s : State) (eik : Key) : List Event :=
  s.signalCancels (·.elementInstanceKey == eik)

def cancelAllConditionalSubscriptionsOn (s : State) (eik : Key) : List Event :=
  s.conditionalCancels (·.elementInstanceKey == eik)

def cancelCreatedUserTasksOn (s : State) (eik : Key) : List Event := s.userTaskCancels (·.elementInstanceKey == eik)

def cancelBoundaryTimersOn (s : State) (eik : Key) : List Event :=
  s.timerCancels fun t => t.elementInstanceKey == eik && t.kind.isBoundary

def cancelBoundaryMessageSubscriptionsOn (s : State) (eik : Key) : List Event :=
  s.messageCancels fun m => m.elementInstanceKey == eik && m.kind.isBoundary

def cancelBoundarySignalSubscriptionsOn (s : State) (eik : Key) : List Event :=
  s.signalCancels fun m => m.elementInstanceKey == eik && m.kind.isBoundary

def cancelBoundaryConditionalSubscriptionsOn (s : State) (eik : Key) : List Event :=
  s.conditionalCancels fun m => m.elementInstanceKey == eik && m.kind.isBoundary

/-- The four boundary cancellations, which the source always makes together and in this order. -/
def cancelBoundariesOn (s : State) (eik : Key) : List Event :=
  s.cancelBoundaryTimersOn eik ++ s.cancelBoundaryMessageSubscriptionsOn eik ++
    s.cancelBoundarySignalSubscriptionsOn eik ++ s.cancelBoundaryConditionalSubscriptionsOn eik

def activeJobOn (s : State) (eik : Key) : Option Key :=
  (s.jobs.vals.find? fun j => j.elementInstanceKey == eik && j.state.inPlay).map (·.key)

/-! ## The scope tree -/

def scopeOf (s : State) (instanceKey eik : Key) : Key :=
  (s.instances[instanceKey]?.bind (·.scopes[eik]?)).getD 0

def elementIdOfInstance (s : State) (instanceKey eik : Key) : Option ElementId :=
  s.instances[instanceKey]?.bind (·.active[eik]?)

end State

/-- The scopes below one scope, walked at most `fuel` levels deep. -/
def ProcessInstance.descendantsFrom (i : ProcessInstance) : Nat → Key → List Key
  | 0, _ => []
  | fuel + 1, scope =>
    ((i.scopes.toList.filter (·.2 == scope)).map (·.1)).flatMap fun child => child :: i.descendantsFrom fuel child

namespace State

/-- `scope_descendants`: a tree of `n` links is at most `n` deep. -/
def scopeDescendants (s : State) (instanceKey scope : Key) : List Key :=
  match s.instances[instanceKey]? with
  | none => []
  | some i => sortKeys (i.descendantsFrom i.scopes.size scope)

/-- The element instance, its scope, the scope of that and so on, with their element ids, while they are active. -/
def enclosingFrom (s : State) (instanceKey : Key) : Nat → Key → List (Key × ElementId)
  | 0, _ => []
  | fuel + 1, eik =>
    if eik = 0 then []
    else
      match s.elementIdOfInstance instanceKey eik with
      | none => []
      | some id => (eik, id) :: s.enclosingFrom instanceKey fuel (s.scopeOf instanceKey eik)

/-- The scopes around `eik`, innermost first. -/
def enclosing (s : State) (instanceKey eik : Key) : List (Key × ElementId) :=
  s.enclosingFrom instanceKey (((s.instances[instanceKey]?).map (·.scopes.size)).getD 0 + 1) eik

/-! ## Attached boundary events -/

/-- The elements of the instance's process, in the order of their ids. -/
def elementsOf (s : State) (instanceKey : Key) : List Element :=
  ((s.processOfInstance instanceKey).map (·.elements.vals)).getD [] |>.insertionSort fun a b => a.id ≤ b.id

def compensationHandlersFor (s : State) (instanceKey : Key) (elementId : ElementId) : List ElementId :=
  (s.elementsOf instanceKey).filterMap fun el =>
    match el.kind with
    | .compensationBoundaryEvent attachedTo handler => if attachedTo = elementId then some handler else none
    | _ => none

def compensableInScope (s : State) (instanceKey scope : Key) : List CompensationSubscription :=
  ((s.instances[instanceKey]?.map (·.compensable)).getD []).filter (·.scope == scope)

def pendingCompensationHandler (s : State) (instanceKey : Key) (elementId : ElementId) (scope : Key) : Option Key :=
  s.instances[instanceKey]?.bind fun i =>
    ((i.compensationWaits.toList.filter fun (_, w) => w.scope == scope && w.pendingHandlers.contains elementId).map
      (·.1)).head?

def findErrorBoundary (s : State) (instanceKey : Key) (taskElementId : ElementId) (errorCode : String) :
    Option ElementId :=
  ((s.elementsOf instanceKey).find? fun el => el.kind == .errorBoundaryEvent taskElementId errorCode).map (·.id)

/-- `find_catching_error_boundary`: the task itself first, whatever its own state, then the scopes around it. -/
def findCatchingErrorBoundary (s : State) (instanceKey : Key) (elementId : ElementId) (eik : Key)
    (errorCode : String) : Option (ElementId × Key × ElementId) :=
  ((eik, elementId) :: s.enclosing instanceKey (s.scopeOf instanceKey eik)).findSome? fun (key, id) =>
    (s.findErrorBoundary instanceKey id errorCode).map fun boundary => (boundary, key, id)

/-- The first boundary, by id, on `activityId` that catches exactly `code`. -/
def escalationBoundaryWith (s : State) (instanceKey : Key) (activityId : ElementId) (code : String) :
    Option (ElementId × Bool) :=
  (s.elementsOf instanceKey).findSome? fun el =>
    match el.kind with
    | .escalationBoundaryEvent attachedTo c interrupting =>
      if attachedTo = activityId ∧ c = code then some (el.id, interrupting) else none
    | _ => none

/-- `find_escalation_boundary`: an exact code before a catch-all. -/
def findEscalationBoundary (s : State) (instanceKey : Key) (activityId : ElementId) (code : String) :
    Option (ElementId × Bool) :=
  s.escalationBoundaryWith instanceKey activityId code <|>
    if code.isEmpty then none else s.escalationBoundaryWith instanceKey activityId ""

def findCatchingEscalationBoundary (s : State) (instanceKey fromScope : Key) (code : String) :
    Option (ElementId × Key × ElementId × Bool) :=
  (s.enclosing instanceKey fromScope).findSome? fun (key, id) =>
    (s.findEscalationBoundary instanceKey id code).map fun (boundary, interrupting) => (boundary, key, id, interrupting)

def attachedTimerBoundaries (s : State) (instanceKey : Key) (activityId : ElementId) :
    List (ElementId × Nat × Bool) :=
  (s.elementsOf instanceKey).filterMap fun el =>
    match el.kind with
    | .timerBoundaryEvent attachedTo durationMillis interrupting _ =>
      if attachedTo = activityId then some (el.id, durationMillis, interrupting) else none
    | _ => none

def attachedMessageBoundaries (s : State) (instanceKey : Key) (activityId : ElementId) :
    List (ElementId × String × String × Bool) :=
  (s.elementsOf instanceKey).filterMap fun el =>
    match el.kind with
    | .messageBoundaryEvent attachedTo messageName correlationKey interrupting =>
      if attachedTo = activityId then some (el.id, messageName, correlationKey, interrupting) else none
    | _ => none

def attachedSignalBoundaries (s : State) (instanceKey : Key) (activityId : ElementId) :
    List (ElementId × String × Bool) :=
  (s.elementsOf instanceKey).filterMap fun el =>
    match el.kind with
    | .signalBoundaryEvent attachedTo signalName interrupting =>
      if attachedTo = activityId then some (el.id, signalName, interrupting) else none
    | _ => none

def attachedConditionalBoundaries (s : State) (instanceKey : Key) (activityId : ElementId) :
    List (ElementId × String × Bool) :=
  (s.elementsOf instanceKey).filterMap fun el =>
    match el.kind with
    | .conditionalBoundaryEvent attachedTo condition interrupting =>
      if attachedTo = activityId then some (el.id, condition, interrupting) else none
    | _ => none

def isSubprocess (s : State) (instanceKey : Key) (elementId : ElementId) : Bool :=
  match s.elementKind instanceKey elementId with
  | some (.subProcess _) => true
  | _ => false

def isAdhocContainer (s : State) (instanceKey eik : Key) : Bool :=
  s.instances[instanceKey]?.any (·.adhocInstances.contains eik)

def isMultiInstanceBody (s : State) (instanceKey eik : Key) : Bool :=
  s.instances[instanceKey]?.any (·.multiInstances.contains eik)

/-- `call_activity_child_of` (`call_activity.rs:47`). -/
def callActivityChildOf (s : State) (callEik : Key) : Option Key :=
  (sortKeys ((s.instances.vals.filter fun i =>
    (i.state == .active || i.state == .terminating) && i.parentElementInstanceKey == some callEik).map (·.key))).head?

/-! ## Teardown -/

/-- `discard_instance_token_events` (`engine/mod.rs:11904`). -/
def discardInstanceTokenEvents (s : State) (instanceKey : Key) : List Event :=
  ((sortByKey (·.key) (s.jobs.vals.filter fun j => j.instanceKey == instanceKey &&
      (j.state == .created || j.state == .activated || j.state == .failed))).map fun j =>
    .jobCanceled j.key instanceKey) ++
  s.timerCancels (·.instanceKey == instanceKey) ++
  s.messageCancels (·.instanceKey == instanceKey) ++
  s.signalCancels (·.instanceKey == instanceKey) ++
  s.conditionalCancels (·.instanceKey == instanceKey) ++
  s.userTaskCancels (·.instanceKey == instanceKey)

def discardInstanceEvents (s : State) (instanceKey : Key) : List Event :=
  s.discardInstanceTokenEvents instanceKey ++ [.processInstanceTerminated instanceKey]

/-- The records of a multi-instance body or an ad-hoc container. -/
def bodyRecordEvents (s : State) (instanceKey eik : Key) : List Event :=
  (if s.isMultiInstanceBody instanceKey eik then [.multiInstanceCompleted instanceKey eik] else []) ++
  (if s.isAdhocContainer instanceKey eik then [.adHocCompleted instanceKey eik true] else [])

end State

namespace Engine

def incidentResolutions (e : Engine) (instanceKey : Key) (incidents : List Incident) : List Event :=
  (sortByKey (·.key) (incidents.filter (·.state == .active))).map fun i =>
    .incidentResolved i.key instanceKey i.jobKey e.now none

def resolveIncidentsOn (e : Engine) (instanceKey eik : Key) : List Event :=
  e.incidentResolutions instanceKey
    (e.state.incidents.vals.filter fun i => i.instanceKey == instanceKey && i.elementInstanceKey == eik)

/-- `resolve_instance_incidents` (`engine/mod.rs:12018`). -/
def resolveInstanceIncidents (e : Engine) (instanceKey : Key) : List Event :=
  match e.state.instances[instanceKey]? with
  | none => []
  | some i => e.incidentResolutions instanceKey (i.incidents.filterMap fun k => e.state.incidents[k]?)

/-- What one descendant of a torn-down scope owns, then the descendant itself. -/
def descendantTeardownEvents (e : Engine) (instanceKey eik : Key) : List Event :=
  let s := e.state
  let elementId := (s.elementIdOfInstance instanceKey eik).getD ""
  (match s.callActivityChildOf eik with
    | some child => s.discardInstanceEvents child
    | none => []) ++
  (match s.activeJobOn eik with
    | some jobKey => [.jobCanceled jobKey instanceKey]
    | none => []) ++
  s.cancelAllTimersOn eik ++ s.cancelAllSubscriptionsOn eik ++ s.cancelAllSignalSubscriptionsOn eik ++
  s.cancelAllConditionalSubscriptionsOn eik ++ s.cancelCreatedUserTasksOn eik ++
  e.resolveIncidentsOn instanceKey eik ++
  s.bodyRecordEvents instanceKey eik ++
  (if s.joinEik instanceKey elementId = some eik then [.parallelJoinReset instanceKey elementId] else []) ++
  [.elementCompleting instanceKey eik elementId, .elementCompleted instanceKey eik elementId]

def scopeTeardownEvents (e : Engine) (instanceKey scope : Key) : List Event :=
  let descendants := e.state.scopeDescendants instanceKey scope
  descendants.flatMap (e.descendantTeardownEvents instanceKey) ++
    match e.state.instances[instanceKey]? with
    | none => []
    | some i =>
      let scopes := descendants ++ [scope]
      if i.compensable.any (fun c => scopes.contains c.scope) ||
          i.compensationWaits.vals.any (fun w => scopes.contains w.scope) then
        [.scopedCompensationCleared instanceKey (sortKeys scopes)]
      else []

def boundaryRootTeardownEvents (e : Engine) (instanceKey root : Key) : List Event :=
  (match e.state.activeJobOn root with
    | some jobKey => [.jobCanceled jobKey instanceKey]
    | none => []) ++
  e.resolveIncidentsOn instanceKey root ++ e.state.bodyRecordEvents instanceKey root

def subscriptionIsLocal (e : Engine) (correlationValue : String) : Bool :=
  subscriptionPartition correlationValue e.numPartitions == e.partitionId

/-! ## Arming boundary events -/

/-- The kind of a boundary timer. -/
def boundaryTimerKind (interrupting : Bool) (boundaryId : ElementId) : TimerKind :=
  if interrupting then .interruptingBoundary boundaryId else .nonInterruptingBoundary boundaryId

/-- The kind of a boundary subscription. -/
def boundaryKind (interrupting : Bool) (boundaryId : ElementId) : MessageSubscriptionKind :=
  if interrupting then .interruptingBoundary boundaryId else .nonInterruptingBoundary boundaryId

variable [Feel]

/-- `sorted_referenced_vars`. -/
def sortedReferencedVars (condition : String) : List String := sortStrings (Feel.referencedVariables condition)

/-- `MessageSubscriptionCreated` on this partition, `MessageSubscriptionOpening` for another. -/
def openSubscription (e : Engine) (subscriptionKey instanceKey eik : Key) (elementId : ElementId)
    (messageName correlationValue : String) (kind : MessageSubscriptionKind) : Event :=
  if e.subscriptionIsLocal correlationValue then
    .messageSubscriptionCreated subscriptionKey instanceKey eik elementId messageName correlationValue kind
  else .messageSubscriptionOpening subscriptionKey instanceKey eik elementId messageName correlationValue kind

def armBoundaryEvents (e : Engine) (instanceKey eik scope : Key) (elementId : ElementId) : StepM (List Event) := do
  let s := e.state
  let hostVars := e.variablesForElement instanceKey scope
  let timers ← (s.attachedTimerBoundaries instanceKey elementId).mapM fun (boundaryId, durationMillis, interrupting) => do
    let timerKey ← StepM.mintKey
    let (dueAt, _) := resolveTimer hostVars (s.timerDefOf instanceKey boundaryId) e.now durationMillis
    return Event.timerCreated timerKey instanceKey eik elementId dueAt (boundaryTimerKind interrupting boundaryId)
  let messages ← (s.attachedMessageBoundaries instanceKey elementId).mapM
    fun (boundaryId, messageName, correlationKey, interrupting) => do
      let subscriptionKey ← StepM.mintKey
      return e.openSubscription subscriptionKey instanceKey eik elementId (resolveEventName hostVars messageName)
        (resolveCorrelationValue hostVars correlationKey) (boundaryKind interrupting boundaryId)
  let signals ← (s.attachedSignalBoundaries instanceKey elementId).mapM fun (boundaryId, signalName, interrupting) => do
    let subscriptionKey ← StepM.mintKey
    return Event.signalSubscriptionCreated subscriptionKey instanceKey eik elementId
      (resolveEventName hostVars signalName) (boundaryKind interrupting boundaryId)
  let conditionals ← (s.attachedConditionalBoundaries instanceKey elementId).mapM
    fun (boundaryId, condition, interrupting) => do
      let subscriptionKey ← StepM.mintKey
      return Event.conditionalSubscriptionCreated subscriptionKey instanceKey eik elementId condition
        (sortedReferencedVars condition) (boundaryKind interrupting boundaryId)
  return timers ++ messages ++ signals ++ conditionals

end Engine

/-! ## Interruption -/

namespace Plan

/-- `terminate_subprocess_scope`. -/
def terminateSubprocessScope (instanceKey scope : Key) : Plan Unit := do
  markTornDown scope
  emitAll ((← self).scopeTeardownEvents instanceKey scope)

/-- The four boundary cancellations, each read after the one before has been applied. -/
def disarmBoundaries (eik : Key) : Plan Unit := do
  emitAll ((← self).state.cancelBoundaryTimersOn eik)
  emitAll ((← self).state.cancelBoundaryMessageSubscriptionsOn eik)
  emitAll ((← self).state.cancelBoundarySignalSubscriptionsOn eik)
  emitAll ((← self).state.cancelBoundaryConditionalSubscriptionsOn eik)

/-- `discard_and_terminate_instance` (`engine/mod.rs:11877`). -/
def discardAndTerminateInstance (instanceKey : Key) : Plan Unit := do
  emitAll ((← self).state.discardInstanceEvents instanceKey)

/-- `if let Some(job_key) = self.active_job_on(eik) { emit(JobCanceled) }`. -/
def cancelActiveJobOn (instanceKey eik : Key) : Plan Unit := do
  match (← self).state.activeJobOn eik with
  | some jobKey => emit (.jobCanceled jobKey instanceKey)
  | none => return

def interruptActivityViaBoundary (instanceKey eik : Key) (elementId : ElementId) : Plan Unit := do
  let s := (← self).state
  if s.isMultiInstanceBody instanceKey eik then
    cancelActiveJobOn instanceKey eik
    emitAll ((← self).resolveIncidentsOn instanceKey eik)
    terminateSubprocessScope instanceKey eik
    emit (.multiInstanceCompleted instanceKey eik)
  else if s.isSubprocess instanceKey elementId then terminateSubprocessScope instanceKey eik
  else if s.isAdhocContainer instanceKey eik then
    cancelActiveJobOn instanceKey eik
    terminateSubprocessScope instanceKey eik
    emit (.adHocCompleted instanceKey eik true)
  else
    match s.callActivityChildOf eik with
    | some child => discardAndTerminateInstance child
    | none => cancelActiveJobOn instanceKey eik
  emit (.elementCompleting instanceKey eik elementId)
  emit (.elementCompleted instanceKey eik elementId)
  disarmBoundaries eik

/-- `terminate_element_instance`: the terminate instruction of a modification. -/
def terminateElementInstance (instanceKey eik : Key) (elementId : ElementId) : Plan Unit := do
  if (← self).state.isSubprocess instanceKey elementId then terminateSubprocessScope instanceKey eik
  else cancelActiveJobOn instanceKey eik
  emitAll (((← self).state.userTasks.vals.filter fun t => t.instanceKey == instanceKey &&
    t.elementInstanceKey == eik && t.state == .created).map (·.key) |> sortKeys |>.map fun key =>
      .userTaskCanceled key instanceKey)
  emitAll ((← self).state.cancelAllTimersOn eik)
  emitAll ((← self).state.cancelAllSubscriptionsOn eik)
  emitAll ((← self).state.cancelAllSignalSubscriptionsOn eik)
  emitAll ((← self).state.cancelAllConditionalSubscriptionsOn eik)
  emit (.elementCompleting instanceKey eik elementId)
  emit (.elementCompleted instanceKey eik elementId)

end Plan

end NanoBpm
