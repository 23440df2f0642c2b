import NanoBpm.Planner.Containers

/-!
# Completion (`engine-core/src/engine/mod.rs:9116-10760`)

An element completes, runs its end listeners, or parks on an incident. With end listeners the tail of its completion
(`finalizeEndTransition`) is worked out again once their chain has drained.
-/

namespace NanoBpm

namespace Engine

variable [Feel]

/-! ## Event-based gateways -/

def isCatchEvent : ElementKind → Bool
  | .timerIntermediateCatchEvent _ | .messageIntermediateCatchEvent .. | .signalIntermediateCatchEvent _
  | .conditionalIntermediateCatchEvent _ => true
  | _ => false

/-- The catch events that race with `winner` behind the one event-based gateway that leads to it. -/
def gatewaySiblings (d : ProcessDefinition) (winner : ElementId) : List ElementId :=
  let isCatch (id : ElementId) := d.elements[id]?.any fun el => isCatchEvent el.kind
  let owners := d.elements.vals.filter fun el =>
    el.kind == .eventBasedGateway && el.outgoing.any (·.target == winner)
  match owners with
  | [owner] =>
    if isCatch winner ∧ d.incomingCount winner = 1 ∧ d.incomingCount owner.id = 1 then
      (owner.outgoing.map (·.target)).filter fun id => id != winner && isCatch id
    else []
  | _ => []

/-- `withdraw_event_gateway_siblings`. -/
def withdrawEventGatewaySiblings (e : Engine) (instanceKey winnerEik : Key) (winner : ElementId) (scope : Key) :
    List Event :=
  let s := e.state
  match s.processOfInstance instanceKey, s.instances[instanceKey]? with
  | some d, some i =>
    let siblings := gatewaySiblings d winner
    let losers := i.active.toList.filter fun (eik, id) =>
      eik != winnerEik && siblings.contains id && s.scopeOf instanceKey eik == scope
    losers.flatMap fun (eik, id) =>
      s.cancelAllTimersOn eik ++ s.cancelAllSubscriptionsOn eik ++ s.cancelAllSignalSubscriptionsOn eik ++
        s.cancelAllConditionalSubscriptionsOn eik ++ completion instanceKey eik id
  | _, _ => []

/-! ## Compensation and escalation -/

/-- `resume_compensation_throw`: the last handler completes the throw event. -/
def resumeCompensationThrow (e : Engine) (instanceKey : Key) (handlerElementId : ElementId) (throwEik : Key) :
    Outcome :=
  match e.state.instances[instanceKey]?.bind (·.compensationWaits[throwEik]?) with
  | none => ([], [])
  | some wait =>
    ([.compensationHandlerCompleted instanceKey throwEik handlerElementId],
      if wait.pendingHandlers.length = 1 then [.complete instanceKey throwEik wait.throwElementId] else [])

def compensationSubscriptions (e : Engine) (instanceKey eik : Key) (elementId : ElementId) (scope : Key) : List Event :=
  (e.state.compensationHandlersFor instanceKey elementId).map fun handler =>
    .compensationSubscriptionCreated instanceKey eik elementId handler scope

/-- The element instance a boundary is armed on: the body for the child of a loop. -/
def boundaryHost (e : Engine) (instanceKey caughtEik : Key) : Key :=
  let childScope := e.state.scopeOf instanceKey caughtEik
  if e.state.isMultiInstanceBody instanceKey childScope then childScope else caughtEik

/-- The completion of one element instance, which a teardown of its scope must not repeat. -/
def completes (eik : Key) : Event → Bool
  | .elementCompleting _ k _ | .elementCompleted _ k _ => k == eik
  | _ => false

/-- `raise_escalation_from_throw`: `events` holds the throw's own completion. -/
def raiseEscalationFromThrow (e : Engine) (instanceKey throwEik : Key) (throwElementId : ElementId) (scope : Key)
    (escalationCode : String) (events : List Event) : StepM Outcome := do
  let (flows, steps) := e.state.takeAllFlows instanceKey throwElementId scope
  match e.state.findCatchingEscalationBoundary instanceKey scope escalationCode with
  | none => return (events ++ flows, steps)
  | some (boundaryId, caughtEik, _, false) =>
    let boundaryScope := e.state.scopeOf instanceKey (e.boundaryHost instanceKey caughtEik)
    return (events ++ flows, steps ++ [.activate instanceKey boundaryId boundaryScope none])
  | some (boundaryId, caughtEik, caughtElementId, true) =>
    let torn := e.boundaryHost instanceKey caughtEik
    let tornElementId := if torn = caughtEik then caughtElementId
      else (e.state.elementIdOfInstance instanceKey torn).getD caughtElementId
    StepM.markTornDown torn
    return (events ++ (e.scopeTeardownEvents instanceKey torn).filter (! completes throwEik ·) ++
      e.boundaryRootTeardownEvents instanceKey torn ++ completion instanceKey torn tornElementId ++
      e.state.cancelBoundariesOn torn,
      [.activate instanceKey boundaryId (e.state.scopeOf instanceKey torn) none])

/-- `complete_terminate_end`: the whole instance at the top, else the enclosing scope. -/
def completeTerminateEnd (e : Engine) (instanceKey eik : Key) (elementId : ElementId) (scope : Key) : StepM Outcome := do
  if scope = 0 then
    return (completion instanceKey eik elementId ++ e.state.discardInstanceTokenEvents instanceKey ++
      e.resolveInstanceIncidents instanceKey ++ [.processInstanceCompleted instanceKey],
      (e.state.callActivityCompletionStep instanceKey).toList)
  StepM.markTornDown scope
  return (e.scopeTeardownEvents instanceKey scope, [])

/-! ## Where a completed token goes -/

/-- The tail of a completion whose `ElementCompleted` is in `events`: a link's catch, an escalation, or the flows. -/
def routeCompleted (e : Engine) (instanceKey eik : Key) (elementId : ElementId) (scope : Key) (events : List Event) :
    StepM Outcome := do
  match e.state.elementKind instanceKey elementId with
  | some (.linkIntermediateThrowEvent linkName) =>
    return (events, (e.state.resolveLinkCatch instanceKey elementId linkName).toList.map fun catchId =>
      .activate instanceKey catchId scope none)
  | some (.escalationThrowEvent code) => e.raiseEscalationFromThrow instanceKey eik elementId scope code events
  | _ =>
    let (flows, steps) := e.state.takeAllFlows instanceKey elementId scope
    return (events ++ flows, steps)

/-- `finalize_completion`: unlike `complete`, a link or escalation throw records no compensation here. -/
def finalizeCompletion (e : Engine) (instanceKey eik : Key) (elementId : ElementId) (scope : Key) : StepM Outcome := do
  let completed := Event.elementCompleted instanceKey eik elementId
  match e.state.pendingCompensationHandler instanceKey elementId scope with
  | some throwEik =>
    let (events, steps) := e.resumeCompensationThrow instanceKey elementId throwEik
    return (completed :: events, steps)
  | none =>
    let subscriptions := match e.state.elementKind instanceKey elementId with
      | some (.linkIntermediateThrowEvent _) | some (.escalationThrowEvent _) => []
      | _ => e.compensationSubscriptions instanceKey eik elementId scope
    e.routeCompleted instanceKey eik elementId scope (completed :: subscriptions)

/-- `finalize_subprocess`. -/
def finalizeSubprocess (e : Engine) (instanceKey eik : Key) (elementId : ElementId) (scope : Key) : Outcome :=
  let (flows, steps) := e.state.takeAllFlows instanceKey elementId scope
  (.elementCompleted instanceKey eik elementId :: flows, steps)

/-- `finalize_end_transition`. -/
def finalizeEndTransition (e : Engine) (instanceKey eik : Key) (elementId : ElementId) (scope : Key) :
    StepM Outcome := do
  if e.state.isMultiInstanceBody instanceKey eik then return e.finalizeMultiInstanceBody instanceKey eik
  if e.state.isAdhocContainer instanceKey eik then return e.finalizeAdhocContainer instanceKey eik false
  match e.state.elementKind instanceKey elementId with
  | some .exclusiveGateway => e.finalizeExclusiveGateway instanceKey eik elementId scope
  | some .inclusiveGateway => e.finalizeInclusiveGateway instanceKey eik elementId scope
  | some (.subProcess _) => return e.finalizeSubprocess instanceKey eik elementId scope
  | _ => e.finalizeCompletion instanceKey eik elementId scope

/-- `advance_listener`. -/
def advanceListener (e : Engine) (instanceKey eik : Key) (elementId : ElementId) (eventType : ListenerEventType)
    (index : Nat) (scope : Key) : StepM Outcome := do
  let vars := e.variablesForElement instanceKey eik
  match (e.state.listenersOf instanceKey elementId eventType)[index + 1]? with
  | some next => return ([← e.listenerJob instanceKey eik elementId scope vars eventType (index + 1) next], [])
  | none =>
    match eventType with
    | .start =>
      if e.state.isMultiInstanceBody instanceKey eik then return ([], e.spawnMultiInstanceChildren instanceKey eik)
      e.runActivationBody instanceKey elementId eik scope vars
    | .end => e.finalizeEndTransition instanceKey eik elementId scope

/-! ## Completing an element -/

/-- The result a script or business rule task merges, and the audit record of a decision. -/
structure TaskResult where
  update : Option Vars := none
  audit : Option Event := none

/-- The failure of a task that computes its result: the kind and the text of its incident. -/
structure TaskFailure where
  kind : IncidentKind
  reason : String

/-- What a decision writes: its result variable, else the entries of a context. -/
def decisionUpdate (resultVariable : Option String) (output : Value) : Vars :=
  match resultVariable.filter (! ·.isEmpty), output with
  | some name, _ => (∅ : Vars).insert name output
  | none, .map entries => entries.foldl (fun vars (k, v) => vars.insert k v) ∅
  | none, _ => ∅

def taskResult (e : Engine) (instanceKey eik : Key) (elementId : ElementId) : Except TaskFailure TaskResult :=
  let vars := e.variablesOf instanceKey
  match e.state.elementKind instanceKey elementId with
  | some (.scriptTask expression resultVariable) =>
    match Feel.eval expression vars with
    | .ok value => .ok { update := some ((∅ : Vars).insert resultVariable value) }
    | .error err =>
      .error { kind := .expressionEvaluation
               reason := "failed to evaluate script expression '" ++ expression ++ "' at script task '" ++ elementId ++
                 "': " ++ err }
  | some (.businessRuleTask decisionId resultVariable) =>
    let resolved := resolveJobType vars decisionId
    match e.state.decisions[resolved]? with
    | none =>
      .error { kind := .decisionEvaluation
               reason := "no deployed decision with id '" ++ resolved ++ "' for business rule task '" ++ decisionId ++ "'" }
    | some deployed =>
      let result := Feel.evaluateDecision deployed.drg resolved vars
      match result.failure with
      | some failure =>
        .error { kind := .decisionEvaluation
                 reason := "failed to evaluate decision '" ++ failure.failedDecisionId ++ "' at business rule task '" ++
                   elementId ++ "': " ++ failure.message }
      | none =>
        let update := decisionUpdate resultVariable result.decisionOutput
        .ok { update := if update.isEmpty then none else some update
              audit := some (.decisionEvaluated instanceKey eik elementId deployed.key resolved result.decisionOutput
                result.evaluatedDecisions e.now) }
  | _ => .ok {}

/-- The completion of an element that is no loop child, tool, gateway or terminate end. -/
def completePlain (e : Engine) (instanceKey eik : Key) (elementId : ElementId) (scope : Key) : StepM Outcome := do
  match e.taskResult instanceKey eik elementId with
  | .error failure => e.park instanceKey eik elementId failure.kind none failure.reason
  | .ok result =>
    let update := result.update.getD ∅
    let visible := (e.variablesForElement instanceKey eik).extend update
    match evalIoMappingsIn visible (e.state.ioOutputs instanceKey elementId) with
    | .error failure => e.parkIoMapping instanceKey eik elementId failure .completion
    | .ok outputUpdates =>
      let endListeners := e.state.listenersOf instanceKey elementId .end
      let merged := result.audit.toList ++ e.state.cancelBoundariesOn eik ++
        e.withdrawEventGatewaySiblings instanceKey eik elementId scope ++
        (result.update.toList.map fun update => .variablesUpdated instanceKey update) ++
        e.outputWrites instanceKey scope outputUpdates
      let completing := Event.elementCompleting instanceKey eik elementId
      match endListeners with
      | first :: _ =>
        return (completing :: merged ++ [← e.listenerJob instanceKey eik elementId scope visible .end 0 first], [])
      | [] =>
        let events := completing :: .elementCompleted instanceKey eik elementId :: merged
        match e.state.pendingCompensationHandler instanceKey elementId scope with
        | some throwEik =>
          let (resumed, steps) := e.resumeCompensationThrow instanceKey elementId throwEik
          return (events ++ resumed, steps)
        | none =>
          e.routeCompleted instanceKey eik elementId scope
            (events ++ e.compensationSubscriptions instanceKey eik elementId scope)

/-- `complete`. -/
def complete (e : Engine) (instanceKey eik : Key) (elementId : ElementId) : StepM Outcome := do
  let s := e.state
  let scope := s.scopeOf instanceKey eik
  if scope ≠ 0 ∧ s.isMiChild instanceKey scope elementId then
    e.completeMiChild instanceKey eik elementId scope none
  else
    match s.adhocToolContainerOf instanceKey eik with
    | some (container, inner) => e.completeAdhocTool instanceKey eik elementId container inner none
    | none =>
      match s.elementKind instanceKey elementId with
      | some .exclusiveGateway => e.completeExclusiveGateway instanceKey eik elementId
      | some .inclusiveGateway => e.completeInclusiveGateway instanceKey eik elementId
      | some .terminateEndEvent => e.completeTerminateEnd instanceKey eik elementId scope
      | _ => e.completePlain instanceKey eik elementId scope

/-- `create_job_for`: the retry of a service task whose incident was resolved. -/
def createJobFor (e : Engine) (instanceKey eik : Key) (elementId : ElementId) : StepM Outcome := do
  match e.state.elementKind instanceKey elementId with
  | some (.serviceTask jobType priority ..) =>
    return ([← e.jobFor instanceKey eik elementId (e.variablesForElement instanceKey eik) jobType priority
      (e.state.retriesOf instanceKey elementId)], [])
  | _ => return ([], [])

/-! ## User-task listener chains -/

/-- `task_event_supports_deny`. -/
def taskEventSupportsDeny : TaskListenerEventType → Bool
  | .assigning | .updating | .completing => true
  | .creating | .canceling => false

/-- A date correction: the empty text clears the date. -/
def dateCorrection (date : Option String) : Option (Option String) :=
  date.map fun d => if d.isEmpty then none else some d

/-- `apply_non_assignee_corrections`. -/
def applyNonAssigneeCorrections (userTaskKey instanceKey : Key) (c : UserTaskCorrections) : List Event :=
  if c.candidateGroups.isNone && c.candidateUsers.isNone && c.dueDate.isNone && c.followUpDate.isNone &&
      c.priority.isNone then []
  else
    [.userTaskUpdated userTaskKey instanceKey c.candidateGroups c.candidateUsers (dateCorrection c.dueDate)
      (dateCorrection c.followUpDate) c.priority]

/-- The assignee correction, when there is one. -/
def assigneeCorrection (userTaskKey instanceKey : Key) (c : UserTaskCorrections) : List Event :=
  c.assignee.toList.map fun a => .userTaskAssigned userTaskKey instanceKey (if a.isEmpty then none else some a)

/-- `apply_creating_corrections`. -/
def applyCreatingCorrections (userTaskKey instanceKey : Key) (c : UserTaskCorrections) (hasInitialAssignee : Bool) :
    List Event :=
  applyNonAssigneeCorrections userTaskKey instanceKey c ++
    if hasInitialAssignee then [] else assigneeCorrection userTaskKey instanceKey c

/-- Whether a canceling chain that drains lets its terminating instance end. -/
def finishesTermination (e : Engine) (userTaskKey instanceKey : Key) : Bool :=
  e.state.instances[instanceKey]?.any (·.state == .terminating) &&
    !e.state.userTasks.vals.any fun t =>
      t.instanceKey == instanceKey && t.key != userTaskKey && t.pending.any (·.eventType == .canceling)

/-- The events of one drained chain before `UserTaskTransitionResolved`. -/
def transitionEvents (e : Engine) (utk : Key) (task : UserTask) (pending : PendingUserTaskTransition) : List Event :=
  let instanceKey := task.instanceKey
  let c := pending.corrections
  match pending.eventType with
  | .creating =>
    applyCreatingCorrections utk instanceKey c (task.assignee.isSome || pending.assignee.isSome)
  | .assigning =>
    let assignee := match c.assignee with
      | some a => if a.isEmpty then none else some a
      | none => pending.assignee
    applyNonAssigneeCorrections utk instanceKey c ++ [.userTaskAssigned utk instanceKey assignee]
  | .updating =>
    let update := pending.update.getD {}
    .userTaskUpdated utk instanceKey (c.candidateGroups <|> update.candidateGroups)
      (c.candidateUsers <|> update.candidateUsers) (dateCorrection c.dueDate <|> update.dueDate)
      (dateCorrection c.followUpDate <|> update.followUpDate) (c.priority <|> update.priority) ::
      assigneeCorrection utk instanceKey c
  | .completing =>
    let flowScope := e.state.scopeOf instanceKey task.elementInstanceKey
    -- the captured variables are merged right before the completion
    applyNonAssigneeCorrections utk instanceKey c ++ assigneeCorrection utk instanceKey c ++
      e.outputWrites instanceKey flowScope pending.vars ++ [.userTaskCompleted utk instanceKey]
  | .canceling => [.userTaskCanceled utk instanceKey]

/-- `commit_user_task_transition`. -/
def commitUserTaskTransition (e : Engine) (userTaskKey : Key) : StepM Outcome := do
  match e.state.userTasks[userTaskKey]? with
  | none => return ([], [])
  | some task =>
    match task.pending with
    | none => return ([], [])
    | some pending =>
      let instanceKey := task.instanceKey
      let resolved := e.transitionEvents userTaskKey task pending ++ [.userTaskTransitionResolved userTaskKey instanceKey none]
      let terminated := if pending.eventType == .canceling && e.finishesTermination userTaskKey instanceKey then
        [.processInstanceTerminated instanceKey] else []
      let assigning := e.state.taskListenersOf instanceKey task.elementId .assigning
      let handoff ← match pending.eventType, pending.assignee, assigning with
        | .creating, some initial, first :: _ =>
          e.startTaskListenerChain userTaskKey instanceKey task.elementInstanceKey task.elementId .assigning
            { eventType := .assigning, assignee := some initial } first
        | _, _, _ => pure []
      let steps := if pending.eventType == .completing then
        [.complete instanceKey task.elementInstanceKey task.elementId] else []
      return (resolved ++ terminated ++ handoff, steps)

/-- `advance_task_listener`. -/
def advanceTaskListener (e : Engine) (userTaskKey : Key) (eventType : TaskListenerEventType) (index : Nat) :
    StepM Outcome := do
  match e.state.userTasks[userTaskKey]? with
  | none => return ([], [])
  | some task =>
    match (e.state.taskListenersOf task.instanceKey task.elementId eventType)[index + 1]? with
    | some next =>
      return ([← e.mintTaskListenerJob userTaskKey task.instanceKey task.elementInstanceKey task.elementId eventType
        (index + 1) next], [])
    | none => e.commitUserTaskTransition userTaskKey

end Engine

end NanoBpm
