import NanoBpm.Planner.Complete

/-!
# The drain loop (`engine-core/src/engine/mod.rs:4396-5460`, `:11495-11549`, `:11827-11887`)

A command leaves steps in a queue. The loop takes them one by one, then completes sub-processes whose scope has
emptied, fires conditional events whose variables changed, and completes instances without tokens, until none of
these leaves a step. The source's loop has no bound; `run` takes its number of turns as fuel.
-/

namespace NanoBpm

/-! ## The terminal-scope guard -/

/-- What a step is checked against: its instance, the scope it activates in, the element instance and the
multi-instance body or ad-hoc container it works on. -/
structure StepTarget where
  instanceKey : Key
  scope : Option Key := none
  eik : Option Key := none
  owner : Option Key := none

namespace State

/-- The first match of `step_targets_dead_scope`; `none` is a task listener whose task is gone. -/
def stepTarget (s : State) : Step → Option StepTarget
  | .activate instanceKey _ scope _ => some { instanceKey, scope := some scope }
  | .complete instanceKey eik _ | .completeAdHocCallActivityTool instanceKey eik .. | .createJob instanceKey eik _
  | .reopenCatch instanceKey eik _ | .retryActivation instanceKey eik _ | .advanceListener instanceKey eik ..
  | .retryCallActivitySpawn instanceKey eik .. => some { instanceKey, eik := some eik }
  | .activateMiChild instanceKey _ bodyKey _ | .completeMiBody instanceKey bodyKey =>
    some { instanceKey, owner := some bodyKey }
  | .activateAdHocTool instanceKey containerKey .. | .completeAdHoc instanceKey containerKey _ =>
    some { instanceKey, owner := some containerKey }
  | .retryMiChildActivation instanceKey _ bodyKey childKey _ =>
    some { instanceKey, eik := some childKey, owner := some bodyKey }
  | .retryMiBodyActivation instanceKey _ bodyKey _ => some { instanceKey, eik := some bodyKey }
  | .completeCallActivity instanceKey .. => some { instanceKey }
  | .advanceTaskListener userTaskKey .. =>
    match s.userTasks[userTaskKey]? with
    | some t => if t.state = .created then some { instanceKey := t.instanceKey } else none
    | none => none

end State

namespace Engine

/-- `step_targets_dead_scope`. -/
def stepTargetsDeadScope (e : Engine) (step : Step) : Bool :=
  match e.state.stepTarget step with
  | none => true
  | some target =>
    match e.state.instances[target.instanceKey]? with
    | none => true
    | some i =>
      let isContainer (key : Key) := i.multiInstances.contains key || i.adhocInstances.contains key
      i.state == .terminated ||
        target.scope.any (fun scope => scope != 0 &&
          (e.tornDownScopes.contains scope || !(i.active.contains scope || isContainer scope))) ||
        target.eik.any (fun eik => !i.active.contains eik) ||
        target.owner.any (fun owner => !isContainer owner)

/-- `revoke_dropped_join_arrival`. -/
def revokeDroppedJoinArrival (e : Engine) (step : Step) : List Event :=
  match step with
  | .activate instanceKey elementId _ (some _) =>
    let holdsTokens := e.state.instances[instanceKey]?.any fun i =>
      i.joinFlowArrivals.contains elementId || i.joinCounts.contains elementId
    if holdsTokens && (e.state.joinKind instanceKey elementId).isSome &&
        (e.state.joinEik instanceKey elementId).isNone then
      [.parallelJoinReset instanceKey elementId]
    else []
  | _ => []

variable [Feel]

/-- The handler of a step that is not dropped. -/
def handleStep (e : Engine) (pending : List Step) : Step → StepM Outcome
  | .activate instanceKey elementId scope via => e.activate instanceKey elementId scope via pending
  | .complete instanceKey eik elementId => e.complete instanceKey eik elementId
  | .completeAdHocCallActivityTool instanceKey eik elementId containerKey innerKey outputUpdates =>
    e.completeAdhocTool instanceKey eik elementId containerKey innerKey (some outputUpdates)
  | .createJob instanceKey eik elementId => e.createJobFor instanceKey eik elementId
  | .reopenCatch instanceKey eik elementId =>
    e.runActivationBody instanceKey elementId eik (e.state.scopeOf instanceKey eik)
      (e.variablesForElement instanceKey eik)
  | .retryActivation instanceKey eik elementId =>
    e.activateBody instanceKey elementId eik (e.state.scopeOf instanceKey eik)
  | .activateMiChild instanceKey elementId bodyKey index => e.activateMiChild instanceKey elementId bodyKey index
  | .completeMiBody instanceKey bodyKey => e.completeMultiInstanceBody instanceKey bodyKey
  | .activateAdHocTool instanceKey containerKey elementId seed =>
    e.activateAdhocTool instanceKey containerKey elementId seed
  | .completeAdHoc instanceKey containerKey cancel => e.completeAdhocContainer instanceKey containerKey cancel
  | .advanceListener instanceKey eik elementId eventType index scope =>
    e.advanceListener instanceKey eik elementId eventType index scope
  | .advanceTaskListener userTaskKey eventType index => e.advanceTaskListener userTaskKey eventType index
  | .completeCallActivity instanceKey eik elementId childVariables =>
    e.completeCallActivity instanceKey eik elementId childVariables
  | .retryMiChildActivation instanceKey elementId bodyKey childKey index =>
    e.retryMiChildActivation instanceKey elementId bodyKey childKey index
  | .retryMiBodyActivation instanceKey elementId bodyKey scope =>
    match e.state.multiInstanceOf instanceKey elementId with
    | some mi => e.runMiBodyActivation instanceKey elementId bodyKey scope mi
    | none => return ([], [])
  | .retryCallActivitySpawn instanceKey eik elementId preservedSeed =>
    e.retryCallActivitySpawn instanceKey eik elementId preservedSeed

/-- `process_step`: reads the state, mints keys, never changes the state. -/
def processStep (e : Engine) (step : Step) (pending : List Step) : StepM Outcome := do
  if e.stepTargetsDeadScope step then return (e.revokeDroppedJoinArrival step, [])
  e.handleStep pending step

end Engine

/-- `log.iter().filter_map(instance_key)`, in key order. -/
def touched (log : List Event) : List Key := dedupSorted (sortKeys (log.filterMap Event.instanceKey))

namespace State

/-- The active sub-processes of an instance whose scope is empty and that run no listener. -/
def drainedSubprocesses (s : State) (instanceKey : Key) : List (Key × Key × ElementId) :=
  match s.instances[instanceKey]? with
  | none => []
  | some i =>
    if i.state != .active then []
    else
      match s.definitionFor i with
      | none => []
      | some d =>
        (i.active.toList.filter fun (eik, elementId) =>
          (d.definition.elements[elementId]?.any fun el => match el.kind with
            | .subProcess _ => true
            | _ => false) &&
          !i.scopes.vals.contains eik && (s.activeJobOn eik).isNone).map fun (eik, elementId) => (i.key, eik, elementId)

end State

namespace Plan

variable [Feel]

/-! ## Releasing tokens -/

/-- What a fired subscription does to its token, by its kind. -/
def releaseToken (instanceKey eik : Key) (elementId : ElementId) (kind : MessageSubscriptionKind) : Plan Unit := do
  match kind with
  | .intermediateCatch => enqueue (.complete instanceKey eik elementId)
  | .interruptingBoundary boundaryElementId =>
    let scope := (← self).state.scopeOf instanceKey eik
    interruptActivityViaBoundary instanceKey eik elementId
    enqueue (.activate instanceKey boundaryElementId scope none)
  | .nonInterruptingBoundary boundaryElementId =>
    enqueue (.activate instanceKey boundaryElementId ((← self).state.scopeOf instanceKey eik) none)

/-- The payload of a message or signal, merged from the catching element's scope upwards. -/
def mergePayload (instanceKey eik : Key) (payload : Vars) : Plan Unit := do
  if !payload.isEmpty then
    let e ← self
    emitAll (e.propagatedUpdates instanceKey (e.state.scopeOf instanceKey eik) payload false)

/-- `advance_correlated_token`. -/
def advanceCorrelatedToken (subscriptionKey messageKey instanceKey eik : Key) (elementId : ElementId)
    (kind : MessageSubscriptionKind) (payload : Vars) : Plan Unit := do
  emit (.messageCorrelated subscriptionKey messageKey instanceKey eik elementId)
  mergePayload instanceKey eik payload
  releaseToken instanceKey eik elementId kind

/-- `advance_signal_correlated_token`. -/
def advanceSignalCorrelatedToken (subscriptionKey signalKey instanceKey eik : Key) (elementId : ElementId)
    (kind : MessageSubscriptionKind) (payload : Vars) : Plan Unit := do
  emit (.signalCorrelated subscriptionKey signalKey instanceKey eik elementId)
  mergePayload instanceKey eik payload
  releaseToken instanceKey eik elementId kind

/-! ## The sweeps between two drains -/

/-- The completion of one drained sub-process, with the steps it leaves. -/
def completeDrained (instanceKey eik : Key) (elementId : ElementId) : Plan (List Step) := do
  let e ← self
  let scope := e.state.scopeOf instanceKey eik
  let container := e.state.scopeOf instanceKey scope
  if e.state.isMiChild instanceKey scope elementId ||
      (container != 0 && (e.state.adhocState instanceKey container).any (·.active.contains eik)) then
    disarmBoundaries eik
    return [.complete instanceKey eik elementId]
  match evalIoMappingsIn (e.variablesForElement instanceKey eik) (e.state.ioOutputs instanceKey elementId) with
  | .error failure =>
    let (parked, _) ← e.parkIoMapping instanceKey eik elementId failure .completion
    emitAll parked
    return []
  | .ok outputUpdates =>
    emit (.elementCompleting instanceKey eik elementId)
    let e ← self
    let vars := (e.variablesForElement instanceKey eik).extend outputUpdates
    match ← e.beginEndListenerChain instanceKey eik elementId scope vars with
    | some job =>
      disarmBoundaries eik
      emitAll ((← self).outputWrites instanceKey scope outputUpdates)
      emit job
      return []
    | none =>
      emit (.elementCompleted instanceKey eik elementId)
      disarmBoundaries eik
      emitAll ((← self).outputWrites instanceKey scope outputUpdates)
      let (flows, steps) := (← self).state.takeAllFlows instanceKey elementId scope
      emitAll flows
      return steps

/-- `complete_drained_subprocesses`: the instances the command touched, in key order. -/
def completeDrainedSubprocesses : Plan Unit := do
  let s := (← self).state
  let drained := (touched (← getLog)).flatMap s.drainedSubprocesses
  let followups ← drained.mapM fun (instanceKey, eik, elementId) => completeDrained instanceKey eik elementId
  enqueueAll followups.flatten

/-- The variables an event changes at the root of an instance. -/
def changedVariables : Event → Option (Key × Vars)
  | .variablesUpdated instanceKey vars | .processInstanceCreated instanceKey _ vars .. =>
    some (instanceKey, vars)
  | _ => none

def openedConditional : Event → Option Key
  | .conditionalSubscriptionCreated subscriptionKey .. => some subscriptionKey
  | _ => none

/-- The open subscriptions that the events since the last pass may have satisfied. -/
def conditionalCandidates (s : State) (events : List Event) : List Key :=
  let changed := events.filterMap changedVariables
  let opened := events.filterMap openedConditional
  sortKeys ((s.conditionalSubscriptions.vals.filter fun sub => sub.state == .opened &&
    (opened.contains sub.key || changed.any fun (key, vars) =>
      key == sub.instanceKey && sub.referencedVars.any vars.contains)).map (·.key))

/-- One turn of the loop of `reevaluate_conditionals`: an earlier one may have canceled the subscription. -/
def fireConditional (key : Key) : Plan Unit := do
  let e ← self
  match e.state.conditionalSubscriptions[key]? with
  | none => return
  | some sub =>
    if sub.state == .opened && Engine.evalsTrue sub.condition (e.variablesOf sub.instanceKey) then
      emit (.conditionalTriggered key sub.instanceKey sub.elementInstanceKey sub.elementId)
      releaseToken sub.instanceKey sub.elementInstanceKey sub.elementId sub.kind

/-- `reevaluate_conditionals`, from the given position of the log; returns the next. -/
def reevaluateConditionals (cursor : Nat) : Plan Nat := do
  let log ← getLog
  let s := (← self).state
  (conditionalCandidates s (log.drop cursor)).forM fireConditional
  return log.length

/-- `complete_finished_instances`: whether a parked call activity is to go on. -/
def completeFinishedInstances : Plan Bool := do
  let s := (← self).state
  let finished := (touched (← getLog)).filter fun key =>
    s.instances[key]?.any fun i => i.state == .active && i.active.isEmpty
  let followups ← finished.mapM fun instanceKey => do
    let step := (← self).state.callActivityCompletionStep instanceKey
    emit (.processInstanceCompleted instanceKey)
    return step.toList
  enqueueAll followups.flatten
  return !followups.flatten.isEmpty

/-! ## The loop -/

/-- One step of the queue. -/
def step (next : Step) : Plan Unit := do
  let (events, followups) ← (← self).processStep next (← getQueue)
  emitAll events
  enqueueAll followups

/-- `run_with` with a driver that never pauses, for at most `fuel` turns. -/
def runFrom : Nat → Nat → Plan Unit
  | 0, _ => return
  | fuel + 1, cursor => do
    match ← popFront with
    | some next =>
      step next
      runFrom fuel cursor
    | none =>
      completeDrainedSubprocesses
      let cursor ← reevaluateConditionals cursor
      if !(← getQueue).isEmpty then runFrom fuel cursor
      else if ← completeFinishedInstances then runFrom fuel cursor
      else return

/-- `run`. -/
def drain (fuel : Nat) : Plan Unit := runFrom fuel 0

/-! ## Children of an ended instance -/

/-- The instances that ended in this command. -/
def endedInstances (log : List Event) : List Key :=
  log.filterMap fun event =>
    match event with
    | .processInstanceTerminated instanceKey | .processInstanceCompleted instanceKey => some instanceKey
    | _ => none

/-- The children of `ended` that still run. -/
def liveChildren (s : State) (ended : List Key) : List Key :=
  sortKeys ((s.instances.vals.filter fun i => (i.state == .active || i.state == .terminating) &&
    i.parentProcessInstanceKey.any ended.contains).map (·.key))

/-- The loop of `cascade_cancel_children`. -/
def cascadeFrom : Nat → List Key → Plan Unit
  | 0, _ => return
  | fuel + 1, ended => do
    match liveChildren (← self).state ended with
    | [] => return
    | children =>
      children.forM discardAndTerminateInstance
      cascadeFrom fuel (children ++ ended)

/-- `cascade_cancel_children`: every turn but the last ends an instance, so the fuel covers them all. -/
def cascadeCancelChildren : Plan Unit := do
  let log ← getLog
  let fuel := (← self).state.instances.size + 1
  if !(endedInstances log).isEmpty then cascadeFrom fuel (endedInstances log)

end Plan

end NanoBpm
