import NanoBpm.Planner.Activate

/-!
# Completion of loops, ad-hoc containers and call activities
(`engine-core/src/engine/mod.rs:6935-7560`, `:8244-9108`, `:11551-11815`, `engine/call_activity.rs:92-155`, `:400-567`)

A child of one of these does not take an outgoing flow: its result goes to the body, the container or the caller,
which decides whether to go on.
-/

namespace NanoBpm

namespace Engine

variable [Feel]

/-- `matches!(feel::eval_bool(expr, vars), Ok(true))`. -/
def evalsTrue (expr : String) (vars : Vars) : Bool :=
  match Feel.evalBool expr vars with
  | .ok b => b
  | .error _ => false

def completion (instanceKey eik : Key) (elementId : ElementId) : List Event :=
  [.elementCompleting instanceKey eik elementId, .elementCompleted instanceKey eik elementId]

/-! ## Multi-instance -/

/-- The output of one child: its output element over its scope and what it produced. -/
def miChildOutput (e : Engine) (instanceKey childEik : Key) (elementId : ElementId) (outputElement : Option String)
    (overlay : Option Vars) : Except IoMappingFailure (Option Value) :=
  match outputElement with
  | none => .ok none
  | some expr =>
    let visible := e.variablesForElement instanceKey childEik
    let produced : Except IoMappingFailure Vars := match overlay with
      | some overlay => .ok overlay
      | none => evalIoMappingsIn visible (e.state.ioOutputs instanceKey elementId)
    produced.map fun produced => (Feel.eval expr (visible.extend produced)).toOption

/-- The child's index; a state written before the engine kept it falls back to the loop counter. -/
def miChildIndex (e : Engine) (instanceKey childEik : Key) (mi : MultiInstanceState) : Nat :=
  let counter := (e.state.instances[instanceKey]?.bind (·.scopeVariables[childEik]?)).bind (·["loopCounter"]?)
  (mi.childIndices[childEik]? <|> (counter.bind (·.asF64AsI64)).map fun c => (max (c - 1) 0).toNat).getD 0

/-- `complete_mi_child`. -/
def completeMiChild (e : Engine) (instanceKey childEik : Key) (elementId : ElementId) (bodyKey : Key)
    (overlay : Option Vars) : StepM Outcome := do
  match e.state.miState instanceKey bodyKey with
  | none => return (completion instanceKey childEik elementId, [])
  | some mi =>
    match e.miChildOutput instanceKey childEik elementId mi.outputElement overlay with
    | .error failure => e.parkIoMapping instanceKey childEik elementId failure .completion
    | .ok output =>
      let events := completion instanceKey childEik elementId ++
        [.multiInstanceChildCompleted instanceKey bodyKey childEik (e.miChildIndex instanceKey childEik mi) output]
      let fulfilled := mi.completionCondition.any fun c => evalsTrue c (e.variablesOf instanceKey)
      let body := Step.completeMiBody instanceKey bodyKey
      let total := mi.items.length
      let steps :=
        if fulfilled then [body]
        else if mi.sequential then
          if mi.spawned < total then [.activateMiChild instanceKey mi.elementId bodyKey mi.spawned] else [body]
        else if mi.active.size - 1 = 0 ∧ mi.spawned ≥ total then [body]
        else []
      return (events, steps)

/-- `cancel_mi_child_events`: only what the child itself owns. -/
def cancelMiChildEvents (e : Engine) (instanceKey childEik : Key) : List Event :=
  let s := e.state
  (match s.callActivityChildOf childEik with
    | some callee => s.discardInstanceEvents callee
    | none => []) ++
  (match s.activeJobOn childEik with
    | some jobKey => [.jobCanceled jobKey instanceKey]
    | none => []) ++
  s.cancelAllTimersOn childEik ++ s.cancelAllSubscriptionsOn childEik ++
  (match s.userTasks.vals.find? fun t =>
      t.instanceKey == instanceKey && t.elementInstanceKey == childEik && t.state == .created with
    | some t => [.userTaskCanceled t.key instanceKey]
    | none => []) ++
  e.resolveIncidentsOn instanceKey childEik ++
  completion instanceKey childEik ((s.elementIdOfInstance instanceKey childEik).getD "")

/-- `cancel_adhoc_active_child`, through nested containers `fuel` levels deep. -/
def cancelAdhocFrom (e : Engine) (instanceKey : Key) : Nat → Key → Key → List Event
  | 0, _, _ => []
  | fuel + 1, containerKey, child =>
    let s := e.state
    (match s.adhocState instanceKey child with
      | some nested =>
        (nested.active.toList.flatMap fun grandchild => e.cancelAdhocFrom instanceKey fuel child grandchild) ++
        (match s.activeJobOn child with
          | some jobKey => [.jobCanceled jobKey instanceKey]
          | none => []) ++
        s.cancelAllTimersOn child ++ s.cancelAllSubscriptionsOn child ++ e.resolveIncidentsOn instanceKey child ++
        completion instanceKey child nested.elementId ++ [.adHocCompleted instanceKey child true]
      | none =>
        ((s.scopeDescendants instanceKey child).flatMap fun d => e.cancelMiChildEvents instanceKey d) ++
        e.cancelMiChildEvents instanceKey child) ++
    (match s.callActivityChildOf child with
      | some callChild => s.discardInstanceEvents callChild
      | none => []) ++
    let inner := s.scopeOf instanceKey child
    match s.elementIdOfInstance instanceKey inner with
    | some innerId => if inner ≠ 0 ∧ inner ≠ containerKey then completion instanceKey inner innerId else []
    | none => []

def cancelAdhocActiveChild (e : Engine) (instanceKey containerKey child : Key) : List Event :=
  let containers := ((e.state.instances[instanceKey]?).map (·.adhocInstances.size)).getD 0
  e.cancelAdhocFrom instanceKey (containers + 1) containerKey child

/-- The children still running when a body completes early. -/
def cancelMiChildren (e : Engine) (instanceKey bodyKey : Key) (active : List Key) : StepM (List Event) := do
  let events ← active.mapM fun child => do
    if e.state.isAdhocContainer instanceKey child then return e.cancelAdhocActiveChild instanceKey bodyKey child
    StepM.markTornDown child
    return e.scopeTeardownEvents instanceKey child ++ e.cancelMiChildEvents instanceKey child
  return events.flatten

/-- Output mappings of a body or an element, written to the enclosing scope. -/
def outputWrites (e : Engine) (instanceKey scope : Key) (updates : Vars) : List Event :=
  if updates.isEmpty then [] else e.propagatedUpdates instanceKey scope updates false

/-- `complete_multi_instance_body`. -/
def completeMultiInstanceBody (e : Engine) (instanceKey bodyKey : Key) : StepM Outcome := do
  match e.state.miState instanceKey bodyKey with
  | none => return ([], [])
  | some mi =>
    let elementId := mi.elementId
    let scope := e.state.scopeOf instanceKey bodyKey
    let collection : Vars := match mi.outputCollection with
      | some name => (∅ : Vars).insert name (.list (mi.outputValues.map (·.getD .null)))
      | none => ∅
    let bodyVars := (e.variablesForElement instanceKey bodyKey).extend collection
    match evalIoMappingsTolerating bodyVars (e.state.ioOutputs instanceKey elementId) (childBindings mi.inputElement) with
    | .error failure => e.parkIoMapping instanceKey bodyKey elementId failure .miBodyCompletion
    | .ok outputUpdates =>
      let cancels ← e.cancelMiChildren instanceKey bodyKey mi.active.toList
      let completing := cancels ++ e.state.cancelBoundariesOn bodyKey ++
        e.propagatedUpdates instanceKey scope collection false ++ [.elementCompleting instanceKey bodyKey elementId]
      match ← e.beginEndListenerChain instanceKey bodyKey elementId scope (bodyVars.extend outputUpdates) with
      | some job => return (completing ++ e.outputWrites instanceKey scope outputUpdates ++ [job], [])
      | none =>
        let (flows, steps) := e.state.takeAllFlows instanceKey elementId scope
        return (completing ++ [.elementCompleted instanceKey bodyKey elementId,
          .multiInstanceCompleted instanceKey bodyKey] ++ e.outputWrites instanceKey scope outputUpdates ++ flows, steps)

/-- `finalize_multi_instance_body`. -/
def finalizeMultiInstanceBody (e : Engine) (instanceKey bodyKey : Key) : Outcome :=
  match e.state.miState instanceKey bodyKey with
  | none => ([], [])
  | some mi =>
    let (flows, steps) := e.state.takeAllFlows instanceKey mi.elementId (e.state.scopeOf instanceKey bodyKey)
    ([.elementCompleted instanceKey bodyKey mi.elementId, .multiInstanceCompleted instanceKey bodyKey] ++ flows, steps)

/-! ## Ad-hoc tools -/

/-- What a container does after one of its tools. -/
inductive AdHocPostTool where
  | complete (cancel : Bool)
  | defer (fulfilledEvent : Option Event)
  | continue

/-- `adhoc_inner_flow_targets`. -/
def adhocInnerFlowTargets (e : Engine) (instanceKey : Key) (containerElementId toolElementId : ElementId)
    (childEik : Key) : List ElementId :=
  let vars := e.variablesForElement instanceKey childEik
  let flows := ((e.state.adhocDefOf instanceKey containerElementId).map (·.innerFlows)).getD []
  (flows.filter fun fl => fl.source == toolElementId && fl.condition.all fun c => evalsTrue c.expression vars).map
    (·.target)

/-- `adhoc_completion_after_tool`. -/
def adhocCompletionAfterTool (e : Engine) (instanceKey containerKey : Key) (containerElementId : ElementId)
    (outputUpdates : Vars) (others : Nat) : AdHocPostTool :=
  match e.state.adhocDefOf instanceKey containerElementId with
  | none => .continue
  | some d =>
    let now := d.completionCondition.any fun cond =>
      evalsTrue cond ((e.variablesForElement instanceKey containerKey).extend outputUpdates)
    let already := (e.state.adhocState instanceKey containerKey).any (·.completionConditionFulfilled)
    if !(now || already) then .continue
    else if d.cancelRemainingInstances then .complete true
    else if others = 0 then .complete false
    else .defer (if already then none else some (.adHocCompletionConditionFulfilled instanceKey containerKey))

/-- `adhoc_inner_instance_teardown`. -/
def adhocInnerInstanceTeardown (e : Engine) (instanceKey innerKey : Key) : List Event :=
  match e.state.elementIdOfInstance instanceKey innerKey with
  | some innerId => completion instanceKey innerKey innerId
  | none => []

/-- A tool's output: projected already for a call activity, else by its mappings. -/
def toolOutputUpdates (e : Engine) (instanceKey : Key) (containerElementId toolElementId : ElementId) (childEik : Key)
    (precomputed : Option Vars) : Except IoMappingFailure Vars :=
  match precomputed with
  | some updates => .ok updates
  | none =>
    evalIoMappingsIn (e.variablesForElement instanceKey childEik)
      (e.state.adhocToolIo instanceKey containerElementId toolElementId).outputs

/-- `adhoc_container_job_type`: a nested container's job type is in its parent's catalog. -/
def adhocContainerJobType (e : Engine) (instanceKey containerKey : Key) (containerElementId : ElementId) :
    Option String :=
  match e.state.elementKind instanceKey containerElementId with
  | some (.serviceTask jobType ..) => some jobType
  | _ => do
    let inner := e.state.scopeOf instanceKey containerKey
    let parent := if inner ≠ 0 then e.state.scopeOf instanceKey inner else 0
    let parentElementId ← e.state.elementIdOfInstance instanceKey parent
    match (← e.state.adhocTool instanceKey parentElementId containerElementId).kind with
    | .serviceTask jobType => some jobType
    | _ => none

/-- `adhoc_agent_job_events`. -/
def adhocAgentJobEvents (e : Engine) (instanceKey containerKey : Key) (containerElementId : ElementId) :
    StepM (List Event) := do
  match e.adhocContainerJobType instanceKey containerKey containerElementId with
  | none => return []
  | some jobType =>
    return [← e.jobFor instanceKey containerKey containerElementId (e.variablesForElement instanceKey containerKey)
      jobType none (e.state.retriesOf instanceKey containerElementId)]

/-- The events of a tool that completes, before its output reaches the container. -/
def toolCompletion (e : Engine) (instanceKey childEik : Key) (toolElementId : ElementId) (containerKey innerKey : Key)
    (output : Option Value) : List Event :=
  completion instanceKey childEik toolElementId ++ e.adhocInnerInstanceTeardown instanceKey innerKey ++
    [.adHocToolCompleted instanceKey containerKey childEik output]

/-- `continue_adhoc_inner_flow`: the tool hands over to its follow-ups unless the container completes. -/
def continueAdhocInnerFlow (e : Engine) (instanceKey childEik : Key) (toolElementId : ElementId)
    (containerKey innerKey : Key) (targets : List ElementId) (precomputed : Option Vars) : StepM Outcome := do
  match e.state.adhocState instanceKey containerKey with
  | none => return ([], [])
  | some a =>
    match e.toolOutputUpdates instanceKey a.elementId toolElementId childEik precomputed with
    | .error failure => e.parkIoMapping instanceKey childEik toolElementId failure .completion
    | .ok updates =>
      let events := e.toolCompletion instanceKey childEik toolElementId containerKey innerKey none ++
        e.outputWrites instanceKey containerKey updates
      match e.adhocCompletionAfterTool instanceKey containerKey a.elementId updates (a.active.size - 1) with
      | .complete cancel => return (events, [.completeAdHoc instanceKey containerKey cancel])
      | .defer fulfilled => return (events ++ fulfilled.toList, [])
      | .continue =>
        return (events ++ targets.map fun target => .sequenceFlowTaken instanceKey toolElementId target,
          targets.map fun target => .activateAdHocTool instanceKey containerKey target ∅)

/-- The output collection is bound to something that is no list. -/
def mistypedCollection (e : Engine) (instanceKey containerKey : Key) (name : String) : Bool :=
  ((e.state.instances[instanceKey]?.bind (·.scopeVariables[containerKey]?)).bind (·[name]?)).any fun v =>
    match v with
    | .list _ => false
    | _ => true

/-- What a container whose tools have all drained does: a declarative one completes, an agent gets its next job. -/
def adhocDrained (e : Engine) (instanceKey containerKey : Key) (containerElementId : ElementId) : StepM Outcome := do
  if (e.state.adhocDefOf instanceKey containerElementId).any (·.declarative) then
    return ([], [.completeAdHoc instanceKey containerKey false])
  let job ← e.adhocAgentJobEvents instanceKey containerKey containerElementId
  return (.adHocIterated instanceKey containerKey :: job, [])

/-- The leaf of `complete_adhoc_tool`: no follow-up is chained. -/
def completeAdhocLeaf (e : Engine) (instanceKey childEik : Key) (toolElementId : ElementId)
    (containerKey innerKey : Key) (a : AdHocState) (precomputed : Option Vars) : StepM Outcome := do
  let output := a.outputElement.bind fun expr =>
    (Feel.eval expr (e.variablesForElement instanceKey childEik)).toOption
  let mistyped := a.outputCollection.filter fun name =>
    output.isSome && e.mistypedCollection instanceKey containerKey name
  match mistyped with
  | some name =>
    e.park instanceKey childEik toolElementId .expressionEvaluation
      (precomputed.map IoMappingRedrive.adHocToolOutputCollection)
      ("the output collection '" ++ name ++ "' of ad-hoc sub-process '" ++ a.elementId ++
        "' has the wrong type: expected an array")
  | none =>
    match e.toolOutputUpdates instanceKey a.elementId toolElementId childEik precomputed with
    | .error failure => e.parkIoMapping instanceKey childEik toolElementId failure .completion
    | .ok updates =>
      let events := e.toolCompletion instanceKey childEik toolElementId containerKey innerKey output ++
        e.outputWrites instanceKey containerKey updates
      let others := a.active.size - 1
      match e.adhocCompletionAfterTool instanceKey containerKey a.elementId updates others with
      | .complete cancel => return (events, [.completeAdHoc instanceKey containerKey cancel])
      | .defer fulfilled => return (events ++ fulfilled.toList, [])
      | .continue =>
        if others = 0 then
          let (more, steps) ← e.adhocDrained instanceKey containerKey a.elementId
          return (events ++ more, steps)
        return (events, [])

/-- `complete_adhoc_tool`. -/
def completeAdhocTool (e : Engine) (instanceKey childEik : Key) (toolElementId : ElementId)
    (containerKey innerKey : Key) (precomputed : Option Vars) : StepM Outcome := do
  match e.state.adhocState instanceKey containerKey with
  | none => return ([], [])
  | some a =>
    match e.adhocInnerFlowTargets instanceKey a.elementId toolElementId childEik with
    | [] => e.completeAdhocLeaf instanceKey childEik toolElementId containerKey innerKey a precomputed
    | targets => e.continueAdhocInnerFlow instanceKey childEik toolElementId containerKey innerKey targets precomputed

/-! ## Ad-hoc containers -/

/-- `complete_adhoc_container`. -/
def completeAdhocContainer (e : Engine) (instanceKey containerKey : Key) (cancel : Bool) : StepM Outcome := do
  match e.state.adhocState instanceKey containerKey with
  | none => return ([], [])
  | some a =>
    let elementId := a.elementId
    let scope := e.state.scopeOf instanceKey containerKey
    let cancels := if cancel then
      a.active.toList.flatMap fun child => e.cancelAdhocActiveChild instanceKey containerKey child else []
    if scope ≠ 0 ∧ e.state.isMiChild instanceKey scope elementId then
      let (events, steps) ← e.completeMiChild instanceKey containerKey elementId scope none
      return (cancels ++ .adHocCompleted instanceKey containerKey cancel :: events, steps)
    let parent := if scope ≠ 0 then e.state.scopeOf instanceKey scope else 0
    if parent ≠ 0 ∧ (e.state.adhocState instanceKey parent).any (·.active.contains containerKey) then
      -- a nested container completes as a tool of its parent, and keeps its record while that is parked
      let (events, steps) ← e.completeAdhocTool instanceKey containerKey elementId parent scope none
      let completed := events.any fun event =>
        match event with
        | .adHocToolCompleted .. => true
        | _ => false
      return (cancels ++ events ++ (if completed then [.adHocCompleted instanceKey containerKey cancel] else []), steps)
    let collection : Vars := match a.outputCollection with
      | some name =>
        let value := ((e.state.instances[instanceKey]?.bind (·.scopeVariables[containerKey]?)).bind (·[name]?))
        (∅ : Vars).insert name (value.getD (.list []))
      | none => ∅
    let completing := cancels ++ e.propagatedUpdates instanceKey scope collection false ++
      [.elementCompleting instanceKey containerKey elementId]
    let vars := (e.variablesForElement instanceKey containerKey).extend collection
    match ← if cancel then pure none else e.beginEndListenerChain instanceKey containerKey elementId scope vars with
    | some job => return (completing ++ e.state.cancelBoundariesOn containerKey ++ [job], [])
    | none =>
      let (flows, steps) := e.state.takeAllFlows instanceKey elementId scope
      return (completing ++ [.elementCompleted instanceKey containerKey elementId,
        .adHocCompleted instanceKey containerKey cancel] ++ flows, steps)

/-- `finalize_adhoc_container`. -/
def finalizeAdhocContainer (e : Engine) (instanceKey containerKey : Key) (cancelled : Bool) : Outcome :=
  match e.state.adhocState instanceKey containerKey with
  | none => ([], [])
  | some a =>
    let (flows, steps) := e.state.takeAllFlows instanceKey a.elementId (e.state.scopeOf instanceKey containerKey)
    ([.elementCompleted instanceKey containerKey a.elementId, .adHocCompleted instanceKey containerKey cancelled] ++
      flows, steps)

/-! ## Call activities -/

/-- `respawn_adhoc_call_activity_tool`: the input projection of the failed spawn goes over a fresh view. -/
def respawnAdhocCallActivityTool (e : Engine) (instanceKey childEik containerKey : Key) (elementId : ElementId)
    (preservedSeed : Option Vars) : StepM Outcome := do
  match e.state.adhocState instanceKey containerKey with
  | none => return ([], [])
  | some a =>
    match (e.state.adhocTool instanceKey a.elementId elementId).map AdHocTool.kind with
    | some (.callActivity (some processId) propagateAllParent _) =>
      let view := e.variablesForElement instanceKey childEik
      let projection : Except IoMappingFailure Vars := match preservedSeed with
        | some seed => .ok seed
        | none => e.adhocToolInputUpdates instanceKey a.elementId elementId view
      match projection with
      | .error failure => e.parkIoMapping instanceKey childEik elementId failure .callActivitySpawn
      | .ok projection =>
        let childSeed := if propagateAllParent then view.extend projection else projection
        e.spawnCallActivityInstance instanceKey childEik elementId processId view childSeed (some projection)
    | _ => return ([], [])

/-- `retry_call_activity_spawn`: a loop child evaluates in its own scope. -/
def retryCallActivitySpawn (e : Engine) (instanceKey eik : Key) (elementId : ElementId) (preservedSeed : Option Vars) :
    StepM Outcome := do
  match e.state.adhocToolContainerOf instanceKey eik with
  | some (containerKey, _) => e.respawnAdhocCallActivityTool instanceKey eik containerKey elementId preservedSeed
  | none =>
    match e.state.elementKind instanceKey elementId with
    | some (.callActivity called propagateAllParent _) =>
      let scope := e.state.scopeOf instanceKey eik
      let evalScope := if scope ≠ 0 ∧ e.state.isMiChild instanceKey scope elementId then eik else scope
      e.spawnCallActivityChild instanceKey eik elementId called propagateAllParent
        (e.variablesForElement instanceKey evalScope)
    | _ => return ([], [])

/-- `complete_adhoc_call_activity_tool`: projects the child's variables once and hands over to the leaf. -/
def completeAdhocCallActivityTool (e : Engine) (instanceKey childEik : Key) (elementId : ElementId)
    (containerKey innerKey : Key) (childVariables : Vars) : StepM Outcome := do
  match e.state.adhocState instanceKey containerKey with
  | none => return ([], [])
  | some a =>
    let propagateAllChild := match (e.state.adhocTool instanceKey a.elementId elementId).map (·.kind) with
      | some (.callActivity _ _ propagateAllChild) => propagateAllChild
      | _ => true
    match evalIoMappingsIn childVariables (e.state.adhocToolIo instanceKey a.elementId elementId).outputs with
    | .error failure =>
      e.parkIoMapping instanceKey childEik elementId failure (.callActivityCompletion childVariables)
    | .ok outputUpdates =>
      let seed := childVariables.extend outputUpdates
      let seeded := if seed.isEmpty then [] else [Event.scopedVariablesUpdated instanceKey childEik seed]
      let propagated := if propagateAllChild then e.outputWrites instanceKey containerKey childVariables else []
      return (seeded ++ propagated,
        [.completeAdHocCallActivityTool instanceKey childEik elementId containerKey innerKey outputUpdates])

/-- `complete_call_activity`. -/
def completeCallActivity (e : Engine) (instanceKey eik : Key) (elementId : ElementId) (childVariables : Vars) :
    StepM Outcome := do
  if (e.state.elementIdOfInstance instanceKey eik).isNone then return ([], [])
  match e.state.adhocToolContainerOf instanceKey eik with
  | some (containerKey, innerKey) =>
    e.completeAdhocCallActivityTool instanceKey eik elementId containerKey innerKey childVariables
  | none =>
    let propagateAllChild := match e.state.elementKind instanceKey elementId with
      | some (.callActivity _ _ propagateAllChild) => propagateAllChild
      | _ => true
    let scope := e.state.scopeOf instanceKey eik
    match evalIoMappingsIn childVariables (e.state.ioOutputs instanceKey elementId) with
    | .error failure => e.parkIoMapping instanceKey eik elementId failure (.callActivityCompletion childVariables)
    | .ok updates =>
      let propagated := if propagateAllChild then childVariables else ∅
      if scope ≠ 0 ∧ e.state.isMiChild instanceKey scope elementId then
        e.completeMiChild instanceKey eik elementId scope (some (propagated.extend updates))
      else
        let (flows, steps) := e.state.takeAllFlows instanceKey elementId scope
        return (completion instanceKey eik elementId ++ e.state.cancelBoundariesOn eik ++
          e.outputWrites instanceKey scope propagated ++ e.outputWrites instanceKey scope updates ++ flows, steps)

end Engine

end NanoBpm
