import NanoBpm.Event

/-!
# The applier (`engine-core/src/state/apply/`)

`apply` is the sole mutator of `State`: it dispatches each event to the applier of its family, one
function per file of the source. `get_mut` on a missing key is a no-op, which `ExtTreeMap.modify` is.
-/

namespace NanoBpm

/-! ## Processes (`apply/process.rs`) -/

/-- The `>=` guard every latest-by-id index uses. -/
def isLatest (version : Int) (existing : Option Int) : Bool :=
  match existing with
  | none => true
  | some v => v ≤ version

def applyProcess (s : State) : Event → State
  | .processDeployed _ processDefinitionKey version process =>
    let deployed : DeployedProcess := ⟨processDefinitionKey, version, process.normalizeLegacyAgentTasks⟩
    { s with
      processVersions := s.processVersions.insert processDefinitionKey deployed
      processes :=
        if isLatest version (s.processes[process.id]?.map (·.version)) then s.processes.insert process.id deployed
        else s.processes }
  | _ => s

/-! ## Decisions, forms, generic resources (`apply/resource.rs`) -/

def applyResource (s : State) : Event → State
  | .decisionRequirementsDeployed _ key version drg =>
    let deployed : DeployedDrg := ⟨key, version, drg⟩
    { s with
      decisionRequirementsVersions := s.decisionRequirementsVersions.insert key deployed
      decisionRequirements :=
        if isLatest version (s.decisionRequirements[drg.id]?.map (·.version)) then
          s.decisionRequirements.insert drg.id deployed
        else s.decisionRequirements }
  | .decisionDeployed _ requirementsKey key decisionId decisionName version =>
    -- the graph is the one deployed under exactly this key; without it the event has no effect
    match s.decisionRequirementsVersions[requirementsKey]? with
    | none => s
    | some d =>
      let deployed : DeployedDecision := ⟨key, version, requirementsKey, decisionId, decisionName, d.drg⟩
      { s with
        decisionVersions := s.decisionVersions.insert key deployed
        decisions :=
          if isLatest version (s.decisions[decisionId]?.map (·.version)) then s.decisions.insert decisionId deployed
          else s.decisions }
  | .formDeployed _ key version formId resourceName schema =>
    let deployed : DeployedForm := ⟨key, version, formId, resourceName, schema⟩
    { s with
      formVersions := s.formVersions.insert key deployed
      forms :=
        if isLatest version (s.forms[formId]?.map (·.version)) then s.forms.insert formId deployed else s.forms }
  | .genericResourceDeployed _ key version resourceId resourceName content =>
    let deployed : DeployedResource := ⟨key, version, resourceId, resourceName, content⟩
    { s with
      resourceVersions := s.resourceVersions.insert key deployed
      resources :=
        if isLatest version (s.resources[resourceId]?.map (·.version)) then s.resources.insert resourceId deployed
        else s.resources }
  | _ => s

/-! ## Instances (`apply/instance.rs`) -/

/-- `non_terminal_process_id` (`instance.rs:14`). -/
def nonTerminalProcessId (s : State) (instanceKey : Key) : Option String :=
  match s.instances[instanceKey]? with
  | some i => if i.state = .completed ∨ i.state = .terminated then none else some i.processId
  | none => none

/-- `decrement_inflight_by_process` (`instance.rs:32`). -/
def decrementInflightByProcess (s : State) : Option String → State
  | none => s
  | some pid =>
    match s.inflightByProcess[pid]? with
    | none => s
    | some count =>
      { s with
        inflightByProcess :=
          if count - 1 = 0 then s.inflightByProcess.erase pid else s.inflightByProcess.insert pid (count - 1) }

/-- `*map.entry(k).or_insert(0) += 1`. -/
def bump (m : StrMap Nat) (k : String) : StrMap Nat := m.insert k ((m[k]?.getD 0) + 1)

/-- The runtime bookkeeping both terminal transitions clear (`instance.rs:262-290`, `:470-500`). -/
def ProcessInstance.clearRuntime (i : ProcessInstance) : ProcessInstance :=
  { i with
    suspendedAt := none
    active := ∅
    scopes := ∅
    multiInstances := ∅
    adhocInstances := ∅
    joinCounts := ∅
    joinFlowArrivals := ∅
    joinInstances := ∅
    compensable := []
    compensationWaits := ∅
    vars := ∅
    variablesSpilled := false
    scopeVariables := ∅
    scopeParents := ∅ }

/-- `log.partition_point(|r| r.order_key() <= record.order_key())` followed by the insertion. -/
def insertHistory (record : AgentHistoryRecord) : List AgentHistoryRecord → List AgentHistoryRecord
  | [] => [record]
  | r :: rs => if r.orderLe record then r :: insertHistory record rs else record :: r :: rs

/-- The settle loop of `AgentHistoryCommitted`/`AgentHistoryDiscarded`: only pending turns move. -/
def settleHistory (keys : List Key) (status : AgentHistoryCommitStatus) (log : List AgentHistoryRecord) :
    List AgentHistoryRecord :=
  log.map fun r =>
    if r.commitStatus = .pending ∧ r.agentHistoryKey ∈ keys then { r with commitStatus := status } else r

/-- The renaming a migration applies: `element_mappings` collected into a map (the last entry of a
source id wins), identity elsewhere. -/
def remapId (mappings : List (ElementId × ElementId)) (id : ElementId) : ElementId :=
  ((mappings.reverse.find? (·.1 == id)).map (·.2)).getD id

/-- The instance-local part of `ProcessInstanceMigrated` (`instance.rs:314-381`). -/
def ProcessInstance.migrate (i : ProcessInstance) (targetProcessId : String) (targetKey : Key)
    (remap : ElementId → ElementId) : ProcessInstance :=
  { i with
    processId := targetProcessId
    processDefinitionKey := targetKey
    active := i.active.map fun _ e => remap e
    joinCounts := i.joinCounts.foldl (fun acc e c => acc.insert (remap e) ((acc[remap e]?.getD 0) + c)) ∅
    joinFlowArrivals := i.joinFlowArrivals.foldl (fun acc e arrivals =>
      let merged := (arrivals.remap remap).entries.foldl (fun m (f, c) => m.add f c) (acc[remap e]?.getD {})
      acc.insert (remap e) merged) ∅
    joinInstances := i.joinInstances.foldl (fun acc e eik =>
      acc.insert (remap e) (match acc[remap e]? with | some old => min old eik | none => eik)) ∅ }

def applyInstance (s : State) : Event → State
  | .processInstanceCreated instanceKey processId vars createdAt tags businessId processDefinitionKey _
      parentInstance parentElement =>
    let pinned := if processDefinitionKey ≠ 0 then processDefinitionKey
      else (s.processes[processId]?.map (·.key)).getD 0
    { s with
      inflightByProcess := bump s.inflightByProcess processId
      createdByProcess := bump s.createdByProcess processId
      instances := s.instances.insert instanceKey
        { key := instanceKey, processId, processDefinitionKey := pinned, createdAt, tags, businessId, vars,
          parentProcessInstanceKey := parentInstance, parentElementInstanceKey := parentElement } }
  | .variablesUpdated instanceKey vars =>
    s.modifyInstance instanceKey fun i => { i with vars := i.vars.extend vars }
  | .scopedVariablesUpdated instanceKey scopeKey vars =>
    s.modifyInstance instanceKey fun i =>
      if scopeKey = 0 ∨ scopeKey = instanceKey then { i with vars := i.vars.extend vars }
      else { i with scopeVariables :=
        i.scopeVariables.insert scopeKey (Vars.extend (i.scopeVariables[scopeKey]?.getD ∅) vars) }
  | .variableScopeCreated instanceKey scopeKey parentScopeKey =>
    s.modifyInstance instanceKey fun i =>
      { i with
        scopeParents := i.scopeParents.insert scopeKey parentScopeKey
        scopeVariables := i.scopeVariables.insert scopeKey (i.scopeVariables[scopeKey]?.getD ∅) }
  | .variableScopeDestroyed instanceKey scopeKey =>
    s.modifyInstance instanceKey fun i =>
      { i with scopeParents := i.scopeParents.erase scopeKey, scopeVariables := i.scopeVariables.erase scopeKey }
  | .agentInstanceCreated instanceKey a | .agentInstanceUpdated instanceKey a
  | .agentInstanceCompleted instanceKey a =>
    s.modifyInstance instanceKey fun i =>
      { i with agentInstances := i.agentInstances.insert a.agentInstanceKey a }
  | .agentHistoryCreated instanceKey record =>
    s.modifyInstance instanceKey fun i =>
      let log := i.agentHistory[record.agentInstanceKey]?.getD []
      { i with agentHistory := i.agentHistory.insert record.agentInstanceKey (insertHistory record log) }
  | .agentHistoryCommitted instanceKey agentKey keys =>
    s.modifyInstance instanceKey fun i =>
      { i with agentHistory := i.agentHistory.modify agentKey (settleHistory keys .committed) }
  | .agentHistoryDiscarded instanceKey agentKey keys =>
    s.modifyInstance instanceKey fun i =>
      { i with agentHistory := i.agentHistory.modify agentKey (settleHistory keys .discarded) }
  | .processInstanceCompleted instanceKey =>
    let terminalPid := nonTerminalProcessId s instanceKey
    decrementInflightByProcess
      (s.modifyInstance instanceKey fun i => { i.clearRuntime with state := .completed }) terminalPid
  | .processInstanceTerminating instanceKey =>
    s.modifyInstance instanceKey fun i => { i with state := .terminating }
  | .processInstanceSuspended instanceKey t =>
    s.modifyInstance instanceKey fun i => { i with state := .suspended, suspendedAt := some t }
  | .processInstanceResumed instanceKey =>
    s.modifyInstance instanceKey fun i => { i with state := .active, suspendedAt := none }
  | .processInstanceMigrated instanceKey targetProcessId targetKey mappings =>
    let remap := remapId mappings
    let sourceProcessId := s.instances[instanceKey]?.map (·.processId)
    let s := s.modifyInstance instanceKey (·.migrate targetProcessId targetKey remap)
    let s := if sourceProcessId = some targetProcessId then s
      else
        let s := decrementInflightByProcess s sourceProcessId
        { s with inflightByProcess := bump s.inflightByProcess targetProcessId }
    { s with
      jobs := s.jobs.map fun _ j => if j.instanceKey = instanceKey then { j with elementId := remap j.elementId } else j
      userTasks := s.userTasks.map fun _ t =>
        if t.instanceKey = instanceKey then { t with elementId := remap t.elementId } else t
      timers := s.timers.map fun _ t =>
        if t.instanceKey = instanceKey then { t with elementId := remap t.elementId } else t
      messageSubscriptions := s.messageSubscriptions.map fun _ x =>
        if x.instanceKey = instanceKey then { x with elementId := remap x.elementId } else x
      signalSubscriptions := s.signalSubscriptions.map fun _ x =>
        if x.instanceKey = instanceKey then { x with elementId := remap x.elementId } else x
      conditionalSubscriptions := s.conditionalSubscriptions.map fun _ x =>
        if x.instanceKey = instanceKey then { x with elementId := remap x.elementId } else x
      incidents := s.incidents.map fun _ i =>
        if i.instanceKey = instanceKey then { i with elementId := remap i.elementId } else i }
  | .processInstanceTerminated instanceKey =>
    let terminalPid := nonTerminalProcessId s instanceKey
    let open_ := (s.instances[instanceKey]?.map (·.incidents)).getD []
    let incidents := open_.foldl (fun m k => m.modify k fun i => { i with state := .resolved }) s.incidents
    decrementInflightByProcess
      ({ s with incidents }.modifyInstance instanceKey fun i =>
        { i.clearRuntime with state := .terminated, incidents := [] }) terminalPid
  | _ => s

/-! ## Elements (`apply/element.rs`) -/

def applyElement (s : State) : Event → State
  | .elementActivated instanceKey eik elementId scope =>
    s.modifyInstance instanceKey fun i =>
      { i with
        active := i.active.insert eik elementId
        scopes := if scope ≠ 0 then i.scopes.insert eik scope else i.scopes }
  | .elementCompleted instanceKey eik _ =>
    s.modifyInstance instanceKey fun i =>
      { i with
        active := i.active.erase eik
        scopes := i.scopes.erase eik
        scopeParents := i.scopeParents.erase eik
        scopeVariables := i.scopeVariables.erase eik }
  | .parallelJoinOpened instanceKey eik elementId =>
    s.modifyInstance instanceKey fun i => { i with joinInstances := i.joinInstances.insert elementId eik }
  | .parallelJoinTokenArrived instanceKey elementId flow =>
    s.modifyInstance instanceKey fun i =>
      match flow with
      | some flow => { i with joinFlowArrivals :=
          i.joinFlowArrivals.insert elementId ((i.joinFlowArrivals[elementId]?.getD {}).record flow) }
      | none => { i with joinCounts := bump i.joinCounts elementId }
  | .parallelJoinReset instanceKey elementId =>
    s.modifyInstance instanceKey fun i =>
      { i with
        joinCounts := i.joinCounts.erase elementId
        joinFlowArrivals := i.joinFlowArrivals.erase elementId
        joinInstances := i.joinInstances.erase elementId }
  | .parallelJoinFired instanceKey elementId =>
    s.modifyInstance instanceKey fun i =>
      { i with
        joinCounts := i.joinCounts.erase elementId
        joinFlowArrivals :=
          match i.joinFlowArrivals[elementId]? with
          | none => i.joinFlowArrivals
          | some arrivals =>
            let left := arrivals.consumeOneEach
            if left.isEmpty then i.joinFlowArrivals.erase elementId else i.joinFlowArrivals.insert elementId left
        joinInstances := i.joinInstances.erase elementId }
  | .compensationSubscriptionCreated instanceKey elementInstanceKey elementId handler scope =>
    s.modifyInstance instanceKey fun i =>
      { i with compensable := i.compensable ++ [⟨elementInstanceKey, elementId, handler, scope⟩] }
  | .compensationTriggered instanceKey throwEik throwElementId scope handlers consumed =>
    s.modifyInstance instanceKey fun i =>
      { i with
        compensable := i.compensable.filter fun c => !consumed.contains c.elementInstanceKey
        compensationWaits := i.compensationWaits.insert throwEik ⟨throwElementId, scope, handlers⟩ }
  | .compensationHandlerCompleted instanceKey throwEik handlerElementId =>
    s.modifyInstance instanceKey fun i =>
      match i.compensationWaits[throwEik]? with
      | none => i
      | some wait =>
        let pending := wait.pendingHandlers.erase handlerElementId
        if pending.isEmpty then { i with compensationWaits := i.compensationWaits.erase throwEik }
        else { i with compensationWaits := i.compensationWaits.insert throwEik { wait with pendingHandlers := pending } }
  | .scopedCompensationCleared instanceKey scopes =>
    s.modifyInstance instanceKey fun i =>
      { i with
        compensable := i.compensable.filter fun c => !scopes.contains c.scope
        compensationWaits := i.compensationWaits.filter fun _ w => !scopes.contains w.scope }
  | .multiInstanceActivated instanceKey bodyKey elementId sequential items inputElement outputCollection
      outputElement completionCondition =>
    s.modifyInstance instanceKey fun i =>
      { i with
        multiInstances := i.multiInstances.insert bodyKey
          { elementId, sequential, items, outputCollection, outputElement, completionCondition, inputElement,
            outputValues := List.replicate items.length none } }
  | .multiInstanceChildActivated instanceKey bodyKey childKey index localVariables =>
    s.modifyInstance instanceKey fun i =>
      { i with
        scopeParents := i.scopeParents.insert childKey bodyKey
        scopeVariables := i.scopeVariables.insert childKey localVariables
        multiInstances := i.multiInstances.modify bodyKey fun mi =>
          { mi with
            active := mi.active.insert childKey
            childIndices := mi.childIndices.insert childKey index
            spawned := max mi.spawned (index + 1) } }
  | .multiInstanceChildCompleted instanceKey bodyKey childKey index output =>
    s.modifyInstance instanceKey fun i =>
      { i with
        multiInstances := i.multiInstances.modify bodyKey fun mi =>
          { mi with
            active := mi.active.erase childKey
            childIndices := mi.childIndices.erase childKey
            outputValues := mi.outputValues.set index output } }
  | .multiInstanceCompleted instanceKey bodyKey =>
    s.modifyInstance instanceKey fun i => { i with multiInstances := i.multiInstances.erase bodyKey }
  | .adHocActivated instanceKey containerKey elementId outputCollection outputElement =>
    s.modifyInstance instanceKey fun i =>
      { i with adhocInstances := i.adhocInstances.insert containerKey { elementId, outputCollection, outputElement } }
  | .adHocToolActivated instanceKey containerKey childKey localVariables =>
    s.modifyInstance instanceKey fun i =>
      { i with
        scopeParents := i.scopeParents.insert childKey containerKey
        scopeVariables := i.scopeVariables.insert childKey localVariables
        adhocInstances := i.adhocInstances.modify containerKey fun a => { a with active := a.active.insert childKey } }
  | .adHocToolCompleted instanceKey containerKey childKey output =>
    s.modifyInstance instanceKey fun i =>
      let name := (i.adhocInstances[containerKey]?).bind (·.outputCollection)
      { i with
        adhocInstances := i.adhocInstances.modify containerKey fun a => { a with active := a.active.erase childKey }
        scopeVariables :=
          match name, output with
          | some name, some value => i.scopeVariables.modify containerKey fun m => m.modify name fun
              | .list items => .list (items ++ [value])
              | v => v
          | _, _ => i.scopeVariables }
  | .adHocCompletionConditionFulfilled instanceKey containerKey =>
    s.modifyInstance instanceKey fun i =>
      { i with
        adhocInstances := i.adhocInstances.modify containerKey fun a =>
          { a with completionConditionFulfilled := true } }
  | .adHocIterated instanceKey containerKey =>
    s.modifyInstance instanceKey fun i =>
      { i with
        adhocInstances := i.adhocInstances.modify containerKey fun a =>
          { a with iterations := min (a.iterations + 1) (2 ^ 32 - 1) } }
  | .adHocCompleted instanceKey containerKey _ =>
    s.modifyInstance instanceKey fun i => { i with adhocInstances := i.adhocInstances.erase containerKey }
  | _ => s

/-! ## Jobs and incidents (`apply/job.rs`) -/

/-- The three job-creating arms: insert, index, link to the instance (`job.rs:8-138`). -/
def insertJob (s : State) (job : Job) : State :=
  (({ s with jobs := s.jobs.insert job.key job }).resyncJobIndex job.key).linkJob job.instanceKey job.key

/-- Releasing a lock: the fields every arm that unlocks a job clears. -/
def Job.unlock (j : Job) : Job := { j with deadline := none, activatedAt := none, activationTimeout := none }

def applyJob (s : State) : Event → State
  | .jobCreated key instanceKey elementInstanceKey elementId jobType createdAt priority retries =>
    insertJob s { key, instanceKey, elementInstanceKey, elementId, jobType, retries, priority, createdAt }
  | .executionListenerJobCreated key instanceKey elementInstanceKey elementId jobType eventType index scope
      createdAt retries =>
    insertJob s { key, instanceKey, elementInstanceKey, elementId, jobType, retries, createdAt
                  priority := defaultJobPriority, kind := .executionListener eventType index scope }
  | .taskListenerJobCreated key instanceKey elementInstanceKey elementId userTaskKey jobType eventType index
      createdAt retries =>
    insertJob s { key, instanceKey, elementInstanceKey, elementId, jobType, retries, createdAt
                  priority := defaultJobPriority, kind := .taskListener eventType index userTaskKey }
  | .jobActivated key _ durable worker deadline activatedAt _ leaseToken =>
    (s.modifyJob key fun j =>
      { j with
        state := .activated
        worker := (some worker).filter (! ·.isEmpty)
        deadline := some deadline
        activatedAt
        activationTimeout := activatedAt.map (deadline - ·)
        leaseToken
        durableActivation := j.durableActivation || durable
        activated := true }).resyncJobIndex key
  | .jobLockExpired key _ =>
    (s.modifyJob key fun j =>
      if j.state = .activated then { j.unlock with state := .created, worker := none } else j).resyncJobIndex key
  | .jobFailed key _ retries worker =>
    (s.modifyJob key fun j =>
      if 0 < retries then { j.unlock with retries, worker := none, state := .created }
      -- a park keeps the activating worker for the incident's attribution
      else { j.unlock with retries, worker := worker <|> j.worker, state := .failed }).resyncJobIndex key
  | .jobErrorThrown key _ _ worker =>
    (s.modifyJob key fun j =>
      { j.unlock with state := .errored, leaseToken := none, worker := worker <|> j.worker }).resyncJobIndex key
  | .jobCompleted key .. =>
    (s.modifyJob key fun j => { j.unlock with state := .completed, worker := none }).resyncJobIndex key
  | .incidentRaised incidentKey instanceKey elementInstanceKey elementId kind redrive reason jobKey createdAt =>
    let incident : Incident :=
      { key := incidentKey, instanceKey, elementInstanceKey, elementId, kind, redrive, reason, jobKey, createdAt }
    { s with incidents := s.incidents.insert incidentKey incident }.modifyInstance instanceKey fun i =>
      { i with incidents := i.incidents ++ [incidentKey] }
  | .jobRetriesUpdated key _ retries _ => s.modifyJob key fun j => { j with retries }
  | .jobTimeoutUpdated key _ deadline _ => s.modifyJob key fun j => { j with deadline := some deadline }
  | .incidentResolved incidentKey instanceKey jobKey resolvedAt operationReference =>
    let s := { s with incidents := s.incidents.modify incidentKey fun i =>
      { i with state := .resolved, resolvedAt := some resolvedAt, operationReference } }
    let s := s.modifyInstance instanceKey fun i => { i with incidents := i.incidents.filter (· ≠ incidentKey) }
    match jobKey with
    | none => s
    | some jobKey =>
      -- only a parked job is returned to the pool: a cancelled one must not be resurrected
      if s.jobs[jobKey]?.map (·.state) = some .failed then
        (s.modifyJob jobKey fun j =>
          { j.unlock with state := .created, worker := none, leaseToken := none }).resyncJobIndex jobKey
      else s
  | .jobCanceled key _ =>
    (s.modifyJob key fun j =>
      { j.unlock with state := .canceled, worker := none, leaseToken := none }).resyncJobIndex key
  | _ => s

/-! ## User tasks (`apply/user_task.rs`) -/

def modifyUserTask (s : State) (key : Key) (f : UserTask → UserTask) : State :=
  { s with userTasks := s.userTasks.modify key f }

def applyUserTask (s : State) : Event → State
  | .userTaskTransitionDeferred key _ pending => modifyUserTask s key fun t => { t with pending := some pending }
  | .userTaskCorrectionsApplied key _ corrections =>
    modifyUserTask s key fun t =>
      { t with pending := t.pending.map fun p => { p with corrections := p.corrections.merge corrections } }
  | .userTaskTransitionResolved key _ _ => modifyUserTask s key fun t => { t with pending := none }
  | .userTaskCreated key instanceKey elementInstanceKey elementId createdAt assignee candidateGroups
      candidateUsers dueDate followUpDate priority formKey externalFormReference =>
    let task : UserTask :=
      { key, instanceKey, elementInstanceKey, elementId, assignee, candidateGroups, candidateUsers, dueDate,
        followUpDate, priority, formKey, externalFormReference, createdAt }
    { s with userTasks := s.userTasks.insert key task }
  | .userTaskAssigned key _ assignee => modifyUserTask s key fun t => { t with assignee }
  | .userTaskUpdated key _ candidateGroups candidateUsers dueDate followUpDate priority =>
    modifyUserTask s key fun t =>
      { t with
        candidateGroups := candidateGroups.getD t.candidateGroups
        candidateUsers := candidateUsers.getD t.candidateUsers
        dueDate := dueDate.getD t.dueDate
        followUpDate := followUpDate.getD t.followUpDate
        priority := priority.getD t.priority }
  | .userTaskCompleted key _ => modifyUserTask s key fun t => { t with state := .completed }
  | .userTaskCanceled key _ => modifyUserTask s key fun t => { t with state := .canceled, pending := none }
  | _ => s

/-! ## Timers (`apply/timer.rs`) -/

def applyTimer (s : State) : Event → State
  | .timerCreated key instanceKey elementInstanceKey elementId dueAt kind =>
    { s with timers := s.timers.insert key { key, instanceKey, elementInstanceKey, elementId, dueAt, kind } }
  | .timerTriggered key .. => { s with timers := s.timers.modify key fun t => { t with state := .triggered } }
  | .timerCanceled key .. => { s with timers := s.timers.modify key fun t => { t with state := .canceled } }
  | .processStartTimerArmed timerKey processDefinitionKey processId startElementId dueAt intervalMillis repeating =>
    { s with
      startTimers := s.startTimers.insert timerKey
        ⟨timerKey, processDefinitionKey, processId, startElementId, some dueAt, intervalMillis, repeating⟩ }
  | .processStartTimerFired timerKey nextDueAt =>
    { s with startTimers := s.startTimers.modify timerKey fun t => { t with dueAt := nextDueAt } }
  | _ => s

/-! ## Subscriptions (`apply/subscription.rs`) -/

/-- Settling a correlated message subscription: a non-interrupting boundary stays open. -/
def settleMessage (s : State) (key : Key) : State :=
  { s with
    messageSubscriptions := s.messageSubscriptions.modify key fun x =>
      if x.kind.isNonInterrupting then x else { x with state := .correlated } }

def cancelMessage (s : State) (key : Key) : State :=
  { s with messageSubscriptions := s.messageSubscriptions.modify key fun x => { x with state := .canceled } }

def applySubscription (s : State) : Event → State
  | .messageSubscriptionCreated key instanceKey elementInstanceKey elementId messageName correlationKey kind =>
    { s with
      messageSubscriptions := s.messageSubscriptions.insert key
        ⟨key, instanceKey, elementInstanceKey, elementId, messageName, correlationKey, .opened, kind⟩ }
  | .messageSubscriptionOpening key instanceKey elementInstanceKey elementId messageName correlationKey kind =>
    { s with
      messageSubscriptions := s.messageSubscriptions.insert key
        ⟨key, instanceKey, elementInstanceKey, elementId, messageName, correlationKey, .opening, kind⟩ }
  | .messageCorrelated key .. | .remoteMessageCorrelation key .. => settleMessage s key
  | .messageSubscriptionCanceled key .. | .messageSubscriptionClosing key .. => cancelMessage s key
  | .signalSubscriptionCreated key instanceKey elementInstanceKey elementId signalName kind =>
    { s with
      signalSubscriptions := s.signalSubscriptions.insert key
        ⟨key, instanceKey, elementInstanceKey, elementId, signalName, .opened, kind⟩ }
  | .signalCorrelated key .. =>
    { s with
      signalSubscriptions := s.signalSubscriptions.modify key fun x =>
        if x.kind.isNonInterrupting then x else { x with state := .correlated } }
  | .signalSubscriptionCanceled key .. =>
    { s with signalSubscriptions := s.signalSubscriptions.modify key fun x => { x with state := .canceled } }
  | .conditionalSubscriptionCreated key instanceKey elementInstanceKey elementId condition referencedVars kind =>
    { s with
      conditionalSubscriptions := s.conditionalSubscriptions.insert key
        ⟨key, instanceKey, elementInstanceKey, elementId, condition, referencedVars, .opened, kind⟩ }
  | .conditionalTriggered key .. =>
    { s with
      conditionalSubscriptions := s.conditionalSubscriptions.modify key fun x =>
        if x.kind.isNonInterrupting then x else { x with state := .correlated } }
  | .conditionalSubscriptionCanceled key .. =>
    { s with conditionalSubscriptions := s.conditionalSubscriptions.modify key fun x => { x with state := .canceled } }
  | .messageStartSubscriptionCreated processDefinitionKey processId messageName startElementId =>
    { s with
      messageStartSubscriptions := s.messageStartSubscriptions.insert messageName
        ⟨processDefinitionKey, processId, messageName, startElementId⟩ }
  | _ => s

/-! ## The dispatcher (`apply/mod.rs:30`) -/

/-- `state::apply`. -/
def apply (s : State) (e : Event) : State :=
  match e with
  | .deploymentCreated .. | .processDeployed .. => applyProcess s e
  | .decisionRequirementsDeployed .. | .decisionDeployed .. | .formDeployed .. | .genericResourceDeployed ..
  | .decisionEvaluated .. | .decisionInstanceDeleted .. => applyResource s e
  | .processInstanceCreated .. | .variablesUpdated .. | .scopedVariablesUpdated .. | .variableScopeCreated ..
  | .variableScopeDestroyed .. | .agentInstanceCreated .. | .agentInstanceUpdated .. | .agentInstanceCompleted ..
  | .agentHistoryCreated .. | .agentHistoryCommitted .. | .agentHistoryDiscarded .. | .agentHistoryDeduplicated ..
  | .processInstanceCompleted .. | .processInstanceTerminating .. | .processInstanceSuspended ..
  | .processInstanceResumed .. | .processInstanceMigrated .. | .processInstanceTerminated ..
  | .startInstanceDispatched .. => applyInstance s e
  | .elementActivating .. | .elementCompleting .. | .elementActivated .. | .elementCompleted ..
  | .sequenceFlowTaken .. | .parallelJoinOpened .. | .parallelJoinTokenArrived .. | .parallelJoinReset ..
  | .parallelJoinFired .. | .compensationSubscriptionCreated .. | .compensationTriggered ..
  | .compensationHandlerCompleted .. | .scopedCompensationCleared .. | .multiInstanceActivated ..
  | .multiInstanceChildActivated .. | .multiInstanceChildCompleted .. | .multiInstanceCompleted ..
  | .adHocActivated .. | .adHocToolActivated .. | .adHocToolCompleted .. | .adHocCompletionConditionFulfilled ..
  | .adHocIterated .. | .adHocCompleted .. => applyElement s e
  | .jobCreated .. | .executionListenerJobCreated .. | .taskListenerJobCreated .. | .jobActivated ..
  | .jobLockExpired .. | .jobFailed .. | .jobErrorThrown .. | .jobCompleted .. | .incidentRaised ..
  | .jobRetriesUpdated .. | .jobTimeoutUpdated .. | .incidentResolved .. | .jobCanceled .. => applyJob s e
  | .userTaskTransitionDeferred .. | .userTaskCorrectionsApplied .. | .userTaskTransitionResolved ..
  | .userTaskCreated .. | .userTaskAssigned .. | .userTaskUpdated .. | .userTaskCompleted ..
  | .userTaskCanceled .. => applyUserTask s e
  | .timerCreated .. | .timerTriggered .. | .timerCanceled .. | .processStartTimerArmed ..
  | .processStartTimerFired .. => applyTimer s e
  | .messagePublished .. | .messageSubscriptionCreated .. | .messageSubscriptionOpening .. | .messageCorrelated ..
  | .messageSubscriptionCanceled .. | .signalSubscriptionCreated .. | .signalCorrelated ..
  | .signalSubscriptionCanceled .. | .conditionalSubscriptionCreated .. | .conditionalTriggered ..
  | .conditionalSubscriptionCanceled .. | .signalBroadcast .. | .messageSubscriptionClosing ..
  | .remoteMessageCorrelation .. | .messageStartSubscriptionCreated .. => applySubscription s e

/-- The dispatcher runs one of the eight family appliers: what holds of each holds of `apply`. -/
theorem apply_dispatch {P : State → Prop} {s : State} {e : Event} (process : P (applyProcess s e))
    (resource : P (applyResource s e)) (instance_ : P (applyInstance s e)) (element : P (applyElement s e))
    (job : P (applyJob s e)) (userTask : P (applyUserTask s e)) (timer : P (applyTimer s e))
    (subscription : P (applySubscription s e)) : P (apply s e) := by
  cases e <;> assumption

/-- Applying a log: the fold that `replay` and `apply_replayed_events` run. -/
def applyAll (s : State) (events : List Event) : State := events.foldl apply s

@[simp] theorem applyAll_nil (s : State) : applyAll s [] = s := rfl

@[simp] theorem applyAll_cons (s : State) (e : Event) (es : List Event) :
    applyAll s (e :: es) = applyAll (apply s e) es := rfl

theorem applyAll_append (s : State) (xs ys : List Event) :
    applyAll s (xs ++ ys) = applyAll (applyAll s xs) ys := by
  simp [applyAll, List.foldl_append]

end NanoBpm
