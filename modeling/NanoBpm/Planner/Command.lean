import NanoBpm.Planner.Drain

/-!
# Planning a command (`engine-core/src/engine/mod.rs:791-1090`, `:1320-1835`, `:1839-4390`, `:12156-12282`)

Every command is checked and then carried out. A check reads the engine and may refuse the command; what is
carried out is a plan. `Cmd` allows the two in any order and keeps what was done before a refusal.
-/

namespace NanoBpm

/-- A fallible part of `plan_command_at`: on an error, what was done before it stays done. -/
def Cmd (α : Type) := PlanState → Except EngineError α × PlanState

namespace Cmd

instance : Monad Cmd where
  pure a := fun s => (.ok a, s)
  bind c f := fun s =>
    match c s with
    | (.ok a, s) => f a s
    | (.error e, s) => (.error e, s)

/-- A check on the engine as it is. -/
def check {α : Type} (f : Engine → Except EngineError α) : Cmd α := fun s => (f s.engine, s)

/-- A plan carried out. -/
def plan {α : Type} (p : Plan α) : Cmd α := fun s => (.ok (p.run s).1, (p.run s).2)

/-- A check passes and the rest runs from the same state, or it refuses and nothing was done. -/
theorem check_bind_cases {α β : Type} (f : Engine → Except EngineError α) (c : α → Cmd β) (s : PlanState) :
    (∃ a, f s.engine = .ok a ∧ (check f >>= c) s = c a s) ∨
      ∃ err, f s.engine = .error err ∧ (check f >>= c) s = (.error err, s) := by
  cases hf : f s.engine with
  | ok a => exact .inl ⟨a, rfl, by simp only [bind, check, hf]⟩
  | error err => exact .inr ⟨err, rfl, by simp only [bind, check, hf]⟩

end Cmd

/-- `ok_or`. -/
def okOr {α : Type} (err : EngineError) : Option α → Except EngineError α
  | some a => .ok a
  | none => .error err

/-- `if cond { return Err(err) }`. -/
def refuseIf (cond : Bool) (err : EngineError) : Except EngineError Unit := if cond then .error err else .ok ()

variable [Feel]

open Plan

/-! ## Deployments (`engine/mod.rs:1441-1740`) -/

def checkStartEvents (processes : List ProcessDefinition) : Except EngineError Unit :=
  processes.forM fun p => refuseIf (!p.elements.contains p.startEvent) (.noStartEvent p.id)

/-- `==` on definitions. -/
def ProcessDefinition.same (a b : ProcessDefinition) : Bool :=
  a.id == b.id && a.name == b.name && a.elements.toList == b.elements.toList && a.startEvent == b.startEvent &&
    a.xml == b.xml && a.adhoc == b.adhoc && a.startFormId == b.startFormId

def State.nextVersion (s : State) (processId : String) : Int := ((s.processes[processId]?).map (·.version + 1)).getD 1

/-- A process-level message or timer start, with its timer definition. -/
def ProcessDefinition.typedStarts (p : ProcessDefinition) : List Element :=
  (p.elements.vals.filter fun el => el.parent.isNone && match el.kind with
    | .messageStartEvent _ | .timerStartEvent .. => true
    | _ => false).insertionSort fun a b => a.id ≤ b.id

def armStart (processDefinitionKey : Key) (processId : String) (el : Element) : Plan Unit := do
  match el.kind with
  | .messageStartEvent messageName =>
    emit (.messageStartSubscriptionCreated processDefinitionKey processId (resolveEventName ∅ messageName) el.id)
  | .timerStartEvent intervalMillis repeating =>
    let timerKey ← mintKey
    let e ← self
    let (dueAt, intervalMillis) := resolveTimer ∅ el.timer e.now intervalMillis
    emit (.processStartTimerArmed timerKey processDefinitionKey processId el.id dueAt intervalMillis repeating)
  | _ => return

/-- `deploy`, after its checks. -/
def deployProcesses (processes : List ProcessDefinition) : Plan Unit := do
  let deploymentKey ← mintKey
  emit (.deploymentCreated deploymentKey)
  processes.forM fun process => do
    let e ← self
    if !(e.state.processes[process.id]?.any (·.definition.same process)) then
      let version := e.state.nextVersion process.id
      let processDefinitionKey ← mintKey
      emit (.processDeployed deploymentKey processDefinitionKey version process)
      process.typedStarts.forM (armStart processDefinitionKey process.id)

def deploy (processes : List ProcessDefinition) : Cmd Unit := do
  let processes := processes.map (·.normalizeLegacyAgentTasks)
  Cmd.check fun _ => checkStartEvents processes
  Cmd.plan (deployProcesses processes)

def deployDecisions (graphs : List DecisionRequirementsGraph) : Plan Unit := do
  let deploymentKey ← mintKey
  emit (.deploymentCreated deploymentKey)
  graphs.forM fun drg => do
    let e ← self
    if !(e.state.decisionRequirements[drg.id]?.any (·.drg == drg)) then
      let version := (e.state.decisionRequirements[drg.id]?.map (·.version + 1)).getD 1
      let decisionRequirementsKey ← mintKey
      emit (.decisionRequirementsDeployed deploymentKey decisionRequirementsKey version drg)
      drg.decisions.forM fun decision => do
        let version := ((← self).state.decisions[decision.id]?.map (·.version + 1)).getD 1
        let decisionKey ← mintKey
        emit (.decisionDeployed deploymentKey decisionRequirementsKey decisionKey decision.id decision.name version)

def deployForms (forms : List FormResource) : Plan Unit := do
  let deploymentKey ← mintKey
  emit (.deploymentCreated deploymentKey)
  forms.forM fun form => do
    let e ← self
    if !(e.state.forms[form.id]?.any (·.schema == form.schema)) then
      let version := (e.state.forms[form.id]?.map (·.version + 1)).getD 1
      let formKey ← mintKey
      emit (.formDeployed deploymentKey formKey version form.id form.resourceName form.schema)

def deployGenericResources (resources : List GenericResource) : Plan Unit := do
  let deploymentKey ← mintKey
  emit (.deploymentCreated deploymentKey)
  resources.forM fun r => do
    let e ← self
    if !(e.state.resources[r.resourceId]?.any fun x => x.resourceName == r.resourceName && x.content == r.content) then
      let version := (e.state.resources[r.resourceId]?.map (·.version + 1)).getD 1
      let resourceKey ← mintKey
      emit (.genericResourceDeployed deploymentKey resourceKey version r.resourceId r.resourceName r.content)

/-! ## Starting instances (`engine/mod.rs:1320-1435`) -/

def startInstance (processId : String) (startEvent : ElementId) (vars : Vars) (tags : List String)
    (businessId : Option String) (processDefinitionKey : Key) : Plan Unit := do
  let instanceKey ← mintKey
  let e ← self
  let (processDefinitionKey, version) :=
    ((e.state.processVersions[processDefinitionKey]? <|> e.state.processes[processId]?).map fun d =>
      (d.key, d.version)).getD (processDefinitionKey, 0)
  emit (.processInstanceCreated instanceKey processId vars e.now tags businessId processDefinitionKey version
    none none)
  enqueue (.activate instanceKey startEvent 0 none)

def startOrDispatchInstance (processId : String) (startEvent : ElementId) (vars : Vars) (tags : List String)
    (businessId : Option String) : Plan Unit := do
  let e ← self
  if e.numPartitions ≤ 1 then startInstance processId startEvent vars tags businessId 0
  else
    let target := (← nextDispatch) % e.numPartitions
    if target = e.partitionId then startInstance processId startEvent vars tags businessId 0
    else emit (.startInstanceDispatched processId startEvent vars tags businessId target)

/-- The choice of a definition by `CreateInstance`. -/
def chooseProcess (s : State) (processId : String) (processDefinitionKey : Option Key) (version : Option Int) :
    Except EngineError DeployedProcess :=
  okOr (.processNotFound processId) <|
    match processDefinitionKey.filter (· != 0), version.filter (· > 0) with
    | some key, _ => s.processByKey key
    | none, some v => s.processVersion processId v
    | none, none => s.processes[processId]?

/-! ## Ad-hoc turns (`engine/mod.rs:7684-7757`) -/

def validateAdhocActivationTargets (d : AdHocSubProcessDef) (instanceKey : Key) (elements : List AdHocActivateElement) :
    Except EngineError Unit :=
  elements.forM fun a => refuseIf (!d.tools.any (·.elementId == a.elementId)) (.adHocUnknownElement instanceKey a.elementId)

/-- `enqueue_adhoc_turn`. -/
def adhocTurn (e : Engine) (instanceKey containerKey : Key) (elements : List AdHocActivateElement)
    (cancelRemaining : Bool) : List Step :=
  if cancelRemaining then [.completeAdHoc instanceKey containerKey true]
  else
    let alreadyActive := ((e.state.adhocState instanceKey containerKey).map (·.active.size)).getD 0
    (elements.map fun a => .activateAdHocTool instanceKey containerKey a.elementId a.vars) ++
      if alreadyActive + elements.length = 0 then [.completeAdHoc instanceKey containerKey false] else []

/-! ## Jobs -/

/-- `job_activatable` (`engine/mod.rs:13115`). -/
def jobActivatable (job : Job) (now : Nat) : Bool :=
  match job.state with
  | .completed | .failed | .errored | .canceled => false
  | .created => true
  | .activated => job.deadline.any (· ≤ now)

/-- `select_activatable_job_keys` (`api.rs:135`). -/
def selectActivatableJobKeys (e : Engine) (jobType : String) (maxJobs now : Nat) (withLease : Bool) : List Key :=
  ((((e.state.activatableJobs[jobType]?.map (·.toList)).getD []).map (·.2)).filter fun key =>
    e.state.jobs[key]?.any fun job => jobActivatable job now && (withLease || job.leaseToken.isNone) &&
      !e.state.instanceIsSuspended job.instanceKey).take maxJobs

/-- `expire_job_locks` (`api.rs:393`). -/
def expireJobLocks (now : Nat) (durable : Option Bool) : Plan Unit := do
  let s := (← self).state
  let expired := s.activatedJobs.toList.filterMap fun key =>
    s.jobs[key]?.bind fun job =>
      if job.state == .activated && job.deadline.any (· ≤ now) &&
          durable.all (· == s.jobRequiresDurableActivation key) then some (job.key, job.instanceKey) else none
  (expired.insertionSort fun a b => a.1 < b.1 ∨ (a.1 = b.1 ∧ a.2 ≤ b.2)).forM fun (jobKey, instanceKey) =>
    emit (.jobLockExpired jobKey instanceKey)

/-- `validate_job_lease`. -/
def validateJobLease (job : Job) (supplied : Option String) (required : Bool) : Except EngineError Unit :=
  match job.leaseToken.filter (! ·.isEmpty) with
  | none => .ok ()
  | some stored =>
    let supplied := supplied.filter (! ·.isEmpty)
    if supplied.isNone && !required then .ok ()
    else refuseIf (supplied != some stored) (.jobLeaseMismatch job.key)

/-- The job states `CompleteJob`, `FailJob` and `ThrowJobError` refuse. -/
def JobState.isOver : JobState → Bool
  | .completed | .failed | .errored | .canceled => true
  | .created | .activated => false

/-- `UserTaskCorrections::is_empty`. -/
def UserTaskCorrections.isEmpty (c : UserTaskCorrections) : Bool := c == {}

/-- `TaskListenerJobResult` against the listener it answers (`CompleteJob`). -/
def checkTaskListenerResult (s : State) (jobKey : Key) (vars : Vars) (result : TaskListenerJobResult)
    (eventType : TaskListenerEventType) (userTaskKey : Key) : Except EngineError Unit := do
  refuseIf (!vars.isEmpty) (.taskListenerJobWithVariables jobKey)
  refuseIf (result.denied && !result.corrections.isEmpty) (.taskListenerDenyWithCorrections jobKey)
  refuseIf (result.denied && !Engine.taskEventSupportsDeny eventType) (.taskListenerDenyNotSupported jobKey)
  refuseIf (eventType == .creating && result.corrections.assignee.isSome &&
      (s.userTasks[userTaskKey]?.any fun t => t.assignee.isSome || t.pending.any (·.assignee.isSome)))
    (.taskListenerAssigneeCorrectionOnCreating userTaskKey)

def checkCompleteJob (e : Engine) (jobKey : Key) (leaseToken : Option String) (vars : Vars)
    (adhocResult : Option AdHocJobResult) (taskListenerResult : Option TaskListenerJobResult) :
    Except EngineError Job := do
  let job ← okOr (.jobNotFound jobKey) e.state.jobs[jobKey]?
  refuseIf job.state.isOver (.jobNotActive jobKey)
  validateJobLease job leaseToken true
  refuseIf (!e.lenientCompletion && !job.activated) (.jobNotActivated jobKey)
  match job.kind with
  | .taskListener eventType _ userTaskKey =>
    checkTaskListenerResult e.state jobKey vars (taskListenerResult.getD {}) eventType userTaskKey
  | _ => .ok ()
  match adhocResult with
  | none => .ok ()
  | some result =>
    match e.state.adhocDefOf job.instanceKey job.elementId with
    | none => .ok ()
    | some d =>
      validateAdhocActivationTargets d job.instanceKey result.activateElements
      refuseIf (result.completionConditionFulfilled && !result.activateElements.isEmpty)
        (.adHocActivateWithCompletion jobKey)
  return job

/-- What a completed job leads to: the next task listener, the next execution listener, a turn of an ad-hoc
container, or the completion of its element. -/
def continueAfterJob (job : Job) (adhocResult : Option AdHocJobResult)
    (taskListenerResult : Option TaskListenerJobResult) : Plan Unit := do
  match job.kind with
  | .taskListener eventType index userTaskKey =>
    let result := taskListenerResult.getD {}
    if result.denied then
      emit (.userTaskTransitionResolved userTaskKey job.instanceKey (some (result.deniedReason.getD "")))
    else
      if !result.corrections.isEmpty then
        emit (.userTaskCorrectionsApplied userTaskKey job.instanceKey result.corrections)
      enqueue (.advanceTaskListener userTaskKey eventType index)
  | .executionListener eventType index scope =>
    enqueue (.advanceListener job.instanceKey job.elementInstanceKey job.elementId eventType index scope)
  | .bpmnElement =>
    if ((← self).state.adhocDefOf job.instanceKey job.elementId).isSome then
      let result := adhocResult.getD {}
      if result.completionConditionFulfilled then
        enqueue (.completeAdHoc job.instanceKey job.elementInstanceKey true)
      else
        enqueueAll (adhocTurn (← self) job.instanceKey job.elementInstanceKey result.activateElements
          result.cancelRemainingInstances)
    else enqueue (.complete job.instanceKey job.elementInstanceKey job.elementId)

def completeJob (job : Job) (vars : Vars) (adhocResult : Option AdHocJobResult)
    (taskListenerResult : Option TaskListenerJobResult) : Plan Unit := do
  emit (.jobCompleted job.key job.instanceKey job.createdAt job.jobType job.attributionWorker)
  if !vars.isEmpty then
    let e ← self
    let flowScope := e.state.scopeOf job.instanceKey job.elementInstanceKey
    emitAll (e.propagatedUpdates job.instanceKey flowScope vars false)
  continueAfterJob job adhocResult taskListenerResult

/-- `apply_activation_plan`: one job of it; `seen` are the keys already handled. -/
def activateJob (worker : String) (timeout now : Nat) (options : JobActivationOptions) (durable : Bool)
    (jobKey : Key) : Plan Unit := do
  let e ← self
  match e.state.jobs[jobKey]? with
  | none => return
  | some job =>
    let activatable := job.state == .created ||
      (job.state == .activated && !e.state.jobRequiresDurableActivation jobKey)
    if activatable && (options.withLease || job.leaseToken.isNone) && !e.state.instanceIsSuspended job.instanceKey then
      let leaseToken ← if options.withLease then (some ∘ Lease.issue) <$> mintKey else Plan.pure none
      emit (.jobActivated jobKey job.instanceKey durable worker (satAdd now timeout) (some now)
        options.fetchVariables leaseToken)

def applyActivationPlan (jobKeys : List Key) (worker : String) (timeout now : Nat) (options : JobActivationOptions)
    (durable : Bool) : Plan Unit :=
  jobKeys.eraseDups.forM (activateJob worker timeout now options durable)

/-- The checks `FailJob` and `ThrowJobError` share. -/
def checkJobOpen (e : Engine) (jobKey : Key) : Except EngineError Job := do
  let job ← okOr (.jobNotFound jobKey) e.state.jobs[jobKey]?
  refuseIf job.state.isOver (.jobNotActive jobKey)
  return job

def checkFailJob (e : Engine) (jobKey : Key) (leaseToken : Option String) : Except EngineError Job := do
  let job ← checkJobOpen e jobKey
  validateJobLease job leaseToken true
  refuseIf (!e.lenientCompletion && !job.activated) (.jobNotActivated jobKey)
  return job

def failJob (job : Job) (retries : Int) (errorMessage : String) : Plan Unit := do
  let retries := max retries 0
  emit (.jobFailed job.key job.instanceKey retries job.attributionWorker)
  if retries = 0 then
    let incidentKey ← mintKey
    emit (.incidentRaised incidentKey job.instanceKey job.elementInstanceKey job.elementId .jobNoRetries none
      errorMessage (some job.key) (← self).now)

/-- `ThrowJobError` looks at the lease last. -/
def checkThrowJobError (e : Engine) (jobKey : Key) (leaseToken : Option String) : Except EngineError Job := do
  let job ← checkJobOpen e jobKey
  refuseIf (!e.lenientCompletion && !job.activated) (.jobNotActivated jobKey)
  validateJobLease job leaseToken true
  return job

def throwJobError (job : Job) (errorCode errorMessage : String) (vars : Vars) : Plan Unit := do
  emit (.jobErrorThrown job.key job.instanceKey errorCode job.attributionWorker)
  match (← self).state.findCatchingErrorBoundary job.instanceKey job.elementId job.elementInstanceKey errorCode with
  | some (boundaryId, caughtEik, caughtElementId) =>
    let boundaryScope := (← self).state.scopeOf job.instanceKey caughtEik
    if caughtEik ≠ job.elementInstanceKey then terminateSubprocessScope job.instanceKey caughtEik
    emit (.elementCompleting job.instanceKey caughtEik caughtElementId)
    emit (.elementCompleted job.instanceKey caughtEik caughtElementId)
    disarmBoundaries caughtEik
    if !vars.isEmpty then
      emitAll ((← self).propagatedUpdates job.instanceKey boundaryScope vars true)
    enqueue (.activate job.instanceKey boundaryId boundaryScope none)
  | none =>
    let reason := if errorMessage.isEmpty then s!"unhandled BPMN error '{errorCode}'"
      else s!"unhandled BPMN error '{errorCode}': {errorMessage}"
    let incidentKey ← mintKey
    emit (.incidentRaised incidentKey job.instanceKey job.elementInstanceKey job.elementId .unhandledError none
      reason none (← self).now)

/-- The checks of `update_job_properties`. -/
def checkUpdateJob (e : Engine) (jobKey : Key) (retries timeout : Option Int) (leaseToken : Option String) :
    Except EngineError Job := do
  let job ← okOr (.jobNotFound jobKey) e.state.jobs[jobKey]?
  refuseIf (job.state == .completed || job.state == .canceled) (.jobNotActive jobKey)
  validateJobLease job leaseToken false
  refuseIf (retries.any (· < 1)) (.jobUpdateInvalid jobKey "retries must be at least 1")
  refuseIf (timeout.isSome && (job.state != .activated || job.deadline.isNone))
    (.jobUpdateInvalid jobKey "timeout requires an active job deadline")
  return job

/-- `u64::saturating_add_signed`. -/
def satAddSigned (a : Nat) (d : Int) : Nat := min ((a : Int) + d).toNat u64Max

def updateJobProperties (job : Job) (retries timeout operationReference : Option Int) : Plan Unit := do
  match retries with
  | some retries => emit (.jobRetriesUpdated job.key job.instanceKey retries operationReference)
  | none => Plan.pure ()
  match timeout with
  | some timeout =>
    emit (.jobTimeoutUpdated job.key job.instanceKey (satAddSigned (← self).now timeout) operationReference)
  | none => Plan.pure ()

def updateJob (jobKey : Key) (retries timeout operationReference : Option Int) (leaseToken : Option String) :
    Cmd Unit := do
  let job ← Cmd.check (checkUpdateJob · jobKey retries timeout leaseToken)
  Cmd.plan (updateJobProperties job retries timeout operationReference)

/-! ## User tasks -/

def checkUserTask (e : Engine) (userTaskKey : Key) : Except EngineError UserTask := do
  let task ← okOr (.userTaskNotFound userTaskKey) e.state.userTasks[userTaskKey]?
  refuseIf (task.state != .created || task.pending.isSome) (.userTaskNotActive userTaskKey)
  return task

/-- A transition of a user task: deferred behind its listeners, or carried out. -/
def transitionUserTask (task : UserTask) (pending : PendingUserTaskTransition) (now : Plan Unit) : Plan Unit := do
  let e ← self
  match (e.state.taskListenersOf task.instanceKey task.elementId pending.eventType).head? with
  | some first =>
    emitAll (← e.startTaskListenerChain task.key task.instanceKey task.elementInstanceKey task.elementId
      pending.eventType pending first)
  | none => now

def assignUserTask (task : UserTask) (assignee : Option String) : Plan Unit :=
  transitionUserTask task { eventType := .assigning, assignee }
    (emit (.userTaskAssigned task.key task.instanceKey assignee))

def updateUserTask (task : UserTask) (c : UserTaskChangeset) : Plan Unit :=
  let normalize (d : Option String) : Option String := d.filter (! ·.isEmpty)
  let dueDate := c.dueDate.map normalize
  let followUpDate := c.followUpDate.map normalize
  transitionUserTask task
    { eventType := .updating, update := some ⟨c.candidateGroups, c.candidateUsers, dueDate, followUpDate, c.priority⟩ }
    (emit (.userTaskUpdated task.key task.instanceKey c.candidateGroups c.candidateUsers dueDate followUpDate c.priority))

def completeUserTask (task : UserTask) (vars : Vars) : Plan Unit :=
  transitionUserTask task { eventType := .completing, vars := vars } do
    emit (.userTaskCompleted task.key task.instanceKey)
    if !vars.isEmpty then
      let e ← self
      let flowScope := e.state.scopeOf task.instanceKey task.elementInstanceKey
      emitAll (e.propagatedUpdates task.instanceKey flowScope vars false)
    enqueue (.complete task.instanceKey task.elementInstanceKey task.elementId)

/-! ## Timers (`TriggerTimers`) -/

def triggerTimer (timerKey : Key) : Plan Unit := do
  match (← self).state.timers[timerKey]?.filter (·.state == .created) with
  | none => return
  | some t =>
    emit (.timerTriggered timerKey t.instanceKey t.elementInstanceKey t.elementId)
    match t.kind with
    | .intermediateCatch => enqueue (.complete t.instanceKey t.elementInstanceKey t.elementId)
    | .interruptingBoundary boundaryElementId =>
      let scope := (← self).state.scopeOf t.instanceKey t.elementInstanceKey
      interruptActivityViaBoundary t.instanceKey t.elementInstanceKey t.elementId
      enqueue (.activate t.instanceKey boundaryElementId scope none)
    | .nonInterruptingBoundary boundaryElementId =>
      enqueue (.activate t.instanceKey boundaryElementId ((← self).state.scopeOf t.instanceKey t.elementInstanceKey) none)
      match (← self).state.elementKind t.instanceKey boundaryElementId with
      | some (.timerBoundaryEvent _ durationMillis _ true) =>
        let nextTimerKey ← mintKey
        let e ← self
        let rearmVars := e.variablesForElement t.instanceKey t.elementInstanceKey
        let (nextDueAt, _) :=
          resolveTimer rearmVars (e.state.timerDefOf t.instanceKey boundaryElementId) t.dueAt durationMillis
        emit (.timerCreated nextTimerKey t.instanceKey t.elementInstanceKey t.elementId nextDueAt
          (.nonInterruptingBoundary boundaryElementId))
      | _ => return

def fireStartTimer (timerKey : Key) : Plan Unit := do
  match (← self).state.startTimers[timerKey]? with
  | none => return
  | some t =>
    match t.dueAt with
    | none => return
    | some dueAt =>
      emit (.processStartTimerFired timerKey (if t.repeating then some (satAdd dueAt t.intervalMillis) else none))
      startOrDispatchInstance t.processId t.startElementId ∅ [] none

def triggerTimers (now : Nat) : Plan Unit := do
  let e ← self
  let due := (e.state.timers.vals.filter fun t =>
    t.state == .created && t.dueAt ≤ now && !e.state.instanceIsSuspended t.instanceKey).map (·.key)
  (sortKeys due).forM triggerTimer
  let dueStarts := ((← self).state.startTimers.vals.filter fun t => t.dueAt.any (· ≤ now)).map (·.timerKey)
  (sortKeys dueStarts).forM fireStartTimer

/-! ## Incidents (`ResolveIncident`) -/

def checkResolveIncident (e : Engine) (incidentKey : Key) : Except EngineError Incident := do
  let i ← okOr (.incidentNotFound incidentKey) e.state.incidents[incidentKey]?
  refuseIf (i.state != .active) (.incidentNotResolvable incidentKey "incident is already resolved")
  match i.jobKey with
  | none => .ok ()
  | some jobKey =>
    refuseIf (((e.state.jobs[jobKey]?).map (·.retries)).getD 0 ≤ 0)
      (.incidentNotResolvable incidentKey s!"job {jobKey} still has no retries; update its retries first")
  return i

/-- The step that continues an ad-hoc tool's output, or completes the element. -/
def adhocToolRedrive (e : Engine) (i : Incident) (precomputedOutput : Vars) : Step :=
  match e.state.adhocToolContainerOf i.instanceKey i.elementInstanceKey with
  | some (containerKey, innerKey) =>
    .completeAdHocCallActivityTool i.instanceKey i.elementInstanceKey i.elementId containerKey innerKey precomputedOutput
  | none => .complete i.instanceKey i.elementInstanceKey i.elementId

/-- The redrive of an expression, flow, decision or called-element incident. -/
def redriveEvaluation (e : Engine) (i : Incident) : Step :=
  match e.state.elementKind i.instanceKey i.elementId with
  | some (.messageIntermediateCatchEvent ..) => .reopenCatch i.instanceKey i.elementInstanceKey i.elementId
  | _ =>
    match i.redrive with
    | some .callActivitySpawn => .retryCallActivitySpawn i.instanceKey i.elementInstanceKey i.elementId none
    | some (.adHocCallActivitySpawn childSeed) =>
      .retryCallActivitySpawn i.instanceKey i.elementInstanceKey i.elementId (some childSeed)
    | some (.adHocToolOutputCollection precomputedOutput) => adhocToolRedrive e i precomputedOutput
    | _ => .complete i.instanceKey i.elementInstanceKey i.elementId

/-- The redrive of an io-mapping incident. -/
def redriveIoMapping (e : Engine) (i : Incident) : Option Step :=
  match i.redrive with
  | some .activation | none => some (.retryActivation i.instanceKey i.elementInstanceKey i.elementId)
  | some .completion =>
    match e.state.elementKind i.instanceKey i.elementId with
    | some (.subProcess _) => none
    | _ => some (.complete i.instanceKey i.elementInstanceKey i.elementId)
  | some (.miChildActivation bodyKey index) =>
    some (.retryMiChildActivation i.instanceKey i.elementId bodyKey i.elementInstanceKey index)
  | some .miBodyActivation =>
    some (.retryMiBodyActivation i.instanceKey i.elementId i.elementInstanceKey
      (e.state.scopeOf i.instanceKey i.elementInstanceKey))
  | some .miBodyCompletion => some (.completeMiBody i.instanceKey i.elementInstanceKey)
  | some (.adHocToolActivation toolElementId vars) =>
    some (.activateAdHocTool i.instanceKey i.elementInstanceKey toolElementId vars)
  | some .callActivitySpawn => some (.retryCallActivitySpawn i.instanceKey i.elementInstanceKey i.elementId none)
  | some (.adHocCallActivitySpawn childSeed) =>
    some (.retryCallActivitySpawn i.instanceKey i.elementInstanceKey i.elementId (some childSeed))
  | some (.adHocToolOutputCollection precomputedOutput) => some (adhocToolRedrive e i precomputedOutput)
  | some (.callActivityCompletion childVariables) =>
    some (.completeCallActivity i.instanceKey i.elementInstanceKey i.elementId childVariables)

def resolveIncident (i : Incident) (operationReference : Option Int) : Plan Unit := do
  emit (.incidentResolved i.key i.instanceKey i.jobKey (← self).now operationReference)
  let e ← self
  match i.kind with
  | .jobNoRetries => return
  | .noMatchingSequenceFlow | .expressionEvaluation | .decisionEvaluation | .calledElementError =>
    enqueue (redriveEvaluation e i)
  | .unhandledError => enqueue (.createJob i.instanceKey i.elementInstanceKey i.elementId)
  | .ioMapping => enqueueAll (redriveIoMapping e i).toList

/-! ## Messages and signals -/

/-- One matched subscription of `CorrelateMessage`: whether it was still open. -/
def correlateSubscription (messageKey : Key) (vars : Vars) (subscriptionKey : Key) : Plan Bool := do
  let e ← self
  match e.state.messageSubscriptions[subscriptionKey]?.filter (·.state == .opened) with
  | none => return false
  | some s =>
    if partitionOf s.instanceKey = e.partitionId then
      if !e.state.instanceIsSuspended s.instanceKey then
        advanceCorrelatedToken subscriptionKey messageKey s.instanceKey s.elementInstanceKey s.elementId s.kind vars
    else
      emit (.remoteMessageCorrelation subscriptionKey messageKey s.instanceKey s.elementInstanceKey s.elementId s.kind
        vars)
    return true

/-- `Ord` on `(String, ElementId)`. -/
def pairLe (a b : String × ElementId) : Bool := a.1 < b.1 || (a.1 == b.1 && a.2 ≤ b.2)

def correlateMessage (messageName correlationKey : String) (vars : Vars) : Plan Unit := do
  let messageKey ← mintKey
  emit (.messagePublished messageKey messageName correlationKey)
  let matched := ((← self).state.messageSubscriptions.vals.filter fun s =>
    s.state == .opened && s.messageName == messageName && s.correlationKey == correlationKey).map (·.key)
  let correlated ← (sortKeys matched).mapM (correlateSubscription messageKey vars)
  if !correlated.any id then
    let started := ((← self).state.messageStartSubscriptions.vals.filter (·.messageName == messageName)).map fun s =>
      (s.processId, s.startElementId)
    (started.insertionSort (pairLe · ·)).forM fun (processId, startElementId) =>
      startOrDispatchInstance processId startElementId vars [] none

def broadcastSignal (signalName : String) (vars : Vars) : Plan Unit := do
  let signalKey ← mintKey
  emit (.signalBroadcast signalKey signalName)
  let matched := ((← self).state.signalSubscriptions.vals.filter fun s =>
    s.state == .opened && s.signalName == signalName).map (·.key)
  (sortKeys matched).forM fun subscriptionKey => do
    match (← self).state.signalSubscriptions[subscriptionKey]?.filter (·.state == .opened) with
    | none => return
    | some s =>
      advanceSignalCorrelatedToken subscriptionKey signalKey s.instanceKey s.elementInstanceKey s.elementId s.kind
        vars

def openMessageSubscription (subscriptionKey instanceKey elementInstanceKey : Key) (elementId : ElementId)
    (messageName correlationKey : String) (kind : MessageSubscriptionKind) : Plan Unit := do
  if !(← self).state.messageSubscriptions.contains subscriptionKey then
    emit (.messageSubscriptionCreated subscriptionKey instanceKey elementInstanceKey elementId messageName
      correlationKey kind)

def correlateMessageSubscription (subscriptionKey messageKey instanceKey elementInstanceKey : Key)
    (elementId : ElementId) (kind : MessageSubscriptionKind) (vars : Vars) : Plan Unit := do
  let s := (← self).state
  if (s.messageSubscriptions[subscriptionKey]?.any (·.state == .opening)) && !s.instanceIsSuspended instanceKey then
    advanceCorrelatedToken subscriptionKey messageKey instanceKey elementInstanceKey elementId kind vars

def closeMessageSubscription (subscriptionKey instanceKey elementInstanceKey : Key) (elementId : ElementId) :
    Plan Unit := do
  if (← self).state.messageSubscriptions[subscriptionKey]?.any (·.state == .opened) then
    emit (.messageSubscriptionCanceled subscriptionKey instanceKey elementInstanceKey elementId)

/-! ## Instances -/

def checkActive (e : Engine) (instanceKey : Key) : Except EngineError ProcessInstance :=
  okOr (.instanceNotFound instanceKey) (e.state.instances[instanceKey]?.filter (·.state == .active))

/-- The events that withdraw what an instance waits on, user tasks apart (`CancelInstance`). -/
def cancelWaits (s : State) (instanceKey : Key) : List Event :=
  ((sortByKey (·.key) (s.jobs.vals.filter fun j => j.instanceKey == instanceKey &&
      (j.state == .created || j.state == .activated || j.state == .failed))).map fun j =>
        .jobCanceled j.key instanceKey) ++
  ((sortByKey (·.key) (s.timers.vals.filter fun t => t.instanceKey == instanceKey && t.state == .created)).map fun t =>
    .timerCanceled t.key instanceKey t.elementInstanceKey t.elementId) ++
  ((sortByKey (·.key) (s.messageSubscriptions.vals.filter fun x => x.instanceKey == instanceKey &&
      (x.state == .opened || x.state == .opening))).map disarmSubscriptionEvent) ++
  ((sortByKey (·.key) (s.signalSubscriptions.vals.filter fun x =>
      x.instanceKey == instanceKey && x.state == .opened)).map fun x =>
        .signalSubscriptionCanceled x.key instanceKey x.elementInstanceKey x.elementId) ++
  ((sortByKey (·.key) (s.conditionalSubscriptions.vals.filter fun x =>
      x.instanceKey == instanceKey && x.state == .opened)).map fun x =>
        .conditionalSubscriptionCanceled x.key instanceKey x.elementInstanceKey x.elementId)

/-- The first canceling listener of a user task that no transition is pending on. -/
def firstCanceling (e : Engine) (t : UserTask) : Option TaskListener :=
  if t.pending.isNone then (e.state.taskListenersOf t.instanceKey t.elementId .canceling).head? else none

def cancelInstance (instanceKey : Key) : Plan Unit := do
  let e ← self
  let tasks := sortByKey (·.key) (e.state.userTasks.vals.filter fun t => t.instanceKey == instanceKey && t.state == .created)
  emitAll (cancelWaits e.state instanceKey)
  emitAll ((tasks.filter fun t => (firstCanceling e t).isNone).map fun t => .userTaskCanceled t.key instanceKey)
  let starts := tasks.filterMap fun t => (firstCanceling e t).map fun first => (t, first)
  if starts.isEmpty then emit (.processInstanceTerminated instanceKey)
  else
    emit (.processInstanceTerminating instanceKey)
    starts.forM fun (t, first) => do
      emitAll (← (← self).startTaskListenerChain t.key instanceKey t.elementInstanceKey t.elementId .canceling
        { eventType := .canceling } first)

/-- `ProcessInstanceState::as_str`. -/
def ProcessInstanceState.asStr : ProcessInstanceState → String
  | .active => "ACTIVE"
  | .completed => "COMPLETED"
  | .terminated => "TERMINATED"
  | .terminating => "TERMINATING"
  | .suspended => "SUSPENDED"

/-- The check of `SuspendInstance` (`to = "SUSPENDED"`) and `ResumeInstance` (`to = "ACTIVE"`): whether the
transition is due; it is not when the instance is already there. -/
def checkTransition (e : Engine) (instanceKey : Key) (source target : ProcessInstanceState) : Except EngineError Bool :=
  match e.state.instances[instanceKey]? with
  | none => .error (.instanceNotFound instanceKey)
  | some i =>
    if i.state = source then .ok true
    else if i.state = target then .ok false
    else .error (.instanceTransitionInvalid instanceKey i.state.asStr target.asStr)

/-- `has_incoming_flow` (`model.rs:1546`). -/
def ProcessDefinition.hasIncomingFlow (d : ProcessDefinition) (target : ElementId) (flow : IncomingFlow) : Bool :=
  d.elements[flow.source]?.any fun el => flow.ordinal < (el.outgoing.filter (·.target == target)).length

/-- `unsupported_migration_reason` (`engine/mod.rs:12677`). -/
def unsupportedMigrationReason : ElementKind → Option String
  | .errorBoundaryEvent .. | .timerBoundaryEvent .. | .messageBoundaryEvent .. | .signalBoundaryEvent ..
  | .conditionalBoundaryEvent .. | .escalationBoundaryEvent .. => some "boundary events are not migratable yet"
  | .callActivity .. => some "call activities are not migratable yet"
  | .subProcess .. => some "embedded sub-processes are not migratable yet"
  | .eventBasedGateway => some "event-based gateways are not migratable yet"
  | _ => none

/-- The mapping instructions, each checked against the ones before it. -/
def checkMappings (instanceKey targetKey : Key) (source target : ProcessDefinition) :
    StrMap ElementId → List (ElementId × ElementId) → Except EngineError (StrMap ElementId)
  | mapped, [] => .ok mapped
  | mapped, (src, tgt) :: rest => do
    refuseIf (mapped.contains src) (.duplicateMappingSourceElement instanceKey src)
    let srcEl ← okOr (.mappingSourceElementNotFound instanceKey src) source.elements[src]?
    let tgtEl ← okOr (.mappingTargetElementNotFound targetKey tgt) target.elements[tgt]?
    refuseIf (srcEl.kind.ctorIdx != tgtEl.kind.ctorIdx) (.mappedElementTypeChanged instanceKey src tgt)
    checkMappings instanceKey targetKey source target (mapped.insert src tgt) rest

/-- The boundary event a subscription belongs to. -/
def MessageSubscriptionKind.boundary : MessageSubscriptionKind → Option ElementId
  | .interruptingBoundary id | .nonInterruptingBoundary id => some id
  | .intermediateCatch => none

def TimerKind.boundary : TimerKind → Option ElementId
  | .interruptingBoundary id | .nonInterruptingBoundary id => some id
  | .intermediateCatch => none

/-- The boundary events armed for an instance, of whatever state. -/
def armedBoundaries (s : State) (instanceKey : Key) : List ElementId :=
  ((s.timers.vals.filter (·.instanceKey == instanceKey)).filterMap (·.kind.boundary)) ++
    ((s.messageSubscriptions.vals.filter (·.instanceKey == instanceKey)).filterMap (·.kind.boundary)) ++
    ((s.signalSubscriptions.vals.filter (·.instanceKey == instanceKey)).filterMap (·.kind.boundary)) ++
    ((s.conditionalSubscriptions.vals.filter (·.instanceKey == instanceKey)).filterMap (·.kind.boundary))

/-- `Vec::into_iter().min()` on strings. -/
def minString (xs : List String) : Option String := (sortStrings xs).head?

/-- An open join against the definitions it migrates between. -/
def checkOpenJoin (i : ProcessInstance) (source target : ProcessDefinition) (mapped : StrMap ElementId) (src : ElementId) :
    Except EngineError Unit := do
  let isParallel := source.elements[src]?.any (·.kind == .parallelGateway)
  let isInclusive := source.elements[src]?.any (·.kind == .inclusiveGateway)
  if isParallel || isInclusive then
    let tgt := mapped[src]?.getD src
    if isParallel || i.joinCounts[src]?.any (0 < ·) then
      refuseIf (source.incomingCount src != target.incomingCount tgt)
        (.migratedParallelJoinArityChanged i.key src tgt (source.incomingCount src) (target.incomingCount tgt))
    ((i.joinFlowArrivals[src]?.map (·.entries)).getD []).forM fun (flow, _) =>
      refuseIf (!target.hasIncomingFlow tgt ⟨mapped[flow.source]?.getD flow.source, flow.ordinal⟩)
        (.migratedJoinFlowMissing i.key src tgt flow.source flow.ordinal)

/-- The checks of `MigrateInstance`, in the order the source makes them; the result is the target's process id. -/
def checkMigrateInstance (e : Engine) (instanceKey targetKey : Key) (mappings : List (ElementId × ElementId)) :
    Except EngineError String := do
  let i ← checkActive e instanceKey
  let target ← okOr (.targetProcessDefinitionNotFound targetKey) (e.state.processes.vals.find? (·.key == targetKey))
  let source ← okOr (.processNotFound i.processId) e.state.processes[i.processId]?
  let mapped ← checkMappings instanceKey targetKey source.definition target.definition ∅ mappings
  let activeIds := dedupSorted (sortStrings i.active.vals)
  activeIds.forM fun eid =>
    match source.definition.elements[eid]?.bind fun el => unsupportedMigrationReason el.kind with
    | some reason => .error (.unsupportedMigration instanceKey eid reason)
    | none => .ok ()
  match minString (armedBoundaries e.state instanceKey) with
  | some id => .error (.unsupportedMigration instanceKey id "boundary events are not migratable yet")
  | none => .ok ()
  match minString (i.multiInstances.vals.map (·.elementId) ++ i.adhocInstances.vals.map (·.elementId)) with
  | some id =>
    .error (.unsupportedMigration instanceKey id
      "multi-instance and ad-hoc sub-process activities are not migratable yet")
  | none => .ok ()
  match minString (i.scopes.keys.filterMap fun k => i.active[k]?) with
  | some id =>
    .error (.unsupportedMigration instanceKey id "elements inside a nested flow scope are not migratable yet")
  | none => .ok ()
  activeIds.forM fun eid => refuseIf (!mapped.contains eid) (.unmappedActiveElement instanceKey eid)
  (sortStrings i.joinInstances.keys).forM (checkOpenJoin i source.definition target.definition mapped)
  return target.definition.id

/-- The checks of `ModifyInstance`. -/
def checkModifyInstance (e : Engine) (instanceKey : Key) (activate : List ActivateElementInstruction)
    (terminate : List Key) : Except EngineError Unit := do
  let i ← checkActive e instanceKey
  activate.forM fun a =>
    refuseIf ((e.state.element instanceKey a.elementId).isNone) (.elementNotFound instanceKey a.elementId)
  terminate.forM fun eik => refuseIf (!i.active.contains eik) (.elementInstanceNotFound instanceKey eik)

def modifyInstance (instanceKey : Key) (activate : List ActivateElementInstruction) (terminate : List Key) :
    Plan Unit := do
  (dedupSorted (sortKeys terminate)).forM fun eik => do
    match (← self).state.elementIdOfInstance instanceKey eik with
    | none => return
    | some elementId => terminateElementInstance instanceKey eik elementId
  activate.forM fun a => do
    if !a.vars.isEmpty then emitAll ((← self).propagatedUpdates instanceKey instanceKey a.vars false)
    enqueue (.activate instanceKey a.elementId 0 none)
  let drained := ((← self).state.instances[instanceKey]?.map (·.active.isEmpty)).getD true
  if drained && activate.isEmpty then emit (.processInstanceTerminated instanceKey)

/-! ## Ad-hoc sub-processes -/

/-- The checks of `ActivateAdHocActivities`: the instance of the container. -/
def checkActivateAdHoc (e : Engine) (containerKey : Key) (elements : List AdHocActivateElement)
    (cancelRemaining : Bool) : Except EngineError Key := do
  refuseIf (elements.isEmpty && !cancelRemaining) (.adHocNoActivationTargets containerKey)
  let (instanceKey, elementId) ← okOr (.adHocSubProcessNotFound containerKey) <|
    e.state.instances.toList.findSome? fun (key, i) => i.adhocInstances[containerKey]?.map fun a => (key, a.elementId)
  let d ← okOr (.adHocSubProcessNotFound containerKey) (e.state.adhocDefOf instanceKey elementId)
  validateAdhocActivationTargets d instanceKey elements
  return instanceKey

/-! ## Agents (`engine/mod.rs:730-1090`) -/

def validateAgentJobContext (s : State) (elementInstanceKey jobKey : Key) (jobLease : String) (hasHistory : Bool) :
    Except EngineError Unit := do
  if jobKey = 0 then refuseIf hasHistory (.agentInstanceJobRequiredForHistory elementInstanceKey)
  else
    let job ← okOr (.agentInstanceJobNotActive elementInstanceKey jobKey) (s.jobs[jobKey]?.filter (·.state == .activated))
    refuseIf (job.leaseToken.any (· != jobLease)) (.agentInstanceJobLeaseMismatch elementInstanceKey jobKey)
    refuseIf (job.elementInstanceKey != elementInstanceKey)
      (.agentInstanceJobElementMismatch jobKey job.elementInstanceKey elementInstanceKey)

/-- `str::trim().is_empty()`. -/
def isBlank (s : String) : Bool := (trim s).isEmpty

/-- The fields a `CONFIGURATION` turn may change. -/
def configurationFields : List String :=
  ["model", "provider", "systemPrompt", "tools", "maxTokens", "maxModelCalls", "maxToolCalls"]

def validateHistoryTurns : List String → List AgentHistoryTurn → Except EngineError Unit
  | _, [] => .ok ()
  | ids, turn :: rest => do
    let id ← okOr (.agentHistoryInvalid "historyItemId is required") (turn.historyItemId.filter (! isBlank ·))
    refuseIf (ids.contains id) (.agentHistoryInvalid "historyItemId must be unique within the request")
    refuseIf (turn.loopIteration < 1) (.agentHistoryInvalid "loopIteration must be positive")
    refuseIf (turn.role == .configuration && (turn.configurationAttributes.isEmpty ||
        turn.configurationAttributes.any (! configurationFields.contains ·)))
      (.agentHistoryInvalid "CONFIGURATION must change supported configuration fields")
    validateHistoryTurns (id :: ids) rest

/-- `validate_agent_history`. -/
def validateAgentHistory (history : List AgentHistoryTurn) (creating : Bool) : Except EngineError Unit := do
  validateHistoryTurns [] history
  if creating && !history.isEmpty then
    let establishes (p : AgentHistoryTurn → Bool) := history.any fun t => t.role == .configuration && p t
    refuseIf (!(establishes (·.model.any (! isBlank ·)) && establishes (·.provider.any (! isBlank ·)) &&
        establishes (·.systemPrompt.any (! ·.isEmpty))))
      (.agentHistoryInvalid "CREATE history must establish model, provider and systemPrompt")

/-- The checks of `process_create_agent_instance`: the instance, the element and its agent type. -/
def checkCreateAgentInstance (e : Engine) (elementInstanceKey jobKey : Key) (jobLease : String)
    (history : List AgentHistoryTurn) : Except EngineError (Key × ElementId × AgentType) := do
  let (processInstanceKey, elementId) ← okOr (.agentInstanceElementInstanceInactive elementInstanceKey)
    (e.state.resolveActiveElementInstance elementInstanceKey)
  match e.state.owningAgentInstance elementInstanceKey with
  | some agentInstanceKey => .error (.agentInstanceAlreadyExists elementInstanceKey agentInstanceKey)
  | none => .ok ()
  let agentType ← e.state.agentTypeForElement processInstanceKey elementId elementInstanceKey
  validateAgentJobContext e.state elementInstanceKey jobKey jobLease (!history.isEmpty)
  validateAgentHistory history true
  return (processInstanceKey, elementId, agentType)

/-- `DEFAULT_TENANT`. -/
def defaultTenant : String := "<default>"

def createAgentInstance (processInstanceKey : Key) (elementId : ElementId) (agentType : AgentType)
    (elementInstanceKey jobKey : Key) (jobLease : String) (definition : AgentDefinition)
    (limits : Option AgentInstanceLimits) (history : List AgentHistoryTurn) : Plan Unit := do
  let history := history.map fun t => { t with jobKey, jobLease }
  let agentInstanceKey ← mintKey
  let e ← self
  let i := e.state.instances[processInstanceKey]?
  let version := ((i.bind fun i => e.state.processVersions[i.processDefinitionKey]?).map (·.version)).getD 0
  let agent : AgentInstance :=
    { agentInstanceKey
      agentDefinitionKey := 0
      elementInstanceKey
      elementInstanceKeys := [elementInstanceKey]
      elementId, processInstanceKey
      rootProcessInstanceKey := e.state.rootProcessInstanceKey processInstanceKey
      bpmnProcessId := (i.map (·.processId)).getD ""
      processDefinitionKey := (i.map (·.processDefinitionKey)).getD 0
      processDefinitionVersion := version
      processDefinitionVersionTag := none
      tenantId := defaultTenant
      agentType
      status := .initializing
      definition := if history.isEmpty then definition else {}
      limits := if history.isEmpty then limits.getD {} else {}
      metrics := {}
      tools := []
      jobKey, jobLease
      createdAt := e.now
      lastUpdatedAt := e.now
      completedAt := 0 }
  emit (.agentInstanceCreated processInstanceKey (e.state.applyHistoryChanges agent history true))
  if !history.isEmpty then appendAgentHistory agentInstanceKey history

/-- The checks of `process_update_agent_instance`: the instance as it is. -/
def checkUpdateAgentInstance (e : Engine) (agentInstanceKey elementInstanceKey : Key) (elementId : ElementId)
    (processInstanceKey jobKey : Key) (jobLease : String) (status : Option AgentInstanceStatus)
    (metrics : AgentInstanceMetricsDelta) (tools : Option (List AgentTool)) (history : List AgentHistoryTurn) :
    Except EngineError AgentInstance := do
  let agent ← okOr (.agentInstanceNotFound agentInstanceKey) (e.state.findAgentInstance agentInstanceKey)
  refuseIf (agent.elementId != elementId || agent.processInstanceKey != processInstanceKey)
    (.agentInstanceOwnershipMismatch agentInstanceKey)
  let (activePi, activeElementId) ← okOr (.agentInstanceElementInstanceInactive elementInstanceKey)
    (e.state.resolveActiveElementInstance elementInstanceKey)
  refuseIf (activeElementId != agent.elementId || activePi != agent.processInstanceKey)
    (.agentInstanceOwnershipMismatch agentInstanceKey)
  match e.state.owningAgentInstance elementInstanceKey with
  | some owner => refuseIf (owner != agentInstanceKey) (.agentInstanceConflict agentInstanceKey elementInstanceKey owner)
  | none => .ok ()
  refuseIf (agent.elementInstanceKey != elementInstanceKey && e.state.jobs.any fun _ j =>
      j.elementInstanceKey == agent.elementInstanceKey && j.state == .activated)
    (.agentInstanceActiveWriter agentInstanceKey agent.elementInstanceKey)
  validateAgentJobContext e.state elementInstanceKey jobKey jobLease (!history.isEmpty)
  validateAgentHistory history false
  refuseIf (!history.isEmpty && (metrics != {} || tools.isSome))
    (.agentHistoryInvalid "history-bearing UPDATE permits only status at request level")
  refuseIf ([metrics.inputTokens, metrics.outputTokens, metrics.modelCalls, metrics.toolCalls].any (· < -1))
    (.agentHistoryInvalid "metric deltas must be -1 or nonnegative")
  match status with
  | some target =>
    refuseIf (!target.isActive || (target == .initializing && agent.status != .initializing))
      (.agentInstanceStatusNotSettable agentInstanceKey target)
  | none => .ok ()
  return agent

def updateAgentInstance (agent : AgentInstance) (elementInstanceKey jobKey : Key) (jobLease : String)
    (status : Option AgentInstanceStatus) (metrics : AgentInstanceMetricsDelta) (tools : Option (List AgentTool))
    (history : List AgentHistoryTurn) : Plan Unit := do
  let history := history.map fun t => { t with jobKey, jobLease }
  let e ← self
  let updated := { agent with status := status.getD agent.status, metrics := agent.metrics.withDelta metrics }
  let updated := e.state.applyHistoryChanges updated history false
  let updated := { updated with tools := tools.getD updated.tools }
  let updated := if jobKey ≠ 0 then { updated with jobKey, jobLease } else updated
  let updated :=
    { updated with
      elementInstanceKeys :=
        if updated.elementInstanceKeys.contains elementInstanceKey then updated.elementInstanceKeys
        else updated.elementInstanceKeys ++ [elementInstanceKey]
      elementInstanceKey
      lastUpdatedAt := e.now }
  emit (.agentInstanceUpdated updated.processInstanceKey updated)
  if !history.isEmpty then appendAgentHistory agent.agentInstanceKey history

def checkCompleteAgentInstance (e : Engine) (agentInstanceKey : Key) : Except EngineError AgentInstance := do
  let agent ← okOr (.agentInstanceNotFound agentInstanceKey) (e.state.findAgentInstance agentInstanceKey)
  refuseIf (!agent.status.isActive) (.agentInstanceAlreadyCompleted agentInstanceKey)
  return agent

def completeAgentInstance (agent : AgentInstance) : Plan Unit := do
  let now := (← self).now
  emit (.agentInstanceCompleted agent.processInstanceKey
    { agent with status := .completed, completedAt := now, lastUpdatedAt := now })

/-! ## `plan_command_at` -/

/-- The match of `plan_command_at`. -/
def planCommand : Command → Cmd Unit
  | .deployProcess process => deploy [process]
  | .deployResources processes => deploy processes
  | .deployDecisionRequirements graphs => Cmd.plan (deployDecisions graphs)
  | .deployForms forms => Cmd.plan (deployForms forms)
  | .deployGenericResources resources => Cmd.plan (deployGenericResources resources)
  | .deleteDecisionInstance instanceKey decisionEvaluationKey =>
    Cmd.plan (emit (.decisionInstanceDeleted instanceKey decisionEvaluationKey))
  | .createInstance processId vars tags businessId processDefinitionKey version => do
    let process ← Cmd.check fun e => chooseProcess e.state processId processDefinitionKey version
    Cmd.plan (startInstance process.definition.id process.definition.startEvent vars tags businessId process.key)
  | .completeJob jobKey leaseToken vars adhocResult taskListenerResult => do
    let job ← Cmd.check (checkCompleteJob · jobKey leaseToken vars adhocResult taskListenerResult)
    Cmd.plan (completeJob job vars adhocResult taskListenerResult)
  | .assignUserTask userTaskKey assignee allowOverride => do
    let task ← Cmd.check (checkUserTask · userTaskKey)
    Cmd.check fun _ => refuseIf (!allowOverride && task.assignee.isSome) (.userTaskAlreadyAssigned userTaskKey)
    Cmd.plan (assignUserTask task (some assignee))
  | .unassignUserTask userTaskKey => do
    let task ← Cmd.check (checkUserTask · userTaskKey)
    Cmd.plan (assignUserTask task none)
  | .updateUserTask userTaskKey changeset => do
    let task ← Cmd.check (checkUserTask · userTaskKey)
    Cmd.plan (updateUserTask task changeset)
  | .completeUserTask userTaskKey vars => do
    let task ← Cmd.check (checkUserTask · userTaskKey)
    Cmd.plan (completeUserTask task vars)
  | .activateJobs jobType worker maxJobs timeout now fetchVariables withLease => Cmd.plan do
    let keys := selectActivatableJobKeys (← self) jobType maxJobs now withLease
    applyActivationPlan keys worker timeout now ⟨fetchVariables, withLease⟩ false
  | .activateJobsByKey jobKeys worker timeout now fetchVariables withLease =>
    Cmd.plan (applyActivationPlan jobKeys worker timeout now ⟨fetchVariables, withLease⟩ true)
  | .expireJobs now => Cmd.plan (expireJobLocks now none)
  | .expireJobsByDurability now durable => Cmd.plan (expireJobLocks now (some durable))
  | .triggerTimers now => Cmd.plan (triggerTimers now)
  | .failJob jobKey leaseToken retries errorMessage => do
    let job ← Cmd.check (checkFailJob · jobKey leaseToken)
    Cmd.plan (failJob job retries errorMessage)
  | .throwJobError jobKey leaseToken errorCode errorMessage vars => do
    let job ← Cmd.check (checkThrowJobError · jobKey leaseToken)
    Cmd.plan (throwJobError job errorCode errorMessage vars)
  | .updateJobRetries jobKey leaseToken retries operationReference =>
    updateJob jobKey (some retries) none operationReference leaseToken
  | .updateJobTimeout jobKey leaseToken timeout operationReference =>
    updateJob jobKey none (some timeout) operationReference leaseToken
  | .updateJob jobKey retries timeout operationReference leaseToken =>
    updateJob jobKey retries timeout operationReference leaseToken
  | .resolveIncident incidentKey operationReference => do
    let incident ← Cmd.check (checkResolveIncident · incidentKey)
    Cmd.plan (resolveIncident incident operationReference)
  | .setVariables scopeKey vars isLocal => do
    let instanceKey ← Cmd.check fun e => okOr (.scopeNotFound scopeKey) (e.state.resolveScope scopeKey)
    Cmd.plan do
      if !vars.isEmpty then emitAll ((← self).propagatedUpdates instanceKey scopeKey vars isLocal)
  | .correlateMessage messageName correlationKey vars =>
    Cmd.plan (correlateMessage messageName correlationKey vars)
  | .broadcastSignal signalName vars => Cmd.plan (broadcastSignal signalName vars)
  | .openMessageSubscription subscriptionKey instanceKey elementInstanceKey elementId messageName correlationKey kind =>
    Cmd.plan (openMessageSubscription subscriptionKey instanceKey elementInstanceKey elementId messageName
      correlationKey kind)
  | .correlateMessageSubscription subscriptionKey messageKey instanceKey elementInstanceKey elementId kind vars =>
    Cmd.plan (correlateMessageSubscription subscriptionKey messageKey instanceKey elementInstanceKey elementId kind
      vars)
  | .closeMessageSubscription subscriptionKey instanceKey elementInstanceKey elementId =>
    Cmd.plan (closeMessageSubscription subscriptionKey instanceKey elementInstanceKey elementId)
  | .cancelInstance instanceKey => do
    let _ ← Cmd.check (checkActive · instanceKey)
    Cmd.plan (cancelInstance instanceKey)
  | .suspendInstance instanceKey => do
    let due ← Cmd.check (checkTransition · instanceKey .active .suspended)
    Cmd.plan do
      if due then emit (.processInstanceSuspended instanceKey (← self).now)
  | .resumeInstance instanceKey => do
    let due ← Cmd.check (checkTransition · instanceKey .suspended .active)
    Cmd.plan do
      if due then emit (.processInstanceResumed instanceKey)
  | .migrateInstance instanceKey targetProcessDefinitionKey mappingInstructions => do
    let targetProcessId ←
      Cmd.check (checkMigrateInstance · instanceKey targetProcessDefinitionKey mappingInstructions)
    Cmd.plan (emit (.processInstanceMigrated instanceKey targetProcessId targetProcessDefinitionKey mappingInstructions))
  | .modifyInstance instanceKey activateInstructions terminateInstructions => do
    Cmd.check (checkModifyInstance · instanceKey activateInstructions terminateInstructions)
    Cmd.plan (modifyInstance instanceKey activateInstructions terminateInstructions)
  | .dispatchStartInstance processId startElementId vars tags businessId =>
    Cmd.plan (startInstance processId startElementId vars tags businessId 0)
  | .activateAdHocActivities containerKey activateElements cancelRemaining => do
    let instanceKey ← Cmd.check (checkActivateAdHoc · containerKey activateElements cancelRemaining)
    Cmd.plan do
      enqueueAll (adhocTurn (← self) instanceKey containerKey activateElements cancelRemaining)
  | .createAgentInstance elementInstanceKey jobKey jobLease definition limits history => do
    let (processInstanceKey, elementId, agentType) ←
      Cmd.check (checkCreateAgentInstance · elementInstanceKey jobKey jobLease history)
    Cmd.plan (createAgentInstance processInstanceKey elementId agentType elementInstanceKey jobKey jobLease definition
      limits history)
  | .updateAgentInstance agentInstanceKey elementInstanceKey elementId processInstanceKey jobKey jobLease status metrics
      tools history => do
    let agent ← Cmd.check (checkUpdateAgentInstance · agentInstanceKey elementInstanceKey elementId processInstanceKey
      jobKey jobLease status metrics tools history)
    Cmd.plan (updateAgentInstance agent elementInstanceKey jobKey jobLease status metrics tools history)
  | .completeAgentInstance agentInstanceKey => do
    let agent ← Cmd.check (checkCompleteAgentInstance · agentInstanceKey)
    Cmd.plan (completeAgentInstance agent)

/-! ## `apply_command_at` (`engine/mod.rs:1797-1830`, `:1839-1852`) -/

/-- The instance an event creates. -/
def Event.createdInstance : Event → Option Key
  | .processInstanceCreated instanceKey .. => some instanceKey
  | _ => none

namespace Engine

/-- The start of `plan_command_at`: the clock is set and the scopes the last command tore down are forgotten before
anything is checked. -/
def beginCommand (e : Engine) (now : Nat) : Engine := { e with now, tornDownScopes := ∅ }

/-- `plan_command_at`. -/
def planCommandAt (e : Engine) (command : Command) (now : Nat) : Except EngineError Unit × PlanState :=
  planCommand command { engine := e.beginCommand now }

/-- `finish_command`: a follower's reaping of instances that were retired before they were created. -/
def finishCommand (e : Engine) (log : List Event) : Engine :=
  if e.retiredTombstones.isEmpty then e
  else
    let created := log.filterMap Event.createdInstance
    if created.isEmpty then e else e.reapTombstoned created

/-- What follows a planned command: the drain loop and the children of the instances it ended. -/
def settle (fuel : Nat) : Plan Unit := do
  Plan.drain fuel
  Plan.cascadeCancelChildren

/-- `apply_command_at`, with at most `fuel` turns of the drain loop. -/
def applyCommandAt (fuel : Nat) (e : Engine) (command : Command) (now : Nat) :
    Except EngineError (List Event) × Engine :=
  match e.planCommandAt command now with
  | (.error err, s) => (.error err, s.engine)
  | (.ok (), s) =>
    let s := ((settle fuel).run s).2
    (.ok s.log, s.engine.finishCommand s.log)

end Engine

end NanoBpm
