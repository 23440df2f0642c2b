import NanoBpm.ReadModel.Tables
import NanoBpm.Lib.Results

/-!
# The projector (`read-model/src/store.rs:3428-5440`)

`project` writes one event to the tables and returns what the event adds to the in-flight gauge.
A failed statement is the text of its error; `export` then rolls the transaction back. The wall
clock of the projection is the argument `now`.
-/

namespace NanoBpm.ReadModel

/-! ## Lookups (`store.rs:3476-3540`) -/

namespace Tables

/-- `instance_def`. -/
def instanceDef (t : Tables) (instanceKey : Key) : String × String :=
  (t.processInstances[instanceKey]?.map fun r => (r.processDefinitionId, r.processDefinitionKey)).getD ("", "")

/-- `instance_version`. -/
def instanceVersion (t : Tables) (instanceKey : Key) : Int :=
  (t.processInstances[instanceKey]?.map (·.version)).getD 1

/-- `SELECT key, version FROM process_definitions WHERE process_id = ?1 ORDER BY version DESC LIMIT 1`,
and what stands for the definition where there is none. -/
def latestDefinition (t : Tables) (processId : String) : String × Int :=
  let rows := t.processDefinitions.vals.filter (·.processId == processId)
  match rows.foldl (fun best r => match best with
      | some b => if b.version < r.version then some r else some b
      | none => some r) none with
  | some r => (toString r.key, r.version)
  | none => ("-1", 0)

end Tables

/-- `def_key.parse().unwrap_or(-1)`: the column is an `i64`, and `-1` is the last key. -/
def parseKey (defKey : String) : Key :=
  match defKey.toNat? with
  | some k => if k < 2 ^ 63 then k else u64Max
  | none => u64Max

/-! ## Variables (`store.rs:3437-3467`) -/

/-- One upsert: a new cell takes the next number, a known cell keeps its number. The number is drawn
before the conflict is found. -/
def VariableTable.upsert (v : VariableTable) (instanceKey scopeKey : Key) (definition : String × String)
    (name : String) (value : Value) : VariableTable where
  sequence := v.sequence + 1
  rows :=
    if v.rows.any fun r => r.scopeKey == scopeKey && r.name == name then
      v.rows.map fun r => if r.scopeKey == scopeKey && r.name == name then { r with value } else r
    else
      v.rows ++ [{ key := v.sequence + 1, instanceKey, scopeKey, name, value,
                   processDefinitionId := definition.1, processDefinitionKey := definition.2 }]

/-- `upsert_variables`: the names in order. -/
def upsertVariables (t : Tables) (instanceKey scopeKey : Key) (vars : Vars) : Tables :=
  { t with
    vars := vars.toList.foldl
      (fun v (name, value) => v.upsert instanceKey scopeKey (t.instanceDef instanceKey) name value) t.vars }

/-! ## Element instances (`store.rs:3488-3536`) -/

/-- The type and the name `definition_elements` has for an element. -/
def elementMeta (t : Tables) (defKey : String) (elementId : ElementId) : String × Option String :=
  if elementId.endsWith adhocInnerInstanceIdPostfix then ("AD_HOC_SUB_PROCESS_INNER_INSTANCE", none)
  else
    match (t.definitionElements[parseKey defKey]?).bind fun es => es[elementId]? with
    | some d => (d.elementType, d.elementName)
    | none => ("UNKNOWN", none)

/-- `upsert_element_instance`: a row that is there only takes the scope, where one is given. -/
def upsertElementInstance (t : Tables) (now : Nat) (instanceKey eik : Key) (elementId : ElementId)
    (scope : Option Key) : Tables :=
  let definition := t.instanceDef instanceKey
  let described := elementMeta t definition.2 elementId
  let row : ElementInstanceRow :=
    { elementInstanceKey := eik, instanceKey, processDefinitionId := definition.1,
      processDefinitionKey := definition.2, elementId, elementName := described.2,
      elementType := described.1, startDateMs := now, scopeKey := scope.getD 0 }
  { t with
    elementInstances := upsertRow t.elementInstances eik row fun old =>
      { old with scopeKey := scope.getD old.scopeKey } }

/-! ## Deployments -/

/-- `ProcessDeployed`: the row of the version is written unless another row has its id and version. -/
def projectProcessDeployed (t : Tables) (definitionKey : Key) (version : Int) (process : ProcessDefinition) :
    Except String Tables :=
  if t.processDefinitions.vals.any fun r =>
      r.key != definitionKey && r.processId == process.id && r.version == version then
    .error "UNIQUE constraint failed: process_definitions.process_id, process_definitions.version"
  else
    .ok { t with
      processDefinitions := t.processDefinitions.insert definitionKey
        { key := definitionKey, processId := process.id, version, name := process.name, xml := process.xml,
          startFormId := process.startFormId }
      definitionElements := t.definitionElements.insert definitionKey
        (process.elements.foldl
          (fun m id e => m.insert id { elementType := elementTypeName e, elementName := e.name })
          ((t.definitionElements[definitionKey]?).getD ∅)) }

/-- `DecisionRequirementsDeployed`. -/
def projectDecisionRequirements (t : Tables) (drgKey : Key) (version : Int) (drg : DecisionRequirementsGraph) :
    Tables :=
  { t with
    decisionRequirements := t.decisionRequirements.insert drg.id
      { drgId := drg.id, drgKey, name := drg.name, version, resourceName := s!"{drg.id}.dmn", xml := drg.xml } }

/-- `SELECT drg_id, name, version FROM decision_requirements WHERE drg_key = ?1`. -/
def drgOf (t : Tables) (drgKey : Key) : String × String × Int :=
  ((t.decisionRequirements.vals.find? (·.drgKey == drgKey)).map fun r => (r.drgId, r.name, r.version)).getD
    ("", "", 0)

/-- `DecisionDeployed`. -/
def projectDecisionDeployed (t : Tables) (drgKey decisionKey : Key) (decisionId decisionName : String)
    (version : Int) : Tables :=
  let owner := drgOf t drgKey
  { t with
    decisionDefinitions := t.decisionDefinitions.insert decisionId
      { decisionId, decisionKey, name := decisionName, version, decisionRequirementsKey := drgKey,
        decisionRequirementsId := owner.1, decisionRequirementsName := owner.2.1,
        decisionRequirementsVersion := owner.2.2 } }

/-! ## Instances -/

/-- The row of a created instance: the definition it is pinned to, or the latest one of its process. -/
def createdRow (t : Tables) (instanceKey : Key) (processId : String) (createdAt : Nat) (tags : List String)
    (businessId : Option String) (definitionKey : Key) (version : Int)
    (parentProcessInstanceKey parentElementInstanceKey : Option Key) : ProcessInstanceRow :=
  let pinned := if definitionKey ≠ 0 then (toString definitionKey, version) else t.latestDefinition processId
  { key := instanceKey, processId, processDefinitionId := processId, processDefinitionKey := pinned.1,
    version := pinned.2, state := instanceStateCode .active, startDateMs := createdAt, hasIncident := false,
    tags := ",".intercalate tags, businessId, parentProcessInstanceKey, parentElementInstanceKey }

/-- `ProcessInstanceCreated`: only a new row moves the gauge and brings its variables. -/
def projectCreated (t : Tables) (instanceKey : Key) (processId : String) (vars : Vars) (createdAt : Nat)
    (tags : List String) (businessId : Option String) (definitionKey : Key) (version : Int)
    (parentProcessInstanceKey parentElementInstanceKey : Option Key) : Tables × Int :=
  if t.processInstances.contains instanceKey then (t, 0)
  else
    (upsertVariables { t with
      processInstances := t.processInstances.insert instanceKey
        (createdRow t instanceKey processId createdAt tags businessId definitionKey version parentProcessInstanceKey
          parentElementInstanceKey) } instanceKey instanceKey vars, 1)

/-- `UPDATE process_instances .. WHERE key = ?1 AND state = 0`. -/
def updateActiveInstance (t : Tables) (instanceKey : Key) (f : ProcessInstanceRow → ProcessInstanceRow) : Tables :=
  { t with processInstances := updateKey t.processInstances instanceKey (·.state == 0) f }

/-- What the row count of a guarded terminal update makes of the gauge. -/
def terminalDelta (t : Tables) (instanceKey : Key) : Int :=
  if t.processInstances[instanceKey]?.any (·.state == 0) then -1 else 0

/-- `DELETE FROM message_subscriptions WHERE instance_key = ?1`. -/
def dropMessageSubscriptions (t : Tables) (instanceKey : Key) : Tables :=
  { t with messageSubscriptions := deleteWhere t.messageSubscriptions (·.instanceKey == instanceKey) }

/-- `ProcessInstanceCompleted`. -/
def projectCompleted (t : Tables) (instanceKey : Key) : Tables × Int :=
  (dropMessageSubscriptions
    (updateActiveInstance t instanceKey fun r => { r with state := instanceStateCode .completed }) instanceKey,
   terminalDelta t instanceKey)

/-- `ProcessInstanceTerminated`. -/
def projectTerminated (t : Tables) (now : Nat) (instanceKey : Key) : Tables × Int :=
  let t' := updateActiveInstance t instanceKey fun r =>
    { r with state := instanceStateCode .terminated, hasIncident := false }
  (dropMessageSubscriptions
    { t' with
      incidents := updateWhere t'.incidents (fun r => r.instanceKey == instanceKey && r.state == .active)
        fun r => { r with state := .resolved }
      elementInstances := updateWhere t'.elementInstances
        (fun r => r.instanceKey == instanceKey && r.state == .active)
        fun r => { r with state := .terminated, endDateMs := some now, hasIncident := false, incidentKey := none } }
    instanceKey,
   terminalDelta t instanceKey)

/-! ## Message subscriptions -/

/-- `MessageSubscriptionCreated`. -/
def projectMessageSubscription (t : Tables) (now : Nat) (subscriptionKey instanceKey eik : Key)
    (elementId : ElementId) (messageName correlationKey : String) (kind : MessageSubscriptionKind) : Tables :=
  if eik = 0 then t
  else
    { t with
      messageSubscriptions := upsertRow t.messageSubscriptions subscriptionKey
        { subscriptionKey, instanceKey, elementInstanceKey := eik, elementId, messageName, correlationKey,
          createdAtMs := now, nonInterrupting := kind.isNonInterrupting }
        fun old => { old with
          elementInstanceKey := eik, elementId, messageName, correlationKey,
          nonInterrupting := kind.isNonInterrupting } }

def dropMessageSubscription (t : Tables) (subscriptionKey : Key) : Tables :=
  { t with messageSubscriptions := t.messageSubscriptions.erase subscriptionKey }

/-- `MessageCorrelated` and `RemoteMessageCorrelation`. -/
def projectCorrelated (t : Tables) (now : Nat) (subscriptionKey messageKey instanceKey eik : Key)
    (elementId : ElementId) : Tables :=
  match if eik = 0 then none else t.messageSubscriptions[subscriptionKey]? with
  | none => dropMessageSubscription t subscriptionKey
  | some captured =>
    let recorded : Tables :=
      if t.correlatedMessageSubscriptions.any fun r =>
          r.messageKey == messageKey && r.subscriptionKey == subscriptionKey then t
      else
        { t with
          correlatedMessageSubscriptions := t.correlatedMessageSubscriptions ++
            [{ messageKey, subscriptionKey, instanceKey, elementInstanceKey := eik, elementId,
               messageName := captured.messageName, correlationKey := captured.correlationKey,
               correlationTimeMs := now, partitionId := partitionOf subscriptionKey + 1 }] }
    -- a non-interrupting boundary stays open for the next message
    if captured.nonInterrupting then recorded else dropMessageSubscription recorded subscriptionKey

/-! ## Jobs -/

/-- `JobCreated` and `ExecutionListenerJobCreated`. -/
def projectJobCreated (t : Tables) (jobKey instanceKey eik : Key) (elementId : ElementId) (jobType : String)
    (retries : Int) (createdAt : Nat) (kind : Nat × Nat) : Tables :=
  let definition := t.instanceDef instanceKey
  { t with
    jobs := upsertRow t.jobs jobKey
      { key := jobKey, instanceKey, elementInstanceKey := eik, elementId, jobType, state := .created, retries,
        processDefinitionId := definition.1, processDefinitionKey := definition.2, jobKind := kind.1,
        listenerEventType := kind.2, createdAtMs := createdAt }
      fun old => { old with
        state := .created, retries, worker := none, deadlineMs := none, createdAtMs := createdAt } }

/-- `UPDATE jobs SET .. WHERE key = ?1`. -/
def updateJob (t : Tables) (jobKey : Key) (f : JobRow → JobRow) : Tables :=
  { t with jobs := t.jobs.modify jobKey f }

/-- `JobActivated`: the read set is only overwritten by an activation that declares one. -/
def JobRow.activate (r : JobRow) (worker : String) (deadline : Nat) (fetchVariables : List String)
    (leaseToken : Option String) : JobRow :=
  { r with
    state := .activated, worker := workerAttribution (some worker), deadlineMs := some deadline, leaseToken,
    readSet := if fetchVariables.isEmpty then r.readSet else fetchVariables }

/-- A row going back to the pool. -/
def JobRow.release (r : JobRow) : JobRow := { r with state := .created, worker := none, deadlineMs := none }

/-- A terminal row: `worker = COALESCE(?, NULLIF(worker, ''))`. -/
def JobRow.settle (r : JobRow) (state : JobState) (worker : Option String) : JobRow :=
  { r with state, worker := (workerAttribution worker).or (workerAttribution r.worker), deadlineMs := none }

/-- `JobFailed`. -/
def JobRow.fail (r : JobRow) (retries : Int) (worker : Option String) : JobRow :=
  if 0 < retries then { r.release with retries } else { r.settle .failed worker with retries }

/-! ## User tasks -/

/-- The row of a created user task. -/
def createdTaskRow (t : Tables) (userTaskKey instanceKey eik : Key) (elementId : ElementId)
    (createdAt : Nat) (assignee : Option String) (candidateGroups candidateUsers : List String)
    (dueDate followUpDate : Option String) (priority : Int) (formKey : Option Key)
    (externalFormReference : Option String) : UserTaskRow :=
  let definition := t.instanceDef instanceKey
  { key := userTaskKey, instanceKey, elementInstanceKey := eik, elementId, state := .created, assignee,
    candidateGroups, candidateUsers, dueDate, followUpDate, priority, createdAtMs := createdAt,
    processDefinitionId := definition.1, processDefinitionKey := definition.2,
    processDefinitionVersion := t.instanceVersion instanceKey, formKey, externalFormReference }

/-- `UserTaskCreated`. -/
def projectUserTaskCreated (t : Tables) (userTaskKey instanceKey eik : Key) (elementId : ElementId)
    (createdAt : Nat) (assignee : Option String) (candidateGroups candidateUsers : List String)
    (dueDate followUpDate : Option String) (priority : Int) (formKey : Option Key)
    (externalFormReference : Option String) : Tables :=
  { t with
    userTasks := upsertRow t.userTasks userTaskKey
      (createdTaskRow t userTaskKey instanceKey eik elementId createdAt assignee candidateGroups candidateUsers dueDate
        followUpDate priority formKey externalFormReference)
      fun old => { old with state := .created } }

/-- `UPDATE user_tasks SET .. WHERE key = ?1`. -/
def updateUserTask (t : Tables) (userTaskKey : Key) (f : UserTaskRow → UserTaskRow) : Tables :=
  { t with userTasks := t.userTasks.modify userTaskKey f }

/-- `UserTaskUpdated`: one statement for each field that is given. -/
def UserTaskRow.revise (r : UserTaskRow) (candidateGroups candidateUsers : Option (List String))
    (dueDate followUpDate : Option (Option String)) (priority : Option Int) : UserTaskRow :=
  { r with
    candidateGroups := candidateGroups.getD r.candidateGroups
    candidateUsers := candidateUsers.getD r.candidateUsers
    dueDate := dueDate.getD r.dueDate
    followUpDate := followUpDate.getD r.followUpDate
    priority := priority.getD r.priority }

/-! ## Incidents -/

/-- `IncidentRaised`. -/
def projectIncidentRaised (t : Tables) (incidentKey instanceKey eik : Key) (elementId : ElementId)
    (kind : IncidentKind) (reason : String) (jobKey : Option Key) (createdAt : Nat) : Tables :=
  let definition := t.instanceDef instanceKey
  { t with
    incidents := upsertRow t.incidents incidentKey
      { key := incidentKey, instanceKey, elementInstanceKey := eik, elementId, kind, state := .active, reason,
        jobKey, createdAtMs := createdAt, processDefinitionId := definition.1,
        processDefinitionKey := definition.2 }
      fun old => { old with state := .active }
    processInstances := t.processInstances.modify instanceKey fun r => { r with hasIncident := true }
    elementInstances := t.elementInstances.modify eik fun r =>
      { r with hasIncident := true, incidentKey := some incidentKey } }

/-- `SELECT COUNT(*) FROM incidents WHERE instance_key = ?1 AND state = ?2` over zero. -/
def hasActiveIncident (incidents : KeyMap IncidentRow) (instanceKey : Key) : Bool :=
  incidents.vals.any fun r => r.instanceKey == instanceKey && r.state == .active

/-- `IncidentResolved`: a parked job goes back to the pool. -/
def projectIncidentResolved (t : Tables) (incidentKey instanceKey : Key) (jobKey : Option Key) : Tables :=
  let incidents := t.incidents.modify incidentKey fun r => { r with state := .resolved }
  { t with
    incidents
    processInstances := t.processInstances.modify instanceKey fun r =>
      { r with hasIncident := hasActiveIncident incidents instanceKey }
    elementInstances := updateWhere t.elementInstances (·.incidentKey == some incidentKey)
      fun r => { r with hasIncident := false, incidentKey := none }
    jobs := match jobKey with
      | some j => t.jobs.modify j JobRow.release
      | none => t.jobs }

/-! ## Decisions (`store.rs:4942-5067`) -/

/-- `format!("{root_decision_key}-{idx}")`. -/
def evalInstanceKey (rootDecisionKey : Key) (idx : Nat) : String := s!"{rootDecisionKey}-{idx}"

/-- The row of the evaluated decision at place `idx` of an evaluation. -/
def decisionRow (t : Tables) (instanceKey eik rootDecisionKey : Key) (evaluatedAt : Nat)
    (ed : EvaluatedDecision) (idx : Nat) : DecisionInstanceRow :=
  let (decisionKey, version, drgId, drgKey) :=
    ((t.decisionDefinitions[ed.decisionId]?).map fun r =>
      (r.decisionKey, r.version, r.decisionRequirementsId, r.decisionRequirementsKey)).getD
        (rootDecisionKey, 1, "", 0)
  { evalInstanceKey := evalInstanceKey rootDecisionKey idx
    decisionEvaluationKey := rootDecisionKey
    idx
    decisionId := ed.decisionId
    decisionKey
    decisionName := ed.decisionName
    decisionType := ed.decisionType
    version
    decisionRequirementsId := drgId
    decisionRequirementsKey := drgKey
    rootDecisionKey
    instanceKey
    elementInstanceKey := eik
    processDefinitionKey := ((t.processInstances[instanceKey]?).map (·.processDefinitionKey)).getD ""
    evaluationDateMs := evaluatedAt
    result := ed.decisionOutput
    inputs := ed.evaluatedInputs
    rules := ed.matchedRules }

/-- `INSERT .. ON CONFLICT(eval_instance_key) DO NOTHING`. -/
def insertDecisionRow (rows : StrMap DecisionInstanceRow) (r : DecisionInstanceRow) : StrMap DecisionInstanceRow :=
  rows.insertIfNew r.evalInstanceKey r

/-- The rows of one evaluation: the decisions it evaluated, numbered from 1. -/
def decisionRows (t : Tables) (instanceKey eik rootDecisionKey : Key) (evaluatedAt : Nat)
    (evaluated : List EvaluatedDecision) : List DecisionInstanceRow :=
  evaluated.zipIdx.map fun (ed, i) => decisionRow t instanceKey eik rootDecisionKey evaluatedAt ed (i + 1)

/-- `DecisionEvaluated`. -/
def projectDecisionEvaluated (t : Tables) (instanceKey eik rootDecisionKey : Key)
    (evaluated : List EvaluatedDecision) (evaluatedAt : Nat) : Tables :=
  { t with
    decisionInstances :=
      (decisionRows t instanceKey eik rootDecisionKey evaluatedAt evaluated).foldl insertDecisionRow
        t.decisionInstances }

/-- `DecisionInstanceDeleted`. -/
def projectDecisionDeleted (t : Tables) (decisionEvaluationKey : Key) : Tables :=
  { t with
    decisionInstances := t.decisionInstances.filter fun _ r =>
      !(r.decisionEvaluationKey == decisionEvaluationKey) }

/-! ## Migration (`store.rs:5069-5262`) -/

/-- The name a row takes between the two phases: `SOH` is in no element id. -/
def migrationTemp (target : ElementId) : ElementId := "\x01mig:" ++ target

/-- Phase A for one mapping. -/
def stampMigration (instanceKey : Key) (t : Tables) (mapping : ElementId × ElementId) : Tables :=
  let temp := migrationTemp mapping.2
  { t with
    elementInstances := updateWhere t.elementInstances
      (fun r => r.instanceKey == instanceKey && r.elementId == mapping.1 && r.state == .active)
      fun r => { r with elementId := temp }
    jobs := updateWhere t.jobs (fun r => r.instanceKey == instanceKey && r.elementId == mapping.1)
      fun r => { r with elementId := temp }
    userTasks := updateWhere t.userTasks (fun r => r.instanceKey == instanceKey && r.elementId == mapping.1)
      fun r => { r with elementId := temp }
    incidents := updateWhere t.incidents (fun r => r.instanceKey == instanceKey && r.elementId == mapping.1)
      fun r => { r with elementId := temp }
    messageSubscriptions := updateWhere t.messageSubscriptions
      (fun r => r.instanceKey == instanceKey && r.elementId == mapping.1)
      fun r => { r with elementId := temp } }

/-- Phase B for one target. -/
def resolveMigration (instanceKey : Key) (processId : String) (definitionKey : Key) (version : Int)
    (t : Tables) (target : ElementId) : Except String Tables :=
  let temp := migrationTemp target
  let keyText := toString definitionKey
  match (t.definitionElements[definitionKey]?).bind fun es => es[target]? with
  | none => .error s!"migration projection: target element '{target}' missing from definition_elements for process definition key {definitionKey}"
  | some element => .ok { t with
    elementInstances := updateWhere t.elementInstances
      (fun r => r.instanceKey == instanceKey && r.elementId == temp)
      fun r => { r with
        elementId := target, elementName := element.elementName, elementType := element.elementType,
        processDefinitionId := processId, processDefinitionKey := keyText }
    jobs := updateWhere t.jobs (fun r => r.instanceKey == instanceKey && r.elementId == temp)
      fun r => { r with
        elementId := target, processDefinitionId := processId, processDefinitionKey := keyText }
    userTasks := updateWhere t.userTasks (fun r => r.instanceKey == instanceKey && r.elementId == temp)
      fun r => { r with
        elementId := target, processDefinitionId := processId, processDefinitionKey := keyText,
        processDefinitionVersion := version }
    incidents := updateWhere t.incidents (fun r => r.instanceKey == instanceKey && r.elementId == temp)
      fun r => { r with
        elementId := target, processDefinitionId := processId, processDefinitionKey := keyText }
    messageSubscriptions := updateWhere t.messageSubscriptions
      (fun r => r.instanceKey == instanceKey && r.elementId == temp)
      fun r => { r with elementId := target } }

/-- Step 1: the instance row. -/
def repointInstance (t : Tables) (instanceKey : Key) (processId : String) (definitionKey : Key) (version : Int) :
    Tables :=
  { t with
    processInstances := t.processInstances.modify instanceKey fun r => { r with
      processId, processDefinitionId := processId, processDefinitionKey := toString definitionKey, version } }

/-- The last step: the variables of the instance. -/
def rehomeVariables (t : Tables) (instanceKey : Key) (processId : String) (definitionKey : Key) : Tables :=
  { t with
    vars := { t.vars with
      rows := t.vars.rows.map fun r =>
        if r.instanceKey == instanceKey then
          { r with processDefinitionId := processId, processDefinitionKey := toString definitionKey }
        else r } }

/-- `ProcessInstanceMigrated`; a target that several mappings name is resolved once. -/
def projectMigrated (t : Tables) (instanceKey : Key) (processId : String) (definitionKey : Key)
    (mappings : List (ElementId × ElementId)) : Except String Tables :=
  match t.processDefinitions[definitionKey]? with
  | none => .error s!"migration projection: target process definition key {definitionKey} missing from process_definitions"
  | some definition => do
    let resolved ← (mappings.map (·.2)).eraseDups.foldlM
      (resolveMigration instanceKey processId definitionKey definition.version)
      (mappings.foldl (stampMigration instanceKey)
        (repointInstance t instanceKey processId definitionKey definition.version))
    return rehomeVariables resolved instanceKey processId definitionKey

/-- A part of the tables that no turn of a loop touches. -/
theorem foldl_keeps {α β : Type} (part : Tables → β) {f : Tables → α → Tables} (hf : ∀ t a, part (f t a) = part t)
    (xs : List α) (t : Tables) : part (xs.foldl f t) = part t := by
  induction xs generalizing t with
  | nil => rfl
  | cons x xs ih => rw [List.foldl_cons, ih, hf]

/-- A part of the tables that neither phase touches is as the first step left it. -/
theorem projectMigrated_keeps {β : Type} (part : Tables → β) {t t' : Tables} {instanceKey : Key} {processId : String}
    {definitionKey : Key} {mappings : List (ElementId × ElementId)}
    (hstamp : ∀ s m, part (stampMigration instanceKey s m) = part s)
    (hresolve : ∀ version s target s', resolveMigration instanceKey processId definitionKey version s target = .ok s' →
      part s' = part s)
    (h : projectMigrated t instanceKey processId definitionKey mappings = .ok t') :
    ∃ definition resolved, t.processDefinitions[definitionKey]? = some definition ∧
      t' = rehomeVariables resolved instanceKey processId definitionKey ∧
        part resolved = part (repointInstance t instanceKey processId definitionKey definition.version) := by
  unfold projectMigrated at h
  split at h
  · cases h
  · next definition hdefinition =>
    obtain ⟨resolved, hresolved, hend⟩ := Except.bind_eq_ok.mp h
    cases hend
    refine ⟨definition, resolved, hdefinition, rfl, ?_⟩
    refine Except.foldlM_inv
      (fun s => part s = part (repointInstance t instanceKey processId definitionKey definition.version)) ?_ hresolved ?_
    · exact fun s target s' _ hs hsame => (hresolve _ s target s' hs).trans hsame
    · exact foldl_keeps part hstamp mappings _

/-! ## Agents (`store.rs:5351-5530`) -/

/-- `project_agent_instance`: on a conflict the identity the row was created with stays. -/
def projectAgentInstance (t : Tables) (ai : AgentInstance) : Tables :=
  { t with
    agentInstances := upsertRow t.agentInstances ai.agentInstanceKey ai fun old => { ai with
      agentDefinitionKey := old.agentDefinitionKey
      elementId := old.elementId
      processInstanceKey := old.processInstanceKey
      rootProcessInstanceKey := old.rootProcessInstanceKey
      processDefinitionKey := old.processDefinitionKey
      bpmnProcessId := old.bpmnProcessId
      processDefinitionVersion := old.processDefinitionVersion
      tenantId := old.tenantId
      agentType := old.agentType
      createdAt := old.createdAt } }

/-- `project_agent_history_record`: a turn that is there stays; the changed attributes have no column. -/
def projectAgentHistoryRecord (t : Tables) (r : AgentHistoryRecord) : Tables :=
  { t with
    agentHistory := t.agentHistory.insertIfNew r.agentHistoryKey { r with changedAttributes := [] } }

/-- `transition_agent_history`: only a pending turn moves. -/
def transitionAgentHistory (t : Tables) (agentInstanceKey : Key) (agentHistoryKeys : List Key)
    (target : AgentHistoryCommitStatus) : Tables :=
  { t with
    agentHistory := updateWhere t.agentHistory
      (fun r => r.agentInstanceKey == agentInstanceKey && r.commitStatus == .pending &&
        agentHistoryKeys.contains r.agentHistoryKey)
      fun r => { r with commitStatus := target } }

/-! ## `project` (`store.rs:3946`) -/

/-- `project`: the tables after one event, and what it adds to the in-flight gauge. -/
def project (t : Tables) (now : Nat) : Event → Except String (Tables × Int)
  | .processDeployed _ definitionKey version process => do
    return (← projectProcessDeployed t definitionKey version process, 0)
  | .processInstanceCreated i processId vars createdAt tags businessId definitionKey version parent parentElement =>
    .ok (projectCreated t i processId vars createdAt tags businessId definitionKey version parent parentElement)
  | .processInstanceCompleted i => .ok (projectCompleted t i)
  | .processInstanceTerminated i => .ok (projectTerminated t now i)
  | .processInstanceSuspended i at_ =>
    .ok (updateActiveInstance t i fun r => { r with suspendedDateMs := some at_ }, 0)
  | .processInstanceResumed i =>
    .ok ({ t with
      processInstances := t.processInstances.modify i fun r => { r with suspendedDateMs := none } }, 0)
  | .elementActivating i eik elementId => .ok (upsertElementInstance t now i eik elementId none, 0)
  | .elementActivated i eik elementId scope => .ok (upsertElementInstance t now i eik elementId (some scope), 0)
  | .elementCompleted _ eik _ =>
    .ok ({ t with
      elementInstances := updateKey t.elementInstances eik (·.state == .active)
        fun r => { r with state := .completed, endDateMs := some now } }, 0)
  | .messageSubscriptionCreated s i eik elementId messageName correlationKey kind =>
    .ok (projectMessageSubscription t now s i eik elementId messageName correlationKey kind, 0)
  | .messageCorrelated s m i eik elementId => .ok (projectCorrelated t now s m i eik elementId, 0)
  | .remoteMessageCorrelation s m i eik elementId _ _ => .ok (projectCorrelated t now s m i eik elementId, 0)
  | .messageSubscriptionCanceled s _ _ _ => .ok (dropMessageSubscription t s, 0)
  | .jobCreated j i eik elementId jobType createdAt _ retries =>
    .ok (projectJobCreated t j i eik elementId jobType retries createdAt (jobKindCodes .bpmnElement), 0)
  | .executionListenerJobCreated j i eik elementId jobType eventType _ _ createdAt retries =>
    .ok (projectJobCreated t j i eik elementId jobType retries createdAt
      (jobKindCodes (.executionListener eventType 0 0)), 0)
  | .jobActivated j _ _ worker deadline _ fetchVariables leaseToken =>
    .ok (updateJob t j (·.activate worker deadline fetchVariables leaseToken), 0)
  | .jobLockExpired j _ =>
    .ok ({ t with jobs := updateKey t.jobs j (·.state == .activated) JobRow.release }, 0)
  | .jobFailed j _ retries worker => .ok (updateJob t j (·.fail retries worker), 0)
  | .jobErrorThrown j _ _ worker => .ok (updateJob t j (·.settle .errored worker), 0)
  | .jobCompleted j _ _ _ worker => .ok (updateJob t j (·.settle .completed worker), 0)
  | .jobCanceled j _ =>
    .ok (updateJob t j fun r => { r with state := .canceled, worker := none, deadlineMs := none }, 0)
  | .jobRetriesUpdated j _ retries _ => .ok (updateJob t j ({ · with retries }), 0)
  | .jobTimeoutUpdated j _ deadline _ => .ok (updateJob t j ({ · with deadlineMs := some deadline }), 0)
  | .userTaskCreated u i eik elementId createdAt assignee groups users due followUp priority formKey external =>
    .ok (projectUserTaskCreated t u i eik elementId createdAt assignee groups users due followUp priority formKey
      external, 0)
  | .userTaskAssigned u _ assignee => .ok (updateUserTask t u ({ · with assignee }), 0)
  | .userTaskUpdated u _ groups users due followUp priority =>
    .ok (updateUserTask t u (·.revise groups users due followUp priority), 0)
  | .userTaskCompleted u _ => .ok (updateUserTask t u ({ · with state := .completed }), 0)
  | .userTaskCanceled u _ => .ok (updateUserTask t u ({ · with state := .canceled }), 0)
  | .incidentRaised k i eik elementId kind _ reason jobKey createdAt =>
    .ok (projectIncidentRaised t k i eik elementId kind reason jobKey createdAt, 0)
  | .incidentResolved k i jobKey _ _ => .ok (projectIncidentResolved t k i jobKey, 0)
  | .variablesUpdated i vars => .ok (upsertVariables t i i vars, 0)
  | .scopedVariablesUpdated i scope vars => .ok (upsertVariables t i scope vars, 0)
  | .decisionRequirementsDeployed _ drgKey version drg => .ok (projectDecisionRequirements t drgKey version drg, 0)
  | .decisionDeployed _ drgKey decisionKey decisionId decisionName version =>
    .ok (projectDecisionDeployed t drgKey decisionKey decisionId decisionName version, 0)
  | .formDeployed _ formKey version formId resourceName schema =>
    .ok ({ t with forms := t.forms.insert formKey { formKey, formId, version, schema, resourceName } }, 0)
  | .genericResourceDeployed _ resourceKey version resourceId resourceName content =>
    .ok ({ t with
      resources := t.resources.insert resourceKey { resourceKey, resourceId, resourceName, version, content } }, 0)
  | .decisionEvaluated i eik _ rootDecisionKey _ _ evaluated evaluatedAt =>
    .ok (projectDecisionEvaluated t i eik rootDecisionKey evaluated evaluatedAt, 0)
  | .decisionInstanceDeleted _ decisionEvaluationKey => .ok (projectDecisionDeleted t decisionEvaluationKey, 0)
  | .processInstanceMigrated i processId definitionKey mappings => do
    return (← projectMigrated t i processId definitionKey mappings, 0)
  | .agentInstanceCreated _ ai | .agentInstanceUpdated _ ai | .agentInstanceCompleted _ ai =>
    .ok (projectAgentInstance t ai, 0)
  | .agentHistoryCreated _ r => .ok (projectAgentHistoryRecord t r, 0)
  | .agentHistoryCommitted _ agent keys => .ok (transitionAgentHistory t agent keys .committed, 0)
  | .agentHistoryDiscarded _ agent keys => .ok (transitionAgentHistory t agent keys .discarded, 0)
  | _ => .ok (t, 0)

end NanoBpm.ReadModel
