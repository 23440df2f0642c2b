import NanoBpm.Event

/-!
# The tables of the read model (`read-model/src/store.rs`, `SCHEMA`)

A table with an integer primary key is a `KeyMap` of its rows, one with a text primary key a
`StrMap`. `variables` has two unique constraints (its number and its cell), so it is a list of rows.
A key column holds the key as `i64`, which is one to one on `u64`, and is kept as the key; a column
that holds the number of a state is kept as the state wherever the numbering is one to one. A JSON
column is kept as the value it encodes. The `agent_instances` and `agent_history` columns are the
fields of the two engine records.
-/

namespace NanoBpm.ReadModel

/-! ## Codes (`store.rs:757-1062`) -/

/-- `instance_state_code`: a suspended instance keeps the code of an active one. -/
def instanceStateCode : ProcessInstanceState → Nat
  | .active => 0
  | .completed => 1
  | .terminated => 2
  | .terminating => 3
  | .suspended => 0

/-- `TERMINAL_INSTANCE_STATE_CODES`. -/
def terminalInstanceStateCodes : List Nat := [instanceStateCode .completed, instanceStateCode .terminated]

inductive ElementInstanceState where
  | active | completed | terminated
deriving DecidableEq, Inhabited

/-- `job_kind_codes`: the index and the scope of a listener job are not stored. -/
def jobKindCodes : JobKind → Nat × Nat
  | .bpmnElement => (0, 0)
  | .executionListener .start .. => (1, 0)
  | .executionListener .end .. => (1, 1)
  | .taskListener eventType .. =>
    (2, match eventType with
      | .creating => 0
      | .assigning => 1
      | .updating => 2
      | .completing => 3
      | .canceling => 4)

/-- `ElementKind::type_name` (`model.rs:1054`). -/
def typeName : ElementKind → String
  | .startEvent | .messageStartEvent _ | .timerStartEvent .. => "START_EVENT"
  | .endEvent | .terminateEndEvent => "END_EVENT"
  | .intermediateThrowEvent | .linkIntermediateThrowEvent _ | .compensationThrowEvent
  | .escalationThrowEvent _ => "INTERMEDIATE_THROW_EVENT"
  | .task => "TASK"
  | .timerIntermediateCatchEvent _ | .messageIntermediateCatchEvent .. | .signalIntermediateCatchEvent _
  | .linkIntermediateCatchEvent _ | .conditionalIntermediateCatchEvent _ => "INTERMEDIATE_CATCH_EVENT"
  | .errorBoundaryEvent .. | .timerBoundaryEvent .. | .messageBoundaryEvent .. | .signalBoundaryEvent ..
  | .conditionalBoundaryEvent .. | .escalationBoundaryEvent .. | .compensationBoundaryEvent .. =>
    "BOUNDARY_EVENT"
  | .serviceTask .. | .agentTask .. => "SERVICE_TASK"
  | .businessRuleTask .. => "BUSINESS_RULE_TASK"
  | .scriptTask .. => "SCRIPT_TASK"
  | .userTask _ => "USER_TASK"
  | .exclusiveGateway => "EXCLUSIVE_GATEWAY"
  | .parallelGateway => "PARALLEL_GATEWAY"
  | .inclusiveGateway => "INCLUSIVE_GATEWAY"
  | .eventBasedGateway => "EVENT_BASED_GATEWAY"
  | .subProcess _ => "SUB_PROCESS"
  | .callActivity .. => "CALL_ACTIVITY"

/-- `element_type_name` (`store.rs:3376`): a throw event that nothing follows is an end event. -/
def elementTypeName (e : Element) : String :=
  match e.kind with
  | .compensationThrowEvent | .escalationThrowEvent _ =>
    if e.outgoing.isEmpty then "END_EVENT" else typeName e.kind
  | _ => typeName e.kind

/-- `ADHOC_INNER_INSTANCE_ID_POSTFIX`. -/
def adhocInnerInstanceIdPostfix : String := "#innerInstance"

/-- `worker_attribution` (`store.rs:3932`): an empty worker is none. -/
def workerAttribution (worker : Option String) : Option String := worker.filter (! ·.isEmpty)

/-! ## Rows -/

structure ProcessDefinitionRow where
  key : Key
  processId : String
  version : Int
  name : Option String
  xml : String
  startFormId : Option String
deriving DecidableEq

/-- A row of `definition_elements`. -/
structure DefinitionElementRow where
  elementType : String
  elementName : Option String
deriving DecidableEq

structure ProcessInstanceRow where
  key : Key
  processId : String
  processDefinitionId : String
  processDefinitionKey : String
  version : Int
  state : Nat
  startDateMs : Nat
  hasIncident : Bool
  tags : String
  businessId : Option String
  parentProcessInstanceKey : Option Key
  parentElementInstanceKey : Option Key
  suspendedDateMs : Option Nat := none
deriving DecidableEq

structure JobRow where
  key : Key
  instanceKey : Key
  elementInstanceKey : Key
  elementId : ElementId
  jobType : String
  state : JobState
  retries : Int
  worker : Option String := none
  deadlineMs : Option Nat := none
  processDefinitionId : String
  processDefinitionKey : String
  jobKind : Nat := 0
  listenerEventType : Nat := 0
  createdAtMs : Nat := 0
  readSet : List String := []
  leaseToken : Option String := none
deriving DecidableEq

structure IncidentRow where
  key : Key
  instanceKey : Key
  elementInstanceKey : Key
  elementId : ElementId
  kind : IncidentKind
  state : IncidentState
  reason : String
  jobKey : Option Key
  createdAtMs : Nat
  processDefinitionId : String
  processDefinitionKey : String
deriving DecidableEq

structure UserTaskRow where
  key : Key
  instanceKey : Key
  elementInstanceKey : Key
  elementId : ElementId
  state : UserTaskState
  assignee : Option String
  candidateGroups : List String
  candidateUsers : List String
  dueDate : Option String
  followUpDate : Option String
  priority : Int
  createdAtMs : Nat
  processDefinitionId : String
  processDefinitionKey : String
  processDefinitionVersion : Int
  formKey : Option Key
  externalFormReference : Option String
deriving DecidableEq

structure VariableRow where
  key : Nat
  instanceKey : Key
  scopeKey : Key
  name : String
  value : Value
  processDefinitionId : String
  processDefinitionKey : String

structure DecisionRequirementsRow where
  drgId : String
  drgKey : Key
  name : String
  version : Int
  resourceName : String
  xml : String
deriving DecidableEq

structure DecisionDefinitionRow where
  decisionId : String
  decisionKey : Key
  name : String
  version : Int
  decisionRequirementsKey : Key
  decisionRequirementsId : String
  decisionRequirementsName : String
  decisionRequirementsVersion : Int
deriving DecidableEq

/-- A row of `decision_instances`; `state`, `evaluation_failure` and `tenant_id` are constants. -/
structure DecisionInstanceRow where
  evalInstanceKey : String
  decisionEvaluationKey : Key
  idx : Nat
  decisionId : String
  decisionKey : Key
  decisionName : String
  decisionType : DecisionType
  version : Int
  decisionRequirementsId : String
  decisionRequirementsKey : Key
  rootDecisionKey : Key
  instanceKey : Key
  elementInstanceKey : Key
  processDefinitionKey : String
  evaluationDateMs : Nat
  result : Value
  inputs : List EvaluatedInput
  rules : List MatchedRule

structure ElementInstanceRow where
  elementInstanceKey : Key
  instanceKey : Key
  processDefinitionId : String
  processDefinitionKey : String
  elementId : ElementId
  elementName : Option String
  elementType : String
  state : ElementInstanceState := .active
  startDateMs : Nat
  endDateMs : Option Nat := none
  scopeKey : Key
  incidentKey : Option Key := none
  hasIncident : Bool := false
deriving DecidableEq

structure MessageSubscriptionRow where
  subscriptionKey : Key
  instanceKey : Key
  elementInstanceKey : Key
  elementId : ElementId
  messageName : String
  correlationKey : String
  createdAtMs : Nat
  nonInterrupting : Bool
deriving DecidableEq

structure CorrelatedMessageSubscriptionRow where
  messageKey : Key
  subscriptionKey : Key
  instanceKey : Key
  elementInstanceKey : Key
  elementId : ElementId
  messageName : String
  correlationKey : String
  correlationTimeMs : Nat
  partitionId : Nat
deriving DecidableEq

structure FormRow where
  formKey : Key
  formId : String
  version : Int
  schema : String
  resourceName : String
deriving DecidableEq

structure ResourceRow where
  resourceKey : Key
  resourceId : String
  resourceName : String
  version : Int
  content : String
deriving DecidableEq

/-! ## The database -/

/-- `variables`, with the number `sqlite_sequence` keeps for its `AUTOINCREMENT` key. -/
structure VariableTable where
  rows : List VariableRow := []
  sequence : Nat := 0

/-- The tables of one shard, and the two rows of `meta` that its functions read. -/
structure Tables where
  exportedPosition : Nat := 0
  terminalArchiveBackfilled : Bool := false
  processDefinitions : KeyMap ProcessDefinitionRow := ∅
  definitionElements : KeyMap (StrMap DefinitionElementRow) := ∅
  processInstances : KeyMap ProcessInstanceRow := ∅
  jobs : KeyMap JobRow := ∅
  incidents : KeyMap IncidentRow := ∅
  userTasks : KeyMap UserTaskRow := ∅
  vars : VariableTable := {}
  decisionRequirements : StrMap DecisionRequirementsRow := ∅
  decisionDefinitions : StrMap DecisionDefinitionRow := ∅
  decisionInstances : StrMap DecisionInstanceRow := ∅
  elementInstances : KeyMap ElementInstanceRow := ∅
  messageSubscriptions : KeyMap MessageSubscriptionRow := ∅
  correlatedMessageSubscriptions : List CorrelatedMessageSubscriptionRow := []
  forms : KeyMap FormRow := ∅
  resources : KeyMap ResourceRow := ∅
  agentInstances : KeyMap AgentInstance := ∅
  agentHistory : KeyMap AgentHistoryRecord := ∅

/-! ## Statements -/

section Statements

variable {ρ : Type}

/-- `UPDATE t SET .. WHERE key = k AND p`. -/
def updateKey (t : KeyMap ρ) (k : Key) (p : ρ → Bool) (f : ρ → ρ) : KeyMap ρ :=
  t.modify k fun r => if p r then f r else r

/-- `UPDATE t SET .. WHERE p`. -/
def updateWhere (t : KeyMap ρ) (p : ρ → Bool) (f : ρ → ρ) : KeyMap ρ :=
  t.map fun _ r => if p r then f r else r

/-- `DELETE FROM t WHERE p`. -/
def deleteWhere (t : KeyMap ρ) (p : ρ → Bool) : KeyMap ρ := t.filter fun _ r => !p r

/-- `INSERT INTO t .. ON CONFLICT(key) DO UPDATE SET ..`: `f` is what the update makes of the row
that is there and the one that was to be inserted. -/
def upsertRow (t : KeyMap ρ) (k : Key) (r : ρ) (f : ρ → ρ) : KeyMap ρ :=
  match t[k]? with
  | some old => t.insert k (f old)
  | none => t.insert k r

@[simp] theorem getElem?_updateKey (t : KeyMap ρ) (k : Key) (p : ρ → Bool) (f : ρ → ρ) (j : Key) :
    (updateKey t k p f)[j]? = if k = j then t[j]?.map fun r => if p r then f r else r else t[j]? := by
  simp only [updateKey, Std.ExtTreeMap.getElem?_modify, Std.LawfulEqCmp.compare_eq_iff_eq]
  by_cases h : k = j
  · subst h
    simp
  · simp [h]

@[simp] theorem getElem?_updateWhere (t : KeyMap ρ) (p : ρ → Bool) (f : ρ → ρ) (j : Key) :
    (updateWhere t p f)[j]? = t[j]?.map fun r => if p r then f r else r := by
  simp [updateWhere]

@[simp] theorem getElem?_deleteWhere (t : KeyMap ρ) (p : ρ → Bool) (j : Key) :
    (deleteWhere t p)[j]? = t[j]?.filter (! p ·) := by
  simp only [deleteWhere, Std.ExtTreeMap.getElem?_filter']

@[simp] theorem getElem?_upsertRow (t : KeyMap ρ) (k : Key) (r : ρ) (f : ρ → ρ) (j : Key) :
    (upsertRow t k r f)[j]? = if k = j then some ((t[k]?.map f).getD r) else t[j]? := by
  unfold upsertRow
  cases h : t[k]? <;> simp [Std.ExtTreeMap.getElem?_insert]

end Statements

end NanoBpm.ReadModel
