import NanoBpm.Lib.Index

/-!
# Process model and values (`engine-core/src/model.rs`, `agent.rs`, `dmn/model.rs`)

Rust `HashMap`/`BTreeMap` are `Std.ExtTreeMap`: equal maps are equal values, and iteration is in key
order. `HashMap` iteration order is unspecified in the source, so the model fixes one order; the
places where the source's result depends on it sort first. Maps nested inside `Value` are lists of
entries, since an inductive type cannot recurse through a quotient. An `f64` is kept as its bits.
-/

namespace NanoBpm

/-- `model::ElementId`. -/
abbrev ElementId := String

/-- `state::Key` (`types.rs:22`): a `u64`; the high 13 bits name the partition that minted it. -/
abbrev Key := Nat

abbrev KeyMap (β : Type) := Std.ExtTreeMap Key β
abbrev StrMap (β : Type) := Std.ExtTreeMap String β
abbrev KeySet := Std.ExtTreeSet Key

/-- `model::Value` (`model.rs:37`). -/
inductive Value where
  | null
  | bool (b : Bool)
  | int (i : Int)
  | double (bits : UInt64)
  | str (s : String)
  | list (items : List Value)
  | map (entries : List (String × Value))
deriving Inhabited

/-- A variable scope: `HashMap<String, Value>`. -/
abbrev Vars := StrMap Value

/-- `map.extend(updates)` on a variable scope. -/
def Vars.extend (vars updates : Vars) : Vars :=
  updates.foldl (fun m k v => m.insert k v) vars

/-! ## Flows, mappings, listeners -/

structure Condition where
  expression : String
deriving DecidableEq, Inhabited

/-- An incoming flow of a join: its source element and its position among the flows from that
source to the join (`model.rs:150`). -/
structure IncomingFlow where
  source : ElementId
  ordinal : Nat
deriving DecidableEq, Inhabited

structure SequenceFlow where
  target : ElementId
  condition : Option Condition := none
  isDefault : Bool := false
deriving DecidableEq, Inhabited

structure Mapping where
  source : String
  target : String
deriving DecidableEq, Inhabited

structure IoMapping where
  inputs : List Mapping := []
  outputs : List Mapping := []
deriving DecidableEq, Inhabited

def IoMapping.isEmpty (io : IoMapping) : Bool := io.inputs.isEmpty && io.outputs.isEmpty

inductive BindingType where
  | deployment | latest | versionTag
deriving DecidableEq, Inhabited

structure LinkedResource where
  resourceId : String
  bindingType : BindingType := .latest
  resourceType : String
  versionTag : Option String
  linkName : String
deriving DecidableEq, Inhabited

inductive ListenerEventType where
  | start | «end»
deriving DecidableEq, Inhabited

structure ExecutionListener where
  eventType : ListenerEventType
  jobType : String
  retries : Option String := none
deriving DecidableEq, Inhabited

inductive TaskListenerEventType where
  | creating | assigning | updating | completing | canceling
deriving DecidableEq, Inhabited

structure TaskListener where
  eventType : TaskListenerEventType
  jobType : String
  retries : Option String := none
deriving DecidableEq, Inhabited

inductive TimerDefKind where
  | duration | cycle | date
deriving DecidableEq, Inhabited

structure TimerDef where
  kind : TimerDefKind
  expr : String
deriving DecidableEq, Inhabited

structure MultiInstance where
  inputCollection : String
  inputElement : Option String := none
  outputCollection : Option String := none
  outputElement : Option String := none
  completionCondition : Option String := none
  sequential : Bool := false
deriving DecidableEq, Inhabited

structure UserTaskProps where
  assignee : Option String := none
  candidateGroups : Option String := none
  candidateUsers : Option String := none
  dueDate : Option String := none
  followUpDate : Option String := none
  priority : Option String := none
  formId : Option String := none
  externalFormReference : Option String := none
deriving DecidableEq, Inhabited

/-! ## Agents (`agent.rs`) -/

inductive AgentType where
  | aiAgentTask | aiAgentSubProcess | «external»
deriving DecidableEq, Inhabited

inductive AgentHistoryContentType where
  | text | object | document
deriving DecidableEq, Inhabited

structure AgentHistoryContent where
  contentType : AgentHistoryContentType
  text : Option String
  documentReference : Option String
  object : Option String
deriving DecidableEq, Inhabited

structure AgentDefinition where
  model : Option String := none
  provider : Option String := none
  systemPrompt : Option (List AgentHistoryContent) := none
deriving DecidableEq, Inhabited

/-- `AGENT_LIMIT_UNLIMITED`. -/
def agentLimitUnlimited : Int := -1

structure AgentInstanceLimits where
  maxTokens : Int := agentLimitUnlimited
  maxModelCalls : Int := agentLimitUnlimited
  maxToolCalls : Int := agentLimitUnlimited
deriving DecidableEq, Inhabited

structure AgentInstanceMetricsDelta where
  inputTokens : Int := 0
  outputTokens : Int := 0
  reasoningTokenCount : Int := 0
  cacheCreationTokenCount : Int := 0
  cacheReadTokenCount : Int := 0
  modelCalls : Int := 0
  toolCalls : Int := 0
deriving DecidableEq, Inhabited

structure AgentInstanceMetrics where
  inputTokens : Int := 0
  outputTokens : Int := 0
  reasoningTokenCount : Int := 0
  cacheCreationTokenCount : Int := 0
  cacheReadTokenCount : Int := 0
  modelCalls : Int := 0
  toolCalls : Int := 0
deriving DecidableEq, Inhabited

structure AgentTool where
  name : String
  description : Option String
  elementId : Option ElementId
deriving DecidableEq, Inhabited

inductive AgentInstanceStatus where
  | initializing | toolDiscovery | thinking | toolCalling | idle | completed
deriving DecidableEq, Inhabited

structure AgentInstance where
  agentInstanceKey : Key
  agentDefinitionKey : Key
  elementInstanceKey : Key
  elementInstanceKeys : List Key
  elementId : ElementId
  processInstanceKey : Key
  rootProcessInstanceKey : Key
  bpmnProcessId : String
  processDefinitionKey : Key
  processDefinitionVersion : Int
  processDefinitionVersionTag : Option String
  tenantId : String
  agentType : AgentType
  status : AgentInstanceStatus
  definition : AgentDefinition
  limits : AgentInstanceLimits
  metrics : AgentInstanceMetrics
  tools : List AgentTool
  jobKey : Key
  jobLease : String
  createdAt : Nat
  lastUpdatedAt : Nat
  completedAt : Nat
deriving DecidableEq, Inhabited

inductive AgentHistoryRole where
  | user | assistant | toolResult | configuration
deriving DecidableEq, Inhabited

structure AgentHistoryToolCall where
  toolCallId : String
  toolName : String
  elementId : Option ElementId
  arguments : Option String
deriving DecidableEq, Inhabited

structure AgentHistoryMetrics where
  inputTokens : Option Int := none
  outputTokens : Option Int := none
  reasoningTokenCount : Option Int := none
  cacheCreationTokenCount : Option Int := none
  cacheReadTokenCount : Option Int := none
  durationMs : Option Int := none
deriving DecidableEq, Inhabited

inductive AgentHistoryCommitStatus where
  | committed | pending | discarded
deriving DecidableEq, Inhabited

structure AgentHistoryTurn where
  changedAttributes : List String := []
  loopIteration : Int := 0
  producedAt : Nat := 0
  role : AgentHistoryRole := .user
  content : List AgentHistoryContent := []
  systemPrompt : Option (List AgentHistoryContent) := none
  toolCalls : List AgentHistoryToolCall := []
  metrics : Option AgentHistoryMetrics := none
  historyItemId : Option String := none
  tools : List AgentTool := []
  model : Option String := none
  provider : Option String := none
  limits : Option AgentInstanceLimits := none
  isDuplicate : Bool := false
  jobKey : Key := 0
  jobLease : String := ""
deriving DecidableEq, Inhabited

structure AgentHistoryRecord where
  changedAttributes : List String
  agentHistoryKey : Key
  agentInstanceKey : Key
  elementInstanceKey : Key
  processInstanceKey : Key
  rootProcessInstanceKey : Key
  bpmnProcessId : String
  processDefinitionKey : Key
  tenantId : String
  jobKey : Key
  jobLease : String
  loopIteration : Int
  role : AgentHistoryRole
  producedAt : Nat
  content : List AgentHistoryContent
  systemPrompt : Option (List AgentHistoryContent)
  toolCalls : List AgentHistoryToolCall
  metrics : Option AgentHistoryMetrics
  historyItemId : Option String
  tools : List AgentTool
  model : Option String
  provider : Option String
  limits : Option AgentInstanceLimits
  isDuplicate : Bool
  commitStatus : AgentHistoryCommitStatus
deriving DecidableEq, Inhabited

/-- `order_key() <= other.order_key()`: the lexicographic order on
`(loop_iteration, produced_at, agent_history_key)`. -/
def AgentHistoryRecord.orderLe (a b : AgentHistoryRecord) : Bool :=
  a.loopIteration < b.loopIteration || (a.loopIteration == b.loopIteration &&
    (a.producedAt < b.producedAt || (a.producedAt == b.producedAt && a.agentHistoryKey ≤ b.agentHistoryKey)))

/-! ## Elements and definitions -/

/-- `model::ElementKind` (`model.rs:476`). -/
inductive ElementKind where
  | startEvent
  | endEvent
  | terminateEndEvent
  | serviceTask (jobType : String) (priority : Option String) (agentType : Option AgentType)
      (customHeaders : List (String × String)) (linkedResources : List LinkedResource)
  | businessRuleTask (decisionId : String) (resultVariable : Option String)
  | userTask (props : UserTaskProps)
  | exclusiveGateway
  | parallelGateway
  | inclusiveGateway
  | eventBasedGateway
  | errorBoundaryEvent (attachedTo : ElementId) (errorCode : String)
  | timerIntermediateCatchEvent (durationMillis : Nat)
  | timerBoundaryEvent (attachedTo : ElementId) (durationMillis : Nat) (interrupting repeating : Bool)
  | messageIntermediateCatchEvent (messageName correlationKey : String)
  | messageBoundaryEvent (attachedTo : ElementId) (messageName correlationKey : String) (interrupting : Bool)
  | messageStartEvent (messageName : String)
  | timerStartEvent (intervalMillis : Nat) (repeating : Bool)
  | subProcess (startEvent : ElementId)
  | escalationThrowEvent (escalationCode : String)
  | escalationBoundaryEvent (attachedTo : ElementId) (escalationCode : String) (interrupting : Bool)
  | intermediateThrowEvent
  | linkIntermediateThrowEvent (linkName : String)
  | linkIntermediateCatchEvent (linkName : String)
  | task
  | scriptTask (expression resultVariable : String)
  | callActivity (calledProcessId : String) (propagateAllParentVariables propagateAllChildVariables : Bool)
  | signalIntermediateCatchEvent (signalName : String)
  | signalBoundaryEvent (attachedTo : ElementId) (signalName : String) (interrupting : Bool)
  | conditionalIntermediateCatchEvent (condition : String)
  | conditionalBoundaryEvent (attachedTo : ElementId) (condition : String) (interrupting : Bool)
  | compensationBoundaryEvent (attachedTo handler : ElementId)
  | compensationThrowEvent
  | agentTask (agentType : AgentType) (jobType : Option String) (definition : AgentDefinition)
      (limits : Option AgentInstanceLimits)
deriving DecidableEq, Inhabited

structure Element where
  id : ElementId
  kind : ElementKind
  name : Option String := none
  outgoing : List SequenceFlow := []
  parent : Option ElementId := none
  io : IoMapping := {}
  timer : Option TimerDef := none
  retries : Option String := none
  multiInstance : Option MultiInstance := none
  startListeners : List ExecutionListener := []
  endListeners : List ExecutionListener := []
  taskListeners : List TaskListener := []
deriving DecidableEq, Inhabited

inductive AdHocImplementationType where
  | jobWorker | bpmnTask
deriving DecidableEq, Inhabited

inductive AdHocToolKind where
  | serviceTask (jobType : String)
  | userTask (props : UserTaskProps)
  | callActivity (processId : Option String) (propagateAllParentVariables propagateAllChildVariables : Bool)
  | subProcess (startEvent : ElementId)
  | other
deriving DecidableEq, Inhabited

structure AdHocInnerFlow where
  source : ElementId
  target : ElementId
  condition : Option Condition := none
deriving DecidableEq, Inhabited

structure AdHocTool where
  elementId : ElementId
  name : String
  kind : AdHocToolKind
  io : IoMapping := {}
deriving DecidableEq, Inhabited

structure AdHocSubProcessDef where
  containerId : ElementId
  implType : AdHocImplementationType := .jobWorker
  completionCondition : Option String := none
  activeElementsCollection : Option String := none
  outputCollection : Option String := none
  outputElement : Option String := none
  cancelRemainingInstances : Bool := false
  tools : List AdHocTool := []
  innerFlows : List AdHocInnerFlow := []
deriving DecidableEq, Inhabited

structure AdHocActivateElement where
  elementId : ElementId
  vars : Vars := ∅

structure AdHocJobResult where
  activateElements : List AdHocActivateElement := []
  completionConditionFulfilled : Bool := false
  cancelRemainingInstances : Bool := false

structure UserTaskCorrections where
  assignee : Option String := none
  candidateGroups : Option (List String) := none
  candidateUsers : Option (List String) := none
  dueDate : Option String := none
  followUpDate : Option String := none
  priority : Option Int := none
deriving DecidableEq, Inhabited

/-- `UserTaskCorrections::merge` (`model.rs:1403`): every field `other` sets replaces ours. -/
def UserTaskCorrections.merge (c other : UserTaskCorrections) : UserTaskCorrections where
  assignee := other.assignee <|> c.assignee
  candidateGroups := other.candidateGroups <|> c.candidateGroups
  candidateUsers := other.candidateUsers <|> c.candidateUsers
  dueDate := other.dueDate <|> c.dueDate
  followUpDate := other.followUpDate <|> c.followUpDate
  priority := other.priority <|> c.priority

structure TaskListenerJobResult where
  denied : Bool := false
  deniedReason : Option String := none
  corrections : UserTaskCorrections := {}
deriving DecidableEq, Inhabited

structure ProcessDefinition where
  id : String
  name : Option String := none
  elements : StrMap Element := ∅
  startEvent : ElementId
  xml : String := ""
  adhoc : List AdHocSubProcessDef := []
  startFormId : Option String := none

/-- The body of the loop of `normalize_legacy_agent_tasks` (`model.rs:1495`). -/
def Element.normalizeLegacyAgentTask (e : Element) : Element :=
  match e.kind with
  | .agentTask agentType jobType _ _ =>
    { e with kind := .serviceTask (jobType.getD e.id) none (some agentType) [] [] }
  | _ => e

def ProcessDefinition.normalizeLegacyAgentTasks (d : ProcessDefinition) : ProcessDefinition :=
  { d with elements := d.elements.map fun _ e => e.normalizeLegacyAgentTask }

theorem Element.normalizeLegacyAgentTask_idem (e : Element) :
    e.normalizeLegacyAgentTask.normalizeLegacyAgentTask = e.normalizeLegacyAgentTask := by
  unfold normalizeLegacyAgentTask
  cases h : e.kind <;> simp [h]

@[simp] theorem ProcessDefinition.normalizeLegacyAgentTasks_idem (d : ProcessDefinition) :
    d.normalizeLegacyAgentTasks.normalizeLegacyAgentTasks = d.normalizeLegacyAgentTasks := by
  simp only [normalizeLegacyAgentTasks, mk.injEq, true_and, and_true]
  apply Std.ExtTreeMap.ext_getElem?
  intro k
  simp [Element.normalizeLegacyAgentTask_idem]

/-! ## Decisions (`dmn/model.rs`) -/

inductive HitPolicy where
  | unique | first | priority | any | collect | ruleOrder | outputOrder
deriving DecidableEq, Inhabited

inductive Aggregation where
  | sum | min | max | count
deriving DecidableEq, Inhabited

structure InputClause where
  id : String
  label : Option String
  expression : String
  typeRef : Option String
deriving DecidableEq, Inhabited

structure OutputClause where
  id : String
  label : Option String
  name : Option String
  typeRef : Option String
  outputValues : List String
deriving DecidableEq, Inhabited

structure DecisionRule where
  id : String
  inputEntries : List String
  outputEntries : List String
deriving DecidableEq, Inhabited

structure DecisionTable where
  hitPolicy : HitPolicy
  aggregation : Option Aggregation
  inputs : List InputClause
  outputs : List OutputClause
  rules : List DecisionRule
deriving DecidableEq, Inhabited

inductive DecisionLogic where
  | decisionTable (table : DecisionTable)
  | literalExpression (expression : String)
  | unsupported (what : String)
deriving DecidableEq, Inhabited

structure Decision where
  id : String
  name : String
  variableName : Option String := none
  requiredDecisions : List String := []
  logic : DecisionLogic
deriving DecidableEq, Inhabited

structure DecisionRequirementsGraph where
  id : String
  name : String
  «namespace» : String := ""
  decisions : List Decision := []
  xml : String := ""
deriving DecidableEq, Inhabited

inductive DecisionType where
  | decisionTable | literalExpression | context | invocation | list | relation | unknown
deriving DecidableEq, Inhabited

structure EvaluatedInput where
  inputId : String
  inputName : Option String
  inputValue : Value
deriving Inhabited

structure EvaluatedOutput where
  outputId : String
  outputName : Option String
  outputValue : Value
deriving Inhabited

structure MatchedRule where
  ruleId : String
  ruleIndex : Nat
  evaluatedOutputs : List EvaluatedOutput
deriving Inhabited

structure EvaluatedDecision where
  decisionId : String
  decisionName : String
  decisionType : DecisionType
  decisionOutput : Value
  evaluatedInputs : List EvaluatedInput
  matchedRules : List MatchedRule
deriving Inhabited

end NanoBpm
