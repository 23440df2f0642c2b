import NanoBpm.Event

/-!
# Commands, errors and steps (`engine-core/src/command.rs`, `engine/mod.rs:300-455`, `:12430-12690`)

`Command` is what a host asks of an engine, `EngineError` why it is refused, and `Step` one unit of the
internal work a command leaves in the queue.
-/

namespace NanoBpm

/-! ## Commands -/

structure JobActivationOptions where
  fetchVariables : List String := []
  withLease : Bool := false
deriving DecidableEq, Inhabited

structure FormResource where
  id : String
  resourceName : String
  schema : String
deriving DecidableEq, Inhabited

structure GenericResource where
  resourceId : String
  resourceName : String
  content : String
deriving DecidableEq, Inhabited

structure ActivateElementInstruction where
  elementId : ElementId
  vars : Vars := ∅

structure UserTaskChangeset where
  candidateGroups : Option (List String) := none
  candidateUsers : Option (List String) := none
  dueDate : Option (Option String) := none
  followUpDate : Option (Option String) := none
  priority : Option Int := none
deriving DecidableEq, Inhabited

/-- `Command` (`command.rs:35`). -/
inductive Command where
  | deployProcess (process : ProcessDefinition)
  | deployResources (processes : List ProcessDefinition)
  | deployDecisionRequirements (drgs : List DecisionRequirementsGraph)
  | deployForms (forms : List FormResource)
  | deployGenericResources (resources : List GenericResource)
  | deleteDecisionInstance (instanceKey decisionEvaluationKey : Key)
  | createInstance (processId : String) (vars : Vars) (tags : List String) (businessId : Option String)
      (processDefinitionKey : Option Key) (version : Option Int)
  | completeJob (jobKey : Key) (leaseToken : Option String) (vars : Vars)
      (adhocResult : Option AdHocJobResult) (taskListenerResult : Option TaskListenerJobResult)
  | assignUserTask (userTaskKey : Key) (assignee : String) (allowOverride : Bool)
  | unassignUserTask (userTaskKey : Key)
  | updateUserTask (userTaskKey : Key) (changeset : UserTaskChangeset)
  | completeUserTask (userTaskKey : Key) (vars : Vars)
  | activateJobs (jobType worker : String) (maxJobs timeout now : Nat) (fetchVariables : List String)
      (withLease : Bool)
  | activateJobsByKey (jobKeys : List Key) (worker : String) (timeout now : Nat) (fetchVariables : List String)
      (withLease : Bool)
  | expireJobs (now : Nat)
  | expireJobsByDurability (now : Nat) (durable : Bool)
  | triggerTimers (now : Nat)
  | failJob (jobKey : Key) (leaseToken : Option String) (retries : Int) (errorMessage : String)
  | throwJobError (jobKey : Key) (leaseToken : Option String) (errorCode errorMessage : String)
      (vars : Vars)
  | updateJobRetries (jobKey : Key) (leaseToken : Option String) (retries : Int)
      (operationReference : Option Int)
  | updateJobTimeout (jobKey : Key) (leaseToken : Option String) (timeout : Int)
      (operationReference : Option Int)
  | updateJob (jobKey : Key) (retries timeout operationReference : Option Int) (leaseToken : Option String)
  | resolveIncident (incidentKey : Key) (operationReference : Option Int)
  | setVariables (scopeKey : Key) (vars : Vars) (isLocal : Bool)
  | correlateMessage (messageName correlationKey : String) (vars : Vars)
  | broadcastSignal (signalName : String) (vars : Vars)
  | openMessageSubscription (subscriptionKey instanceKey elementInstanceKey : Key) (elementId : ElementId)
      (messageName correlationKey : String) (kind : MessageSubscriptionKind)
  | correlateMessageSubscription (subscriptionKey messageKey instanceKey elementInstanceKey : Key)
      (elementId : ElementId) (kind : MessageSubscriptionKind) (vars : Vars)
  | closeMessageSubscription (subscriptionKey instanceKey elementInstanceKey : Key) (elementId : ElementId)
  | cancelInstance (instanceKey : Key)
  | suspendInstance (instanceKey : Key)
  | resumeInstance (instanceKey : Key)
  | migrateInstance (instanceKey targetProcessDefinitionKey : Key)
      (mappingInstructions : List (ElementId × ElementId))
  | modifyInstance (instanceKey : Key) (activateInstructions : List ActivateElementInstruction)
      (terminateInstructions : List Key)
  | dispatchStartInstance (processId : String) (startElementId : ElementId) (vars : Vars)
      (tags : List String) (businessId : Option String)
  | activateAdHocActivities (adHocInstanceKey : Key) (activateElements : List AdHocActivateElement)
      (cancelRemaining : Bool)
  | createAgentInstance (elementInstanceKey jobKey : Key) (jobLease : String) (definition : AgentDefinition)
      (limits : Option AgentInstanceLimits) (history : List AgentHistoryTurn)
  | updateAgentInstance (agentInstanceKey elementInstanceKey : Key) (elementId : ElementId)
      (processInstanceKey jobKey : Key) (jobLease : String) (status : Option AgentInstanceStatus)
      (metrics : AgentInstanceMetricsDelta) (tools : Option (List AgentTool)) (history : List AgentHistoryTurn)
  | completeAgentInstance (agentInstanceKey : Key)

/-! ## Errors -/

inductive AgentLimitKind where
  | tokens | modelCalls | toolCalls
deriving DecidableEq, Inhabited

/-- `EngineError` (`engine/mod.rs:12428`). -/
inductive EngineError where
  | processNotFound (processId : String)
  | noStartEvent (processId : String)
  | jobNotFound (jobKey : Key)
  | jobNotActive (jobKey : Key)
  | jobLeaseMismatch (jobKey : Key)
  | jobUpdateInvalid (jobKey : Key) (reason : String)
  | agentInstanceAlreadyExists (elementInstanceKey agentInstanceKey : Key)
  | agentInstanceActiveWriter (agentInstanceKey elementInstanceKey : Key)
  | agentHistoryInvalid (reason : String)
  | jobNotActivated (jobKey : Key)
  | incidentNotFound (incidentKey : Key)
  | incidentNotResolvable (incidentKey : Key) (reason : String)
  | scopeNotFound (scopeKey : Key)
  | instanceNotFound (instanceKey : Key)
  | instanceTransitionInvalid (instanceKey : Key) (source target : String)
  | elementNotFound (instanceKey : Key) (elementId : String)
  | elementInstanceNotFound (instanceKey elementInstanceKey : Key)
  | userTaskNotFound (userTaskKey : Key)
  | userTaskNotActive (userTaskKey : Key)
  | userTaskAlreadyAssigned (userTaskKey : Key)
  | taskListenerJobWithVariables (jobKey : Key)
  | taskListenerDenyWithCorrections (jobKey : Key)
  | taskListenerDenyNotSupported (jobKey : Key)
  | taskListenerAssigneeCorrectionOnCreating (userTaskKey : Key)
  | adHocUnknownElement (instanceKey : Key) (elementId : String)
  | adHocActivateWithCompletion (jobKey : Key)
  | adHocSubProcessNotFound (adHocInstanceKey : Key)
  | adHocNoActivationTargets (adHocInstanceKey : Key)
  | targetProcessDefinitionNotFound (processDefinitionKey : Key)
  | duplicateMappingSourceElement (instanceKey : Key) (elementId : String)
  | mappingSourceElementNotFound (instanceKey : Key) (elementId : String)
  | mappingTargetElementNotFound (targetProcessDefinitionKey : Key) (elementId : String)
  | unmappedActiveElement (instanceKey : Key) (elementId : String)
  | mappedElementTypeChanged (instanceKey : Key) (sourceElementId targetElementId : String)
  | migratedParallelJoinArityChanged (instanceKey : Key) (sourceElementId targetElementId : String)
      (sourceIncomingCount targetIncomingCount : Nat)
  | migratedJoinFlowMissing (instanceKey : Key)
      (sourceElementId targetElementId flowSourceElementId : String) (flowOrdinal : Nat)
  | unsupportedMigration (instanceKey : Key) (elementId reason : String)
  | agentInstanceNotFound (agentInstanceKey : Key)
  | agentInstanceElementInstanceInactive (elementInstanceKey : Key)
  | agentInstanceElementNotEligible (elementInstanceKey : Key)
  | agentInstanceMissingAgentDefinition (elementInstanceKey : Key)
  | agentInstanceJobRequiredForHistory (elementInstanceKey : Key)
  | agentInstanceJobNotActive (elementInstanceKey jobKey : Key)
  | agentInstanceJobLeaseMismatch (elementInstanceKey jobKey : Key)
  | agentInstanceJobElementMismatch (jobKey jobElementInstanceKey elementInstanceKey : Key)
  | agentInstanceOwnershipMismatch (agentInstanceKey : Key)
  | agentInstanceConflict (agentInstanceKey elementInstanceKey conflictingAgentInstanceKey : Key)
  | agentInstanceStatusNotSettable (agentInstanceKey : Key) (status : AgentInstanceStatus)
  | agentInstanceAlreadyCompleted (agentInstanceKey : Key)
  | agentInstanceLimitExceeded (agentInstanceKey : Key) (limit : AgentLimitKind)
deriving DecidableEq, Inhabited

/-! ## Steps -/

inductive JoinKind where
  | parallel | inclusive
deriving DecidableEq, Inhabited

/-- `Step` (`engine/mod.rs:277`). -/
inductive Step where
  | activate (instanceKey : Key) (elementId : ElementId) (scope : Key) (via : Option IncomingFlow)
  | complete (instanceKey elementInstanceKey : Key) (elementId : ElementId)
  | completeAdHocCallActivityTool (instanceKey elementInstanceKey : Key) (elementId : ElementId)
      (containerKey innerKey : Key) (outputUpdates : Vars)
  | createJob (instanceKey elementInstanceKey : Key) (elementId : ElementId)
  | reopenCatch (instanceKey elementInstanceKey : Key) (elementId : ElementId)
  | retryActivation (instanceKey elementInstanceKey : Key) (elementId : ElementId)
  | activateMiChild (instanceKey : Key) (elementId : ElementId) (bodyKey : Key) (index : Nat)
  | completeMiBody (instanceKey bodyKey : Key)
  | activateAdHocTool (instanceKey containerKey : Key) (elementId : ElementId) (vars : Vars)
  | completeAdHoc (instanceKey containerKey : Key) (cancel : Bool)
  | advanceListener (instanceKey elementInstanceKey : Key) (elementId : ElementId)
      (eventType : ListenerEventType) (index : Nat) (scope : Key)
  | advanceTaskListener (userTaskKey : Key) (eventType : TaskListenerEventType) (index : Nat)
  | completeCallActivity (instanceKey elementInstanceKey : Key) (elementId : ElementId) (childVariables : Vars)
  | retryMiChildActivation (instanceKey : Key) (elementId : ElementId) (bodyKey childKey : Key) (index : Nat)
  | retryMiBodyActivation (instanceKey : Key) (elementId : ElementId) (bodyKey scope : Key)
  | retryCallActivitySpawn (instanceKey elementInstanceKey : Key) (elementId : ElementId)
      (preservedSeed : Option Vars)

end NanoBpm
