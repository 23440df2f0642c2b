import NanoBpm.State

/-!
# Events (`engine-core/src/event.rs`) and lease tokens (`lease.rs`)

`Event.instanceKey` and `Event.maxKey` are the two accessors the host and recovery rely on: the
instance an event belongs to, and the largest key among the fields `max_key` looks at. A lease
token is the only place where a key is carried as text (`nano-lease:<16 hex digits>`).
-/

namespace NanoBpm

/-! ## Lease tokens -/

namespace Lease

/-- `"nano-lease:"`. -/
def tokenHead : List Char := "nano-lease:".toList

def hexDigit (d : Nat) : Char := if d < 10 then Char.ofNat (48 + d) else Char.ofNat (87 + d)

/-- The digits of `{key:016x}` for a 64-bit key, most significant first. -/
def hexDigits : Nat → Nat → List Char
  | 0, _ => []
  | n + 1, key => hexDigits n (key / 16) ++ [hexDigit (key % 16)]

/-- `lease::issue`. -/
def issue (key : Key) : String := String.ofList (tokenHead ++ hexDigits 16 key)

/-- One digit of `u64::from_str_radix(_, 16)`. -/
def hexVal (c : Char) : Option Nat :=
  if '0' ≤ c ∧ c ≤ '9' then some (c.toNat - 48)
  else if 'a' ≤ c ∧ c ≤ 'f' then some (c.toNat - 87)
  else if 'A' ≤ c ∧ c ≤ 'F' then some (c.toNat - 55)
  else none

/-- The digit loop of `from_str_radix`: fails on a non-digit and on overflow past `u64::MAX`. -/
def parseDigits : Nat → List Char → Option Nat
  | acc, [] => some acc
  | acc, c :: cs =>
    match hexVal c with
    | none => none
    | some d => if acc * 16 + d ≤ u64Max then parseDigits (acc * 16 + d) cs else none

/-- `u64::from_str_radix(value, 16)`: one optional leading `+`, at least one digit. -/
def parseHex : List Char → Option Nat
  | [] => none
  | '+' :: cs => if cs.isEmpty then none else parseDigits 0 cs
  | cs => parseDigits 0 cs

/-- `lease::issued_key`: the key a token was issued from, `0` for any other text. -/
def issuedKey (token : String) : Key :=
  if tokenHead.isPrefixOf token.toList then (parseHex (token.toList.drop tokenHead.length)).getD 0 else 0

theorem hexVal_hexDigit {d : Nat} (h : d < 16) : hexVal (hexDigit d) = some d := by
  revert d
  decide

theorem hexDigits_length (n key : Nat) : (hexDigits n key).length = n := by
  induction n generalizing key with
  | zero => rfl
  | succ n ih => simp [hexDigits, ih]

/-- Parsing `n` rendered digits after an accumulator shifts it by `n` digits and adds the number. -/
theorem parseDigits_hexDigits (n key acc : Nat) (rest : List Char)
    (h : acc * 16 ^ n + key % 16 ^ n ≤ u64Max) :
    parseDigits acc (hexDigits n key ++ rest) = parseDigits (acc * 16 ^ n + key % 16 ^ n) rest := by
  induction n generalizing key acc rest with
  | zero => simp [hexDigits, Nat.mod_one]
  | succ n ih =>
    have hdm : key / 16 % 16 ^ n * 16 + key % 16 = key % 16 ^ (n + 1) := by
      rw [Nat.pow_succ, Nat.mul_comm (16 ^ n) 16, Nat.mod_mul, Nat.mul_comm 16, Nat.add_comm]
    have hstep : (acc * 16 ^ n + key / 16 % 16 ^ n) * 16 + key % 16 = acc * 16 ^ (n + 1) + key % 16 ^ (n + 1) := by
      rw [← hdm, Nat.pow_succ, Nat.add_mul, Nat.mul_assoc, Nat.add_assoc]
    rw [← hstep] at h
    rw [hexDigits, List.append_assoc, ih (key / 16) acc _ (by omega), List.singleton_append, parseDigits,
      hexVal_hexDigit (Nat.mod_lt key (by decide))]
    simp only [if_pos h]
    rw [hstep]

/-- A token issued from a 64-bit key gives that key back. -/
theorem issuedKey_issue {key : Key} (h : key ≤ u64Max) : issuedKey (issue key) = key := by
  have hlt : key < 16 ^ 16 := Nat.lt_of_le_of_lt h (by decide)
  have hd : parseDigits 0 (hexDigits 16 key) = some key := by
    have := parseDigits_hexDigits 16 key 0 [] (by rwa [Nat.mod_eq_of_lt hlt, Nat.zero_mul, Nat.zero_add])
    rw [List.append_nil] at this
    rw [this, Nat.mod_eq_of_lt hlt]
    simp [parseDigits]
  have hplus : parseHex (hexDigits 16 key) = parseDigits 0 (hexDigits 16 key) := by
    unfold parseHex
    split
    · next hnil => simpa [hnil] using hexDigits_length 16 key
    · next cs hcs =>
      rw [hcs] at hd
      simp [parseDigits, hexVal] at hd
    · rfl
  simp [issuedKey, issue, List.isPrefixOf_iff_prefix, hplus, hd]

end Lease

/-! ## Events -/

/-- `Event` (`event.rs:18`). -/
inductive Event where
  | deploymentCreated (deploymentKey : Key)
  | processDeployed (deploymentKey processDefinitionKey : Key) (version : Int) (process : ProcessDefinition)
  | decisionRequirementsDeployed (deploymentKey decisionRequirementsKey : Key) (version : Int)
      (drg : DecisionRequirementsGraph)
  | decisionDeployed (deploymentKey decisionRequirementsKey decisionKey : Key)
      (decisionId decisionName : String) (version : Int)
  | formDeployed (deploymentKey formKey : Key) (version : Int) (formId resourceName schema : String)
  | genericResourceDeployed (deploymentKey resourceKey : Key) (version : Int)
      (resourceId resourceName content : String)
  | decisionEvaluated (instanceKey elementInstanceKey : Key) (elementId : ElementId) (decisionKey : Key)
      (decisionId : String) (decisionOutput : Value) (evaluatedDecisions : List EvaluatedDecision)
      (evaluatedAt : Nat)
  | decisionInstanceDeleted (instanceKey decisionEvaluationKey : Key)
  | processInstanceCreated (instanceKey : Key) (processId : String) (vars : Vars) (createdAt : Nat)
      (tags : List String) (businessId : Option String) (processDefinitionKey : Key) (version : Int)
      (parentProcessInstanceKey parentElementInstanceKey : Option Key)
  | variablesUpdated (instanceKey : Key) (vars : Vars)
  | scopedVariablesUpdated (instanceKey scopeKey : Key) (vars : Vars)
  | variableScopeCreated (instanceKey scopeKey parentScopeKey : Key)
  | variableScopeDestroyed (instanceKey scopeKey : Key)
  | elementActivating (instanceKey elementInstanceKey : Key) (elementId : ElementId)
  | elementActivated (instanceKey elementInstanceKey : Key) (elementId : ElementId) (scope : Key)
  | elementCompleting (instanceKey elementInstanceKey : Key) (elementId : ElementId)
  | elementCompleted (instanceKey elementInstanceKey : Key) (elementId : ElementId)
  | sequenceFlowTaken (instanceKey : Key) (source target : ElementId)
  | parallelJoinOpened (instanceKey elementInstanceKey : Key) (elementId : ElementId)
  | parallelJoinTokenArrived (instanceKey : Key) (elementId : ElementId) (flow : Option IncomingFlow)
  | parallelJoinReset (instanceKey : Key) (elementId : ElementId)
  | parallelJoinFired (instanceKey : Key) (elementId : ElementId)
  | jobCreated (jobKey instanceKey elementInstanceKey : Key) (elementId : ElementId) (jobType : String)
      (createdAt : Nat) (priority retries : Int)
  | executionListenerJobCreated (jobKey instanceKey elementInstanceKey : Key) (elementId : ElementId)
      (jobType : String) (eventType : ListenerEventType) (listenerIndex : Nat) (scope : Key)
      (createdAt : Nat) (retries : Int)
  | jobActivated (jobKey instanceKey : Key) (durable : Bool) (worker : String) (deadline : Nat)
      (activatedAt : Option Nat) (fetchVariables : List String) (leaseToken : Option String)
  | jobLockExpired (jobKey instanceKey : Key)
  | jobFailed (jobKey instanceKey : Key) (retries : Int) (worker : Option String)
  | jobErrorThrown (jobKey instanceKey : Key) (errorCode : String) (worker : Option String)
  | jobCompleted (jobKey instanceKey : Key) (createdAt : Nat) (jobType : String) (worker : Option String)
  | jobRetriesUpdated (jobKey instanceKey : Key) (retries : Int) (operationReference : Option Int)
  | jobTimeoutUpdated (jobKey instanceKey : Key) (deadline : Nat) (operationReference : Option Int)
  | userTaskCreated (userTaskKey instanceKey elementInstanceKey : Key) (elementId : ElementId)
      (createdAt : Nat) (assignee : Option String) (candidateGroups candidateUsers : List String)
      (dueDate followUpDate : Option String) (priority : Int) (formKey : Option Key)
      (externalFormReference : Option String)
  | userTaskAssigned (userTaskKey instanceKey : Key) (assignee : Option String)
  | userTaskUpdated (userTaskKey instanceKey : Key) (candidateGroups candidateUsers : Option (List String))
      (dueDate followUpDate : Option (Option String)) (priority : Option Int)
  | userTaskCompleted (userTaskKey instanceKey : Key)
  | userTaskCanceled (userTaskKey instanceKey : Key)
  | taskListenerJobCreated (jobKey instanceKey elementInstanceKey : Key) (elementId : ElementId)
      (userTaskKey : Key) (jobType : String) (eventType : TaskListenerEventType) (listenerIndex : Nat)
      (createdAt : Nat) (retries : Int)
  | userTaskTransitionDeferred (userTaskKey instanceKey : Key) (pending : PendingUserTaskTransition)
  | userTaskCorrectionsApplied (userTaskKey instanceKey : Key) (corrections : UserTaskCorrections)
  | userTaskTransitionResolved (userTaskKey instanceKey : Key) (denied : Option String)
  | incidentRaised (incidentKey instanceKey elementInstanceKey : Key) (elementId : ElementId)
      (kind : IncidentKind) (redrive : Option IoMappingRedrive) (reason : String) (jobKey : Option Key)
      (createdAt : Nat)
  | incidentResolved (incidentKey instanceKey : Key) (jobKey : Option Key) (resolvedAt : Nat)
      (operationReference : Option Int)
  | processInstanceCompleted (instanceKey : Key)
  | processInstanceTerminated (instanceKey : Key)
  | processInstanceTerminating (instanceKey : Key)
  | processInstanceSuspended (instanceKey : Key) (at_ : Nat)
  | processInstanceResumed (instanceKey : Key)
  | processInstanceMigrated (instanceKey : Key) (targetProcessId : String) (targetProcessDefinitionKey : Key)
      (elementMappings : List (ElementId × ElementId))
  | timerCreated (timerKey instanceKey elementInstanceKey : Key) (elementId : ElementId) (dueAt : Nat)
      (kind : TimerKind)
  | timerTriggered (timerKey instanceKey elementInstanceKey : Key) (elementId : ElementId)
  | timerCanceled (timerKey instanceKey elementInstanceKey : Key) (elementId : ElementId)
  | jobCanceled (jobKey instanceKey : Key)
  | messagePublished (messageKey : Key) (messageName correlationKey : String)
  | messageSubscriptionCreated (subscriptionKey instanceKey elementInstanceKey : Key) (elementId : ElementId)
      (messageName correlationKey : String) (kind : MessageSubscriptionKind)
  | messageSubscriptionOpening (subscriptionKey instanceKey elementInstanceKey : Key) (elementId : ElementId)
      (messageName correlationKey : String) (kind : MessageSubscriptionKind)
  | messageCorrelated (subscriptionKey messageKey instanceKey elementInstanceKey : Key) (elementId : ElementId)
  | remoteMessageCorrelation (subscriptionKey messageKey instanceKey elementInstanceKey : Key)
      (elementId : ElementId) (kind : MessageSubscriptionKind) (vars : Vars)
  | messageSubscriptionCanceled (subscriptionKey instanceKey elementInstanceKey : Key) (elementId : ElementId)
  | signalBroadcast (signalKey : Key) (signalName : String)
  | signalSubscriptionCreated (subscriptionKey instanceKey elementInstanceKey : Key) (elementId : ElementId)
      (signalName : String) (kind : MessageSubscriptionKind)
  | signalCorrelated (subscriptionKey signalKey instanceKey elementInstanceKey : Key) (elementId : ElementId)
  | signalSubscriptionCanceled (subscriptionKey instanceKey elementInstanceKey : Key) (elementId : ElementId)
  | conditionalSubscriptionCreated (subscriptionKey instanceKey elementInstanceKey : Key)
      (elementId : ElementId) (condition : String) (referencedVars : List String)
      (kind : MessageSubscriptionKind)
  | conditionalTriggered (subscriptionKey instanceKey elementInstanceKey : Key) (elementId : ElementId)
  | conditionalSubscriptionCanceled (subscriptionKey instanceKey elementInstanceKey : Key)
      (elementId : ElementId)
  | compensationSubscriptionCreated (instanceKey elementInstanceKey : Key) (elementId handler : ElementId)
      (scope : Key)
  | compensationTriggered (instanceKey throwElementInstanceKey : Key) (throwElementId : ElementId)
      (scope : Key) (handlers : List ElementId) (consumed : List Key)
  | compensationHandlerCompleted (instanceKey throwElementInstanceKey : Key) (handlerElementId : ElementId)
  | scopedCompensationCleared (instanceKey : Key) (scopes : List Key)
  | multiInstanceActivated (instanceKey bodyKey : Key) (elementId : ElementId) (sequential : Bool)
      (items : List Value) (inputElement outputCollection outputElement completionCondition : Option String)
  | multiInstanceChildActivated (instanceKey bodyKey childKey : Key) (index : Nat) (localVariables : Vars)
  | multiInstanceChildCompleted (instanceKey bodyKey childKey : Key) (index : Nat) (output : Option Value)
  | multiInstanceCompleted (instanceKey bodyKey : Key)
  | adHocActivated (instanceKey containerKey : Key) (elementId : ElementId)
      (outputCollection outputElement : Option String)
  | adHocToolActivated (instanceKey containerKey childKey : Key) (localVariables : Vars)
  | adHocToolCompleted (instanceKey containerKey childKey : Key) (output : Option Value)
  | adHocIterated (instanceKey containerKey : Key)
  | adHocCompletionConditionFulfilled (instanceKey containerKey : Key)
  | adHocCompleted (instanceKey containerKey : Key) (cancelled : Bool)
  | messageSubscriptionClosing (subscriptionKey instanceKey elementInstanceKey : Key) (elementId : ElementId)
      (messageName correlationKey : String)
  | messageStartSubscriptionCreated (processDefinitionKey : Key) (processId messageName : String)
      (startElementId : ElementId)
  | processStartTimerArmed (timerKey processDefinitionKey : Key) (processId : String)
      (startElementId : ElementId) (dueAt intervalMillis : Nat) (repeating : Bool)
  | processStartTimerFired (timerKey : Key) (nextDueAt : Option Nat)
  | startInstanceDispatched (processId : String) (startElementId : ElementId) (vars : Vars)
      (tags : List String) (businessId : Option String) (targetPartition : Nat)
  | agentInstanceCreated (instanceKey : Key) (agentInstance : AgentInstance)
  | agentInstanceUpdated (instanceKey : Key) (agentInstance : AgentInstance)
  | agentInstanceCompleted (instanceKey : Key) (agentInstance : AgentInstance)
  | agentHistoryCreated (instanceKey : Key) (record : AgentHistoryRecord)
  | agentHistoryCommitted (instanceKey agentInstanceKey : Key) (agentHistoryKeys : List Key)
  | agentHistoryDiscarded (instanceKey agentInstanceKey : Key) (agentHistoryKeys : List Key)
  | agentHistoryDeduplicated (instanceKey agentInstanceKey : Key) (historyItemId : String)
      (originalAgentHistoryKey : Key)
deriving Inhabited

namespace Event

/-- `Event::instance_key` (`event.rs:1255`). -/
def instanceKey : Event → Option Key
  | processInstanceCreated i .. | variablesUpdated i _ | scopedVariablesUpdated i .. | variableScopeCreated i ..
  | variableScopeDestroyed i _ | elementActivating i .. | elementActivated i .. | elementCompleting i ..
  | elementCompleted i .. | sequenceFlowTaken i .. | parallelJoinOpened i .. | parallelJoinTokenArrived i ..
  | parallelJoinReset i _ | parallelJoinFired i _ | jobCreated _ i .. | executionListenerJobCreated _ i ..
  | jobActivated _ i .. | jobLockExpired _ i | jobFailed _ i .. | jobErrorThrown _ i .. | jobCompleted _ i ..
  | jobRetriesUpdated _ i .. | jobTimeoutUpdated _ i .. | userTaskCreated _ i .. | userTaskAssigned _ i _
  | userTaskUpdated _ i .. | userTaskCompleted _ i | userTaskCanceled _ i | taskListenerJobCreated _ i ..
  | userTaskTransitionDeferred _ i _ | userTaskCorrectionsApplied _ i _ | userTaskTransitionResolved _ i _
  | incidentRaised _ i .. | incidentResolved _ i .. | timerCreated _ i .. | timerTriggered _ i ..
  | timerCanceled _ i .. | jobCanceled _ i | messageSubscriptionCreated _ i .. | messageSubscriptionOpening _ i ..
  | messageCorrelated _ _ i .. | remoteMessageCorrelation _ _ i .. | messageSubscriptionCanceled _ i ..
  | signalSubscriptionCreated _ i .. | signalCorrelated _ _ i .. | signalSubscriptionCanceled _ i ..
  | conditionalSubscriptionCreated _ i .. | conditionalTriggered _ i .. | conditionalSubscriptionCanceled _ i ..
  | compensationSubscriptionCreated i .. | compensationTriggered i .. | compensationHandlerCompleted i ..
  | scopedCompensationCleared i _ | multiInstanceActivated i .. | multiInstanceChildActivated i ..
  | multiInstanceChildCompleted i .. | multiInstanceCompleted i _ | adHocActivated i .. | adHocToolActivated i ..
  | adHocToolCompleted i .. | adHocIterated i _ | adHocCompletionConditionFulfilled i _ | adHocCompleted i ..
  | messageSubscriptionClosing _ i .. | processInstanceCompleted i | decisionEvaluated i ..
  | decisionInstanceDeleted i _ | processInstanceTerminated i | processInstanceTerminating i
  | processInstanceSuspended i _ | processInstanceResumed i | processInstanceMigrated i ..
  | agentInstanceCreated i _ | agentInstanceUpdated i _ | agentInstanceCompleted i _ | agentHistoryCreated i _
  | agentHistoryCommitted i .. | agentHistoryDiscarded i .. | agentHistoryDeduplicated i .. => some i
  | processDeployed .. | decisionRequirementsDeployed .. | decisionDeployed .. | formDeployed ..
  | genericResourceDeployed .. | deploymentCreated _ | messagePublished .. | signalBroadcast ..
  | messageStartSubscriptionCreated .. | processStartTimerArmed .. | processStartTimerFired ..
  | startInstanceDispatched .. => none

/-- The keys `max_key` maximises over besides `instance_key()`, one arm per arm of its match
(`event.rs:1361-1683`). -/
def maxKeyFields : Event → List Key
  | processDeployed d p .. => [d, p]
  | decisionRequirementsDeployed d r .. => [d, r]
  | decisionDeployed d r k .. => [d, r, k]
  | formDeployed d f .. => [d, f]
  | genericResourceDeployed d r .. => [d, r]
  | decisionEvaluated _ e _ d .. => [e, d]
  | decisionInstanceDeleted _ d => [d]
  | deploymentCreated d => [d]
  | elementActivating _ e _ | elementActivated _ e .. | elementCompleting _ e _ | elementCompleted _ e _
  | parallelJoinOpened _ e _ => [e]
  | jobCreated j _ e .. => [j, e]
  | executionListenerJobCreated j _ e _ _ _ _ scope .. => [j, e, scope]
  | taskListenerJobCreated j _ e _ u .. => [j, e, u]
  | jobActivated j _ _ _ _ _ _ lease => [j, (lease.map Lease.issuedKey).getD 0]
  | jobLockExpired j _ | jobFailed j .. | jobErrorThrown j .. | jobCompleted j .. | jobCanceled j _
  | jobRetriesUpdated j .. | jobTimeoutUpdated j .. => [j]
  | incidentRaised i _ e _ _ _ _ j _ => i :: e :: j.toList
  | incidentResolved i _ j .. => i :: j.toList
  | timerCreated t _ e .. | timerTriggered t _ e _ | timerCanceled t _ e _ => [t, e]
  | messagePublished m .. => [m]
  | signalBroadcast s _ => [s]
  | signalSubscriptionCreated s _ e .. | signalSubscriptionCanceled s _ e _ => [s, e]
  | conditionalSubscriptionCreated s _ e .. | conditionalTriggered s _ e _
  | conditionalSubscriptionCanceled s _ e _ => [s, e]
  | compensationSubscriptionCreated _ e _ _ scope => [e, scope]
  | compensationTriggered _ t _ scope _ consumed => t :: scope :: consumed
  | compensationHandlerCompleted _ t _ => [t]
  | multiInstanceActivated _ b .. | multiInstanceCompleted _ b => [b]
  | multiInstanceChildActivated _ b c .. | multiInstanceChildCompleted _ b c .. => [b, c]
  | adHocActivated _ c .. | adHocIterated _ c | adHocCompletionConditionFulfilled _ c | adHocCompleted _ c _ => [c]
  | adHocToolActivated _ c k _ | adHocToolCompleted _ c k _ => [c, k]
  | signalCorrelated s k _ e _ => [s, k, e]
  | messageSubscriptionCreated s _ e .. | messageSubscriptionOpening s _ e ..
  | messageSubscriptionCanceled s _ e _ | messageSubscriptionClosing s _ e .. => [s, e]
  | messageCorrelated s m _ e _ | remoteMessageCorrelation s m _ e .. => [s, m, e]
  | messageStartSubscriptionCreated p .. => [p]
  | processStartTimerArmed t p .. => [t, p]
  | processStartTimerFired t _ => [t]
  | userTaskCreated u _ e .. => [u, e]
  | userTaskAssigned u .. | userTaskUpdated u .. | userTaskCompleted u _ | userTaskCanceled u _
  | userTaskTransitionDeferred u .. | userTaskCorrectionsApplied u .. | userTaskTransitionResolved u .. => [u]
  | agentInstanceCreated _ a | agentInstanceUpdated _ a | agentInstanceCompleted _ a =>
    [a.agentInstanceKey, a.elementInstanceKey]
  | agentHistoryCreated _ r => [r.agentHistoryKey, r.agentInstanceKey, r.elementInstanceKey]
  | agentHistoryCommitted _ a ks | agentHistoryDiscarded _ a ks => a :: ks
  | agentHistoryDeduplicated _ a _ o => [a, o]
  | scopedCompensationCleared _ scopes => scopes
  | _ => []

/-- `Event::max_key` (`event.rs:1359`). -/
def maxKey (e : Event) : Key := e.maxKeyFields.foldl max (e.instanceKey.getD 0)

/-- `Event::terminal_instance_key`. -/
def terminalInstanceKey : Event → Option Key
  | processInstanceCompleted i | processInstanceTerminated i => some i
  | _ => none

/-- The five deployment kinds `install_deployment` applies (`engine/mod.rs:1265`). -/
def isDeployment : Event → Bool
  | processDeployed .. | decisionRequirementsDeployed .. | decisionDeployed .. | formDeployed ..
  | genericResourceDeployed .. => true
  | _ => false

end Event

end NanoBpm
