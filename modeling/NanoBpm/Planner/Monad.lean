import Mathlib.Data.List.Sort
import NanoBpm.Memory

/-!
# Planning (`engine-core/src/engine/mod.rs:1797-1840`, `:12046-12105`, `engine/agent_behavior.rs`)

A command is planned in two ways. Step handlers read the engine as it is, mint keys and mark scopes as torn
down, and return their events for the caller to emit: `StepM`. Everything else emits as it goes: `Plan`.
Both are trees of the few operations the source has, so that whatever these operations keep, every handler
keeps; `emit` is the only one that touches the state, and it does so through `apply`.
-/

namespace NanoBpm

/-! ## Step handlers -/

/-- Reads a fixed engine (an argument of every handler), mints keys and marks scopes. -/
inductive StepM (α : Type) where
  | pure (a : α)
  | mint (k : Key → StepM α)
  | tearDown (scope : Key) (k : StepM α)

namespace StepM

def bind {α β : Type} : StepM α → (α → StepM β) → StepM β
  | .pure a, f => f a
  | .mint k, f => .mint fun key => (k key).bind f
  | .tearDown scope k, f => .tearDown scope (k.bind f)

instance : Monad StepM where
  pure := .pure
  bind := .bind

/-- `mint_key`. -/
def mintKey : StepM Key := .mint .pure

/-- `torn_down_scopes.insert`. -/
def markTornDown (scope : Key) : StepM Unit := .tearDown scope (.pure ())

end StepM

/-- What most handlers return: the events to emit and the steps to queue. -/
abbrev Outcome := List Event × List Step

/-! ## Plans -/

/-- `self`, the log of the command and its queue. -/
structure PlanState where
  engine : Engine
  log : List Event := []
  queue : List Step := []

/-- The operations of planning, each followed by the rest of the plan. -/
inductive Plan (α : Type) where
  | pure (a : α)
  | read (k : PlanState → Plan α)
  | mint (k : Key → Plan α)
  | tearDown (scope : Key) (k : Plan α)
  | apply (event : Event) (k : Plan α)
  | push (step : Step) (k : Plan α)
  | pop (k : Option Step → Plan α)
  /-- `start_dispatch_rr`, advanced. -/
  | dispatch (k : Nat → Plan α)

namespace Plan

def bind {α β : Type} : Plan α → (α → Plan β) → Plan β
  | .pure a, f => f a
  | .read k, f => .read fun s => (k s).bind f
  | .mint k, f => .mint fun key => (k key).bind f
  | .tearDown scope k, f => .tearDown scope (k.bind f)
  | .apply event k, f => .apply event (k.bind f)
  | .push step k, f => .push step (k.bind f)
  | .pop k, f => .pop fun step => (k step).bind f
  | .dispatch k, f => .dispatch fun n => (k n).bind f

instance : Monad Plan where
  pure := .pure
  bind := .bind

end Plan

/-- The dirty-variable bookkeeping of `emit` (`engine/mod.rs:12075-12098`). -/
def Engine.trackVars (e : Engine) (event : Event) : Engine :=
  if e.trackDirtyVars then
    match event with
    | .processInstanceCreated instanceKey .. | .variablesUpdated instanceKey _ =>
      { e with dirtyVars := e.dirtyVars.insert instanceKey, forgottenVars := e.forgottenVars.erase instanceKey }
    | .processInstanceCompleted instanceKey | .processInstanceTerminated instanceKey =>
      { e with dirtyVars := e.dirtyVars.erase instanceKey, forgottenVars := e.forgottenVars.insert instanceKey }
    | _ => e
  else e

namespace PlanState

def mint (s : PlanState) : Key × PlanState := (s.engine.mintKey.1, { s with engine := s.engine.mintKey.2 })

def markTornDown (s : PlanState) (scope : Key) : PlanState :=
  { s with engine := { s.engine with tornDownScopes := s.engine.tornDownScopes.insert scope } }

/-- `state::apply(&mut self.state, &event); log.push(event)`. -/
def applyEvent (s : PlanState) (event : Event) : PlanState :=
  let e := s.engine.trackVars event
  { s with engine := { e with state := NanoBpm.apply e.state event }, log := s.log ++ [event] }

def pushStep (s : PlanState) (step : Step) : PlanState := { s with queue := s.queue ++ [step] }

def popStep (s : PlanState) : Option Step × PlanState := (s.queue.head?, { s with queue := s.queue.tail })

/-- `start_dispatch_rr` and its `wrapping_add(1)`. -/
def advanceDispatch (s : PlanState) : Nat × PlanState :=
  (s.engine.startDispatchRr,
    { s with engine := { s.engine with startDispatchRr := (s.engine.startDispatchRr + 1) % 2 ^ 64 } })

end PlanState

def Plan.run {α : Type} : Plan α → PlanState → α × PlanState
  | .pure a, s => (a, s)
  | .read k, s => (k s).run s
  | .mint k, s => (k s.mint.1).run s.mint.2
  | .tearDown scope k, s => k.run (s.markTornDown scope)
  | .apply event k, s => k.run (s.applyEvent event)
  | .push step k, s => k.run (s.pushStep step)
  | .pop k, s => (k s.popStep.1).run s.popStep.2
  | .dispatch k, s => (k s.advanceDispatch.1).run s.advanceDispatch.2

namespace Plan

def self : Plan Engine := .read fun s => .pure s.engine
def getLog : Plan (List Event) := .read fun s => .pure s.log
def getQueue : Plan (List Step) := .read fun s => .pure s.queue
def mintKey : Plan Key := .mint .pure
def enqueue (step : Step) : Plan Unit := .push step (.pure ())
def enqueueAll (steps : List Step) : Plan Unit := steps.forM enqueue
def popFront : Plan (Option Step) := .pop .pure
def nextDispatch : Plan Nat := .dispatch .pure
def markTornDown (scope : Key) : Plan Unit := .tearDown scope (.pure ())

/-- A step handler as part of a plan. -/
def ofStepM {α : Type} : StepM α → Plan α
  | .pure a => .pure a
  | .mint k => .mint fun key => ofStepM (k key)
  | .tearDown scope k => .tearDown scope (ofStepM k)

instance : MonadLift StepM Plan where
  monadLift := ofStepM

end Plan

/-! ## Sorting -/

/-- `sort_unstable_by_key` on distinct keys. -/
def sortByKey {α : Type} (key : α → Key) (xs : List α) : List α := xs.insertionSort fun a b => key a ≤ key b

/-- `sort_unstable` on keys. -/
def sortKeys (keys : List Key) : List Key := sortByKey id keys

/-- `sort` on strings. -/
def sortStrings (xs : List String) : List String := xs.insertionSort fun a b => a ≤ b

/-- `dedup` on a sorted list. -/
def dedupSorted {α : Type} [DecidableEq α] : List α → List α
  | [] => []
  | [x] => [x]
  | x :: y :: rest => if x = y then dedupSorted (y :: rest) else x :: dedupSorted (y :: rest)

/-! ## Agents (`engine/mod.rs:631-720`, `:1099-1240`, `engine/agent_behavior.rs`) -/

/-- `MAX_CALL_ACTIVITY_DEPTH`. -/
def maxCallActivityDepth : Nat := 1000

/-- The parent chain walked at most `fuel` steps. -/
def State.rootFrom (s : State) : Nat → Key → Key
  | 0, current => current
  | fuel + 1, current =>
    match s.instances[current]?.bind (·.parentProcessInstanceKey) with
    | some parent => s.rootFrom fuel parent
    | none => current

def State.rootProcessInstanceKey (s : State) (instanceKey : Key) : Key :=
  s.rootFrom (maxCallActivityDepth + 1) instanceKey

def State.findAgentInstance (s : State) (agentInstanceKey : Key) : Option AgentInstance :=
  s.instances.vals.findSome? fun i => i.agentInstances[agentInstanceKey]?

def State.resolveActiveElementInstance (s : State) (elementInstanceKey : Key) : Option (Key × ElementId) :=
  s.instances.toList.findSome? fun (key, i) => i.active[elementInstanceKey]?.map fun id => (key, id)

def State.owningAgentInstance (s : State) (elementInstanceKey : Key) : Option Key :=
  s.instances.vals.findSome? fun i => i.agentInstances.vals.findSome? fun a =>
    if a.elementInstanceKeys.contains elementInstanceKey then some a.agentInstanceKey else none

/-- `AgentInstanceStatus::is_active` (`agent.rs:333`). -/
def AgentInstanceStatus.isActive (s : AgentInstanceStatus) : Bool := s != .completed

/-- `with_delta` (`agent.rs:258`). -/
def AgentInstanceMetrics.withDelta (m : AgentInstanceMetrics) (d : AgentInstanceMetricsDelta) : AgentInstanceMetrics where
  inputTokens := satAddI64 m.inputTokens (max d.inputTokens 0)
  outputTokens := satAddI64 m.outputTokens (max d.outputTokens 0)
  reasoningTokenCount := satAddI64 m.reasoningTokenCount (max d.reasoningTokenCount 0)
  cacheCreationTokenCount := satAddI64 m.cacheCreationTokenCount (max d.cacheCreationTokenCount 0)
  cacheReadTokenCount := satAddI64 m.cacheReadTokenCount (max d.cacheReadTokenCount 0)
  modelCalls := satAddI64 m.modelCalls (max d.modelCalls 0)
  toolCalls := satAddI64 m.toolCalls (max d.toolCalls 0)

/-- `configuration_attributes`. -/
def AgentHistoryTurn.configurationAttributes (t : AgentHistoryTurn) : List String :=
  if !t.changedAttributes.isEmpty then t.changedAttributes
  else
    ([(t.model.isSome, "model"), (t.provider.isSome, "provider"), (t.systemPrompt.isSome, "systemPrompt"),
      (!t.tools.isEmpty, "tools"), (t.limits.isSome, "maxTokens"), (t.limits.isSome, "maxModelCalls"),
      (t.limits.isSome, "maxToolCalls")].filter (·.1)).map (·.2)

/-- One turn of the loop of `apply_agent_configuration`. -/
def AgentInstance.configure (a : AgentInstance) (t : AgentHistoryTurn) (field : String) : AgentInstance :=
  match field with
  | "model" => { a with definition := { a.definition with model := t.model } }
  | "provider" => { a with definition := { a.definition with provider := t.provider } }
  | "systemPrompt" => { a with definition := { a.definition with systemPrompt := t.systemPrompt } }
  | "tools" => { a with tools := t.tools }
  | "maxTokens" => { a with limits := { a.limits with maxTokens := (t.limits.getD {}).maxTokens } }
  | "maxModelCalls" => { a with limits := { a.limits with maxModelCalls := (t.limits.getD {}).maxModelCalls } }
  | "maxToolCalls" => { a with limits := { a.limits with maxToolCalls := (t.limits.getD {}).maxToolCalls } }
  | _ => a

def AgentInstance.applyConfiguration (a : AgentInstance) (t : AgentHistoryTurn) : AgentInstance :=
  if t.role != .configuration then a else t.configurationAttributes.foldl (·.configure t) a

def State.duplicateAgentHistory (s : State) (agent : Key) (t : AgentHistoryTurn) : Option Key := do
  let id ← t.historyItemId.filter (! ·.isEmpty)
  let a ← s.findAgentInstance agent
  let records ← (← s.instances[a.processInstanceKey]?).agentHistory[agent]?
  let record ← records.find? fun r => r.historyItemId == some id &&
    (r.commitStatus == .committed || (r.commitStatus == .pending && r.jobKey == t.jobKey && r.jobLease == t.jobLease))
  return record.agentHistoryKey

/-- `apply_history_changes`. -/
def State.applyHistoryChanges (s : State) (agent : AgentInstance) (history : List AgentHistoryTurn)
    (creating : Bool) : AgentInstance :=
  history.foldl (fun a t =>
    if (s.duplicateAgentHistory a.agentInstanceKey t).isSome then a
    else
      let a := if creating then a.applyConfiguration t else a
      let m := t.metrics.getD {}
      { a with
        metrics := a.metrics.withDelta
          { inputTokens := m.inputTokens.getD 0
            outputTokens := m.outputTokens.getD 0
            reasoningTokenCount := m.reasoningTokenCount.getD 0
            cacheCreationTokenCount := m.cacheCreationTokenCount.getD 0
            cacheReadTokenCount := m.cacheReadTokenCount.getD 0
            modelCalls := if t.role == .assistant then 1 else 0
            toolCalls := if t.role == .assistant then t.toolCalls.length else 0 } }) agent

namespace Plan

/-- `emit` of an event that neither settles history nor ends an instance. -/
def emitPlain (event : Event) : Plan Unit := .apply event (.pure ())

/-- `discard_agent_history`. -/
def discardAgentHistory (agentInstanceKey : Key) : Plan Unit := do
  let e ← self
  match e.state.findAgentInstance agentInstanceKey with
  | none => return
  | some a =>
    let records := (e.state.instances[a.processInstanceKey]?.bind (·.agentHistory[agentInstanceKey]?)).getD []
    let pending := (records.filter (·.commitStatus == .pending)).map (·.agentHistoryKey)
    if !pending.isEmpty then emitPlain (.agentHistoryDiscarded a.processInstanceKey agentInstanceKey pending)

/-- `cleanup_agent_instances`. -/
def cleanupAgentInstances (instanceKey : Key) : Plan Unit := do
  let e ← self
  let agents := ((e.state.instances[instanceKey]?.map (·.agentInstances.vals)).getD []).filter (·.status.isActive)
  (sortByKey (·.agentInstanceKey) agents).forM fun agent => do
    discardAgentHistory agent.agentInstanceKey
    let now := (← self).now
    emitPlain (.agentInstanceCompleted instanceKey
      { agent with status := .completed, completedAt := now, lastUpdatedAt := now })

/-- `settle_job_history`. -/
def settleJobHistory (instanceKey jobKey : Key) (lease : String) (commit : Bool) : Plan Unit := do
  let e ← self
  let records := (((e.state.instances[instanceKey]?.map (·.agentHistory.vals.flatten)).getD []).filter fun r =>
    r.jobKey == jobKey && r.commitStatus == .pending)
  (sortByKey (·.agentHistoryKey) records).forM fun r => do
    let winning := commit && (lease.isEmpty || r.jobLease == lease)
    if winning then emitPlain (.agentHistoryCommitted instanceKey r.agentInstanceKey [r.agentHistoryKey])
    else emitPlain (.agentHistoryDiscarded instanceKey r.agentInstanceKey [r.agentHistoryKey])
    if winning && r.role == .configuration then
      match (← self).state.findAgentInstance r.agentInstanceKey with
      | none => return
      | some agent =>
        let turn : AgentHistoryTurn :=
          { role := r.role, changedAttributes := r.changedAttributes, model := r.model, provider := r.provider,
            systemPrompt := r.systemPrompt, tools := r.tools, limits := r.limits }
        emitPlain (.agentInstanceUpdated instanceKey (agent.applyConfiguration turn))

/-- `emit`: agents of an ending instance are completed first, the history of a resolved job is settled after. -/
def emit (event : Event) : Plan Unit := do
  match event with
  | .processInstanceCompleted instanceKey | .processInstanceTerminated instanceKey =>
    cleanupAgentInstances instanceKey
    emitPlain event
  | .jobCompleted jobKey instanceKey .. =>
    let lease := (((← self).state.jobs[jobKey]?).bind (·.leaseToken)).getD ""
    emitPlain event
    settleJobHistory instanceKey jobKey lease true
  | .jobCanceled jobKey instanceKey | .jobErrorThrown jobKey instanceKey .. =>
    emitPlain event
    settleJobHistory instanceKey jobKey "" false
  | _ => emitPlain event

def emitAll (events : List Event) : Plan Unit := events.forM emit

/-- `append_agent_history`. -/
def appendAgentHistory (agentInstanceKey : Key) (turns : List AgentHistoryTurn) : Plan Unit := do
  match (← self).state.findAgentInstance agentInstanceKey with
  | none => return
  | some base =>
    turns.forM fun turn => do
      match (← self).state.duplicateAgentHistory agentInstanceKey turn with
      | some original =>
        emit (.agentHistoryDeduplicated base.processInstanceKey agentInstanceKey (turn.historyItemId.getD "") original)
      | none =>
        let agentHistoryKey ← mintKey
        emit (.agentHistoryCreated base.processInstanceKey
          { changedAttributes := turn.configurationAttributes
            agentHistoryKey, agentInstanceKey
            elementInstanceKey := base.elementInstanceKey
            processInstanceKey := base.processInstanceKey
            rootProcessInstanceKey := base.rootProcessInstanceKey
            bpmnProcessId := base.bpmnProcessId
            processDefinitionKey := base.processDefinitionKey
            tenantId := base.tenantId
            jobKey := turn.jobKey
            jobLease := turn.jobLease
            loopIteration := turn.loopIteration
            role := turn.role
            producedAt := turn.producedAt
            content := turn.content
            systemPrompt := turn.systemPrompt
            toolCalls := turn.toolCalls
            metrics := turn.metrics
            historyItemId := turn.historyItemId
            tools := turn.tools
            model := turn.model
            provider := turn.provider
            limits := turn.limits
            isDuplicate := turn.isDuplicate
            commitStatus := .pending })

end Plan

end NanoBpm
