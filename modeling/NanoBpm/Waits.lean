import NanoBpm.Replay

/-!
# What instances wait on

The tables of user tasks, timers and subscriptions, and the start triggers of the deployed processes. Job events leave
them alone, and so do the events of instances but for a migration; each table is reached by a few events of its own.
-/

namespace NanoBpm

/-- The tables of what is waited on. -/
structure Waits where
  userTasks : KeyMap UserTask
  timers : KeyMap Timer
  messageSubscriptions : KeyMap MessageSubscription
  signalSubscriptions : KeyMap SignalSubscription
  conditionalSubscriptions : KeyMap ConditionalSubscription
  startTimers : KeyMap StartTimer
  messageStartSubscriptions : StrMap MessageStartSubscription

def State.waits (s : State) : Waits :=
  ⟨s.userTasks, s.timers, s.messageSubscriptions, s.signalSubscriptions, s.conditionalSubscriptions, s.startTimers,
    s.messageStartSubscriptions⟩

@[simp] theorem waits_modifyInstance (s : State) (key : Key) (f : ProcessInstance → ProcessInstance) :
    (s.modifyInstance key f).waits = s.waits := rfl

@[simp] theorem waits_modifyJob (s : State) (key : Key) (f : Job → Job) : (s.modifyJob key f).waits = s.waits := rfl

@[simp] theorem waits_decrementInflightByProcess (s : State) (p : Option String) :
    (decrementInflightByProcess s p).waits = s.waits := by
  unfold decrementInflightByProcess
  split
  · rfl
  · split <;> rfl

@[simp] theorem waits_resyncJobIndex (s : State) (key : Key) : (s.resyncJobIndex key).waits = s.waits := by
  unfold State.resyncJobIndex
  split
  · rfl
  · split <;> rfl

@[simp] theorem waits_insertJob (s : State) (job : Job) : (insertJob s job).waits = s.waits := by
  unfold insertJob
  rw [show ∀ t : State, (t.linkJob job.instanceKey job.key).waits = t.waits from fun _ => rfl, waits_resyncJobIndex]
  rfl

theorem waits_applyJob (s : State) (e : Event) : (applyJob s e).waits = s.waits := by
  cases e <;> try rfl
  case incidentResolved _ _ jobKey _ _ =>
    cases jobKey with
    | none => rfl
    | some k =>
      simp only [applyJob]
      split
      · rw [waits_resyncJobIndex]; rfl
      · rfl
  all_goals first
    | exact waits_insertJob _ _
    | exact (waits_resyncJobIndex _ _).trans (waits_modifyJob _ _ _)

theorem waits_applyResource (s : State) (e : Event) : (applyResource s e).waits = s.waits := by
  unfold applyResource
  split <;> try rfl
  split <;> rfl

/-- Only a migration reaches them. -/
theorem waits_applyInstance (s : State) {e : Event} (h : ∀ i p k m, e ≠ .processInstanceMigrated i p k m) :
    (applyInstance s e).waits = s.waits := by
  cases e <;> try rfl
  case processInstanceCompleted => exact waits_decrementInflightByProcess _ _
  case processInstanceTerminated => exact waits_decrementInflightByProcess _ _
  case processInstanceMigrated => exact absurd rfl (h _ _ _ _)

/-- What a migration does to the tables: the elements of the instance are renamed. -/
def Waits.migrate (instanceKey : Key) (remap : ElementId → ElementId) (w : Waits) : Waits :=
  { w with
    userTasks := w.userTasks.map fun _ t =>
      if t.instanceKey = instanceKey then { t with elementId := remap t.elementId } else t
    timers := w.timers.map fun _ t =>
      if t.instanceKey = instanceKey then { t with elementId := remap t.elementId } else t
    messageSubscriptions := w.messageSubscriptions.map fun _ x =>
      if x.instanceKey = instanceKey then { x with elementId := remap x.elementId } else x
    signalSubscriptions := w.signalSubscriptions.map fun _ x =>
      if x.instanceKey = instanceKey then { x with elementId := remap x.elementId } else x
    conditionalSubscriptions := w.conditionalSubscriptions.map fun _ x =>
      if x.instanceKey = instanceKey then { x with elementId := remap x.elementId } else x }

theorem waits_migrated (s : State) (instanceKey : Key) (targetProcessId : String) (targetKey : Key)
    (mappings : List (ElementId × ElementId)) :
    (apply s (.processInstanceMigrated instanceKey targetProcessId targetKey mappings)).waits =
      s.waits.migrate instanceKey (remapId mappings) := by
  show (applyInstance s _).waits = _
  simp only [applyInstance]
  split
  · rfl
  · exact congrArg (Waits.migrate instanceKey (remapId mappings)) (waits_decrementInflightByProcess _ _)

/-! ## Message subscriptions -/

/-- What an event does to the table of message subscriptions. -/
def Event.onMessageSubscriptions (subs : KeyMap MessageSubscription) : Event → KeyMap MessageSubscription
  | .messageSubscriptionCreated key instanceKey elementInstanceKey elementId messageName correlationKey kind =>
    subs.insert key ⟨key, instanceKey, elementInstanceKey, elementId, messageName, correlationKey, .opened, kind⟩
  | .messageSubscriptionOpening key instanceKey elementInstanceKey elementId messageName correlationKey kind =>
    subs.insert key ⟨key, instanceKey, elementInstanceKey, elementId, messageName, correlationKey, .opening, kind⟩
  | .messageCorrelated key .. | .remoteMessageCorrelation key .. =>
    subs.modify key fun x => if x.kind.isNonInterrupting then x else { x with state := .correlated }
  | .messageSubscriptionCanceled key .. | .messageSubscriptionClosing key .. =>
    subs.modify key fun x => { x with state := .canceled }
  | .processInstanceMigrated instanceKey _ _ mappings => subs.map fun _ x =>
    if x.instanceKey = instanceKey then { x with elementId := remapId mappings x.elementId } else x
  | _ => subs

theorem messageSubscriptions_apply (s : State) (e : Event) :
    (apply s e).messageSubscriptions = e.onMessageSubscriptions s.messageSubscriptions := by
  have hjob := congrArg Waits.messageSubscriptions (waits_applyJob s e)
  have hresource := congrArg Waits.messageSubscriptions (waits_applyResource s e)
  have hinstance := fun h => congrArg Waits.messageSubscriptions (waits_applyInstance s (e := e) h)
  cases e
  case processInstanceMigrated => exact congrArg Waits.messageSubscriptions (waits_migrated s _ _ _ _)
  all_goals first
    | rfl
    | exact hjob
    | exact hresource
    | exact hinstance (by simp)

/-! ## Conditional subscriptions -/

/-- What an event does to the table of conditional subscriptions. -/
def Event.onConditionalSubscriptions (subs : KeyMap ConditionalSubscription) : Event → KeyMap ConditionalSubscription
  | .conditionalSubscriptionCreated key instanceKey elementInstanceKey elementId condition referencedVars kind =>
    subs.insert key ⟨key, instanceKey, elementInstanceKey, elementId, condition, referencedVars, .opened, kind⟩
  | .conditionalTriggered key .. =>
    subs.modify key fun x => if x.kind.isNonInterrupting then x else { x with state := .correlated }
  | .conditionalSubscriptionCanceled key .. => subs.modify key fun x => { x with state := .canceled }
  | .processInstanceMigrated instanceKey _ _ mappings => subs.map fun _ x =>
    if x.instanceKey = instanceKey then { x with elementId := remapId mappings x.elementId } else x
  | _ => subs

theorem conditionalSubscriptions_apply (s : State) (e : Event) :
    (apply s e).conditionalSubscriptions = e.onConditionalSubscriptions s.conditionalSubscriptions := by
  have hjob := congrArg Waits.conditionalSubscriptions (waits_applyJob s e)
  have hresource := congrArg Waits.conditionalSubscriptions (waits_applyResource s e)
  have hinstance := fun h => congrArg Waits.conditionalSubscriptions (waits_applyInstance s (e := e) h)
  cases e
  case processInstanceMigrated => exact congrArg Waits.conditionalSubscriptions (waits_migrated s _ _ _ _)
  all_goals first
    | rfl
    | exact hjob
    | exact hresource
    | exact hinstance (by simp)

/-! ## Start triggers -/

/-- What an event does to the table of start timers. -/
def Event.onStartTimers (timers : KeyMap StartTimer) : Event → KeyMap StartTimer
  | .processStartTimerArmed timerKey processDefinitionKey processId startElementId dueAt intervalMillis repeating =>
    timers.insert timerKey
      ⟨timerKey, processDefinitionKey, processId, startElementId, some dueAt, intervalMillis, repeating⟩
  | .processStartTimerFired timerKey nextDueAt => timers.modify timerKey fun t => { t with dueAt := nextDueAt }
  | _ => timers

theorem startTimers_apply (s : State) (e : Event) : (apply s e).startTimers = e.onStartTimers s.startTimers := by
  have hjob := congrArg Waits.startTimers (waits_applyJob s e)
  have hresource := congrArg Waits.startTimers (waits_applyResource s e)
  have hinstance := fun h => congrArg Waits.startTimers (waits_applyInstance s (e := e) h)
  cases e
  case processInstanceMigrated => exact congrArg Waits.startTimers (waits_migrated s _ _ _ _)
  all_goals first
    | rfl
    | exact hjob
    | exact hresource
    | exact hinstance (by simp)

/-- What an event does to the table of message starts, which is keyed by the message's name. -/
def Event.onMessageStarts (starts : StrMap MessageStartSubscription) : Event → StrMap MessageStartSubscription
  | .messageStartSubscriptionCreated processDefinitionKey processId messageName startElementId =>
    starts.insert messageName ⟨processDefinitionKey, processId, messageName, startElementId⟩
  | _ => starts

theorem messageStartSubscriptions_apply (s : State) (e : Event) :
    (apply s e).messageStartSubscriptions = e.onMessageStarts s.messageStartSubscriptions := by
  have hjob := congrArg Waits.messageStartSubscriptions (waits_applyJob s e)
  have hresource := congrArg Waits.messageStartSubscriptions (waits_applyResource s e)
  have hinstance := fun h => congrArg Waits.messageStartSubscriptions (waits_applyInstance s (e := e) h)
  cases e
  case processInstanceMigrated => exact congrArg Waits.messageStartSubscriptions (waits_migrated s _ _ _ _)
  all_goals first
    | rfl
    | exact hjob
    | exact hresource
    | exact hinstance (by simp)

end NanoBpm
