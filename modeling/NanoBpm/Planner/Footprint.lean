import NanoBpm.Planner.Drain

/-!
# What a step may emit

Only three step handlers fire a join: the activation of a join and the two ends of an inclusive gateway. Every
other handler puts things on its own instance only, and counts a token at a join exactly when it takes a flow. Each
handler is read once here; what a run does to joins and instances follows from these facts.
-/

namespace NanoBpm

/-! ## Results of a step handler -/

namespace StepM

variable {α β : Type}

/-- Whatever keys with `F` are minted, the result satisfies `P`. -/
def All (F : Key → Prop) (P : α → Prop) : StepM α → Prop
  | .pure a => P a
  | .mint k => ∀ key, F key → (k key).All F P
  | .tearDown _ k => k.All F P

variable {F : Key → Prop}

@[simp] theorem all_pure {P : α → Prop} {a : α} : (Pure.pure a : StepM α).All F P ↔ P a := Iff.rfl

@[simp] theorem all_mintKey {P : Key → Prop} : mintKey.All F P ↔ ∀ key, F key → P key := Iff.rfl

@[simp] theorem all_markTornDown {P : Unit → Prop} {scope : Key} : (markTornDown scope).All F P ↔ P () := Iff.rfl

@[simp] theorem all_bind {P : β → Prop} {m : StepM α} {f : α → StepM β} :
    (m >>= f).All F P ↔ m.All F fun a => (f a).All F P := by
  show (m.bind f).All F P ↔ _
  induction m with
  | pure a => exact Iff.rfl
  | mint k ih =>
    simp only [StepM.bind, All]
    exact forall_congr' fun key => imp_congr_right fun _ => ih key
  | tearDown scope k ih => exact ih

theorem All.mono {P Q : α → Prop} (h : ∀ a, P a → Q a) {m : StepM α} (hm : m.All F P) : m.All F Q := by
  induction m with
  | pure a => exact h a hm
  | mint k ih =>
    intro key hkey
    exact ih key (hm key hkey)
  | tearDown scope k ih => exact ih hm

theorem all_mapM_loop {Q : β → Prop} {f : α → StepM β} {xs : List α} {acc : List β}
    (hxs : ∀ a ∈ xs, (f a).All F Q) (hacc : ∀ b ∈ acc, Q b) :
    (List.mapM.loop f xs acc).All F fun bs => ∀ b ∈ bs, Q b := by
  induction xs generalizing acc with
  | nil =>
    rw [List.mapM.loop, all_pure]
    simpa using hacc
  | cons a xs ih =>
    rw [List.mapM.loop, all_bind]
    refine All.mono ?_ (hxs a (by simp))
    intro b hb
    refine ih (fun a ha => hxs a (by simp [ha])) ?_
    intro c hc
    rcases List.mem_cons.mp hc with rfl | hc
    · exact hb
    · exact hacc c hc

/-- The results of a list of handlers. -/
theorem all_mapM {Q : β → Prop} {f : α → StepM β} {xs : List α} (hxs : ∀ a ∈ xs, (f a).All F Q) :
    (xs.mapM f).All F fun bs => ∀ b ∈ bs, Q b :=
  all_mapM_loop hxs (by simp)

end StepM

/-! ## Events and steps -/

namespace Event

/-- The events that put something on an instance: a token, a job, a timer, a user task, a subscription, an incident,
or the record of a loop or a container. -/
def opens : Event → Bool
  | elementActivating .. | elementActivated .. | parallelJoinOpened .. | jobCreated ..
  | executionListenerJobCreated .. | taskListenerJobCreated .. | timerCreated .. | userTaskCreated ..
  | messageSubscriptionCreated .. | messageSubscriptionOpening .. | signalSubscriptionCreated ..
  | conditionalSubscriptionCreated .. | compensationSubscriptionCreated .. | compensationTriggered ..
  | multiInstanceActivated .. | multiInstanceChildActivated .. | adHocActivated .. | adHocToolActivated ..
  | incidentRaised .. => true
  | _ => false

/-- The events that count, consume or rename the tokens of a join. -/
def joins : Event → Bool
  | parallelJoinTokenArrived .. | parallelJoinFired .. | processInstanceMigrated .. => true
  | _ => false

end Event

/-- The part of the engine an event comes from: what step handlers and sweeps emit, the tokens of joins, or commands of
one kind. -/
inductive Origin where
  | routine | join | migration | deployment | resource | deletion | activation | expiry | completion | failure | error | update
  | timer | rearm | dispatch | message | signal | cancellation | suspension | agent | start | spawn
  | job
deriving DecidableEq

namespace Event

def origin : Event → Origin
  | parallelJoinTokenArrived .. | parallelJoinFired .. => .join
  | processInstanceMigrated .. => .migration
  | processDeployed .. | messageStartSubscriptionCreated .. | processStartTimerArmed .. => .deployment
  | deploymentCreated .. | decisionRequirementsDeployed .. | decisionDeployed .. | formDeployed ..
  | genericResourceDeployed .. => .resource
  | decisionInstanceDeleted .. => .deletion
  | jobActivated .. => .activation
  | jobLockExpired .. => .expiry
  | jobCompleted .. | userTaskCorrectionsApplied .. => .completion
  | jobFailed .. => .failure
  | jobErrorThrown .. => .error
  | jobRetriesUpdated .. | jobTimeoutUpdated .. => .update
  | timerTriggered .. => .timer
  | processStartTimerFired .. => .rearm
  | startInstanceDispatched .. => .dispatch
  | processInstanceCreated _ _ _ _ _ _ _ _ none _ => .start
  | processInstanceCreated .. => .spawn
  | messagePublished .. | messageCorrelated .. | remoteMessageCorrelation .. => .message
  | signalBroadcast .. | signalCorrelated .. => .signal
  | processInstanceTerminating .. => .cancellation
  | processInstanceSuspended .. | processInstanceResumed .. => .suspension
  | agentInstanceCreated .. => .agent
  | _ => .routine

/-- The key of what an event creates. -/
def created : Event → Option Key
  | elementActivated _ key .. | jobCreated key .. | executionListenerJobCreated key .. | taskListenerJobCreated key ..
  | timerCreated key .. | userTaskCreated key .. | messageSubscriptionCreated key .. | messageSubscriptionOpening key ..
  | signalSubscriptionCreated key .. | conditionalSubscriptionCreated key .. | incidentRaised key ..
  | processInstanceCreated key .. => some key
  | _ => none

/-- The events that create a job. -/
def createsJob : Event → Bool
  | jobCreated .. | executionListenerJobCreated .. | taskListenerJobCreated .. => true
  | _ => false

theorem createsJob_of_created {event : Event} (h : event.created = none) : event.createsJob = false := by
  cases event <;> first | rfl | cases h

/-- The events that close a job or a message subscription. -/
def closes : Event → Bool
  | jobCanceled .. | messageSubscriptionCanceled .. | messageSubscriptionClosing .. => true
  | _ => false

/-- The creation of a called instance, under a minted key. -/
structure Spawns (F : Key → Prop) (event : Event) : Prop where
  origin : event.origin = .spawn
  minted : ∀ key, event.created = some key → F key

/-- What such an event closes is open in the state it is decided in. -/
def ClosesOpen (s : State) : Event → Prop
  | jobCanceled key _ => ∃ j ∈ s.jobs.vals, j.key = key ∧ j.state.inPlay = true
  | messageSubscriptionCanceled key .. => ∃ m ∈ s.messageSubscriptions.vals, m.key = key ∧ m.state = .opened
  | messageSubscriptionClosing key .. => ∃ m ∈ s.messageSubscriptions.vals, m.key = key ∧ m.state = .opening
  | _ => True

/-- The scope an event writes variables to, with its instance. -/
def scopeWrite : Event → Option (Key × Key)
  | scopedVariablesUpdated instanceKey scopeKey _ => some (instanceKey, scopeKey)
  | _ => none

/-- The scope that a handler on instance `i` writes to is a minted one, one of an active element of `i`, or at least not
the root. -/
def WritesInside (F : Key → Prop) (s : State) (i : Key) (event : Event) : Prop :=
  ∀ k x, event.scopeWrite = some (k, x) → F x ∨ (x ≠ 0 ∧ x ≠ k) ∨ (k = i ∧ (s.elementIdOfInstance i x).isSome = true)

theorem writesInside_of_scopeWrite {F : Key → Prop} {s : State} {i : Key} {event : Event} (h : event.scopeWrite = none) :
    event.WritesInside F s i := by
  intro k x hx
  rw [h] at hx
  cases hx

theorem scopeWrite_of_created {event : Event} {key : Key} (h : event.created = some key) : event.scopeWrite = none := by
  cases event <;> first | rfl | cases h

/-- An event of a step handler that leaves the tokens of joins alone, opens nothing on another instance, creates things
under minted keys only, closes open ones and writes variables inside. -/
@[mk_iff]
structure Tame (F : Key → Prop) (s : State) (instanceKey : Key) (event : Event) : Prop where
  origin : event.origin = .routine
  onOwn : event.opens = true → event.instanceKey = some instanceKey
  minted : ∀ key, event.created = some key → F key
  closesOpen : event.ClosesOpen s
  writes : event.WritesInside F s instanceKey

theorem closesOpen_of_closes {event : Event} (h : event.closes = false) (s : State) : event.ClosesOpen s := by
  cases event <;> trivial

namespace Tame

variable {F : Key → Prop} {s : State} {i : Key} {event : Event}

theorem plain (horigin : event.origin = .routine) (hopens : event.opens = false) (hcreated : event.created = none)
    (hcloses : event.closes = false) (hwrites : event.scopeWrite = none) : event.Tame F s i :=
  ⟨horigin, by simp [hopens], by simp [hcreated], closesOpen_of_closes hcloses s, writesInside_of_scopeWrite hwrites⟩

theorem opening (horigin : event.origin = .routine) (hi : event.instanceKey = some i) (hcreated : event.created = none)
    (hcloses : event.closes = false) (hwrites : event.scopeWrite = none) : event.Tame F s i :=
  ⟨horigin, fun _ => hi, by simp [hcreated], closesOpen_of_closes hcloses s, writesInside_of_scopeWrite hwrites⟩

theorem creating (horigin : event.origin = .routine) (hi : event.instanceKey = some i) {key : Key}
    (hcreated : event.created = some key) (hkey : F key) (hcloses : event.closes = false) : event.Tame F s i :=
  ⟨horigin, fun _ => hi, by simpa [hcreated] using hkey, closesOpen_of_closes hcloses s,
    writesInside_of_scopeWrite (scopeWrite_of_created hcreated)⟩

theorem closing (horigin : event.origin = .routine) (hopens : event.opens = false) (hcreated : event.created = none)
    (hwrites : event.scopeWrite = none) (h : event.ClosesOpen s) : event.Tame F s i :=
  ⟨horigin, by simp [hopens], by simp [hcreated], h, writesInside_of_scopeWrite hwrites⟩

/-- A write to the scope of an element instance that is fresh or active. -/
theorem writing {x : Key} {vars : Vars} (hx : F x ∨ (s.elementIdOfInstance i x).isSome = true) :
    (scopedVariablesUpdated i x vars).Tame F s i := by
  refine ⟨rfl, nofun, nofun, trivial, fun k y h => ?_⟩
  cases h
  exact hx.imp_right fun hactive => .inr ⟨rfl, hactive⟩

end Tame

theorem joins_of_routine {event : Event} (h : event.origin = .routine) : event.joins = false := by
  cases event <;> first | rfl | cases h

theorem Spawns.joins {F : Key → Prop} {event : Event} (h : event.Spawns F) : event.joins = false := by
  have horigin := h.origin
  cases event <;> first | rfl | cases horigin

end Event

/-- A list of such events. -/
def Tame (F : Key → Prop) (s : State) (instanceKey : Key) (events : List Event) : Prop :=
  ∀ event ∈ events, event.Tame F s instanceKey

namespace Tame

variable {F : Key → Prop} {s : State} {i : Key}

@[simp] theorem nil : Tame F s i [] := by simp [Tame]

@[simp] theorem cons_iff {event : Event} {events : List Event} :
    Tame F s i (event :: events) ↔ event.Tame F s i ∧ Tame F s i events := by simp [Tame]

@[simp] theorem append_iff {events more : List Event} : Tame F s i (events ++ more) ↔ Tame F s i events ∧ Tame F s i more := by
  simp [Tame, or_imp, forall_and]

/-- Events that open nothing, on whatever instance. -/
theorem quiet {events : List Event}
    (h : events.all (fun event => event.origin = .routine && !event.opens && event.created.isNone && !event.closes &&
      event.scopeWrite.isNone) = true) : Tame F s i events := by
  intro event hevent
  have hquiet := List.all_eq_true.mp h event hevent
  simp only [Bool.and_eq_true, Bool.not_eq_true', decide_eq_true_eq, Option.isNone_iff_eq_none] at hquiet
  exact .plain hquiet.1.1.1.1 hquiet.1.1.1.2 hquiet.1.1.2 hquiet.1.2 hquiet.2

theorem one {event : Event} (h : event.Tame F s i) : Tame F s i [event] := by simpa using h

theorem flatten {lists : List (List Event)} (h : ∀ events ∈ lists, Tame F s i events) : Tame F s i lists.flatten := by
  intro event hevent
  obtain ⟨events, hevents, hmem⟩ := List.mem_flatten.mp hevent
  exact h events hevents event hmem

theorem flatMap {α : Type} {xs : List α} {f : α → List Event} (h : ∀ a, Tame F s i (f a)) : Tame F s i (xs.flatMap f) := by
  intro event hevent
  obtain ⟨a, -, hmem⟩ := List.mem_flatMap.mp hevent
  exact h a event hmem

theorem map {α : Type} {xs : List α} {f : α → Event} (h : ∀ a, (f a).Tame F s i) : Tame F s i (xs.map f) := by
  intro event hevent
  obtain ⟨a, -, rfl⟩ := List.mem_map.mp hevent
  exact h a

theorem filter {events : List Event} {p : Event → Bool} (h : Tame F s i events) : Tame F s i (events.filter p) :=
  fun event hevent => h event (List.mem_filter.mp hevent).1

end Tame

/-- The flow a step came over. -/
def Step.via : Step → Option IncomingFlow
  | .activate _ _ _ via => via
  | _ => none

/-- The outcome of a handler: events of its own instance around the flows it takes out of one element and the one instance
it may call, and steps that came over no flow. -/
def Outcome.Moves (F : Key → Prop) (s : State) (i : Key) (out : Outcome) : Prop :=
  ∃ events spawned after source scope indices steps, Tame F s i events ∧ Tame F s i after ∧
    (∀ event ∈ spawned, event.Spawns F) ∧ spawned.length ≤ 1 ∧ (∀ step ∈ steps, Step.via step = none) ∧
    out = (events ++ (s.takeFlows i source scope indices).1 ++ spawned ++ after,
      (s.takeFlows i source scope indices).2 ++ steps)

namespace Outcome.Moves

variable {F : Key → Prop} {s : State} {i : Key}

/-- No flow is taken. -/
theorem stays {events : List Event} {steps : List Step} (hevents : Tame F s i events)
    (hsteps : ∀ step ∈ steps, Step.via step = none) : Outcome.Moves F s i (events, steps) :=
  ⟨events, [], [], "", 0, [], steps, hevents, .nil, by simp, by simp, hsteps, by simp [State.takeFlows]⟩

theorem parks {events : List Event} (hevents : Tame F s i events) : Outcome.Moves F s i (events, []) :=
  stays hevents (by simp)

/-- An instance is called. -/
theorem spawns {event : Event} {steps : List Step} (h : event.Spawns F) (hsteps : ∀ step ∈ steps, Step.via step = none) :
    Outcome.Moves F s i ([event], steps) :=
  ⟨[], [event], [], "", 0, [], steps, .nil, .nil, by simpa using h, by simp, hsteps, by simp [State.takeFlows]⟩

theorem takesFlows (events : List Event) {source : ElementId} {scope : Key} {indices : List Nat}
    (hevents : Tame F s i events) :
    Outcome.Moves F s i (events ++ (s.takeFlows i source scope indices).1, (s.takeFlows i source scope indices).2) :=
  ⟨events, [], [], source, scope, indices, [], hevents, .nil, by simp, by simp, by simp, by simp⟩

theorem takesAllFlows (events : List Event) {source : ElementId} {scope : Key} (hevents : Tame F s i events) :
    Outcome.Moves F s i (events ++ (s.takeAllFlows i source scope).1, (s.takeAllFlows i source scope).2) :=
  takesFlows events hevents

theorem prepend {events : List Event} {out : Outcome} (hevents : Tame F s i events) (h : Outcome.Moves F s i out) :
    Outcome.Moves F s i (events ++ out.1, out.2) := by
  obtain ⟨more, spawned, after, source, scope, indices, steps, hmore, hafter, hspawned, hone, hsteps, rfl⟩ := h
  exact ⟨events ++ more, spawned, after, source, scope, indices, steps, by simp [hevents, hmore], hafter, hspawned, hone,
    hsteps, by simp⟩

theorem append {events : List Event} {out : Outcome} (h : Outcome.Moves F s i out) (hevents : Tame F s i events) :
    Outcome.Moves F s i (out.1 ++ events, out.2) := by
  obtain ⟨before, spawned, after, source, scope, indices, steps, hbefore, hafter, hspawned, hone, hsteps, rfl⟩ := h
  exact ⟨before, spawned, after ++ events, source, scope, indices, steps, hbefore, by simp [hevents, hafter], hspawned, hone,
    hsteps, by simp⟩

theorem andSteps {more : List Step} {out : Outcome} (h : Outcome.Moves F s i out)
    (hmore : ∀ step ∈ more, Step.via step = none) : Outcome.Moves F s i (out.1, out.2 ++ more) := by
  obtain ⟨before, spawned, after, source, scope, indices, steps, hbefore, hafter, hspawned, hone, hsteps, rfl⟩ := h
  refine ⟨before, spawned, after, source, scope, indices, steps ++ more, hbefore, hafter, hspawned, hone, ?_, by simp⟩
  intro step hstep
  rcases List.mem_append.mp hstep with hstep | hstep
  · exact hsteps step hstep
  · exact hmore step hstep

end Outcome.Moves

/-! ## Cancellations and teardown -/

namespace State

variable {F : Key → Prop} {i : Key} (s : State)

theorem tame_timerCancels (p : Timer → Bool) : Tame F s i (s.timerCancels p) :=
  .map fun _ => .plain rfl rfl rfl rfl rfl

theorem tame_disarmSubscriptionEvent {m : MessageSubscription} (hm : m ∈ s.messageSubscriptions.vals)
    (hlive : m.state.isLive = true) : (disarmSubscriptionEvent m).Tame F s i := by
  unfold disarmSubscriptionEvent
  split
  · next hopening => exact .closing rfl rfl rfl rfl ⟨m, hm, rfl, hopening⟩
  · next hopening =>
    refine .closing rfl rfl rfl rfl ⟨m, hm, rfl, ?_⟩
    cases hstate : m.state <;> simp_all [MessageSubscriptionState.isLive]

theorem tame_messageCancels (p : MessageSubscription → Bool) : Tame F s i (s.messageCancels p) := by
  intro event hevent
  obtain ⟨m, hm, rfl⟩ := List.mem_map.mp hevent
  have hmem := List.mem_filter.mp ((List.mem_insertionSort _).mp hm)
  simp only [Bool.and_eq_true] at hmem
  exact s.tame_disarmSubscriptionEvent hmem.1 hmem.2.1

theorem tame_signalCancels (p : SignalSubscription → Bool) : Tame F s i (s.signalCancels p) :=
  .map fun _ => .plain rfl rfl rfl rfl rfl

theorem tame_conditionalCancels (p : ConditionalSubscription → Bool) : Tame F s i (s.conditionalCancels p) :=
  .map fun _ => .plain rfl rfl rfl rfl rfl

theorem tame_userTaskCancels (p : UserTask → Bool) : Tame F s i (s.userTaskCancels p) :=
  .map fun _ => .plain rfl rfl rfl rfl rfl

theorem tame_cancelBoundariesOn (eik : Key) : Tame F s i (s.cancelBoundariesOn eik) := by
  simp [cancelBoundariesOn, cancelBoundaryTimersOn, cancelBoundaryMessageSubscriptionsOn,
    cancelBoundarySignalSubscriptionsOn, cancelBoundaryConditionalSubscriptionsOn, tame_timerCancels,
    tame_messageCancels, tame_signalCancels, tame_conditionalCancels]

/-- The job on an element instance, canceled. -/
theorem tame_cancelActiveJob (eik instanceKey : Key) : Tame F s i (match s.activeJobOn eik with
    | some jobKey => [.jobCanceled jobKey instanceKey]
    | none => []) := by
  split
  · next jobKey hjob =>
    obtain ⟨j, hj, rfl⟩ := Option.map_eq_some_iff.mp hjob
    have hinPlay := List.find?_some hj
    simp only [Bool.and_eq_true] at hinPlay
    exact .one (.closing rfl rfl rfl rfl ⟨j, List.mem_of_find?_eq_some hj, rfl, hinPlay.2⟩)
  · exact .nil

/-- The jobs of an instance, canceled. -/
theorem tame_jobCancels (instanceKey : Key) :
    Tame F s i ((sortByKey (·.key) (s.jobs.vals.filter fun j => j.instanceKey == instanceKey &&
      (j.state == .created || j.state == .activated || j.state == .failed))).map fun j =>
        .jobCanceled j.key instanceKey) := by
  intro event hevent
  obtain ⟨j, hj, rfl⟩ := List.mem_map.mp hevent
  have hmem := List.mem_filter.mp ((List.mem_insertionSort _).mp hj)
  simp only [Bool.and_eq_true, Bool.or_eq_true, beq_iff_eq] at hmem
  refine .closing rfl rfl rfl rfl ⟨j, hmem.1, rfl, ?_⟩
  rcases hmem.2.2 with (hstate | hstate) | hstate <;> simp [hstate, JobState.inPlay]

theorem tame_discardInstanceTokenEvents (instanceKey : Key) : Tame F s i (s.discardInstanceTokenEvents instanceKey) := by
  simp only [discardInstanceTokenEvents, Tame.append_iff, tame_timerCancels, tame_messageCancels, tame_signalCancels,
    tame_conditionalCancels, tame_userTaskCancels, and_true]
  exact s.tame_jobCancels instanceKey

theorem tame_discardInstanceEvents (instanceKey : Key) : Tame F s i (s.discardInstanceEvents instanceKey) := by
  refine Tame.append_iff.mpr ⟨s.tame_discardInstanceTokenEvents instanceKey, .quiet rfl⟩

/-- The instance a call activity spawned, discarded. -/
theorem tame_discardCallee (eik : Key) : Tame F s i (match s.callActivityChildOf eik with
    | some child => s.discardInstanceEvents child
    | none => []) := by
  split
  · exact s.tame_discardInstanceEvents _
  · exact .nil

theorem tame_bodyRecordEvents (instanceKey eik : Key) : Tame F s i (s.bodyRecordEvents instanceKey eik) := by
  unfold bodyRecordEvents
  split <;> split <;> exact .quiet rfl

end State

namespace Engine

variable {F : Key → Prop} {i : Key} (e : Engine)

theorem tame_incidentResolutions (instanceKey : Key) (incidents : List Incident) :
    Tame F e.state i (e.incidentResolutions instanceKey incidents) :=
  .map fun _ => .plain rfl rfl rfl rfl rfl

theorem tame_resolveIncidentsOn (instanceKey eik : Key) : Tame F e.state i (e.resolveIncidentsOn instanceKey eik) :=
  e.tame_incidentResolutions instanceKey _

theorem tame_resolveInstanceIncidents (instanceKey : Key) : Tame F e.state i (e.resolveInstanceIncidents instanceKey) := by
  unfold resolveInstanceIncidents
  split
  · exact .nil
  · exact e.tame_incidentResolutions instanceKey _

omit e in
theorem tame_completion {s : State} (instanceKey eik : Key) (elementId : ElementId) :
    Tame F s i (completion instanceKey eik elementId) :=
  .quiet rfl

theorem tame_descendantTeardownEvents (instanceKey eik : Key) :
    Tame F e.state i (e.descendantTeardownEvents instanceKey eik) := by
  have hreset : ∀ elementId, Tame F e.state i (if e.state.joinEik instanceKey elementId = some eik then
      [.parallelJoinReset instanceKey elementId] else []) := by
    intro elementId
    split <;> exact .quiet rfl
  simp only [descendantTeardownEvents, Tame.append_iff, State.tame_bodyRecordEvents, State.cancelAllTimersOn,
    State.cancelAllSubscriptionsOn, State.cancelAllSignalSubscriptionsOn, State.cancelAllConditionalSubscriptionsOn,
    State.cancelCreatedUserTasksOn, State.tame_timerCancels, State.tame_messageCancels, State.tame_signalCancels,
    State.tame_conditionalCancels, State.tame_userTaskCancels, tame_resolveIncidentsOn, hreset, and_true]
  exact ⟨⟨e.state.tame_discardCallee eik, e.state.tame_cancelActiveJob eik instanceKey⟩,
    tame_completion instanceKey eik _⟩

theorem tame_scopeTeardownEvents (instanceKey scope : Key) : Tame F e.state i (e.scopeTeardownEvents instanceKey scope) := by
  unfold scopeTeardownEvents
  refine Tame.append_iff.mpr ⟨.flatMap (e.tame_descendantTeardownEvents instanceKey), ?_⟩
  split
  · exact .nil
  · dsimp only
    split <;> exact .quiet rfl

theorem tame_boundaryRootTeardownEvents (instanceKey root : Key) :
    Tame F e.state i (e.boundaryRootTeardownEvents instanceKey root) := by
  simp only [boundaryRootTeardownEvents, Tame.append_iff, State.tame_bodyRecordEvents, tame_resolveIncidentsOn, and_true]
  exact e.state.tame_cancelActiveJob root instanceKey

theorem tame_propagatedUpdates (instanceKey scope : Key) (vars : Vars) (isLocal : Bool) :
    Tame F e.state i (e.propagatedUpdates instanceKey scope vars isLocal) := by
  refine .map fun entry => ?_
  obtain ⟨dest, written⟩ := entry
  dsimp only
  split
  · exact .plain rfl rfl rfl rfl rfl
  · next hdest =>
    refine ⟨rfl, nofun, nofun, trivial, fun k x h => ?_⟩
    cases h
    exact .inr (.inl (not_or.mp hdest))

theorem tame_outputWrites (instanceKey scope : Key) (updates : Vars) :
    Tame F e.state i (e.outputWrites instanceKey scope updates) := by
  unfold outputWrites
  split
  · exact .nil
  · exact e.tame_propagatedUpdates instanceKey scope updates false

/-! ## Incidents, listener jobs and boundary events -/

variable {instanceKey : Key}

theorem moves_park {eik : Key} {elementId : ElementId} {kind : IncidentKind} {redrive : Option IoMappingRedrive}
    {reason : String} :
    (e.park instanceKey eik elementId kind redrive reason).All F (Outcome.Moves F e.state instanceKey) := by
  intro key hkey
  exact .parks (.one (.creating rfl rfl rfl hkey rfl))

theorem moves_parkIoMapping {eik : Key} {elementId : ElementId} {failure : IoMappingFailure}
    {redrive : IoMappingRedrive} :
    (e.parkIoMapping instanceKey eik elementId failure redrive).All F (Outcome.Moves F e.state instanceKey) :=
  e.moves_park

variable [Feel]

theorem tame_listenerJob {eik : Key} {elementId : ElementId} {scope : Key} {vars : Vars}
    {eventType : ListenerEventType} {index : Nat} {listener : ExecutionListener} :
    (e.listenerJob instanceKey eik elementId scope vars eventType index listener).All F (·.Tame F e.state instanceKey) := by
  intro key hkey
  exact .creating rfl rfl rfl hkey rfl

theorem tame_beginEndListenerChain {eik : Key} {elementId : ElementId} {scope : Key} {vars : Vars} :
    (e.beginEndListenerChain instanceKey eik elementId scope vars).All F fun job =>
      ∀ event, job = some event → event.Tame F e.state instanceKey := by
  unfold beginEndListenerChain
  split
  · simp
  · rw [StepM.all_bind]
    refine StepM.All.mono ?_ e.tame_listenerJob
    intro event hevent
    simpa using hevent

theorem tame_startTaskListenerChain {userTaskKey eik : Key} {elementId : ElementId}
    {eventType : TaskListenerEventType} {pending : PendingUserTaskTransition} {first : TaskListener} :
    (e.startTaskListenerChain userTaskKey instanceKey eik elementId eventType pending first).All F
      (Tame F e.state instanceKey) := by
  intro key hkey
  exact Tame.cons_iff.mpr ⟨.plain rfl rfl rfl rfl rfl, .one (.creating rfl rfl rfl hkey rfl)⟩

omit [Feel] in
/-- A job, timer or subscription for each element of a list. -/
theorem tame_mapM {α : Type} (s : State) (instanceKey : Key) {xs : List α} {f : α → StepM Event}
    (h : ∀ a, (f a).All F (·.Tame F s instanceKey)) : (xs.mapM f).All F (Tame F s instanceKey) :=
  StepM.all_mapM fun a _ => h a

theorem tame_armBoundaryEvents {eik scope : Key} {elementId : ElementId} :
    (e.armBoundaryEvents instanceKey eik scope elementId).All F (Tame F e.state instanceKey) := by
  simp only [armBoundaryEvents, StepM.all_bind, StepM.all_pure]
  refine (tame_mapM e.state instanceKey ?_).mono fun timers htimers =>
    (tame_mapM e.state instanceKey ?_).mono fun messages hmessages =>
    (tame_mapM e.state instanceKey ?_).mono fun signals hsignals =>
    (tame_mapM e.state instanceKey ?_).mono fun conditionals hconditionals => ?_
  · exact fun boundary key hkey => .creating rfl rfl rfl hkey rfl
  · intro boundary key hkey
    show (e.openSubscription ..).Tame F e.state instanceKey
    unfold openSubscription
    split <;> exact .creating rfl rfl rfl hkey rfl
  · exact fun boundary key hkey => .creating rfl rfl rfl hkey rfl
  · exact fun boundary key hkey => .creating rfl rfl rfl hkey rfl
  · simp [htimers, hmessages, hsignals, hconditionals]

/-! ## Gateways -/

theorem moves_completeExclusiveGateway {eik : Key} {elementId : ElementId} :
    (e.completeExclusiveGateway instanceKey eik elementId).All F (Outcome.Moves F e.state instanceKey) := by
  unfold completeExclusiveGateway
  split
  · exact e.moves_park
  · exact e.moves_park
  · rw [StepM.all_bind]
    refine e.tame_beginEndListenerChain.mono fun job hjob => ?_
    split
    · next event =>
      exact .parks (Tame.cons_iff.mpr ⟨.plain rfl rfl rfl rfl rfl, .one (hjob event rfl)⟩)
    · exact .takesFlows _ (.quiet rfl)

theorem moves_finalizeExclusiveGateway {eik : Key} {elementId : ElementId} {scope : Key} :
    (e.finalizeExclusiveGateway instanceKey eik elementId scope).All F (Outcome.Moves F e.state instanceKey) := by
  unfold finalizeExclusiveGateway
  split
  · exact e.moves_park
  · exact e.moves_park
  · exact .takesFlows [.elementCompleted instanceKey eik elementId] (.quiet rfl)

theorem moves_routeInclusiveGateway {eik : Key} {elementId : ElementId} {scope : Key} :
    (e.routeInclusiveGateway instanceKey eik elementId scope).All F (Outcome.Moves F e.state instanceKey) := by
  unfold routeInclusiveGateway
  split
  · exact e.moves_park
  · exact e.moves_park
  · rw [StepM.all_bind]
    refine e.tame_beginEndListenerChain.mono fun job hjob => ?_
    split
    · next event =>
      exact .parks (Tame.cons_iff.mpr ⟨.plain rfl rfl rfl rfl rfl, .one (hjob event rfl)⟩)
    · exact .takesFlows _ (.quiet rfl)

/-! ## Call activities -/

theorem moves_spawnCallActivityInstance {callEik : Key} {elementId : ElementId} {calledProcessId : String}
    {evalView childSeed : Vars} {adhocInputProjection : Option Vars} :
    (e.spawnCallActivityInstance instanceKey callEik elementId calledProcessId evalView childSeed
      adhocInputProjection).All F (Outcome.Moves F e.state instanceKey) := by
  unfold spawnCallActivityInstance
  dsimp only
  split
  · exact e.moves_park
  split
  · exact e.moves_park
  split
  · exact e.moves_park
  · intro key hkey
    exact .spawns ⟨rfl, by simpa [Event.created] using hkey⟩ (by simp [Step.via])

theorem moves_spawnCallActivityChild {callEik : Key} {elementId : ElementId} {calledProcessId : String}
    {propagateAllParent : Bool} {elementVars : Vars} :
    (e.spawnCallActivityChild instanceKey callEik elementId calledProcessId propagateAllParent elementVars).All F
      (Outcome.Moves F e.state instanceKey) := by
  unfold spawnCallActivityChild
  split
  · exact e.moves_parkIoMapping
  · exact (e.moves_spawnCallActivityInstance :)

/-! ## Activation -/

omit [Feel] e in
theorem via_declarativeSteps {containerKey : Key} {ids : List ElementId} :
    ∀ step ∈ declarativeSteps instanceKey containerKey ids, Step.via step = none := by
  unfold declarativeSteps
  split <;> simp [Step.via]

omit [Feel] e in
theorem via_miFanOut {elementId : ElementId} {bodyKey : Key} {sequential : Bool} {total : Nat} :
    ∀ step ∈ miFanOut instanceKey elementId bodyKey sequential total, Step.via step = none := by
  unfold miFanOut
  split
  · simp [Step.via]
  split <;> simp [Step.via]

theorem tame_jobFor {eik : Key} {elementId : ElementId} {vars : Vars} {jobType : String}
    {priority retries : Option String} :
    (e.jobFor instanceKey eik elementId vars jobType priority retries).All F (·.Tame F e.state instanceKey) := by
  intro key hkey
  exact .creating rfl rfl rfl hkey rfl

omit [Feel] in
theorem tame_adHocActivated {s : State} {containerKey : Key} {elementId : ElementId} {d : AdHocSubProcessDef} :
    (adHocActivatedEvent instanceKey containerKey elementId d).Tame F s instanceKey :=
  .opening rfl rfl rfl rfl rfl

omit [Feel] in
theorem tame_catalog {s : State} {containerKey : Key} {d : AdHocSubProcessDef}
    (h : F containerKey ∨ (s.elementIdOfInstance instanceKey containerKey).isSome = true) :
    (catalogEvent instanceKey containerKey d).Tame F s instanceKey :=
  .writing h

theorem tame_userTaskChain {userTaskKey eik : Key} {elementId : ElementId} {deferredAssignee : Option String} :
    (e.userTaskChain userTaskKey instanceKey eik elementId deferredAssignee).All F (Tame F e.state instanceKey) := by
  unfold userTaskChain
  dsimp only
  split
  · exact e.tame_startTaskListenerChain
  · exact e.tame_startTaskListenerChain
  · exact .nil

theorem tame_activateUserTask {eik : Key} {elementId : ElementId} {vars : Vars} {props : UserTaskProps} :
    (e.activateUserTask instanceKey eik elementId vars props).All F (Tame F e.state instanceKey) := by
  simp only [activateUserTask, StepM.all_bind, StepM.all_mintKey, StepM.all_pure, Tame.cons_iff]
  intro key hkey
  refine e.tame_userTaskChain.mono fun chain hchain => ⟨.creating rfl rfl rfl hkey rfl, hchain⟩

theorem moves_runActivationBody {elementId : ElementId} {eik scope : Key} {vars : Vars}
    (heik : F eik ∨ (e.state.elementIdOfInstance instanceKey eik).isSome = true) :
    (e.runActivationBody instanceKey elementId eik scope vars).All F (Outcome.Moves F e.state instanceKey) := by
  unfold runActivationBody
  dsimp only
  split
  · exact .parks .nil
  · -- a service task, or an ad-hoc container
    split
    · next d _ =>
      split
      · rw [StepM.all_bind]
        exact e.tame_armBoundaryEvents.mono fun armed harmed =>
          .stays (Tame.cons_iff.mpr ⟨tame_adHocActivated, harmed⟩) via_declarativeSteps
      · simp only [StepM.all_bind]
        refine e.tame_jobFor.mono fun job hjob => e.tame_armBoundaryEvents.mono fun armed harmed => ?_
        exact .parks (by simp [hjob, harmed, tame_adHocActivated, tame_catalog heik])
    · simp only [StepM.all_bind]
      refine e.tame_jobFor.mono fun job hjob => e.tame_armBoundaryEvents.mono fun armed harmed => ?_
      exact .parks (by simp [hjob, harmed])
  · simp only [StepM.all_bind]
    refine e.tame_activateUserTask.mono fun task htask => e.tame_armBoundaryEvents.mono fun armed harmed => ?_
    exact .parks (by simp [htask, harmed])
  · intro key hkey
    exact .parks (.one (.creating rfl rfl rfl hkey rfl))
  · intro key hkey
    dsimp only
    split
    · exact .parks (.one (.creating rfl rfl rfl hkey rfl))
    · refine .parks (.one ?_)
      unfold openSubscription
      split <;> exact .creating rfl rfl rfl hkey rfl
  · intro key hkey
    exact .parks (.one (.creating rfl rfl rfl hkey rfl))
  · split
    · exact .stays .nil (by simp [Step.via])
    · intro key hkey
      exact .parks (.one (.creating rfl rfl rfl hkey rfl))
  · rw [StepM.all_bind]
    exact e.tame_armBoundaryEvents.mono fun armed harmed => .stays harmed (by simp [Step.via])
  · simp only [StepM.all_bind]
    refine e.tame_armBoundaryEvents.mono fun armed harmed => ?_
    exact e.moves_spawnCallActivityChild.mono fun spawned hspawned => .prepend harmed hspawned
  · split
    · exact .stays .nil (by simp [Step.via])
    · exact .stays (.one (.opening rfl rfl rfl rfl rfl)) (by simp [Step.via])
  · exact .stays .nil (by simp [Step.via])

omit [Feel] in
theorem tame_outputSeed {elementId : ElementId} {eik : Key}
    (heik : F eik ∨ (e.state.elementIdOfInstance instanceKey eik).isSome = true) :
    Tame F e.state instanceKey (match (e.state.adhocDefOf instanceKey elementId).bind (·.outputCollection) with
      | some name => [Event.scopedVariablesUpdated instanceKey eik ((∅ : Vars).insert name (.list []))]
      | none => []) := by
  split
  · exact .one (.writing heik)
  · exact .nil

omit [Feel] in
theorem tame_inputWrites {elementId : ElementId} {eik scope : Key} {inputUpdates : Vars}
    (heik : F eik ∨ (e.state.elementIdOfInstance instanceKey eik).isSome = true) :
    Tame F e.state instanceKey (if inputUpdates.isEmpty then []
      else
        (if e.ownsScope instanceKey elementId then [] else [Event.variableScopeCreated instanceKey eik scope]) ++
          [Event.scopedVariablesUpdated instanceKey eik inputUpdates]) := by
  split
  · exact .nil
  · refine Tame.append_iff.mpr ⟨?_, .one (.writing heik)⟩
    split <;> exact .quiet rfl

theorem moves_activateBody {elementId : ElementId} {eik scope : Key}
    (heik : F eik ∨ (e.state.elementIdOfInstance instanceKey eik).isSome = true) :
    (e.activateBody instanceKey elementId eik scope).All F (Outcome.Moves F e.state instanceKey) := by
  unfold activateBody
  dsimp only
  split
  · exact e.moves_parkIoMapping
  · split
    · rw [StepM.all_bind]
      refine e.tame_listenerJob.mono fun job hjob => .parks ?_
      exact Tame.append_iff.mpr ⟨Tame.append_iff.mpr ⟨e.tame_outputSeed heik, e.tame_inputWrites heik⟩, .one hjob⟩
    · rw [StepM.all_bind]
      refine (e.moves_runActivationBody heik).mono fun out hout => ?_
      exact .prepend (Tame.append_iff.mpr ⟨e.tame_outputSeed heik, e.tame_inputWrites heik⟩) hout

theorem moves_runMiBodyActivation {elementId : ElementId} {bodyKey scope : Key} {mi : MultiInstance}
    (hbody : F bodyKey ∨ (e.state.elementIdOfInstance instanceKey bodyKey).isSome = true) :
    (e.runMiBodyActivation instanceKey elementId bodyKey scope mi).All F (Outcome.Moves F e.state instanceKey) := by
  unfold runMiBodyActivation
  dsimp only
  split
  · exact e.moves_parkIoMapping
  · next inputUpdates _ =>
    have hwrites : Tame F e.state instanceKey (if inputUpdates.isEmpty then []
        else [Event.scopedVariablesUpdated instanceKey bodyKey inputUpdates]) := by
      split
      · exact .nil
      · exact .one (.writing hbody)
    rw [StepM.all_bind]
    refine e.tame_armBoundaryEvents.mono fun armed harmed => ?_
    split
    · rw [StepM.all_bind]
      refine e.tame_listenerJob.mono fun job hjob => .parks ?_
      simp only [Tame.append_iff, Tame.cons_iff, Tame.nil, hjob, harmed, hwrites, and_true, true_and]
      exact .opening rfl rfl rfl rfl rfl
    · refine .stays ?_ via_miFanOut
      simp only [Tame.append_iff, Tame.cons_iff, harmed, hwrites, and_true, true_and]
      exact .opening rfl rfl rfl rfl rfl

omit [Feel] in
/-- The two events that put a token of an element on the instance, and more of its own. -/
theorem tame_activation {s : State} {eik scope : Key} {elementId : ElementId} {events : List Event} (heik : F eik)
    (h : Tame F s instanceKey events) :
    Tame F s instanceKey (.elementActivating instanceKey eik elementId ::
      .elementActivated instanceKey eik elementId scope :: events) :=
  Tame.cons_iff.mpr ⟨.opening rfl rfl rfl rfl rfl, Tame.cons_iff.mpr ⟨.creating rfl rfl rfl heik rfl, h⟩⟩

theorem moves_activateMultiInstanceBody {elementId : ElementId} {scope : Key} {mi : MultiInstance} :
    (e.activateMultiInstanceBody instanceKey elementId scope mi).All F (Outcome.Moves F e.state instanceKey) := by
  simp only [activateMultiInstanceBody, StepM.all_bind, StepM.all_mintKey]
  intro key hkey
  exact (e.moves_runMiBodyActivation (.inl hkey)).mono fun out hout =>
    .prepend (tame_activation hkey (.quiet rfl)) hout

theorem moves_runMiChildBehaviour {elementId : ElementId} {childKey : Key} {vars : Vars}
    (hchild : F childKey ∨ (e.state.elementIdOfInstance instanceKey childKey).isSome = true) :
    (e.runMiChildBehaviour instanceKey elementId childKey vars).All F (Outcome.Moves F e.state instanceKey) := by
  unfold runMiChildBehaviour
  split
  · split
    · split
      · exact .stays (.one tame_adHocActivated) via_declarativeSteps
      · rw [StepM.all_bind]
        exact e.tame_jobFor.mono fun job hjob => .parks (by simp [hjob, tame_adHocActivated, tame_catalog hchild])
    · rw [StepM.all_bind]
      exact e.tame_jobFor.mono fun job hjob => .parks (.one hjob)
  · exact .stays .nil (by simp [Step.via])
  · exact e.moves_spawnCallActivityChild
  · exact .stays .nil (by simp [Step.via])

theorem moves_activateMiChild {elementId : ElementId} {bodyKey : Key} {index : Nat} :
    (e.activateMiChild instanceKey elementId bodyKey index).All F (Outcome.Moves F e.state instanceKey) := by
  unfold activateMiChild
  split
  · exact .parks .nil
  · rw [StepM.all_bind, StepM.all_mintKey]
    intro key hkey
    dsimp only
    split
    · rw [StepM.all_bind]
      exact e.moves_parkIoMapping.mono fun out hout =>
        .prepend (tame_activation hkey (.one (.opening rfl rfl rfl rfl rfl))) hout
    · rw [StepM.all_bind]
      exact (e.moves_runMiChildBehaviour (.inl hkey)).mono fun out hout =>
        .prepend (tame_activation hkey (.one (.opening rfl rfl rfl rfl rfl))) hout

theorem moves_retryMiChildActivation {elementId : ElementId} {bodyKey childKey : Key} {index : Nat}
    (hchild : F childKey ∨ (e.state.elementIdOfInstance instanceKey childKey).isSome = true) :
    (e.retryMiChildActivation instanceKey elementId bodyKey childKey index).All F
      (Outcome.Moves F e.state instanceKey) := by
  unfold retryMiChildActivation
  dsimp only
  split
  · exact e.moves_parkIoMapping
  · rw [StepM.all_bind]
    refine (e.moves_runMiChildBehaviour hchild).mono fun out hout => .prepend ?_ hout
    split
    · exact .nil
    · exact .one (.writing hchild)

theorem moves_activateNestedContainer {childKey : Key} {elementId : ElementId} {vars : Vars} {d : AdHocSubProcessDef}
    {toolKind : Option AdHocToolKind} (hchild : F childKey) :
    (e.activateNestedContainer instanceKey childKey elementId vars d toolKind).All F
      (Outcome.Moves F e.state instanceKey) := by
  have hseed : Tame F e.state instanceKey (match d.outputCollection with
      | some name => [Event.scopedVariablesUpdated instanceKey childKey ((∅ : Vars).insert name (.list []))]
      | none => []) := by
    split
    · exact .one (.writing (.inl hchild))
    · exact .nil
  unfold activateNestedContainer
  dsimp only
  split
  · exact .stays (Tame.cons_iff.mpr ⟨tame_adHocActivated, hseed⟩) via_declarativeSteps
  · rw [StepM.all_bind]
    refine e.tame_jobFor.mono fun job hjob => .parks ?_
    exact Tame.append_iff.mpr ⟨Tame.cons_iff.mpr ⟨tame_adHocActivated, hseed⟩, by simp [hjob, tame_catalog (.inl hchild)]⟩

theorem moves_runTool {childKey innerKey : Key} {elementId : ElementId} {vars applied : Vars}
    {toolKind : Option AdHocToolKind} :
    (e.runTool instanceKey childKey innerKey elementId vars applied toolKind).All F
      (Outcome.Moves F e.state instanceKey) := by
  unfold runTool
  split
  · rw [StepM.all_bind]
    exact e.tame_jobFor.mono fun job hjob => .parks (.one hjob)
  · intro key hkey
    exact .parks (.one (.creating rfl rfl rfl hkey rfl))
  · rw [StepM.all_bind]
    exact e.tame_armBoundaryEvents.mono fun armed harmed => .stays harmed (by simp [Step.via])
  · exact (e.moves_spawnCallActivityInstance :)
  · exact .stays .nil (by simp [Step.via])

theorem moves_activateAdhocTool {containerKey : Key} {elementId : ElementId} {seedVars : Vars} :
    (e.activateAdhocTool instanceKey containerKey elementId seedVars).All F (Outcome.Moves F e.state instanceKey) := by
  unfold activateAdhocTool
  rw [StepM.all_bind, StepM.all_mintKey]
  intro childKey hchild
  dsimp only
  split
  · exact e.moves_parkIoMapping
  · rw [StepM.all_bind, StepM.all_mintKey]
    intro innerKey hinner
    have hactivation : ∀ innerId vars, Tame F e.state instanceKey
        [.elementActivating instanceKey innerKey innerId, .elementActivated instanceKey innerKey innerId containerKey,
          .elementActivating instanceKey childKey elementId, .elementActivated instanceKey childKey elementId innerKey,
          .adHocToolActivated instanceKey containerKey childKey vars] :=
      fun innerId vars => tame_activation hinner (tame_activation hchild (.one (.opening rfl rfl rfl rfl rfl)))
    split
    · rw [StepM.all_bind]
      exact (e.moves_activateNestedContainer hchild).mono fun out hout => .prepend (hactivation _ _) hout
    · rw [StepM.all_bind]
      exact e.moves_runTool.mono fun out hout => .prepend (hactivation _ _) hout

/-! ## Loops -/

theorem moves_completeMiChild {childEik : Key} {elementId : ElementId} {bodyKey : Key} {overlay : Option Vars} :
    (e.completeMiChild instanceKey childEik elementId bodyKey overlay).All F (Outcome.Moves F e.state instanceKey) := by
  unfold completeMiChild
  split
  · exact .parks (.quiet rfl)
  · split
    · exact e.moves_parkIoMapping
    · refine .stays (.quiet rfl) ?_
      split
      · simp [Step.via]
      split
      · split <;> simp [Step.via]
      split <;> simp [Step.via]

omit [Feel] in
theorem tame_cancelMiChildEvents {childEik : Key} : Tame F e.state i (e.cancelMiChildEvents instanceKey childEik) := by
  simp only [cancelMiChildEvents, Tame.append_iff, State.cancelAllTimersOn, State.cancelAllSubscriptionsOn,
    State.tame_timerCancels, State.tame_messageCancels, tame_resolveIncidentsOn, tame_completion, and_true]
  refine ⟨⟨e.state.tame_discardCallee childEik, e.state.tame_cancelActiveJob childEik instanceKey⟩, ?_⟩
  cases e.state.userTasks.vals.find? fun t =>
    t.instanceKey == instanceKey && t.elementInstanceKey == childEik && t.state == .created with
  | none => exact .quiet rfl
  | some t => exact .quiet rfl

omit [Feel] in
theorem tame_cancelAdhocFrom {fuel : Nat} {containerKey child : Key} :
    Tame F e.state i (e.cancelAdhocFrom instanceKey fuel containerKey child) := by
  induction fuel generalizing containerKey child with
  | zero => exact .nil
  | succ fuel ih =>
    unfold cancelAdhocFrom
    dsimp only
    refine Tame.append_iff.mpr ⟨Tame.append_iff.mpr ⟨?_, e.state.tame_discardCallee child⟩, ?_⟩
    · split
      · simp only [Tame.append_iff, State.cancelAllTimersOn, State.cancelAllSubscriptionsOn, State.tame_timerCancels,
          State.tame_messageCancels, tame_resolveIncidentsOn, tame_completion, and_true]
        exact ⟨⟨.flatMap fun _ => ih, e.state.tame_cancelActiveJob child instanceKey⟩, .quiet rfl⟩
      · exact Tame.append_iff.mpr ⟨.flatMap fun _ => e.tame_cancelMiChildEvents, e.tame_cancelMiChildEvents⟩
    · split
      · split
        · exact tame_completion instanceKey _ _
        · exact .nil
      · exact .nil

omit [Feel] in
theorem tame_cancelAdhocActiveChild {containerKey child : Key} :
    Tame F e.state i (e.cancelAdhocActiveChild instanceKey containerKey child) :=
  e.tame_cancelAdhocFrom

omit [Feel] in
theorem tame_cancelMiChildren {bodyKey : Key} {active : List Key} :
    (e.cancelMiChildren instanceKey bodyKey active).All F (Tame F e.state instanceKey) := by
  have hchild : ∀ child, (do
      if e.state.isAdhocContainer instanceKey child then return e.cancelAdhocActiveChild instanceKey bodyKey child
      StepM.markTornDown child
      return e.scopeTeardownEvents instanceKey child ++ e.cancelMiChildEvents instanceKey child : StepM (List Event)).All F
        (Tame F e.state instanceKey) := by
    intro child
    split
    · exact e.tame_cancelAdhocActiveChild
    · exact Tame.append_iff.mpr ⟨e.tame_scopeTeardownEvents instanceKey child, e.tame_cancelMiChildEvents⟩
  unfold cancelMiChildren
  rw [StepM.all_bind]
  exact (StepM.all_mapM fun child _ => hchild child).mono fun events hevents => .flatten hevents

theorem moves_completeMultiInstanceBody {bodyKey : Key} :
    (e.completeMultiInstanceBody instanceKey bodyKey).All F (Outcome.Moves F e.state instanceKey) := by
  unfold completeMultiInstanceBody
  split
  · exact .parks .nil
  · dsimp only
    split
    · exact e.moves_parkIoMapping
    · rw [StepM.all_bind]
      refine e.tame_cancelMiChildren.mono fun cancels hcancels => ?_
      rw [StepM.all_bind]
      refine e.tame_beginEndListenerChain.mono fun job hjob => ?_
      split
      · next event =>
        refine .parks ?_
        simp only [Tame.append_iff, hcancels, State.tame_cancelBoundariesOn, tame_propagatedUpdates, tame_outputWrites,
          true_and, and_true]
        exact ⟨.quiet rfl, .one (hjob event rfl)⟩
      · refine .takesAllFlows _ ?_
        simp only [Tame.append_iff, hcancels, State.tame_cancelBoundariesOn, tame_propagatedUpdates, tame_outputWrites,
          true_and, and_true]
        exact ⟨.quiet rfl, .quiet rfl⟩

omit [Feel] in
theorem moves_finalizeMultiInstanceBody {bodyKey : Key} :
    Outcome.Moves F e.state instanceKey (e.finalizeMultiInstanceBody instanceKey bodyKey) := by
  unfold finalizeMultiInstanceBody
  split
  · exact .parks .nil
  · exact .takesAllFlows _ (.quiet rfl)

/-! ## Ad-hoc containers -/

theorem tame_adhocAgentJobEvents {containerKey : Key} {containerElementId : ElementId} :
    (e.adhocAgentJobEvents instanceKey containerKey containerElementId).All F (Tame F e.state instanceKey) := by
  unfold adhocAgentJobEvents
  split
  · exact .nil
  · rw [StepM.all_bind]
    exact e.tame_jobFor.mono fun job hjob => .one hjob

omit [Feel] in
/-- A tool that is done, and what it writes to its container. -/
theorem tame_toolDone {childEik : Key} {toolElementId : ElementId} {containerKey innerKey : Key}
    {output : Option Value} {updates : Vars} :
    Tame F e.state i (e.toolCompletion instanceKey childEik toolElementId containerKey innerKey output ++
      e.outputWrites instanceKey containerKey updates) := by
  refine Tame.append_iff.mpr ⟨?_, e.tame_outputWrites instanceKey containerKey updates⟩
  unfold toolCompletion adhocInnerInstanceTeardown
  split <;> exact .quiet rfl

/-- The completion condition of a container, met for the first time. -/
theorem tame_fulfilled {containerKey : Key} {containerElementId : ElementId} {updates : Vars} {others : Nat}
    {fulfilled : Option Event}
    (h : e.adhocCompletionAfterTool instanceKey containerKey containerElementId updates others = .defer fulfilled) :
    Tame F e.state i fulfilled.toList := by
  unfold adhocCompletionAfterTool at h
  split at h
  · cases h
  · dsimp only at h
    split at h
    · cases h
    split at h
    · cases h
    split at h
    · cases h
    cases h
    split <;> exact .quiet rfl

theorem moves_continueAdhocInnerFlow {childEik : Key} {toolElementId : ElementId} {containerKey innerKey : Key}
    {targets : List ElementId} {precomputed : Option Vars} :
    (e.continueAdhocInnerFlow instanceKey childEik toolElementId containerKey innerKey targets precomputed).All F
      (Outcome.Moves F e.state instanceKey) := by
  unfold continueAdhocInnerFlow
  split
  · exact .parks .nil
  · split
    · exact e.moves_parkIoMapping
    · dsimp only
      split
      · exact .stays e.tame_toolDone (by simp [Step.via])
      · next fulfilled hfulfilled =>
        exact .parks (Tame.append_iff.mpr ⟨e.tame_toolDone, e.tame_fulfilled hfulfilled⟩)
      · exact .stays (Tame.append_iff.mpr ⟨e.tame_toolDone, .map fun _ => .plain rfl rfl rfl rfl rfl⟩) (by simp [Step.via])

theorem moves_adhocDrained {containerKey : Key} {containerElementId : ElementId} :
    (e.adhocDrained instanceKey containerKey containerElementId).All F (Outcome.Moves F e.state instanceKey) := by
  unfold adhocDrained
  split
  · exact .stays .nil (by simp [Step.via])
  · rw [StepM.all_bind]
    exact e.tame_adhocAgentJobEvents.mono fun job hjob => .parks (Tame.cons_iff.mpr ⟨.plain rfl rfl rfl rfl rfl, hjob⟩)

theorem moves_completeAdhocLeaf {childEik : Key} {toolElementId : ElementId} {containerKey innerKey : Key}
    {a : AdHocState} {precomputed : Option Vars} :
    (e.completeAdhocLeaf instanceKey childEik toolElementId containerKey innerKey a precomputed).All F
      (Outcome.Moves F e.state instanceKey) := by
  unfold completeAdhocLeaf
  dsimp only
  split
  · exact e.moves_park
  · split
    · exact e.moves_parkIoMapping
    · split
      · exact .stays e.tame_toolDone (by simp [Step.via])
      · next fulfilled hfulfilled =>
        exact .parks (Tame.append_iff.mpr ⟨e.tame_toolDone, e.tame_fulfilled hfulfilled⟩)
      · split
        · rw [StepM.all_bind]
          exact e.moves_adhocDrained.mono fun out hout => .prepend e.tame_toolDone hout
        · exact .parks e.tame_toolDone

theorem moves_completeAdhocTool {childEik : Key} {toolElementId : ElementId} {containerKey innerKey : Key}
    {precomputed : Option Vars} :
    (e.completeAdhocTool instanceKey childEik toolElementId containerKey innerKey precomputed).All F
      (Outcome.Moves F e.state instanceKey) := by
  unfold completeAdhocTool
  split
  · exact .parks .nil
  · split
    · exact e.moves_completeAdhocLeaf
    · exact e.moves_continueAdhocInnerFlow

theorem moves_completeAdhocContainer {containerKey : Key} {cancel : Bool} :
    (e.completeAdhocContainer instanceKey containerKey cancel).All F (Outcome.Moves F e.state instanceKey) := by
  unfold completeAdhocContainer
  split
  · exact .parks .nil
  · next a _ =>
    have hcancels : Tame F e.state instanceKey (if cancel then
        a.active.toList.flatMap fun child => e.cancelAdhocActiveChild instanceKey containerKey child else []) := by
      split
      · exact .flatMap fun _ => e.tame_cancelAdhocActiveChild
      · exact .nil
    have hcompleted : Tame F e.state instanceKey [.adHocCompleted instanceKey containerKey cancel] := .quiet rfl
    dsimp only
    generalize (if cancel then
      a.active.toList.flatMap fun child => e.cancelAdhocActiveChild instanceKey containerKey child else []) = cancels
      at hcancels ⊢
    generalize (if e.state.scopeOf instanceKey containerKey ≠ 0 then
      e.state.scopeOf instanceKey (e.state.scopeOf instanceKey containerKey) else 0) = parent
    split
    · rw [StepM.all_bind]
      exact e.moves_completeMiChild.mono fun out hout => .prepend hcancels (.prepend hcompleted hout)
    split
    · rw [StepM.all_bind]
      refine e.moves_completeAdhocTool.mono fun out hout => .append (.prepend hcancels hout) ?_
      split
      · exact hcompleted
      · exact .nil
    · -- the container leaves by its own flows, unless end listeners hold it
      split
      · refine .takesAllFlows _ ?_
        simp only [Tame.append_iff, hcancels, tame_propagatedUpdates, true_and]
        exact ⟨.quiet rfl, .quiet rfl⟩
      · rw [StepM.all_bind]
        refine e.tame_beginEndListenerChain.mono fun job hjob => ?_
        split
        · next event =>
          refine .parks ?_
          simp only [Tame.append_iff, hcancels, tame_propagatedUpdates, State.tame_cancelBoundariesOn, true_and,
            and_true]
          exact ⟨.quiet rfl, .one (hjob event rfl)⟩
        · refine .takesAllFlows _ ?_
          simp only [Tame.append_iff, hcancels, tame_propagatedUpdates, true_and]
          exact ⟨.quiet rfl, .quiet rfl⟩

omit [Feel] in
theorem moves_finalizeAdhocContainer {containerKey : Key} {cancelled : Bool} :
    Outcome.Moves F e.state instanceKey (e.finalizeAdhocContainer instanceKey containerKey cancelled) := by
  unfold finalizeAdhocContainer
  split
  · exact .parks .nil
  · exact .takesAllFlows _ (.quiet rfl)

/-! ## Call activities -/

theorem moves_retryCallActivitySpawn {eik : Key} {elementId : ElementId} {preservedSeed : Option Vars} :
    (e.retryCallActivitySpawn instanceKey eik elementId preservedSeed).All F (Outcome.Moves F e.state instanceKey) := by
  unfold retryCallActivitySpawn
  split
  · unfold respawnAdhocCallActivityTool
    split
    · exact .parks .nil
    · split
      · dsimp only
        split
        · exact e.moves_parkIoMapping
        · exact (e.moves_spawnCallActivityInstance :)
      · exact .parks .nil
  · split
    · exact e.moves_spawnCallActivityChild
    · exact .parks .nil

theorem moves_completeAdhocCallActivityTool {childEik : Key} {elementId : ElementId} {containerKey innerKey : Key}
    {childVariables : Vars} (hchild : (e.state.elementIdOfInstance instanceKey childEik).isSome = true) :
    (e.completeAdhocCallActivityTool instanceKey childEik elementId containerKey innerKey childVariables).All F
      (Outcome.Moves F e.state instanceKey) := by
  unfold completeAdhocCallActivityTool
  split
  · exact .parks .nil
  · dsimp only
    split
    · exact e.moves_parkIoMapping
    · refine .stays (Tame.append_iff.mpr ⟨?_, ?_⟩) (by simp [Step.via])
      · split
        · exact .nil
        · exact .one (.writing (.inr hchild))
      · split
        · split
          · exact e.tame_outputWrites _ _ _
          · exact .nil
        · exact e.tame_outputWrites _ _ _

theorem moves_completeCallActivity {eik : Key} {elementId : ElementId} {childVariables : Vars} :
    (e.completeCallActivity instanceKey eik elementId childVariables).All F (Outcome.Moves F e.state instanceKey) := by
  unfold completeCallActivity
  split
  · exact .parks .nil
  · next hactive =>
    have heik : (e.state.elementIdOfInstance instanceKey eik).isSome = true := by
      simpa [Option.isSome_iff_ne_none] using hactive
    split
    · exact e.moves_completeAdhocCallActivityTool heik
    · dsimp only
      split
      · exact e.moves_parkIoMapping
      · split
        · exact e.moves_completeMiChild
        · refine .takesAllFlows _ ?_
          simp [tame_completion, State.tame_cancelBoundariesOn, tame_outputWrites]

/-! ## Completion -/

omit [Feel] in
theorem tame_withdrawEventGatewaySiblings {winnerEik : Key} {winner : ElementId} {scope : Key} :
    Tame F e.state i (e.withdrawEventGatewaySiblings instanceKey winnerEik winner scope) := by
  unfold withdrawEventGatewaySiblings
  dsimp only
  split
  · refine .flatMap fun loser => ?_
    simp [State.cancelAllTimersOn, State.cancelAllSubscriptionsOn, State.cancelAllSignalSubscriptionsOn,
      State.cancelAllConditionalSubscriptionsOn, State.tame_timerCancels, State.tame_messageCancels,
      State.tame_signalCancels, State.tame_conditionalCancels, tame_completion]
  · exact .nil

omit [Feel] in
theorem moves_resumeCompensationThrow {handlerElementId : ElementId} {throwEik : Key} :
    Outcome.Moves F e.state instanceKey (e.resumeCompensationThrow instanceKey handlerElementId throwEik) := by
  unfold resumeCompensationThrow
  split
  · exact .parks .nil
  · refine .stays (.quiet rfl) ?_
    split <;> simp [Step.via]

omit [Feel] in
theorem tame_compensationSubscriptions {eik : Key} {elementId : ElementId} {scope : Key} :
    Tame F e.state instanceKey (e.compensationSubscriptions instanceKey eik elementId scope) :=
  .map fun _ => .opening rfl rfl rfl rfl rfl

omit [Feel] in
theorem moves_raiseEscalationFromThrow {throwEik : Key} {throwElementId : ElementId} {scope : Key}
    {escalationCode : String} {events : List Event} (hevents : Tame F e.state instanceKey events) :
    (e.raiseEscalationFromThrow instanceKey throwEik throwElementId scope escalationCode events).All F
      (Outcome.Moves F e.state instanceKey) := by
  unfold raiseEscalationFromThrow
  dsimp only
  split
  · exact .takesAllFlows _ hevents
  · exact .andSteps (.takesAllFlows events hevents) (by simp [Step.via])
  · refine .stays ?_ (by simp [Step.via])
    simp only [Tame.append_iff, hevents, tame_boundaryRootTeardownEvents, tame_completion,
      State.tame_cancelBoundariesOn, true_and, and_true]
    exact (e.tame_scopeTeardownEvents instanceKey _).filter

omit [Feel] in
theorem via_callActivityCompletionStep {childInstanceKey : Key} :
    ∀ step ∈ (e.state.callActivityCompletionStep childInstanceKey).toList, Step.via step = none := by
  intro step hstep
  simp only [State.callActivityCompletionStep, Option.bind_eq_bind, Option.mem_toList,
    Option.bind_eq_some_iff] at hstep
  obtain ⟨child, -, parent, -, callEik, -, i, -, elementId, -, hstep⟩ := hstep
  cases hstep
  rfl

omit [Feel] in
theorem moves_completeTerminateEnd {eik : Key} {elementId : ElementId} {scope : Key} :
    (e.completeTerminateEnd instanceKey eik elementId scope).All F (Outcome.Moves F e.state instanceKey) := by
  unfold completeTerminateEnd
  split
  · refine .stays ?_ e.via_callActivityCompletionStep
    simp only [Tame.append_iff, tame_completion, State.tame_discardInstanceTokenEvents,
      tame_resolveInstanceIncidents, true_and]
    exact .quiet rfl
  · exact .parks (e.tame_scopeTeardownEvents instanceKey scope)

omit [Feel] in
theorem moves_routeCompleted {eik : Key} {elementId : ElementId} {scope : Key} {events : List Event}
    (hevents : Tame F e.state instanceKey events) :
    (e.routeCompleted instanceKey eik elementId scope events).All F (Outcome.Moves F e.state instanceKey) := by
  unfold routeCompleted
  split
  · exact .stays hevents (by simp [Step.via])
  · exact e.moves_raiseEscalationFromThrow hevents
  · exact .takesAllFlows _ hevents

omit [Feel] in
theorem moves_finalizeCompletion {eik : Key} {elementId : ElementId} {scope : Key} :
    (e.finalizeCompletion instanceKey eik elementId scope).All F (Outcome.Moves F e.state instanceKey) := by
  have hcompleted : Tame F e.state instanceKey [.elementCompleted instanceKey eik elementId] := .quiet rfl
  unfold finalizeCompletion
  dsimp only
  split
  · exact .prepend hcompleted e.moves_resumeCompensationThrow
  · refine e.moves_routeCompleted (Tame.cons_iff.mpr ⟨.plain rfl rfl rfl rfl rfl, ?_⟩)
    split
    · exact .nil
    · exact .nil
    · exact e.tame_compensationSubscriptions

theorem moves_completePlain {eik : Key} {elementId : ElementId} {scope : Key} :
    (e.completePlain instanceKey eik elementId scope).All F (Outcome.Moves F e.state instanceKey) := by
  unfold completePlain
  split
  · exact e.moves_park
  · next result hresult =>
    have haudit : Tame F e.state instanceKey result.audit.toList := by
      unfold taskResult at hresult
      dsimp only at hresult
      split at hresult
      · split at hresult
        · cases hresult
          exact .nil
        · cases hresult
      · split at hresult
        · cases hresult
        · split at hresult
          · cases hresult
          · cases hresult
            exact .quiet rfl
      · cases hresult
        exact .nil
    have hmerged : ∀ outputUpdates, Tame F e.state instanceKey (result.audit.toList ++ e.state.cancelBoundariesOn eik ++
        e.withdrawEventGatewaySiblings instanceKey eik elementId scope ++
        (result.update.toList.map fun update => Event.variablesUpdated instanceKey update) ++
        e.outputWrites instanceKey scope outputUpdates) := by
      intro outputUpdates
      simp only [Tame.append_iff, haudit, State.tame_cancelBoundariesOn, tame_withdrawEventGatewaySiblings,
        tame_outputWrites, true_and, and_true]
      exact .map fun _ => .plain rfl rfl rfl rfl rfl
    dsimp only
    split
    · exact e.moves_parkIoMapping
    · split
      · rw [StepM.all_bind]
        refine e.tame_listenerJob.mono fun job hjob => .parks ?_
        exact Tame.append_iff.mpr ⟨Tame.cons_iff.mpr ⟨.plain rfl rfl rfl rfl rfl, hmerged _⟩, .one hjob⟩
      · have hevents : ∀ outputUpdates, Tame F e.state instanceKey (.elementCompleting instanceKey eik elementId ::
            .elementCompleted instanceKey eik elementId :: (result.audit.toList ++ e.state.cancelBoundariesOn eik ++
            e.withdrawEventGatewaySiblings instanceKey eik elementId scope ++
            (result.update.toList.map fun update => Event.variablesUpdated instanceKey update) ++
            e.outputWrites instanceKey scope outputUpdates)) := fun outputUpdates =>
          Tame.cons_iff.mpr ⟨.plain rfl rfl rfl rfl rfl, Tame.cons_iff.mpr ⟨.plain rfl rfl rfl rfl rfl, hmerged outputUpdates⟩⟩
        split
        · exact .prepend (hevents _) e.moves_resumeCompensationThrow
        · exact e.moves_routeCompleted (Tame.append_iff.mpr ⟨hevents _, e.tame_compensationSubscriptions⟩)

theorem moves_createJobFor {eik : Key} {elementId : ElementId} :
    (e.createJobFor instanceKey eik elementId).All F (Outcome.Moves F e.state instanceKey) := by
  unfold createJobFor
  split
  · rw [StepM.all_bind]
    exact e.tame_jobFor.mono fun job hjob => .parks (.one hjob)
  · exact .parks .nil

/-! ## User tasks -/

omit [Feel] e in
theorem tame_applyNonAssigneeCorrections {s : State} {userTaskKey : Key} {c : UserTaskCorrections} :
    Tame F s i (applyNonAssigneeCorrections userTaskKey instanceKey c) := by
  unfold applyNonAssigneeCorrections
  split <;> exact .quiet rfl

omit [Feel] e in
theorem tame_assigneeCorrection {s : State} {userTaskKey : Key} {c : UserTaskCorrections} :
    Tame F s i (assigneeCorrection userTaskKey instanceKey c) :=
  .map fun _ => .plain rfl rfl rfl rfl rfl

omit [Feel] in
theorem tame_transitionEvents {utk : Key} {task : UserTask} {pending : PendingUserTaskTransition} :
    Tame F e.state i (e.transitionEvents utk task pending) := by
  unfold transitionEvents
  dsimp only
  split
  · unfold applyCreatingCorrections
    refine Tame.append_iff.mpr ⟨tame_applyNonAssigneeCorrections, ?_⟩
    split
    · exact .nil
    · exact tame_assigneeCorrection
  · exact Tame.append_iff.mpr ⟨tame_applyNonAssigneeCorrections, .quiet rfl⟩
  · exact Tame.cons_iff.mpr ⟨.plain rfl rfl rfl rfl rfl, tame_assigneeCorrection⟩
  · simp only [Tame.append_iff, tame_applyNonAssigneeCorrections, tame_assigneeCorrection, tame_outputWrites, true_and]
    exact .quiet rfl
  · exact .quiet rfl

theorem moves_commitUserTaskTransition {userTaskKey : Key} {task : UserTask}
    (htask : e.state.userTasks[userTaskKey]? = some task) :
    (e.commitUserTaskTransition userTaskKey).All F (Outcome.Moves F e.state task.instanceKey) := by
  unfold commitUserTaskTransition
  rw [htask]
  dsimp only
  split
  · exact .parks .nil
  · next pending _ =>
    have hresolved : Tame F e.state task.instanceKey (e.transitionEvents userTaskKey task pending ++
        [Event.userTaskTransitionResolved userTaskKey task.instanceKey none] ++
        if pending.eventType == .canceling && e.finishesTermination userTaskKey task.instanceKey then
          [Event.processInstanceTerminated task.instanceKey] else []) := by
      refine Tame.append_iff.mpr ⟨Tame.append_iff.mpr ⟨e.tame_transitionEvents, .quiet rfl⟩, ?_⟩
      split <;> exact .quiet rfl
    have hsteps : ∀ step ∈ (if pending.eventType == .completing then
        [Step.complete task.instanceKey task.elementInstanceKey task.elementId] else []), Step.via step = none := by
      split <;> simp [Step.via]
    split
    · rw [StepM.all_bind]
      exact e.tame_startTaskListenerChain.mono fun chain hchain =>
        .stays (Tame.append_iff.mpr ⟨hresolved, hchain⟩) hsteps
    · exact .stays (Tame.append_iff.mpr ⟨hresolved, .nil⟩) hsteps

theorem moves_advanceTaskListener {userTaskKey : Key} {task : UserTask} {eventType : TaskListenerEventType}
    {index : Nat} (htask : e.state.userTasks[userTaskKey]? = some task) :
    (e.advanceTaskListener userTaskKey eventType index).All F (Outcome.Moves F e.state task.instanceKey) := by
  unfold advanceTaskListener
  rw [htask]
  dsimp only
  split
  · intro key hkey
    exact .parks (.one (.creating rfl rfl rfl hkey rfl))
  · exact e.moves_commitUserTaskTransition htask

end Engine

/-! ## Joins -/

/-- The outcome of a firing: the join's tokens are consumed once, between events of the instance. -/
def Outcome.Fires (F : Key → Prop) (s : State) (i : Key) (join : ElementId) (out : Outcome) : Prop :=
  ∃ events rest, Tame F s i events ∧ Outcome.Moves F s i rest ∧
    out = (events ++ .parallelJoinFired i join :: rest.1, rest.2)

/-- The token of an activation that came over no flow. -/
def arrivalOf (i : Key) (join : ElementId) (via : Option IncomingFlow) : List Event :=
  if via.isNone then [.parallelJoinTokenArrived i join none] else []

namespace State

/-- The tokens an activation finds at a join: a flow counts once, an unidentified token each time. -/
def tokensAt (s : State) (i : Key) (join : ElementId) (via : Option IncomingFlow) : Nat :=
  (s.joinArrivals i join).distinctFlows + ((s.instances[i]?.bind (·.joinCounts[join]?)).getD 0 +
    if via.isNone then 1 else 0)

/-- The guard of `activate_join`. -/
def acceptsJoin (s : State) (i : Key) (join : ElementId) (scope : Key) (via : Option IncomingFlow) (kind : JoinKind)
    (pending : List Step) : Bool :=
  let allTaken := s.tokensAt i join via ≥ s.incomingCount i join
  match kind with
  | .parallel => decide allTaken
  | .inclusive =>
    allTaken || (s.tokensAt i join via > 0 && !s.hasActivePathTo i join scope (s.joinArrivals i join) pending)

end State

namespace Engine

variable {F : Key → Prop} {instanceKey : Key} (e : Engine)

theorem tame_openJoin {s : State} {elementId : ElementId} {scope : Key} :
    (openJoin instanceKey elementId scope).All F (Tame F s instanceKey) := by
  intro key hkey
  exact tame_activation hkey (.one (.opening rfl rfl rfl rfl rfl))

theorem fires_fireJoin {s : State} {elementId : ElementId} {scope : Key} {arrivals : FlowArrivals} :
    (fireJoin instanceKey elementId scope arrivals).All F fun fired =>
      ∃ opened, fired = .parallelJoinFired instanceKey elementId :: opened ∧ Tame F s instanceKey opened := by
  unfold fireJoin
  dsimp only
  split
  · exact ⟨[], rfl, .nil⟩
  · rw [StepM.all_bind]
    exact tame_openJoin.mono fun opened hopened => ⟨opened, rfl, hopened⟩

theorem fires_fireOpenInclusiveJoin {eik : Key} {elementId : ElementId} {scope : Key} :
    (e.fireOpenInclusiveJoin instanceKey eik elementId scope).All F fun fired => fired = [] ∨
      (e.state.joinEik instanceKey elementId = some eik ∧
        ∃ opened, fired = .parallelJoinFired instanceKey elementId :: opened ∧ Tame F e.state instanceKey opened) := by
  unfold fireOpenInclusiveJoin
  split
  · next hopen => exact fires_fireJoin.mono fun fired hfired => .inr ⟨hopen, hfired⟩
  · exact .inl rfl

variable [Feel]

/-- An inclusive gateway that completes fires only the join it still holds open. -/
theorem fires_completeInclusiveGateway {eik : Key} {elementId : ElementId} :
    (e.completeInclusiveGateway instanceKey eik elementId).All F fun out => Outcome.Moves F e.state instanceKey out ∨
      (e.state.joinEik instanceKey elementId = some eik ∧ Outcome.Fires F e.state instanceKey elementId out) := by
  simp only [completeInclusiveGateway, StepM.all_bind]
  refine e.fires_fireOpenInclusiveJoin.mono fun fired hfired => e.moves_routeInclusiveGateway.mono fun out hout => ?_
  rcases hfired with rfl | ⟨hopen, opened, rfl, hopened⟩
  · exact .inl hout
  · exact .inr ⟨hopen, [], (opened ++ out.1, out.2), .nil, .prepend hopened hout, rfl⟩

theorem fires_finalizeInclusiveGateway {eik : Key} {elementId : ElementId} {scope : Key} :
    (e.finalizeInclusiveGateway instanceKey eik elementId scope).All F fun out =>
      Outcome.Moves F e.state instanceKey out ∨
        (e.state.joinEik instanceKey elementId = some eik ∧ Outcome.Fires F e.state instanceKey elementId out) := by
  simp only [finalizeInclusiveGateway, StepM.all_bind]
  refine e.fires_fireOpenInclusiveJoin.mono fun fired hfired => ?_
  suffices h : ∀ rest : Outcome, Outcome.Moves F e.state instanceKey rest →
      Outcome.Moves F e.state instanceKey (fired ++ rest.1, rest.2) ∨
        (e.state.joinEik instanceKey elementId = some eik ∧
          Outcome.Fires F e.state instanceKey elementId (fired ++ rest.1, rest.2)) by
    split
    · intro key hkey
      exact h ([_], []) (.parks (.one (.creating rfl rfl rfl hkey rfl)))
    · intro key hkey
      exact h ([_], []) (.parks (.one (.creating rfl rfl rfl hkey rfl)))
    · exact h (_ :: _, _) (.takesFlows [.elementCompleted instanceKey eik elementId] (.quiet rfl))
  intro rest hrest
  rcases hfired with rfl | ⟨hopen, opened, rfl, hopened⟩
  · exact .inl hrest
  · exact .inr ⟨hopen, [], (opened ++ rest.1, rest.2), .nil, .prepend hopened hrest, rfl⟩

/-- What follows an accepted activation, on the join instance `eik`. -/
def acceptedJoin (e : Engine) (instanceKey : Key) (elementId : ElementId) (scope : Key) (join : JoinKind)
    (arrival activation : List Event) (eik : Key) : StepM Outcome := do
  let fired ← fireJoin instanceKey elementId scope (e.state.joinArrivals instanceKey elementId)
  match join with
  | .parallel =>
    let (flows, steps) := e.state.takeAllFlows instanceKey elementId scope
    return (arrival ++ activation ++ fired ++ [.elementCompleting instanceKey eik elementId,
      .elementCompleted instanceKey eik elementId] ++ flows, steps)
  | .inclusive =>
    let (routed, steps) ← e.routeInclusiveGateway instanceKey eik elementId scope
    return (arrival ++ activation ++ fired ++ routed, steps)

/-- `activate_join` with its guard and its two ends named. -/
theorem activateJoin_eq (elementId : ElementId) (scope : Key) (via : Option IncomingFlow) (join : JoinKind)
    (pending : List Step) :
    e.activateJoin instanceKey elementId scope via join pending =
      if !e.state.acceptsJoin instanceKey elementId scope via join pending then
        if e.state.tokensAt instanceKey elementId via > 0 ∧ (e.state.joinEik instanceKey elementId).isNone then do
          return (arrivalOf instanceKey elementId via ++ (← openJoin instanceKey elementId scope), [])
        else return (arrivalOf instanceKey elementId via, [])
      else
        match e.state.joinEik instanceKey elementId with
        | some eik => e.acceptedJoin instanceKey elementId scope join (arrivalOf instanceKey elementId via) [] eik
        | none => StepM.mintKey >>= fun eik =>
          e.acceptedJoin instanceKey elementId scope join (arrivalOf instanceKey elementId via)
            [.elementActivating instanceKey eik elementId, .elementActivated instanceKey eik elementId scope] eik := by
  cases via <;> rfl

theorem fires_acceptedJoin {arrival activation : List Event} {eik : Key} {elementId : ElementId} {scope : Key}
    {join : JoinKind} (hactivation : Tame F e.state instanceKey activation) :
    (e.acceptedJoin instanceKey elementId scope join arrival activation eik).All F fun out =>
      ∃ rest, out = (arrival ++ rest.1, rest.2) ∧ Outcome.Fires F e.state instanceKey elementId rest := by
  unfold acceptedJoin
  rw [StepM.all_bind]
  refine (fires_fireJoin (s := e.state)).mono fun fired hfired => ?_
  obtain ⟨opened, rfl, hopened⟩ := hfired
  have hfires : ∀ rest, Outcome.Moves F e.state instanceKey rest → Outcome.Fires F e.state instanceKey elementId
      (activation ++ .parallelJoinFired instanceKey elementId :: (opened ++ rest.1), rest.2) := fun rest hrest =>
    ⟨activation, (opened ++ rest.1, rest.2), hactivation, .prepend hopened hrest, rfl⟩
  split
  · have hrest : Outcome.Moves F e.state instanceKey
        ([Event.elementCompleting instanceKey eik elementId, .elementCompleted instanceKey eik elementId] ++
          (e.state.takeAllFlows instanceKey elementId scope).1, (e.state.takeAllFlows instanceKey elementId scope).2) :=
      .takesAllFlows _ (.quiet rfl)
    generalize e.state.takeAllFlows instanceKey elementId scope = flows at hrest ⊢
    exact ⟨_, by simp, hfires _ hrest⟩
  · rw [StepM.all_bind]
    exact e.moves_routeInclusiveGateway.mono fun rest hrest => ⟨_, by simp, hfires rest hrest⟩

/-- A join fires exactly when its guard accepts the activation. -/
theorem fires_activateJoin {elementId : ElementId} {scope : Key} {via : Option IncomingFlow} {join : JoinKind}
    {pending : List Step} :
    (e.activateJoin instanceKey elementId scope via join pending).All F fun out =>
      ∃ rest, out = (arrivalOf instanceKey elementId via ++ rest.1, rest.2) ∧
        if e.state.acceptsJoin instanceKey elementId scope via join pending then
          Outcome.Fires F e.state instanceKey elementId rest
        else Outcome.Moves F e.state instanceKey rest := by
  rw [activateJoin_eq]
  cases haccepts : e.state.acceptsJoin instanceKey elementId scope via join pending with
  | true =>
    simp only [Bool.not_true, Bool.false_eq_true, if_false, if_true]
    split
    · exact e.fires_acceptedJoin .nil
    · intro key hkey
      exact e.fires_acceptedJoin (tame_activation hkey .nil)
  | false =>
    simp only [Bool.not_false, Bool.false_eq_true, if_false, if_true]
    split
    · rw [StepM.all_bind]
      exact tame_openJoin.mono fun opened hopened => ⟨(opened, []), rfl, .parks hopened⟩
    · exact ⟨([], []), by simp, .parks .nil⟩

end Engine

/-! ## Steps -/

/-- The element instance that a step takes to its end. -/
def Step.finishes : Step → Option (Key × Key × ElementId)
  | .complete instanceKey eik elementId | .advanceListener instanceKey eik elementId .end _ _ =>
    some (instanceKey, eik, elementId)
  | _ => none

/-- The outcome of a step that is not dropped, on its instance `i`. -/
inductive Step.Handled (F : Key → Prop) (s : State) (pending : List Step) (i : Key) : Step → Outcome → Prop where
  | moves {step : Step} {out : Outcome} (h : Outcome.Moves F s i out) : Handled F s pending i step out
  | join {join : ElementId} {scope : Key} {via : Option IncomingFlow} {kind : JoinKind} {rest : Outcome}
      (hkind : s.joinKind i join = some kind)
      (h : if s.acceptsJoin i join scope via kind pending then Outcome.Fires F s i join rest else Outcome.Moves F s i rest) :
      Handled F s pending i (.activate i join scope via) (arrivalOf i join via ++ rest.1, rest.2)
  /-- An inclusive join that is still open when its instance completes. -/
  | openJoin {step : Step} {eik : Key} {join : ElementId} {out : Outcome} (hstep : step.finishes = some (i, eik, join))
      (hkind : s.elementKind i join = some .inclusiveGateway) (hopen : s.joinEik i join = some eik)
      (h : Outcome.Fires F s i join out) : Handled F s pending i step out

namespace Engine

variable {F : Key → Prop} {instanceKey : Key} (e : Engine) [Feel] {pending : List Step}

theorem handled_activate {elementId : ElementId} {scope : Key} {via : Option IncomingFlow} :
    (e.activate instanceKey elementId scope via pending).All F
      (Step.Handled F e.state pending instanceKey (.activate instanceKey elementId scope via)) := by
  unfold activate
  split
  · next kind hkind =>
    refine e.fires_activateJoin.mono fun out hout => ?_
    obtain ⟨rest, rfl, hrest⟩ := hout
    exact .join hkind hrest
  · dsimp only
    split
    · exact e.moves_activateMultiInstanceBody.mono fun out hout => .moves hout
    · rw [StepM.all_bind, StepM.all_mintKey]
      intro key hkey
      rw [StepM.all_bind]
      refine (e.moves_activateBody (.inl hkey)).mono fun out hout => .moves ?_
      have hown : Tame F e.state instanceKey (if e.ownsScope instanceKey elementId then
          [Event.variableScopeCreated instanceKey key scope] else []) := by
        split <;> exact .quiet rfl
      exact .prepend (tame_activation hkey hown) hout

theorem handled_complete {eik : Key} {elementId : ElementId} :
    (e.complete instanceKey eik elementId).All F
      (Step.Handled F e.state pending instanceKey (.complete instanceKey eik elementId)) := by
  unfold complete
  dsimp only
  split
  · exact e.moves_completeMiChild.mono fun out hout => .moves hout
  split
  · exact e.moves_completeAdhocTool.mono fun out hout => .moves hout
  split
  · exact e.moves_completeExclusiveGateway.mono fun out hout => .moves hout
  · next hkind =>
    refine e.fires_completeInclusiveGateway.mono fun out hout => ?_
    rcases hout with hout | ⟨hopen, hout⟩
    · exact .moves hout
    · exact .openJoin rfl hkind hopen hout
  · exact e.moves_completeTerminateEnd.mono fun out hout => .moves hout
  · exact e.moves_completePlain.mono fun out hout => .moves hout

theorem handled_advanceListener {eik : Key} {elementId : ElementId} {eventType : ListenerEventType} {index : Nat}
    {scope : Key} (heik : (e.state.elementIdOfInstance instanceKey eik).isSome = true) :
    (e.advanceListener instanceKey eik elementId eventType index scope).All F
      (Step.Handled F e.state pending instanceKey (.advanceListener instanceKey eik elementId eventType index scope)) := by
  unfold advanceListener
  dsimp only
  split
  · rw [StepM.all_bind]
    exact e.tame_listenerJob.mono fun job hjob => .moves (.parks (.one hjob))
  · split
    · split
      · refine .moves (.stays .nil ?_)
        unfold spawnMultiInstanceChildren
        split
        · simp
        · exact via_miFanOut
      · exact (e.moves_runActivationBody (.inr heik)).mono fun out hout => .moves hout
    · -- the end of the chain
      unfold finalizeEndTransition
      split
      · exact .moves e.moves_finalizeMultiInstanceBody
      split
      · exact .moves e.moves_finalizeAdhocContainer
      split
      · exact e.moves_finalizeExclusiveGateway.mono fun out hout => .moves hout
      · next hkind =>
        refine e.fires_finalizeInclusiveGateway.mono fun out hout => ?_
        rcases hout with hout | ⟨hopen, hout⟩
        · exact .moves hout
        · exact .openJoin rfl hkind hopen hout
      · exact .moves (.takesAllFlows [.elementCompleted instanceKey eik elementId] (.quiet rfl))
      · exact e.moves_finalizeCompletion.mono fun out hout => .moves hout

omit [Feel] in
/-- The element instance of a step that passes the guard is active. -/
theorem active_of_not_dead {step : Step} {target : StepTarget} {eik : Key} (htarget : e.state.stepTarget step = some target)
    (hlive : e.stepTargetsDeadScope step = false) (heik : target.eik = some eik) :
    (e.state.elementIdOfInstance target.instanceKey eik).isSome = true := by
  simp only [stepTargetsDeadScope, htarget] at hlive
  cases hi : e.state.instances[target.instanceKey]? with
  | none => simp [hi] at hlive
  | some i =>
    simp only [hi, heik, Option.any_some, Bool.or_eq_false_iff, Bool.not_eq_false'] at hlive
    simpa [State.elementIdOfInstance, hi] using hlive.1.2

/-- Every handler keeps to its own instance, and only these fire a join. -/
theorem handled_handleStep {step : Step} {target : StepTarget} (htarget : e.state.stepTarget step = some target)
    (hlive : e.stepTargetsDeadScope step = false) :
    (e.handleStep pending step).All F (Step.Handled F e.state pending target.instanceKey step) := by
  have hactive : ∀ eik, target.eik = some eik → (e.state.elementIdOfInstance target.instanceKey eik).isSome = true :=
    fun eik => e.active_of_not_dead htarget hlive
  cases step with
  | activate => cases htarget; exact e.handled_activate
  | complete => cases htarget; exact e.handled_complete
  | advanceListener => cases htarget; exact e.handled_advanceListener (hactive _ rfl)
  | completeAdHocCallActivityTool => cases htarget; exact e.moves_completeAdhocTool.mono fun _ => .moves
  | createJob => cases htarget; exact e.moves_createJobFor.mono fun _ => .moves
  | reopenCatch => cases htarget; exact (e.moves_runActivationBody (.inr (hactive _ rfl))).mono fun _ => .moves
  | retryActivation => cases htarget; exact (e.moves_activateBody (.inr (hactive _ rfl))).mono fun _ => .moves
  | activateMiChild => cases htarget; exact e.moves_activateMiChild.mono fun _ => .moves
  | completeMiBody => cases htarget; exact e.moves_completeMultiInstanceBody.mono fun _ => .moves
  | activateAdHocTool => cases htarget; exact e.moves_activateAdhocTool.mono fun _ => .moves
  | completeAdHoc => cases htarget; exact e.moves_completeAdhocContainer.mono fun _ => .moves
  | completeCallActivity => cases htarget; exact e.moves_completeCallActivity.mono fun _ => .moves
  | retryMiChildActivation => cases htarget; exact (e.moves_retryMiChildActivation (.inr (hactive _ rfl))).mono fun _ => .moves
  | retryCallActivitySpawn => cases htarget; exact e.moves_retryCallActivitySpawn.mono fun _ => .moves
  | retryMiBodyActivation instanceKey elementId bodyKey scope =>
    cases htarget
    cases hmi : e.state.multiInstanceOf instanceKey elementId with
    | none =>
      simp only [handleStep, hmi]
      exact .moves (.parks .nil)
    | some mi =>
      simp only [handleStep, hmi]
      exact (e.moves_runMiBodyActivation (.inr (hactive _ rfl))).mono fun _ => .moves
  | advanceTaskListener userTaskKey eventType index =>
    simp only [State.stepTarget] at htarget
    split at htarget
    · next task htask =>
      split at htarget
      · cases htarget
        exact (e.moves_advanceTaskListener htask).mono fun _ => .moves
      · cases htarget
    · cases htarget

/-- A step is dropped, or handled on its instance. -/
theorem outcome_processStep {step : Step} : (e.processStep step pending).All F fun out =>
    (e.stepTargetsDeadScope step = true ∧ out = (e.revokeDroppedJoinArrival step, [])) ∨
      (e.stepTargetsDeadScope step = false ∧ ∃ target, e.state.stepTarget step = some target ∧
        Step.Handled F e.state pending target.instanceKey step out) := by
  unfold processStep
  cases hdead : e.stepTargetsDeadScope step with
  | true => exact .inl ⟨rfl, rfl⟩
  | false =>
    cases htarget : e.state.stepTarget step with
    | none => simp [stepTargetsDeadScope, htarget] at hdead
    | some target =>
      exact (e.handled_handleStep htarget hdead).mono fun out hout => .inr ⟨rfl, target, rfl, hout⟩

end Engine

end NanoBpm
