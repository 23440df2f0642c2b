import NanoBpm.Planner.StartTriggers
import NanoBpm.Planner.Continuations
import NanoBpm.Cells

/-!
# Publishing a message to a cluster (`server/src/main.rs:7715-7876`, `engine/mod.rs:3256-3391`)

The open subscriptions of a correlation key are all on one partition, the one its hash names, and the message starts are on
partition 0. A publish is handled by these two partitions, each of which decides alone. On one engine the message is offered
to the open subscriptions in the order of their keys, and starts instances only if there are none of them.
-/

namespace NanoBpm

/-! ## What a correlation withdraws -/

/-- The key is that of a scope somewhere below the other one. -/
def ProcessInstance.Below (i : ProcessInstance) : Key → Key → Prop :=
  Relation.TransGen fun child parent => i.scopes[child]? = some parent

theorem ProcessInstance.below_of_mem_descendantsFrom {i : ProcessInstance} {fuel : Nat} {scope eik : Key}
    (h : eik ∈ i.descendantsFrom fuel scope) : i.Below eik scope := by
  induction fuel generalizing scope with
  | zero => cases h
  | succ fuel ih =>
    simp only [ProcessInstance.descendantsFrom, List.mem_flatMap, List.mem_map, List.mem_filter] at h
    obtain ⟨_, ⟨⟨child, parent⟩, ⟨hmem, hparent⟩, rfl⟩, heik⟩ := h
    obtain rfl : parent = scope := by simpa using hparent
    have hchild : i.scopes[child]? = some parent := Std.ExtTreeMap.mem_toList_iff_getElem?_eq_some.mp hmem
    rcases List.mem_cons.mp heik with rfl | heik
    · exact .single hchild
    · exact .tail (ih heik) hchild

namespace State

/-- The element instances that go when an activity is interrupted. -/
def Inside (s : State) (instanceKey activity eik : Key) : Prop :=
  eik = activity ∨ ∃ i, s.instances[instanceKey]? = some i ∧ i.Below eik activity

/-- Correlating to the one subscription, that of an interrupting boundary, withdraws the other: it is on the boundary of the
same activity, or inside the activity, or in an instance that was called from there. -/
def Withdraws (s : State) (sub other : MessageSubscription) : Prop :=
  (∃ boundaryElementId, sub.kind = .interruptingBoundary boundaryElementId) ∧
    ((other.elementInstanceKey = sub.elementInstanceKey ∧ other.kind.isBoundary = true) ∨
      (∃ i, s.instances[sub.instanceKey]? = some i ∧ i.Below other.elementInstanceKey sub.elementInstanceKey) ∨
      ∃ i ∈ s.instances.vals, i.key = other.instanceKey ∧
        ∃ eik, i.parentElementInstanceKey = some eik ∧ s.Inside sub.instanceKey sub.elementInstanceKey eik)

/-- Nothing has been added to the instances. -/
def Shrinks (s s' : State) : Prop :=
  ∀ (k : Key) (i' : ProcessInstance), s'.instances[k]? = some i' → ∃ i, s.instances[k]? = some i ∧ i'.key = i.key ∧
    i'.parentElementInstanceKey = i.parentElementInstanceKey ∧
    ∀ child parent : Key, i'.scopes[child]? = some parent → i.scopes[child]? = some parent

theorem Shrinks.refl (s : State) : s.Shrinks s := fun _ i hi => ⟨i, hi, rfl, rfl, fun _ _ h => h⟩

theorem Shrinks.trans {s s' s'' : State} (h : s.Shrinks s') (h' : s'.Shrinks s'') : s.Shrinks s'' := by
  intro k i'' hi''
  obtain ⟨i', hi', hkey', hparent', hscopes'⟩ := h' k i'' hi''
  obtain ⟨i, hi, hkey, hparent, hscopes⟩ := h k i' hi'
  exact ⟨i, hi, hkey'.trans hkey, hparent'.trans hparent, fun child parent hc => hscopes _ _ (hscopes' _ _ hc)⟩

theorem Shrinks.below {s s' : State} (h : s.Shrinks s') {k : Key} {i' : ProcessInstance} (hi' : s'.instances[k]? = some i')
    {eik scope : Key} (hbelow : i'.Below eik scope) : ∃ i, s.instances[k]? = some i ∧ i.Below eik scope := by
  obtain ⟨i, hi, -, -, hscopes⟩ := h k i' hi'
  exact ⟨i, hi, Relation.TransGen.mono hscopes _ _ hbelow⟩

theorem Shrinks.inside {s s' : State} (h : s.Shrinks s') {k activity eik : Key} (hinside : s'.Inside k activity eik) :
    s.Inside k activity eik := by
  rcases hinside with rfl | ⟨i', hi', hbelow⟩
  · exact .inl rfl
  · exact .inr (h.below hi' hbelow)

theorem Shrinks.withdraws {s s' : State} (h : s.Shrinks s') {sub other : MessageSubscription}
    (hwithdraws : s'.Withdraws sub other) : s.Withdraws sub other := by
  refine ⟨hwithdraws.1, ?_⟩
  rcases hwithdraws.2 with hsame | ⟨i', hi', hbelow⟩ | ⟨i', hi', hkey, eik, hparent, hinside⟩
  · exact .inl hsame
  · exact .inr (.inl (h.below hi' hbelow))
  · obtain ⟨k, hk⟩ := Std.ExtTreeMap.mem_vals.mp hi'
    obtain ⟨i, hi, hkey', hparent', -⟩ := h k i' hk
    exact .inr (.inr ⟨i, Std.ExtTreeMap.mem_vals.mpr ⟨k, hi⟩, hkey' ▸ hkey, eik, hparent' ▸ hparent, h.inside hinside⟩)

end State

/-- The events of an interruption, and those that carry a payload or settle a subscription. -/
def Event.tidies : Event → Bool
  | variablesUpdated .. | scopedVariablesUpdated .. | messageCorrelated .. | remoteMessageCorrelation .. | jobCanceled ..
  | incidentResolved .. | elementCompleting .. | elementCompleted .. | multiInstanceCompleted .. | adHocCompleted ..
  | timerCanceled .. | messageSubscriptionCanceled .. | messageSubscriptionClosing .. | signalSubscriptionCanceled ..
  | conditionalSubscriptionCanceled .. | userTaskCanceled .. | processInstanceTerminated .. | parallelJoinReset ..
  | scopedCompensationCleared .. | agentHistoryCommitted .. | agentHistoryDiscarded .. | agentInstanceUpdated ..
  | agentInstanceCompleted .. => true
  | _ => false

/-- What a tidying event does to an instance. -/
structure Event.TidiesInstance (event : Event) (k : Key) (i i' : ProcessInstance) : Prop where
  key : i'.key = i.key
  parent : i'.parentElementInstanceKey = i.parentElementInstanceKey
  scopes : ∀ child parent : Key, i'.scopes[child]? = some parent → i.scopes[child]? = some parent
  state : event ≠ .processInstanceTerminated k → i'.state = i.state

/-- A tidying event changes one instance at most. -/
theorem Event.instances_apply_of_tidies {event : Event} (h : event.tidies = true) (s : State) :
    (apply s event).instances = s.instances ∨ ∃ (key : Key) (f : ProcessInstance → ProcessInstance),
      (apply s event).instances = s.instances.modify key f ∧ ∀ i, event.TidiesInstance key i (f i) := by
  cases event <;> simp only [Event.tidies, Bool.false_eq_true] at h
  case variablesUpdated => exact .inr ⟨_, _, rfl, fun i => ⟨rfl, rfl, fun _ _ h => h, fun _ => rfl⟩⟩
  case scopedVariablesUpdated =>
    refine .inr ⟨_, _, rfl, fun i => ?_⟩
    split <;> exact ⟨rfl, rfl, fun _ _ h => h, fun _ => rfl⟩
  case elementCompleted key eik _ =>
    refine .inr ⟨_, _, rfl, fun i => ⟨rfl, rfl, fun child parent hc => ?_, fun _ => rfl⟩⟩
    simp only [Std.ExtTreeMap.getElem?_erase] at hc
    split at hc
    · cases hc
    · exact hc
  case processInstanceTerminated key =>
    refine .inr ⟨_, _, instances_decrementInflightByProcess _ _, fun i => ⟨rfl, rfl, fun child parent hc => ?_, fun hne => ?_⟩⟩
    · exact absurd (hc.symm.trans Std.ExtTreeMap.getElem?_empty) (by simp)
    · exact absurd rfl hne
  case incidentResolved incidentKey instanceKey jobKey _ _ =>
    refine .inr ⟨instanceKey, fun i => { i with incidents := i.incidents.filter (· ≠ incidentKey) }, ?_,
      fun i => ⟨rfl, rfl, fun _ _ h => h, fun _ => rfl⟩⟩
    cases jobKey with
    | none => rfl
    | some jobKey =>
      change State.instances (if _ then _ else _) = _
      split
      · exact instances_resyncJobIndex _ _
      · rfl
  case jobCanceled => exact .inl (instances_resyncJobIndex _ _)
  all_goals first
    | exact .inl rfl
    | exact .inr ⟨_, _, rfl, fun i => ⟨rfl, rfl, fun _ _ h => h, fun _ => rfl⟩⟩

theorem State.shrinks_apply {event : Event} (h : event.tidies = true) (s : State) : s.Shrinks (apply s event) := by
  intro k i' hi'
  rcases event.instances_apply_of_tidies h s with hsame | ⟨key, f, hmodify, hf⟩
  · rw [hsame] at hi'
    exact ⟨i', hi', rfl, rfl, fun _ _ h => h⟩
  · rw [hmodify] at hi'
    obtain ⟨i, hi, ⟨rfl, -⟩ | rfl⟩ := Std.ExtTreeMap.of_getElem?_modify hi'
    · exact ⟨i, hi, (hf i).key, (hf i).parent, (hf i).scopes⟩
    · exact ⟨i', hi, rfl, rfl, fun _ _ h => h⟩

/-- Whether an instance is suspended changes at most where it is terminated. -/
theorem State.instanceIsSuspended_apply {event : Event} (h : event.tidies = true) (s : State) {k : Key}
    (hk : event ≠ .processInstanceTerminated k) :
    (apply s event).instanceIsSuspended k = s.instanceIsSuspended k := by
  unfold State.instanceIsSuspended
  rcases event.instances_apply_of_tidies h s with hsame | ⟨key, f, hmodify, hf⟩
  · rw [hsame]
  · rw [hmodify, Std.ExtTreeMap.getElem?_modify]
    split
    · next heq =>
      obtain rfl : key = k := Std.LawfulEqCmp.compare_eq_iff_eq.mp heq
      cases s.instances[key]? with
      | none => rfl
      | some i => simp [(hf i).state hk]
    · rfl

/-- The subscription whose record an event settles. -/
def Event.settles : Event → Option Key
  | messageCorrelated key .. | remoteMessageCorrelation key .. | messageSubscriptionCanceled key ..
  | messageSubscriptionClosing key .. => some key
  | _ => none

/-- A tidying event that neither settles one of the subscriptions nor terminates its instance. -/
structure Event.Spares (subs : List MessageSubscription) (event : Event) : Prop where
  tidies : event.tidies = true
  settles : ∀ key, event.settles = some key → ∀ sub ∈ subs, sub.key ≠ key
  terminates : ∀ sub ∈ subs, event ≠ .processInstanceTerminated sub.instanceKey

theorem Event.Spares.of_settles {subs : List MessageSubscription} {event : Event} (h : event.tidies = true)
    (hsettles : event.settles = none) (hterminates : ∀ key, event ≠ .processInstanceTerminated key) : event.Spares subs :=
  ⟨h, by simp [hsettles], fun _ _ => hterminates _⟩

theorem messageSubscriptions_of_tidies {event : Event} (h : event.tidies = true) (s : State) {k : Key}
    (hk : event.settles ≠ some k) : (apply s event).messageSubscriptions[k]? = s.messageSubscriptions[k]? := by
  rw [messageSubscriptions_apply]
  cases event <;> simp only [Event.tidies, Bool.false_eq_true] at h
  case messageCorrelated key _ _ _ _ | remoteMessageCorrelation key _ _ _ _ _ _ | messageSubscriptionCanceled key _ _ _
      | messageSubscriptionClosing key _ _ _ _ _ =>
    have hne : key ≠ k := fun heq => hk (congrArg some heq)
    simp [Event.onMessageSubscriptions, Std.ExtTreeMap.getElem?_modify, hne]
  all_goals rfl

/-- The subscriptions that are still to be worked off have the records they had at first. -/
structure Awaits (s₀ : State) (todo : List MessageSubscription) (s : State) : Prop where
  shrinks : s₀.Shrinks s
  keyed : ∀ (k : Key) (m : MessageSubscription), s.messageSubscriptions[k]? = some m → m.key = k
  kept : ∀ sub ∈ todo, s.messageSubscriptions[sub.key]? = some sub
  suspended : ∀ sub ∈ todo, s.instanceIsSuspended sub.instanceKey = s₀.instanceIsSuspended sub.instanceKey

namespace Awaits

variable {s₀ s : State} {todo : List MessageSubscription} {event : Event}

theorem apply_event (h : Awaits s₀ todo s) (hevent : event.Spares todo) : Awaits s₀ todo (apply s event) := by
  have hcreated : event.createdSubscription = none := by
    have htidies := hevent.tidies
    cases event <;> first | rfl | cases htidies
  refine ⟨h.shrinks.trans (State.shrinks_apply hevent.tidies s), ?_, ?_, ?_⟩
  · intro k m hm
    rw [messageSubscriptions_apply] at hm
    obtain ⟨m', hm', hkey, -⟩ := getElem?_onMessageSubscriptions (by simp [hcreated]) hm
    exact hkey.trans (h.keyed k m' hm')
  · intro sub hsub
    rw [messageSubscriptions_of_tidies hevent.tidies s fun hkey => hevent.settles _ hkey sub hsub rfl]
    exact h.kept sub hsub
  · intro sub hsub
    rw [State.instanceIsSuspended_apply hevent.tidies s (hevent.terminates sub hsub)]
    exact h.suspended sub hsub

theorem applyAll (h : Awaits s₀ todo s) {events : List Event} (hevents : ∀ event ∈ events, event.Spares todo) :
    Awaits s₀ todo (applyAll s events) := by
  induction events generalizing s with
  | nil => exact h
  | cons event events ih =>
    have hrest : ∀ event ∈ events, event.Spares todo := fun other hother => hevents other (by simp [hother])
    exact ih (h.apply_event (hevents event (by simp))) hrest

/-- A list of cancellations of subscriptions that are not among those to be worked off. -/
theorem spares_messageCancels (h : Awaits s₀ todo s) {p : MessageSubscription → Bool} (hp : ∀ sub ∈ todo, p sub = false) :
    ∀ event ∈ s.messageCancels p, event.Spares todo := by
  intro event hevent
  obtain ⟨m, hm, rfl⟩ := List.mem_map.mp hevent
  have hm' : m ∈ s.messageSubscriptions.vals ∧ m.state.isLive = true ∧ p m = true := by
    simpa [sortByKey, List.mem_insertionSort] using hm
  have hapart : ∀ sub ∈ todo, sub.key ≠ m.key := by
    intro sub hsub hkey
    obtain ⟨k, hk⟩ := Std.ExtTreeMap.mem_vals.mp hm'.1
    obtain rfl := h.keyed k m hk
    have hsame : sub = m := by
      have hkept := h.kept sub hsub
      rw [hkey, hk] at hkept
      exact (Option.some.inj hkept).symm
    rw [hsame] at hsub
    exact absurd (hp m hsub) (by simp [hm'.2.2])
  unfold disarmSubscriptionEvent
  split <;> exact ⟨rfl, fun key hkey sub hsub => Option.some.inj hkey ▸ hapart sub hsub, fun _ _ => by simp⟩

end Awaits

/-- Events of which none settles a subscription or terminates an instance. -/
theorem spares_map {α : Type} {subs : List MessageSubscription} {xs : List α} {f : α → Event}
    (h : ∀ x, (f x).tidies = true ∧ (f x).settles = none ∧ ∀ key, f x ≠ .processInstanceTerminated key) :
    ∀ event ∈ xs.map f, event.Spares subs := by
  intro event hevent
  obtain ⟨x, -, rfl⟩ := List.mem_map.mp hevent
  exact .of_settles (h x).1 (h x).2.1 (h x).2.2

section Interruption

variable {s₀ : State} {todo : List MessageSubscription} {e : Engine}

theorem Awaits.spares_discardInstanceEvents (h : Awaits s₀ todo e.state) {child : Key}
    (hchild : ∀ sub ∈ todo, sub.instanceKey ≠ child) :
    ∀ event ∈ e.state.discardInstanceEvents child, event.Spares todo := by
  have hcancels := h.spares_messageCancels (p := (·.instanceKey == child)) fun sub hsub => by simp [hchild sub hsub]
  simp only [State.discardInstanceEvents, State.discardInstanceTokenEvents, List.mem_append, List.mem_singleton]
  rintro event ((((((hjob | htimer) | hmessage) | hsignal) | hconditional) | htask) | rfl)
  · exact spares_map (fun _ => ⟨rfl, rfl, fun _ => by simp⟩) event hjob
  · exact spares_map (fun _ => ⟨rfl, rfl, fun _ => by simp⟩) event htimer
  · exact hcancels event hmessage
  · exact spares_map (fun _ => ⟨rfl, rfl, fun _ => by simp⟩) event hsignal
  · exact spares_map (fun _ => ⟨rfl, rfl, fun _ => by simp⟩) event hconditional
  · exact spares_map (fun _ => ⟨rfl, rfl, fun _ => by simp⟩) event htask
  · exact ⟨rfl, by simp [Event.settles], fun sub hsub => by simpa using (hchild sub hsub).symm⟩

/-- The instance that an element instance has called. -/
theorem State.exists_of_callActivityChildOf {s : State} {eik child : Key} (h : s.callActivityChildOf eik = some child) :
    ∃ i ∈ s.instances.vals, i.key = child ∧ i.parentElementInstanceKey = some eik := by
  have hmem := List.mem_of_mem_head? h
  simp only [sortKeys, sortByKey, List.mem_insertionSort, List.mem_map, List.mem_filter, Bool.and_eq_true,
    beq_iff_eq] at hmem
  obtain ⟨i, ⟨hi, -, hparent⟩, hkey⟩ := hmem
  exact ⟨i, hi, hkey, hparent⟩

/-- An element instance that none of the subscriptions hangs on. -/
def State.Clear (s : State) (todo : List MessageSubscription) (eik : Key) : Prop :=
  (∀ sub ∈ todo, sub.elementInstanceKey ≠ eik) ∧
    ∀ i ∈ s.instances.vals, i.parentElementInstanceKey = some eik → ∀ sub ∈ todo, sub.instanceKey ≠ i.key

theorem Awaits.spares_discardCallee (h : Awaits s₀ todo e.state) {eik : Key}
    (hcalled : ∀ i ∈ e.state.instances.vals, i.parentElementInstanceKey = some eik → ∀ sub ∈ todo, sub.instanceKey ≠ i.key) :
    ∀ event ∈ (match e.state.callActivityChildOf eik with
      | some child => e.state.discardInstanceEvents child
      | none => []), event.Spares todo := by
  intro event hevent
  split at hevent
  · next child hchild =>
    obtain ⟨i, hi, rfl, hparent⟩ := State.exists_of_callActivityChildOf hchild
    exact h.spares_discardInstanceEvents (hcalled i hi hparent) event hevent
  · cases hevent

theorem spares_incidentResolutions (e : Engine) (instanceKey : Key) (incidents : List Incident) :
    ∀ event ∈ e.incidentResolutions instanceKey incidents, event.Spares todo :=
  spares_map fun _ => ⟨rfl, rfl, fun _ => by simp⟩

theorem spares_bodyRecordEvents (s : State) (instanceKey eik : Key) :
    ∀ event ∈ s.bodyRecordEvents instanceKey eik, event.Spares todo := by
  intro event hevent
  simp only [State.bodyRecordEvents, List.mem_append, List.mem_ite_nil_right, List.mem_singleton] at hevent
  rcases hevent with ⟨-, rfl⟩ | ⟨-, rfl⟩ <;> exact .of_settles rfl rfl fun _ => by simp

theorem Awaits.spares_descendantTeardownEvents (h : Awaits s₀ todo e.state) {instanceKey eik : Key}
    (hclear : e.state.Clear todo eik) : ∀ event ∈ e.descendantTeardownEvents instanceKey eik, event.Spares todo := by
  have hcancels := h.spares_messageCancels (p := (·.elementInstanceKey == eik)) fun sub hsub => by simp [hclear.1 sub hsub]
  have hplain : ∀ {event : Event}, event.tidies = true → event.settles = none →
      (∀ key, event ≠ .processInstanceTerminated key) → event.Spares todo := .of_settles
  simp only [Engine.descendantTeardownEvents, List.mem_append]
  rintro event ((((((((((hcallee | hjob) | htimer) | hmessage) | hsignal) | hconditional) | htask) | hincident) | hbody) |
    hjoin) | helement)
  · exact h.spares_discardCallee hclear.2 event hcallee
  · split at hjob
    · obtain rfl := List.mem_singleton.mp hjob
      exact hplain rfl rfl fun _ => by simp
    · cases hjob
  · exact spares_map (fun _ => ⟨rfl, rfl, fun _ => by simp⟩) event htimer
  · exact hcancels event hmessage
  · exact spares_map (fun _ => ⟨rfl, rfl, fun _ => by simp⟩) event hsignal
  · exact spares_map (fun _ => ⟨rfl, rfl, fun _ => by simp⟩) event hconditional
  · exact spares_map (fun _ => ⟨rfl, rfl, fun _ => by simp⟩) event htask
  · exact spares_incidentResolutions e _ _ event hincident
  · exact spares_bodyRecordEvents _ _ _ event hbody
  · split at hjoin
    · obtain rfl := List.mem_singleton.mp hjoin
      exact hplain rfl rfl fun _ => by simp
    · cases hjoin
  · simp only [List.mem_cons, List.not_mem_nil, or_false] at helement
    rcases helement with rfl | rfl <;> exact hplain rfl rfl fun _ => by simp

theorem Awaits.spares_scopeTeardownEvents (h : Awaits s₀ todo e.state) {instanceKey scope : Key}
    (hclear : ∀ eik ∈ e.state.scopeDescendants instanceKey scope, e.state.Clear todo eik) :
    ∀ event ∈ e.scopeTeardownEvents instanceKey scope, event.Spares todo := by
  intro event hevent
  simp only [Engine.scopeTeardownEvents, List.mem_append, List.mem_flatMap] at hevent
  rcases hevent with ⟨eik, heik, hevent⟩ | hevent
  · exact h.spares_descendantTeardownEvents (hclear eik heik) event hevent
  · split at hevent
    · cases hevent
    · simp only [List.mem_ite_nil_right, List.mem_singleton] at hevent
      rw [hevent.2]
      exact .of_settles rfl rfl fun _ => by simp

theorem spares_wrapped (event : Event) (h : Plan.ofAgent event = true) : event.Spares todo := by
  cases event <;> first | (cases h; done) | exact .of_settles rfl rfl nofun

namespace Plan

variable {α β : Type}

/-- Whatever the plan does, the subscriptions that are still to be worked off keep their records. -/
def KeepsWaiting (s₀ : State) (todo : List MessageSubscription) (p : Plan α) : Prop :=
  ∀ s : PlanState, Awaits s₀ todo s.engine.state → Awaits s₀ todo (p.run s).2.engine.state

namespace KeepsWaiting

theorem of_emits {p : Plan α} (hp : p.Emits (fun _ => True) (Event.Spares todo)) : p.KeepsWaiting s₀ todo := by
  intro s h
  obtain ⟨events, hlog, hevents⟩ := hp.log s fun _ _ _ => trivial
  rw [state_run hlog]
  exact h.applyAll hevents

theorem bind {p : Plan α} {f : α → Plan β} (hp : p.KeepsWaiting s₀ todo) (hf : ∀ a, (f a).KeepsWaiting s₀ todo) :
    (p >>= f).KeepsWaiting s₀ todo := by
  intro s h
  rw [run_bind]
  exact hf _ _ (hp s h)

/-- What is read is an engine in which they wait. -/
theorem self_bind {f : Engine → Plan β} (hf : ∀ e, Awaits s₀ todo e.state → (f e).KeepsWaiting s₀ todo) :
    (self >>= f).KeepsWaiting s₀ todo := fun s h => hf s.engine h s h

theorem emit {event : Event} (h : event.Spares todo) : (Plan.emit event).KeepsWaiting s₀ todo :=
  of_emits (emits_emit spares_wrapped h)

theorem emitAll {events : List Event} (h : ∀ event ∈ events, event.Spares todo) : (Plan.emitAll events).KeepsWaiting s₀ todo :=
  of_emits (emits_emitAll spares_wrapped h)

theorem cancelActiveJobOn {instanceKey eik : Key} : (Plan.cancelActiveJobOn instanceKey eik).KeepsWaiting s₀ todo := by
  refine self_bind fun e _ => ?_
  split
  · exact emit (.of_settles rfl rfl fun _ => by simp)
  · exact fun _ h => h

theorem discardAndTerminateInstance {child : Key} (hchild : ∀ sub ∈ todo, sub.instanceKey ≠ child) :
    (Plan.discardAndTerminateInstance child).KeepsWaiting s₀ todo :=
  self_bind fun _ h => emitAll (h.spares_discardInstanceEvents hchild)

theorem terminateSubprocessScope {instanceKey scope : Key} (hclear : ∀ e : Engine, Awaits s₀ todo e.state →
    ∀ eik ∈ e.state.scopeDescendants instanceKey scope, e.state.Clear todo eik) :
    (Plan.terminateSubprocessScope instanceKey scope).KeepsWaiting s₀ todo :=
  bind (fun _ h => h) fun _ => self_bind fun e h => emitAll (h.spares_scopeTeardownEvents (hclear e h))

theorem disarmBoundaries {eik : Key}
    (hboundary : ∀ sub ∈ todo, sub.elementInstanceKey = eik → sub.kind.isBoundary = false) :
    (Plan.disarmBoundaries eik).KeepsWaiting s₀ todo := by
  have hfalse : ∀ sub ∈ todo, (sub.elementInstanceKey == eik && sub.kind.isBoundary) = false := by
    intro sub hsub
    by_cases heik : sub.elementInstanceKey = eik
    · simp [hboundary sub hsub heik]
    · simp [heik]
  refine self_bind fun e _ => bind (emitAll (spares_map fun _ => ⟨rfl, rfl, fun _ => by simp⟩)) fun _ => ?_
  refine self_bind fun e h => bind (emitAll (h.spares_messageCancels hfalse)) fun _ => ?_
  refine self_bind fun e _ => bind (emitAll (spares_map fun _ => ⟨rfl, rfl, fun _ => by simp⟩)) fun _ => ?_
  exact self_bind fun e _ => emitAll (spares_map fun _ => ⟨rfl, rfl, fun _ => by simp⟩)

/-- An interruption by a correlation that withdraws none of the subscriptions. -/
theorem interruptActivityViaBoundary {sub : MessageSubscription} {boundaryElementId elementId : ElementId}
    (hkind : sub.kind = .interruptingBoundary boundaryElementId) (hapart : ∀ other ∈ todo, ¬ s₀.Withdraws sub other) :
    (Plan.interruptActivityViaBoundary sub.instanceKey sub.elementInstanceKey elementId).KeepsWaiting s₀ todo := by
  have hspare : ∀ {event : Event}, event.tidies = true → event.settles = none →
      (∀ key, event ≠ .processInstanceTerminated key) → (Plan.emit event).KeepsWaiting s₀ todo :=
    fun h hsettles hterminates => emit (.of_settles h hsettles hterminates)
  have hcalled : ∀ e : Engine, Awaits s₀ todo e.state → ∀ eik, e.state.Inside sub.instanceKey sub.elementInstanceKey eik →
      ∀ i ∈ e.state.instances.vals, i.parentElementInstanceKey = some eik → ∀ other ∈ todo, other.instanceKey ≠ i.key := by
    intro e h eik hinside i hi hparent other hother hkey
    exact hapart other hother (h.shrinks.withdraws ⟨⟨_, hkind⟩, .inr (.inr ⟨i, hi, hkey.symm, eik, hparent, hinside⟩)⟩)
  have hscope : (Plan.terminateSubprocessScope sub.instanceKey sub.elementInstanceKey).KeepsWaiting s₀ todo := by
    refine terminateSubprocessScope fun e h eik heik => ?_
    unfold State.scopeDescendants at heik
    split at heik
    · cases heik
    · next i hi =>
      have hbelow := i.below_of_mem_descendantsFrom (by simpa [sortKeys, sortByKey] using heik)
      refine ⟨fun other hother heq => ?_, hcalled e h eik (.inr ⟨i, hi, hbelow⟩)⟩
      exact hapart other hother (h.shrinks.withdraws ⟨⟨_, hkind⟩, .inr (.inl ⟨i, hi, heq ▸ hbelow⟩)⟩)
  have hend : (do
      Plan.emit (.elementCompleting sub.instanceKey sub.elementInstanceKey elementId)
      Plan.emit (.elementCompleted sub.instanceKey sub.elementInstanceKey elementId)
      Plan.disarmBoundaries sub.elementInstanceKey : Plan Unit).KeepsWaiting s₀ todo := by
    refine bind (hspare rfl rfl fun _ => by simp) fun _ => bind (hspare rfl rfl fun _ => by simp) fun _ => ?_
    refine disarmBoundaries fun other hother heq => ?_
    by_contra hboundary
    exact hapart other hother ⟨⟨_, hkind⟩, .inl ⟨heq, by simpa using hboundary⟩⟩
  refine self_bind fun e h => ?_
  dsimp only
  split
  · refine bind cancelActiveJobOn fun _ => self_bind fun e _ => ?_
    refine bind (emitAll (spares_incidentResolutions e _ _)) fun _ => ?_
    exact bind hscope fun _ => bind (hspare rfl rfl fun _ => by simp) fun _ => hend
  split
  · exact bind hscope fun _ => hend
  split
  · exact bind cancelActiveJobOn fun _ => bind hscope fun _ => bind (hspare rfl rfl fun _ => by simp) fun _ => hend
  split
  · next child hchild =>
    obtain ⟨i, hi, rfl, hparent⟩ := State.exists_of_callActivityChildOf hchild
    exact bind (discardAndTerminateInstance (hcalled e h _ (.inl rfl) i hi hparent)) fun _ => hend
  · exact bind cancelActiveJobOn fun _ => hend

theorem mergePayload {instanceKey eik : Key} {payload : Vars} :
    (Plan.mergePayload instanceKey eik payload).KeepsWaiting s₀ todo := by
  unfold Plan.mergePayload
  split
  · refine self_bind fun e _ => emitAll fun event hevent => ?_
    obtain ⟨entry, -, rfl⟩ := List.mem_map.mp hevent
    dsimp only
    split <;> exact .of_settles rfl rfl nofun
  · exact fun _ h => h

/-- A correlation here that withdraws none of the other subscriptions. -/
theorem advanceCorrelatedToken {sub : MessageSubscription} (messageKey : Key) (payload : Vars)
    (hdistinct : ∀ other ∈ todo, other.key ≠ sub.key) (hapart : ∀ other ∈ todo, ¬ s₀.Withdraws sub other) :
    (Plan.advanceCorrelatedToken sub.key messageKey sub.instanceKey sub.elementInstanceKey sub.elementId sub.kind
      payload).KeepsWaiting s₀ todo := by
  have hcorrelated : (Event.messageCorrelated sub.key messageKey sub.instanceKey sub.elementInstanceKey
      sub.elementId).Spares todo := by
    refine ⟨rfl, ?_, nofun⟩
    rintro key ⟨⟩ other hother
    exact hdistinct other hother
  refine bind (emit hcorrelated) fun _ => bind mergePayload fun _ => ?_
  unfold Plan.releaseToken
  split
  · exact fun _ h => h
  · next boundaryElementId hkind =>
    exact self_bind fun _ _ => bind (interruptActivityViaBoundary hkind hapart) fun _ => fun _ h => h
  · exact self_bind fun _ _ => fun _ h => h

end KeepsWaiting

end Plan

end Interruption

/-! ## The publish on one engine -/

/-- The subscription that an event correlates to. -/
def Event.claims : Event → Option Key
  | messageCorrelated subscriptionKey .. | remoteMessageCorrelation subscriptionKey .. => some subscriptionKey
  | _ => none

theorem Event.claims_of_origin {event : Event} (h : event.origin ≠ .message) : event.claims = none := by
  cases event <;> first | rfl | exact absurd rfl h

/-- The subscriptions that a log correlates to. -/
def claimed (log : List Event) : List Key := log.filterMap (·.claims)

/-- Plans that correlate nothing. -/
theorem claimed_of_within {α : Type} (os : List Origin) {p : Plan α} (hp : p.Within (fun _ => True) os) (hos : .message ∉ os)
    (s : PlanState) : claimed (p.run s).2.log = claimed s.log := by
  obtain ⟨events, hlog, hevents⟩ := hp.log s fun _ _ _ => trivial
  rw [hlog, claimed, List.filterMap_append]
  have hnone : events.filterMap (·.claims) = [] := by
    refine List.filterMap_eq_nil_iff.mpr fun event hevent => Event.claims_of_origin fun horigin => hos ?_
    simpa [horigin] using (hevents event hevent).origin
  rw [hnone, List.append_nil]
  rfl

/-- Plans that start nothing. -/
theorem startedProcesses_of_within {α : Type} (os : List Origin) {p : Plan α} (hp : p.Within (fun _ => True) os)
    (hstart : .start ∉ os) (hdispatch : .dispatch ∉ os) (s : PlanState) :
    startedProcesses (p.run s).2.log = startedProcesses s.log := by
  obtain ⟨events, hlog, hevents⟩ := hp.log s fun _ _ _ => trivial
  rw [hlog, startedProcesses, List.filterMap_append]
  have hnone : events.filterMap (·.started) = [] := by
    refine List.filterMap_eq_nil_iff.mpr fun event hevent => ?_
    have horigin := (hevents event hevent).origin
    exact started_of_origin (fun h => hstart (by simpa [h] using horigin)) fun h => hdispatch (by simpa [h] using horigin)
  rw [hnone, List.append_nil]
  rfl

/-- The open subscriptions that a message matches, in the order of their keys. -/
def State.matching (s : State) (messageName correlationKey : String) : List MessageSubscription :=
  sortByKey (·.key) (s.messageSubscriptions.vals.filter fun sub =>
    sub.state == .opened && sub.messageName == messageName && sub.correlationKey == correlationKey)

/-- The instance is on another partition, or not suspended. -/
def Engine.takes (e : Engine) (sub : MessageSubscription) : Bool :=
  partitionOf sub.instanceKey != e.partitionId || !e.state.instanceIsSuspended sub.instanceKey

/-- No correlation that is made here withdraws a subscription whose turn comes later. -/
def Engine.Undisturbed (e : Engine) (subs : List MessageSubscription) : Prop :=
  subs.Pairwise fun sub other => partitionOf sub.instanceKey = e.partitionId →
    e.state.instanceIsSuspended sub.instanceKey = false → ¬ e.state.Withdraws sub other

section Loop

variable {e : Engine} {s : PlanState} {sub : MessageSubscription} {todo : List MessageSubscription}

/-- One matched subscription: it claims the message, and is correlated unless its instance is suspended. -/
theorem correlateSubscription_spec (messageKey : Key) (vars : Vars) (h : Awaits e.state (sub :: todo) s.engine.state)
    (hpartition : s.engine.partitionId = e.partitionId) (hopened : sub.state = .opened)
    (hdistinct : ∀ other ∈ todo, other.key ≠ sub.key)
    (hapart : partitionOf sub.instanceKey = e.partitionId → e.state.instanceIsSuspended sub.instanceKey = false →
      ∀ other ∈ todo, ¬ e.state.Withdraws sub other) :
    ((correlateSubscription messageKey vars sub.key).run s).1 = true ∧
      Awaits e.state todo ((correlateSubscription messageKey vars sub.key).run s).2.engine.state ∧
      claimed ((correlateSubscription messageKey vars sub.key).run s).2.log =
        claimed s.log ++ if e.takes sub then [sub.key] else [] := by
  have hrest : Awaits e.state todo s.engine.state :=
    ⟨h.shrinks, h.keyed, fun other hother => h.kept other (by simp [hother]),
      fun other hother => h.suspended other (by simp [hother])⟩
  have hsuspended := h.suspended sub (by simp)
  have hfound : s.engine.state.messageSubscriptions[sub.key]?.filter (·.state == .opened) = some sub := by
    simp [h.kept sub (by simp), Option.filter, hopened]
  unfold correlateSubscription
  rw [Plan.run_bind]
  show (Plan.run _ s).1 = true ∧ Awaits _ _ (Plan.run _ s).2.engine.state ∧ claimed (Plan.run _ s).2.log = _
  have hself : (Plan.self.run s).1 = s.engine := rfl
  simp only [hself, hfound, hpartition, hsuspended]
  split
  · next hlocal =>
    cases hstands : e.state.instanceIsSuspended sub.instanceKey with
    | true =>
      have htakes : e.takes sub = false := by simp [Engine.takes, hlocal, hstands]
      rw [htakes]
      exact ⟨rfl, hrest, (List.append_nil _).symm⟩
    | false =>
      have htakes : e.takes sub = true := by simp [Engine.takes, hstands]
      rw [htakes]
      simp only [Bool.not_false, if_true, Plan.run_bind]
      refine ⟨rfl, ?_, ?_⟩
      · have hkeeps := Plan.KeepsWaiting.advanceCorrelatedToken messageKey vars hdistinct
          (hapart hlocal hstands)
        exact hkeeps s hrest
      · have hcalm : (Plan.mergePayload sub.instanceKey sub.elementInstanceKey vars >>= fun _ =>
            Plan.releaseToken sub.instanceKey sub.elementInstanceKey sub.elementId sub.kind).Within (fun _ => True) [] :=
          .bind Plan.calm_mergePayload fun _ => Plan.calm_releaseToken
        refine (claimed_of_within [] hcalm (by simp) (s.applyEvent (.messageCorrelated sub.key messageKey sub.instanceKey
          sub.elementInstanceKey sub.elementId))).trans ?_
        rw [PlanState.log_applyEvent, claimed, List.filterMap_append]
        rfl
  · next hremote =>
    have htakes : e.takes sub = true := by simp [Engine.takes, hremote]
    rw [htakes, if_pos rfl]
    let correlated := Event.remoteMessageCorrelation sub.key messageKey sub.instanceKey sub.elementInstanceKey sub.elementId
      sub.kind vars
    have hspares : correlated.Spares todo := by
      refine ⟨rfl, ?_, nofun⟩
      rintro key ⟨⟩ other hother
      exact hdistinct other hother
    refine ⟨rfl, ?_, ?_⟩
    · exact Plan.KeepsWaiting.emit hspares s hrest
    · show claimed (s.applyEvent correlated).log = _
      rw [PlanState.log_applyEvent, claimed, List.filterMap_append]
      rfl

/-- All of them, in their order. -/
theorem mapM_correlateSubscription_spec (messageKey : Key) (vars : Vars) (acc : List Bool)
    (h : Awaits e.state todo s.engine.state) (hpartition : s.engine.partitionId = e.partitionId)
    (hopened : ∀ sub ∈ todo, sub.state = .opened) (hdistinct : (todo.map (·.key)).Nodup) (hapart : e.Undisturbed todo) :
    let r := (List.mapM.loop (correlateSubscription messageKey vars) (todo.map (·.key)) acc).run s
    r.1.any id = (acc.any id || !todo.isEmpty) ∧ claimed r.2.log = claimed s.log ++ (todo.filter e.takes).map (·.key) := by
  induction todo generalizing s acc with
  | nil =>
    refine ⟨?_, (List.append_nil _).symm⟩
    show acc.reverse.any id = _
    simp
  | cons sub todo ih =>
    obtain ⟨hsub, hdistinct⟩ := List.nodup_cons.mp hdistinct
    obtain ⟨hfirst, hapart⟩ := List.pairwise_cons.mp hapart
    obtain ⟨htrue, hawaits, hclaimed⟩ := correlateSubscription_spec messageKey vars h hpartition
      (hopened sub (by simp)) (fun other hother heq => hsub (List.mem_map.mpr ⟨other, hother, heq⟩))
      (fun hlocal hstands other hother => hfirst other hother hlocal hstands)
    rw [List.map_cons, List.mapM.loop, Plan.run_bind]
    obtain ⟨hany, hrest⟩ := ih (_ :: acc) hawaits ((Plan.partitionId_run _ s).trans hpartition)
      (fun other hother => hopened other (by simp [hother])) hdistinct hapart
    refine ⟨hany.trans (by simp [htrue]), hrest.trans ?_⟩
    rw [hclaimed, List.filter_cons]
    cases e.takes sub <;> simp

end Loop

/-- What settles a command correlates nothing. -/
theorem claimed_settle [Feel] (fuel : Nat) (s : PlanState) : claimed ((Engine.settle fuel).run s).2.log = claimed s.log := by
  obtain ⟨events, hevents⟩ := Plan.inStretches_settle fuel s
  rw [hevents.log, claimed, List.filterMap_append]
  have hnone : events.filterMap (·.claims) = [] := by
    refine List.filterMap_eq_nil_iff.mpr fun event hevent => Event.claims_of_origin fun horigin => ?_
    have hrun := hevents.origin hevent
    simp [horigin] at hrun
  rw [hnone, List.append_nil]
  rfl

/-- The tables of message subscriptions and of message starts are keyed by their records. -/
structure State.SubscriptionsKeyed (s : State) : Prop where
  messages : ∀ (k : Key) (m : MessageSubscription), s.messageSubscriptions[k]? = some m → m.key = k
  starts : ∀ (name : String) (m : MessageStartSubscription), s.messageStartSubscriptions[name]? = some m → m.messageName = name

/-- The processes that a message starts. -/
def State.startsOf (s : State) (messageName : String) : List String :=
  s.messageStartSubscriptions[messageName]?.toList.map (·.processId)

section Publish

variable {s : PlanState} {messageName correlationKey : String}

theorem mem_matching {s : State} {sub : MessageSubscription} :
    sub ∈ s.matching messageName correlationKey ↔ sub ∈ s.messageSubscriptions.vals ∧
      (sub.state == .opened && sub.messageName == messageName && sub.correlationKey == correlationKey) = true := by
  simp [State.matching, sortByKey]

theorem sortKeys_map_key (subs : List MessageSubscription) :
    sortKeys (subs.map (·.key)) = (sortByKey (·.key) subs).map (·.key) := by
  have hmap := List.map_insertionSort (fun a b : MessageSubscription => a.key ≤ b.key) (fun a b : Key => a ≤ b) (·.key) subs
    fun _ _ _ _ => Iff.rfl
  exact hmap.symm

/-- The plan of a publish on an engine whose correlations do not disturb each other. -/
theorem correlateMessage_spec (vars : Vars) (hkeyed : s.engine.state.SubscriptionsKeyed)
    (hundisturbed : s.engine.Undisturbed (s.engine.state.matching messageName correlationKey)) :
    let log := ((correlateMessage messageName correlationKey vars).run s).2.log
    claimed log = claimed s.log ++ ((s.engine.state.matching messageName correlationKey).filter s.engine.takes).map (·.key) ∧
      startedProcesses log = startedProcesses s.log ++
        if (s.engine.state.matching messageName correlationKey).isEmpty then s.engine.state.startsOf messageName else [] := by
  let published := s.mint.2.applyEvent (.messagePublished s.mint.1 messageName correlationKey)
  have hstate : published.engine.state = s.engine.state := PlanState.state_applyEvent _ _
  have hpartition : published.engine.partitionId = s.engine.partitionId := PlanState.partitionId_applyEvent _ _
  have hlog : claimed published.log = claimed s.log ∧ startedProcesses published.log = startedProcesses s.log := by
    constructor
    · show claimed (PlanState.applyEvent _ _).log = _
      rw [PlanState.log_applyEvent, claimed, List.filterMap_append]
      exact List.append_nil _
    · show startedProcesses (PlanState.applyEvent _ _).log = _
      rw [PlanState.log_applyEvent, startedProcesses, List.filterMap_append]
      exact List.append_nil _
  have hsorted : sortKeys ((published.engine.state.messageSubscriptions.vals.filter fun sub =>
      sub.state == .opened && sub.messageName == messageName && sub.correlationKey == correlationKey).map (·.key)) =
      (s.engine.state.matching messageName correlationKey).map (·.key) := by
    rw [hstate]
    exact sortKeys_map_key _
  have hawaits : Awaits s.engine.state (s.engine.state.matching messageName correlationKey) published.engine.state := by
    rw [hstate]
    refine ⟨.refl _, hkeyed.messages, fun sub hsub => ?_, fun _ _ => rfl⟩
    obtain ⟨k, hk⟩ := Std.ExtTreeMap.mem_vals.mp (mem_matching.mp hsub).1
    rwa [hkeyed.messages k sub hk]
  have hopened : ∀ sub ∈ s.engine.state.matching messageName correlationKey, sub.state = .opened := by
    intro sub hsub
    have hmatch := (mem_matching.mp hsub).2
    simp only [Bool.and_eq_true, beq_iff_eq] at hmatch
    exact hmatch.1.1
  have hdistinct : ((s.engine.state.matching messageName correlationKey).map (·.key)).Nodup := by
    rw [← hsorted, hstate]
    exact nodup_sortKeys_vals hkeyed.messages _
  obtain ⟨hany, hclaimed⟩ := mapM_correlateSubscription_spec s.mint.1 vars [] hawaits hpartition
    hopened hdistinct hundisturbed
  have hloop : (List.mapM (correlateSubscription s.mint.1 vars)
      ((s.engine.state.matching messageName correlationKey).map (·.key))).Within (fun _ => True) [.message] :=
    Plan.emits_mapM fun _ _ => within_correlateSubscription
  constructor
  · rw [hlog.1] at hclaimed
    rw [run_correlateMessage, hsorted, Plan.run_bind, ← hclaimed]
    apply claimed_of_within [.dispatch, .start] ?_ (by simp)
    split
    · exact .bind Plan.emits_self fun _ => Plan.emits_forM fun _ _ => within_startOrDispatchInstance
    · exact Plan.emits_pure
  · cases hmatching : s.engine.state.matching messageName correlationKey with
    | nil =>
      have hnone : ∀ sub ∈ s.engine.state.messageSubscriptions.vals,
          (sub.state == .opened && sub.messageName == messageName && sub.correlationKey == correlationKey) = false := by
        intro sub hsub
        by_contra hmatch
        have hmem : sub ∈ s.engine.state.matching messageName correlationKey :=
          mem_matching.mpr ⟨hsub, Bool.eq_true_of_not_eq_false hmatch⟩
        rw [hmatching] at hmem
        cases hmem
      exact startedProcesses_correlateMessage hkeyed.starts hnone
    | cons first rest =>
      have hclaims : (((s.engine.state.matching messageName correlationKey).map (·.key)).mapM
          (correlateSubscription s.mint.1 vars) |>.run published).1.any id = true := hany.trans (by simp [hmatching])
      rw [run_correlateMessage, hsorted, Plan.run_bind, hclaims]
      exact (startedProcesses_of_within _ hloop (by simp) (by simp) published).trans
        (hlog.2.trans (List.append_nil _).symm)

end Publish

section Cluster

variable [Feel]

/-- The events of a publish on one engine: it correlates to what it takes of the matched subscriptions, and starts instances if
it has matched none. -/
theorem Engine.publish_spec {e : Engine} (messageName correlationKey : String) (hkeyed : e.state.SubscriptionsKeyed)
    (hundisturbed : e.Undisturbed (e.state.matching messageName correlationKey)) (fuel : Nat) (vars : Vars) (now : Nat) :
    let log := Engine.returned (e.applyCommandAt fuel (.correlateMessage messageName correlationKey vars) now).1
    claimed log = ((e.state.matching messageName correlationKey).filter e.takes).map (·.key) ∧
      startedProcesses log = if (e.state.matching messageName correlationKey).isEmpty then e.state.startsOf messageName else [] := by
  obtain ⟨hclaimed, hstarted⟩ := correlateMessage_spec (s := { engine := e.beginCommand now }) vars hkeyed
    hundisturbed
  exact ⟨(claimed_settle fuel _).trans hclaimed, (Engine.startedProcesses_settle fuel _).trans hstarted⟩

/-! ## The publish in a cluster -/

/-- `Topology` (`nano-server-runtime/src/cluster.rs`). -/
structure Topology where
  numPartitions : Nat
  numNodes : Nat

namespace Topology

def ownerOf (t : Topology) (partition : Nat) : Nat := partition % t.numNodes

/-- The partition of the open subscriptions of a correlation key. -/
def hashPartition (t : Topology) (correlationKey : String) : Nat := subscriptionPartition correlationKey t.numPartitions

/-- The partitions that can hold a matching subscription. -/
def targets (t : Topology) (correlationKey : String) : List Nat :=
  t.hashPartition correlationKey :: if t.hashPartition correlationKey ≠ 0 then [0] else []

/-- The nodes that a publish is sent on to. -/
def targetNodes (t : Topology) (correlationKey : String) (node : Nat) : List Nat :=
  ((dedupSorted ([t.ownerOf (t.hashPartition correlationKey), t.ownerOf 0].insertionSort (· ≤ ·))).filter (· != node))

end Topology

/-- A cluster at the time of a publish: of each partition, the engine that the publish finds there. Open subscriptions are on
the partition of their correlation key, and message starts on partition 0. -/
structure Cluster where
  topology : Topology
  engines : Nat → Engine
  partition : ∀ p, (engines p).partitionId = p
  numPartitions : ∀ p, (engines p).numPartitions = topology.numPartitions
  keyed : ∀ p, (engines p).state.SubscriptionsKeyed
  placed : ∀ p, ∀ sub ∈ (engines p).state.messageSubscriptions.vals, sub.state = .opened →
    topology.hashPartition sub.correlationKey = p
  startsPlaced : ∀ p, p ≠ 0 → ∀ messageName, (engines p).state.startsOf messageName = []

namespace Cluster

variable (c : Cluster) (fuel : Nat) (messageName correlationKey : String) (vars : Vars) (now : Nat)

/-- What the publish does on one partition. -/
def publishOn (p : Nat) : List Event :=
  Engine.returned ((c.engines p).applyCommandAt fuel (.correlateMessage messageName correlationKey vars) now).1

/-- `correlate_message_everywhere`: the target partitions that the node owns. -/
def correlateMessageEverywhere (node : Nat) : List Event :=
  ((c.topology.targets correlationKey).filter (c.topology.ownerOf · == node)).flatMap
    (c.publishOn fuel messageName correlationKey vars now)

/-- `correlate_message_cluster`: the node itself, then the other owners of the target partitions. -/
def correlateMessageCluster (node : Nat) : List Event :=
  c.correlateMessageEverywhere fuel messageName correlationKey vars now node ++
    (c.topology.targetNodes correlationKey node).flatMap (c.correlateMessageEverywhere fuel messageName correlationKey vars now)

/-- Whichever node takes it, each target partition handles the message once. -/
theorem correlateMessageCluster_perm (node : Nat) :
    (c.correlateMessageCluster fuel messageName correlationKey vars now node).Perm
      ((c.topology.targets correlationKey).flatMap (c.publishOn fuel messageName correlationKey vars now)) := by
  unfold correlateMessageCluster correlateMessageEverywhere Topology.targetNodes Topology.targets
  generalize c.publishOn fuel messageName correlationKey vars now = publish
  generalize c.topology.hashPartition correlationKey = hash
  by_cases hzero : hash = 0
  · subst hzero
    by_cases howner : c.topology.ownerOf 0 = node
    · simp [howner, dedupSorted, List.insertionSort]
    · simp [howner, dedupSorted, List.insertionSort]
  · by_cases hsame : c.topology.ownerOf hash = c.topology.ownerOf 0
    · by_cases howner : c.topology.ownerOf 0 = node
      · simp [hzero, hsame, howner, dedupSorted, List.insertionSort]
      · simp [hzero, hsame, howner, dedupSorted, List.insertionSort]
    · have hsame' : ¬ c.topology.ownerOf 0 = c.topology.ownerOf hash := fun heq => hsame heq.symm
      by_cases hle : c.topology.ownerOf hash ≤ c.topology.ownerOf 0
      · by_cases hfirst : c.topology.ownerOf hash = node
        · subst hfirst
          simp [hzero, hsame, hsame', hle, dedupSorted, List.insertionSort]
        · by_cases hsecond : c.topology.ownerOf 0 = node
          · subst hsecond
            simp [hzero, hsame, hsame', hle, dedupSorted, List.insertionSort, List.perm_append_comm]
          · simp [hzero, hsame, hsame', hfirst, hsecond, hle, dedupSorted, List.insertionSort]
      · by_cases hfirst : c.topology.ownerOf hash = node
        · subst hfirst
          simp [hzero, hsame, hsame', hle, dedupSorted, List.insertionSort]
        · by_cases hsecond : c.topology.ownerOf 0 = node
          · subst hsecond
            simp [hzero, hsame, hsame', hle, dedupSorted, List.insertionSort, List.perm_append_comm]
          · simp [hzero, hsame, hsame', hfirst, hsecond, hle, dedupSorted, List.insertionSort, List.perm_append_comm]

/-- What the cluster does: it correlates to what the hash partition takes of its matches, and starts instances unless there are
matches on partition 0 itself. -/
theorem correlateMessageCluster_spec (node : Nat)
    (hundisturbed : (c.engines (c.topology.hashPartition correlationKey)).Undisturbed
      ((c.engines (c.topology.hashPartition correlationKey)).state.matching messageName correlationKey)) :
    let hash := c.topology.hashPartition correlationKey
    let log := c.correlateMessageCluster fuel messageName correlationKey vars now node
    (claimed log).Perm ((((c.engines hash).state.matching messageName correlationKey).filter (c.engines hash).takes).map (·.key)) ∧
      (startedProcesses log).Perm (if hash = 0 ∧ (c.engines hash).state.matching messageName correlationKey ≠ [] then []
        else (c.engines 0).state.startsOf messageName) := by
  intro hash log
  have hperm := c.correlateMessageCluster_perm fuel messageName correlationKey vars now node
  obtain ⟨hclaimed, hstarted⟩ := Engine.publish_spec messageName correlationKey (c.keyed hash) hundisturbed fuel vars now
  have hclaimedPerm : (claimed log).Perm (claimed ((c.topology.targets correlationKey).flatMap
    (c.publishOn fuel messageName correlationKey vars now))) := hperm.filterMap _
  have hstartedPerm : (startedProcesses log).Perm (startedProcesses ((c.topology.targets correlationKey).flatMap
    (c.publishOn fuel messageName correlationKey vars now))) := hperm.filterMap _
  by_cases hzero : hash = 0
  · have htargets : c.topology.targets correlationKey = [hash] := by simp [Topology.targets, hash, hzero]
    rw [htargets, List.flatMap_singleton] at hclaimedPerm hstartedPerm
    refine ⟨hclaimedPerm.trans (.of_eq hclaimed), hstartedPerm.trans (.of_eq (hstarted.trans ?_))⟩
    cases hmatching : (c.engines hash).state.matching messageName correlationKey with
    | nil => simp [hzero]
    | cons sub rest => simp [hzero]
  · have htargets : c.topology.targets correlationKey = [hash, 0] := by simp [Topology.targets, hash, hzero]
    have hnone : (c.engines 0).state.matching messageName correlationKey = [] := by
      refine List.eq_nil_iff_forall_not_mem.mpr fun sub hsub => hzero ?_
      have hmatch := (mem_matching.mp hsub).2
      simp only [Bool.and_eq_true, beq_iff_eq] at hmatch
      have hplaced := c.placed 0 sub (mem_matching.mp hsub).1 hmatch.1.1
      rwa [hmatch.2] at hplaced
    obtain ⟨hclaimedZero, hstartedZero⟩ := Engine.publish_spec messageName correlationKey (c.keyed 0) (by rw [hnone]; exact .nil) fuel vars now
    rw [hnone] at hclaimedZero hstartedZero
    rw [htargets, List.flatMap_cons, List.flatMap_singleton] at hclaimedPerm hstartedPerm
    refine ⟨hclaimedPerm.trans (.of_eq ?_), hstartedPerm.trans (.of_eq ?_)⟩
    · have hpair := congrArg₂ (· ++ ·) hclaimed hclaimedZero
      exact List.filterMap_append.trans (hpair.trans (List.append_nil _))
    · have hnothing : startedProcesses (c.publishOn fuel messageName correlationKey vars now hash) = [] := by
        refine hstarted.trans ?_
        rw [c.startsPlaced hash hzero messageName, ite_self]
      have hpair := congrArg₂ (· ++ ·) hnothing hstartedZero
      exact List.filterMap_append.trans (hpair.trans (by simp [hzero]))

/-- One engine holds the subscriptions of the cluster, under other keys: the open ones that the message matches, in the same
order, with all instances on this partition and suspended where they are in the cluster, and the message starts. -/
structure HeldBy (single : Engine) (rename : Key → Key) : Prop where
  keyed : single.state.SubscriptionsKeyed
  matching : List.Forall₂ (fun held sub => held.key = rename sub.key ∧ partitionOf held.instanceKey = single.partitionId ∧
      single.state.instanceIsSuspended held.instanceKey =
        (c.engines (partitionOf sub.instanceKey)).state.instanceIsSuspended sub.instanceKey)
    (single.state.matching messageName correlationKey)
    ((c.engines (c.topology.hashPartition correlationKey)).state.matching messageName correlationKey)
  starts : single.state.startsOf messageName = (c.engines 0).state.startsOf messageName

end Cluster

/-- A publish to the cluster and one to a single engine correlate to the same subscriptions and start instances of the same
processes, and the cluster does not do both. -/
structure SameOutcome (rename : Key → Key) (cluster single : List Event) : Prop where
  correlated : (claimed single).Perm ((claimed cluster).map rename)
  started : (startedProcesses cluster).Perm (startedProcesses single)
  neverBoth : claimed cluster = [] ∨ startedProcesses cluster = []

omit [Feel] in
/-- Of two lists that correspond, one is filtered by less. -/
theorem length_filter_le {α β : Type} {R : α → β → Prop} {p : α → Bool} {q : β → Bool} (hpq : ∀ a b, R a b → p a = true → q b = true)
    {xs : List α} {ys : List β} (h : List.Forall₂ R xs ys) : (xs.filter p).length ≤ (ys.filter q).length := by
  induction h with
  | nil => exact Nat.le_refl _
  | @cons a b xs ys hab _ ih =>
    rw [List.filter_cons, List.filter_cons]
    split
    · next ha =>
      rw [if_pos (hpq a b hab ha)]
      exact Nat.succ_le_succ ih
    · split
      · exact Nat.le_succ_of_le ih
      · exact ih

omit [Feel] in
/-- Where the filtered lists are equally long, the filters agree. -/
theorem agree_of_length_filter {α β : Type} {R : α → β → Prop} {p : α → Bool} {q : β → Bool}
    (hpq : ∀ a b, R a b → p a = true → q b = true) {xs : List α} {ys : List β} (h : List.Forall₂ R xs ys)
    (hlength : (xs.filter p).length = (ys.filter q).length) : List.Forall₂ (fun a b => R a b ∧ p a = q b) xs ys := by
  induction h with
  | nil => exact .nil
  | @cons a b xs ys hab hrest ih =>
    have hle := length_filter_le hpq hrest
    rw [List.filter_cons, List.filter_cons] at hlength
    have himp := hpq a b hab
    cases ha : p a with
    | true =>
      rw [ha, himp ha] at hlength
      exact .cons ⟨hab, by rw [ha, himp ha]⟩ (ih (by simpa using hlength))
    | false =>
      cases hb : q b with
      | true =>
        rw [ha, hb] at hlength
        simp only [Bool.false_eq_true, if_false, if_true, List.length_cons] at hlength
        omega
      | false =>
        rw [ha, hb] at hlength
        exact .cons ⟨hab, by rw [ha, hb]⟩ (ih (by simpa using hlength))

omit [Feel] in
theorem exists_of_forall₂ {α β : Type} {R : α → β → Prop} {xs : List α} {ys : List β} (h : List.Forall₂ R xs ys) {y : β}
    (hy : y ∈ ys) : ∃ x ∈ xs, R x y := by
  induction h with
  | nil => cases hy
  | @cons a b xs ys hab _ ih =>
    rcases List.mem_cons.mp hy with rfl | hy
    · exact ⟨a, by simp, hab⟩
    · obtain ⟨x, hx, hxy⟩ := ih hy
      exact ⟨x, by simp [hx], hxy⟩

omit [Feel] in
/-- Filters that agree leave lists that correspond. -/
theorem map_filter_eq {α β γ : Type} {R : α → β → Prop} {p : α → Bool} {q : β → Bool} {f : α → γ} {g : β → γ}
    (hfg : ∀ a b, R a b → f a = g b) {xs : List α} {ys : List β} (h : List.Forall₂ (fun a b => R a b ∧ p a = q b) xs ys) :
    (xs.filter p).map f = (ys.filter q).map g := by
  induction h with
  | nil => rfl
  | @cons a b xs ys hab _ ih =>
    rw [List.filter_cons, List.filter_cons, hab.2]
    split
    · simp [ih, hfg a b hab.1]
    · exact ih

namespace Cluster

variable {c : Cluster} {messageName correlationKey : String} {single : Engine} {rename : Key → Key}

omit [Feel] in
/-- A matched subscription is taken by the one engine as it is on its partition, unless that partition does not see that the
instance is suspended. -/
theorem takes_iff {held sub : MessageSubscription} (hlocal : partitionOf held.instanceKey = single.partitionId)
    (hstands : single.state.instanceIsSuspended held.instanceKey =
      (c.engines (partitionOf sub.instanceKey)).state.instanceIsSuspended sub.instanceKey) (p : Nat) :
    (single.takes held = true → (c.engines p).takes sub = true) ∧ (single.takes held = (c.engines p).takes sub ↔
      (partitionOf sub.instanceKey ≠ p →
        (c.engines (partitionOf sub.instanceKey)).state.instanceIsSuspended sub.instanceKey = false)) := by
  unfold Engine.takes
  rw [hlocal, hstands, c.partition p]
  by_cases hp : partitionOf sub.instanceKey = p
  · subst hp
    simp
  · cases (c.engines (partitionOf sub.instanceKey)).state.instanceIsSuspended sub.instanceKey <;> simp [hp]

omit [Feel] in
theorem takes_agree {p : Nat} {heldSubs subs : List MessageSubscription}
    (h : List.Forall₂ (fun held sub => held.key = rename sub.key ∧ partitionOf held.instanceKey = single.partitionId ∧
      single.state.instanceIsSuspended held.instanceKey =
        (c.engines (partitionOf sub.instanceKey)).state.instanceIsSuspended sub.instanceKey) heldSubs subs)
    (hremote : ∀ sub ∈ subs, partitionOf sub.instanceKey ≠ p →
      (c.engines (partitionOf sub.instanceKey)).state.instanceIsSuspended sub.instanceKey = false) :
    List.Forall₂ (fun held sub => held.key = rename sub.key ∧ single.takes held = (c.engines p).takes sub) heldSubs subs := by
  induction h with
  | nil => exact .nil
  | @cons held sub heldSubs subs hR _ ih =>
    have htakes := (takes_iff hR.2.1 hR.2.2 p).2.mpr (hremote sub (by simp))
    exact .cons ⟨hR.1, htakes⟩ (ih fun other hother => hremote other (by simp [hother]))

end Cluster

/-- For every cluster, whichever node a message is published at, and every engine that holds the same subscriptions, where no
correlation withdraws a matched subscription before its turn: the outcomes are the same if and only if no matched instance of
another partition is suspended, and the key hashes to partition 0, or nothing matches, or there is nothing to start. -/
theorem correlateMessageCluster_transparent_iff (c : Cluster) (single : Engine) (rename : Key → Key) (fuel : Nat)
    (messageName correlationKey : String) (vars : Vars) (now node : Nat)
    (hheld : c.HeldBy messageName correlationKey single rename)
    (hcluster : (c.engines (c.topology.hashPartition correlationKey)).Undisturbed
      ((c.engines (c.topology.hashPartition correlationKey)).state.matching messageName correlationKey))
    (hsingle : single.Undisturbed (single.state.matching messageName correlationKey)) :
    SameOutcome rename (c.correlateMessageCluster fuel messageName correlationKey vars now node)
        (Engine.returned (single.applyCommandAt fuel (.correlateMessage messageName correlationKey vars) now).1) ↔
      (∀ sub ∈ (c.engines (c.topology.hashPartition correlationKey)).state.matching messageName correlationKey,
        partitionOf sub.instanceKey ≠ c.topology.hashPartition correlationKey →
        (c.engines (partitionOf sub.instanceKey)).state.instanceIsSuspended sub.instanceKey = false) ∧
      (c.topology.hashPartition correlationKey = 0 ∨
        (c.engines (c.topology.hashPartition correlationKey)).state.matching messageName correlationKey = [] ∨
        (c.engines 0).state.startsOf messageName = []) := by
  obtain ⟨hclaimed, hstarted⟩ := c.correlateMessageCluster_spec fuel messageName correlationKey vars now node hcluster
  obtain ⟨hclaimedSingle, hstartedSingle⟩ := Engine.publish_spec messageName correlationKey hheld.keyed hsingle fuel vars now
  have hmatching := hheld.matching
  rw [hheld.starts] at hstartedSingle
  generalize hhash : c.topology.hashPartition correlationKey = hash at *
  generalize hsubs : (c.engines hash).state.matching messageName correlationKey = subs at *
  generalize hheldSubs : single.state.matching messageName correlationKey = heldSubs at *
  have hempty : heldSubs.isEmpty = subs.isEmpty := by
    cases hmatching <;> rfl
  constructor
  · intro h
    constructor
    · have hlength : (heldSubs.filter single.takes).length = (subs.filter (c.engines hash).takes).length := by
        have hperm := (hclaimedSingle ▸ h.correlated).trans (hclaimed.map rename)
        simpa using hperm.length_eq
      have hagree := agree_of_length_filter (fun held sub hR => (Cluster.takes_iff hR.2.1 hR.2.2 hash).1) hmatching hlength
      intro sub hsub
      obtain ⟨held, -, hR, htakes⟩ := exists_of_forall₂ hagree hsub
      exact (Cluster.takes_iff hR.2.1 hR.2.2 hash).2.mp htakes
    · by_contra hnot
      obtain ⟨hne, hrest⟩ := not_or.mp hnot
      obtain ⟨hsome, hstarts⟩ := not_or.mp hrest
      have hperm := hstarted.symm.trans h.started
      rw [hstartedSingle, hempty, if_neg (by simp [hne]), if_neg (by simpa using hsome)] at hperm
      exact hstarts hperm.eq_nil
  · rintro ⟨hremote, hcases⟩
    refine ⟨?_, ?_, ?_⟩
    · rw [hclaimedSingle, map_filter_eq (fun _ _ hR => hR) (Cluster.takes_agree hmatching hremote)]
      have hperm := (hclaimed.map rename).symm
      rw [List.map_map] at hperm
      exact hperm
    · rw [hstartedSingle, hempty]
      refine hstarted.trans (.of_eq ?_)
      rcases hcases with rfl | rfl | hstarts
      · cases subs <;> simp
      · simp
      · simp [hstarts]
    · rcases hcases with rfl | rfl | hstarts
      · cases subs with
        | nil => exact .inl (List.perm_nil.mp hclaimed)
        | cons sub rest => exact .inr (List.perm_nil.mp (by simpa using hstarted))
      · exact .inl (List.perm_nil.mp hclaimed)
      · exact .inr (List.perm_nil.mp (by simpa [hstarts] using hstarted))

end Cluster

/-! ## A cluster of two partitions -/

/-- An instance of partition 0 waits for its payment. -/
def paymentCatch : MessageSubscription := ⟨8, 5, 6, "await", "paid", "order-1", .opened, .intermediateCatch⟩

def Engine.withCatch (e : Engine) : Engine :=
  { e with state := { e.state with messageSubscriptions := (∅ : KeyMap MessageSubscription).insert 8 paymentCatch } }

/-- A process is started by the message. -/
def Engine.withStart (messageName : String) (e : Engine) : Engine :=
  { e with state := { e.state with
    messageStartSubscriptions := (∅ : StrMap MessageStartSubscription).insert messageName ⟨3, "order", messageName, "start"⟩ } }

theorem Engine.keyed_withPartition (p : Nat) : (withPartition p).state.SubscriptionsKeyed :=
  ⟨fun _ _ hm => absurd (hm.symm.trans Std.ExtTreeMap.getElem?_empty) (by simp),
    fun _ _ hm => absurd (hm.symm.trans Std.ExtTreeMap.getElem?_empty) (by simp)⟩

theorem Engine.keyed_withCatch {e : Engine} (h : e.state.SubscriptionsKeyed) : e.withCatch.state.SubscriptionsKeyed := by
  refine ⟨fun k m hm => ?_, h.starts⟩
  simp only [withCatch, Std.ExtTreeMap.getElem?_insert, Std.LawfulEqCmp.compare_eq_iff_eq] at hm
  split at hm
  · next heq => exact (Option.some.inj hm) ▸ heq
  · exact absurd (hm.symm.trans Std.ExtTreeMap.getElem?_empty) (by simp)

theorem Engine.keyed_withStart {e : Engine} (h : e.state.SubscriptionsKeyed) (messageName : String) :
    (e.withStart messageName).state.SubscriptionsKeyed := by
  refine ⟨h.messages, fun k m hm => ?_⟩
  simp only [withStart, Std.ExtTreeMap.getElem?_insert, Std.LawfulEqCmp.compare_eq_iff_eq] at hm
  split at hm
  · next heq => exact (Option.some.inj hm) ▸ heq
  · exact absurd (hm.symm.trans Std.ExtTreeMap.getElem?_empty) (by simp)

theorem Engine.mem_vals_withCatch {e : Engine} {sub : MessageSubscription}
    (h : sub ∈ e.withCatch.state.messageSubscriptions.vals) : sub = paymentCatch := by
  obtain ⟨k, hk⟩ := Std.ExtTreeMap.mem_vals.mp h
  simp only [withCatch, Std.ExtTreeMap.getElem?_insert] at hk
  split at hk
  · exact (Option.some.inj hk).symm
  · exact absurd (hk.symm.trans Std.ExtTreeMap.getElem?_empty) (by simp)

theorem State.startsOf_of_empty {s : State} (h : s.messageStartSubscriptions = ∅) (messageName : String) :
    s.startsOf messageName = [] := by
  unfold State.startsOf
  rw [h, Std.ExtTreeMap.getElem?_empty]
  rfl

/-- The catch is open on partition 1, and a message starts a process on partition 0. -/
def twoPartitions (messageName : String) : Cluster where
  topology := ⟨2, 2⟩
  engines
    | 0 => ((Engine.withPartition 0).setNumPartitions 2).withStart messageName
    | 1 => ((Engine.withPartition 1).setNumPartitions 2).withCatch
    | p + 2 => (Engine.withPartition (p + 2)).setNumPartitions 2
  partition
    | 0 | 1 | _ + 2 => rfl
  numPartitions
    | 0 | 1 | _ + 2 => rfl
  keyed
    | 0 => Engine.keyed_withStart (Engine.keyed_withPartition 0) messageName
    | 1 => Engine.keyed_withCatch (Engine.keyed_withPartition 1)
    | p + 2 => Engine.keyed_withPartition (p + 2)
  placed
    | 1, sub, hsub, _ => by
      rw [Engine.mem_vals_withCatch hsub]
      decide +kernel
    | 0, sub, hsub, _ | p + 2, sub, hsub, _ => by
      obtain ⟨k, hk⟩ := Std.ExtTreeMap.mem_vals.mp hsub
      exact absurd (hk.symm.trans Std.ExtTreeMap.getElem?_empty) (by simp)
  startsPlaced
    | 1, _, name | _ + 2, _, name => State.startsOf_of_empty rfl name

/-- The single engine with the same subscriptions. -/
def oneEngine (messageName : String) : Engine := (Engine.new.withCatch).withStart messageName

theorem hashPartition_twoPartitions (messageName : String) :
    (twoPartitions messageName).topology.hashPartition "order-1" = 1 := by
  show subscriptionPartition "order-1" 2 = 1
  decide +kernel

theorem matching_twoPartitions (messageName : String) :
    ((twoPartitions messageName).engines 1).state.matching "paid" "order-1" = [paymentCatch] := by
  show ((Engine.withPartition 1).setNumPartitions 2).withCatch.state.matching "paid" "order-1" = _
  decide +kernel

theorem matching_oneEngine (messageName : String) : (oneEngine messageName).state.matching "paid" "order-1" = [paymentCatch] := by
  show Engine.new.withCatch.state.matching "paid" "order-1" = _
  decide +kernel

theorem heldBy_oneEngine (messageName : String) :
    (twoPartitions messageName).HeldBy "paid" "order-1" (oneEngine messageName) id := by
  refine ⟨Engine.keyed_withStart (Engine.keyed_withCatch (Engine.keyed_withPartition 0)) messageName, ?_, rfl⟩
  rw [hashPartition_twoPartitions, matching_twoPartitions, matching_oneEngine]
  exact .cons ⟨rfl, rfl, rfl⟩ .nil

theorem undisturbed_twoPartitions (messageName : String) :
    ((twoPartitions messageName).engines ((twoPartitions messageName).topology.hashPartition "order-1")).Undisturbed
      (((twoPartitions messageName).engines ((twoPartitions messageName).topology.hashPartition "order-1")).state.matching
        "paid" "order-1") := by
  rw [hashPartition_twoPartitions, matching_twoPartitions]
  exact List.pairwise_singleton _ _

/-- A message that starts nothing reaches the waiting instance as it would on one engine. -/
theorem payment_transparent :
    letI := Feel.refusing
    SameOutcome id ((twoPartitions "placed").correlateMessageCluster 40 "paid" "order-1" ∅ 0 0)
      (Engine.returned ((oneEngine "placed").applyCommandAt 40 (.correlateMessage "paid" "order-1" ∅) 0).1) := by
  let _ := Feel.refusing
  have hsingle : (oneEngine "placed").Undisturbed ((oneEngine "placed").state.matching "paid" "order-1") := by
    rw [matching_oneEngine]
    exact List.pairwise_singleton _ _
  refine (correlateMessageCluster_transparent_iff (twoPartitions "placed") (oneEngine "placed") id 40 "paid" "order-1" ∅ 0 0
    (heldBy_oneEngine "placed") (undisturbed_twoPartitions "placed") hsingle).mpr ⟨?_, .inr (.inr (by decide +kernel))⟩
  rw [hashPartition_twoPartitions, matching_twoPartitions]
  rintro sub hsub -
  obtain rfl := List.mem_singleton.mp hsub
  rfl

/-- A message that starts a process too does both in the cluster. -/
theorem payment_starts_and_correlates :
    letI := Feel.refusing
    (twoPartitions "paid").HeldBy "paid" "order-1" (oneEngine "paid") id ∧
    ¬ SameOutcome id ((twoPartitions "paid").correlateMessageCluster 40 "paid" "order-1" ∅ 0 0)
      (Engine.returned ((oneEngine "paid").applyCommandAt 40 (.correlateMessage "paid" "order-1" ∅) 0).1) := by
  let _ := Feel.refusing
  refine ⟨heldBy_oneEngine "paid", fun h => ?_⟩
  obtain ⟨hclaimed, hstarted⟩ := (twoPartitions "paid").correlateMessageCluster_spec 40 "paid" "order-1" ∅ 0 0
    (undisturbed_twoPartitions "paid")
  rw [hashPartition_twoPartitions, matching_twoPartitions] at hclaimed
  rw [hashPartition_twoPartitions, if_neg (by simp)] at hstarted
  rcases h.neverBoth with hnone | hnone
  · rw [hnone] at hclaimed
    exact absurd hclaimed.length_eq (by decide)
  · rw [hnone] at hstarted
    exact absurd hstarted.length_eq (by decide)

end NanoBpm
