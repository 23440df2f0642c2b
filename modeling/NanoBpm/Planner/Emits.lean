import NanoBpm.Planner.Sound
import NanoBpm.Planner.Footprint

/-!
# What a plan may emit

The plan of a command emits no event that counts or consumes a join's token, and neither do the sweeps between two
drains, but for the flows out of a drained sub-process. So whatever a run does to the tokens of a join, it does in a
turn of the drain loop or in that sweep.
-/

namespace NanoBpm

namespace PlanState

@[simp] theorem log_applyEvent (s : PlanState) (event : Event) : (s.applyEvent event).log = s.log ++ [event] := rfl

@[simp] theorem state_applyEvent (s : PlanState) (event : Event) :
    (s.applyEvent event).engine.state = apply s.engine.state event := by
  obtain ⟨dirty, forgotten, htrack⟩ := trackVars_eq s.engine event
  simp only [applyEvent, htrack]

@[simp] theorem nextLocal_applyEvent (s : PlanState) (event : Event) :
    (s.applyEvent event).engine.nextLocal = s.engine.nextLocal := by
  obtain ⟨dirty, forgotten, htrack⟩ := trackVars_eq s.engine event
  simp only [applyEvent, htrack]

@[simp] theorem partitionId_applyEvent (s : PlanState) (event : Event) :
    (s.applyEvent event).engine.partitionId = s.engine.partitionId := by
  obtain ⟨dirty, forgotten, htrack⟩ := trackVars_eq s.engine event
  simp only [applyEvent, htrack]

end PlanState

namespace Plan

variable {α : Type}

/-- The key counter only grows. -/
theorem nextLocal_le_run (p : Plan α) (s : PlanState) : s.engine.nextLocal ≤ (p.run s).2.engine.nextLocal := by
  induction p generalizing s with
  | pure a => exact Nat.le_refl _
  | read k ih => exact ih s s
  | mint k ih => exact Nat.le_of_succ_le (ih s.mint.1 s.mint.2)
  | tearDown scope k ih => exact ih (s.markTornDown scope)
  | apply event k ih => exact (s.nextLocal_applyEvent event).symm.le.trans (ih (s.applyEvent event))
  | push step k ih => exact ih (s.pushStep step)
  | pop k ih => exact ih s.popStep.1 s.popStep.2
  | dispatch k ih => exact ih s.advanceDispatch.1 s.advanceDispatch.2

end Plan

/-- What holds of every result holds of the one a plan goes on with. -/
theorem StepM.All.run {α : Type} {F : Key → Prop} {P : α → Prop} {m : StepM α} (h : m.All F P) (s : PlanState)
    (hF : ∀ n, s.engine.nextLocal ≤ n → n < ((Plan.ofStepM m).run s).2.engine.nextLocal →
      F (Engine.mintedKey s.engine.partitionId n)) :
    P ((Plan.ofStepM m).run s).1 := by
  induction m generalizing s with
  | pure a => exact h
  | mint k ih =>
    have hfirst : F s.mint.1 := hF _ (Nat.le_refl _) (Plan.nextLocal_le_run (Plan.ofStepM (k s.mint.1)) s.mint.2)
    exact ih _ (h _ hfirst) s.mint.2 fun n hn => hF n (Nat.le_of_succ_le hn)
  | tearDown scope k ih => exact ih h (s.markTornDown scope) hF

namespace Plan

variable {α β : Type} {F : Key → Prop} {P : Event → Prop}

/-- There are keys to mint. -/
class Mints (F : Key → Prop) : Prop where
  exists_key : ∃ key, F key

instance : Mints fun _ => True := ⟨0, trivial⟩

/-- Whatever a plan reads, and whatever keys with `F` it mints, it leaves the queue's head alone and the events it
applies satisfy `P`. With no such keys the plan mints none. -/
def Emits (F : Key → Prop) (P : Event → Prop) : Plan α → Prop
  | .pure _ => True
  | .read k => ∀ s, (k s).Emits F P
  | .mint k => Mints F ∧ ∀ key, F key → (k key).Emits F P
  | .tearDown _ k => k.Emits F P
  | .apply event k => P event ∧ k.Emits F P
  | .push _ k => k.Emits F P
  | .pop _ => False
  | .dispatch k => ∀ n, (k n).Emits F P

theorem Emits.bind {p : Plan α} {f : α → Plan β} (hp : p.Emits F P) (hf : ∀ a, (f a).Emits F P) : (p >>= f).Emits F P := by
  show (Plan.bind p f).Emits F P
  induction p with
  | pure a => exact hf a
  | read k ih => exact fun s => ih s (hp s)
  | mint k ih => exact ⟨hp.1, fun key hkey => ih key (hp.2 key hkey)⟩
  | tearDown scope k ih => exact ih hp
  | apply event k ih => exact ⟨hp.1, ih hp.2⟩
  | push step k ih => exact ih hp
  | pop k => exact hp.elim
  | dispatch k ih => exact fun n => ih n (hp n)

theorem Emits.mono {Q : Event → Prop} (h : ∀ event, P event → Q event) {p : Plan α} (hp : p.Emits F P) : p.Emits F Q := by
  induction p with
  | pure a => trivial
  | read k ih => exact fun s => ih s (hp s)
  | mint k ih => exact ⟨hp.1, fun key hkey => ih key (hp.2 key hkey)⟩
  | tearDown scope k ih => exact ih hp
  | apply event k ih => exact ⟨h event hp.1, ih hp.2⟩
  | push step k ih => exact ih hp
  | pop k => exact hp.elim
  | dispatch k ih => exact fun n => ih n (hp n)

/-- The log grows by such events only. -/
theorem Emits.log {p : Plan α} (hp : p.Emits F P) (s : PlanState)
    (hF : ∀ n, s.engine.nextLocal ≤ n → n < (p.run s).2.engine.nextLocal →
      F (Engine.mintedKey s.engine.partitionId n)) :
    ∃ events, (p.run s).2.log = s.log ++ events ∧ ∀ event ∈ events, P event := by
  induction p generalizing s with
  | pure a => exact ⟨[], by simp [run], by simp⟩
  | read k ih => exact ih s (hp s) s hF
  | mint k ih =>
    have hfirst : F s.mint.1 := hF _ (Nat.le_refl _) (Plan.nextLocal_le_run (k s.mint.1) s.mint.2)
    exact ih _ (hp.2 _ hfirst) s.mint.2 fun n hn => hF n (Nat.le_of_succ_le hn)
  | tearDown scope k ih => exact ih hp (s.markTornDown scope) hF
  | apply event k ih =>
    obtain ⟨events, hlog, hevents⟩ := ih hp.2 (s.applyEvent event) (by
      rwa [PlanState.nextLocal_applyEvent, PlanState.partitionId_applyEvent])
    refine ⟨event :: events, by rw [run, hlog]; simp [PlanState.applyEvent], ?_⟩
    intro other hother
    rcases List.mem_cons.mp hother with rfl | hother
    · exact hp.1
    · exact hevents other hother
  | push step k ih => exact ih hp (s.pushStep step) hF
  | pop k => exact hp.elim
  | dispatch k ih => exact ih _ (hp _) s.advanceDispatch.2 hF

/-- The log of a plan that mints nothing. -/
theorem Emits.log_of_not_mints {p : Plan α} (hp : p.Emits (fun _ => False) P) (s : PlanState) :
    (∃ events, (p.run s).2.log = s.log ++ events ∧ ∀ event ∈ events, P event) ∧
      (p.run s).2.engine.nextLocal = s.engine.nextLocal := by
  have hnext : (p.run s).2.engine.nextLocal = s.engine.nextLocal := by
    induction p generalizing s with
    | pure a => rfl
    | read k ih => exact ih s (hp s) s
    | mint k => exact hp.1.exists_key.elim fun _ h => h.elim
    | tearDown scope k ih => exact ih hp (s.markTornDown scope)
    | apply event k ih => exact (ih hp.2 (s.applyEvent event)).trans (s.nextLocal_applyEvent event)
    | push step k ih => exact ih hp (s.pushStep step)
    | pop k => exact hp.elim
    | dispatch k ih => exact ih _ (hp _) s.advanceDispatch.2
  exact ⟨hp.log s fun n hn hlt => absurd hlt (by omega), hnext⟩

theorem emits_pure {a : α} : (Pure.pure a : Plan α).Emits F P := trivial

theorem emits_self : self.Emits F P := fun _ => trivial

theorem emits_getLog : getLog.Emits F P := fun _ => trivial

theorem emits_getQueue : getQueue.Emits F P := fun _ => trivial

theorem emits_mintKey [hF : Mints F] : mintKey.Emits F P := ⟨hF, fun _ _ => trivial⟩

/-- What follows a mint may use that the key is minted. -/
theorem Emits.mint_bind [hF : Mints F] {f : Key → Plan β} (h : ∀ key, F key → (f key).Emits F P) :
    (mintKey >>= f).Emits F P := ⟨hF, h⟩

theorem emits_enqueue {step : Step} : (enqueue step).Emits F P := trivial

theorem emits_nextDispatch : nextDispatch.Emits F P := fun _ => trivial

theorem emits_markTornDown {scope : Key} : (markTornDown scope).Emits F P := trivial

/-- A step handler emits nothing itself. -/
theorem emits_ofStepM [hF : Mints F] {m : StepM α} : (ofStepM m).Emits F P := by
  induction m with
  | pure a => trivial
  | mint k ih => exact ⟨hF, fun key _ => ih key⟩
  | tearDown scope k ih => exact ih

/-- What a plan goes on with after a handler depends on its result only. -/
theorem emits_ofStepM_bind [hF : Mints F] {m : StepM α} {f : α → Plan β} (h : m.All F fun a => (f a).Emits F P) :
    (ofStepM m >>= f).Emits F P := by
  show (Plan.bind (ofStepM m) f).Emits F P
  induction m with
  | pure a => exact h
  | mint k ih => exact ⟨hF, fun key hkey => ih key (h key hkey)⟩
  | tearDown scope k ih => exact ih h

theorem emits_forM {xs : List α} {f : α → Plan Unit} (h : ∀ a ∈ xs, (f a).Emits F P) : (xs.forM f).Emits F P := by
  induction xs with
  | nil => trivial
  | cons a xs ih =>
    show (f a >>= fun _ => xs.forM f).Emits F P
    exact .bind (h a (by simp)) fun _ => ih fun b hb => h b (by simp [hb])

theorem emits_mapM_loop {xs : List α} {f : α → Plan β} {acc : List β} (h : ∀ a ∈ xs, (f a).Emits F P) :
    (List.mapM.loop f xs acc).Emits F P := by
  induction xs generalizing acc with
  | nil => trivial
  | cons a xs ih => exact .bind (h a (by simp)) fun _ => ih fun b hb => h b (by simp [hb])

theorem emits_mapM {xs : List α} {f : α → Plan β} (h : ∀ a ∈ xs, (f a).Emits F P) : (xs.mapM f).Emits F P :=
  emits_mapM_loop h

theorem emits_enqueueAll {steps : List Step} : (enqueueAll steps).Emits F P := emits_forM fun _ _ => emits_enqueue

/-! ## Emitting -/

/-- Besides what any step handler may emit, the plan emits events of the given origins only. It creates things under
minted keys, and jobs where it may. -/
structure Allowed (F : Key → Prop) (os : List Origin) (event : Event) : Prop where
  origin : (Origin.routine :: os).contains event.origin = true
  minted : ∀ key, event.created = some key → F key
  jobs : event.createsJob = true → Origin.job ∈ os

abbrev Within (F : Key → Prop) (os : List Origin) (p : Plan α) : Prop := p.Emits F (Allowed F os)

/-- The tokens of joins are left alone. -/
abbrev Calm (p : Plan α) : Prop := p.Within (fun _ => True) [.job]

variable {os : List Origin}

/-- `job` is no origin: it permits the creation of jobs. -/
theorem Allowed.routine {event : Event} (h : Allowed F [.job] event) : event.origin = .routine := by
  have hnot : event.origin ≠ .job := by
    unfold Event.origin
    split <;> nofun
  simpa [hnot] using h.origin

theorem Allowed.weaken {more : List Origin} {event : Event} (h : Allowed F os event) (hsub : os ⊆ more) :
    Allowed F more event := by
  obtain ⟨horigin, hcreated, hjobs⟩ := h
  simp only [List.contains_iff_mem, List.mem_cons] at horigin
  refine ⟨?_, hcreated, fun hjob => hsub (hjobs hjob)⟩
  simp only [List.contains_iff_mem, List.mem_cons]
  exact horigin.imp_right fun hmem => hsub hmem

theorem Within.weaken {more : List Origin} {p : Plan α} (h : p.Within F os) (hsub : os ⊆ more) : p.Within F more :=
  h.mono fun _ hevent => hevent.weaken hsub

/-- An event of a step handler. -/
theorem allowed_routine {event : Event} (h : event.origin = .routine)
    (hcreated : ∀ key, event.created = some key → F key) (hjobs : event.createsJob = true → Origin.job ∈ os) :
    Allowed F os event := ⟨by simp [h], hcreated, hjobs⟩

/-- The events that `emit` adds around another: the history and the end of agents. -/
def ofAgent : Event → Bool
  | .agentHistoryCommitted .. | .agentHistoryDiscarded .. | .agentInstanceUpdated .. | .agentInstanceCompleted .. => true
  | _ => false

theorem plain_of_ofAgent {event : Event} (h : ofAgent event = true) :
    event.origin = .routine ∧ event.created = none ∧ event.closes = false := by
  cases event <;> first | exact ⟨rfl, rfl, rfl⟩ | cases h

section Wrapper

variable (hP : ∀ event : Event, ofAgent event = true → P event)

include hP

theorem emits_emitPlain {event : Event} (h : ofAgent event = true) : (emitPlain event).Emits F P := ⟨hP event h, trivial⟩

theorem emits_discardAgentHistory {agentInstanceKey : Key} : (discardAgentHistory agentInstanceKey).Emits F P := by
  refine .bind emits_self fun e => ?_
  split
  · trivial
  · dsimp only
    split
    · exact emits_emitPlain hP rfl
    · trivial

theorem emits_cleanupAgentInstances {instanceKey : Key} : (cleanupAgentInstances instanceKey).Emits F P := by
  refine .bind emits_self fun e => emits_forM fun agent _ => ?_
  exact .bind (emits_discardAgentHistory hP) fun _ => .bind emits_self fun _ => emits_emitPlain hP rfl

theorem emits_settleJobHistory {instanceKey jobKey : Key} {lease : String} {commit : Bool} :
    (settleJobHistory instanceKey jobKey lease commit).Emits F P := by
  refine .bind emits_self fun e => emits_forM fun r _ => ?_
  dsimp only
  split
  · refine .bind (emits_emitPlain hP rfl) fun _ => ?_
    split
    · refine .bind emits_self fun e => ?_
      split
      · trivial
      · exact emits_emitPlain hP rfl
    · trivial
  · refine .bind (emits_emitPlain hP rfl) fun _ => ?_
    split
    · refine .bind emits_self fun e => ?_
      split
      · trivial
      · exact emits_emitPlain hP rfl
    · trivial

/-- What `emit` adds around an event is plain. -/
theorem emits_emit {event : Event} (h : P event) : (emit event).Emits F P := by
  have hplain : (emitPlain event).Emits F P := ⟨h, trivial⟩
  unfold emit
  split
  · exact .bind (emits_cleanupAgentInstances hP) fun _ => hplain
  · exact .bind (emits_cleanupAgentInstances hP) fun _ => hplain
  · exact .bind emits_self fun _ => .bind hplain fun _ => emits_settleJobHistory hP
  · exact .bind hplain fun _ => emits_settleJobHistory hP
  · exact .bind hplain fun _ => emits_settleJobHistory hP
  · exact hplain

theorem emits_emitAll {events : List Event} (h : ∀ event ∈ events, P event) : (emitAll events).Emits F P :=
  emits_forM fun event hevent => emits_emit hP (h event hevent)

end Wrapper

theorem allowed_plain {event : Event} (h : event.origin = .routine) (hcreated : event.created = none) :
    Allowed F os event := allowed_routine h (by simp [hcreated]) (by simp [Event.createsJob_of_created hcreated])

theorem allowed_wrapped (event : Event) (h : ofAgent event = true) : Allowed F os event :=
  allowed_plain (plain_of_ofAgent h).1 (plain_of_ofAgent h).2.1

/-- An event that creates nothing. -/
theorem within_emit {event : Event} (h : (Origin.routine :: os).contains event.origin = true)
    (hcreated : event.created = none) : (emit event).Within F os :=
  emits_emit allowed_wrapped ⟨h, by simp [hcreated], by simp [Event.createsJob_of_created hcreated]⟩

theorem calm_emit {event : Event} (h : event.origin = .routine) (hcreated : event.created = none) :
    (emit event).Within F os :=
  emits_emit allowed_wrapped (allowed_plain h hcreated)

/-- An event that creates something, but no job, under a minted key. -/
theorem within_emit_created {event : Event} (h : (Origin.routine :: os).contains event.origin = true) {key : Key}
    (hcreated : event.created = some key) (hjobs : event.createsJob = false) (hkey : F key) :
    (emit event).Within F os :=
  emits_emit allowed_wrapped ⟨h, by simpa [hcreated] using hkey, by simp [hjobs]⟩

/-- The outcome of a handler. -/
theorem within_emitAll {s : State} {i : Key} {events : List Event} (h : Tame F s i events) (hjob : Origin.job ∈ os) :
    (emitAll events).Within F os :=
  emits_emitAll allowed_wrapped fun event hevent =>
    allowed_routine (h event hevent).origin (h event hevent).minted fun _ => hjob

/-- Events that are tame wherever they are emitted, and create nothing. -/
theorem calm_emitAny {s : State} {events : List Event} (h : Tame (fun _ => False) s 0 events) :
    (emitAll events).Within F os :=
  emits_emitAll allowed_wrapped fun event hevent =>
    allowed_plain (h event hevent).origin (Option.eq_none_iff_forall_ne_some.mpr (h event hevent).minted)

theorem calm_appendAgentHistory [Mints F] {agentInstanceKey : Key} {turns : List AgentHistoryTurn} :
    (appendAgentHistory agentInstanceKey turns).Within F os := by
  refine .bind emits_self fun e => ?_
  split
  · trivial
  · refine emits_forM fun turn _ => .bind emits_self fun e => ?_
    split
    · exact calm_emit rfl rfl
    · exact .bind emits_mintKey fun key => calm_emit rfl rfl

/-! ## Interruption -/

theorem calm_terminateSubprocessScope {instanceKey scope : Key} : (terminateSubprocessScope instanceKey scope).Within F os :=
  .bind emits_markTornDown fun _ => .bind emits_self fun e =>
    calm_emitAny (e.tame_scopeTeardownEvents instanceKey scope)

theorem calm_disarmBoundaries {eik : Key} : (disarmBoundaries eik).Within F os := by
  refine .bind emits_self fun e => .bind (calm_emitAny (e.state.tame_timerCancels _)) fun _ => ?_
  refine .bind emits_self fun e => .bind (calm_emitAny (e.state.tame_messageCancels _)) fun _ => ?_
  refine .bind emits_self fun e => .bind (calm_emitAny (e.state.tame_signalCancels _)) fun _ => ?_
  exact .bind emits_self fun e => calm_emitAny (e.state.tame_conditionalCancels _)

theorem calm_discardAndTerminateInstance {instanceKey : Key} : (discardAndTerminateInstance instanceKey).Within F os :=
  .bind emits_self fun e => calm_emitAny (e.state.tame_discardInstanceEvents instanceKey)

theorem calm_cancelActiveJobOn {instanceKey eik : Key} : (cancelActiveJobOn instanceKey eik).Within F os := by
  refine .bind emits_self fun e => ?_
  split
  · exact calm_emit rfl rfl
  · trivial

theorem calm_interruptActivityViaBoundary {instanceKey eik : Key} {elementId : ElementId} :
    (interruptActivityViaBoundary instanceKey eik elementId).Within F os := by
  have hend : (do
      emit (.elementCompleting instanceKey eik elementId)
      emit (.elementCompleted instanceKey eik elementId)
      disarmBoundaries eik : Plan Unit).Within F os :=
    .bind (calm_emit rfl rfl) fun _ => .bind (calm_emit rfl rfl) fun _ => calm_disarmBoundaries
  refine .bind emits_self fun e => ?_
  dsimp only
  split
  · refine .bind calm_cancelActiveJobOn fun _ => .bind emits_self fun e => ?_
    refine .bind (calm_emitAny (e.tame_resolveIncidentsOn instanceKey eik)) fun _ => ?_
    exact .bind calm_terminateSubprocessScope fun _ => .bind (calm_emit rfl rfl) fun _ => hend
  split
  · exact .bind calm_terminateSubprocessScope fun _ => hend
  split
  · exact .bind calm_cancelActiveJobOn fun _ => .bind calm_terminateSubprocessScope fun _ =>
      .bind (calm_emit rfl rfl) fun _ => hend
  split
  · exact .bind calm_discardAndTerminateInstance fun _ => hend
  · exact .bind calm_cancelActiveJobOn fun _ => hend

theorem calm_terminateElementInstance {instanceKey eik : Key} {elementId : ElementId} :
    (terminateElementInstance instanceKey eik elementId).Within F os := by
  have hend : (do
      emitAll (((← self).state.userTasks.vals.filter fun t => t.instanceKey == instanceKey &&
        t.elementInstanceKey == eik && t.state == .created).map (·.key) |> sortKeys |>.map fun key =>
          .userTaskCanceled key instanceKey)
      emitAll ((← self).state.cancelAllTimersOn eik)
      emitAll ((← self).state.cancelAllSubscriptionsOn eik)
      emitAll ((← self).state.cancelAllSignalSubscriptionsOn eik)
      emitAll ((← self).state.cancelAllConditionalSubscriptionsOn eik)
      emit (.elementCompleting instanceKey eik elementId)
      emit (.elementCompleted instanceKey eik elementId) : Plan Unit).Within F os := by
    refine .bind emits_self fun e => .bind (calm_emitAny (s := e.state) (.map fun _ => .plain rfl rfl rfl rfl rfl)) fun _ => ?_
    refine .bind emits_self fun e => .bind (calm_emitAny (e.state.tame_timerCancels _)) fun _ => ?_
    refine .bind emits_self fun e => .bind (calm_emitAny (e.state.tame_messageCancels _)) fun _ => ?_
    refine .bind emits_self fun e => .bind (calm_emitAny (e.state.tame_signalCancels _)) fun _ => ?_
    refine .bind emits_self fun e => .bind (calm_emitAny (e.state.tame_conditionalCancels _)) fun _ => ?_
    exact .bind (calm_emit rfl rfl) fun _ => calm_emit rfl rfl
  refine .bind emits_self fun e => ?_
  split
  · exact .bind calm_terminateSubprocessScope fun _ => hend
  · exact .bind calm_cancelActiveJobOn fun _ => hend

/-! ## The sweep of drained sub-processes -/

theorem mem_takeFlows {s : State} {instanceKey : Key} {source : ElementId} {scope : Key} {indices : List Nat} {event : Event}
    (h : event ∈ (s.takeFlows instanceKey source scope indices).1) :
    (∃ target, event = .sequenceFlowTaken instanceKey source target) ∨
      ∃ target flow, event = .parallelJoinTokenArrived instanceKey target (some flow) := by
  simp only [State.takeFlows, List.mem_flatMap, List.mem_filterMap] at h
  obtain ⟨taken, ⟨index, -, htaken⟩, hevent⟩ := h
  simp only [State.takeFlow, Option.bind_eq_bind, Option.bind_eq_some_iff] at htaken
  obtain ⟨d, -, ⟨target, flow⟩, -, htaken⟩ := htaken
  cases htaken
  rcases List.mem_cons.mp hevent with rfl | hevent
  · exact .inl ⟨target, rfl⟩
  · split at hevent
    · exact .inr ⟨target, flow, List.mem_singleton.mp hevent⟩
    · simp at hevent

/-- A property of what handlers emit and of tokens that arrive over a flow. -/
structure Covers (F : Key → Prop) (P : Event → Prop) : Prop where
  routine : ∀ event : Event, event.origin = .routine → (∀ key, event.created = some key → F key) → P event
  arrival : ∀ (instanceKey : Key) (target : ElementId) (flow : IncomingFlow),
    P (.parallelJoinTokenArrived instanceKey target (some flow))
  spawn : ∀ event : Event, event.Spawns F → P event

namespace Covers

variable (hP : Covers F P)

include hP

theorem plain {event : Event} (h : event.origin = .routine) (hcreated : event.created = none) : P event :=
  hP.routine event h (by simp [hcreated])

theorem wrapped (event : Event) (h : ofAgent event = true) : P event :=
  hP.plain (plain_of_ofAgent h).1 (plain_of_ofAgent h).2.1

theorem tame {s : State} {i : Key} {event : Event} (h : event.Tame F s i) : P event := hP.routine event h.origin h.minted

theorem takeFlows {s : State} {instanceKey : Key} {source : ElementId} {scope : Key} {indices : List Nat} {event : Event}
    (h : event ∈ (s.takeFlows instanceKey source scope indices).1) : P event := by
  rcases mem_takeFlows h with ⟨target, rfl⟩ | ⟨target, flow, rfl⟩
  · exact hP.plain rfl rfl
  · exact hP.arrival instanceKey target flow

/-- A handler that only moves a token. -/
theorem moves {s : State} {i : Key} {out : Outcome} (h : Outcome.Moves F s i out) {event : Event} (hevent : event ∈ out.1) :
    P event := by
  obtain ⟨events, spawned, after, source, scope, indices, steps, hevents, hafter, hspawned, -, -, rfl⟩ := h
  simp only [List.mem_append] at hevent
  rcases hevent with ((hevent | hevent) | hevent) | hevent
  · exact hP.tame (hevents event hevent)
  · exact hP.takeFlows hevent
  · exact hP.spawn event (hspawned event hevent)
  · exact hP.tame (hafter event hevent)

theorem of_within {p : Plan α} (h : p.Within F []) : p.Emits F P :=
  h.mono fun event hevent => hP.routine event (by simpa using hevent.origin) hevent.minted

theorem completeDrained [Mints F] [Feel] {instanceKey eik : Key} {elementId : ElementId} :
    (completeDrained instanceKey eik elementId).Emits F P := by
  have hdisarm : (disarmBoundaries eik).Emits F P := hP.of_within calm_disarmBoundaries
  have hwrites : ∀ (e : Engine) scope updates, (emitAll (e.outputWrites instanceKey scope updates)).Emits F P :=
    fun e scope updates => hP.of_within (calm_emitAny (e.tame_outputWrites instanceKey scope updates))
  refine .bind emits_self fun e => ?_
  dsimp only
  split
  · exact .bind hdisarm fun _ => emits_pure
  split
  · refine emits_ofStepM_bind (e.moves_parkIoMapping.mono fun out hout => ?_)
    exact .bind (emits_emitAll hP.wrapped fun _ => hP.moves hout) fun _ => emits_pure
  · refine .bind (emits_emit hP.wrapped (hP.plain rfl rfl)) fun _ => .bind emits_self fun e => ?_
    refine emits_ofStepM_bind (e.tame_beginEndListenerChain.mono fun job hjob => ?_)
    split
    · next event =>
      refine .bind hdisarm fun _ => .bind emits_self fun e => .bind (hwrites e _ _) fun _ => ?_
      exact .bind (emits_emit hP.wrapped (hP.tame (hjob event rfl))) fun _ => emits_pure
    · refine .bind (emits_emit hP.wrapped (hP.plain rfl rfl)) fun _ => .bind hdisarm fun _ => ?_
      refine .bind emits_self fun e => .bind (hwrites e _ _) fun _ => .bind emits_self fun e => ?_
      exact .bind (emits_emitAll hP.wrapped fun _ => hP.takeFlows) fun _ => emits_pure

theorem completeDrainedSubprocesses [Mints F] [Feel] : completeDrainedSubprocesses.Emits F P :=
  .bind emits_self fun _ => .bind emits_getLog fun _ => .bind (emits_mapM fun _ _ => hP.completeDrained) fun _ =>
    emits_enqueueAll

end Covers

variable [Feel]

/-! ## Releasing tokens -/

omit [Feel] in
theorem calm_releaseToken {instanceKey eik : Key} {elementId : ElementId} {kind : MessageSubscriptionKind} :
    (releaseToken instanceKey eik elementId kind).Within F os := by
  unfold releaseToken
  split
  · exact emits_enqueue
  · exact .bind emits_self fun _ => .bind calm_interruptActivityViaBoundary fun _ => emits_enqueue
  · exact .bind emits_self fun _ => emits_enqueue

omit [Feel] in
theorem calm_mergePayload {instanceKey eik : Key} {payload : Vars} : (mergePayload instanceKey eik payload).Within F os := by
  unfold mergePayload
  split
  · exact .bind emits_self fun e => calm_emitAny (e.tame_propagatedUpdates _ _ _ _)
  · trivial

omit [Feel] in
theorem within_advanceCorrelatedToken {subscriptionKey messageKey instanceKey eik : Key} {elementId : ElementId}
    {kind : MessageSubscriptionKind} {payload : Vars} :
    (advanceCorrelatedToken subscriptionKey messageKey instanceKey eik elementId kind payload).Within F [.message] :=
  .bind (within_emit rfl rfl) fun _ => .bind calm_mergePayload fun _ => calm_releaseToken

omit [Feel] in
theorem within_advanceSignalCorrelatedToken {subscriptionKey signalKey instanceKey eik : Key} {elementId : ElementId}
    {kind : MessageSubscriptionKind} {payload : Vars} :
    (advanceSignalCorrelatedToken subscriptionKey signalKey instanceKey eik elementId kind payload).Within F [.signal] :=
  .bind (within_emit rfl rfl) fun _ => .bind calm_mergePayload fun _ => calm_releaseToken

/-! ## Sweeps -/

theorem calm_fireConditional {key : Key} : (fireConditional key).Within F os := by
  refine .bind emits_self fun e => ?_
  split
  · trivial
  · split
    · exact .bind (calm_emit rfl rfl) fun _ => calm_releaseToken
    · trivial

theorem calm_reevaluateConditionals {cursor : Nat} : (reevaluateConditionals cursor).Within F os :=
  .bind emits_getLog fun _ => .bind emits_self fun _ =>
    .bind (emits_forM fun _ _ => calm_fireConditional) fun _ => emits_pure

omit [Feel] in
theorem calm_completeFinishedInstances : completeFinishedInstances.Within F os := by
  refine .bind emits_self fun _ => .bind emits_getLog fun _ => .bind (emits_mapM fun key _ => ?_) fun _ => ?_
  · exact .bind emits_self fun _ => .bind (calm_emit rfl rfl) fun _ => emits_pure
  · exact .bind emits_enqueueAll fun _ => emits_pure

omit [Feel] in
theorem calm_cascadeCancelChildren : cascadeCancelChildren.Within F os := by
  have hcascade : ∀ fuel ended, (cascadeFrom fuel ended).Within F os := by
    intro fuel
    induction fuel with
    | zero => exact fun _ => trivial
    | succ fuel ih =>
      intro ended
      refine .bind emits_self fun e => ?_
      split
      · trivial
      · exact .bind (emits_forM fun _ _ => calm_discardAndTerminateInstance) fun _ => ih _
  refine .bind emits_getLog fun log => .bind emits_self fun e => ?_
  split
  · exact hcascade _ _
  · trivial

end Plan

/-! ## Commands -/

section Commands

open Plan

variable {F : Key → Prop} {os : List Origin}

theorem within_armStart [Mints F] [Feel] {processDefinitionKey : Key} {processId : String} {el : Element} :
    (armStart processDefinitionKey processId el).Within F [.deployment] := by
  unfold armStart
  split
  · exact within_emit rfl rfl
  · exact .bind emits_mintKey fun _ => .bind emits_self fun _ => within_emit rfl rfl
  · trivial

theorem within_deployProcesses [Mints F] [Feel] {processes : List ProcessDefinition} : (deployProcesses processes).Within F [.deployment, .resource] := by
  refine .bind emits_mintKey fun _ => .bind (within_emit rfl rfl) fun _ => emits_forM fun process _ => ?_
  refine .bind emits_self fun e => ?_
  split
  · refine .bind emits_mintKey fun _ => .bind (within_emit rfl rfl) fun _ => emits_forM fun _ _ =>
      within_armStart.weaken (by simp)
  · trivial

theorem within_deployDecisions [Mints F] {graphs : List DecisionRequirementsGraph} : (deployDecisions graphs).Within F [.resource] := by
  refine .bind emits_mintKey fun _ => .bind (within_emit rfl rfl) fun _ => emits_forM fun drg _ => ?_
  refine .bind emits_self fun e => ?_
  split
  · refine .bind emits_mintKey fun _ => .bind (within_emit rfl rfl) fun _ => emits_forM fun decision _ => ?_
    exact .bind emits_self fun _ => .bind emits_mintKey fun _ => within_emit rfl rfl
  · trivial

theorem within_deployForms [Mints F] {forms : List FormResource} : (deployForms forms).Within F [.resource] := by
  refine .bind emits_mintKey fun _ => .bind (within_emit rfl rfl) fun _ => emits_forM fun form _ => ?_
  refine .bind emits_self fun e => ?_
  split
  · exact .bind emits_mintKey fun _ => within_emit rfl rfl
  · trivial

theorem within_deployGenericResources [Mints F] {resources : List GenericResource} : (deployGenericResources resources).Within F [.resource] := by
  refine .bind emits_mintKey fun _ => .bind (within_emit rfl rfl) fun _ => emits_forM fun r _ => ?_
  refine .bind emits_self fun e => ?_
  split
  · exact .bind emits_mintKey fun _ => within_emit rfl rfl
  · trivial

theorem within_startInstance [Mints F] {processId : String} {startEvent : ElementId} {vars : Vars} {tags : List String}
    {businessId : Option String} {processDefinitionKey : Key} :
    (startInstance processId startEvent vars tags businessId processDefinitionKey).Within F [.start] :=
  .mint_bind fun _ hkey => .bind emits_self fun _ => .bind (within_emit_created rfl rfl rfl hkey) fun _ => emits_enqueue

theorem within_startOrDispatchInstance [Mints F] {processId : String} {startEvent : ElementId} {vars : Vars} {tags : List String}
    {businessId : Option String} : (startOrDispatchInstance processId startEvent vars tags businessId).Within F [.dispatch, .start] := by
  refine .bind emits_self fun e => ?_
  split
  · exact within_startInstance.weaken (by simp)
  · refine .bind emits_nextDispatch fun n => ?_
    dsimp only
    split
    · exact within_startInstance.weaken (by simp)
    · exact within_emit rfl rfl

theorem within_expireJobLocks {now : Nat} {durable : Option Bool} : (expireJobLocks now durable).Within F [.expiry] :=
  .bind emits_self fun _ => emits_forM fun _ _ => within_emit rfl rfl

theorem within_continueAfterJob {job : Job} {adhocResult : Option AdHocJobResult}
    {taskListenerResult : Option TaskListenerJobResult} : (continueAfterJob job adhocResult taskListenerResult).Within F [.completion] := by
  unfold continueAfterJob
  split
  · dsimp only
    split
    · exact within_emit rfl rfl
    · split
      · exact .bind (within_emit rfl rfl) fun _ => emits_enqueue
      · exact emits_enqueue
  · exact emits_enqueue
  · refine .bind emits_self fun e => ?_
    split
    · dsimp only
      split
      · exact emits_enqueue
      · exact .bind emits_self fun _ => emits_enqueueAll
    · exact emits_enqueue

theorem within_completeJob {job : Job} {vars : Vars} {adhocResult : Option AdHocJobResult}
    {taskListenerResult : Option TaskListenerJobResult} :
    (completeJob job vars adhocResult taskListenerResult).Within F [.completion] := by
  refine .bind (within_emit rfl rfl) fun _ => ?_
  split
  · exact .bind emits_self fun e => .bind (calm_emitAny (e.tame_propagatedUpdates _ _ _ _)) fun _ =>
      within_continueAfterJob
  · exact within_continueAfterJob

theorem within_applyActivationPlan [Mints F] {jobKeys : List Key} {worker : String} {timeout now : Nat}
    {options : JobActivationOptions} {durable : Bool} :
    (applyActivationPlan jobKeys worker timeout now options durable).Within F [.activation] := by
  refine emits_forM fun jobKey _ => .bind emits_self fun e => ?_
  split
  · trivial
  · dsimp only
    split
    · split
      · exact .bind (.bind emits_mintKey fun _ => emits_pure) fun _ => within_emit rfl rfl
      · exact .bind emits_pure fun _ => within_emit rfl rfl
    · trivial

/-- What `FailJob` does once the job has failed. -/
def afterJobFailed (job : Job) (retries : Int) (errorMessage : String) : Plan Unit := do
  if retries = 0 then
    let incidentKey ← mintKey
    emit (.incidentRaised incidentKey job.instanceKey job.elementInstanceKey job.elementId .jobNoRetries none
      errorMessage (some job.key) (← self).now)

theorem failJob_eq (job : Job) (retries : Int) (errorMessage : String) :
    failJob job retries errorMessage =
      (emit (.jobFailed job.key job.instanceKey (max retries 0) job.attributionWorker) >>= fun _ =>
        afterJobFailed job (max retries 0) errorMessage) := rfl

theorem within_afterJobFailed [Mints F] {job : Job} {retries : Int} {errorMessage : String} :
    (afterJobFailed job retries errorMessage).Within F os := by
  unfold afterJobFailed
  split
  · exact .mint_bind fun _ hkey => .bind emits_self fun _ => within_emit_created (by simp [Event.origin]) rfl rfl hkey
  · trivial

theorem within_failJob [Mints F] {job : Job} {retries : Int} {errorMessage : String} :
    (failJob job retries errorMessage).Within F [.failure] := by
  rw [failJob_eq]
  exact .bind (within_emit rfl rfl) fun _ => within_afterJobFailed

/-- What `ThrowJobError` does once the error is thrown. -/
def afterJobError (job : Job) (errorCode errorMessage : String) (vars : Vars) : Plan Unit := do
  match (← self).state.findCatchingErrorBoundary job.instanceKey job.elementId job.elementInstanceKey errorCode with
  | some (boundaryId, caughtEik, caughtElementId) =>
    let boundaryScope := (← self).state.scopeOf job.instanceKey caughtEik
    if caughtEik ≠ job.elementInstanceKey then terminateSubprocessScope job.instanceKey caughtEik
    emit (.elementCompleting job.instanceKey caughtEik caughtElementId)
    emit (.elementCompleted job.instanceKey caughtEik caughtElementId)
    disarmBoundaries caughtEik
    if !vars.isEmpty then
      emitAll ((← self).propagatedUpdates job.instanceKey boundaryScope vars true)
    enqueue (.activate job.instanceKey boundaryId boundaryScope none)
  | none =>
    let reason := if errorMessage.isEmpty then s!"unhandled BPMN error '{errorCode}'"
      else s!"unhandled BPMN error '{errorCode}': {errorMessage}"
    let incidentKey ← mintKey
    emit (.incidentRaised incidentKey job.instanceKey job.elementInstanceKey job.elementId .unhandledError none
      reason none (← self).now)

theorem throwJobError_eq (job : Job) (errorCode errorMessage : String) (vars : Vars) :
    throwJobError job errorCode errorMessage vars =
      (emit (.jobErrorThrown job.key job.instanceKey errorCode job.attributionWorker) >>= fun _ =>
        afterJobError job errorCode errorMessage vars) := rfl

theorem within_afterJobError [Mints F] {job : Job} {errorCode errorMessage : String} {vars : Vars} :
    (afterJobError job errorCode errorMessage vars).Within F os := by
  refine .bind emits_self fun e => ?_
  split
  · next boundaryId caughtEik caughtElementId _ =>
    have hend : ∀ boundaryScope, (do
        emit (.elementCompleting job.instanceKey caughtEik caughtElementId)
        emit (.elementCompleted job.instanceKey caughtEik caughtElementId)
        disarmBoundaries caughtEik
        if !vars.isEmpty then
          emitAll ((← self).propagatedUpdates job.instanceKey boundaryScope vars true)
        enqueue (.activate job.instanceKey boundaryId boundaryScope none) : Plan Unit).Within F os := by
      intro boundaryScope
      refine .bind (calm_emit rfl rfl) fun _ => .bind (calm_emit rfl rfl) fun _ => .bind calm_disarmBoundaries fun _ => ?_
      split
      · exact .bind emits_self fun e => .bind (calm_emitAny (e.tame_propagatedUpdates _ _ _ _)) fun _ =>
          emits_enqueue
      · exact emits_enqueue
    refine .bind emits_self fun e => ?_
    dsimp only
    split
    · exact .bind calm_terminateSubprocessScope fun _ => hend _
    · exact hend _
  · exact .mint_bind fun _ hkey => .bind emits_self fun _ => within_emit_created (by simp [Event.origin]) rfl rfl hkey

theorem within_throwJobError [Mints F] {job : Job} {errorCode errorMessage : String} {vars : Vars} :
    (throwJobError job errorCode errorMessage vars).Within F [.error] := by
  rw [throwJobError_eq]
  exact .bind (within_emit rfl rfl) fun _ => within_afterJobError

theorem within_updateJobProperties {job : Job} {retries timeout operationReference : Option Int} :
    (updateJobProperties job retries timeout operationReference).Within F [.update] := by
  unfold updateJobProperties
  cases retries <;> cases timeout <;> dsimp only
  · exact .bind emits_pure fun _ => trivial
  · exact .bind emits_pure fun _ => .bind emits_self fun _ => within_emit rfl rfl
  · exact .bind (within_emit rfl rfl) fun _ => trivial
  · exact .bind (within_emit rfl rfl) fun _ => .bind emits_self fun _ => within_emit rfl rfl

theorem within_transitionUserTask [Mints F] [Feel] {task : UserTask} {pending : PendingUserTaskTransition}
    {now : Plan Unit} (h : now.Within F [.job]) : (transitionUserTask task pending now).Within F [.job] := by
  refine .bind emits_self fun e => ?_
  split
  · exact emits_ofStepM_bind (e.tame_startTaskListenerChain.mono fun _ htame => within_emitAll htame (by simp))
  · exact h

theorem within_assignUserTask [Mints F] [Feel] {task : UserTask} {assignee : Option String} :
    (assignUserTask task assignee).Within F [.job] :=
  within_transitionUserTask (calm_emit rfl rfl)

theorem within_updateUserTask [Mints F] [Feel] {task : UserTask} {c : UserTaskChangeset} :
    (updateUserTask task c).Within F [.job] :=
  within_transitionUserTask (calm_emit rfl rfl)

theorem within_completeUserTask [Mints F] [Feel] {task : UserTask} {vars : Vars} :
    (completeUserTask task vars).Within F [.job] := by
  refine within_transitionUserTask (.bind (calm_emit rfl rfl) fun _ => ?_)
  split
  · exact .bind emits_self fun e => .bind (calm_emitAny (e.tame_propagatedUpdates _ _ _ _)) fun _ =>
      emits_enqueue
  · exact emits_enqueue

theorem within_triggerTimer [Mints F] [Feel] {timerKey : Key} : (triggerTimer timerKey).Within F [.timer] := by
  refine .bind emits_self fun e => ?_
  split
  · trivial
  · refine .bind (within_emit rfl rfl) fun _ => ?_
    split
    · exact emits_enqueue
    · exact .bind emits_self fun _ => .bind calm_interruptActivityViaBoundary fun _ => emits_enqueue
    · refine .bind emits_self fun _ => .bind emits_enqueue fun _ => .bind emits_self fun _ => ?_
      split
      · exact .mint_bind fun _ hkey => .bind emits_self fun _ => within_emit_created rfl rfl rfl hkey
      · trivial

theorem within_fireStartTimer [Mints F] {timerKey : Key} : (fireStartTimer timerKey).Within F [.rearm, .dispatch, .start] := by
  refine .bind emits_self fun e => ?_
  split
  · trivial
  · split
    · trivial
    · exact .bind (within_emit rfl rfl) fun _ => within_startOrDispatchInstance.weaken (by simp)

theorem within_triggerTimers [Mints F] [Feel] {now : Nat} : (triggerTimers now).Within F [.timer, .rearm, .dispatch, .start] :=
  .bind emits_self fun _ => .bind (emits_forM fun _ _ => within_triggerTimer.weaken (by simp)) fun _ =>
    .bind emits_self fun _ => emits_forM fun _ _ => within_fireStartTimer.weaken (by simp)

theorem calm_resolveIncident {i : Incident} {operationReference : Option Int} :
    (resolveIncident i operationReference).Within F os := by
  refine .bind emits_self fun _ => .bind (calm_emit rfl rfl) fun _ => .bind emits_self fun e => ?_
  split
  · trivial
  · exact emits_enqueue
  · exact emits_enqueue
  · exact emits_enqueue
  · exact emits_enqueue
  · exact emits_enqueue
  · exact emits_enqueueAll

theorem within_correlateSubscription {messageKey subscriptionKey : Key} {vars : Vars} :
    (correlateSubscription messageKey vars subscriptionKey).Within F [.message] := by
  refine .bind emits_self fun e => ?_
  split
  · trivial
  · split
    · split
      · exact .bind within_advanceCorrelatedToken fun _ => emits_pure
      · trivial
    · exact .bind (within_emit rfl rfl) fun _ => emits_pure

theorem within_correlateMessage [Mints F] {messageName correlationKey : String} {vars : Vars} :
    (correlateMessage messageName correlationKey vars).Within F [.message, .dispatch, .start] := by
  refine .bind emits_mintKey fun _ => .bind (within_emit rfl rfl) fun _ => .bind emits_self fun _ =>
    .bind (emits_mapM fun key _ => within_correlateSubscription.weaken (by simp)) fun _ => ?_
  split
  · exact .bind emits_self fun _ => emits_forM fun _ _ => within_startOrDispatchInstance.weaken (by simp)
  · trivial

theorem within_broadcastSignal [Mints F] {signalName : String} {vars : Vars} : (broadcastSignal signalName vars).Within F [.signal] := by
  refine .bind emits_mintKey fun _ => .bind (within_emit rfl rfl) fun _ => .bind emits_self fun _ =>
    emits_forM fun key _ => .bind emits_self fun e => ?_
  split
  · trivial
  · exact within_advanceSignalCorrelatedToken

theorem calm_openMessageSubscription {subscriptionKey instanceKey elementInstanceKey : Key} {elementId : ElementId}
    {messageName correlationKey : String} {kind : MessageSubscriptionKind} (hkey : F subscriptionKey) :
    (openMessageSubscription subscriptionKey instanceKey elementInstanceKey elementId messageName correlationKey
      kind).Within F os := by
  refine .bind emits_self fun e => ?_
  split
  · exact within_emit_created rfl rfl rfl hkey
  · trivial

theorem within_correlateMessageSubscription {subscriptionKey messageKey instanceKey elementInstanceKey : Key}
    {elementId : ElementId} {kind : MessageSubscriptionKind} {vars : Vars} :
    (correlateMessageSubscription subscriptionKey messageKey instanceKey elementInstanceKey elementId kind
      vars).Within F [.message] := by
  refine .bind emits_self fun e => ?_
  dsimp only
  split
  · exact within_advanceCorrelatedToken
  · trivial

theorem calm_closeMessageSubscription {subscriptionKey instanceKey elementInstanceKey : Key} {elementId : ElementId} :
    (closeMessageSubscription subscriptionKey instanceKey elementInstanceKey elementId).Within F os := by
  refine .bind emits_self fun e => ?_
  split
  · exact calm_emit rfl rfl
  · trivial

theorem tame_cancelWaits {F : Key → Prop} {i instanceKey : Key} {s : State} : Tame F s i (cancelWaits s instanceKey) := by
  simp only [cancelWaits, Tame.append_iff]
  refine ⟨⟨⟨⟨s.tame_jobCancels instanceKey, .map fun _ => .plain rfl rfl rfl rfl rfl⟩, ?_⟩,
    .map fun _ => .plain rfl rfl rfl rfl rfl⟩, .map fun _ => .plain rfl rfl rfl rfl rfl⟩
  intro event hevent
  obtain ⟨m, hm, rfl⟩ := List.mem_map.mp hevent
  have hmem := List.mem_filter.mp ((List.mem_insertionSort _).mp hm)
  simp only [Bool.and_eq_true, Bool.or_eq_true, beq_iff_eq] at hmem
  refine s.tame_disarmSubscriptionEvent hmem.1 ?_
  rcases hmem.2.2 with hstate | hstate <;> simp [hstate, MessageSubscriptionState.isLive]

theorem within_cancelInstance [Mints F] [Feel] {instanceKey : Key} : (cancelInstance instanceKey).Within F [.cancellation, .job] := by
  refine .bind emits_self fun e => .bind (calm_emitAny tame_cancelWaits) fun _ =>
    .bind (calm_emitAny (s := e.state) (.map fun _ => .plain rfl rfl rfl rfl rfl)) fun _ => ?_
  dsimp only
  split
  · exact within_emit rfl rfl
  · refine .bind (within_emit rfl rfl) fun _ => emits_forM fun entry _ => .bind emits_self fun e => ?_
    exact emits_ofStepM_bind (e.tame_startTaskListenerChain.mono fun _ htame => within_emitAll htame (by simp))

theorem calm_modifyInstance {instanceKey : Key} {activate : List ActivateElementInstruction} {terminate : List Key} :
    (modifyInstance instanceKey activate terminate).Within F os := by
  refine .bind (emits_forM fun eik _ => .bind emits_self fun e => ?_) fun _ =>
    .bind (emits_forM fun a _ => ?_) fun _ => .bind emits_self fun e => ?_
  · split
    · trivial
    · exact calm_terminateElementInstance
  · split
    · exact .bind emits_self fun e => .bind (calm_emitAny (e.tame_propagatedUpdates _ _ _ _)) fun _ =>
        emits_enqueue
    · exact emits_enqueue
  · dsimp only
    split
    · exact calm_emit rfl rfl
    · trivial

theorem within_createAgentInstance [Mints F] {processInstanceKey : Key} {elementId : ElementId} {agentType : AgentType}
    {elementInstanceKey jobKey : Key} {jobLease : String} {definition : AgentDefinition}
    {limits : Option AgentInstanceLimits} {history : List AgentHistoryTurn} :
    (createAgentInstance processInstanceKey elementId agentType elementInstanceKey jobKey jobLease definition limits
      history).Within F [.agent] := by
  refine .bind emits_mintKey fun _ => .bind emits_self fun _ => .bind (within_emit rfl rfl) fun _ => ?_
  split
  · exact calm_appendAgentHistory
  · trivial

theorem calm_updateAgentInstance [Mints F] {agent : AgentInstance} {elementInstanceKey jobKey : Key} {jobLease : String}
    {status : Option AgentInstanceStatus} {metrics : AgentInstanceMetricsDelta} {tools : Option (List AgentTool)}
    {history : List AgentHistoryTurn} :
    (updateAgentInstance agent elementInstanceKey jobKey jobLease status metrics tools history).Within F os := by
  refine .bind emits_self fun _ => .bind (calm_emit rfl rfl) fun _ => ?_
  split
  · exact calm_appendAgentHistory
  · trivial

/-- A migration. -/
def Event.migrates : Event → Bool
  | .processInstanceMigrated .. => true
  | _ => false

/-- What a command may emit besides what a step handler may. -/
def Command.origins : Command → List Origin
  | .deployProcess .. | .deployResources .. => [.deployment, .resource]
  | .deployDecisionRequirements .. | .deployForms .. | .deployGenericResources .. => [.resource]
  | .deleteDecisionInstance .. => [.deletion]
  | .completeJob .. => [.completion]
  | .activateJobs .. | .activateJobsByKey .. => [.activation]
  | .expireJobs .. | .expireJobsByDurability .. => [.expiry]
  | .createInstance .. | .dispatchStartInstance .. => [.start]
  | .triggerTimers .. => [.timer, .rearm, .dispatch, .start]
  | .failJob .. => [.failure]
  | .throwJobError .. => [.error]
  | .updateJobRetries .. | .updateJobTimeout .. | .updateJob .. => [.update]
  | .correlateMessage .. => [.message, .dispatch, .start]
  | .correlateMessageSubscription .. => [.message]
  | .broadcastSignal .. => [.signal]
  | .cancelInstance .. => [.cancellation, .job]
  | .assignUserTask .. | .unassignUserTask .. | .updateUserTask .. | .completeUserTask .. => [.job]
  | .suspendInstance .. | .resumeInstance .. => [.suspension]
  | .migrateInstance .. => [.migration]
  | .createAgentInstance .. => [.agent]
  | _ => []

/-- The key a command names for what it creates. -/
def Command.opened : Command → Option Key
  | .openMessageSubscription subscriptionKey .. => some subscriptionKey
  | _ => none

/-- A command that is planned, or refused, emits events of the given origins only, and creates things under the keys it
mints. -/
def Cmd.Within {α : Type} (F : Key → Prop) (os : List Origin) (c : Cmd α) : Prop :=
  ∀ s : PlanState, (∀ n, s.engine.nextLocal ≤ n → n < (c s).2.engine.nextLocal →
      F (Engine.mintedKey s.engine.partitionId n)) →
    ∃ events, (c s).2.log = s.log ++ events ∧ ∀ event ∈ events, Allowed F os event

theorem Cmd.Within.plan {α : Type} {p : Plan α} (h : p.Within F os) : (Cmd.plan p).Within F os := fun s hF => h.log s hF

theorem Cmd.Within.check_bind {α β : Type} {f : Engine → Except EngineError α} {c : α → Cmd β}
    (h : ∀ a, (c a).Within F os) : (Cmd.check f >>= c).Within F os := by
  intro s hF
  obtain ⟨a, -, hrun⟩ | ⟨err, -, hrun⟩ := Cmd.check_bind_cases f c s
  · rw [hrun] at hF ⊢
    exact h a s hF
  · rw [hrun]
    exact ⟨[], by simp, by simp⟩

theorem within_planCommand [Mints F] [Feel] (command : Command) (hopened : ∀ key, command.opened = some key → F key) :
    (planCommand command).Within F command.origins := by
  cases command <;> unfold planCommand
  case deployProcess => exact .check_bind fun _ => .plan within_deployProcesses
  case deployResources => exact .check_bind fun _ => .plan within_deployProcesses
  case deployDecisionRequirements => exact .plan within_deployDecisions
  case deployForms => exact .plan within_deployForms
  case deployGenericResources => exact .plan within_deployGenericResources
  case deleteDecisionInstance => exact .plan (within_emit rfl rfl)
  case createInstance => exact .check_bind fun _ => .plan within_startInstance
  case completeJob => exact .check_bind fun _ => .plan within_completeJob
  case assignUserTask => exact .check_bind fun _ => .check_bind fun _ => .plan within_assignUserTask
  case unassignUserTask => exact .check_bind fun _ => .plan within_assignUserTask
  case updateUserTask => exact .check_bind fun _ => .plan within_updateUserTask
  case completeUserTask => exact .check_bind fun _ => .plan within_completeUserTask
  case activateJobs => exact .plan (.bind emits_self fun _ => within_applyActivationPlan)
  case activateJobsByKey => exact .plan within_applyActivationPlan
  case expireJobs => exact .plan within_expireJobLocks
  case expireJobsByDurability => exact .plan within_expireJobLocks
  case triggerTimers => exact .plan within_triggerTimers
  case failJob => exact .check_bind fun _ => .plan within_failJob
  case throwJobError => exact .check_bind fun _ => .plan within_throwJobError
  case updateJobRetries => exact .check_bind fun _ => .plan within_updateJobProperties
  case updateJobTimeout => exact .check_bind fun _ => .plan within_updateJobProperties
  case updateJob => exact .check_bind fun _ => .plan within_updateJobProperties
  case resolveIncident => exact .check_bind fun _ => .plan calm_resolveIncident
  case setVariables =>
    refine .check_bind fun instanceKey => .plan ?_
    split
    · exact .bind emits_self fun e => calm_emitAny (e.tame_propagatedUpdates _ _ _ _)
    · trivial
  case correlateMessage => exact .plan within_correlateMessage
  case broadcastSignal => exact .plan within_broadcastSignal
  case openMessageSubscription => exact .plan (calm_openMessageSubscription (hopened _ rfl))
  case correlateMessageSubscription => exact .plan within_correlateMessageSubscription
  case closeMessageSubscription => exact .plan calm_closeMessageSubscription
  case cancelInstance => exact .check_bind fun _ => .plan within_cancelInstance
  case suspendInstance =>
    refine .check_bind fun due => .plan ?_
    split
    · exact .bind emits_self fun _ => within_emit rfl rfl
    · trivial
  case resumeInstance =>
    refine .check_bind fun due => .plan ?_
    split
    · exact within_emit rfl rfl
    · trivial
  case migrateInstance => exact .check_bind fun _ => .plan (within_emit rfl rfl)
  case modifyInstance => exact .check_bind fun _ => .plan calm_modifyInstance
  case dispatchStartInstance => exact .plan within_startInstance
  case activateAdHocActivities => exact .check_bind fun _ => .plan (.bind emits_self fun _ => emits_enqueueAll)
  case createAgentInstance => exact .check_bind fun _ => .plan within_createAgentInstance
  case updateAgentInstance => exact .check_bind fun _ => .plan calm_updateAgentInstance
  case completeAgentInstance => exact .check_bind fun _ => .plan (.bind emits_self fun _ => calm_emit rfl rfl)

/-- A command that is planned, or refused, leaves the tokens of joins alone, but for a migration. -/
theorem calm_planCommand [Feel] (command : Command) (s : PlanState) :
    ∃ events, (planCommand command s).2.log = s.log ++ events ∧
      ∀ event ∈ events, event.joins = false ∨ event.migrates = true := by
  obtain ⟨events, hlog, hevents⟩ := within_planCommand command (fun _ _ => trivial) s fun _ _ _ => trivial
  have hno : ((Origin.routine :: command.origins).contains .join) = false := by cases command <;> rfl
  refine ⟨events, hlog, fun event hevent => ?_⟩
  have horigin := (hevents event hevent).1
  cases event <;> first | exact .inl rfl | exact .inr rfl | exact absurd (horigin.symm.trans hno) (by simp)

end Commands

end NanoBpm
