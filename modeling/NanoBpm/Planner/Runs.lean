import NanoBpm.Planner.Turns
import NanoBpm.Lib.Results

/-!
# Stretches of a run

What follows a command's own plan falls into stretches: a turn of the drain loop, or a part of a sweep. In a stretch
only step handlers and sweeps have their say, things are created under keys that are minted in it, one instance at most
among them, and a job that is created in it is not canceled in it. An invariant of the log and the engine that every stretch keeps is one that only
the plans of the commands can break.
-/

namespace NanoBpm

/-- The event cancels a job of the state, if it cancels one. -/
def Event.CancelsKnown (s : State) : Event → Prop
  | jobCanceled key _ => ∃ j ∈ s.jobs.vals, j.key = key
  | _ => True

theorem Event.ClosesOpen.cancelsKnown {s : State} {event : Event} (h : event.ClosesOpen s) : event.CancelsKnown s := by
  cases event <;> first | trivial | exact h.imp fun _ hj => ⟨hj.1, hj.2.1⟩

theorem Event.createdInstance_of_created {event : Event} (h : event.created = none) : event.createdInstance = none := by
  cases event <;> first | rfl | cases h

/-- Events that create no job, and then events that cancel none of those created. -/
def CancelsFirst (s : State) (events : List Event) : Prop :=
  ∃ quiet rest, events = quiet ++ rest ∧ (∀ event ∈ quiet, event.createsJob = false) ∧
    ∀ event ∈ rest, event.CancelsKnown s

/-- One stretch, with its events. -/
structure Stretch (os : List Origin) (s s' : PlanState) (events : List Event) : Prop where
  log : s'.log = s.log ++ events
  state : s'.engine.state = applyAll s.engine.state events
  partitionId : s'.engine.partitionId = s.engine.partitionId
  nextLocal : s.engine.nextLocal ≤ s'.engine.nextLocal
  allowed : ∀ event ∈ events, Plan.Allowed (MintedBetween s s') os event
  cancels : CancelsFirst s.engine.state events
  spawns : (events.filterMap Event.createdInstance).length ≤ 1

/-- Any number of stretches. -/
inductive Stretches (os : List Origin) : PlanState → PlanState → List Event → Prop where
  | nil (s : PlanState) : Stretches os s s []
  | cons {s s' s'' : PlanState} {events more : List Event} (h : Stretch os s s' events)
      (hmore : Stretches os s' s'' more) : Stretches os s s'' (events ++ more)

namespace Stretches

variable {os : List Origin} {s s' s'' : PlanState} {events more : List Event}

theorem one (h : Stretch os s s' events) : Stretches os s s' events := by
  simpa using Stretches.cons h (.nil s')

theorem append (h : Stretches os s s' events) (hmore : Stretches os s' s'' more) : Stretches os s s'' (events ++ more) := by
  induction h with
  | nil => exact hmore
  | cons h _ ih => simpa using Stretches.cons h (ih hmore)

theorem log (h : Stretches os s s' events) : s'.log = s.log ++ events := by
  induction h with
  | nil => simp
  | cons h _ ih => rw [ih, h.log, List.append_assoc]

theorem nextLocal (h : Stretches os s s' events) : s.engine.nextLocal ≤ s'.engine.nextLocal := by
  induction h with
  | nil => exact Nat.le_refl _
  | cons h _ ih => exact Nat.le_trans h.nextLocal ih

theorem origin (h : Stretches os s s' events) {event : Event} (hevent : event ∈ events) :
    (Origin.routine :: os).contains event.origin = true := by
  induction h with
  | nil => cases hevent
  | cons h _ ih =>
    rcases List.mem_append.mp hevent with hevent | hevent
    · exact (h.allowed event hevent).origin
    · exact ih hevent

end Stretches

/-- Nothing happens to the log and the state. -/
theorem Stretch.silent {os : List Origin} {s s' : PlanState} (hlog : s'.log = s.log)
    (hstate : s'.engine.state = s.engine.state) (hpartition : s'.engine.partitionId = s.engine.partitionId)
    (hnext : s.engine.nextLocal ≤ s'.engine.nextLocal) : Stretch os s s' [] :=
  ⟨by simp [hlog], by simpa using hstate, hpartition, hnext, by simp, ⟨[], [], rfl, by simp, by simp⟩, by simp⟩

namespace Plan

variable {α β : Type} {os : List Origin}

theorem partitionId_run (p : Plan α) (s : PlanState) : (p.run s).2.engine.partitionId = s.engine.partitionId := by
  obtain ⟨_, -, -, hpartition, -⟩ := p.emits_run s
  exact hpartition

/-- The events that a plan adds to the log are what it does to the state. -/
theorem state_run {p : Plan α} {s : PlanState} {events : List Event} (h : (p.run s).2.log = s.log ++ events) :
    (p.run s).2.engine.state = applyAll s.engine.state events := by
  obtain ⟨others, hlog, hstate, -⟩ := p.emits_run s
  rwa [List.append_cancel_left (h.symm.trans hlog)]

/-- What every such event keeps, a list of them keeps. -/
theorem keeps_applyAll {I : List Event → State → Prop} {P : Event → Prop}
    (hI : ∀ log s event, P event → I log s → I (log ++ [event]) (NanoBpm.apply s event)) (log : List Event) {s : State}
    {events : List Event} (hevents : ∀ event ∈ events, P event) (h : I log s) :
    I (log ++ events) (applyAll s events) := by
  induction events generalizing log s with
  | nil => simpa using h
  | cons event events ih =>
    have hfirst := hI log s event (hevents event (by simp)) h
    simpa using ih (log ++ [event]) (fun other hother => hevents other (by simp [hother])) hfirst

/-- What every event that a plan may emit keeps, the plan keeps. -/
theorem keeps_run {I : List Event → State → Prop} {P : Event → Prop} {p : Plan α}
    (hI : ∀ log s event, P event → I log s → I (log ++ [event]) (NanoBpm.apply s event)) (past : List Event)
    {s : PlanState} (hp : ∃ events, (p.run s).2.log = s.log ++ events ∧ ∀ event ∈ events, P event)
    (h : I (past ++ s.log) s.engine.state) : I (past ++ (p.run s).2.log) (p.run s).2.engine.state := by
  obtain ⟨events, hlog, hevents⟩ := hp
  rw [hlog, ← List.append_assoc, state_run hlog]
  exact keeps_applyAll hI _ hevents h

/-- The plan creates at most so many instances. -/
def Creates (n : Nat) (p : Plan α) : Prop :=
  ∀ s, ∃ events, (p.run s).2.log = s.log ++ events ∧ (events.filterMap Event.createdInstance).length ≤ n

theorem Creates.bind {n m : Nat} {p : Plan α} {f : α → Plan β} (hp : p.Creates n) (hf : ∀ a, (f a).Creates m) :
    (p >>= f).Creates (n + m) := by
  intro s
  obtain ⟨events, hlog, hle⟩ := hp s
  obtain ⟨more, hmore, hle'⟩ := hf (p.run s).1 (p.run s).2
  refine ⟨events ++ more, ?_, ?_⟩
  · rw [run_bind, hmore, hlog, List.append_assoc]
  · rw [List.filterMap_append, List.length_append]
    exact Nat.add_le_add hle hle'

theorem Creates.mono {n m : Nat} {p : Plan α} (h : p.Creates n) (hnm : n ≤ m) : p.Creates m := by
  intro s
  obtain ⟨events, hlog, hle⟩ := h s
  exact ⟨events, hlog, hle.trans hnm⟩

/-- The log of a plan is what it adds. -/
theorem Creates.length_le {n : Nat} {p : Plan α} (h : p.Creates n) {s : PlanState} {events : List Event}
    (hlog : (p.run s).2.log = s.log ++ events) : (events.filterMap Event.createdInstance).length ≤ n := by
  obtain ⟨others, hothers, hle⟩ := h s
  rwa [List.append_cancel_left (hlog.symm.trans hothers)]

theorem Emits.creates {p : Plan α} (h : p.Emits (fun _ => True) (·.createdInstance = none)) : p.Creates 0 := by
  intro s
  obtain ⟨events, hlog, hnone⟩ := h.log s fun _ _ _ => trivial
  refine ⟨events, hlog, ?_⟩
  rw [List.filterMap_eq_nil_iff.2 hnone]
  exact Nat.le_refl _

theorem creates_emit (event : Event) : (emit event).Creates ([event].filterMap Event.createdInstance).length := by
  cases hcreated : event.createdInstance with
  | none =>
    rw [List.filterMap_eq_nil_iff.2 (by simpa using hcreated)]
    exact Emits.creates (emits_emit (fun _ h => Event.createdInstance_of_created (plain_of_ofAgent h).2.1) hcreated)
  | some key =>
    -- a creation is emitted alone
    cases event with
    | processInstanceCreated => exact fun s => ⟨[_], rfl, Nat.le_refl _⟩
    | _ => cases hcreated

theorem creates_emitAll (events : List Event) : (emitAll events).Creates (events.filterMap Event.createdInstance).length := by
  induction events with
  | nil => exact Emits.creates emits_pure
  | cons event events ih =>
    rw [show event :: events = [event] ++ events from rfl, List.filterMap_append, List.length_append]
    exact (creates_emit event).bind fun _ => ih

/-- From the given state the plan runs in stretches. -/
def StretchesFrom (os : List Origin) (s : PlanState) (p : Plan α) : Prop := ∃ events, Stretches os s (p.run s).2 events

/-- It does from every state. -/
abbrev InStretches (os : List Origin) (p : Plan α) : Prop := ∀ s, p.StretchesFrom os s

theorem StretchesFrom.bind {s : PlanState} {p : Plan α} {f : α → Plan β} (hp : p.StretchesFrom os s)
    (hf : ∀ a, (f a).InStretches os) : (p >>= f).StretchesFrom os s := by
  obtain ⟨events, hevents⟩ := hp
  obtain ⟨more, hmore⟩ := hf (p.run s).1 (p.run s).2
  refine ⟨events ++ more, ?_⟩
  rw [run_bind]
  exact hevents.append hmore

theorem InStretches.bind {p : Plan α} {f : α → Plan β} (hp : p.InStretches os) (hf : ∀ a, (f a).InStretches os) :
    (p >>= f).InStretches os := fun s => (hp s).bind hf

/-- What a plan reads is the engine of its state. -/
theorem StretchesFrom.self_bind {s : PlanState} {f : Engine → Plan β} (h : (f s.engine).StretchesFrom os s) :
    (self >>= f).StretchesFrom os s := h

theorem inStretches_pure {a : α} : (Pure.pure a : Plan α).InStretches os := fun s => ⟨[], .nil s⟩

/-- A plan that mints nothing creates nothing. -/
theorem Emits.inStretches {p : Plan α} (h : p.Within (fun _ => False) os) : p.InStretches os := by
  intro s
  obtain ⟨⟨events, hlog, hevents⟩, hnext⟩ := h.log_of_not_mints s
  have hcreated : ∀ event ∈ events, event.created = none := fun event hevent =>
    Option.eq_none_iff_forall_ne_some.mpr (hevents event hevent).minted
  refine ⟨events, .one ⟨hlog, state_run hlog, partitionId_run p s, hnext.ge, ?_, ⟨events, [], by simp, ?_, by simp⟩, ?_⟩⟩
  · intro event hevent
    refine ⟨(hevents event hevent).origin, ?_, (hevents event hevent).jobs⟩
    simp [hcreated event hevent]
  · exact fun event hevent => Event.createsJob_of_created (hcreated event hevent)
  · rw [List.filterMap_eq_nil_iff.2 fun event hevent => Event.createdInstance_of_created (hcreated event hevent)]
    exact Nat.zero_le _

theorem inStretches_mapM_loop {xs : List α} {f : α → Plan β} {acc : List β} (h : ∀ a ∈ xs, (f a).InStretches os) :
    (List.mapM.loop f xs acc).InStretches os := by
  induction xs generalizing acc with
  | nil => exact inStretches_pure
  | cons a xs ih => exact .bind (h a (by simp)) fun _ => ih fun b hb => h b (by simp [hb])

theorem inStretches_mapM {xs : List α} {f : α → Plan β} (h : ∀ a ∈ xs, (f a).InStretches os) :
    (xs.mapM f).InStretches os := inStretches_mapM_loop h

theorem inStretches_forM {xs : List α} {f : α → Plan Unit}
    (h : ∀ a ∈ xs, (f a).InStretches os) : (xs.forM f).InStretches os := by
  induction xs with
  | nil => exact inStretches_pure
  | cons a xs ih => exact .bind (h a (by simp)) fun _ => ih fun b hb => h b (by simp [hb])

/-- A handler only mints. -/
theorem run_ofStepM (m : StepM α) (s : PlanState) :
    ((ofStepM m).run s).2.log = s.log ∧ ((ofStepM m).run s).2.engine.state = s.engine.state := by
  induction m generalizing s with
  | pure a => exact ⟨rfl, rfl⟩
  | mint k ih => exact ih s.mint.1 s.mint.2
  | tearDown scope k ih => exact ih (s.markTornDown scope)

/-- What may be emitted once a handler has returned: things under the keys it minted, and no cancellation of them. -/
def Followup (os : List Origin) (m : StepM α) (s : PlanState) (event : Event) : Prop :=
  Allowed (MintedBetween s ((ofStepM m).run s).2) os event ∧ event.CancelsKnown s.engine.state

/-- A handler, a plan that creates nothing, and then what the handler returned. -/
theorem stretch_of_handler {γ : Type} {m : StepM α} {s : PlanState} {quiet : Plan β} {rest : β → Plan γ}
    (hquiet : quiet.Within (fun _ => False) os)
    (hrest : ∀ b, (rest b).Emits (fun _ => False) (Followup os m s) ∧ (rest b).Creates 1) :
    ∃ events, Stretch os s ((quiet >>= rest).run ((ofStepM m).run s).2).2 events := by
  obtain ⟨hlog, hstate⟩ := run_ofStepM m s
  have hminted := nextLocal_le_run (ofStepM m) s
  have hpartition := partitionId_run (ofStepM m) s
  unfold Followup at hrest
  generalize ((ofStepM m).run s).2 = s₁ at *
  obtain ⟨⟨first, hfirst, hallowed⟩, hnext⟩ := hquiet.log_of_not_mints s₁
  obtain ⟨⟨others, hothers, hfollow⟩, hnext'⟩ := (hrest (quiet.run s₁).1).1.log_of_not_mints (quiet.run s₁).2
  have hrun : ((quiet >>= rest).run s₁).2 = ((rest (quiet.run s₁).1).run (quiet.run s₁).2).2 := by rw [run_bind]
  have hlogs : ((quiet >>= rest).run s₁).2.log = s₁.log ++ (first ++ others) := by
    rw [hrun, hothers, hfirst, List.append_assoc]
  have hend : ((quiet >>= rest).run s₁).2.engine.nextLocal = s₁.engine.nextLocal := by rw [hrun, hnext', hnext]
  have hcreated : ∀ event ∈ first, event.created = none := fun event hevent =>
    Option.eq_none_iff_forall_ne_some.mpr (hallowed event hevent).minted
  refine ⟨first ++ others, ?_, ?_, ?_, ?_, ?_, ⟨first, others, rfl, ?_, ?_⟩, ?_⟩
  · rw [hlogs, hlog]
  · rw [state_run hlogs, hstate]
  · rw [partitionId_run, hpartition]
  · rw [hend]
    exact hminted
  · intro event hevent
    rcases List.mem_append.mp hevent with hevent | hevent
    · exact ⟨(hallowed event hevent).origin, by simp [hcreated event hevent], (hallowed event hevent).jobs⟩
    · obtain ⟨⟨horigin, hkey, hjobs⟩, -⟩ := hfollow event hevent
      refine ⟨horigin, fun key hmade => ?_, hjobs⟩
      obtain ⟨n, hn, hlt, rfl⟩ := hkey key hmade
      exact ⟨n, hn, hend ▸ hlt, rfl⟩
  · exact fun event hevent => Event.createsJob_of_created (hcreated event hevent)
  · exact fun event hevent => (hfollow event hevent).2
  · rw [List.filterMap_append, List.filterMap_eq_nil_iff.2 fun event hevent =>
      Event.createdInstance_of_created (hcreated event hevent), List.nil_append]
    exact (hrest (quiet.run s₁).1).2.length_le hothers

theorem StretchesFrom.ofStepM_bind {m : StepM α} {f : α → Plan β} {s : PlanState} {Q : α → Prop}
    (hm : m.All (MintedBetween s ((ofStepM m).run s).2) Q)
    (hf : ∀ a, Q a → ∃ (γ : Type) (quiet : Plan γ) (rest : γ → Plan β), (f a).run = (quiet >>= rest).run ∧
      quiet.Within (fun _ => False) os ∧ ∀ b, (rest b).Emits (fun _ => False) (Followup os m s) ∧ (rest b).Creates 1) :
    (ofStepM m >>= f).StretchesFrom os s := by
  have hresult := hm.run s fun n hn hlt => ⟨n, hn, hlt, rfl⟩
  obtain ⟨γ, quiet, rest, hsplit, hquiet, hrest⟩ := hf _ hresult
  obtain ⟨events, hevents⟩ := stretch_of_handler hquiet hrest
  refine ⟨events, .one ?_⟩
  rw [run_bind, hsplit]
  exact hevents

/-- What a handler returned may be left unused. -/
theorem followups_of_within {m : StepM α} {s : PlanState} {p : Plan β} (h : p.Within (fun _ => False) os) :
    ∃ (γ : Type) (quiet : Plan γ) (rest : γ → Plan β), p.run = (quiet >>= rest).run ∧
      quiet.Within (fun _ => False) os ∧ ∀ b, (rest b).Emits (fun _ => False) (Followup os m s) ∧ (rest b).Creates 1 :=
  ⟨β, p, Pure.pure, funext fun s => (run_bind p Pure.pure s).symm, h, fun _ =>
    ⟨emits_pure, (Emits.creates emits_pure).mono (Nat.zero_le _)⟩⟩

/-- What is tame for a handler may be emitted once it has returned. -/
theorem followup_of_tame {m : StepM α} {s : PlanState} {i : Key} {event : Event} (hjob : Origin.job ∈ os)
    (h : event.Tame (MintedBetween s ((ofStepM m).run s).2) s.engine.state i) : Followup os m s event :=
  ⟨allowed_routine h.origin h.minted fun _ => hjob, h.closesOpen.cancelsKnown⟩

theorem cancelsKnown_of_closes {s : State} {event : Event} (h : event.closes = false) : event.CancelsKnown s :=
  (Event.closesOpen_of_closes h s).cancelsKnown

theorem followup_wrapped {m : StepM α} {s : PlanState} (event : Event) (h : ofAgent event = true) : Followup os m s event :=
  ⟨allowed_wrapped event h, cancelsKnown_of_closes (plain_of_ofAgent h).2.2⟩

end Plan

/-! ## Turns -/

/-- The tokens of joins, which are neither created nor closed. -/
def Event.OfJoin (event : Event) : Prop := event.origin = .join ∧ event.created = none ∧ event.closes = false

/-- What a turn emits: events of its handler, tokens of joins, and called instances. -/
def Event.OfTurn (F : Key → Prop) (s : State) (i : Key) (event : Event) : Prop :=
  event.Tame F s i ∨ event.OfJoin ∨ event.Spawns F

theorem Event.Tame.createdInstance {F : Key → Prop} {s : State} {i : Key} {event : Event} (h : event.Tame F s i) :
    event.createdInstance = none := by
  have horigin := h.origin
  cases event with
  | processInstanceCreated _ _ _ _ _ _ _ _ parent _ => cases parent <;> cases horigin
  | _ => rfl

theorem Tame.createdInstances {F : Key → Prop} {s : State} {i : Key} {events : List Event} (h : Tame F s i events) :
    events.filterMap Event.createdInstance = [] :=
  List.filterMap_eq_nil_iff.2 fun event hevent => (h event hevent).createdInstance

theorem Outcome.Moves.mem {F : Key → Prop} {s : State} {i : Key} {out : Outcome} (h : Outcome.Moves F s i out)
    {event : Event} (hevent : event ∈ out.1) : event.OfTurn F s i := by
  obtain ⟨events, spawned, after, source, scope, indices, steps, hevents, hafter, hspawned, -, -, rfl⟩ := h
  simp only [List.mem_append] at hevent
  rcases hevent with ((hevent | hevent) | hevent) | hevent
  · exact .inl (hevents event hevent)
  · rcases Plan.mem_takeFlows hevent with ⟨target, rfl⟩ | ⟨target, flow, rfl⟩
    · exact .inl (.plain rfl rfl rfl rfl rfl)
    · exact .inr (.inl ⟨rfl, rfl, rfl⟩)
  · exact .inr (.inr (hspawned event hevent))
  · exact .inl (hafter event hevent)

/-- A handler calls one instance at most. -/
theorem Outcome.Moves.spawnsOne {F : Key → Prop} {s : State} {i : Key} {out : Outcome} (h : Outcome.Moves F s i out) :
    (out.1.filterMap Event.createdInstance).length ≤ 1 := by
  obtain ⟨events, spawned, after, source, scope, indices, steps, hevents, hafter, -, hone, -, rfl⟩ := h
  have hflows : (s.takeFlows i source scope indices).1.filterMap Event.createdInstance = [] := by
    refine List.filterMap_eq_nil_iff.2 fun event hevent => ?_
    rcases Plan.mem_takeFlows hevent with ⟨target, rfl⟩ | ⟨target, flow, rfl⟩ <;> rfl
  simp only [List.filterMap_append, hevents.createdInstances, hflows, hafter.createdInstances, List.nil_append,
    List.append_nil]
  exact (List.length_filterMap_le _ _).trans hone

theorem Outcome.Fires.mem {F : Key → Prop} {s : State} {i : Key} {join : ElementId} {out : Outcome}
    (h : Outcome.Fires F s i join out) {event : Event} (hevent : event ∈ out.1) : event.OfTurn F s i := by
  obtain ⟨events, rest, hevents, hrest, rfl⟩ := h
  simp only [List.mem_append, List.mem_cons] at hevent
  rcases hevent with hevent | rfl | hevent
  · exact .inl (hevents event hevent)
  · exact .inr (.inl ⟨rfl, rfl, rfl⟩)
  · exact hrest.mem hevent

theorem Outcome.Fires.spawnsOne {F : Key → Prop} {s : State} {i : Key} {join : ElementId} {out : Outcome}
    (h : Outcome.Fires F s i join out) : (out.1.filterMap Event.createdInstance).length ≤ 1 := by
  obtain ⟨events, rest, hevents, hrest, rfl⟩ := h
  rw [List.filterMap_append, hevents.createdInstances, List.nil_append]
  exact hrest.spawnsOne

theorem Step.Handled.mem {F : Key → Prop} {s : State} {pending : List Step} {i : Key} {step : Step} {out : Outcome}
    (h : Step.Handled F s pending i step out) {event : Event} (hevent : event ∈ out.1) :
    event.OfTurn F s i := by
  cases h with
  | moves h => exact h.mem hevent
  | openJoin _ _ _ h => exact h.mem hevent
  | join hkind hrest =>
    rcases List.mem_append.mp hevent with hevent | hevent
    · unfold arrivalOf at hevent
      split at hevent
      · rw [List.mem_singleton.mp hevent]
        exact .inr (.inl ⟨rfl, rfl, rfl⟩)
      · simp at hevent
    · split at hrest
      · exact hrest.mem hevent
      · exact hrest.mem hevent

theorem Step.Handled.spawnsOne {F : Key → Prop} {s : State} {pending : List Step} {i : Key} {step : Step} {out : Outcome}
    (h : Step.Handled F s pending i step out) : (out.1.filterMap Event.createdInstance).length ≤ 1 := by
  cases h with
  | moves h => exact h.spawnsOne
  | openJoin _ _ _ h => exact h.spawnsOne
  | join hkind hrest =>
    rw [List.filterMap_append, List.filterMap_eq_nil_iff.2 fun event hevent => ?_, List.nil_append]
    · split at hrest
      · exact hrest.spawnsOne
      · exact hrest.spawnsOne
    · unfold arrivalOf at hevent
      split at hevent
      · rw [List.mem_singleton.mp hevent]
        rfl
      · simp at hevent

/-- What a turn emits. -/
theorem Engine.mem_processStep [Feel] (e : Engine) {F : Key → Prop} {step : Step} {pending : List Step} :
    (e.processStep step pending).All F fun out =>
      (∀ event ∈ out.1, ∃ i, event.OfTurn F e.state i) ∧ (out.1.filterMap Event.createdInstance).length ≤ 1 := by
  refine e.outcome_processStep.mono fun out hout => ?_
  rcases hout with ⟨-, hout⟩ | ⟨-, target, -, hhandled⟩
  · have htame : Tame F e.state 0 out.1 := by
      intro event hevent
      rw [hout] at hevent
      simp only [Engine.revokeDroppedJoinArrival] at hevent
      split at hevent
      · split at hevent
        · rw [List.mem_singleton.mp hevent]
          exact .plain rfl rfl rfl rfl rfl
        · simp at hevent
      · simp at hevent
    refine ⟨fun event hevent => ⟨0, .inl (htame event hevent)⟩, ?_⟩
    rw [htame.createdInstances]
    exact Nat.zero_le _
  · exact ⟨fun event hevent => ⟨target.instanceKey, hhandled.mem hevent⟩, hhandled.spawnsOne⟩

namespace Plan

variable {os : List Origin}

/-- The tame events of a handler are emitted once it has returned. -/
theorem followups_emitAll {α : Type} {m : StepM α} {s : PlanState} {i : Key} {events : List Event} (hjob : Origin.job ∈ os)
    (h : Tame (MintedBetween s ((ofStepM m).run s).2) s.engine.state i events) :
    (emitAll events).Emits (fun _ => False) (Followup os m s) ∧ (emitAll events).Creates 1 := by
  refine ⟨emits_emitAll followup_wrapped fun event hevent => followup_of_tame hjob (h event hevent), ?_⟩
  refine (creates_emitAll events).mono ?_
  rw [h.createdInstances]
  exact Nat.zero_le _

theorem followup_of_turn {α : Type} {m : StepM α} {s : PlanState} {i : Key} {event : Event}
    (h : event.OfTurn (MintedBetween s ((ofStepM m).run s).2) s.engine.state i) :
    Followup [.join, .job, .spawn] m s event := by
  rcases h with htame | ⟨horigin, hcreated, hcloses⟩ | hspawns
  · exact followup_of_tame (by simp) htame
  · refine ⟨⟨by simp [horigin], by simp [hcreated], ?_⟩, cancelsKnown_of_closes hcloses⟩
    simp [Event.createsJob_of_created hcreated]
  · have horigin := hspawns.origin
    refine ⟨⟨by simp [horigin], hspawns.minted, fun _ => by simp⟩, cancelsKnown_of_closes ?_⟩
    cases event <;> first | rfl | cases horigin

variable [Feel]

/-- A turn is a stretch. -/
theorem inStretches_step (next : Step) : (step next).InStretches [.join, .job, .spawn] := by
  intro s
  refine StretchesFrom.ofStepM_bind s.engine.mem_processStep fun out hout => ?_
  refine ⟨Unit, Pure.pure (), fun _ => _, rfl, trivial, fun _ => ⟨.bind ?_ fun _ => emits_enqueueAll, ?_⟩⟩
  · refine emits_emitAll followup_wrapped fun event hevent => ?_
    obtain ⟨i, hturn⟩ := hout.1 event hevent
    exact followup_of_turn hturn
  · exact ((creates_emitAll out.1).bind fun _ => Emits.creates emits_enqueueAll).mono hout.2

/-! ## Sweeps -/

/-- The completion of a drained sub-process. -/
theorem inStretches_completeDrained {instanceKey eik : Key} {elementId : ElementId} :
    (completeDrained instanceKey eik elementId).InStretches [.join, .job, .spawn] := by
  have hdisarm : (disarmBoundaries eik).Within (fun _ => False) [.join, .job, .spawn] := calm_disarmBoundaries
  have hwrites : ∀ (e : Engine) scope updates,
      (emitAll (e.outputWrites instanceKey scope updates)).Within (fun _ => False) [.join, .job, .spawn] :=
    fun e scope updates => calm_emitAny (e.tame_outputWrites instanceKey scope updates)
  have hflows : Covers (fun _ => False) (Allowed (fun _ => False) [.join, .job, .spawn]) :=
    ⟨fun event horigin hcreated => allowed_routine horigin hcreated fun _ => by simp, fun _ _ _ =>
      ⟨rfl, by simp [Event.created], by simp [Event.createsJob]⟩, fun event h => ⟨by simp [h.origin], h.minted, by simp⟩⟩
  intro s
  refine StretchesFrom.self_bind ?_
  dsimp only
  split
  · exact (Emits.inStretches hdisarm s).bind fun _ => inStretches_pure
  split
  · refine StretchesFrom.ofStepM_bind s.engine.moves_parkIoMapping fun out hout => ?_
    refine ⟨Unit, Pure.pure (), fun _ => _, rfl, trivial, fun _ => ⟨.bind ?_ fun _ => emits_pure, ?_⟩⟩
    · exact emits_emitAll followup_wrapped fun event hevent => followup_of_turn (hout.mem hevent)
    · exact ((creates_emitAll out.1).bind fun _ => Emits.creates emits_pure).mono hout.spawnsOne
  · next updates _ =>
    generalize s.engine.state.scopeOf instanceKey eik = scope
    refine StretchesFrom.bind (Emits.inStretches (calm_emit rfl rfl) s) fun _ s => ?_
    refine StretchesFrom.self_bind (StretchesFrom.ofStepM_bind s.engine.tame_beginEndListenerChain fun job hjob => ?_)
    cases job with
    | some event =>
      -- the boundary events are disarmed and the outputs written before the job is created
      refine ⟨Unit, disarmBoundaries eik >>= fun _ => self >>= fun e => emitAll (e.outputWrites instanceKey scope updates),
        fun _ => emit event >>= fun _ => Pure.pure [], ?_, ?_, fun _ => ?_⟩
      · funext s
        simp only [run_bind]
      · exact .bind hdisarm fun _ => .bind emits_self fun e => hwrites e _ _
      · refine ⟨.bind (emits_emit followup_wrapped (followup_of_tame (by simp) (hjob event rfl))) fun _ => emits_pure, ?_⟩
        exact ((creates_emit event).bind fun _ => Emits.creates emits_pure).mono (List.length_filterMap_le _ _)
    | none =>
      refine followups_of_within (.bind (calm_emit rfl rfl) fun _ => .bind hdisarm fun _ => .bind emits_self fun e => ?_)
      refine .bind (hwrites e _ _) fun _ => .bind emits_self fun e => .bind ?_ fun _ => emits_pure
      exact emits_emitAll hflows.wrapped fun _ => hflows.takeFlows

theorem inStretches_completeDrainedSubprocesses : completeDrainedSubprocesses.InStretches [.join, .job, .spawn] := by
  refine .bind (Emits.inStretches emits_self) fun e => .bind (Emits.inStretches emits_getLog) fun log => ?_
  refine .bind (inStretches_mapM fun _ _ => inStretches_completeDrained) fun followups => ?_
  exact Emits.inStretches emits_enqueueAll

/-! ## The drain -/

omit [Feel] in
theorem inStretches_popFront : popFront.InStretches os := fun _ => ⟨[], .one (.silent rfl rfl rfl (Nat.le_refl _))⟩

theorem inStretches_runFrom (fuel cursor : Nat) : (runFrom fuel cursor).InStretches [.join, .job, .spawn] := by
  induction fuel generalizing cursor with
  | zero => exact inStretches_pure
  | succ fuel ih =>
    refine .bind inStretches_popFront fun next => ?_
    cases next with
    | some next => exact .bind (inStretches_step next) fun _ => ih cursor
    | none =>
      refine .bind inStretches_completeDrainedSubprocesses fun _ =>
        .bind (Emits.inStretches calm_reevaluateConditionals) fun cursor =>
        .bind (Emits.inStretches emits_getQueue) fun queue => ?_
      split
      · exact ih cursor
      · refine .bind (Emits.inStretches calm_completeFinishedInstances) fun again => ?_
        split
        · exact ih cursor
        · exact inStretches_pure

/-- What follows a planned command. -/
theorem inStretches_settle (fuel : Nat) : (Engine.settle fuel).InStretches [.join, .job, .spawn] :=
  .bind (inStretches_runFrom fuel 0) fun _ => Emits.inStretches calm_cascadeCancelChildren

end Plan

/-! ## Minted keys -/

/-- The keys the engine has minted. -/
def Engine.Minted (e : Engine) (key : Key) : Prop := ∃ n < e.nextLocal, key = Engine.mintedKey e.partitionId n

theorem mintedKey_inj {partitionId n n' : Nat} (hn : n < localMask) (hn' : n' < localMask)
    (h : Engine.mintedKey partitionId n = Engine.mintedKey partitionId n') : n = n' := by
  have hloc := congrArg localOf h
  unfold Engine.mintedKey at hloc
  unfold localMask at hn hn'
  rw [localOf_composeKey (by omega), localOf_composeKey (by omega)] at hloc
  omega

@[simp] theorem minted_applyEvent (s : PlanState) (event : Event) :
    (s.applyEvent event).engine.Minted = s.engine.Minted := by
  unfold Engine.Minted
  rw [PlanState.nextLocal_applyEvent, PlanState.partitionId_applyEvent]

theorem minted_run {α : Type} (p : Plan α) {s : PlanState} {key : Key} (h : s.engine.Minted key) :
    (p.run s).2.engine.Minted key := by
  obtain ⟨n, hn, rfl⟩ := h
  exact ⟨n, Nat.lt_of_lt_of_le hn (p.nextLocal_le_run s), by rw [Plan.partitionId_run]⟩

theorem PlanState.nextLocal_mint (s : PlanState) : s.mint.2.engine.nextLocal = s.engine.nextLocal + 1 := rfl

theorem minted_mint {s : PlanState} {key : Key} (h : s.engine.Minted key) : s.mint.2.engine.Minted key := by
  obtain ⟨n, hn, hkey⟩ := h
  exact ⟨n, Nat.lt_succ_of_lt hn, hkey⟩

/-- The next key is a new one. -/
theorem not_minted_next {e : Engine} (hroom : e.nextLocal < localMask) :
    ¬e.Minted (Engine.mintedKey e.partitionId e.nextLocal) := by
  rintro ⟨n, hn, hkey⟩
  have heq := mintedKey_inj hroom (Nat.lt_trans hn hroom) hkey
  omega

/-- The keys minted in a stretch are new. -/
theorem MintedBetween.not_minted {s s' : PlanState} {key : Key} (h : MintedBetween s s' key)
    (hroom : s'.engine.nextLocal ≤ localMask) : ¬s.engine.Minted key := by
  obtain ⟨n, hle, hlt, rfl⟩ := h
  rintro ⟨m, hm, hkey⟩
  have heq := mintedKey_inj (Nat.lt_of_lt_of_le hlt hroom) (by omega) hkey
  omega

theorem Stretch.minted {os : List Origin} {s s' : PlanState} {events : List Event} (h : Stretch os s s' events)
    {key : Key} (hkey : s.engine.Minted key) : s'.engine.Minted key := by
  obtain ⟨n, hn, rfl⟩ := hkey
  exact ⟨n, Nat.lt_of_lt_of_le hn h.nextLocal, by rw [h.partitionId]⟩

/-! ## Plans of commands -/

/-- A command does what some plan does. -/
def Cmd.RunsPlan {α : Type} (c : Cmd α) : Prop := ∀ s, ∃ p : Plan Unit, (c s).2 = (p.run s).2

theorem Cmd.RunsPlan.plan {α : Type} (p : Plan α) : (Cmd.plan p).RunsPlan := by
  intro s
  refine ⟨p >>= fun _ => Pure.pure (), ?_⟩
  rw [Plan.run_bind]
  rfl

theorem Cmd.RunsPlan.check_bind {α β : Type} {f : Engine → Except EngineError α} {c : α → Cmd β}
    (h : ∀ a, (c a).RunsPlan) : (Cmd.check f >>= c).RunsPlan := by
  intro s
  obtain ⟨a, -, hrun⟩ | ⟨err, -, hrun⟩ := Cmd.check_bind_cases f c s
  · rw [hrun]
    exact h a s
  · rw [hrun]
    exact ⟨Pure.pure (), rfl⟩

theorem runsPlan_planCommand [Feel] (command : Command) : (planCommand command).RunsPlan := by
  cases command <;> unfold planCommand <;> first
    | exact .plan _
    | exact .check_bind fun _ => .plan _
    | exact .check_bind fun _ => .check_bind fun _ => .plan _

/-! ## Checks -/

theorem okOr_eq_ok {α : Type} {err : EngineError} {x : Option α} {a : α} : okOr err x = .ok a ↔ x = some a := by
  cases x <;> simp [okOr]

theorem refuseIf_eq_ok {cond : Bool} {err : EngineError} {u : Unit} : refuseIf cond err = .ok u ↔ cond = false := by
  cases cond <;> simp [refuseIf]

theorem checkActive_ok {e : Engine} {key : Key} {i : ProcessInstance} (h : checkActive e key = .ok i) :
    e.state.instances[key]? = some i ∧ i.state = .active := by
  unfold checkActive at h
  have hfilter := okOr_eq_ok.1 h
  rw [Option.filter_eq_some_iff] at hfilter
  exact ⟨hfilter.1, beq_iff_eq.1 hfilter.2⟩

/-! ## Invariants of runs -/

namespace Engine

variable [Feel]

/-- A relation between the log so far and the engine that only the plan of a command can break. -/
structure LogInvariant (K : List Event → Engine → Prop) : Prop where
  settings : ∀ {log : List Event} {e e' : Engine}, e'.state = e.state → e'.nextLocal = e.nextLocal →
    e'.partitionId = e.partitionId → K log e → K log e'
  stretch : ∀ {log : List Event} {s s' : PlanState} {events : List Event}, Stretch [.join, .job, .spawn] s s' events →
    K log s.engine → K (log ++ events) s'.engine

omit [Feel] in
/-- A relation that may speak of the minted keys, in runs that stay within the key space of the partition. -/
theorem LogInvariant.of_minted {I : (Key → Prop) → List Event → State → Prop}
    (hstretch : ∀ {log : List Event} {s s' : PlanState} {events : List Event}, Stretch [.join, .job, .spawn] s s' events →
      s'.engine.nextLocal ≤ localMask → I s.engine.Minted log s.engine.state →
      I s'.engine.Minted (log ++ events) s'.engine.state) :
    LogInvariant fun log e => e.nextLocal ≤ localMask → I e.Minted log e.state where
  settings {log e e'} hstate hnext hpartition h hroom := by
    have hminted : e'.Minted = e.Minted := by
      unfold Minted
      rw [hnext, hpartition]
    rw [hminted, hstate]
    exact h (hnext ▸ hroom)
  stretch hs h hroom := hstretch hs hroom (h (Nat.le_trans hs.nextLocal hroom))

/-- The plan of a command forgets no key. -/
theorem minted_planCommandAt {e : Engine} {command : Command} {now : Nat} {s : PlanState}
    (hs : e.planCommandAt command now = (.ok (), s)) :
    e.nextLocal ≤ s.engine.nextLocal ∧ ∀ key, e.Minted key → s.engine.Minted key := by
  obtain ⟨p, hp⟩ := runsPlan_planCommand command { engine := e.beginCommand now }
  have hrun : (p.run { engine := e.beginCommand now }).2 = s := hp.symm.trans (congrArg Prod.snd hs)
  rw [← hrun]
  exact ⟨p.nextLocal_le_run { engine := e.beginCommand now },
    fun key hkey => minted_run p (s := { engine := e.beginCommand now }) hkey⟩

/-- Every call meets the condition, which may refer to the log so far. -/
def AlongCalls (fuel : Nat) (Cond : List Event → Engine → HostCall → Prop) :
    List Event → Engine → List HostCall → Prop
  | _, _, [] => True
  | log, e, c :: cs => Cond log e c ∧ AlongCalls fuel Cond (log ++ (e.call fuel c).1) (e.call fuel c).2 cs

theorem alongCalls_true {fuel : Nat} {log : List Event} {e : Engine} {calls : List HostCall} :
    AlongCalls fuel (fun _ _ _ => True) log e calls := by
  induction calls generalizing log e with
  | nil => trivial
  | cons c cs ih => exact ⟨trivial, ih⟩

instance decidableAlongCalls {fuel : Nat} {Cond : List Event → Engine → HostCall → Prop}
    [∀ log e c, Decidable (Cond log e c)] : ∀ log e calls, Decidable (AlongCalls fuel Cond log e calls)
  | _, _, [] => isTrue trivial
  | log, e, c :: cs =>
    @instDecidableAnd _ _ _ (decidableAlongCalls (log ++ (e.call fuel c).1) (e.call fuel c).2 cs)

namespace LogInvariant

variable {K : List Event → Engine → Prop}

omit [Feel] in
theorem stretches (h : LogInvariant K) {log : List Event} {s s' : PlanState} {events : List Event}
    (hs : Stretches [.join, .job, .spawn] s s' events) (hK : K log s.engine) : K (log ++ events) s'.engine := by
  induction hs generalizing log with
  | nil => simpa using hK
  | cons hstretch _ ih =>
    rw [← List.append_assoc]
    exact ih (h.stretch hstretch hK)

/-- A command whose plan keeps it keeps it. -/
theorem command (h : LogInvariant K) {log : List Event} {e : Engine} (htombstones : e.retiredTombstones.isEmpty = true)
    (hK : K log e) (fuel : Nat) {command : Command} {now : Nat}
    (hplan : ∀ s, e.planCommandAt command now = (.ok (), s) → K (log ++ s.log) s.engine) :
    K (log ++ returned (e.applyCommandAt fuel command now).1) (e.applyCommandAt fuel command now).2 := by
  have hemits := emits_planCommandAt e command now
  have herror := @planCommandAt_of_error _ e command now
  unfold applyCommandAt
  generalize e.planCommandAt command now = planned at hemits herror hplan ⊢
  obtain ⟨result, s⟩ := planned
  cases result with
  | error err =>
    rw [show s = _ from herror rfl]
    simp only [returned, List.append_nil]
    exact h.settings (e := e) rfl rfl rfl hK
  | ok u =>
    obtain ⟨events, hevents⟩ := Plan.inStretches_settle fuel s
    obtain ⟨_, -, -, -, hkept⟩ := hemits.trans (Plan.emits_run (settle fuel) s)
    have hempty : ((settle fuel).run s).2.engine.retiredTombstones.isEmpty = true := by
      rw [hkept]
      exact htombstones
    simp only [returned, finishCommand, if_pos hempty, hevents.log, ← List.append_assoc]
    exact h.stretches hevents (hplan s rfl)

/-- It holds at the end of a run in which the plan of every command keeps it. -/
theorem calls (h : LogInvariant K) {Cond : List Event → Engine → HostCall → Prop}
    (hplan : ∀ {log e command now s}, K log e → Cond log e (.applyCommandAt command now) →
      e.planCommandAt command now = (.ok (), s) → K (log ++ s.log) s.engine)
    (fuel : Nat) {log : List Event} {e : Engine} (htombstones : e.retiredTombstones.isEmpty = true)
    {calls : List HostCall} (hK : K log e) (hcond : AlongCalls fuel Cond log e calls) :
    K (log ++ (runCalls fuel e calls).1) (runCalls fuel e calls).2 := by
  induction calls generalizing log e with
  | nil => simpa [runCalls] using hK
  | cons c cs ih =>
    have hcall : K (log ++ (e.call fuel c).1) (e.call fuel c).2 := by
      cases c with
      | applyCommandAt command now => exact h.command htombstones hK fuel fun s => hplan hK hcond.1
      | _ =>
        simp only [call, List.append_nil]
        exact h.settings (e := e) rfl rfl rfl hK
    rw [runCalls_cons, ← List.append_assoc]
    exact ih (follows_call htombstones fuel c).noTombstones hcall hcond.2

end LogInvariant

end Engine

end NanoBpm
