import NanoBpm.Planner.Emits

/-!
# Turns of the drain loop

A turn takes one step off the queue and works on it. The turns of a plan are read off the plan itself: they are the
points at which it pops a step. A join fires in a turn and nowhere else.
-/

namespace NanoBpm

/-- A step that has been taken off the queue, and the plan's state at that point. -/
structure Turn where
  before : PlanState
  step : Step

/-- The turns of a plan. -/
def Plan.turns {α : Type} : Plan α → PlanState → List Turn
  | .pure _, _ => []
  | .read k, s => (k s).turns s
  | .mint k, s => (k s.mint.1).turns s.mint.2
  | .tearDown scope k, s => k.turns (s.markTornDown scope)
  | .apply event k, s => k.turns (s.applyEvent event)
  | .push step k, s => k.turns (s.pushStep step)
  | .pop k, s => (s.popStep.1.toList.map fun step => ⟨s.popStep.2, step⟩) ++ (k s.popStep.1).turns s.popStep.2
  | .dispatch k, s => (k s.advanceDispatch.1).turns s.advanceDispatch.2

namespace Plan

variable {α β : Type}

theorem run_bind (p : Plan α) (f : α → Plan β) (s : PlanState) :
    (p >>= f).run s = (f (p.run s).1).run (p.run s).2 := by
  show (Plan.bind p f).run s = _
  induction p generalizing s with
  | pure a => rfl
  | read k ih => exact ih s s
  | mint k ih => exact ih s.mint.1 s.mint.2
  | tearDown scope k ih => exact ih (s.markTornDown scope)
  | apply event k ih => exact ih (s.applyEvent event)
  | push step k ih => exact ih (s.pushStep step)
  | pop k ih => exact ih s.popStep.1 s.popStep.2
  | dispatch k ih => exact ih s.advanceDispatch.1 s.advanceDispatch.2

theorem turns_bind (p : Plan α) (f : α → Plan β) (s : PlanState) :
    (p >>= f).turns s = p.turns s ++ (f (p.run s).1).turns (p.run s).2 := by
  show (Plan.bind p f).turns s = _
  induction p generalizing s with
  | pure a => rfl
  | read k ih => exact ih s s
  | mint k ih => exact ih s.mint.1 s.mint.2
  | tearDown scope k ih => exact ih (s.markTornDown scope)
  | apply event k ih => exact ih (s.applyEvent event)
  | push step k ih => exact ih (s.pushStep step)
  | pop k ih =>
    show _ ++ (Plan.bind (k s.popStep.1) f).turns s.popStep.2 = _
    rw [ih, ← List.append_assoc]
    rfl
  | dispatch k ih => exact ih s.advanceDispatch.1 s.advanceDispatch.2

theorem Emits.turns_eq_nil {P : Event → Prop} {p : Plan α} (h : p.Emits (fun _ => True) P) (s : PlanState) : p.turns s = [] := by
  induction p generalizing s with
  | pure a => rfl
  | read k ih => exact ih s (h s) s
  | mint k ih => exact ih _ (h.2 _ trivial) s.mint.2
  | tearDown scope k ih => exact ih h (s.markTornDown scope)
  | apply event k ih => exact ih h.2 (s.applyEvent event)
  | push step k ih => exact ih h (s.pushStep step)
  | pop k => exact h.elim
  | dispatch k ih => exact ih _ (h _) s.advanceDispatch.2

end Plan

/-! ## Firings -/

/-- The join that an event fires. -/
def Event.firing : Event → Option (Key × ElementId)
  | .parallelJoinFired instanceKey elementId => some (instanceKey, elementId)
  | _ => none

theorem Event.firing_of_joins {event : Event} (h : event.joins = false) : event.firing = none := by
  cases event <;> first | rfl | cases h

theorem Event.firing_of_routine {event : Event} (h : event.origin = .routine) : event.firing = none :=
  firing_of_joins (joins_of_routine h)

/-- The joins a list of events fires, in order. -/
def firings (events : List Event) : List (Key × ElementId) := events.filterMap Event.firing

@[simp] theorem firings_append (events more : List Event) : firings (events ++ more) = firings events ++ firings more :=
  List.filterMap_append

theorem firings_eq_nil {events : List Event} (h : ∀ event ∈ events, event.firing = none) : firings events = [] :=
  List.filterMap_eq_nil_iff.mpr h

namespace Turn

variable [Feel]

/-- What the handler of the step returns. -/
def outcome (t : Turn) : Outcome :=
  ((Plan.ofStepM (t.before.engine.processStep t.step t.before.queue)).run t.before).1

/-- The joins that fire in a turn. -/
def fires (t : Turn) : List (Key × ElementId) := firings t.outcome.1

end Turn

namespace Plan

variable {α β : Type}

/-- A plan whose events fire the given joins. -/
def Fires (p : Plan α) (joins : List (Key × ElementId)) (s : PlanState) : Prop :=
  ∃ events, (p.run s).2.log = s.log ++ events ∧ firings events = joins

theorem Fires.bind {p : Plan α} {f : α → Plan β} {s : PlanState} {joins more : List (Key × ElementId)}
    (hp : p.Fires joins s) (hf : (f (p.run s).1).Fires more (p.run s).2) : (p >>= f).Fires (joins ++ more) s := by
  obtain ⟨events, hlog, rfl⟩ := hp
  obtain ⟨others, hlog', rfl⟩ := hf
  refine ⟨events ++ others, ?_, firings_append events others⟩
  rw [run_bind, hlog', hlog, List.append_assoc]

/-- A plan that fires nothing. -/
theorem Emits.fires {p : Plan α} (h : p.Emits (fun _ => True) (·.firing = none)) (s : PlanState) : p.Fires [] s := by
  obtain ⟨events, hlog, hevents⟩ := h.log s fun _ _ _ => trivial
  exact ⟨events, hlog, firings_eq_nil hevents⟩

theorem Calm.emits {p : Plan α} (h : p.Calm) : p.Emits (fun _ => True) (·.firing = none) :=
  h.mono fun _ hevent => Event.firing_of_routine hevent.routine

theorem fires_emit (event : Event) (s : PlanState) : (emit event).Fires (firings [event]) s := by
  cases hfiring : event.firing with
  | none =>
    rw [firings_eq_nil (by simpa using hfiring)]
    exact (emits_emit (fun _ h => Event.firing_of_routine (plain_of_ofAgent h).1) hfiring).fires s
  | some join =>
    -- a firing is emitted alone
    cases event with
    | parallelJoinFired instanceKey elementId => exact ⟨[.parallelJoinFired instanceKey elementId], rfl, rfl⟩
    | _ => cases hfiring

theorem fires_emitAll (events : List Event) (s : PlanState) : (emitAll events).Fires (firings events) s := by
  induction events generalizing s with
  | nil => exact ⟨[], by simp [emitAll, List.forM]; rfl, rfl⟩
  | cons event events ih =>
    have hcons : firings (event :: events) = firings [event] ++ firings events := firings_append [event] events
    rw [hcons]
    exact .bind (fires_emit event s) (ih _)

variable [Feel]

/-! ## The sweep of drained sub-processes -/

omit [Feel] in
theorem covers_firing {F : Key → Prop} : Covers F (·.firing = none) :=
  ⟨fun _ h _ => Event.firing_of_routine h, fun _ _ _ => rfl, fun _ h => Event.firing_of_joins h.joins⟩

omit [Feel] in
/-- A handler that only moves a token fires nothing. -/
theorem firing_of_moves {F : Key → Prop} {s : State} {i : Key} {out : Outcome} (h : Outcome.Moves F s i out) :
    ∀ event ∈ out.1, event.firing = none := fun _ hevent => covers_firing.moves h hevent

theorem emits_completeDrainedSubprocesses : completeDrainedSubprocesses.Emits (fun _ => True) (·.firing = none) :=
  covers_firing.completeDrainedSubprocesses

/-! ## Firings and turns -/

/-- A plan whose firings are those of its turns. -/
def FiresInTurns (p : Plan α) : Prop := ∀ s, p.Fires ((p.turns s).flatMap Turn.fires) s

theorem FiresInTurns.bind {p : Plan α} {f : α → Plan β} (hp : p.FiresInTurns) (hf : ∀ a, (f a).FiresInTurns) :
    (p >>= f).FiresInTurns := by
  intro s
  rw [turns_bind, List.flatMap_append]
  exact .bind (hp s) (hf _ _)

theorem Emits.firesInTurns {p : Plan α} (h : p.Emits (fun _ => True) (·.firing = none)) : p.FiresInTurns := by
  intro s
  rw [h.turns_eq_nil s]
  exact h.fires s

/-- A turn emits what its handler returns. -/
theorem fires_step (next : Step) (s : PlanState) : (step next).Fires (Turn.fires ⟨s, next⟩) s := by
  suffices h : (step next).Fires ([] ++ ([] ++ ([] ++ (Turn.fires ⟨s, next⟩ ++ [])))) s by simpa using h
  refine .bind (emits_self.fires s) (.bind (emits_getQueue.fires s) (.bind (emits_ofStepM.fires s) ?_))
  exact .bind (fires_emitAll _ _) (emits_enqueueAll.fires _)

theorem turns_step (next : Step) (s : PlanState) : (step next).turns s = [] := by
  have hany : (step next).Emits (fun _ => True) fun _ => True :=
    .bind emits_self fun _ => .bind emits_getQueue fun _ => .bind emits_ofStepM fun _ =>
      .bind (emits_emitAll (fun _ _ => trivial) fun _ _ => trivial) fun _ => emits_enqueueAll
  exact hany.turns_eq_nil s

/-- What follows when the queue is empty. -/
theorem firesInTurns_sweep {p : Nat → Plan Unit} (h : ∀ cursor, (p cursor).FiresInTurns) (cursor : Nat) :
    (do
      completeDrainedSubprocesses
      let cursor ← reevaluateConditionals cursor
      if !(← getQueue).isEmpty then p cursor
      else if ← completeFinishedInstances then p cursor
      else return : Plan Unit).FiresInTurns := by
  refine .bind emits_completeDrainedSubprocesses.firesInTurns fun _ =>
    .bind (Calm.emits calm_reevaluateConditionals).firesInTurns fun next => .bind emits_getQueue.firesInTurns fun queue => ?_
  split
  · exact h next
  · refine .bind (Calm.emits calm_completeFinishedInstances).firesInTurns fun again => ?_
    split
    · exact h next
    · exact emits_pure.firesInTurns

theorem firesInTurns_runFrom (fuel cursor : Nat) : (runFrom fuel cursor).FiresInTurns := by
  induction fuel generalizing cursor with
  | zero => exact emits_pure.firesInTurns
  | succ fuel ih =>
    intro s
    have hpop : popFront.Fires [] s := ⟨[], by simp [popFront, run, PlanState.popStep], rfl⟩
    unfold runFrom
    rw [turns_bind, List.flatMap_append]
    cases hnext : s.popStep.1 with
    | none =>
      have hturns : popFront.turns s = [] := by simp [popFront, turns, hnext]
      rw [hturns]
      refine hpop.bind ?_
      rw [show (popFront.run s).1 = none from hnext]
      exact firesInTurns_sweep ih cursor _
    | some next =>
      have hturns : popFront.turns s = [⟨s.popStep.2, next⟩] := by simp [popFront, turns, hnext]
      have hrest : (do
          step next
          runFrom fuel cursor : Plan Unit).Fires (Turn.fires ⟨s.popStep.2, next⟩ ++
            ((runFrom fuel cursor).turns ((step next).run s.popStep.2).2).flatMap Turn.fires) s.popStep.2 :=
        (fires_step next s.popStep.2).bind (ih cursor _)
      have hnoturns : (do
          step next
          runFrom fuel cursor : Plan Unit).turns s.popStep.2 =
            (runFrom fuel cursor).turns ((step next).run s.popStep.2).2 := by
        rw [turns_bind, turns_step, List.nil_append]
      rw [hturns, List.flatMap_singleton, show (popFront.run s).1 = some next from hnext,
        show (popFront.run s).2 = s.popStep.2 from rfl, hnoturns]
      exact hpop.bind (by
        rw [show (popFront.run s).1 = some next from hnext]
        exact hrest)

theorem firesInTurns_settle (fuel : Nat) : (Engine.settle fuel).FiresInTurns :=
  .bind (firesInTurns_runFrom fuel 0) fun _ => (Calm.emits calm_cascadeCancelChildren).firesInTurns

end Plan

/-! ## What fires in a turn -/

theorem mem_firings_iff {i : Key} {join : ElementId} {events : List Event} :
    (i, join) ∈ firings events ↔ .parallelJoinFired i join ∈ events := by
  simp only [firings, List.mem_filterMap]
  constructor
  · rintro ⟨event, hevent, hfiring⟩
    cases event <;> simp only [Event.firing, reduceCtorEq] at hfiring
    cases hfiring
    exact hevent
  · exact fun h => ⟨_, h, rfl⟩

/-- An event that fires nothing is no firing. -/
theorem not_mem_of_firing {i : Key} {join : ElementId} {events : List Event}
    (h : ∀ event ∈ events, event.firing = none) : Event.parallelJoinFired i join ∉ events :=
  fun hmem => by simpa [Event.firing] using h _ hmem

/-- A firing outcome fires the one join. -/
theorem Outcome.Fires.eq_of_mem {F : Key → Prop} {s : State} {k i : Key} {other join : ElementId} {out : Outcome}
    (h : Outcome.Fires F s k other out) (hmem : .parallelJoinFired i join ∈ out.1) : k = i ∧ other = join := by
  obtain ⟨events, rest, hevents, hrest, rfl⟩ := h
  have hbefore : Event.parallelJoinFired i join ∉ events :=
    not_mem_of_firing fun event hevent => Event.firing_of_routine (hevents event hevent).1
  have hafter : Event.parallelJoinFired i join ∉ rest.1 := not_mem_of_firing (Plan.firing_of_moves hrest)
  simp only [List.mem_append, List.mem_cons, hbefore, hafter, or_false, false_or, Event.parallelJoinFired.injEq] at hmem
  exact ⟨hmem.1.symm, hmem.2.symm⟩

theorem Engine.firing_revokeDroppedJoinArrival {e : Engine} {step : Step} :
    ∀ event ∈ e.revokeDroppedJoinArrival step, event.firing = none := by
  intro event hevent
  unfold Engine.revokeDroppedJoinArrival at hevent
  split at hevent
  · dsimp only at hevent
    split at hevent
    · simp only [List.mem_singleton] at hevent
      rw [hevent]
      rfl
    · simp at hevent
  · simp at hevent

/-- The keys minted from one state of a plan to another. -/
def MintedBetween (s s' : PlanState) (key : Key) : Prop :=
  ∃ n, s.engine.nextLocal ≤ n ∧ n < s'.engine.nextLocal ∧ key = Engine.mintedKey s.engine.partitionId n

namespace Turn

variable [Feel]

/-- The state of the plan when the handler has returned. -/
def after (t : Turn) : PlanState := ((Plan.ofStepM (t.before.engine.processStep t.step t.before.queue)).run t.before).2

/-- The step of a turn is dropped, or handled on its instance. -/
theorem handled (t : Turn) :
    (t.before.engine.stepTargetsDeadScope t.step = true ∧
      t.outcome = (t.before.engine.revokeDroppedJoinArrival t.step, [])) ∨
    (t.before.engine.stepTargetsDeadScope t.step = false ∧ ∃ target,
      t.before.engine.state.stepTarget t.step = some target ∧
      Step.Handled (MintedBetween t.before t.after) t.before.engine.state t.before.queue target.instanceKey t.step
        t.outcome) :=
  t.before.engine.outcome_processStep.run t.before fun n hn hlt => ⟨n, hn, hlt, rfl⟩

/-- A join fires when its guard accepts an activation, or when its open instance completes. -/
theorem fires_cases (t : Turn) {i : Key} {join : ElementId} (h : (i, join) ∈ t.fires) :
    (∃ scope via kind, t.step = .activate i join scope via ∧ t.before.engine.state.joinKind i join = some kind ∧
      t.before.engine.state.acceptsJoin i join scope via kind t.before.queue = true) ∨
    (∃ eik, t.step.finishes = some (i, eik, join) ∧
      t.before.engine.state.elementKind i join = some .inclusiveGateway ∧
      t.before.engine.state.joinEik i join = some eik) := by
  have hfired := mem_firings_iff.mp h
  rcases t.handled with ⟨-, hout⟩ | ⟨-, target, -, hhandled⟩
  · rw [hout] at hfired
    exact absurd hfired (not_mem_of_firing Engine.firing_revokeDroppedJoinArrival)
  · generalize t.outcome = out at hfired hhandled
    generalize hstep : t.step = step at hhandled ⊢
    cases hhandled with
    | moves h => exact absurd hfired (not_mem_of_firing (Plan.firing_of_moves h))
    | join hkind hrest =>
      next other scope via kind rest =>
      have harrival : Event.parallelJoinFired i join ∉ arrivalOf target.instanceKey other via := by
        unfold arrivalOf
        split <;> simp
      have hmem : Event.parallelJoinFired i join ∈ rest.1 := by
        simpa [harrival] using hfired
      split at hrest
      · next haccepts =>
        obtain ⟨rfl, rfl⟩ := hrest.eq_of_mem hmem
        exact .inl ⟨scope, via, kind, rfl, hkind, haccepts⟩
      · exact absurd hmem (not_mem_of_firing (Plan.firing_of_moves hrest))
    | openJoin hfinishes hkind hopen hout =>
      obtain ⟨rfl, rfl⟩ := hout.eq_of_mem hfired
      exact .inr ⟨_, hfinishes, hkind, hopen⟩

end Turn

/-! ## Turns of a run -/

namespace Engine

variable [Feel]

/-- The turns of a command. -/
def turnsOfCommand (fuel : Nat) (e : Engine) (command : Command) (now : Nat) : List Turn :=
  match e.planCommandAt command now with
  | (.error _, _) => []
  | (.ok (), s) => (settle fuel).turns s

/-- The turns of a host call. -/
def turnsOfCall (fuel : Nat) (e : Engine) : HostCall → List Turn
  | .applyCommandAt command now => e.turnsOfCommand fuel command now
  | _ => []

/-- The turns of a run. -/
def turnsOfCalls (fuel : Nat) : Engine → List HostCall → List Turn
  | _, [] => []
  | e, c :: cs => e.turnsOfCall fuel c ++ turnsOfCalls fuel (e.call fuel c).2 cs

theorem firings_applyCommandAt (fuel : Nat) (e : Engine) (command : Command) (now : Nat) :
    firings (returned (e.applyCommandAt fuel command now).1) =
      (e.turnsOfCommand fuel command now).flatMap Turn.fires := by
  have hplan := calm_planCommand command { engine := e.beginCommand now }
  have hsettle := Plan.firesInTurns_settle fuel
  unfold turnsOfCommand applyCommandAt
  rw [show planCommand command { engine := e.beginCommand now } = e.planCommandAt command now from rfl] at hplan
  generalize e.planCommandAt command now = planned at hplan ⊢
  obtain ⟨result, s⟩ := planned
  cases result with
  | error err => rfl
  | ok u =>
    obtain ⟨planEvents, hlog, hplanEvents⟩ := hplan
    obtain ⟨events, hlog', hevents⟩ := hsettle s
    have hnone : firings planEvents = [] := by
      refine firings_eq_nil fun event hevent => ?_
      rcases hplanEvents event hevent with hjoins | hmigrates
      · exact Event.firing_of_joins hjoins
      · cases event <;> first | rfl | cases hmigrates
    simp only [List.nil_append] at hlog
    show firings ((settle fuel).run s).2.log = _
    rw [hlog', hlog, firings_append, hnone, hevents, List.nil_append]

theorem firings_call (fuel : Nat) (e : Engine) (c : HostCall) :
    firings (e.call fuel c).1 = (e.turnsOfCall fuel c).flatMap Turn.fires := by
  cases c with
  | applyCommandAt command now => exact e.firings_applyCommandAt fuel command now
  | _ => rfl

/-- Every join that fires in a run fires in one of its turns. -/
theorem firings_runCalls (fuel : Nat) (e : Engine) (calls : List HostCall) :
    firings (runCalls fuel e calls).1 = (turnsOfCalls fuel e calls).flatMap Turn.fires := by
  induction calls generalizing e with
  | nil => rfl
  | cons c cs ih =>
    rw [runCalls_cons, firings_append, firings_call, ih, turnsOfCalls, List.flatMap_append]

end Engine

end NanoBpm
