import NanoBpm.Planner.InclusiveJoin
import NanoBpm.Waits

/-!
# The debugger (`engine-core/src/engine/debug.rs`, `engine/mod.rs:4404-4493`)

A debug session drives the loop of a command piece by piece: after every step, after the sweeps of a drained queue and
after the completion of instances a driver may pause it. Between two calls a session keeps the queue and the cursor
of the conditional events, but neither what the pause point has already swept nor the steps it has not queued yet, and
its end leaves out the cancellation of children.

Main results: where every pause can be resumed, a finished session has the log and the engine of the command exactly
if no ended instance has left a child (`debug_parity`); a child that is left runs on (`debug_leaves_child`).
-/

namespace NanoBpm

/-! ## Drivers -/

/-- `BreakCondition`. -/
inductive BreakCondition where
  | elementActivated (elementId : ElementId)
  | elementCompleted (elementId : ElementId)
  | processCompleted
  | everyStep
deriving DecidableEq

/-- `BreakCondition::matches`. -/
def BreakCondition.holds (b : BreakCondition) (events : List Event) : Bool :=
  match b with
  | .everyStep => true
  | .elementActivated id => events.any fun event => match event with
    | .elementActivated _ _ elementId _ => elementId == id
    | _ => false
  | .elementCompleted id => events.any fun event => match event with
    | .elementCompleted _ _ elementId => elementId == id
    | _ => false
  | .processCompleted => events.any fun event => match event with
    | .processInstanceCompleted _ => true
    | _ => false

/-- `StepDriver::after_step`: whether it pauses. -/
abbrev StepDriver := List Event → Bool

def runToCompletion : StepDriver := fun _ => false

def singleStep : StepDriver := fun _ => true

def breakpointing (breakpoints : List BreakCondition) : StepDriver := fun events => breakpoints.any (·.holds events)

/-! ## The loop -/

/-- Where a run has paused; the source does not keep it. -/
inductive PausePoint where
  | step
  | sweep
  /-- With the steps that the completed instances leave. -/
  | completion (followups : List Step)

inductive Ending where
  | paused (cursor : Nat) (point : PausePoint)
  | drained
  /-- The fuel has run out. -/
  | cut

namespace Plan

variable [Feel]

/-- `complete_finished_instances`, as the loop calls it. -/
def finishInstances : Plan (List Step) := do
  let s := (← self).state
  let finished := (touched (← getLog)).filter fun key =>
    s.instances[key]?.any fun i => i.state == .active && i.active.isEmpty
  let followups ← finished.mapM fun instanceKey => do
    let step := (← self).state.callActivityCompletionStep instanceKey
    emit (.processInstanceCompleted instanceKey)
    return step.toList
  return followups.flatten

/-- `run_with`. -/
def runWith (driver : StepDriver) : Nat → Nat → Plan Ending
  | 0, _ => return .cut
  | fuel + 1, cursor => do
    match ← popFront with
    | some next =>
      let emittedFrom := (← getLog).length
      step next
      if driver ((← getLog).drop emittedFrom) then return .paused cursor .step
      runWith driver fuel cursor
    | none =>
      let drainFrom := (← getLog).length
      completeDrainedSubprocesses
      let cursor ← reevaluateConditionals cursor
      let swept := (← getLog).drop drainFrom
      if !swept.isEmpty && driver swept then return .paused cursor .sweep
      if !(← getQueue).isEmpty then runWith driver fuel cursor
      else
        let completedFrom := (← getLog).length
        let followups ← finishInstances
        let completed := (← getLog).drop completedFrom
        if !completed.isEmpty && driver completed then return .paused cursor (.completion followups)
        enqueueAll followups
        if followups.isEmpty then return .drained
        runWith driver fuel cursor

end Plan

/-! ## Sessions -/

structure Paused where
  queue : List Step
  cursor : Nat
  /-- History. -/
  point : PausePoint := .step

structure DebugSession where
  log : List Event
  paused : Option Paused
  breakpoints : List BreakCondition
  /-- History: the children left by the instances that the command ended, when its queue has run dry. -/
  orphans : List Key := []

inductive DebugCall where
  | resume
  | step
  | setBreakpoints (breakpoints : List BreakCondition)

namespace Engine

variable [Feel]

/-- `run_with` on a paused session and `settle`; nothing where the fuel does not suffice. -/
def drive (fuel : Nat) (driver : StepDriver) (e : Engine) (session : DebugSession) : Option (Engine × DebugSession) :=
  match session.paused with
  | none => some (e, session)
  | some p =>
    match (Plan.runWith driver fuel p.cursor).run { engine := e, log := session.log, queue := p.queue } with
    | (.cut, _) => none
    | (.paused cursor point, s) =>
      some (s.engine, { session with log := s.log, paused := some { queue := s.queue, cursor, point } })
    | (.drained, s) =>
      some (s.engine.finishCommand s.log, { session with
        log := s.log
        paused := none
        orphans := Plan.liveChildren s.engine.state (Plan.endedInstances s.log) })

def debugResume (fuel : Nat) (e : Engine) (session : DebugSession) : Option (Engine × DebugSession) :=
  e.drive fuel (breakpointing session.breakpoints) session

def debugStep (fuel : Nat) (e : Engine) (session : DebugSession) : Option (Engine × DebugSession) :=
  e.drive fuel singleStep session

/-- The session that `debug_command_at` makes of a planned command. -/
def planned (s : PlanState) (breakpoints : List BreakCondition) : DebugSession where
  log := s.log
  paused := some { queue := s.queue, cursor := 0 }
  breakpoints := breakpoints

def debugCommandAt (fuel : Nat) (e : Engine) (command : Command) (now : Nat) (breakpoints : List BreakCondition) :
    Except EngineError (Option (Engine × DebugSession)) :=
  match e.planCommandAt command now with
  | (.error err, _) => .error err
  | (.ok (), s) => .ok (s.engine.debugResume fuel (planned s breakpoints))

def debugCall (fuel : Nat) (c : Engine × DebugSession) : DebugCall → Option (Engine × DebugSession)
  | .resume => c.1.debugResume fuel c.2
  | .step => c.1.debugStep fuel c.2
  | .setBreakpoints breakpoints => some (c.1, { c.2 with breakpoints })

def debugCalls (fuel : Nat) (c : Engine × DebugSession) (calls : List DebugCall) : Option (Engine × DebugSession) :=
  calls.foldlM (debugCall fuel) c

end Engine

/-! ## Plans that leave the queue alone -/

/-- No step is queued or taken off. -/
def Plan.Mute {α : Type} : Plan α → Prop
  | .pure _ => True
  | .read k => ∀ s, (k s).Mute
  | .mint k => ∀ key, (k key).Mute
  | .tearDown _ k => k.Mute
  | .apply _ k => k.Mute
  | .push _ _ => False
  | .pop _ => False
  | .dispatch k => ∀ n, (k n).Mute

namespace Plan

variable {α β : Type}

theorem Mute.queue_run {p : Plan α} (h : p.Mute) (s : PlanState) : (p.run s).2.queue = s.queue := by
  induction p generalizing s with
  | pure a => rfl
  | read k ih => exact ih s (h s) s
  | mint k ih => exact ih _ (h _) s.mint.2
  | tearDown scope k ih => exact ih h (s.markTornDown scope)
  | apply event k ih => exact ih h (s.applyEvent event)
  | push step k => exact h.elim
  | pop k => exact h.elim
  | dispatch k ih => exact ih _ (h _) s.advanceDispatch.2

theorem Mute.bind {p : Plan α} {f : α → Plan β} (hp : p.Mute) (hf : ∀ a, (f a).Mute) : (p >>= f).Mute := by
  show (Plan.bind p f).Mute
  induction p with
  | pure a => exact hf a
  | read k ih => exact fun s => ih s (hp s)
  | mint k ih => exact fun key => ih key (hp key)
  | tearDown scope k ih => exact ih hp
  | apply event k ih => exact ih hp
  | push step k => exact hp.elim
  | pop k => exact hp.elim
  | dispatch k ih => exact fun n => ih n (hp n)

theorem mute_pure (a : α) : (pure a : Plan α).Mute := trivial

theorem mute_self : self.Mute := fun _ => trivial

theorem mute_getLog : getLog.Mute := fun _ => trivial

theorem mute_forM {items : List α} {f : α → Plan Unit} (h : ∀ a, (f a).Mute) : (items.forM f).Mute := by
  induction items with
  | nil => exact mute_pure ()
  | cons a items ih => exact (h a).bind fun _ => ih

theorem mute_mapM {items : List α} {f : α → Plan β} (h : ∀ a, (f a).Mute) : (items.mapM f).Mute := by
  have hloop : ∀ done, (List.mapM.loop f items done).Mute := by
    induction items with
    | nil => exact fun _ => mute_pure _
    | cons a items ih => exact fun _ => (h a).bind fun _ => ih _
  exact hloop []

theorem mute_emitPlain (event : Event) : (emitPlain event).Mute := trivial

theorem mute_discardAgentHistory (agentInstanceKey : Key) : (discardAgentHistory agentInstanceKey).Mute := by
  refine mute_self.bind fun e => ?_
  split
  · trivial
  · dsimp only
    split
    · exact mute_emitPlain _
    · trivial

theorem mute_cleanupAgentInstances (instanceKey : Key) : (cleanupAgentInstances instanceKey).Mute :=
  mute_self.bind fun _ => mute_forM fun _ => (mute_discardAgentHistory _).bind fun _ => mute_self.bind fun _ => mute_emitPlain _


/-! ## Positions in the log -/

/-- The events that bring a pass to the subscription. -/
def concerns (events : List Event) (sub : ConditionalSubscription) : Bool :=
  (events.filterMap openedConditional).contains sub.key ||
    (events.filterMap changedVariables).any fun (key, vars) =>
      key == sub.instanceKey && sub.referencedVars.any vars.contains

theorem concerns_append (events more : List Event) (sub : ConditionalSubscription) :
    concerns (events ++ more) sub = (concerns events sub || concerns more sub) := by
  simp only [concerns, List.filterMap_append, List.contains_append, List.any_append]
  ac_rfl

theorem conditionalCandidates_eq (s : State) (events : List Event) :
    conditionalCandidates s events = sortKeys ((s.conditionalSubscriptions.vals.filter fun sub =>
      sub.state == .opened && concerns events sub).map (·.key)) := rfl

/-- A table in which a subscription of the other waits on the same variables. -/
def Covered (subs : KeyMap ConditionalSubscription) (sub : ConditionalSubscription) : Prop :=
  ∃ old ∈ subs.vals, old.state = .opened ∧ old.key = sub.key ∧ old.instanceKey = sub.instanceKey ∧
    old.referencedVars = sub.referencedVars

/-- Only its creation opens a subscription: every other event leaves its key, its instance and what it refers to. -/
theorem opened_apply {s : State} {event : Event} {sub : ConditionalSubscription}
    (hsub : sub ∈ (NanoBpm.apply s event).conditionalSubscriptions.vals) (hopen : sub.state = .opened) :
    openedConditional event = some sub.key ∨ Covered s.conditionalSubscriptions sub := by
  rw [conditionalSubscriptions_apply] at hsub
  obtain ⟨k, hget⟩ := Std.ExtTreeMap.mem_vals.mp hsub
  have hkept {k : Key} {old : ConditionalSubscription} (hold : s.conditionalSubscriptions[k]? = some old)
      (hstate : old.state = .opened) (hkey : old.key = sub.key) (hinstance : old.instanceKey = sub.instanceKey)
      (hvars : old.referencedVars = sub.referencedVars) : Covered s.conditionalSubscriptions sub :=
    ⟨old, Std.ExtTreeMap.mem_vals.mpr ⟨k, hold⟩, hstate, hkey, hinstance, hvars⟩
  unfold Event.onConditionalSubscriptions at hget
  split at hget
  · rw [Std.ExtTreeMap.getElem?_insert] at hget
    split at hget
    · cases hget
      exact .inl rfl
    · exact .inr (hkept hget hopen rfl rfl rfl)
  · rw [Std.ExtTreeMap.getElem?_modify] at hget
    split at hget
    · obtain ⟨old, hold, rfl⟩ := Option.map_eq_some_iff.mp hget
      split at hopen
      · next hkind => exact .inr (hkept hold hopen (by rw [if_pos hkind]) (by rw [if_pos hkind]) (by rw [if_pos hkind]))
      · cases hopen
    · exact .inr (hkept hget hopen rfl rfl rfl)
  · rw [Std.ExtTreeMap.getElem?_modify] at hget
    split at hget
    · obtain ⟨old, hold, rfl⟩ := Option.map_eq_some_iff.mp hget
      cases hopen
    · exact .inr (hkept hget hopen rfl rfl rfl)
  · rw [Std.ExtTreeMap.getElem?_map] at hget
    obtain ⟨old, hold, rfl⟩ := Option.map_eq_some_iff.mp hget
    split at hopen
    · next hi => exact .inr (hkept hold hopen (by simp [hi]) (by simp [hi]) (by simp [hi]))
    · next hi => exact .inr (hkept hold hopen (by simp [hi]) (by simp [hi]) (by simp [hi]))
  · exact .inr (hkept hget hopen rfl rfl rfl)

theorem opened_applyAll {s : State} {events : List Event} {sub : ConditionalSubscription}
    (hsub : sub ∈ (applyAll s events).conditionalSubscriptions.vals) (hopen : sub.state = .opened) :
    sub.key ∈ events.filterMap openedConditional ∨ Covered s.conditionalSubscriptions sub := by
  induction events generalizing s with
  | nil => exact .inr ⟨sub, hsub, hopen, rfl, rfl, rfl⟩
  | cons event events ih =>
    rcases ih hsub with hlater | ⟨old, hold, hstate, hkey, hinstance, hvars⟩
    · exact .inl (List.mem_filterMap.mpr (by
        obtain ⟨e, he, hopened⟩ := List.mem_filterMap.mp hlater
        exact ⟨e, List.mem_cons_of_mem _ he, hopened⟩))
    · rcases opened_apply hold hstate with hevent | ⟨first, hfirst, hopened, hkey', hinstance', hvars'⟩
      · exact .inl (List.mem_filterMap.mpr ⟨event, List.mem_cons_self, hkey ▸ hevent⟩)
      · exact .inr ⟨first, hfirst, hopened, hkey'.trans hkey, hinstance'.trans hinstance, hvars'.trans hvars⟩

/-- The two positions bring a pass to the same open subscriptions. -/
def SameNews (s : PlanState) (cursor other : Nat) : Prop :=
  cursor ≤ s.log.length ∧ other ≤ s.log.length ∧
    ∀ sub ∈ s.engine.state.conditionalSubscriptions.vals, sub.state = .opened →
      concerns (s.log.drop cursor) sub = concerns (s.log.drop other) sub

theorem concerns_congr {events : List Event} {sub old : ConditionalSubscription} (hkey : old.key = sub.key)
    (hinstance : old.instanceKey = sub.instanceKey) (hvars : old.referencedVars = sub.referencedVars) :
    concerns events old = concerns events sub := by
  simp only [concerns, hkey, hinstance, hvars]

/-- Whatever is emitted is news to both. -/
theorem SameNews.emits {s s' : PlanState} {cursor other : Nat} (h : SameNews s cursor other) (hemits : s.Emits s') :
    SameNews s' cursor other := by
  obtain ⟨hcursor, hother, hsame⟩ := h
  obtain ⟨events, hlog, hstate, -⟩ := hemits
  refine ⟨by simp [hlog]; omega, by simp [hlog]; omega, fun sub hsub hopen => ?_⟩
  rw [hlog, List.drop_append_of_le_length hcursor, List.drop_append_of_le_length hother, concerns_append, concerns_append]
  rw [hstate] at hsub
  rcases opened_applyAll hsub hopen with hnew | ⟨old, hold, holdOpen, hkey, hinstance, hvars⟩
  · have hconcerns : concerns events sub = true := by simp [concerns, hnew]
    rw [hconcerns, Bool.or_true, Bool.or_true]
  · rw [← concerns_congr hkey hinstance hvars, hsame old hold holdOpen, concerns_congr hkey hinstance hvars]

theorem SameNews.candidates {s : PlanState} {cursor other : Nat} (h : SameNews s cursor other) :
    conditionalCandidates s.engine.state (s.log.drop cursor) = conditionalCandidates s.engine.state (s.log.drop other) := by
  rw [conditionalCandidates_eq, conditionalCandidates_eq]
  congr 2
  refine List.filter_congr fun sub hsub => ?_
  cases hopen : sub.state == .opened with
  | false => rfl
  | true => rw [h.2.2 sub hsub (by simpa using hopen)]

variable [Feel]

/-! ## The loop as a relation -/

/-- The two sweeps of a drained queue. -/
def sweep (cursor : Nat) : Plan Nat := do
  completeDrainedSubprocesses
  reevaluateConditionals cursor

/-- The plain loop runs dry from `s` in `s'`. -/
inductive Drains : PlanState → Nat → PlanState → Prop
  | step {s s' : PlanState} {cursor : Nat} {next : Step} {rest : List Step} (hqueue : s.queue = next :: rest)
      (h : Drains ((Plan.step next).run { s with queue := rest }).2 cursor s') : Drains s cursor s'
  | swept {s s' : PlanState} {cursor : Nat} {swept : Nat × PlanState} (hqueue : s.queue = [])
      (hswept : (sweep cursor).run s = swept) (hmore : swept.2.queue ≠ []) (h : Drains swept.2 swept.1 s') :
      Drains s cursor s'
  | released {s s' : PlanState} {cursor : Nat} {swept : Nat × PlanState} {finished : List Step × PlanState}
      (hqueue : s.queue = []) (hswept : (sweep cursor).run s = swept) (hempty : swept.2.queue = [])
      (hfinish : finishInstances.run swept.2 = finished) (hmore : finished.1 ≠ [])
      (h : Drains ((enqueueAll finished.1).run finished.2).2 swept.1 s') : Drains s cursor s'
  | quiescent {s : PlanState} {cursor : Nat} {swept : Nat × PlanState} {finished : List Step × PlanState}
      (hqueue : s.queue = []) (hswept : (sweep cursor).run s = swept) (hempty : swept.2.queue = [])
      (hfinish : finishInstances.run swept.2 = finished) (hnone : finished.1 = []) : Drains s cursor finished.2

omit [Feel] in
theorem mute_finishInstances : finishInstances.Mute := by
  refine mute_self.bind fun _ => mute_getLog.bind fun _ => (mute_mapM fun key => ?_).bind fun _ => mute_pure _
  exact mute_self.bind fun _ => ((mute_cleanupAgentInstances key).bind fun _ => mute_emitPlain _).bind fun _ => mute_pure _

omit [Feel] in
/-- The completions, and then the steps they leave. -/
theorem run_completeFinishedInstances (s : PlanState) :
    completeFinishedInstances.run s =
      (!(finishInstances.run s).1.isEmpty, ((enqueueAll (finishInstances.run s).1).run (finishInstances.run s).2).2) := by
  simp only [completeFinishedInstances, finishInstances, run_bind]
  rfl

omit [Feel] in
theorem run_enqueueAll_nil (s : PlanState) : (enqueueAll []).run s = ((), s) := rfl

theorem runFrom_step {s : PlanState} {next : Step} {rest : List Step} (hqueue : s.queue = next :: rest) (fuel cursor : Nat) :
    (runFrom (fuel + 1) cursor).run s = (runFrom fuel cursor).run ((step next).run { s with queue := rest }).2 := by
  rw [runFrom, run_bind]
  have hpop : popFront.run s = (some next, { s with queue := rest }) := by
    simp [popFront, run, PlanState.popStep, hqueue]
  rw [hpop]
  exact run_bind _ _ _

/-- What the loop does on a drained queue. -/
theorem runFrom_nil {s : PlanState} (hqueue : s.queue = []) (fuel cursor : Nat) :
    ((runFrom (fuel + 1) cursor).run s).2 =
      if ((sweep cursor).run s).2.queue.isEmpty then
        let finished := finishInstances.run ((sweep cursor).run s).2
        let released := ((enqueueAll finished.1).run finished.2).2
        if finished.1.isEmpty then released else ((runFrom fuel ((sweep cursor).run s).1).run released).2
      else ((runFrom fuel ((sweep cursor).run s).1).run ((sweep cursor).run s).2).2 := by
  have hpop : popFront.run s = (none, s) := by
    obtain ⟨engine, log, queue⟩ := s
    cases hqueue
    rfl
  have hsweep : (sweep cursor).run s =
      (reevaluateConditionals cursor).run (completeDrainedSubprocesses.run s).2 := run_bind ..
  rw [runFrom, run_bind, hpop]
  simp only [run_bind, ← hsweep]
  generalize (sweep cursor).run s = swept
  rw [show getQueue.run swept.2 = (swept.2.queue, swept.2) from rfl]
  cases hempty : swept.2.queue.isEmpty with
  | false => rfl
  | true =>
    simp only [Bool.not_true, Bool.false_eq_true, if_false, if_true, run_bind, run_completeFinishedInstances]
    cases (finishInstances.run swept.2).1.isEmpty <;> rfl

/-- With the fuel it takes, the loop runs dry in the state of the relation. -/
theorem Drains.run {s s' : PlanState} {cursor : Nat} (h : Drains s cursor s') :
    ∃ n, ∀ m, n ≤ m → ((runFrom m cursor).run s).2 = s' := by
  induction h with
  | step hqueue _ ih =>
    obtain ⟨n, hn⟩ := ih
    refine ⟨n + 1, fun m hm => ?_⟩
    obtain ⟨m, rfl⟩ : ∃ k, m = k + 1 := ⟨m - 1, by omega⟩
    rw [runFrom_step hqueue]
    exact hn m (by omega)
  | swept hqueue hswept hmore _ ih =>
    obtain ⟨n, hn⟩ := ih
    refine ⟨n + 1, fun m hm => ?_⟩
    obtain ⟨m, rfl⟩ : ∃ k, m = k + 1 := ⟨m - 1, by omega⟩
    rw [runFrom_nil hqueue, hswept, if_neg (by simpa using hmore)]
    exact hn m (by omega)
  | released hqueue hswept hempty hfinish hmore _ ih =>
    obtain ⟨n, hn⟩ := ih
    refine ⟨n + 1, fun m hm => ?_⟩
    obtain ⟨m, rfl⟩ : ∃ k, m = k + 1 := ⟨m - 1, by omega⟩
    rw [runFrom_nil hqueue, hswept, if_pos (by simpa using hempty), hfinish]
    dsimp only
    rw [if_neg (by simpa using hmore)]
    exact hn m (by omega)
  | quiescent hqueue hswept hempty hfinish hnone =>
    refine ⟨1, fun m hm => ?_⟩
    obtain ⟨m, rfl⟩ : ∃ k, m = k + 1 := ⟨m - 1, by omega⟩
    rw [runFrom_nil hqueue, hswept, if_pos (by simpa using hempty), hfinish]
    dsimp only
    rw [hnone, run_enqueueAll_nil]
    rfl

theorem SameNews.sweep {s : PlanState} {cursor other : Nat} (h : SameNews s cursor other) :
    (sweep cursor).run s = (sweep other).run s := by
  have hdrained : SameNews (completeDrainedSubprocesses.run s).2 cursor other := h.emits (emits_run _ s)
  have hcandidates := hdrained.candidates
  simp only [Plan.sweep, run_bind]
  generalize (completeDrainedSubprocesses.run s).2 = drained at hcandidates
  show ((conditionalCandidates drained.engine.state (drained.log.drop cursor)).forM fireConditional >>= _).run drained = _
  rw [hcandidates]
  rfl

/-- From either position the loop goes the same way. -/
theorem Drains.of_sameNews {s s' : PlanState} {cursor other : Nat} (hsame : SameNews s cursor other)
    (h : Drains s other s') : Drains s cursor s' := by
  induction h generalizing cursor with
  | step hqueue _ ih => exact .step hqueue (ih (hsame.emits (emits_run _ _)))
  | swept hqueue hswept hmore h => exact .swept hqueue (hsame.sweep.trans hswept) hmore h
  | released hqueue hswept hempty hfinish hmore h =>
    exact .released hqueue (hsame.sweep.trans hswept) hempty hfinish hmore h
  | quiescent hqueue hswept hempty hfinish hnone =>
    exact .quiescent hqueue (hsame.sweep.trans hswept) hempty hfinish hnone

/-! ## Pauses -/

/-- The sweeps of a drained queue find nothing: no sub-process has drained and no open subscription waits on what has
happened since the last pass. -/
def SweepsClean (s : PlanState) (cursor : Nat) : Prop :=
  (touched s.log).flatMap s.engine.state.drainedSubprocesses = [] ∧
    conditionalCandidates s.engine.state (s.log.drop cursor) = []

/-- Nothing is left to complete among the instances the command touched. -/
def NoneFinished (s : PlanState) : Prop :=
  (touched s.log).filter (fun key => s.engine.state.instances[key]?.any fun i =>
    i.state == .active && i.active.isEmpty) = []

/-- The loop can be entered again at the point where it has paused: it does not come back there on a drained queue
that has more to sweep, and no step is lost. -/
def Resumable (s : PlanState) (cursor : Nat) : PausePoint → Prop
  | .step => True
  | .sweep => s.queue ≠ [] ∨ SweepsClean s cursor
  | .completion followups => followups = [] ∧ SweepsClean s cursor ∧ NoneFinished s

instance (s : PlanState) (cursor : Nat) : Decidable (SweepsClean s cursor) := inferInstanceAs (Decidable (_ ∧ _))

instance (s : PlanState) : Decidable (NoneFinished s) := inferInstanceAs (Decidable (_ = _))

instance (s : PlanState) (cursor : Nat) : (point : PausePoint) → Decidable (Resumable s cursor point)
  | .step => isTrue trivial
  | .sweep => inferInstanceAs (Decidable (_ ≠ [] ∨ _))
  | .completion followups => inferInstanceAs (Decidable (followups = [] ∧ _ ∧ _))

theorem SweepsClean.run {s : PlanState} {cursor : Nat} (h : SweepsClean s cursor) :
    (sweep cursor).run s = (s.log.length, s) := by
  obtain ⟨hdrained, hcandidates⟩ := h
  have hsweep : completeDrainedSubprocesses.run s = ((), s) := by
    show (((touched s.log).flatMap s.engine.state.drainedSubprocesses).mapM _ >>= _ : Plan Unit).run s = _
    rw [hdrained]
    rfl
  simp only [sweep, run_bind, hsweep]
  show ((conditionalCandidates s.engine.state (s.log.drop cursor)).forM fireConditional >>= _ : Plan Nat).run s = _
  rw [hcandidates]
  rfl

omit [Feel] in
theorem NoneFinished.run {s : PlanState} (h : NoneFinished s) : finishInstances.run s = ([], s) := by
  show (((touched s.log).filter _).mapM _ >>= _ : Plan (List Step)).run s = _
  rw [show (touched s.log).filter _ = [] from h]
  rfl

omit [Feel] in
/-- Where no open subscription is a candidate, the past is no news. -/
theorem SweepsClean.sameNews {s : PlanState} {cursor : Nat} (hcursor : cursor ≤ s.log.length) (h : SweepsClean s cursor) :
    SameNews s cursor s.log.length := by
  refine ⟨hcursor, le_refl _, fun sub hsub hopen => ?_⟩
  have hnone := h.2
  rw [conditionalCandidates_eq] at hnone
  have hfilter : (s.engine.state.conditionalSubscriptions.vals.filter fun sub =>
      sub.state == .opened && concerns (s.log.drop cursor) sub) = [] := by
    simpa [sortKeys, sortByKey, ← List.length_eq_zero_iff, List.length_insertionSort] using hnone
  have hfalse := List.filter_eq_nil_iff.mp hfilter sub hsub
  simp only [hopen, beq_self_eq_true, Bool.true_and, Bool.not_eq_true] at hfalse
  rw [hfalse, List.drop_length]
  rfl

theorem runWith_step {driver : StepDriver} {s : PlanState} {next : Step} {rest : List Step} (hqueue : s.queue = next :: rest)
    (fuel cursor : Nat) :
    (runWith driver (fuel + 1) cursor).run s =
      let after := ((step next).run { s with queue := rest }).2
      if driver (after.log.drop s.log.length) then (.paused cursor .step, after)
      else (runWith driver fuel cursor).run after := by
  have hpop : popFront.run s = (some next, { s with queue := rest }) := by
    simp [popFront, run, PlanState.popStep, hqueue]
  have hlog (t : PlanState) : getLog.run t = (t.log, t) := rfl
  rw [runWith, run_bind, hpop]
  simp only [run_bind, hlog]
  generalize ((step next).run { s with queue := rest }).2 = after
  cases driver (after.log.drop s.log.length) <;> rfl

theorem runWith_nil {driver : StepDriver} {s : PlanState} (hqueue : s.queue = []) (fuel cursor : Nat) :
    (runWith driver (fuel + 1) cursor).run s =
      let swept := (sweep cursor).run s
      let events := swept.2.log.drop s.log.length
      if !events.isEmpty && driver events then (.paused swept.1 .sweep, swept.2)
      else if !swept.2.queue.isEmpty then (runWith driver fuel swept.1).run swept.2
      else
        let finished := finishInstances.run swept.2
        let completed := finished.2.log.drop swept.2.log.length
        if !completed.isEmpty && driver completed then (.paused swept.1 (.completion finished.1), finished.2)
        else
          let released := ((enqueueAll finished.1).run finished.2).2
          if finished.1.isEmpty then (.drained, released) else (runWith driver fuel swept.1).run released := by
  have hpop : popFront.run s = (none, s) := by
    obtain ⟨engine, log, queue⟩ := s
    cases hqueue
    rfl
  have hlog (t : PlanState) : getLog.run t = (t.log, t) := rfl
  have hqueue (t : PlanState) : getQueue.run t = (t.queue, t) := rfl
  have hsweep : (sweep cursor).run s =
      (reevaluateConditionals cursor).run (completeDrainedSubprocesses.run s).2 := run_bind ..
  rw [runWith, run_bind, hpop]
  simp only [run_bind, hlog, ← hsweep]
  generalize (sweep cursor).run s = swept
  cases !(swept.2.log.drop s.log.length).isEmpty && driver (swept.2.log.drop s.log.length) with
  | true => rfl
  | false =>
    simp only [Bool.false_eq_true, if_false, run_bind, hqueue]
    cases !swept.2.queue.isEmpty with
    | true => rfl
    | false =>
      simp only [Bool.false_eq_true, if_false, run_bind, hlog]
      generalize finishInstances.run swept.2 = finished
      cases !(finished.2.log.drop swept.2.log.length).isEmpty && driver (finished.2.log.drop swept.2.log.length) with
      | true => rfl
      | false =>
        simp only [Bool.false_eq_true, if_false, run_bind]
        cases finished.1.isEmpty <;> rfl

omit [Feel] in
theorem length_le_of_emits {s s' : PlanState} (h : s.Emits s') : s.log.length ≤ s'.log.length := by
  obtain ⟨events, hlog, -⟩ := h
  simp [hlog]

theorem sweep_fst_le (cursor : Nat) (s : PlanState) :
    ((sweep cursor).run s).1 ≤ ((sweep cursor).run s).2.log.length := by
  rw [sweep, run_bind]
  generalize (completeDrainedSubprocesses.run s).2 = drained
  have hgrows := length_le_of_emits (emits_run (reevaluateConditionals cursor) drained)
  have hfst : ((reevaluateConditionals cursor).run drained).1 = drained.log.length := by
    show (((conditionalCandidates drained.engine.state (drained.log.drop cursor)).forM fireConditional >>= fun _ =>
      pure drained.log.length : Plan Nat).run drained).1 = _
    rw [run_bind]
    rfl
  rw [hfst]
  exact hgrows

/-- A drained queue that has been swept clean, entered again. -/
theorem Drains.of_clean {s s' : PlanState} {cursor : Nat} (hqueue : s.queue = []) (hclean : SweepsClean s cursor)
    {finished : List Step × PlanState} (hfinish : finishInstances.run s = finished) (h : Drains s cursor s') :
    (finished.1 = [] ∧ s' = finished.2) ∨
      (finished.1 ≠ [] ∧ Drains ((enqueueAll finished.1).run finished.2).2 s.log.length s') := by
  have hrun := hclean.run
  cases h with
  | step hnext => rw [hqueue] at hnext; cases hnext
  | swept _ hswept hmore =>
    rw [hrun] at hswept
    subst hswept
    exact absurd hqueue hmore
  | released _ hswept _ hagain hmore h =>
    rw [hrun] at hswept
    subst hswept
    rw [hfinish] at hagain
    subst hagain
    exact .inr ⟨hmore, h⟩
  | quiescent _ hswept _ hagain hnone =>
    rw [hrun] at hswept
    subst hswept
    rw [hfinish] at hagain
    subst hagain
    exact .inl ⟨hnone, rfl⟩

/-- On a queue that is drained, swept clean and without finished instances the loop has nothing to do. -/
theorem Drains.eq_of_clean {s s' : PlanState} {cursor : Nat} (hqueue : s.queue = []) (hclean : SweepsClean s cursor)
    (hfinished : NoneFinished s) (h : Drains s cursor s') : s' = s := by
  rcases h.of_clean hqueue hclean hfinished.run with ⟨-, hs'⟩ | ⟨hmore, -⟩
  · exact hs'
  · exact absurd rfl hmore

/-- What a driver leaves to the plain loop: a drained queue ends as the loop does, and where it pauses the loop can go
on from there. -/
def Faithful (s : PlanState) (cursor : Nat) : Ending × PlanState → Prop
  | (.cut, _) => True
  | (.drained, s') => Drains s cursor s'
  | (.paused next point, t) => Resumable t next point → ∀ s', Drains t next s' → Drains s cursor s'

theorem Faithful.mono {s t : PlanState} {cursor next : Nat} {ending : Ending × PlanState} (h : Faithful t next ending)
    (hle : ∀ s', Drains t next s' → Drains s cursor s') : Faithful s cursor ending := by
  match ending, h with
  | (.cut, _), _ => trivial
  | (.drained, s'), h => exact hle s' h
  | (.paused next point, t), h => exact fun hresumable s' hs' => hle s' (h hresumable s' hs')

theorem faithful_runWith (driver : StepDriver) (fuel cursor : Nat) (s : PlanState) :
    Faithful s cursor ((runWith driver fuel cursor).run s) := by
  induction fuel generalizing cursor s with
  | zero => trivial
  | succ fuel ih =>
    cases hqueue : s.queue with
    | cons next rest =>
      rw [runWith_step hqueue]
      dsimp only
      split
      · exact fun _ s' h => .step hqueue h
      · exact (ih cursor _).mono fun s' h => .step hqueue h
    | nil =>
      have hle := sweep_fst_le cursor s
      rw [runWith_nil hqueue]
      dsimp only
      generalize hswept : (sweep cursor).run s = swept at hle ⊢
      have hgrows := emits_run finishInstances swept.2
      have hstill := mute_finishInstances.queue_run swept.2
      generalize hfinish : finishInstances.run swept.2 = finished at hgrows hstill ⊢
      split
      · -- a pause of the sweeps
        intro hresumable s' h
        by_cases hempty : swept.2.queue = []
        · have hclean := hresumable.resolve_left (absurd hempty)
          rcases h.of_clean hempty hclean hfinish with ⟨hnone, rfl⟩ | ⟨hmore, h⟩
          · exact .quiescent hqueue hswept hempty hfinish hnone
          · have hsame := (hclean.sameNews hle).emits (hgrows.trans (emits_run (enqueueAll finished.1) finished.2))
            exact .released hqueue hswept hempty hfinish hmore (h.of_sameNews hsame)
        · exact .swept hqueue hswept hempty h
      · split
        · next hmore => exact (ih _ _).mono fun s' h => .swept hqueue hswept (by simpa using hmore) h
        · next hdrained =>
          have hempty : swept.2.queue = [] := by simpa using hdrained
          split
          · -- a pause of the completions
            rintro ⟨hnone, hclean, hfinished⟩ s' h
            rw [h.eq_of_clean (hstill.trans hempty) hclean hfinished]
            exact .quiescent hqueue hswept hempty hfinish hnone
          · split
            · next hnone =>
              have hnone : finished.1 = [] := by simpa using hnone
              have hdrains : Drains s cursor finished.2 := .quiescent hqueue hswept hempty hfinish hnone
              rw [hnone, run_enqueueAll_nil]
              exact hdrains
            · next hmore =>
              have hmore : finished.1 ≠ [] := by simpa using hmore
              exact (ih _ _).mono fun s' h => .released hqueue hswept hempty hfinish hmore h

/-! ## The children of an ended instance -/

omit [Feel] in
theorem cascadeCancelChildren_clean {s : PlanState} (h : liveChildren s.engine.state (endedInstances s.log) = []) :
    (cascadeCancelChildren.run s).2 = s := by
  show ((if !(endedInstances s.log).isEmpty then
    cascadeFrom (s.engine.state.instances.size + 1) (endedInstances s.log) else pure () : Plan Unit).run s).2 = s
  split
  · rw [cascadeFrom, run_bind]
    simp only [show self.run s = (s.engine, s) from rfl, h]
    rfl
  · rfl

omit [Feel] in
/-- Discarding an instance emits at least its termination. -/
theorem discardAndTerminateInstance_grows (instanceKey : Key) (s : PlanState) :
    s.log.length < ((discardAndTerminateInstance instanceKey).run s).2.log.length := by
  have hlast (events : List Event) (t : PlanState) :
      t.log.length < ((emitAll (events ++ [.processInstanceTerminated instanceKey])).run t).2.log.length := by
    induction events generalizing t with
    | nil =>
      have hcleanup := length_le_of_emits (emits_run (cleanupAgentInstances instanceKey) t)
      have hrun : ((emitAll [.processInstanceTerminated instanceKey]).run t).2 =
          ((cleanupAgentInstances instanceKey).run t).2.applyEvent (.processInstanceTerminated instanceKey) := by
        show ((emit _ >>= fun _ => pure () : Plan Unit).run t).2 = _
        rw [run_bind]
        show ((cleanupAgentInstances instanceKey >>= fun _ => emitPlain _).run t).2 = _
        rw [run_bind]
        rfl
      rw [List.nil_append, hrun]
      simpa [PlanState.applyEvent] using Nat.lt_succ_of_le hcleanup
    | cons event events ih =>
      have hfirst := length_le_of_emits (emits_run (emit event) t)
      refine hfirst.trans_lt ((ih ((emit event).run t).2).trans_eq ?_)
      show _ = ((emit event >>= fun _ => emitAll (events ++ _)).run t).2.log.length
      rw [run_bind]
  exact hlast _ s

omit [Feel] in
/-- An orphan is terminated, and the log tells. -/
theorem cascadeCancelChildren_grows {s : PlanState} (h : liveChildren s.engine.state (endedInstances s.log) ≠ []) :
    s.log.length < (cascadeCancelChildren.run s).2.log.length := by
  have hended : endedInstances s.log ≠ [] := by
    intro hnil
    have hnone (parent : Option Key) : parent.any ([] : List Key).contains = false := by cases parent <;> rfl
    rw [hnil] at h
    simp [liveChildren, sortKeys, sortByKey, hnone] at h
  show _ < ((if !(endedInstances s.log).isEmpty then
    cascadeFrom (s.engine.state.instances.size + 1) (endedInstances s.log) else pure () : Plan Unit).run s).2.log.length
  rw [if_pos (by simpa using hended), cascadeFrom, run_bind]
  simp only [show self.run s = (s.engine, s) from rfl]
  cases hchildren : liveChildren s.engine.state (endedInstances s.log) with
  | nil => exact absurd hchildren h
  | cons child children =>
    rw [run_bind]
    have hfirst := discardAndTerminateInstance_grows child s
    have hrest := length_le_of_emits (emits_run (children.forM discardAndTerminateInstance)
      ((discardAndTerminateInstance child).run s).2)
    have hcascade := length_le_of_emits (emits_run
      (cascadeFrom s.engine.state.instances.size ((child :: children) ++ endedInstances s.log))
      (((child :: children).forM discardAndTerminateInstance).run s).2)
    have hall : ((child :: children).forM discardAndTerminateInstance).run s =
        (children.forM discardAndTerminateInstance).run ((discardAndTerminateInstance child).run s).2 := run_bind ..
    rw [hall] at hcascade ⊢
    omega

end Plan

/-! ## The runs of a session -/

namespace Engine

variable [Feel]

/-- The plan's state in which a paused session stands. -/
def standing (e : Engine) (session : DebugSession) (p : Paused) : PlanState :=
  { engine := e, log := session.log, queue := p.queue }

/-- A call finds the session finished, or paused where the loop can be entered again. -/
def CanResume (c : Engine × DebugSession) : Prop :=
  ∀ p ∈ c.2.paused, Plan.Resumable (standing c.1 c.2 p) p.cursor p.point

instance (c : Engine × DebugSession) : Decidable (CanResume c) :=
  inferInstanceAs (Decidable (∀ p ∈ c.2.paused, _))

/-- Every call of the run finds the session so. -/
def ResumesAlong (fuel : Nat) : Engine × DebugSession → List DebugCall → Prop
  | _, [] => True
  | c, call :: calls => CanResume c ∧ ∀ c' ∈ debugCall fuel c call, ResumesAlong fuel c' calls

def decidableResumesAlong (fuel : Nat) : ∀ (c : Engine × DebugSession) (calls : List DebugCall),
    Decidable (ResumesAlong fuel c calls)
  | _, [] => isTrue trivial
  | c, call :: calls =>
    haveI := fun c' => decidableResumesAlong fuel c' calls
    inferInstanceAs (Decidable (CanResume c ∧ ∀ c' ∈ debugCall fuel c call, ResumesAlong fuel c' calls))

instance (fuel : Nat) (c : Engine × DebugSession) (calls : List DebugCall) : Decidable (ResumesAlong fuel c calls) :=
  decidableResumesAlong fuel c calls

/-- What a session owes to the plain loop from the planned state `s`: a paused one can be left to it, a finished one
has ended as it does. -/
def Owes (s : PlanState) (c : Engine × DebugSession) : Prop :=
  match c.2.paused with
  | some p => Plan.Resumable (standing c.1 c.2 p) p.cursor p.point →
    ∀ s', Plan.Drains (standing c.1 c.2 p) p.cursor s' → Plan.Drains s 0 s'
  | none => ∃ s', Plan.Drains s 0 s' ∧ c.2.log = s'.log ∧ c.1 = s'.engine.finishCommand s'.log ∧
    c.2.orphans = Plan.liveChildren s'.engine.state (Plan.endedInstances s'.log)

theorem Owes.drive {s : PlanState} {c c' : Engine × DebugSession} (h : Owes s c) (hresume : CanResume c) {fuel : Nat}
    {driver : StepDriver} (hdrive : c.1.drive fuel driver c.2 = some c') : Owes s c' := by
  obtain ⟨e, session⟩ := c
  unfold Engine.drive at hdrive
  cases hpaused : session.paused with
  | none =>
    simp only [hpaused, Option.some.injEq] at hdrive
    rw [← hdrive]
    exact h
  | some p =>
    have hleft : ∀ s', Plan.Drains (standing e session p) p.cursor s' → Plan.Drains s 0 s' := by
      have howes : Owes s (e, session) := h
      rw [Owes, hpaused] at howes
      exact howes (hresume p hpaused)
    have hfaithful := (Plan.faithful_runWith driver fuel p.cursor (standing e session p)).mono hleft
    simp only [hpaused] at hdrive
    rw [show ({ engine := e, log := session.log, queue := p.queue } : PlanState) = standing e session p from rfl] at hdrive
    split at hdrive
    · cases hdrive
    · next hrun =>
      rw [hrun] at hfaithful
      cases hdrive
      exact hfaithful
    · next hrun =>
      rw [hrun] at hfaithful
      cases hdrive
      exact ⟨_, hfaithful, rfl, rfl, rfl⟩

theorem Owes.call {s : PlanState} {c c' : Engine × DebugSession} (h : Owes s c) (hresume : CanResume c) {fuel : Nat}
    {call : DebugCall} (hcall : debugCall fuel c call = some c') : Owes s c' := by
  cases call with
  | resume => exact h.drive hresume hcall
  | step => exact h.drive hresume hcall
  | setBreakpoints breakpoints =>
    cases hcall
    exact h

theorem Owes.calls {s : PlanState} {c c' : Engine × DebugSession} (h : Owes s c) {fuel : Nat} {calls : List DebugCall}
    (hresumes : ResumesAlong fuel c calls) (hcalls : debugCalls fuel c calls = some c') : Owes s c' := by
  induction calls generalizing c with
  | nil =>
    cases hcalls
    exact h
  | cons call calls ih =>
    obtain ⟨next, hcall, hrest⟩ := Option.bind_eq_some_iff.mp hcalls
    exact ih (h.call hresumes.1 hcall) (hresumes.2 next hcall) hrest

/-- A planned session owes the loop its own run. -/
theorem owes_planned (s : PlanState) (breakpoints : List BreakCondition) : Owes s (s.engine, planned s breakpoints) :=
  fun _ _ h => h

section Finished

variable {fuel : Nat} {e : Engine} {command : Command} {now : Nat} {breakpoints : List BreakCondition}
  {calls : List DebugCall} {c c' : Engine × DebugSession}

/-- A finished session has come to where the loop of the command runs dry; the command goes on to the children. -/
theorem session_ends (hstart : e.debugCommandAt fuel command now breakpoints = .ok (some c))
    (hcalls : debugCalls fuel c calls = some c') (hfinished : c'.2.paused = none) (hresumes : ResumesAlong fuel c calls) :
    ∃ s : PlanState, c'.2.log = s.log ∧ c'.1 = s.engine.finishCommand s.log ∧
      c'.2.orphans = Plan.liveChildren s.engine.state (Plan.endedInstances s.log) ∧
      ∃ n, ∀ m, n ≤ m → e.applyCommandAt m command now =
        (.ok (Plan.cascadeCancelChildren.run s).2.log,
          (Plan.cascadeCancelChildren.run s).2.engine.finishCommand (Plan.cascadeCancelChildren.run s).2.log) := by
  unfold debugCommandAt at hstart
  unfold applyCommandAt
  generalize e.planCommandAt command now = plan at hstart ⊢
  obtain ⟨result, s⟩ := plan
  cases result with
  | error err => cases hstart
  | ok u =>
    have hfirst : Owes s c := by
      refine (owes_planned s breakpoints).drive ?_ (Except.ok.inj hstart)
      rintro p hp
      cases hp
      trivial
    have howes := hfirst.calls hresumes hcalls
    rw [Owes, hfinished] at howes
    obtain ⟨s', hdrains, hlog, hengine, horphans⟩ := howes
    obtain ⟨n, hn⟩ := hdrains.run
    refine ⟨s', hlog, hengine, horphans, n, fun m hm => ?_⟩
    simp only [settle, Plan.drain, Plan.run_bind, hn m hm]

/-- The log of the command tells of the children that the session has left. -/
theorem log_ne_of_orphans (hstart : e.debugCommandAt fuel command now breakpoints = .ok (some c))
    (hcalls : debugCalls fuel c calls = some c') (hfinished : c'.2.paused = none) (hresumes : ResumesAlong fuel c calls)
    (horphans : c'.2.orphans ≠ []) : ∃ n, ∀ m, n ≤ m → (e.applyCommandAt m command now).1 ≠ .ok c'.2.log := by
  obtain ⟨s, hlog, -, hleft, n, hn⟩ := session_ends hstart hcalls hfinished hresumes
  rw [hleft] at horphans
  have hgrows := Plan.cascadeCancelChildren_grows horphans
  refine ⟨n, fun m hm heq => ?_⟩
  rw [hn m hm, hlog] at heq
  simp only [Except.ok.injEq] at heq
  rw [heq] at hgrows
  exact lt_irrefl _ hgrows

/-- In a debug run that finishes, whose every pause can be resumed, the log and the engine are those of the command,
whatever the breakpoints and the calls, if and only if no instance that ended has left a child. -/
theorem debug_parity (hstart : e.debugCommandAt fuel command now breakpoints = .ok (some c))
    (hcalls : debugCalls fuel c calls = some c') (hfinished : c'.2.paused = none) (hresumes : ResumesAlong fuel c calls) :
    (∃ n, ∀ m, n ≤ m → e.applyCommandAt m command now = (.ok c'.2.log, c'.1)) ↔ c'.2.orphans = [] := by
  constructor
  · rintro ⟨k, hk⟩
    by_contra horphans
    obtain ⟨n, hn⟩ := log_ne_of_orphans hstart hcalls hfinished hresumes horphans
    exact hn (max n k) (le_max_left n k) (by rw [hk _ (le_max_right n k)])
  · intro hnone
    obtain ⟨s, hlog, hengine, hleft, n, hn⟩ := session_ends hstart hcalls hfinished hresumes
    rw [hleft] at hnone
    refine ⟨n, fun m hm => ?_⟩
    rw [hn m hm, hlog, hengine, Plan.cascadeCancelChildren_clean hnone]

end Finished

/-- A process that waits at a service task. -/
def supplierProcess : ProcessDefinition where
  id := "supplier"
  startEvent := "start"
  elements := ({} : StrMap Element)
    |>.insert "start" { id := "start", kind := .startEvent, outgoing := [{ target := "pack" }] }
    |>.insert "pack" { id := "pack", kind := .serviceTask "work" none none [] [], outgoing := [{ target := "done" }] }
    |>.insert "done" { id := "done", kind := .endEvent }

/-- A process that calls it. -/
def orderingProcess : ProcessDefinition where
  id := "order"
  startEvent := "start"
  elements := ({} : StrMap Element)
    |>.insert "start" { id := "start", kind := .startEvent, outgoing := [{ target := "call" }] }
    |>.insert "call" { id := "call", kind := .callActivity "supplier" true true, outgoing := [{ target := "done" }] }
    |>.insert "done" { id := "done", kind := .endEvent }

/-- An engine on which an order waits for its supplier. -/
def ordered : Engine :=
  (@runCalls Feel.refusing 40 (withPartition 0)
    (.applyCommandAt (.deployProcess supplierProcess) 0 :: startOne orderingProcess)).2

/-- The creation of a second supplier, first in single steps and then to a breakpoint. -/
def stepThenResume : List DebugCall :=
  [.step, .setBreakpoints [.elementActivated "pack"], .resume, .resume]

omit [Feel] in
theorem started_of_any {α : Type} {x : Except EngineError (Option α)} {p : α → Bool}
    (h : x.toOption.join.any p = true) : ∃ a, x = .ok (some a) ∧ p a = true := by
  obtain ⟨a, ha, hp⟩ := (Option.any_eq_true _ _).mp h
  match x, ha with
  | .ok (some a), rfl => exact ⟨a, rfl, hp⟩

omit [Feel] in
theorem debug_parity_stepThenResume :
    ∃ c c', @debugCommandAt Feel.refusing 40 ordered (.createInstance "supplier" ∅ [] none none none) 0 [.everyStep] =
        .ok (some c) ∧
      c.2.paused.isSome = true ∧ @debugCalls Feel.refusing 40 c stepThenResume = some c' ∧
      ∃ n, ∀ m, n ≤ m → @applyCommandAt Feel.refusing m ordered (.createInstance "supplier" ∅ [] none none none) 0 =
        (.ok c'.2.log, c'.1) := by
  have hrun : ((@debugCommandAt Feel.refusing 40 ordered (.createInstance "supplier" ∅ [] none none none) 0
      [.everyStep]).toOption.join.any fun c => c.2.paused.isSome &&
        decide (@ResumesAlong Feel.refusing 40 c stepThenResume) &&
        (@debugCalls Feel.refusing 40 c stepThenResume).any fun c' => c'.2.paused.isNone && c'.2.orphans.isEmpty) =
      true := by
    decide +kernel
  obtain ⟨c, hstart, hc⟩ := started_of_any hrun
  simp only [Bool.and_eq_true, decide_eq_true_eq, Option.any_eq_true] at hc
  obtain ⟨⟨hpaused, hresumes⟩, c', hcalls, hfinished, horphans⟩ := hc
  exact ⟨c, c', hstart, hpaused, hcalls, (@debug_parity Feel.refusing _ _ _ _ _ _ _ _ hstart hcalls
    (Option.isNone_iff_eq_none.mp hfinished) hresumes).mpr (List.isEmpty_iff.mp horphans)⟩

omit [Feel] in
/-- The order is canceled, without a breakpoint. Its supplier runs on, where the command terminates it. -/
theorem debug_leaves_child :
    ∃ c, @debugCommandAt Feel.refusing 40 ordered (.cancelInstance 5) 0 [] = .ok (some c) ∧ c.2.paused = none ∧
      (c.1.state.instances[8]?.map (·.state)) = some .active ∧
      ¬ ∃ n, ∀ m, n ≤ m → @applyCommandAt Feel.refusing m ordered (.cancelInstance 5) 0 = (.ok c.2.log, c.1) := by
  have hrun : ((@debugCommandAt Feel.refusing 40 ordered (.cancelInstance 5) 0 []).toOption.join.any fun c =>
      c.2.paused.isNone && c.1.state.instances[8]?.map (·.state) == some .active && !c.2.orphans.isEmpty) = true := by
    decide +kernel
  obtain ⟨c, hstart, hc⟩ := started_of_any hrun
  simp only [Bool.and_eq_true, Bool.not_eq_true', beq_iff_eq] at hc
  obtain ⟨⟨hpaused, hchild⟩, horphans⟩ := hc
  have hfinished := Option.isNone_iff_eq_none.mp hpaused
  have hleft : c.2.orphans ≠ [] := fun hnil => by rw [hnil] at horphans; cases horphans
  have hcalls : @debugCalls Feel.refusing 40 c [] = some c := rfl
  have hresumes : @ResumesAlong Feel.refusing 40 c [] := trivial
  obtain ⟨n, hn⟩ := @log_ne_of_orphans Feel.refusing _ _ _ _ _ _ _ _ hstart hcalls hfinished hresumes hleft
  refine ⟨c, hstart, hfinished, hchild, ?_⟩
  rintro ⟨k, hk⟩
  exact hn (max n k) (le_max_left n k) (by rw [hk _ (le_max_right n k)])

end Engine

end NanoBpm
