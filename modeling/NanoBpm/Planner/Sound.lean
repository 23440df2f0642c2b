import NanoBpm.Planner.Command
import NanoBpm.Replay

/-!
# A command is its events

Whatever a plan does to the state, it does by emitting: the log it leaves, applied to the state before it, is the
state after it. A refused command leaves the state and the key counter alone, because every arm of
`plan_command_at` makes all its checks first. From the two, the state of an engine is a function of its log.
-/

namespace NanoBpm

/-! ## Plans emit -/

/-- `s'` is `s` after some events: the log has grown by them and the state is what they make of it. -/
def PlanState.Emits (s s' : PlanState) : Prop :=
  ∃ events, s'.log = s.log ++ events ∧ s'.engine.state = applyAll s.engine.state events ∧
    s'.engine.partitionId = s.engine.partitionId ∧ s'.engine.retiredTombstones = s.engine.retiredTombstones

namespace PlanState

/-- An operation that emits nothing. -/
theorem Emits.of_eq {s s' : PlanState} (hlog : s'.log = s.log) (hstate : s'.engine.state = s.engine.state)
    (hpartition : s'.engine.partitionId = s.engine.partitionId)
    (htombstones : s'.engine.retiredTombstones = s.engine.retiredTombstones) : s.Emits s' :=
  ⟨[], by simp [hlog], hstate, hpartition, htombstones⟩

theorem Emits.refl (s : PlanState) : s.Emits s := .of_eq rfl rfl rfl rfl

theorem Emits.trans {s t u : PlanState} (h₁ : s.Emits t) (h₂ : t.Emits u) : s.Emits u := by
  obtain ⟨es, hlog, hstate, hpartition, htombstones⟩ := h₁
  obtain ⟨fs, hlog', hstate', hpartition', htombstones'⟩ := h₂
  refine ⟨es ++ fs, ?_, ?_, hpartition'.trans hpartition, htombstones'.trans htombstones⟩
  · rw [hlog', hlog, List.append_assoc]
  · rw [hstate', hstate, applyAll_append]

/-- The bookkeeping of dirty variables reaches no other field. -/
theorem trackVars_eq (e : Engine) (event : Event) :
    ∃ dirtyVars forgottenVars, e.trackVars event = { e with dirtyVars, forgottenVars } := by
  unfold Engine.trackVars
  split
  · split <;> exact ⟨_, _, rfl⟩
  · exact ⟨_, _, rfl⟩

theorem emits_applyEvent (s : PlanState) (event : Event) : s.Emits (s.applyEvent event) := by
  obtain ⟨dirty, forgotten, htrack⟩ := trackVars_eq s.engine event
  refine ⟨[event], rfl, ?_, ?_, ?_⟩ <;> simp only [applyEvent, htrack]
  rfl

end PlanState

/-- Every plan does: `apply` is the only operation that reaches the state. -/
theorem Plan.emits_run {α : Type} (p : Plan α) (s : PlanState) : s.Emits (p.run s).2 := by
  induction p generalizing s with
  | pure a => exact .refl s
  | read k ih => exact ih s s
  | mint k ih => exact .trans (.of_eq rfl rfl rfl rfl) (ih s.mint.1 s.mint.2)
  | tearDown scope k ih => exact .trans (.of_eq rfl rfl rfl rfl) (ih (s.markTornDown scope))
  | apply event k ih => exact (s.emits_applyEvent event).trans (ih (s.applyEvent event))
  | push step k ih => exact .trans (.of_eq rfl rfl rfl rfl) (ih (s.pushStep step))
  | pop k ih => exact .trans (.of_eq rfl rfl rfl rfl) (ih s.popStep.1 s.popStep.2)
  | dispatch k ih => exact .trans (.of_eq rfl rfl rfl rfl) (ih s.advanceDispatch.1 s.advanceDispatch.2)

/-! ## Commands check before they plan -/

/-- An error leaves everything as it was, and a success has only emitted. -/
structure Cmd.ChecksFirst {α : Type} (c : Cmd α) : Prop where
  error : ∀ (s : PlanState) (err : EngineError), (c s).1 = .error err → (c s).2 = s
  emits : ∀ s : PlanState, s.Emits (c s).2

namespace Cmd

theorem ChecksFirst.plan {α : Type} (p : Plan α) : (Cmd.plan p).ChecksFirst where
  error s err h := by cases h
  emits s := p.emits_run s

/-- A check in front keeps this. -/
theorem ChecksFirst.check_bind {α β : Type} {f : Engine → Except EngineError α} {c : α → Cmd β}
    (h : ∀ a, (c a).ChecksFirst) : (Cmd.check f >>= c).ChecksFirst := by
  constructor
  · intro s err herr
    obtain ⟨a, -, hrun⟩ | ⟨e, -, hrun⟩ := Cmd.check_bind_cases f c s
    · rw [hrun] at herr ⊢
      exact (h a).error s err herr
    · rw [hrun]
  · intro s
    obtain ⟨a, -, hrun⟩ | ⟨e, -, hrun⟩ := Cmd.check_bind_cases f c s
    · rw [hrun]
      exact (h a).emits s
    · rw [hrun]
      exact .refl s

end Cmd

variable [Feel]

theorem checksFirst_deploy (processes : List ProcessDefinition) : (deploy processes).ChecksFirst :=
  .check_bind fun _ => .plan _

omit [Feel] in
theorem checksFirst_updateJob (jobKey : Key) (retries timeout operationReference : Option Int)
    (leaseToken : Option String) :
    (updateJob jobKey retries timeout operationReference leaseToken).ChecksFirst :=
  .check_bind fun _ => .plan _

/-- Every arm of `plan_command_at` makes its checks before it emits an event or mints a key. -/
theorem checksFirst_planCommand (command : Command) : (planCommand command).ChecksFirst := by
  cases command <;> unfold planCommand <;> first
    | exact .plan _
    | exact checksFirst_deploy _
    | exact checksFirst_updateJob ..
    | exact .check_bind fun _ => .plan _
    | exact .check_bind fun _ => .check_bind fun _ => .plan _

/-! ## A refused command -/

namespace Engine

theorem planCommandAt_of_error {e : Engine} {command : Command} {now : Nat} {err : EngineError}
    (h : (e.planCommandAt command now).1 = .error err) :
    (e.planCommandAt command now).2 = { engine := e.beginCommand now } :=
  (checksFirst_planCommand command).error _ err h

theorem emits_planCommandAt (e : Engine) (command : Command) (now : Nat) :
    PlanState.Emits { engine := e.beginCommand now } (e.planCommandAt command now).2 :=
  (checksFirst_planCommand command).emits _

/-- A refused command sets the clock and forgets the torn-down scopes; the state and the key counter are as before. -/
theorem applyCommandAt_error_leaves_engine (fuel : Nat) (e : Engine) (command : Command) (now : Nat)
    (err : EngineError) (h : (e.applyCommandAt fuel command now).1 = .error err) :
    (e.applyCommandAt fuel command now).2 = e.beginCommand now ∧
      (e.applyCommandAt fuel command now).2.state = e.state ∧
      (e.applyCommandAt fuel command now).2.nextLocal = e.nextLocal := by
  suffices hsame : (e.applyCommandAt fuel command now).2 = e.beginCommand now by
    exact ⟨hsame, by rw [hsame]; rfl, by rw [hsame]; rfl⟩
  have hplan := @planCommandAt_of_error _ e command now
  unfold applyCommandAt at h ⊢
  generalize e.planCommandAt command now = planned at h hplan ⊢
  obtain ⟨result, s⟩ := planned
  cases result with
  | error err' => rw [show s = _ from hplan rfl]
  | ok u => cases h

/-- One user task between a start and an end event. -/
def approvalOrder : ProcessDefinition where
  id := "order"
  startEvent := "start"
  elements := ({} : StrMap Element)
    |>.insert "start" { id := "start", kind := .startEvent, outgoing := [{ target := "approve" }] }
    |>.insert "approve" { id := "approve", kind := .userTask {}, outgoing := [{ target := "end" }] }
    |>.insert "end" { id := "end", kind := .endEvent }

/-- An instance waits on its user task, under key 6, which a clerk has. -/
def assignedOrder : Engine :=
  [.deployProcess approvalOrder, .createInstance "order" ∅ [] none none none, .assignUserTask 6 "clerk" false].foldl
    (fun e command => (@applyCommandAt Feel.refusing 40 e command 0).2) (withPartition 0)

omit [Feel] in
/-- The task is there and open, but it is assigned: the last check refuses another assignee. -/
theorem applyCommandAt_assigned_task :
    assignedOrder.state.userTasks[6]?.map (·.assignee) = some (some "clerk") ∧
      (@applyCommandAt Feel.refusing 40 assignedOrder (.assignUserTask 6 "manager" false) 5).1 =
        .error (.userTaskAlreadyAssigned 6) ∧
      (@applyCommandAt Feel.refusing 40 assignedOrder (.assignUserTask 6 "manager" false) 5).2.state =
        assignedOrder.state := by
  have hrefused : ((@applyCommandAt Feel.refusing 40 assignedOrder (.assignUserTask 6 "manager" false) 5).1.map fun _ => ()) =
      .error (.userTaskAlreadyAssigned 6) := by decide +kernel
  have herror : (@applyCommandAt Feel.refusing 40 assignedOrder (.assignUserTask 6 "manager" false) 5).1 =
      .error (.userTaskAlreadyAssigned 6) := by
    generalize (@applyCommandAt Feel.refusing 40 assignedOrder (.assignUserTask 6 "manager" false) 5).1 = result at hrefused ⊢
    cases result with
    | ok log => cases hrefused
    | error err => exact congrArg Except.error (Except.error.inj hrefused)
  exact ⟨by decide +kernel, herror, (@applyCommandAt_error_leaves_engine Feel.refusing 40 assignedOrder
    (.assignUserTask 6 "manager" false) 5 _ herror).2.1⟩

/-! ## Runs of a host -/

/-- What a host calls on an engine: commands, and the settings that are no part of the log. -/
inductive HostCall where
  | applyCommandAt (command : Command) (now : Nat)
  | setNumPartitions (numPartitions : Nat)
  | setLenientCompletion (lenient : Bool)
  | setTrackDirtyVars (on : Bool)
  | setClusterVariables (clusterVariables : Vars)

/-- The events a command returns, none when it is refused. -/
def returned : Except EngineError (List Event) → List Event
  | .ok log => log
  | .error _ => []

/-- The events of a call and the engine after it. -/
def call (fuel : Nat) (e : Engine) : HostCall → List Event × Engine
  | .applyCommandAt command now =>
    (returned (e.applyCommandAt fuel command now).1, (e.applyCommandAt fuel command now).2)
  | .setNumPartitions numPartitions => ([], e.setNumPartitions numPartitions)
  | .setLenientCompletion lenient => ([], e.setLenientCompletion lenient)
  | .setTrackDirtyVars on => ([], { e with trackDirtyVars := on })
  | .setClusterVariables clusterVariables => ([], { e with clusterVariables })

/-- A run: the concatenated log and the engine at its end. -/
def runCalls (fuel : Nat) : Engine → List HostCall → List Event × Engine
  | e, [] => ([], e)
  | e, c :: cs =>
    let (log, e) := e.call fuel c
    let (rest, e) := runCalls fuel e cs
    (log ++ rest, e)

theorem runCalls_cons (fuel : Nat) (e : Engine) (c : HostCall) (cs : List HostCall) :
    runCalls fuel e (c :: cs) =
      ((e.call fuel c).1 ++ (runCalls fuel (e.call fuel c).2 cs).1, (runCalls fuel (e.call fuel c).2 cs).2) := rfl

theorem runCalls_append (fuel : Nat) (e : Engine) (before after : List HostCall) :
    runCalls fuel e (before ++ after) =
      ((runCalls fuel e before).1 ++ (runCalls fuel (runCalls fuel e before).2 after).1,
        (runCalls fuel (runCalls fuel e before).2 after).2) := by
  induction before generalizing e with
  | nil => rfl
  | cons c cs ih =>
    rw [List.cons_append, runCalls_cons, runCalls_cons, ih, List.append_assoc]

/-- What a command or a run does to the state is what its events do, and a leader retires nothing. -/
structure Follows (e : Engine) (log : List Event) (e' : Engine) : Prop where
  state : e'.state = applyAll e.state log
  partitionId : e'.partitionId = e.partitionId
  noTombstones : e'.retiredTombstones.isEmpty = true

theorem follows_applyCommandAt {e : Engine} (h : e.retiredTombstones.isEmpty = true) (fuel : Nat) (command : Command)
    (now : Nat) :
    Follows e (returned (e.applyCommandAt fuel command now).1) (e.applyCommandAt fuel command now).2 := by
  have hemits := emits_planCommandAt e command now
  have herror := @planCommandAt_of_error _ e command now
  unfold applyCommandAt
  generalize e.planCommandAt command now = planned at hemits herror ⊢
  obtain ⟨result, s⟩ := planned
  cases result with
  | error err =>
    rw [show s = _ from herror rfl]
    exact ⟨rfl, rfl, h⟩
  | ok u =>
    obtain ⟨log, hlog, hstate, hpartition, htombstones⟩ := hemits.trans (Plan.emits_run (settle fuel) s)
    have hempty : ((settle fuel).run s).2.engine.retiredTombstones.isEmpty = true := by
      rw [htombstones]
      exact h
    have hlog : ((settle fuel).run s).2.log = log := hlog
    simp only [returned, finishCommand, if_pos hempty, hlog]
    exact ⟨hstate, hpartition, hempty⟩

theorem follows_call {e : Engine} (h : e.retiredTombstones.isEmpty = true) (fuel : Nat) (c : HostCall) :
    Follows e (e.call fuel c).1 (e.call fuel c).2 := by
  cases c with
  | applyCommandAt command now => exact follows_applyCommandAt h fuel command now
  | setNumPartitions numPartitions => exact ⟨rfl, rfl, h⟩
  | setLenientCompletion lenient => exact ⟨rfl, rfl, h⟩
  | setTrackDirtyVars on => exact ⟨rfl, rfl, h⟩
  | setClusterVariables clusterVariables => exact ⟨rfl, rfl, h⟩

theorem follows_runCalls (fuel : Nat) (e : Engine) (h : e.retiredTombstones.isEmpty = true) (calls : List HostCall) :
    Follows e (runCalls fuel e calls).1 (runCalls fuel e calls).2 := by
  induction calls generalizing e with
  | nil => exact ⟨rfl, rfl, h⟩
  | cons c cs ih =>
    have hc := follows_call h fuel c
    have hcs := ih (e.call fuel c).2 hc.noTombstones
    rw [runCalls_cons]
    exact ⟨by rw [hcs.state, hc.state, applyAll_append], hcs.partitionId.trans hc.partitionId, hcs.noTombstones⟩

omit [Feel] in
/-- A snapshot of an engine whose state comes from a log, followed by more of the log. -/
theorem state_fromSnapshot_applyReplayedEvents {e : Engine} (log tail : List Event)
    (h : e.state = applyAll {} log) :
    ((fromSnapshot e.snapshot).applyReplayedEvents tail).state = applyAll {} (log ++ tail) := by
  have hnormal : e.state.definitions.Normalized := h ▸ normalized_applyAll normalized_empty log
  have hstate : (fromSnapshot e.snapshot).state = e.state := congrArg Logged.state (logged_fromSnapshot hnormal)
  rw [state_applyReplayedEvents, hstate, h, applyAll_append]

/-- In every run of a host from the empty engine the state is a function of the log: replay of the whole log gives
it, and so does a snapshot followed by the rest of the log, wherever the log is split (the snapshot is that of the
replayed prefix) and whenever the host takes it (the snapshot is that of the live engine). -/
theorem state_is_function_of_log (fuel partitionId : Nat) (calls : List HostCall) :
    (replayPartition partitionId (runCalls fuel (withPartition partitionId) calls).1).state =
        (runCalls fuel (withPartition partitionId) calls).2.state ∧
      (∀ n, ((fromSnapshot (replayPartition partitionId
            ((runCalls fuel (withPartition partitionId) calls).1.take n)).snapshot).applyReplayedEvents
          ((runCalls fuel (withPartition partitionId) calls).1.drop n)).state =
        (runCalls fuel (withPartition partitionId) calls).2.state) ∧
      (∀ n, ((fromSnapshot (runCalls fuel (withPartition partitionId) (calls.take n)).2.snapshot).applyReplayedEvents
          (runCalls fuel (runCalls fuel (withPartition partitionId) (calls.take n)).2 (calls.drop n)).1).state =
        (runCalls fuel (withPartition partitionId) calls).2.state) := by
  have hfollows := fun calls => follows_runCalls fuel (withPartition partitionId) (by rfl) calls
  refine ⟨?_, ?_, ?_⟩
  · rw [replayPartition, state_applyReplayedEvents, (hfollows calls).state]
  · intro n
    rw [state_fromSnapshot_applyReplayedEvents _ _ (state_applyReplayedEvents _ _), List.take_append_drop,
      (hfollows calls).state]
    rfl
  · intro n
    have happ := runCalls_append fuel (withPartition partitionId) (calls.take n) (calls.drop n)
    rw [List.take_append_drop] at happ
    rw [state_fromSnapshot_applyReplayedEvents _ _ (hfollows (calls.take n)).state, (hfollows calls).state, happ]
    rfl

end Engine

end NanoBpm
