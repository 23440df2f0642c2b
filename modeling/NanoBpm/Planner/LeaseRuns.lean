import NanoBpm.JobRuns
import NanoBpm.Leases
import NanoBpm.Planner.Runs

/-!
# Lease fencing in the runs of the engine

Every log the engine writes is fair: the drain loop and the sweeps create jobs under new keys and cancel known ones, and
the commands of workers look at the job before they emit anything about it. What a fair log says of the jobs then holds
at every point of every run. The one way out is an incident: the job it parked is given back without its token, and any
token is good for a job that holds none.
-/

namespace NanoBpm

/-! ## Logs of the engine -/

/-- A fair log that leads to the state, with job keys and tokens from the given keys. -/
structure Issued (minted : Key → Prop) (log : List Event) (s : State) : Prop where
  fair : FairLog log
  state : s = replayed log
  jobs : ∀ (k : Key) (l : JobLease), s.lease k = some l → minted k
  tokens : ∀ (k : Key) (t : String), some t ∈ tokens k log → ∃ key, minted key ∧ t = Lease.issue key

/-- Events that neither create nor activate nor finish a job. -/
structure Event.LeavesJobs (event : Event) : Prop where
  created : event.createdJobKey = none
  activation : event.activation = none
  finished : event.finished = none

/-- The events of workers have origins of their own. -/
theorem Event.activation_of_origin {event : Event} (h : event.origin ≠ .activation) : event.activation = none := by
  cases event <;> first | rfl | exact absurd rfl h

theorem Event.finished_of_origin {event : Event} (hcompletion : event.origin ≠ .completion)
    (hfailure : event.origin ≠ .failure) (herror : event.origin ≠ .error) : event.finished = none := by
  cases event <;> first | rfl | exact absurd rfl hcompletion | exact absurd rfl hfailure | exact absurd rfl herror

theorem Event.createdJobKey_eq {event : Event} {k : Key} (h : event.createdJobKey = some k) :
    event.createsJob = true ∧ event.created = some k := by
  cases event <;> first | exact ⟨rfl, h⟩ | cases h

/-- Origins of which no event is a worker's. -/
def workerless (os : List Origin) : Bool :=
  !os.contains .activation && !os.contains .completion && !os.contains .failure && !os.contains .error

namespace Plan.Allowed

variable {F : Key → Prop} {os : List Origin} {event : Event}

theorem activation_eq (h : Allowed F os event) (hos : workerless os = true) : event.activation = none := by
  have horigin := h.origin
  simp only [workerless, Bool.and_eq_true, Bool.not_eq_true', List.contains_eq_mem, decide_eq_false_iff_not] at hos
  refine Event.activation_of_origin fun heq => ?_
  simp [heq] at horigin
  simp_all

theorem finished_eq (h : Allowed F os event) (hos : workerless os = true) : event.finished = none := by
  have horigin := h.origin
  simp only [workerless, Bool.and_eq_true, Bool.not_eq_true', List.contains_eq_mem, decide_eq_false_iff_not] at hos
  refine Event.finished_of_origin (fun heq => ?_) (fun heq => ?_) fun heq => ?_ <;>
  · simp [heq] at horigin
    simp_all

theorem leavesJobs (h : Allowed F os event) (hos : workerless os = true) (hjob : .job ∉ os) : event.LeavesJobs := by
  refine ⟨Option.eq_none_iff_forall_ne_some.mpr fun k hk => ?_, h.activation_eq hos, h.finished_eq hos⟩
  exact hjob (h.jobs (Event.createdJobKey_eq hk).1)

end Plan.Allowed

namespace Issued

variable {minted : Key → Prop} {log : List Event} {s : State}

theorem mono {minted' : Key → Prop} (h : Issued minted log s) (hle : ∀ key, minted key → minted' key) :
    Issued minted' log s := by
  refine ⟨h.fair, h.state, fun k l hl => hle k (h.jobs k l hl), fun k t ht => ?_⟩
  obtain ⟨key, hkey, heq⟩ := h.tokens k t ht
  exact ⟨key, hle key hkey, heq⟩

/-- One more fair event. -/
theorem snoc (h : Issued minted log s) {event : Event} (hfair : event.Fair log)
    (hcreated : ∀ k, event.createdJobKey = some k → minted k)
    (htoken : ∀ k t, event.activation = some (k, some t) → ∃ key, minted key ∧ t = Lease.issue key) :
    Issued minted (log ++ [event]) (apply s event) := by
  refine ⟨.snoc h.fair hfair, by rw [replayed_snoc, h.state], fun k l hl => ?_, fun k t ht => ?_⟩
  · rw [lease_apply] at hl
    split at hl
    · next hk => exact hcreated k hk
    · obtain ⟨l', hl', -⟩ := Option.map_eq_some_iff.mp hl
      exact h.jobs k l' hl'
  · rw [tokens_append] at ht
    rcases List.mem_append.mp ht with ht | ht
    · exact h.tokens k t ht
    · rw [tokens_singleton] at ht
      simp only [List.mem_map, Option.mem_toList, Option.filter_eq_some_iff, beq_iff_eq] at ht
      obtain ⟨⟨key, token⟩, ⟨hactivation, hk⟩, rfl⟩ := ht
      exact htoken key t hactivation

theorem leavesJobs (h : Issued minted log s) {event : Event} (hevent : event.LeavesJobs) :
    Issued minted (log ++ [event]) (apply s event) :=
  h.snoc (.plain hevent.created hevent.activation hevent.finished) (by simp [hevent.created])
    (by simp [hevent.activation])

/-- A worker finishes an open job. -/
theorem finish (h : Issued minted log s) {event : Event} {k : Key} (hfinished : event.finished = some k) {l : JobLease}
    (hl : s.lease k = some l) (hopen : l.state.isOpen = true) : Issued minted (log ++ [event]) (apply s event) := by
  have hcreated : event.createdJobKey = none := by cases event <;> first | rfl | cases hfinished
  have hactivation : event.activation = none := by cases event <;> first | rfl | cases hfinished
  refine h.snoc ⟨by simp [hcreated], by simp [hactivation], fun k' hk' => ?_⟩ (by simp [hcreated]) (by simp [hactivation])
  cases hfinished.symm.trans hk'
  exact ⟨l, h.state ▸ hl, hopen⟩

/-- A plan that leaves the jobs alone. -/
theorem of_emits {α : Type} {F : Key → Prop} {p : Plan α} (hp : p.Emits F Event.LeavesJobs) {past : List Event}
    {s : PlanState} (hF : ∀ n, s.engine.nextLocal ≤ n → n < (p.run s).2.engine.nextLocal →
      F (Engine.mintedKey s.engine.partitionId n))
    (h : Issued minted (past ++ s.log) s.engine.state) :
    Issued minted (past ++ (p.run s).2.log) (p.run s).2.engine.state :=
  Plan.keeps_run (I := Issued minted) (fun _ _ _ hevent h => h.leavesJobs hevent) past (hp.log s hF) h

end Issued

/-! ## Stretches -/

/-- While a stretch goes on: a job under a key that was not minted before has done nothing yet. -/
structure Stretching (old minted : Key → Prop) (log : List Event) (s : State) : Prop extends Issued minted log s where
  created : ∀ k, ¬old k → NanoBpm.tokens k log = [] ∧ completions k log = 0 ∧
    ∀ l, s.lease k = some l → l.state = .created

namespace Stretching

variable {old minted : Key → Prop} {log : List Event} {s : State}

theorem of_issued (h : Issued old log s) (hle : ∀ key, old key → minted key) : Stretching old minted log s := by
  refine ⟨h.mono hle, fun k hk => ?_⟩
  have hnone : s.lease k = none := Option.eq_none_iff_forall_ne_some.mpr fun l hl => hk (h.jobs k l hl)
  have hnone' : (replayed log).lease k = none := h.state ▸ hnone
  obtain ⟨htokens, hcompletions⟩ := h.fair.untouched hnone'
  exact ⟨htokens, hcompletions, by simp [hnone]⟩

/-- An event that is no worker's, creates jobs under new keys and cancels old ones. -/
theorem snoc (h : Stretching old minted log s) {event : Event} (hactivation : event.activation = none)
    (hfinished : event.finished = none) (hcreated : ∀ k, event.createdJobKey = some k → ¬old k ∧ minted k)
    (hcancels : ∀ k i, event = .jobCanceled k i → old k) : Stretching old minted (log ++ [event]) (apply s event) := by
  have hissued : Issued minted (log ++ [event]) (apply s event) := by
    refine h.toIssued.snoc ⟨fun k hk => ?_, by simp [hactivation], by simp [hfinished]⟩
      (fun k hk => (hcreated k hk).2) (by simp [hactivation])
    obtain ⟨htokens, hcompletions, hstate⟩ := h.created k (hcreated k hk).1
    exact ⟨htokens, hcompletions, fun l hl => hstate l (h.state ▸ hl)⟩
  refine ⟨hissued, fun k hk => ?_⟩
  obtain ⟨htokens, hcompletions, hstate⟩ := h.created k hk
  have hnone : event.completed ≠ some k := fun hcompleted => by
    simp [Event.finished_of_completed hcompleted] at hfinished
  refine ⟨?_, ?_, fun l hl => ?_⟩
  · rw [tokens_append, htokens, tokens_of_activation (by simp [hactivation]), List.append_nil]
  · rw [completions_append, hcompletions, completions_singleton, if_neg hnone]
  · rw [lease_apply] at hl
    split at hl
    · cases hl
      rfl
    · obtain ⟨l', hl', rfl⟩ := Option.map_eq_some_iff.mp hl
      have hl' := hstate l' hl'
      cases event <;> try exact hl'
      case jobActivated => cases hactivation
      case jobLockExpired => simp [Event.onLease, hl']
      case jobFailed => cases hfinished
      case jobErrorThrown => cases hfinished
      case jobCompleted => cases hfinished
      case incidentResolved => simp [Event.onLease, hl']
      case jobCanceled key i _ =>
        have hne : key ≠ k := by
          rintro rfl
          exact hk (hcancels key i rfl)
        simp [Event.onLease, hne, hl']

end Stretching

/-- Events before any job is created keep what is known of the keys. -/
theorem Issued.quiet {minted : Key → Prop} {log : List Event} {s : State} {events : List Event}
    (h : Issued minted log s) (hevents : ∀ event ∈ events, event.LeavesJobs) :
    Issued minted (log ++ events) (applyAll s events) :=
  Plan.keeps_applyAll (I := Issued minted) (fun _ _ _ hevent h => h.leavesJobs hevent) log hevents h

/-- A stretch of which no event is a worker's. -/
theorem Issued.stretch {os : List Origin} (hos : workerless os = true) {log : List Event} {s s' : PlanState}
    {events : List Event} (hstretch : Stretch os s s' events) (hroom : s'.engine.nextLocal ≤ localMask)
    (h : Issued s.engine.Minted log s.engine.state) : Issued s'.engine.Minted (log ++ events) s'.engine.state := by
  rw [hstretch.state]
  have hallowed := hstretch.allowed
  obtain ⟨quiet, rest, rfl, hquiet, hrest⟩ := hstretch.cancels
  have hfirst : Issued s.engine.Minted (log ++ quiet) (applyAll s.engine.state quiet) := by
    refine h.quiet fun event hevent => ?_
    have hevent' := hallowed event (by simp [hevent])
    refine ⟨Option.eq_none_iff_forall_ne_some.mpr fun k hk => ?_, hevent'.activation_eq hos, hevent'.finished_eq hos⟩
    have hcreates := hquiet event hevent
    rw [(Event.createdJobKey_eq hk).1] at hcreates
    cases hcreates
  rw [applyAll_append, ← List.append_assoc]
  have hstart := Stretching.of_issued hfirst fun _ => hstretch.minted
  refine (Plan.keeps_applyAll (I := Stretching s.engine.Minted s'.engine.Minted) (P := fun event => event ∈ rest)
    (fun log' s'' event hevent h' => ?_) _ (fun _ => id) hstart).toIssued
  have hevent' := hallowed event (by simp [hevent])
  refine h'.snoc (hevent'.activation_eq hos) (hevent'.finished_eq hos) (fun k hk => ?_) fun k i heq => ?_
  · have hminted := hevent'.minted k (Event.createdJobKey_eq hk).2
    refine ⟨hminted.not_minted hroom, ?_⟩
    obtain ⟨n, -, hlt, rfl⟩ := hminted
    exact ⟨n, hlt, by rw [hstretch.partitionId]⟩
  · -- the canceled job is one of the state the stretch began in
    subst heq
    obtain ⟨j, hj, rfl⟩ := hrest _ hevent
    obtain ⟨key, hkey⟩ := Std.ExtTreeMap.mem_vals.mp hj
    have hlease : s.engine.state.lease key = some j.lease := by simp [State.lease, hkey]
    have hsame : j.key = key := FairLog.keyed log (h.state ▸ hlease)
    rw [hsame]
    exact h.jobs key j.lease hlease

theorem Issued.stretches {os : List Origin} (hos : workerless os = true) {log : List Event} {s s' : PlanState}
    {events : List Event} (hstretches : Stretches os s s' events) (hroom : s'.engine.nextLocal ≤ localMask)
    (h : Issued s.engine.Minted log s.engine.state) : Issued s'.engine.Minted (log ++ events) s'.engine.state := by
  induction hstretches generalizing log with
  | nil => simpa using h
  | cons hstretch hmore ih =>
    rw [← List.append_assoc]
    exact ih hroom (h.stretch hos hstretch (Nat.le_trans hmore.nextLocal hroom))

/-! ## Plans of the commands -/

namespace Plan

variable [Feel]

/-- The start of a chain of task listeners, or what is done without one. -/
theorem inStretches_transitionUserTask {task : UserTask} {pending : PendingUserTaskTransition} {now : Plan Unit}
    (h : now.Within (fun _ => False) [.job]) : (transitionUserTask task pending now).InStretches [.job] := by
  intro s
  refine StretchesFrom.self_bind ?_
  split
  · refine StretchesFrom.ofStepM_bind s.engine.tame_startTaskListenerChain fun events hevents => ?_
    refine ⟨Unit, Pure.pure (), fun _ => _, rfl, trivial, fun _ => ?_⟩
    exact followups_emitAll (by simp) hevents
  · exact Emits.inStretches h s

theorem inStretches_completeUserTask {task : UserTask} {vars : Vars} : (completeUserTask task vars).InStretches [.job] := by
  refine inStretches_transitionUserTask (.bind (calm_emit rfl rfl) fun _ => ?_)
  split
  · exact .bind emits_self fun e => .bind (calm_emitAny (e.tame_propagatedUpdates _ _ _ _)) fun _ => emits_enqueue
  · exact emits_enqueue

theorem inStretches_cancelInstance {instanceKey : Key} : (cancelInstance instanceKey).InStretches [.cancellation, .job] := by
  refine .bind (Emits.inStretches emits_self) fun e => .bind (Emits.inStretches (calm_emitAny tame_cancelWaits)) fun _ =>
    .bind (Emits.inStretches (calm_emitAny (s := e.state) (.map fun _ => .plain rfl rfl rfl rfl rfl))) fun _ => ?_
  dsimp only
  split
  · exact Emits.inStretches (within_emit rfl rfl)
  · refine .bind (Emits.inStretches (within_emit rfl rfl)) fun _ => inStretches_forM fun entry _ => ?_
    intro s
    refine StretchesFrom.self_bind (StretchesFrom.ofStepM_bind s.engine.tame_startTaskListenerChain fun events hevents => ?_)
    refine ⟨Unit, Pure.pure (), fun _ => _, rfl, trivial, fun _ => ?_⟩
    exact followups_emitAll (by simp) hevents

end Plan

namespace Cmd

variable {α β : Type}

/-- A command that is refused, or runs in stretches. -/
def InStretches (os : List Origin) (c : Cmd α) : Prop := ∀ s, ∃ events, Stretches os s (c s).2 events

theorem InStretches.plan {os : List Origin} {p : Plan α} (h : p.InStretches os) : (Cmd.plan p).InStretches os := h

theorem InStretches.check_bind {os : List Origin} {f : Engine → Except EngineError α} {c : α → Cmd β}
    (h : ∀ a, (c a).InStretches os) : (Cmd.check f >>= c).InStretches os := by
  intro s
  obtain ⟨a, -, hrun⟩ | ⟨err, -, hrun⟩ := Cmd.check_bind_cases f c s
  · rw [hrun]
    exact h a s
  · rw [hrun]
    exact ⟨[], .nil s⟩

end Cmd

/-- The commands that may create a job by themselves. -/
theorem inStretches_planCommand [Feel] {command : Command} (h : .job ∈ command.origins) :
    (planCommand command).InStretches command.origins := by
  cases command <;> simp [Command.origins] at h <;> unfold planCommand
  case assignUserTask =>
    exact .check_bind fun _ => .check_bind fun _ => .plan (Plan.inStretches_transitionUserTask (Plan.calm_emit rfl rfl))
  case unassignUserTask =>
    exact .check_bind fun _ => .plan (Plan.inStretches_transitionUserTask (Plan.calm_emit rfl rfl))
  case updateUserTask =>
    exact .check_bind fun _ => .plan (Plan.inStretches_transitionUserTask (Plan.calm_emit rfl rfl))
  case completeUserTask => exact .check_bind fun _ => .plan Plan.inStretches_completeUserTask
  case cancelInstance => exact .check_bind fun _ => .plan Plan.inStretches_cancelInstance

/-! ## What workers do -/

section Checks

variable {e : Engine} {jobKey : Key} {token : Option String} {job : Job}

theorem JobState.isOpen_eq (s : JobState) : s.isOpen = !s.isOver := by
  cases s <;> rfl

/-- A check that a worker may finish a job. -/
def Accepts (e : Engine) (jobKey : Key) (token : Option String) (job : Job) : Prop :=
  e.state.jobs[jobKey]? = some job ∧ job.state.isOpen = true ∧ validateJobLease job token true = .ok ()

theorem accepts_checkCompleteJob {vars : Vars} {adhocResult : Option AdHocJobResult}
    {taskListenerResult : Option TaskListenerJobResult}
    (h : checkCompleteJob e jobKey token vars adhocResult taskListenerResult = .ok job) : Accepts e jobKey token job := by
  unfold checkCompleteJob at h
  obtain ⟨found, hfound, h⟩ := Except.bind_eq_ok.mp h
  obtain ⟨_, hover, h⟩ := Except.bind_eq_ok.mp h
  obtain ⟨_, hlease, h⟩ := Except.bind_eq_ok.mp h
  obtain ⟨_, -, h⟩ := Except.bind_eq_ok.mp h
  -- what the answer of a listener or an agent must satisfy besides
  have hjob : found = job := by
    dsimp only at h
    split at h <;>
    · obtain ⟨_, -, h⟩ := Except.bind_eq_ok.mp h
      split at h
      · obtain ⟨_, -, h⟩ := Except.bind_eq_ok.mp h
        cases h
        rfl
      · split at h
        · obtain ⟨_, -, h⟩ := Except.bind_eq_ok.mp h
          cases h
          rfl
        · obtain ⟨_, -, h⟩ := Except.bind_eq_ok.mp h
          obtain ⟨_, -, h⟩ := Except.bind_eq_ok.mp h
          cases h
          rfl
  subst hjob
  exact ⟨okOr_eq_ok.mp hfound, by simp [JobState.isOpen_eq, refuseIf_eq_ok.mp hover], hlease⟩

theorem checkJobOpen_ok (h : checkJobOpen e jobKey = .ok job) :
    e.state.jobs[jobKey]? = some job ∧ job.state.isOpen = true := by
  unfold checkJobOpen at h
  obtain ⟨found, hfound, h⟩ := Except.bind_eq_ok.mp h
  obtain ⟨_, hover, h⟩ := Except.bind_eq_ok.mp h
  cases h
  exact ⟨okOr_eq_ok.mp hfound, by simp [JobState.isOpen_eq, refuseIf_eq_ok.mp hover]⟩

theorem accepts_checkFailJob (h : checkFailJob e jobKey token = .ok job) : Accepts e jobKey token job := by
  unfold checkFailJob at h
  obtain ⟨found, hfound, h⟩ := Except.bind_eq_ok.mp h
  obtain ⟨_, hlease, h⟩ := Except.bind_eq_ok.mp h
  obtain ⟨_, -, h⟩ := Except.bind_eq_ok.mp h
  cases h
  exact ⟨(checkJobOpen_ok hfound).1, (checkJobOpen_ok hfound).2, hlease⟩

theorem accepts_checkThrowJobError (h : checkThrowJobError e jobKey token = .ok job) : Accepts e jobKey token job := by
  unfold checkThrowJobError at h
  obtain ⟨found, hfound, h⟩ := Except.bind_eq_ok.mp h
  obtain ⟨_, -, h⟩ := Except.bind_eq_ok.mp h
  obtain ⟨_, hlease, h⟩ := Except.bind_eq_ok.mp h
  cases h
  exact ⟨(checkJobOpen_ok hfound).1, (checkJobOpen_ok hfound).2, hlease⟩

/-- A token that is held must be supplied. -/
theorem Accepts.supplied (h : Accepts e jobKey token job) {held : String} (hheld : job.leaseToken = some held)
    (hne : held.isEmpty = false) : token = some held := by
  have hlease := h.2.2
  simp only [validateJobLease, hheld, Option.filter_some, hne, Bool.not_false, if_true, Bool.not_true, Bool.and_false,
    Bool.false_eq_true, if_false, refuseIf_eq_ok, bne_eq_false_iff_eq] at hlease
  exact (Option.filter_eq_some_iff.mp hlease).1

end Checks

namespace Plan

variable {F : Key → Prop}

theorem leavesJobs_wrapped (event : Event) (hagent : ofAgent event = true) : event.LeavesJobs := by
  obtain ⟨h, hcreated, -⟩ := plain_of_ofAgent hagent
  refine ⟨Option.eq_none_iff_forall_ne_some.mpr fun k hk => ?_, Event.activation_of_origin (by simp [h]),
    Event.finished_of_origin (by simp [h]) (by simp [h]) (by simp [h])⟩
  exact absurd ((Event.createdJobKey_eq hk).2.symm.trans hcreated) (by simp)

theorem Emits.leavesJobs {α : Type} {p : Plan α} (h : p.Within F []) : p.Emits F Event.LeavesJobs :=
  h.mono fun _ hevent => hevent.leavesJobs rfl (by simp)

theorem leavesJobs_continueAfterJob {job : Job} {adhocResult : Option AdHocJobResult}
    {taskListenerResult : Option TaskListenerJobResult} :
    (continueAfterJob job adhocResult taskListenerResult).Emits F Event.LeavesJobs := by
  unfold continueAfterJob
  split
  · dsimp only
    split
    · exact emits_emit leavesJobs_wrapped ⟨rfl, rfl, rfl⟩
    · split
      · exact .bind (emits_emit leavesJobs_wrapped ⟨rfl, rfl, rfl⟩) fun _ => emits_enqueue
      · exact emits_enqueue
  · exact emits_enqueue
  · refine .bind emits_self fun e => ?_
    split
    · dsimp only
      split
      · exact emits_enqueue
      · exact .bind emits_self fun _ => emits_enqueueAll
    · exact emits_enqueue

/-- An event that finishes a job is emitted first, what settles the job's history after it. -/
theorem run_emit_finished {event : Event} {k : Key} (h : event.finished = some k) (rest : Plan Unit) (s : PlanState) :
    ∃ settles : Plan Unit, settles.Emits (fun _ => False) Event.LeavesJobs ∧
      (emit event >>= fun _ => rest).run s = (settles >>= fun _ => rest).run (s.applyEvent event) := by
  cases event <;> cases h
  · exact ⟨Pure.pure (), trivial, rfl⟩
  · exact ⟨settleJobHistory _ _ _ _, emits_settleJobHistory leavesJobs_wrapped, rfl⟩
  · exact ⟨settleJobHistory _ _ _ _, emits_settleJobHistory leavesJobs_wrapped, rfl⟩

end Plan

namespace Issued

variable {minted : Key → Prop} {past : List Event} {s : PlanState}

/-- A worker finishes a job, and what follows leaves the jobs alone. -/
theorem finish_bind {F : Key → Prop} {event : Event} {k : Key} {l : JobLease} {rest : Plan Unit}
    (h : Issued minted (past ++ s.log) s.engine.state) (hfinished : event.finished = some k)
    (hl : s.engine.state.lease k = some l) (hopen : l.state.isOpen = true) (hrest : rest.Emits F Event.LeavesJobs)
    (hF : ∀ key, F key) :
    Issued minted (past ++ ((Plan.emit event >>= fun _ => rest).run s).2.log)
      ((Plan.emit event >>= fun _ => rest).run s).2.engine.state := by
  obtain ⟨settles, hsettles, hrun⟩ := Plan.run_emit_finished hfinished rest s
  rw [hrun]
  have hfirst : Issued minted (past ++ (s.applyEvent event).log) (s.applyEvent event).engine.state := by
    rw [PlanState.log_applyEvent, PlanState.state_applyEvent, ← List.append_assoc]
    exact h.finish hfinished hl hopen
  rw [Plan.run_bind]
  refine of_emits hrest (fun n _ _ => hF _) ?_
  refine Plan.keeps_run (I := Issued minted) (fun _ _ _ hevent h => h.leavesJobs hevent) past
    (hsettles.log_of_not_mints _).1 hfirst

/-- The lease of a job that a worker may finish. -/
theorem lease_of_accepts {log : List Event} {e : Engine} {jobKey : Key} {token : Option String} {job : Job}
    (h : Issued minted log e.state) (haccepts : Accepts e jobKey token job) :
    job.key = jobKey ∧ e.state.lease job.key = some job.lease := by
  have hlease : e.state.lease jobKey = some job.lease := by simp [State.lease, haccepts.1]
  have hkey : job.key = jobKey := FairLog.keyed log (h.state ▸ hlease)
  exact ⟨hkey, hkey ▸ hlease⟩

/-- An activation. -/
theorem apply_jobActivated {log : List Event} {s : State} (h : Issued minted log s) {k instanceKey : Key}
    {durable : Bool} {worker : String} {deadline : Nat} {activatedAt : Option Nat} {fetch : List String}
    {token : Option String} {l : JobLease} (hl : s.lease k = some l) (hopen : l.state.isOpen = true)
    (hfree : token = none → l.token = none)
    (htoken : ∀ t, token = some t → ∃ key, minted key ∧ t = Lease.issue key ∧ ∀ other, some t ∉ NanoBpm.tokens other log) :
    Issued minted (log ++ [.jobActivated k instanceKey durable worker deadline activatedAt fetch token])
      (apply s (.jobActivated k instanceKey durable worker deadline activatedAt fetch token)) := by
  refine h.snoc ⟨by simp [Event.createdJobKey], fun k' token' heq => ?_, by simp [Event.finished]⟩
    (by simp [Event.createdJobKey]) fun k' t heq => ?_
  · cases heq
    refine ⟨⟨l, h.state ▸ hl, hopen, hfree⟩, fun t ht => ?_⟩
    obtain ⟨key, -, -, hfresh⟩ := htoken t ht
    exact hfresh
  · cases heq
    obtain ⟨key, hkey, heq, -⟩ := htoken t rfl
    exact ⟨key, hkey, heq⟩

/-- The token of the next key was never handed out. -/
theorem token_fresh {e : Engine} {log : List Event} {s : State} (h : Issued e.Minted log s)
    (hroom : e.nextLocal < localMask) (hword : ∀ key, e.Minted key → key ≤ u64Max)
    (hnext : Engine.mintedKey e.partitionId e.nextLocal ≤ u64Max) (k : Key) :
    some (Lease.issue (Engine.mintedKey e.partitionId e.nextLocal)) ∉ NanoBpm.tokens k log := by
  intro hmem
  obtain ⟨key, hkey, heq⟩ := h.tokens k _ hmem
  have hissued := congrArg Lease.issuedKey heq
  rw [Lease.issuedKey_issue hnext, Lease.issuedKey_issue (hword key hkey)] at hissued
  exact not_minted_next hroom (hissued ▸ hkey)

end Issued

/-- What the log of a plan is, within the key space. -/
def Issuing (past : List Event) (s : PlanState) : Prop :=
  s.engine.nextLocal ≤ localMask → (∀ key, s.engine.Minted key → key ≤ u64Max) →
    Issued s.engine.Minted (past ++ s.log) s.engine.state

/-- `apply_activation_plan`, one job. -/
theorem issuing_activateJob {past : List Event} {s : PlanState} {worker : String} {timeout now : Nat}
    {options : JobActivationOptions} {durable : Bool} {jobKey : Key} (h : Issuing past s) :
    Issuing past ((activateJob worker timeout now options durable jobKey).run s).2 := by
  unfold activateJob
  rw [Plan.run_bind]
  show Issuing past (Plan.run _ s).2
  split
  · exact h
  · next job hjob =>
    dsimp only
    split
    · next hcond =>
      simp only [Bool.and_eq_true, Bool.or_eq_true, beq_iff_eq] at hcond
      obtain ⟨⟨hstate, hfree⟩, -⟩ := hcond
      have hlease : s.engine.state.lease jobKey = some job.lease := by
        have hjob : s.engine.state.jobs[jobKey]? = some job := hjob
        simp [State.lease, hjob]
      have hopen : job.lease.state.isOpen = true := by
        rcases hstate with hstate | ⟨hstate, -⟩ <;> simp [Job.lease, hstate, JobState.isOpen]
      split
      · show Issuing past (s.mint.2.applyEvent _)
        intro hroom hword
        rw [PlanState.nextLocal_applyEvent] at hroom
        rw [minted_applyEvent] at hword ⊢
        rw [PlanState.log_applyEvent, PlanState.state_applyEvent, ← List.append_assoc]
        rw [PlanState.nextLocal_mint] at hroom
        have hless := Nat.lt_of_succ_le hroom
        have hnext : s.mint.2.engine.Minted (Engine.mintedKey s.engine.partitionId s.engine.nextLocal) :=
          ⟨s.engine.nextLocal, Nat.lt_succ_self _, rfl⟩
        have hbefore := h (Nat.le_of_lt hless) fun key hkey => hword key (minted_mint hkey)
        refine (hbefore.mono fun _ => minted_mint).apply_jobActivated hlease hopen (by simp) fun t ht => ?_
        have heq : Lease.issue (Engine.mintedKey s.engine.partitionId s.engine.nextLocal) = t := Option.some.inj ht
        rw [← heq]
        exact ⟨_, hnext, rfl, hbefore.token_fresh hless (fun key hkey => hword key (minted_mint hkey)) (hword _ hnext)⟩
      · next hplain =>
        show Issuing past (s.applyEvent _)
        intro hroom hword
        rw [PlanState.nextLocal_applyEvent] at hroom
        rw [minted_applyEvent] at hword ⊢
        rw [PlanState.log_applyEvent, PlanState.state_applyEvent, ← List.append_assoc]
        refine (h hroom hword).apply_jobActivated hlease hopen (fun _ => ?_) (by simp)
        simpa [hplain, Job.lease] using hfree
    · exact h

theorem issuing_applyActivationPlan {past : List Event} {s : PlanState} {jobKeys : List Key} {worker : String}
    {timeout now : Nat} {options : JobActivationOptions} {durable : Bool} (h : Issuing past s) :
    Issuing past ((applyActivationPlan jobKeys worker timeout now options durable).run s).2 := by
  unfold applyActivationPlan
  generalize jobKeys.eraseDups = keys
  induction keys generalizing s with
  | nil => exact h
  | cons jobKey keys ih =>
    have hrun : ((jobKey :: keys).forM (activateJob worker timeout now options durable)).run s =
        (keys.forM (activateJob worker timeout now options durable)).run
          ((activateJob worker timeout now options durable jobKey).run s).2 := Plan.run_bind _ _ s
    rw [hrun]
    exact ih (issuing_activateJob h)

/-! ## Runs -/

/-- A command that was planned passed its check. -/
theorem Cmd.check_bind_ok {α β : Type} {f : Engine → Except EngineError α} {c : α → Cmd β} {s s' : PlanState} {b : β}
    (h : (Cmd.check f >>= c) s = (.ok b, s')) : ∃ a, f s.engine = .ok a ∧ c a s = (.ok b, s') := by
  obtain ⟨a, hf, hrun⟩ | ⟨err, -, hrun⟩ := Cmd.check_bind_cases f c s
  · exact ⟨a, hf, hrun ▸ h⟩
  · rw [hrun] at h
    cases h

theorem Cmd.plan_ok {α : Type} {p : Plan α} {s s' : PlanState} {a : α} (h : Cmd.plan p s = (.ok a, s')) :
    (p.run s).2 = s' := congrArg Prod.snd h

/-- The job a worker's command finishes, and the token it supplies. -/
def Command.finishing : Command → Option (Key × Option String)
  | .completeJob jobKey token .. | .failJob jobKey token .. | .throwJobError jobKey token .. => some (jobKey, token)
  | _ => none

namespace Engine

variable [Feel]

theorem issued_planCommandAt {log : List Event} {e : Engine} {command : Command} {now : Nat} {s : PlanState}
    (h : e.nextLocal ≤ localMask → (∀ key, e.Minted key → key ≤ u64Max) → Issued e.Minted log e.state)
    (hs : e.planCommandAt command now = (.ok (), s)) (hroom : s.engine.nextLocal ≤ localMask)
    (hword : ∀ key, s.engine.Minted key → key ≤ u64Max) : Issued s.engine.Minted (log ++ s.log) s.engine.state := by
  obtain ⟨hnext, hminted⟩ := minted_planCommandAt hs
  have hbefore := h (Nat.le_trans hnext hroom) fun key hkey => hword key (hminted key hkey)
  let s₀ : PlanState := { engine := e.beginCommand now }
  have hstart : Issued s₀.engine.Minted (log ++ s₀.log) s₀.engine.state := by
    rw [List.append_nil]
    exact hbefore
  have hrun : (planCommand command s₀).2 = s := congrArg Prod.snd hs
  by_cases hjob : .job ∈ command.origins
  · have hos : workerless command.origins = true := by cases command <;> first | rfl | simp [Command.origins] at hjob
    obtain ⟨events, hevents⟩ := inStretches_planCommand hjob s₀
    rw [hrun] at hevents
    have hlog : s.log = events := by rw [hevents.log, List.nil_append]
    rw [hlog]
    exact hbefore.stretches hos hevents hroom
  by_cases hos : workerless command.origins = true
  · obtain ⟨p, hp⟩ := runsPlan_planCommand command s₀
    have hevents := within_planCommand command (F := fun _ => True) (fun _ _ => trivial) s₀ fun _ _ _ => trivial
    rw [← hrun, hp] at hminted ⊢
    rw [hp] at hevents
    exact Plan.keeps_run (I := Issued _) (fun _ _ _ hevent h => h.leavesJobs (hevent.leavesJobs hos hjob)) log hevents
      (hstart.mono hminted)
  · cases command <;> try exact absurd rfl hos
    case completeJob jobKey token vars adhocResult taskListenerResult =>
      obtain ⟨job, hcheck, hs⟩ := Cmd.check_bind_ok hs
      obtain ⟨-, hlease⟩ := hbefore.lease_of_accepts (accepts_checkCompleteJob hcheck)
      rw [← Cmd.plan_ok hs] at hminted ⊢
      refine (hstart.mono hminted).finish_bind (F := fun _ => True) rfl hlease (accepts_checkCompleteJob hcheck).2.1 ?_
        fun _ => trivial
      split
      · exact .bind Plan.emits_self fun e => .bind (Plan.Emits.leavesJobs
          (Plan.calm_emitAny (e.tame_propagatedUpdates _ _ _ _))) fun _ => Plan.leavesJobs_continueAfterJob
      · exact Plan.leavesJobs_continueAfterJob
    case activateJobs jobType worker maxJobs timeout now' fetchVariables withLease =>
      rw [← Cmd.plan_ok hs] at hroom hword ⊢
      exact issuing_applyActivationPlan (fun _ _ => hstart) hroom hword
    case activateJobsByKey jobKeys worker timeout now' fetchVariables withLease =>
      rw [← Cmd.plan_ok hs] at hroom hword ⊢
      exact issuing_applyActivationPlan (fun _ _ => hstart) hroom hword
    case failJob jobKey token retries errorMessage =>
      obtain ⟨job, hcheck, hs⟩ := Cmd.check_bind_ok hs
      obtain ⟨-, hlease⟩ := hbefore.lease_of_accepts (accepts_checkFailJob hcheck)
      rw [← Cmd.plan_ok hs] at hminted ⊢
      exact (hstart.mono hminted).finish_bind (F := fun _ => True) rfl hlease (accepts_checkFailJob hcheck).2.1
        (Plan.Emits.leavesJobs within_afterJobFailed) fun _ => trivial
    case throwJobError jobKey token errorCode errorMessage vars =>
      obtain ⟨job, hcheck, hs⟩ := Cmd.check_bind_ok hs
      obtain ⟨-, hlease⟩ := hbefore.lease_of_accepts (accepts_checkThrowJobError hcheck)
      rw [← Cmd.plan_ok hs] at hminted ⊢
      exact (hstart.mono hminted).finish_bind (F := fun _ => True) rfl hlease (accepts_checkThrowJobError hcheck).2.1
        (Plan.Emits.leavesJobs within_afterJobError) fun _ => trivial

omit [Feel] in
theorem logInvariant_issued : LogInvariant fun log e => e.nextLocal ≤ localMask →
    (∀ key, e.Minted key → key ≤ u64Max) → Issued e.Minted log e.state := by
  refine .of_minted (I := fun minted log s => (∀ key, minted key → key ≤ u64Max) → Issued minted log s) ?_
  intro log s s' events hstretch hroom h hword
  exact (h fun key hkey => hword key (hstretch.minted hkey)).stretch rfl hstretch hroom

omit [Feel] in
/-- The keys of a partition are 64-bit words. -/
theorem word_of_minted {e : Engine} (hpartition : e.partitionId ≤ maxPartitionId) {key : Key} (hkey : e.Minted key) : key ≤ u64Max := by
  obtain ⟨n, hn, rfl⟩ := hkey
  have hlocal : (n + 1) % localSpan < localSpan := Nat.mod_lt _ (by decide)
  have hpartition : e.partitionId ≤ 2 ^ 13 - 1 := hpartition
  have hbound : e.partitionId * localSpan + (n + 1) % localSpan ≤ 2 ^ 64 - 1 := by
    unfold localSpan at hlocal ⊢
    omega
  exact hbound

/-- The log of a run is fair, and its tokens were issued by the engine. -/
theorem issued_runCalls (fuel : Nat) {partitionId : Nat} (calls : List HostCall) (hpartition : partitionId ≤ maxPartitionId)
    (hroom : (runCalls fuel (withPartition partitionId) calls).2.nextLocal ≤ localMask) :
    Issued (runCalls fuel (withPartition partitionId) calls).2.Minted (runCalls fuel (withPartition partitionId) calls).1
      (runCalls fuel (withPartition partitionId) calls).2.state := by
  have hstart : Issued (withPartition partitionId).Minted [] (withPartition partitionId).state := by
    refine ⟨.nil, rfl, fun k l hl => ?_, by simp [tokens]⟩
    exact absurd (hl.symm.trans FairLog.lease_nil) (by simp)
  have halong : AlongCalls fuel (fun _ _ _ => True) [] (withPartition partitionId) calls := alongCalls_true
  have hend := logInvariant_issued.calls (fun h _ hs => issued_planCommandAt h hs) fuel (by rfl) (fun _ _ => hstart)
    halong hroom
  refine hend fun key hkey => word_of_minted ?_ hkey
  rw [(follows_runCalls fuel (withPartition partitionId) (by rfl) calls).partitionId]
  exact hpartition

theorem accepts_applyCommandAt {fuel : Nat} {e : Engine} {command : Command} {now : Nat} {k : Key}
    {supplied : Option String} (hfinishing : command.finishing = some (k, supplied))
    (hok : (e.applyCommandAt fuel command now).1.isOk = true) : ∃ job, Accepts e k supplied job := by
  have hplanned : ∃ s, e.planCommandAt command now = (.ok (), s) := by
    unfold applyCommandAt at hok
    generalize e.planCommandAt command now = planned at hok ⊢
    obtain ⟨result, s⟩ := planned
    cases result with
    | ok u => exact ⟨s, rfl⟩
    | error err => cases hok
  obtain ⟨s, hs⟩ := hplanned
  cases command <;> cases hfinishing
  case completeJob =>
    obtain ⟨job, hcheck, -⟩ := Cmd.check_bind_ok hs
    exact ⟨job, accepts_checkCompleteJob hcheck⟩
  case failJob =>
    obtain ⟨job, hcheck, -⟩ := Cmd.check_bind_ok hs
    exact ⟨job, accepts_checkFailJob hcheck⟩
  case throwJobError =>
    obtain ⟨job, hcheck, -⟩ := Cmd.check_bind_ok hs
    exact ⟨job, accepts_checkThrowJobError hcheck⟩

/-- What leases are for, at the end of a run with the given log. -/
structure LeaseFenced (log : List Event) (e : Engine) : Prop where
  completedOnce : ∀ k, completions k log ≤ 1
  endedStays : ∀ (before later : List Event) (k : Key) (l : JobLease), before ++ later <+: log →
    (replayed before).lease k = some l → l.state.ended = true →
      ∃ l', (replayed (before ++ later)).lease k = some l' ∧ l'.state.ended = true
  leaselessFree : ∀ (before : List Event) (event : Event) (k : Key) (l : JobLease), before ++ [event] <+: log →
    event.activation = some (k, none) → (replayed before).lease k = some l → l.token = none
  holder : ∀ (fuel : Nat) (command : Command) (now : Nat) (k : Key) (supplied : Option String) (l : JobLease)
    (t : String), command.finishing = some (k, supplied) → (e.applyCommandAt fuel command now).1.isOk = true →
      e.state.lease k = some l → l.token = some t → supplied = some t ∧ (tokens k log).getLast? = some (some t)
  earlier : ∀ (fuel : Nat) (command : Command) (now : Nat) (k : Key) (supplied : Option String) (t : String),
    command.finishing = some (k, supplied) → (e.applyCommandAt fuel command now).1.isOk = true →
      some t ∈ (tokens k log).dropLast → supplied ≠ some t

/-- In every run in which no incident gives a parked job back without the token it holds, a job is completed at most
once and does not return from the states it ends in; no activation without a lease takes a job that holds a token; and a
worker finishes a job that holds one only with the token of its latest activation, never with an earlier one. -/
theorem lease_fences_stale_workers (fuel partitionId : Nat) (calls : List HostCall)
    (hpartition : partitionId ≤ maxPartitionId)
    (hroom : (runCalls fuel (withPartition partitionId) calls).2.nextLocal ≤ localMask)
    (hkeeps : keepsLeases {} (runCalls fuel (withPartition partitionId) calls).1 = true) :
    LeaseFenced (runCalls fuel (withPartition partitionId) calls).1
      (runCalls fuel (withPartition partitionId) calls).2 := by
  have hissued := issued_runCalls fuel calls hpartition hroom
  generalize runCalls fuel (withPartition partitionId) calls = run at hissued hkeeps
  obtain ⟨log, e⟩ := run
  have hfair := hissued.fair
  refine ⟨fun k => ?_, ?_, ?_, ?_, ?_⟩
  · rcases hfair.completed_once (k := k) with hzero | ⟨hone, -⟩ <;> omega
  · rintro before later k l ⟨after, rfl⟩ hl hended
    exact hfair.of_append.ended_append hl hended
  · rintro before event k l ⟨after, rfl⟩ hactivation hl
    obtain ⟨⟨l', hl', -, hfree⟩, -⟩ := hfair.of_append.of_snoc.2.activated k none hactivation
    cases hl.symm.trans hl'
    exact hfree rfl
  · intro fuel command now k supplied l t hfinishing hok hl ht
    obtain ⟨job, haccepts⟩ := accepts_applyCommandAt hfinishing hok
    have hjob : job.lease = l := by
      simpa [State.lease, haccepts.1] using hl
    subst hjob
    have hended := JobState.not_ended_of_isOpen haccepts.2.1
    have hheld : job.lease.token = (tokens k log).getLast?.join :=
      hfair.token_eq hkeeps (hissued.state ▸ hl) hended
    have hlast : (tokens k log).getLast? = some (some t) := by
      rw [ht] at hheld
      cases hlast : (tokens k log).getLast? with
      | none => simp [hlast] at hheld
      | some last => simpa [hlast] using hheld.symm
    obtain ⟨key, -, rfl⟩ := hissued.tokens k t (List.mem_of_getLast? hlast)
    exact ⟨haccepts.supplied ht (Lease.issue_isEmpty key), hlast⟩
  · intro fuel command now k supplied t hfinishing hok ht hsupplied
    obtain ⟨job, haccepts⟩ := accepts_applyCommandAt hfinishing hok
    have hl : (replayed log).lease k = some job.lease := by
      rw [← hissued.state]
      simp [State.lease, haccepts.1]
    obtain ⟨hsome, hne⟩ := hfair.token_ne_earlier hkeeps hl (JobState.not_ended_of_isOpen haccepts.2.1) ht
    obtain ⟨held, hheld⟩ := Option.isSome_iff_exists.mp hsome
    have hmem : some held ∈ tokens k log := by
      have hjoin := hfair.token_eq hkeeps hl (JobState.not_ended_of_isOpen haccepts.2.1)
      rw [hheld] at hjoin
      cases hlast : (tokens k log).getLast? with
      | none => simp [hlast] at hjoin
      | some last =>
        rw [hlast] at hjoin
        exact hjoin ▸ List.mem_of_getLast? hlast
    obtain ⟨key, -, rfl⟩ := hissued.tokens k held hmem
    have hgiven := haccepts.supplied hheld (Lease.issue_isEmpty key)
    exact hne (hheld.trans (hgiven.symm.trans hsupplied))

end Engine

namespace Engine

/-- A first worker leases the job for ten ticks and loses its lock, and a second one leases it. -/
def leasedTwice : List HostCall :=
  [.applyCommandAt (.deployProcess oneTaskProcess) 0, .applyCommandAt (.createInstance "order" ∅ [] none none none) 0,
    .applyCommandAt (.activateJobs "work" "first" 1 10 0 [] true) 0, .applyCommandAt (.expireJobs 20) 20,
    .applyCommandAt (.activateJobs "work" "second" 1 10 20 [] true) 20]

/-- The second worker gives up, and its incident is resolved. -/
def parkedAndResolved : List HostCall :=
  leasedTwice ++ [.applyCommandAt (.failJob 6 (some (Lease.issue 8)) 0 "no") 21,
    .applyCommandAt (.updateJobRetries 6 none 1 none) 22, .applyCommandAt (.resolveIncident 9 none) 22]

/-- The first worker is refused, the second is not. -/
theorem lease_fences_first_worker :
    (@applyCommandAt Feel.refusing 40 (@runCalls Feel.refusing 40 (withPartition 0) leasedTwice).2
        (.completeJob 6 (some (Lease.issue 8)) ∅ none none) 21).1.isOk = true ∧
      tokens 6 (@runCalls Feel.refusing 40 (withPartition 0) leasedTwice).1 =
        [some (Lease.issue 7), some (Lease.issue 8)] ∧
      @LeaseFenced Feel.refusing (@runCalls Feel.refusing 40 (withPartition 0) leasedTwice).1
        (@runCalls Feel.refusing 40 (withPartition 0) leasedTwice).2 :=
  ⟨by decide +kernel, by decide +kernel, @lease_fences_stale_workers Feel.refusing 40 0 leasedTwice (by decide)
    (by decide +kernel) (by decide +kernel)⟩

/-- The resolved incident gives the job back without a token, and the first worker completes it. -/
theorem first_worker_completes_resolved_job :
    let run := @runCalls Feel.refusing 40 (withPartition 0) parkedAndResolved
    tokens 6 run.1 = [some (Lease.issue 7), some (Lease.issue 8)] ∧
      (@applyCommandAt Feel.refusing 40 run.2 (.completeJob 6 (some (Lease.issue 7)) ∅ none none) 23).1.isOk = true ∧
      ¬@LeaseFenced Feel.refusing run.1 run.2 := by
  have htokens : tokens 6 (@runCalls Feel.refusing 40 (withPartition 0) parkedAndResolved).1 =
      [some (Lease.issue 7), some (Lease.issue 8)] := by decide +kernel
  have hok : (@applyCommandAt Feel.refusing 40 (@runCalls Feel.refusing 40 (withPartition 0) parkedAndResolved).2
      (.completeJob 6 (some (Lease.issue 7)) ∅ none none) 23).1.isOk = true := by decide +kernel
  refine ⟨htokens, hok, fun hfenced => ?_⟩
  refine @LeaseFenced.earlier Feel.refusing _ _ hfenced 40 (.completeJob 6 (some (Lease.issue 7)) ∅ none none) 23 6
    (some (Lease.issue 7)) (Lease.issue 7) rfl hok ?_ rfl
  rw [htokens]
  simp

end Engine

end NanoBpm
