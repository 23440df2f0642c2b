import NanoBpm.JobRuns
import NanoBpm.Lib.Filed

/-!
# What an instance owns, removed and put back (`engine-core/src/engine/memory.rs`)

Seven tables hold what an instance owns: its jobs, timers, message, signal and conditional subscriptions, user tasks and
incidents. Every entity is filed under its own key, in every state a host can reach. From that follow both results of
this file: which tables a removal clears, and when a snapshot followed by a rehydration is the identity.
-/

namespace NanoBpm

open SetTable (NoEmpty)

/-! ## The entity tables -/

/-- The tables of entities other than jobs, and the owner index of the jobs. -/
structure EntityView where
  timers : KeyMap Timer
  messages : KeyMap MessageSubscription
  signals : KeyMap SignalSubscription
  conditionals : KeyMap ConditionalSubscription
  tasks : KeyMap UserTask
  incidents : KeyMap Incident
  jobsOf : KeyMap KeySet

def State.entityView (s : State) : EntityView :=
  ⟨s.timers, s.messageSubscriptions, s.signalSubscriptions, s.conditionalSubscriptions, s.userTasks, s.incidents,
    s.jobsByInstance⟩

/-- Every entity stands under its own key, and no instance lists an empty set of jobs. -/
structure EntityView.Sound (v : EntityView) : Prop where
  timers : Filed Timer.key v.timers
  messages : Filed MessageSubscription.key v.messages
  signals : Filed SignalSubscription.key v.signals
  conditionals : Filed ConditionalSubscription.key v.conditionals
  tasks : Filed UserTask.key v.tasks
  incidents : Filed Incident.key v.incidents
  jobsOf : NoEmpty v.jobsOf

theorem EntityView.sound_empty : (State.entityView {}).Sound where
  timers := Filed.empty
  messages := Filed.empty
  signals := Filed.empty
  conditionals := Filed.empty
  tasks := Filed.empty
  incidents := Filed.empty
  jobsOf := by intro k set hset; simp [State.entityView] at hset

/-! ## Events -/

theorem entityView_decrementInflightByProcess (s : State) (p : Option String) :
    (decrementInflightByProcess s p).entityView = s.entityView := by
  unfold decrementInflightByProcess
  split
  · rfl
  · split <;> rfl

theorem entityView_resyncJobIndex (s : State) (k : Key) : (s.resyncJobIndex k).entityView = s.entityView := by
  unfold State.resyncJobIndex
  split <;> rfl

theorem entityView_applyElement (s : State) (e : Event) : (applyElement s e).entityView = s.entityView := by
  cases e <;> rfl

/-- What a migration does to the tables: the entities of the instance take the new element ids. -/
def EntityView.rename (instanceKey : Key) (remap : ElementId → ElementId) (v : EntityView) : EntityView where
  timers := v.timers.map fun _ t =>
    if t.instanceKey = instanceKey then { t with elementId := remap t.elementId } else t
  messages := v.messages.map fun _ x =>
    if x.instanceKey = instanceKey then { x with elementId := remap x.elementId } else x
  signals := v.signals.map fun _ x =>
    if x.instanceKey = instanceKey then { x with elementId := remap x.elementId } else x
  conditionals := v.conditionals.map fun _ x =>
    if x.instanceKey = instanceKey then { x with elementId := remap x.elementId } else x
  tasks := v.tasks.map fun _ t =>
    if t.instanceKey = instanceKey then { t with elementId := remap t.elementId } else t
  incidents := v.incidents.map fun _ i =>
    if i.instanceKey = instanceKey then { i with elementId := remap i.elementId } else i
  jobsOf := v.jobsOf

theorem entityView_processInstanceMigrated (s : State) (instanceKey : Key) (targetProcessId : String) (targetKey : Key)
    (mappings : List (ElementId × ElementId)) :
    (applyInstance s (.processInstanceMigrated instanceKey targetProcessId targetKey mappings)).entityView =
      s.entityView.rename instanceKey (remapId mappings) := by
  unfold applyInstance
  dsimp only
  split
  · rfl
  · next hother =>
    have hview : (decrementInflightByProcess
        (s.modifyInstance instanceKey (·.migrate targetProcessId targetKey (remapId mappings)))
        (s.instances[instanceKey]?.map (·.processId))).entityView = s.entityView :=
      entityView_decrementInflightByProcess _ _
    rw [← hview]
    rfl

theorem sound_applyInstance {s : State} (h : s.entityView.Sound) (e : Event) : (applyInstance s e).entityView.Sound := by
  cases e <;> try exact h
  case processInstanceCompleted =>
    unfold applyInstance
    rw [entityView_decrementInflightByProcess]
    exact h
  case processInstanceTerminated instanceKey =>
    unfold applyInstance
    dsimp only
    rw [entityView_decrementInflightByProcess]
    -- every listed incident is resolved in place
    have hfold : ∀ (ks : List Key) (m : KeyMap Incident), Filed Incident.key m →
        Filed Incident.key (ks.foldl (fun m k => m.modify k fun i => { i with state := .resolved }) m) := by
      intro ks
      induction ks with
      | nil => exact fun m hm => hm
      | cons k ks ih => exact fun m hm => ih _ (hm.modify k fun _ => rfl)
    exact { h with incidents := hfold _ _ h.incidents }
  case processInstanceMigrated instanceKey targetProcessId targetKey mappings =>
    rw [entityView_processInstanceMigrated]
    refine ⟨h.timers.map ?_, h.messages.map ?_, h.signals.map ?_, h.conditionals.map ?_, h.tasks.map ?_,
      h.incidents.map ?_, h.jobsOf⟩ <;> intro k v <;> split <;> rfl

theorem sound_insertJob {s : State} (h : s.entityView.Sound) (job : Job) : (insertJob s job).entityView.Sound := by
  have hview : (insertJob s job).entityView =
      { s.entityView with
        jobsOf := s.jobsByInstance.insert job.instanceKey ((s.jobsByInstance[job.instanceKey]?.getD ∅).insert job.key) } := by
    unfold insertJob State.linkJob
    dsimp only
    rw [jobsByInstance_resyncJobIndex]
    have hsame := entityView_resyncJobIndex { s with jobs := s.jobs.insert job.key job } job.key
    unfold State.entityView at hsame ⊢
    injection hsame with h₁ h₂ h₃ h₄ h₅ h₆ h₇
    simp only [h₁, h₂, h₃, h₄, h₅, h₆]
  rw [hview]
  exact { h with jobsOf := h.jobsOf.insert _ _ _ }

theorem sound_applyJob {s : State} (h : s.entityView.Sound) (e : Event) : (applyJob s e).entityView.Sound := by
  have resync : ∀ {s' : State} (k : Key), s'.entityView.Sound → (s'.resyncJobIndex k).entityView.Sound := by
    intro s' k hs'
    rw [entityView_resyncJobIndex]
    exact hs'
  cases e <;> try exact h
  case jobCreated => exact sound_insertJob h _
  case executionListenerJobCreated => exact sound_insertJob h _
  case taskListenerJobCreated => exact sound_insertJob h _
  case incidentRaised => exact { h with incidents := h.incidents.insert rfl }
  case incidentResolved incidentKey instanceKey jobKey resolvedAt reference =>
    have hres : Filed Incident.key (s.incidents.modify incidentKey fun i =>
        { i with state := .resolved, resolvedAt := some resolvedAt, operationReference := reference }) :=
      h.incidents.modify _ fun _ => rfl
    cases jobKey with
    | none => exact { h with incidents := hres }
    | some jobKey =>
      unfold applyJob
      dsimp only
      split
      · exact resync _ { h with incidents := hres }
      · exact { h with incidents := hres }
  all_goals exact resync _ h

theorem sound_applyUserTask {s : State} (h : s.entityView.Sound) (e : Event) : (applyUserTask s e).entityView.Sound := by
  cases e <;> try exact h
  case userTaskCreated => exact { h with tasks := h.tasks.insert rfl }
  all_goals exact { h with tasks := h.tasks.modify _ fun _ => rfl }

theorem sound_applyTimer {s : State} (h : s.entityView.Sound) (e : Event) : (applyTimer s e).entityView.Sound := by
  cases e <;> try exact h
  case timerCreated => exact { h with timers := h.timers.insert rfl }
  all_goals exact { h with timers := h.timers.modify _ fun _ => rfl }

theorem sound_applySubscription {s : State} (h : s.entityView.Sound) (e : Event) :
    (applySubscription s e).entityView.Sound := by
  have settle : ∀ key, (settleMessage s key).entityView.Sound := by
    intro key
    refine { h with messages := h.messages.modify _ fun x => ?_ }
    split <;> rfl
  cases e <;> try exact h
  case messageSubscriptionCreated => exact { h with messages := h.messages.insert rfl }
  case messageSubscriptionOpening => exact { h with messages := h.messages.insert rfl }
  case messageCorrelated => exact settle _
  case remoteMessageCorrelation => exact settle _
  case messageSubscriptionCanceled => exact { h with messages := h.messages.modify _ fun _ => rfl }
  case messageSubscriptionClosing => exact { h with messages := h.messages.modify _ fun _ => rfl }
  case signalSubscriptionCreated => exact { h with signals := h.signals.insert rfl }
  case signalCorrelated =>
    refine { h with signals := h.signals.modify _ fun x => ?_ }
    split <;> rfl
  case signalSubscriptionCanceled => exact { h with signals := h.signals.modify _ fun _ => rfl }
  case conditionalSubscriptionCreated => exact { h with conditionals := h.conditionals.insert rfl }
  case conditionalTriggered =>
    refine { h with conditionals := h.conditionals.modify _ fun x => ?_ }
    split <;> rfl
  case conditionalSubscriptionCanceled => exact { h with conditionals := h.conditionals.modify _ fun _ => rfl }

theorem sound_apply {s : State} (h : s.entityView.Sound) (e : Event) : (apply s e).entityView.Sound := by
  refine apply_dispatch (P := fun s' => s'.entityView.Sound) ?_ ?_ (sound_applyInstance h e) ?_ (sound_applyJob h e)
    (sound_applyUserTask h e) (sound_applyTimer h e) (sound_applySubscription h e)
  · unfold applyProcess
    split <;> exact h
  · unfold applyResource
    split <;> try exact h
    split <;> exact h
  · rw [entityView_applyElement]
    exact h

/-! ## Removal -/

/-- The state with another job table and other job indices. -/
def State.withJobView (s : State) (v : JobView) : State :=
  { s with jobs := v.jobs, activatableJobs := v.activatable, activatedJobs := v.activated, jobsByInstance := v.byInstance }

theorem foldl_takeJob_withJobView (ks : List Key) (acc : List Job × State) :
    (ks.foldl State.takeJob acc).2 = acc.2.withJobView (ks.foldl State.takeJob acc).2.jobView := by
  induction ks generalizing acc with
  | nil => rfl
  | cons k ks ih =>
    have hone : (State.takeJob acc k).2 = acc.2.withJobView (State.takeJob acc k).2.jobView := by
      unfold State.takeJob
      split <;> rfl
    rw [List.foldl_cons, ih, hone]
    rfl

/-- Lifting the jobs of an instance out touches the job table and its indices only. -/
theorem takeJobs_withJobView (s : State) (key : Key) : (s.takeJobs key).2 = s.withJobView (s.takeJobs key).2.jobView := by
  unfold State.takeJobs
  split
  · rfl
  · rw [foldl_takeJob_withJobView]
    rfl

theorem instances_takeJobs (s : State) (key : Key) : (s.takeJobs key).2.instances = s.instances := by
  rw [takeJobs_withJobView]
  rfl

theorem noEmpty_takeJobs {s : State} (h : NoEmpty s.jobsByInstance) (key : Key) :
    NoEmpty (s.takeJobs key).2.jobsByInstance := by
  unfold State.takeJobs
  split
  · exact h
  · rw [(foldl_takeJob_spec _ _).2.1]
    exact h.erase key

theorem sound_takeJobs {s : State} (h : s.entityView.Sound) (key : Key) : (s.takeJobs key).2.entityView.Sound := by
  have hjobs := noEmpty_takeJobs h.jobsOf key
  rw [takeJobs_withJobView] at hjobs ⊢
  exact { h with jobsOf := hjobs }

theorem sound_removeInstances {s : State} (h : s.entityView.Sound) (victims : List Key) :
    (victims.foldl State.removeInstance s).entityView.Sound := by
  induction victims generalizing s with
  | nil => exact h
  | cons v vs ih => exact ih (sound_takeJobs (s := { s with instances := s.instances.erase v }) h v)

theorem sound_retainOthers {s : State} (h : s.entityView.Sound) (victims : List Key) :
    (s.retainOthers victims).entityView.Sound :=
  { h with
    timers := h.timers.filter _
    messages := h.messages.filter _
    incidents := h.incidents.filter _ }

/-- What a list of removals leaves of the instances and the jobs; no other table of entities is touched. -/
theorem removeInstances_spec {s : State} (h : s.jobView.OwnerExact) (victims : List Key) :
    (victims.foldl State.removeInstance s).jobView.OwnerExact ∧
      (∀ (k : Key) (j : Job), (victims.foldl State.removeInstance s).jobs[k]? = some j ↔
        s.jobs[k]? = some j ∧ j.instanceKey ∉ victims) ∧
      (∀ k : Key, (victims.foldl State.removeInstance s).instances[k]? =
        if k ∈ victims then none else s.instances[k]?) ∧
      { (victims.foldl State.removeInstance s).entityView with jobsOf := ∅ } = { s.entityView with jobsOf := ∅ } := by
  induction victims generalizing s with
  | nil => exact ⟨h, by simp, by simp, rfl⟩
  | cons v vs ih =>
    obtain ⟨hex, hjob, -, hinst⟩ := takeJobs_spec (s := { s with instances := s.instances.erase v }) h v
    obtain ⟨hex', hjob', hinst', hview⟩ := ih (s := s.removeInstance v) hex
    refine ⟨hex', fun k j => ?_, fun k => ?_, hview.trans ?_⟩
    · rw [List.foldl_cons, hjob' k j]
      refine (and_congr_left' (hjob k j)).trans ?_
      simp only [List.mem_cons, not_or, and_assoc]
    · rw [List.foldl_cons, hinst' k, show (s.removeInstance v).instances = s.instances.erase v from hinst,
        Std.ExtTreeMap.getElem?_erase]
      simp only [List.mem_cons, Std.LawfulEqCmp.compare_eq_iff_eq, eq_comm (a := v)]
      by_cases hk : k = v
      · simp [hk]
      · simp [hk]
    · unfold State.removeInstance
      rw [takeJobs_withJobView]
      rfl

/-! ## The host -/

/-- What a host does to an engine: the operations on jobs and instances, and the two that move the variables of an
instance alone. -/
inductive HostOp where
  | job (op : JobOp)
  | spillVariables (key : Key)
  | rehydrateVariables (key : Key) (vars : Vars)

/-- The operations that remove instances. -/
def JobOp.isRemoval : JobOp → Bool
  | .evictInstance _ | .evictInstances _ | .retireInstances _ | .reapTombstoned _ | .retireBelow _ _ _ => true
  | _ => false

namespace JobSystem

def hostStep (c : JobSystem) : HostOp → Option JobSystem
  | .job op => c.step op
  | .spillVariables key => some { c with engine := (c.engine.spillVariables key).2 }
  | .rehydrateVariables key vars => some { c with engine := c.engine.rehydrateVariables key vars }

def hostRun (c : JobSystem) : List HostOp → Option JobSystem
  | [] => some c
  | op :: ops => (c.hostStep op).bind (·.hostRun ops)

/-- What holds in every state a host reaches, leases recovered or not. -/
structure Hosted (c : JobSystem) : Prop where
  inv : c.Inv
  listed : c.engine.state.jobView.Listed
  sound : c.engine.state.entityView.Sound

theorem hosted_start (p : Nat) : (start p).Hosted where
  inv := inv_start p
  listed := exact_empty.toStateExact.listed
  sound := EntityView.sound_empty

/-- A recovered lease leaves the slot of the job it locks; all the rest of the state indices follows the record. -/
theorem listed_recoverLease {e : Engine} (h : e.state.jobView.Listed) (jobKey : Key) (deadline now : Nat) :
    (e.recoverLease jobKey deadline now).2.state.jobView.Listed := by
  unfold Engine.recoverLease
  split
  · next hok =>
    have hget : ∀ (k : Key) (f : Job → Job), (e.state.jobs.modify jobKey f)[k]? =
        if jobKey = k then e.state.jobs[k]?.map f else e.state.jobs[k]? := by
      intro k f
      rw [Std.ExtTreeMap.getElem?_modify]
      simp only [Std.LawfulEqCmp.compare_eq_iff_eq]
      split
      · next heq => rw [heq]
      · rfl
    obtain ⟨j₀, hj₀⟩ : ∃ j₀, e.state.jobs[jobKey]? = some j₀ := by
      unfold Engine.leaseRecoverable at hok
      cases hj : e.state.jobs[jobKey]? with
      | none => simp [hj] at hok
      | some j => exact ⟨j, rfl⟩
    refine ⟨fun t k ht => ?_, fun k j hj hstate => ?_, fun t k => ?_, h.noEmpty⟩
    · obtain ⟨j, hj, htag, hstate⟩ := h.slotOf t k ht
      simp only [State.jobView] at hj ⊢
      rw [hget]
      by_cases hk : jobKey = k
      · rw [if_pos hk, hj]
        exact ⟨_, rfl, htag, Or.inr rfl⟩
      · rw [if_neg hk]
        exact ⟨j, hj, htag, hstate⟩
    · simp only [State.jobView] at hj ⊢
      rw [hget] at hj
      split at hj
      · obtain ⟨j', -, rfl⟩ := Option.map_eq_some_iff.1 hj
        cases hstate
      · exact h.listed k j hj hstate
    · simp only [State.jobView]
      rw [hget]
      by_cases hk : jobKey = k
      · subst hk
        simp [hj₀, Job.lockTag]
      · rw [if_neg hk]
        simpa [hk, State.jobView] using h.locks t k
  · exact h

theorem sound_foldl_rehydrateJob (i : Key) (jobs : List Job) {s : State} (h : s.entityView.Sound) :
    (jobs.foldl (Engine.rehydrateJob i) s).entityView.Sound := by
  induction jobs generalizing s with
  | nil => exact h
  | cons job jobs ih =>
    refine ih ?_
    unfold Engine.rehydrateJob
    rw [entityView_resyncJobIndex]
    exact { h with jobsOf := h.jobsOf.insert _ _ _ }

theorem sound_rehydrateInstance {e : Engine} (h : e.state.entityView.Sound) (snap : InstanceSnapshot) :
    (e.rehydrateInstance snap).state.entityView.Sound := by
  have hs := sound_foldl_rehydrateJob snap.inst.key snap.jobs
    (s := { e.state with instances := e.state.instances.insert snap.inst.key snap.inst }) h
  exact
    { timers := hs.timers.insertAll _
      messages := hs.messages.insertAll _
      signals := hs.signals.insertAll _
      conditionals := hs.conditionals.insertAll _
      tasks := hs.tasks.insertAll _
      incidents := hs.incidents.insertAll _
      jobsOf := hs.jobsOf }

theorem sound_liftInstance {s : State} (h : s.entityView.Sound) (key : Key) (i : ProcessInstance) :
    (Engine.liftInstance s key i).2.entityView.Sound := by
  have hs := sound_takeJobs h key
  exact
    { timers := hs.timers.filter _
      messages := hs.messages.filter _
      signals := hs.signals.filter _
      conditionals := hs.conditionals.filter _
      tasks := hs.tasks.filter _
      incidents := hs.incidents.filter _
      jobsOf := hs.jobsOf }

/-! ## What a step can remove -/

theorem removeInstanceSet_state (e : Engine) (victims : List Key) :
    (e.removeInstanceSet victims).state = e.state ∨
      (e.removeInstanceSet victims).state = (victims.foldl State.removeInstance e.state).retainOthers victims := by
  unfold Engine.removeInstanceSet
  split
  · exact Or.inl rfl
  · exact Or.inr rfl

/-- Every removal is the same three passes over a list of victims, or does nothing. -/
theorem step_removal {c c' : JobSystem} {op : JobOp} (hop : op.isRemoval = true) (hs : c.step op = some c') :
    c'.engine.state = c.engine.state ∨
      ∃ victims : List Key, c'.engine.state = (victims.foldl State.removeInstance c.engine.state).retainOthers victims := by
  have ofSet : ∀ {e : Engine} (victims : List Key), e.state = c.engine.state →
      (e.removeInstanceSet victims).state = c.engine.state ∨ ∃ vs : List Key, (e.removeInstanceSet victims).state =
        (vs.foldl State.removeInstance c.engine.state).retainOthers vs := by
    intro e victims he
    rw [← he]
    exact (removeInstanceSet_state e victims).imp id fun h => ⟨victims, h⟩
  cases op with
  | evictInstance key =>
    obtain rfl := Option.some.inj hs
    unfold Engine.evictInstance
    split
    · exact Or.inr ⟨[key], rfl⟩
    · exact Or.inl rfl
  | evictInstances keys =>
    obtain rfl := Option.some.inj hs
    exact ofSet _ rfl
  | retireInstances keys =>
    obtain rfl := Option.some.inj hs
    exact ofSet (e := { c.engine with retiredTombstones := _ }) _ rfl
  | reapTombstoned created =>
    obtain rfl := Option.some.inj hs
    unfold Engine.reapTombstoned
    split
    · exact Or.inl rfl
    · exact ofSet (e := { c.engine with retiredTombstones := _ }) _ rfl
  | retireBelow iter lowWater maxRemove =>
    obtain rfl := Option.some.inj hs
    unfold Engine.retireBelow
    split
    · exact Or.inl rfl
    · dsimp only
      split
      · exact Or.inl rfl
      · exact ofSet (e := { c.engine with retiredTombstones := _ }) _ rfl
  | _ => cases hop

/-- Every step keeps the entity tables sound. -/
theorem sound_step {c c' : JobSystem} (h : c.engine.state.entityView.Sound) (op : JobOp) (hs : c.step op = some c') :
    c'.engine.state.entityView.Sound := by
  by_cases hop : op.isRemoval = true
  · rcases step_removal hop hs with he | ⟨victims, he⟩
    · rw [he]
      exact h
    · rw [he]
      exact sound_retainOthers (sound_removeInstances h victims) victims
  · cases op with
    | mint =>
      simp only [JobSystem.step] at hs
      split at hs
      · obtain rfl := Option.some.inj hs
        exact h
      · cases hs
    | event e =>
      simp only [JobSystem.step] at hs
      split at hs
      · obtain rfl := Option.some.inj hs
        exact sound_apply h e
      · split at hs
        · obtain rfl := Option.some.inj hs
          exact sound_apply h e
        · cases hs
    | recoverLease jobKey deadline now =>
      obtain rfl := Option.some.inj hs
      unfold Engine.recoverLease
      split <;> exact h
    | snapshotInstance key =>
      simp only [JobSystem.step, Engine.snapshotInstance] at hs
      cases hi : c.engine.state.instances[key]? with
      | none =>
        simp only [hi] at hs
        obtain rfl := Option.some.inj hs
        exact h
      | some i =>
        simp only [hi] at hs
        by_cases hg : (i.state != .active || i.variablesSpilled) = true
        · simp only [hg, if_true] at hs
          obtain rfl := Option.some.inj hs
          exact h
        · simp only [hg, Bool.false_eq_true, if_false] at hs
          obtain rfl := Option.some.inj hs
          exact sound_liftInstance h key i
    | rehydrateInstance key =>
      simp only [JobSystem.step] at hs
      split at hs
      · obtain rfl := Option.some.inj hs
        exact sound_rehydrateInstance h _
      · obtain rfl := Option.some.inj hs
        exact h
    | restart =>
      obtain rfl := Option.some.inj hs
      exact h
    | _ => exact absurd rfl hop

theorem Hosted.setVariables {c : JobSystem} (h : c.Hosted) (key : Key) (f : ProcessInstance → ProcessInstance)
    (hf : ∀ i, (f i).key = i.key) :
    ({ c with engine := { c.engine with state := c.engine.state.modifyInstance key f } } : JobSystem).Hosted where
  inv := h.inv.shrink ⟨h.inv.owner, instancesKeyed_modifyInstance h.inv.keyed key f hf, fun _ => id⟩ rfl rfl
  listed := h.listed
  sound := h.sound

theorem Hosted.step {c c' : JobSystem} (h : c.Hosted) (op : HostOp) (hs : c.hostStep op = some c') : c'.Hosted := by
  cases op with
  | job op =>
    refine ⟨h.inv.step op hs, h.inv.keeps_step law_listed h.listed op (fun jobKey deadline now _ => ?_) hs,
      sound_step h.sound op hs⟩
    exact listed_recoverLease h.listed jobKey deadline now
  | spillVariables key =>
    obtain rfl := Option.some.inj hs
    unfold Engine.spillVariables
    split
    · exact h
    · split
      · exact h
      · exact h.setVariables key _ fun _ => rfl
  | rehydrateVariables key vars =>
    obtain rfl := Option.some.inj hs
    exact h.setVariables key _ fun _ => rfl

theorem Hosted.run {c c' : JobSystem} (h : c.Hosted) (ops : List HostOp) (hrun : c.hostRun ops = some c') :
    c'.Hosted := by
  induction ops generalizing c with
  | nil =>
    obtain rfl := Option.some.inj hrun
    exact h
  | cons op ops ih =>
    obtain ⟨c₁, hstep, hrest⟩ := Option.bind_eq_some_iff.1 hrun
    exact ih (h.step op hstep) hrest

end JobSystem

/-! ## What a removal leaves -/

/-- No table of entities and no job index holds anything of the instance. -/
structure Released (s : State) (key : Key) : Prop where
  job : ∀ (k : Key) (j : Job), s.jobs[k]? = some j → j.instanceKey ≠ key
  timer : ∀ (k : Key) (t : Timer), s.timers[k]? = some t → t.instanceKey ≠ key
  message : ∀ (k : Key) (x : MessageSubscription), s.messageSubscriptions[k]? = some x → x.instanceKey ≠ key
  signal : ∀ (k : Key) (x : SignalSubscription), s.signalSubscriptions[k]? = some x → x.instanceKey ≠ key
  conditional : ∀ (k : Key) (x : ConditionalSubscription), s.conditionalSubscriptions[k]? = some x → x.instanceKey ≠ key
  task : ∀ (k : Key) (t : UserTask), s.userTasks[k]? = some t → t.instanceKey ≠ key
  incident : ∀ (k : Key) (i : Incident), s.incidents[k]? = some i → i.instanceKey ≠ key
  owner : s.jobsByInstance[key]? = none
  /-- A listed slot or lock is that of a resident job of another instance. -/
  slot : ∀ (ty : String) (p : Int) (k : Key), activationOrder p k ∈ s.activatableJobs[ty]?.getD ∅ →
    ∃ j, s.jobs[k]? = some j ∧ j.instanceKey ≠ key
  lock : ∀ k ∈ s.activatedJobs, ∃ j, s.jobs[k]? = some j ∧ j.instanceKey ≠ key

/-- The instance owns no signal subscription, no conditional subscription and no user task, in any state. -/
structure OwnsNoUnswept (s : State) (key : Key) : Prop where
  signal : ∀ (k : Key) (x : SignalSubscription), s.signalSubscriptions[k]? = some x → x.instanceKey ≠ key
  conditional : ∀ (k : Key) (x : ConditionalSubscription), s.conditionalSubscriptions[k]? = some x → x.instanceKey ≠ key
  task : ∀ (k : Key) (t : UserTask), s.userTasks[k]? = some t → t.instanceKey ≠ key

/-- What a `retain` over the victims leaves is not of a victim. -/
theorem ne_of_retained {β : Type} {owner : β → Key} {m : KeyMap β} {victims : List Key} {key k : Key} {v : β}
    (hkey : key ∈ victims) (h : (m.filter fun _ v => !victims.contains (owner v))[k]? = some v) : owner v ≠ key := by
  rw [Std.ExtTreeMap.getElem?_filter', Option.filter_eq_some_iff] at h
  rintro rfl
  simp [hkey] at h

theorem released_removeInstances {s : State} (hown : s.jobView.OwnerExact) (hlisted : s.jobView.Listed)
    (hsound : s.entityView.Sound) {victims : List Key} {key : Key} (hkey : key ∈ victims) :
    Released ((victims.foldl State.removeInstance s).retainOthers victims) key ↔ OwnsNoUnswept s key := by
  obtain ⟨hown', hjob, -, hview⟩ := removeInstances_spec hown victims
  have hlisted' := JobSystem.law_removeInstances law_listed hlisted victims
  have hsound' := sound_removeInstances hsound victims
  generalize victims.foldl State.removeInstance s = s' at *
  have hsignals : s'.signalSubscriptions = s.signalSubscriptions := congrArg EntityView.signals hview
  have hconditionals : s'.conditionalSubscriptions = s.conditionalSubscriptions := congrArg EntityView.conditionals hview
  have htasks : s'.userTasks = s.userTasks := congrArg EntityView.tasks hview
  have hmine : ∀ (k : Key) (j : Job), s'.jobs[k]? = some j → j.instanceKey ≠ key := by
    intro k j hj e
    exact ((hjob k j).1 hj).2 (e ▸ hkey)
  constructor
  · intro h
    exact ⟨hsignals ▸ h.signal, hconditionals ▸ h.conditional, htasks ▸ h.task⟩
  · intro h
    exact
      { job := hmine
        timer := fun k t ht => ne_of_retained hkey ht
        message := fun k x hx => ne_of_retained hkey hx
        signal := fun k x hx => h.signal k x (hsignals ▸ hx)
        conditional := fun k x hx => h.conditional k x (hconditionals ▸ hx)
        task := fun k t ht => h.task k t (htasks ▸ ht)
        incident := fun k i hi => ne_of_retained hkey hi
        owner := by
          cases hset : s'.jobsByInstance[key]? with
          | none => exact hset
          | some set =>
            -- the set is not empty, so it names a job of the instance
            exfalso
            have hne := hsound'.jobsOf key set hset
            have hempty : set = ∅ := by
              refine Std.ExtTreeSet.eq_empty_iff_forall_not_mem.2 fun k hk => ?_
              obtain ⟨j, hj, he⟩ := (hown'.owner_iff key k).1 (by simpa [State.jobView, hset] using hk)
              exact hmine k j hj he
            simp [hempty] at hne
        slot := by
          intro ty p k hk
          obtain ⟨j, hj, -⟩ := hlisted'.slotOf (ty, -p) k hk
          exact ⟨j, hj, hmine k j hj⟩
        lock := by
          intro k hk
          obtain ⟨j, hj, -⟩ := Option.bind_eq_some_iff.1 ((hlisted'.locks () k).1 hk)
          exact ⟨j, hj, hmine k j hj⟩ }

/-- In every state a host reaches, and for every removal: an instance that leaves takes everything it owns with it if
and only if it owned no signal subscription, no conditional subscription and no user task. -/
theorem removed_instance_released_iff (partitionId : Nat) (ops : List HostOp) (c c' : JobSystem)
    (hrun : (JobSystem.start partitionId).hostRun ops = some c) (op : JobOp) (hop : op.isRemoval = true)
    (hstep : c.step op = some c') (key : Key) (hbefore : c.engine.state.instances.contains key = true)
    (hafter : c'.engine.state.instances.contains key = false) :
    Released c'.engine.state key ↔ OwnsNoUnswept c.engine.state key := by
  have h := (JobSystem.hosted_start partitionId).run ops hrun
  rcases JobSystem.step_removal hop hstep with he | ⟨victims, he⟩
  · rw [he, hbefore] at hafter
    cases hafter
  · rw [he] at hafter ⊢
    refine released_removeInstances h.inv.owner h.listed h.sound ?_
    refine Classical.byContradiction fun hnot => ?_
    have hinst := (removeInstances_spec h.inv.owner victims).2.2.1 key
    rw [if_neg hnot] at hinst
    have hsame : ((victims.foldl State.removeInstance c.engine.state).retainOthers victims).instances.contains key =
        c.engine.state.instances.contains key := by
      rw [Std.ExtTreeMap.contains_eq_isSome_getElem?, Std.ExtTreeMap.contains_eq_isSome_getElem?]
      exact congrArg Option.isSome hinst
    rw [hsame, hbefore] at hafter
    cases hafter

/-- One user task between a start and an end event. -/
def oneUserTaskProcess : ProcessDefinition where
  id := "approval"
  startEvent := "start"
  elements := ({} : StrMap Element)
    |>.insert "start" { id := "start", kind := .startEvent, outgoing := [{ target := "approve" }] }
    |>.insert "approve" { id := "approve", kind := .userTask {}, outgoing := [{ target := "end" }] }
    |>.insert "end" { id := "end", kind := .endEvent }

/-- The keys and events of a run that deploys `oneUserTaskProcess`, creates an instance, under key 3, and completes its task,
under key 6. -/
def completedUserTask : List JobOp :=
  [.mint, .event (.deploymentCreated 1), .mint, .event (.processDeployed 1 2 1 oneUserTaskProcess),
    .mint, .event (.processInstanceCreated 3 "approval" ∅ 0 [] none 2 1 none none),
    .mint, .event (.elementActivating 3 4 "start"), .event (.elementActivated 3 4 "start" 0),
    .event (.elementCompleting 3 4 "start"), .event (.elementCompleted 3 4 "start"),
    .event (.sequenceFlowTaken 3 "start" "approve"),
    .mint, .event (.elementActivating 3 5 "approve"), .event (.elementActivated 3 5 "approve" 0),
    .mint, .event (.userTaskCreated 6 3 5 "approve" 0 none [] [] none none 50 none none),
    .event (.userTaskCompleted 6 3), .event (.elementCompleting 3 5 "approve"), .event (.elementCompleted 3 5 "approve"),
    .event (.sequenceFlowTaken 3 "approve" "end"),
    .mint, .event (.elementActivating 3 7 "end"), .event (.elementActivated 3 7 "end" 0),
    .event (.elementCompleting 3 7 "end"), .event (.elementCompleted 3 7 "end"), .event (.processInstanceCompleted 3)]

/-- The instance of `waitingOnJob`, cancelled. -/
def canceledOnJob : List JobOp :=
  waitingOnJob ++ [.event (.jobCanceled 6 3), .event (.processInstanceTerminated 3)]

/-- The job of a cancelled instance leaves with it. -/
theorem removed_instance_released_after_cancel :
    ∃ c c', (JobSystem.start 0).hostRun (canceledOnJob.map .job) = some c ∧
      c.step (.evictInstance 3) = some c' ∧ Released c'.engine.state 3 := by
  have hrun : ((JobSystem.start 0).hostRun (canceledOnJob.map .job)).map (fun c =>
        (c.engine.state.instances.contains 3, (c.engine.evictInstance 3).2.state.instances.contains 3,
          c.engine.state.signalSubscriptions.isEmpty, c.engine.state.conditionalSubscriptions.isEmpty,
          c.engine.state.userTasks.isEmpty)) = some (true, false, true, true, true) := by decide +kernel
  obtain ⟨c, hc, hview⟩ := Option.map_eq_some_iff.1 hrun
  simp only [Prod.mk.injEq, Std.ExtTreeMap.isEmpty_iff] at hview
  obtain ⟨hbefore, hafter, hsignals, hconditionals, htasks⟩ := hview
  refine ⟨c, _, hc, rfl, (removed_instance_released_iff 0 _ c _ hc (.evictInstance 3) rfl rfl 3 hbefore hafter).2 ?_⟩
  refine ⟨fun k x hx => ?_, fun k x hx => ?_, fun k t ht => ?_⟩
  · simp [hsignals] at hx
  · simp [hconditionals] at hx
  · simp [htasks] at ht

/-- The record of a completed user task outlives the instance it belonged to. -/
theorem completed_userTask_outlives_eviction :
    ∃ c c', (JobSystem.start 0).hostRun (completedUserTask.map .job) = some c ∧ c.step (.evictInstance 3) = some c' ∧
      c.engine.state.instances.contains 3 = true ∧ c'.engine.state.instances.contains 3 = false ∧
      ¬ Released c'.engine.state 3 := by
  have hrun : ((JobSystem.start 0).hostRun (completedUserTask.map .job)).map (fun c =>
      (c.engine.state.instances.contains 3, (c.engine.evictInstance 3).2.state.instances.contains 3,
        (c.engine.evictInstance 3).2.state.userTasks[6]?.map (·.instanceKey))) = some (true, false, some 3) := by
    decide +kernel
  obtain ⟨c, hc, hview⟩ := Option.map_eq_some_iff.1 hrun
  simp only [Prod.mk.injEq] at hview
  obtain ⟨hbefore, hafter, htask⟩ := hview
  obtain ⟨t, ht, hkey⟩ := Option.map_eq_some_iff.1 htask
  exact ⟨c, _, hc, rfl, hbefore, hafter, fun h => h.task 6 t ht hkey⟩

/-! ## Out and back in -/

/-- The loop lifts every job it is driven by. -/
theorem mem_foldl_takeJob (ks : List Key) (acc : List Job × State) (j : Job)
    (h : j ∈ acc.1 ∨ ∃ k ∈ ks, acc.2.jobs[k]? = some j) : j ∈ (ks.foldl State.takeJob acc).1 := by
  induction ks generalizing acc with
  | nil => simpa using h
  | cons k₀ ks ih =>
    refine ih (State.takeJob acc k₀) ?_
    have hkept : j ∈ acc.1 → j ∈ (State.takeJob acc k₀).1 := by
      intro hj
      unfold State.takeJob
      split
      · exact hj
      · exact List.mem_append_left _ hj
    rcases h with h | ⟨k, hk, hj⟩
    · exact Or.inl (hkept h)
    · by_cases heq : k₀ = k
      · subst heq
        exact Or.inl (by simp [State.takeJob, hj])
      · refine Or.inr ⟨k, (List.mem_cons.1 hk).resolve_left fun e => heq e.symm, ?_⟩
        rw [getElem?_takeJob, if_neg heq]
        exact hj

/-- `takeJobs` lifts exactly the jobs of the instance. -/
theorem mem_takeJobs {s : State} (h : s.jobView.OwnerExact) (key : Key) (j : Job) :
    j ∈ (s.takeJobs key).1 ↔ s.jobs[j.key]? = some j ∧ j.instanceKey = key := by
  refine ⟨(takeJobs_spec h key).2.2.1 j, fun ⟨hj, hown⟩ => ?_⟩
  have hmem := (h.owner_iff key j.key).2 ⟨j, hj, hown⟩
  unfold State.takeJobs
  split
  · next hnone => simp [State.jobView, hnone] at hmem
  · next set hset =>
    refine mem_foldl_takeJob _ _ j (Or.inr ⟨j.key, ?_, hj⟩)
    simpa [State.jobView, hset] using hmem

/-- Slots move only at the keys the loop is driven by, and only away. -/
theorem hasSlot_foldl_takeJob (ks : List Key) (acc : List Job × State) (ty : String) (x : JobSlot) :
    (hasSlot (ks.foldl State.takeJob acc).2.activatableJobs ty x → hasSlot acc.2.activatableJobs ty x) ∧
      (x.2 ∉ ks → hasSlot acc.2.activatableJobs ty x → hasSlot (ks.foldl State.takeJob acc).2.activatableJobs ty x) := by
  induction ks generalizing acc with
  | nil => exact ⟨id, fun _ => id⟩
  | cons k ks ih =>
    obtain ⟨hless, hmore⟩ := ih (State.takeJob acc k)
    cases hj : acc.2.jobs[k]? with
    | none =>
      rw [List.foldl_cons, takeJob_of_none hj] at *
      exact ⟨hless, fun hx => hmore fun hmem => hx (List.mem_cons_of_mem _ hmem)⟩
    | some j =>
      rw [hasSlot_takeJob hj] at hless hmore
      refine ⟨fun h => (hless h).1, fun hx h => hmore (fun hmem => hx (List.mem_cons_of_mem _ hmem)) ⟨h, ?_⟩⟩
      rintro ⟨-, rfl⟩
      exact hx List.mem_cons_self

/-- Lifting an instance's jobs out drops the slots of these jobs and no other. -/
theorem hasSlot_takeJobs {s : State} (hown : s.jobView.OwnerExact) (hlisted : s.jobView.Listed) (key : Key) (ty : String)
    (x : JobSlot) : hasSlot (s.takeJobs key).2.activatableJobs ty x ↔
      hasSlot s.activatableJobs ty x ∧ ∀ j, s.jobs[x.2]? = some j → j.instanceKey ≠ key := by
  have hafter := law_listed.takeJobs hlisted key
  have hjob := (takeJobs_spec hown key).2.1
  constructor
  · intro h
    obtain ⟨j, hj, -⟩ := hafter.slotOf (ty, x.1) x.2 h
    have hj' := (hjob x.2 j).1 hj
    refine ⟨?_, fun j' hjs => ?_⟩
    · unfold State.takeJobs at h
      split at h
      · exact h
      · exact (hasSlot_foldl_takeJob _ _ ty x).1 h
    · rw [hj'.1] at hjs
      rw [← Option.some.inj hjs]
      exact hj'.2
  · rintro ⟨h, hothers⟩
    unfold State.takeJobs
    split
    · exact h
    · next set hset =>
      refine (hasSlot_foldl_takeJob _ _ ty x).2 (fun hmem => ?_) h
      obtain ⟨j, hj, hkey⟩ := (hown.owner_iff key x.2).1 (by simpa [State.jobView, hset] using hmem)
      exact hothers j hj hkey

theorem rehydrateJob_jobs (i : Key) (s : State) (job : Job) :
    (Engine.rehydrateJob i s job).jobs = s.jobs.insert job.key job := by
  simp only [Engine.rehydrateJob, State.linkJob, State.resyncJobIndex, Std.ExtTreeMap.getElem?_insert_self]

theorem foldl_rehydrateJob_jobs (i : Key) (jobs : List Job) (s : State) :
    (jobs.foldl (Engine.rehydrateJob i) s).jobs = jobs.foldl (fun m j => m.insert j.key j) s.jobs := by
  induction jobs generalizing s with
  | nil => rfl
  | cons job jobs ih => rw [List.foldl_cons, ih, rehydrateJob_jobs, List.foldl_cons]

theorem hasSlot_rehydrateJob (i : Key) (s : State) (job : Job) (ty : String) (x : JobSlot)
    (hfree : ∀ ty p, ¬ hasSlot s.activatableJobs ty (p, job.key)) :
    hasSlot (Engine.rehydrateJob i s job).activatableJobs ty x ↔ hasSlot s.activatableJobs ty x ∨
      (job.state = .created ∧ ty = job.jobType ∧ x = activationOrder job.priority job.key) := by
  unfold Engine.rehydrateJob
  rw [hasSlot_resyncJobIndex (j := job) (by simp [State.linkJob])]
  simp only [State.linkJob]
  constructor
  · rintro (h | ⟨h, -⟩)
    · exact Or.inr h
    · exact Or.inl h
  · rintro (h | h)
    · refine Or.inr ⟨h, Or.inr ?_⟩
      rintro ⟨rfl, rfl⟩
      exact hfree _ _ h
    · exact Or.inl h

/-- Putting jobs back that no slot names lists exactly the created ones of them. -/
theorem hasSlot_foldl_rehydrateJob (i : Key) (jobs : List Job) (s : State) (ty : String) (x : JobSlot)
    (hfree : ∀ j ∈ jobs, ∀ ty p, ¬ hasSlot s.activatableJobs ty (p, j.key)) (hnodup : (jobs.map (·.key)).Nodup) :
    hasSlot (jobs.foldl (Engine.rehydrateJob i) s).activatableJobs ty x ↔ hasSlot s.activatableJobs ty x ∨
      ∃ j ∈ jobs, j.state = .created ∧ ty = j.jobType ∧ x = activationOrder j.priority j.key := by
  induction jobs generalizing s with
  | nil => simp
  | cons job jobs ih =>
    rw [List.map_cons, List.nodup_cons] at hnodup
    have hhere := hfree job List.mem_cons_self
    have hrest : ∀ j ∈ jobs, ∀ ty p, ¬ hasSlot (Engine.rehydrateJob i s job).activatableJobs ty (p, j.key) := by
      intro j hj ty p hslot
      rw [hasSlot_rehydrateJob i s job ty _ hhere] at hslot
      rcases hslot with hslot | ⟨-, -, heq⟩
      · exact hfree j (List.mem_cons_of_mem _ hj) ty p hslot
      · exact hnodup.1 ((Prod.mk.inj heq).2 ▸ List.mem_map_of_mem hj)
    rw [List.foldl_cons, ih _ hrest hnodup.2, hasSlot_rehydrateJob i s job ty x hhere]
    simp only [List.mem_cons, exists_eq_or_imp, or_assoc]

theorem foldl_rehydrateJob_withJobView (i : Key) (jobs : List Job) (s : State) :
    jobs.foldl (Engine.rehydrateJob i) s = s.withJobView (jobs.foldl (Engine.rehydrateJob i) s).jobView := by
  induction jobs generalizing s with
  | nil => rfl
  | cons job jobs ih =>
    have hone : Engine.rehydrateJob i s job = s.withJobView (Engine.rehydrateJob i s job).jobView := by
      unfold Engine.rehydrateJob State.resyncJobIndex
      dsimp only
      split <;> rfl
    rw [List.foldl_cons, ih, hone]
    rfl

theorem withJobView_eq_iff {s : State} {v : JobView} : s.withJobView v = s ↔ v = s.jobView := by
  constructor
  · intro h
    exact congrArg State.jobView h
  · rintro rfl
    rfl

theorem drainOwned_refill {β : Type} {file : β → Key} (owner : β → Key) {m : KeyMap β} (h : Filed file m) (key : Key) :
    (drainOwned owner m key).1.foldl (fun m v => m.insert (file v) v) (drainOwned owner m key).2 = m :=
  h.refill fun v => owner v == key

/-- The state the job loop of `rehydrate_instance` ends in. -/
def rejoined (s : State) (snap : InstanceSnapshot) : State :=
  snap.jobs.foldl (Engine.rehydrateJob snap.inst.key)
    { s with instances := s.instances.insert snap.inst.key snap.inst }

/-- `rehydrate_instance` in one record: the job loop moves the job table and its indices only. -/
theorem rehydrateInstance_state (e : Engine) (snap : InstanceSnapshot) :
    (e.rehydrateInstance snap).state =
      { e.state.withJobView (rejoined e.state snap).jobView with
        instances := e.state.instances.insert snap.inst.key snap.inst
        timers := snap.timers.foldl (fun m t => m.insert t.key t) e.state.timers
        messageSubscriptions := snap.messageSubscriptions.foldl (fun m x => m.insert x.key x) e.state.messageSubscriptions
        signalSubscriptions := snap.signalSubscriptions.foldl (fun m x => m.insert x.key x) e.state.signalSubscriptions
        conditionalSubscriptions :=
          snap.conditionalSubscriptions.foldl (fun m x => m.insert x.key x) e.state.conditionalSubscriptions
        userTasks := snap.userTasks.foldl (fun m t => m.insert t.key t) e.state.userTasks
        incidents := snap.incidents.foldl (fun m i => m.insert i.key i) e.state.incidents } := by
  have hjoin := foldl_rehydrateJob_withJobView snap.inst.key snap.jobs
    { e.state with instances := e.state.instances.insert snap.inst.key snap.inst }
  unfold Engine.rehydrateInstance rejoined
  dsimp only
  generalize snap.jobs.foldl (Engine.rehydrateJob snap.inst.key)
    { e.state with instances := e.state.instances.insert snap.inst.key snap.inst } = s at hjoin ⊢
  generalize s.jobView = v at hjoin ⊢
  rw [hjoin]
  rfl

/-- Out and back in, only the job table and its indices are in question. -/
theorem rehydrate_liftInstance {e : Engine} (hsound : e.state.entityView.Sound) {key : Key} {i : ProcessInstance}
    (hi : e.state.instances[key]? = some i) (hkey : i.key = key) :
    (({ e with state := (Engine.liftInstance e.state key i).2 } : Engine).rehydrateInstance
      (Engine.liftInstance e.state key i).1).state = e.state.withJobView (rejoined (Engine.liftInstance e.state key i).2 (Engine.liftInstance e.state key i).1).jobView := by
  have hinst : (e.state.instances.erase key).insert i.key i = e.state.instances := by
    refine Std.ExtTreeMap.ext_getElem? fun k => ?_
    rw [hkey, Std.ExtTreeMap.getElem?_insert, Std.ExtTreeMap.getElem?_erase]
    by_cases hk : key = k
    · subst hk
      simp [hi]
    · simp [hk]
  rw [rehydrateInstance_state]
  generalize (rejoined (Engine.liftInstance e.state key i).2 (Engine.liftInstance e.state key i).1).jobView = w
  have htake := takeJobs_withJobView e.state key
  generalize (e.state.takeJobs key).2.jobView = v at htake
  have htaken : e.state.takeJobs key = ((e.state.takeJobs key).1, e.state.withJobView v) := Prod.ext rfl htake
  generalize (e.state.takeJobs key).1 = jobs at htaken
  unfold Engine.liftInstance
  rw [htaken]
  dsimp only [State.withJobView]
  rw [hinst, drainOwned_refill _ (show Filed Timer.key e.state.timers from hsound.timers),
    drainOwned_refill _ (show Filed MessageSubscription.key e.state.messageSubscriptions from hsound.messages),
    drainOwned_refill _ (show Filed SignalSubscription.key e.state.signalSubscriptions from hsound.signals),
    drainOwned_refill _ (show Filed ConditionalSubscription.key e.state.conditionalSubscriptions from hsound.conditionals),
    drainOwned_refill _ (show Filed UserTask.key e.state.userTasks from hsound.tasks),
    drainOwned_refill _ (show Filed Incident.key e.state.incidents from hsound.incidents)]

section Rejoin

variable {s t : State} (hown : s.jobView.OwnerExact) (hlisted : s.jobView.Listed) (key : Key)
  (ht : t.jobView = (s.takeJobs key).2.jobView)

include hown ht

theorem takeJobs_free {j : Job} (hj : j ∈ (s.takeJobs key).1) : t.jobs[j.key]? = none := by
  have hjobs : t.jobs = (s.takeJobs key).2.jobs := congrArg JobView.jobs ht
  rw [hjobs]
  refine Option.eq_none_iff_forall_ne_some.2 fun j' hj' => ?_
  obtain ⟨hs, hne⟩ := ((takeJobs_spec hown key).2.1 _ _).1 hj'
  obtain ⟨hj₀, hkey⟩ := (mem_takeJobs hown key j).1 hj
  rw [hj₀] at hs
  rw [← Option.some.inj hs] at hne
  exact hne hkey

/-- The job table is what it was. -/
theorem rejoin_jobs : ((s.takeJobs key).1.foldl (Engine.rehydrateJob key) t).jobs = s.jobs := by
  have hjobs : t.jobs = (s.takeJobs key).2.jobs := congrArg JobView.jobs ht
  have hmem := mem_takeJobs hown key
  have hleft := (takeJobs_spec hown key).2.1
  have hfold := Std.ExtTreeMap.getElem?_foldl_insert (fun k => s.jobs[k]?)
    ((s.takeJobs key).1.map fun j => (j.key, j)) (s.takeJobs key).2.jobs (by
      intro e he
      obtain ⟨j, hj, rfl⟩ := List.mem_map.1 he
      exact ((hmem j).1 hj).1)
  rw [List.foldl_map] at hfold
  rw [foldl_rehydrateJob_jobs, hjobs]
  refine Std.ExtTreeMap.ext_getElem? fun k => (hfold k).trans ?_
  split
  · rfl
  · next hk =>
    rw [List.map_map] at hk
    cases hj : s.jobs[k]? with
    | none =>
      refine Option.eq_none_iff_forall_ne_some.2 fun j' hj' => ?_
      rw [((hleft k j').1 hj').1] at hj
      cases hj
    | some j =>
      refine (hleft k j).2 ⟨hj, fun hkey => hk (List.mem_map.2 ⟨j, (hmem j).2 ⟨?_, hkey⟩, hown.jobKey k j hj⟩)⟩
      rw [hown.jobKey k j hj]
      exact hj

theorem rejoin_owner : ((s.takeJobs key).1.foldl (Engine.rehydrateJob key) t).jobView.OwnerExact :=
  (rehydrateJobs_spec key (s.takeJobs key).1 t (ht ▸ (takeJobs_spec hown key).1)
    (fun j hj => ((mem_takeJobs hown key j).1 hj).2) (fun _ hj => takeJobs_free hown key ht hj)
    (nodup_takeJobs hown key)).1

include hlisted

theorem rejoin_listed : ((s.takeJobs key).1.foldl (Engine.rehydrateJob key) t).jobView.Listed :=
  JobSystem.law_rehydrateJobs law_listed key (s.takeJobs key).1 (ht ▸ law_listed.takeJobs hlisted key)
    (fun j hj => ((mem_takeJobs hown key j).1 hj).2) (fun _ hj => takeJobs_free hown key ht hj) (nodup_takeJobs hown key)

/-- A job of the instance is listed afterwards if and only if it is created; the slots of the others have not moved. -/
theorem rejoin_hasSlot (ty : String) (p : Int) (k : Key) :
    hasSlot ((s.takeJobs key).1.foldl (Engine.rehydrateJob key) t).activatableJobs ty (p, k) ↔
      hasSlot s.activatableJobs ty (p, k) ∧
        ∀ j, s.jobs[k]? = some j → j.instanceKey = key → j.state = .created := by
  have hslots : t.activatableJobs = (s.takeJobs key).2.activatableJobs := congrArg JobView.activatable ht
  have hlistedL := law_listed.takeJobs hlisted key
  rw [hasSlot_foldl_rehydrateJob key _ t ty (p, k) (fun j hj ty p hslot => ?_) (nodup_takeJobs hown key), hslots,
    hasSlot_takeJobs hown hlisted]
  · constructor
    · rintro (⟨hslot, hothers⟩ | ⟨j, hj, hcreated, rfl, heq⟩)
      · exact ⟨hslot, fun j hj hkey => absurd hkey (hothers j hj)⟩
      · obtain ⟨hj₀, hkey⟩ := (mem_takeJobs hown key j).1 hj
        obtain ⟨rfl, rfl⟩ := Prod.mk.inj heq
        refine ⟨hlisted.listed _ j hj₀ hcreated, fun j' hj' _ => ?_⟩
        rw [← Option.some.inj (hj₀.symm.trans hj')]
        exact hcreated
    · rintro ⟨hslot, hcreated⟩
      obtain ⟨j, hj, htag, -⟩ := hlisted.slotOf (ty, p) k hslot
      obtain ⟨rfl, rfl⟩ := Prod.mk.inj htag
      by_cases hkey : j.instanceKey = key
      · have hjk := hown.jobKey k j hj
        subst hjk
        exact Or.inr ⟨j, (mem_takeJobs hown key j).2 ⟨hj, hkey⟩, hcreated j hj hkey, rfl, rfl⟩
      · refine Or.inl ⟨hslot, fun j' hj' => ?_⟩
        rw [← Option.some.inj (hj.symm.trans hj')]
        exact hkey
  · rw [hslots] at hslot
    obtain ⟨j', hj', -⟩ := hlistedL.slotOf (ty, p) j.key hslot
    have hnone := takeJobs_free hown key (t := (s.takeJobs key).2) rfl hj
    rw [show (s.takeJobs key).2.jobs[j.key]? = some j' from hj'] at hnone
    cases hnone

/-- Out and back in, the job table and its indices are what they were, but for the slots of jobs that were locked and
still listed. -/
theorem rejoin_jobView (hsound : NoEmpty s.jobsByInstance)
    (hsound' : NoEmpty ((s.takeJobs key).1.foldl (Engine.rehydrateJob key) t).jobsByInstance) :
    ((s.takeJobs key).1.foldl (Engine.rehydrateJob key) t).jobView = s.jobView ↔
      ∀ (k : Key) (j : Job), s.jobs[k]? = some j → j.instanceKey = key → j.state = .activated →
        activationOrder j.priority k ∉ s.activatableJobs[j.jobType]?.getD ∅ := by
  have hjobs := rejoin_jobs hown key ht
  have howners := rejoin_owner hown key ht
  have hlists := rejoin_listed hown hlisted key ht
  have hslots := rejoin_hasSlot hown hlisted key ht
  generalize (s.takeJobs key).1.foldl (Engine.rehydrateJob key) t = r at *
  have hjobsOf : r.jobsByInstance = s.jobsByInstance := by
    refine SetTable.ext_of_mem hsound' hsound fun k x => ?_
    refine (howners.owner_iff k x).trans (Iff.trans ?_ (hown.owner_iff k x).symm)
    simp only [State.jobView, hjobs]
  have hlocks : r.activatedJobs = s.activatedJobs := by
    refine Std.ExtTreeSet.ext_mem fun k => ?_
    refine (hlists.locks () k).trans (Iff.trans ?_ (hlisted.locks () k).symm)
    simp only [State.jobView, hjobs]
  constructor
  · intro hview k j hj hkey hstate hslot
    have heq : r.activatableJobs = s.activatableJobs := congrArg JobView.activatable hview
    have hafter := (hslots j.jobType (-j.priority) k).1 (heq ▸ hslot)
    rw [hafter.2 j hj hkey] at hstate
    cases hstate
  · intro hstale
    have heq : r.activatableJobs = s.activatableJobs := by
      refine SetTable.ext_of_mem hlists.noEmpty hlisted.noEmpty fun ty x => (hslots ty x.1 x.2).trans ?_
      refine ⟨fun h => h.1, fun hslot => ⟨hslot, fun j hj hkey => ?_⟩⟩
      obtain ⟨j', hj', htag, hstate⟩ := hlisted.slotOf (ty, x.1) x.2 hslot
      obtain rfl := Option.some.inj (hj.symm.trans hj')
      refine hstate.resolve_right fun hlocked => hstale x.2 j hj hkey hlocked ?_
      obtain ⟨rfl, hp⟩ := Prod.mk.inj htag
      rw [activationOrder, ← hp]
      exact hslot
    unfold State.jobView
    rw [hjobs, heq, hlocks, hjobsOf]

end Rejoin

/-- A snapshot that is refused leaves the engine as it was. -/
theorem snapshotInstance_none {e : Engine} {key : Key} (h : (e.snapshotInstance key).1 = none) :
    (e.snapshotInstance key).2 = e := by
  unfold Engine.snapshotInstance at h ⊢
  split at h
  · rfl
  · next i hi =>
    split at h
    · next hg => rw [if_pos hg]
    · cases h

/-- In every state a host reaches: the snapshot of an active instance whose variables are in memory, put back at once,
restores the state if and only if no job of the instance is locked while its slot is still listed as activatable; and a
refused snapshot changes nothing. -/
theorem rehydrate_snapshot_iff (partitionId : Nat) (ops : List HostOp) (c : JobSystem)
    (hrun : (JobSystem.start partitionId).hostRun ops = some c) :
    (∀ (key : Key) (i : ProcessInstance), c.engine.state.instances[key]? = some i → i.state = .active →
      i.variablesSpilled = false →
        ∃ snap engine, c.engine.snapshotInstance key = (some snap, engine) ∧
          ((engine.rehydrateInstance snap).state = c.engine.state ↔
            ∀ (k : Key) (j : Job), c.engine.state.jobs[k]? = some j → j.instanceKey = key → j.state = .activated →
              activationOrder j.priority k ∉ c.engine.state.activatableJobs[j.jobType]?.getD ∅)) ∧
      ∀ key, (c.engine.snapshotInstance key).1 = none → (c.engine.snapshotInstance key).2.state = c.engine.state := by
  have h := (JobSystem.hosted_start partitionId).run ops hrun
  refine ⟨fun key i hi hactive hspilled => ?_, fun key hnone => by rw [snapshotInstance_none hnone]⟩
  obtain rfl := h.inv.keyed key i hi
  have hsnap : c.engine.snapshotInstance i.key = (some (Engine.liftInstance c.engine.state i.key i).1,
      { c.engine with state := (Engine.liftInstance c.engine.state i.key i).2 }) := by
    simp [Engine.snapshotInstance, hi, hactive, hspilled]
  refine ⟨_, _, hsnap, ?_⟩
  rw [rehydrate_liftInstance h.sound hi rfl, withJobView_eq_iff]
  exact rejoin_jobView h.inv.owner h.listed i.key rfl h.sound.jobsOf
    (JobSystem.sound_foldl_rehydrateJob i.key _ (by exact JobSystem.sound_liftInstance h.sound i.key i)).jobsOf

/-- The job of `waitingOnJob` is not locked: the instance comes back as it was. -/
theorem rehydrate_snapshot_waitingOnJob :
    ∃ c, (JobSystem.start 0).hostRun (waitingOnJob.map .job) = some c ∧
      ∃ snap engine, c.engine.snapshotInstance 3 = (some snap, engine) ∧
        (engine.rehydrateInstance snap).state = c.engine.state := by
  have hrun : ((JobSystem.start 0).hostRun (waitingOnJob.map .job)).map (fun c =>
      (c.engine.state.instances[3]?.map fun i => (i.state, i.variablesSpilled),
        c.engine.state.jobs.vals.all (·.state == .created))) = some (some (.active, false), true) := by decide +kernel
  obtain ⟨c, hc, hview⟩ := Option.map_eq_some_iff.1 hrun
  rw [Prod.mk.injEq] at hview
  obtain ⟨i, hi, hstate⟩ := Option.map_eq_some_iff.1 hview.1
  obtain ⟨hactive, hspilled⟩ := Prod.mk.inj hstate
  obtain ⟨snap, engine, hsnap, hiff⟩ := (rehydrate_snapshot_iff 0 _ c hc).1 3 i hi hactive hspilled
  refine ⟨c, hc, snap, engine, hsnap, hiff.2 fun k j hj _ hlocked => ?_⟩
  have hcreated := List.all_eq_true.1 hview.2 j (Std.ExtTreeMap.mem_vals.2 ⟨k, hj⟩)
  rw [hlocked] at hcreated
  cases hcreated

/-- After a recovered lease the round trip loses the slot of the locked job. -/
theorem rehydrate_snapshot_after_recoverLease :
    ∃ c, (JobSystem.start 0).hostRun ((waitingOnJob ++ [JobOp.recoverLease 6 100 10]).map .job) = some c ∧
      c.engine.state.instances[3]?.map (fun i => (i.state, i.variablesSpilled)) = some (.active, false) ∧
      ∃ snap engine, c.engine.snapshotInstance 3 = (some snap, engine) ∧
        (engine.rehydrateInstance snap).state ≠ c.engine.state := by
  have hrun : ((JobSystem.start 0).hostRun ((waitingOnJob ++ [JobOp.recoverLease 6 100 10]).map .job)).map (fun c =>
      (c.engine.state.instances[3]?.map fun i => (i.state, i.variablesSpilled),
        (c.engine.state.activatableJobs["work"]?.getD ∅).contains (activationOrder 50 6),
        (c.engine.snapshotInstance 3).1.map fun snap =>
          (((c.engine.snapshotInstance 3).2.rehydrateInstance snap).state.activatableJobs["work"]?.getD ∅).contains
            (activationOrder 50 6))) = some (some (.active, false), true, some false) := by decide +kernel
  obtain ⟨c, hc, hview⟩ := Option.map_eq_some_iff.1 hrun
  simp only [Prod.mk.injEq] at hview
  obtain ⟨hactive, hbefore, hafter⟩ := hview
  obtain ⟨snap, hsnap, hslot⟩ := Option.map_eq_some_iff.1 hafter
  refine ⟨c, hc, hactive, snap, _, Prod.ext hsnap rfl, fun heq => ?_⟩
  rw [heq, hbefore] at hslot
  cases hslot

end NanoBpm
