import NanoBpm.Engine

/-!
# What a log determines

Replay reaches an engine only through its state, its partition and its key counter: `logged` is that
part, and `replay_partition` and `apply_replayed_events` are folds over it. A snapshot restores it,
because the definitions a log can install are already in the normal form `from_snapshot` puts them in.
The deployed definitions are a part of the state that only the five deployment events touch.
-/

namespace NanoBpm

/-! ## Deployed definitions -/

/-- Everything `State` resolves a process, decision, form or resource with, by id and by key. -/
structure Definitions where
  processes : StrMap DeployedProcess
  processVersions : KeyMap DeployedProcess
  decisionRequirements : StrMap DeployedDrg
  decisionRequirementsVersions : KeyMap DeployedDrg
  decisions : StrMap DeployedDecision
  decisionVersions : KeyMap DeployedDecision
  forms : StrMap DeployedForm
  formVersions : KeyMap DeployedForm
  resources : StrMap DeployedResource
  resourceVersions : KeyMap DeployedResource

def State.definitions (s : State) : Definitions where
  processes := s.processes
  processVersions := s.processVersions
  decisionRequirements := s.decisionRequirements
  decisionRequirementsVersions := s.decisionRequirementsVersions
  decisions := s.decisions
  decisionVersions := s.decisionVersions
  forms := s.forms
  formVersions := s.formVersions
  resources := s.resources
  resourceVersions := s.resourceVersions

@[simp] theorem definitions_modifyInstance (s : State) (key : Key) (f : ProcessInstance → ProcessInstance) :
    (s.modifyInstance key f).definitions = s.definitions := rfl

@[simp] theorem definitions_modifyJob (s : State) (key : Key) (f : Job → Job) :
    (s.modifyJob key f).definitions = s.definitions := rfl

@[simp] theorem definitions_decrementInflightByProcess (s : State) (p : Option String) :
    (decrementInflightByProcess s p).definitions = s.definitions := by
  cases p with
  | none => rfl
  | some pid => simp only [decrementInflightByProcess]; split <;> rfl

@[simp] theorem definitions_resyncJobIndex (s : State) (key : Key) :
    (s.resyncJobIndex key).definitions = s.definitions := by
  unfold State.resyncJobIndex
  split
  · rfl
  · split <;> rfl

@[simp] theorem definitions_insertJob (s : State) (job : Job) : (insertJob s job).definitions = s.definitions := by
  unfold insertJob
  rw [show ∀ t : State, (t.linkJob job.instanceKey job.key).definitions = t.definitions from fun _ => rfl,
    definitions_resyncJobIndex]
  rfl

theorem definitions_applyInstance (s : State) (e : Event) : (applyInstance s e).definitions = s.definitions := by
  cases e <;> try rfl
  case processInstanceCompleted => exact definitions_decrementInflightByProcess _ _
  case processInstanceTerminated => exact definitions_decrementInflightByProcess _ _
  case processInstanceMigrated =>
    simp only [applyInstance]
    split
    · rfl
    · exact definitions_decrementInflightByProcess _ _

theorem definitions_applyElement (s : State) (e : Event) : (applyElement s e).definitions = s.definitions := by
  cases e <;> rfl

theorem definitions_applyJob (s : State) (e : Event) : (applyJob s e).definitions = s.definitions := by
  cases e <;> try rfl
  case incidentResolved _ _ jobKey _ _ =>
    cases jobKey with
    | none => rfl
    | some k =>
      simp only [applyJob]
      split
      · rw [definitions_resyncJobIndex]; rfl
      · rfl
  all_goals first
    | exact definitions_insertJob _ _
    | exact (definitions_resyncJobIndex _ _).trans (definitions_modifyJob _ _ _)

theorem definitions_applyUserTask (s : State) (e : Event) : (applyUserTask s e).definitions = s.definitions := by
  cases e <;> rfl

theorem definitions_applyTimer (s : State) (e : Event) : (applyTimer s e).definitions = s.definitions := by
  cases e <;> rfl

theorem definitions_applySubscription (s : State) (e : Event) :
    (applySubscription s e).definitions = s.definitions := by
  cases e <;> rfl

/-- Only the five deployment events change a definition. -/
theorem definitions_apply (s : State) (e : Event) (h : e.isDeployment = false) :
    (apply s e).definitions = s.definitions := by
  refine apply_dispatch (P := fun t => t.definitions = s.definitions) ?_ ?_ (definitions_applyInstance s e)
    (definitions_applyElement s e) (definitions_applyJob s e) (definitions_applyUserTask s e)
    (definitions_applyTimer s e) (definitions_applySubscription s e)
  · cases e <;> first | rfl | cases h
  · cases e <;> first | rfl | cases h

/-! ## Normal form of the definitions -/

/-- Every deployed process is in the form `normalize_legacy_agent_tasks` produces. -/
structure Definitions.Normalized (d : Definitions) : Prop where
  latest : ∀ (id : String) (p : DeployedProcess), d.processes[id]? = some p →
    p.definition.normalizeLegacyAgentTasks = p.definition
  versions : ∀ (k : Key) (p : DeployedProcess), d.processVersions[k]? = some p →
    p.definition.normalizeLegacyAgentTasks = p.definition

theorem normalized_empty : (State.definitions {}).Normalized where
  latest := by
    intro id p h
    have hnone : (∅ : StrMap DeployedProcess)[id]? = none := Std.ExtTreeMap.getElem?_empty
    exact absurd (h.symm.trans hnone) (by simp)
  versions := by
    intro k p h
    have hnone : (∅ : KeyMap DeployedProcess)[k]? = none := Std.ExtTreeMap.getElem?_empty
    exact absurd (h.symm.trans hnone) (by simp)

/-- The applier of `ProcessDeployed` normalises what it stores. -/
theorem normalized_applyProcess {s : State} (h : s.definitions.Normalized) (e : Event) :
    (applyProcess s e).definitions.Normalized := by
  cases e <;> try exact h
  case processDeployed deploymentKey key version process =>
    have hnew : ∀ p : DeployedProcess, p = ⟨key, version, process.normalizeLegacyAgentTasks⟩ →
        p.definition.normalizeLegacyAgentTasks = p.definition := by
      rintro _ rfl
      exact ProcessDefinition.normalizeLegacyAgentTasks_idem process
    constructor
    · intro id p hp
      simp only [applyProcess, State.definitions] at hp
      split at hp
      · rw [Std.ExtTreeMap.getElem?_insert] at hp
        split at hp
        · exact hnew p (Option.some.inj hp).symm
        · exact h.latest id p hp
      · exact h.latest id p hp
    · intro k p hp
      simp only [applyProcess, State.definitions] at hp
      rw [Std.ExtTreeMap.getElem?_insert] at hp
      split at hp
      · exact hnew p (Option.some.inj hp).symm
      · exact h.versions k p hp

/-- No applier but that of `ProcessDeployed` touches a process definition. -/
theorem processes_applyResource (s : State) (e : Event) :
    (applyResource s e).processes = s.processes ∧ (applyResource s e).processVersions = s.processVersions := by
  cases e <;> try exact ⟨rfl, rfl⟩
  case decisionDeployed _ requirementsKey _ _ _ _ =>
    simp only [applyResource]
    split <;> exact ⟨rfl, rfl⟩

theorem normalized_apply {s : State} (h : s.definitions.Normalized) (e : Event) :
    (apply s e).definitions.Normalized := by
  have hsame : ∀ t : State, t.definitions = s.definitions → t.definitions.Normalized := fun t ht => ht ▸ h
  refine apply_dispatch (P := fun t => t.definitions.Normalized) (normalized_applyProcess h e) ?_
    (hsame _ (definitions_applyInstance s e)) (hsame _ (definitions_applyElement s e))
    (hsame _ (definitions_applyJob s e)) (hsame _ (definitions_applyUserTask s e))
    (hsame _ (definitions_applyTimer s e)) (hsame _ (definitions_applySubscription s e))
  obtain ⟨hlatest, hversions⟩ := processes_applyResource s e
  constructor
  · intro id p hp
    simp only [State.definitions, hlatest] at hp
    exact h.latest id p hp
  · intro k p hp
    simp only [State.definitions, hversions] at hp
    exact h.versions k p hp

theorem normalized_applyAll {s : State} (h : s.definitions.Normalized) (events : List Event) :
    (applyAll s events).definitions.Normalized := by
  induction events generalizing s with
  | nil => exact h
  | cons e es ih => exact ih (normalized_apply h e)

/-- On normal definitions the loop of `from_snapshot` changes nothing. -/
theorem normalizeDefinitions_eq {s : State} (h : s.definitions.Normalized) :
    Engine.normalizeDefinitions s = s := by
  have hprocesses : (s.processes.map fun _ d =>
      { d with definition := d.definition.normalizeLegacyAgentTasks }) = s.processes := by
    apply Std.ExtTreeMap.ext_getElem?
    intro id
    rw [Std.ExtTreeMap.getElem?_map]
    cases hd : s.processes[id]? with
    | none => rfl
    | some d => rw [Option.map_some, h.latest id d hd]
  have hversions : (s.processVersions.map fun _ d =>
      { d with definition := d.definition.normalizeLegacyAgentTasks }) = s.processVersions := by
    apply Std.ExtTreeMap.ext_getElem?
    intro k
    rw [Std.ExtTreeMap.getElem?_map]
    cases hd : s.processVersions[k]? with
    | none => rfl
    | some d => rw [Option.map_some, h.versions k d hd]
  unfold Engine.normalizeDefinitions
  rw [hprocesses, hversions]

/-! ## The logged part of an engine -/

namespace Engine

/-- What the log determines of an engine. The clock, the partition count and the leader-local sets are
the host's. -/
structure Logged where
  state : State
  partitionId : Nat
  nextLocal : Nat

def logged (e : Engine) : Logged := ⟨e.state, e.partitionId, e.nextLocal⟩

def Logged.replay (l : Logged) (event : Event) : Logged where
  state := apply l.state event
  partitionId := l.partitionId
  nextLocal := observeKey l.partitionId l.nextLocal event.maxKey

/-- Replay is a fold over the logged part. -/
theorem logged_applyReplayedEvents (e : Engine) (events : List Event) :
    (e.applyReplayedEvents events).logged = events.foldl Logged.replay e.logged := by
  induction events generalizing e with
  | nil => rfl
  | cons x xs ih => rw [applyReplayedEvents_cons, ih]; rfl

theorem logged_applyReplayedEvents_congr {e e' : Engine} (h : e.logged = e'.logged) (events : List Event) :
    (e.applyReplayedEvents events).logged = (e'.applyReplayedEvents events).logged := by
  rw [logged_applyReplayedEvents, logged_applyReplayedEvents, h]

theorem replayPartition_append (partitionId : Nat) (xs ys : List Event) :
    replayPartition partitionId (xs ++ ys) = (replayPartition partitionId xs).applyReplayedEvents ys :=
  applyReplayedEvents_append _ _ _

theorem normalized_replayPartition (partitionId : Nat) (events : List Event) :
    (replayPartition partitionId events).state.definitions.Normalized := by
  rw [replayPartition, state_applyReplayedEvents]
  exact normalized_applyAll normalized_empty events

/-- A snapshot restores the logged part. -/
theorem logged_fromSnapshot {e : Engine} (h : e.state.definitions.Normalized) :
    (fromSnapshot e.snapshot).logged = e.logged := by
  simp only [fromSnapshot, snapshot, logged, normalizeDefinitions_eq h]

end Engine

end NanoBpm
