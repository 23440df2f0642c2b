import NanoBpm.Lib.Counted
import NanoBpm.Planner.Migration
import NanoBpm.Planner.Retirement

/-!
# The in-flight count of each process (`state/types.rs:1278`, `state/apply/instance.rs`)

The state counts, for each process, the instances that have not ended. The appliers keep the count; an instance that is
spilled stays counted. What removes instances without an event does not look at the count.
-/

namespace NanoBpm

/-! ## Events -/

/-- What the count depends on of an instance. -/
def ProcessInstance.standing (i : ProcessInstance) : ProcessInstanceState × String := (i.state, i.processId)

/-- A standing that counts for the process. -/
def countsFor (p : String) (standing : ProcessInstanceState × String) : Bool :=
  standing.1 != .completed && standing.1 != .terminated && standing.2 == p

/-- The resident instances of the process that have not ended. -/
def State.inFlight (s : State) (p : String) : Nat := s.instances.vals.countP fun i => countsFor p i.standing

/-- The count is right, with `cold p` more instances elsewhere. -/
def State.InflightExact (s : State) (cold : String → Nat) : Prop :=
  Counted s.inflightByProcess fun p => s.inFlight p + cold p

/-- The standings of the instances and the counts are the same. -/
structure State.SameFlight (t s : State) : Prop where
  inflight : t.inflightByProcess = s.inflightByProcess
  standing : ∀ k : Key, t.instances[k]?.map ProcessInstance.standing = s.instances[k]?.map ProcessInstance.standing

theorem State.SameFlight.refl (s : State) : s.SameFlight s := ⟨rfl, fun _ => rfl⟩

theorem State.SameFlight.of_modify {t s : State} (hinflight : t.inflightByProcess = s.inflightByProcess) {key : Key}
    {f : ProcessInstance → ProcessInstance} (hinstances : t.instances = s.instances.modify key f)
    (hf : ∀ i, (f i).standing = i.standing) : t.SameFlight s := by
  refine ⟨hinflight, fun k => ?_⟩
  rw [hinstances, Std.ExtTreeMap.getElem?_modify]
  split
  · next heq =>
    rw [Option.map_map, ← Std.LawfulEqCmp.eq_of_compare heq]
    exact congrArg (Option.map · _) (funext hf)
  · rfl

theorem State.SameFlight.of_eq {t s : State} (hinflight : t.inflightByProcess = s.inflightByProcess)
    (hinstances : t.instances = s.instances) : t.SameFlight s := ⟨hinflight, fun k => by rw [hinstances]⟩

theorem State.SameFlight.exact {t s : State} (h : t.SameFlight s) {cold : String → Nat} (hs : s.InflightExact cold) :
    t.InflightExact cold := by
  unfold State.InflightExact
  rw [h.inflight]
  refine hs.congr fun p => ?_
  unfold State.inFlight
  rw [Std.ExtTreeMap.countP_vals_congr h.standing (countsFor p)]

/-- The events that begin, end or move an instance, or change its state. -/
def Event.lifecycle : Event → Bool
  | processInstanceCreated .. | processInstanceCompleted .. | processInstanceTerminating .. | processInstanceSuspended ..
  | processInstanceResumed .. | processInstanceMigrated .. | processInstanceTerminated .. => true
  | _ => false

theorem sameFlight_applyInstance (s : State) {e : Event} (h : e.lifecycle = false) : (applyInstance s e).SameFlight s := by
  cases e <;> first | exact .refl s | (cases h; done) | skip
  case scopedVariablesUpdated =>
    refine .of_modify rfl rfl fun i => ?_
    split <;> rfl
  all_goals exact .of_modify rfl rfl fun _ => rfl

theorem sameFlight_applyElement (s : State) (e : Event) : (applyElement s e).SameFlight s := by
  cases e <;> try exact .refl s
  case parallelJoinTokenArrived =>
    refine .of_modify rfl rfl fun i => ?_
    split <;> rfl
  case compensationHandlerCompleted =>
    refine .of_modify rfl rfl fun i => ?_
    split
    · rfl
    · dsimp only
      split <;> rfl
  all_goals exact .of_modify rfl rfl fun _ => rfl

theorem State.SameFlight.resyncJobIndex {t s : State} (h : t.SameFlight s) (k : Key) : (t.resyncJobIndex k).SameFlight s := by
  unfold State.resyncJobIndex
  split
  · exact h
  · exact ⟨h.inflight, h.standing⟩

theorem sameFlight_applyJob (s : State) (e : Event) : (applyJob s e).SameFlight s := by
  have hinsert : ∀ job : Job, (insertJob s job).SameFlight s := by
    intro job
    have h : (State.resyncJobIndex { s with jobs := s.jobs.insert job.key job } job.key).SameFlight s := by
      refine State.SameFlight.resyncJobIndex ?_ job.key
      exact .of_eq rfl rfl
    exact ⟨h.inflight, h.standing⟩
  cases e <;> try exact .refl s
  case incidentRaised => exact .of_modify rfl rfl fun _ => rfl
  case incidentResolved incidentKey instanceKey jobKey resolvedAt reference =>
    have hinc : (State.modifyInstance
        { s with incidents := s.incidents.modify incidentKey fun i =>
          { i with state := .resolved, resolvedAt := some resolvedAt, operationReference := reference } }
        instanceKey fun i => { i with incidents := i.incidents.filter (· ≠ incidentKey) }).SameFlight s :=
      .of_modify rfl rfl fun _ => rfl
    cases jobKey with
    | none => exact hinc
    | some jobKey =>
      unfold applyJob
      dsimp only
      split
      · refine State.SameFlight.resyncJobIndex ?_ _
        exact ⟨hinc.inflight, hinc.standing⟩
      · exact hinc
  case jobCreated => exact hinsert _
  case executionListenerJobCreated => exact hinsert _
  case taskListenerJobCreated => exact hinsert _
  case jobRetriesUpdated => exact .of_eq rfl rfl
  case jobTimeoutUpdated => exact .of_eq rfl rfl
  all_goals
    refine State.SameFlight.resyncJobIndex ?_ _
    exact .of_eq rfl rfl

/-- Any other event leaves the standings and the counts alone. -/
theorem sameFlight_apply (s : State) {e : Event} (h : e.lifecycle = false) : (apply s e).SameFlight s := by
  refine apply_dispatch (P := (·.SameFlight s)) ?_ ?_ (sameFlight_applyInstance s h) (sameFlight_applyElement s e)
    (sameFlight_applyJob s e) ?_ ?_ ?_
  · unfold applyProcess
    split <;> exact ⟨rfl, fun _ => rfl⟩
  · unfold applyResource
    split <;> try exact ⟨rfl, fun _ => rfl⟩
    split <;> exact ⟨rfl, fun _ => rfl⟩
  · unfold applyUserTask
    split <;> exact ⟨rfl, fun _ => rfl⟩
  · unfold applyTimer
    split <;> exact ⟨rfl, fun _ => rfl⟩
  · unfold applySubscription
    split <;> exact ⟨rfl, fun _ => rfl⟩

/-- The state change an event makes is one of an instance that is there and has not ended, and what it creates is new. -/
def Event.Lawful (s : State) : Event → Prop
  | processInstanceCreated key .. => s.instances[key]? = none
  | processInstanceTerminating key | processInstanceSuspended key _ | processInstanceResumed key =>
    ∀ i, s.instances[key]? = some i → i.isTerminal = false
  | processInstanceMigrated key .. => ∃ i, s.instances[key]? = some i ∧ i.isTerminal = false
  | _ => True

theorem countsFor_standing (p : String) (i : ProcessInstance) :
    countsFor p i.standing = (!i.isTerminal && i.processId == p) := by
  cases hstate : i.state <;> simp only [countsFor, ProcessInstance.standing, ProcessInstance.isTerminal, hstate] <;> rfl

/-- The count of one process when one instance gets another standing. -/
theorem inFlight_modify {s t : State} {key : Key} {i : ProcessInstance} (hi : s.instances[key]? = some i)
    {f : ProcessInstance → ProcessInstance} (ht : t.instances = s.instances.modify key f) (p : String) :
    t.inFlight p + (if countsFor p i.standing then 1 else 0) = s.inFlight p + if countsFor p (f i).standing then 1 else 0 := by
  unfold State.inFlight
  rw [ht, Std.ExtTreeMap.countP_vals_modify hi, Std.ExtTreeMap.countP_vals_of_getElem? hi]
  omega

/-- The two ends of an instance: the count goes down once, whether or not the instance is there or has ended before. -/
theorem exact_of_end {s t : State} {cold : String → Nat} (h : s.InflightExact cold) {key : Key}
    {f : ProcessInstance → ProcessInstance} (hinflight : t.inflightByProcess = s.inflightByProcess)
    (hinstances : t.instances = s.instances.modify key f) (hend : ∀ i, (f i).isTerminal = true) :
    (decrementInflightByProcess t (nonTerminalProcessId s key)).InflightExact cold := by
  unfold nonTerminalProcessId
  cases hi : s.instances[key]? with
  | none =>
    refine State.SameFlight.exact (.of_eq hinflight ?_) h
    rw [← Std.ExtTreeMap.modify_of_getElem?_eq_none hi f]
    exact hinstances
  | some i =>
    have hgone : ∀ p, countsFor p (f i).standing = false := by
      intro p
      simp [countsFor_standing, hend i]
    have hcount := inFlight_modify hi hinstances
    simp only [hgone, Bool.false_eq_true, if_false, Nat.add_zero] at hcount
    dsimp only
    split
    · next hended =>
      -- it had ended before
      have hnot : ∀ p, countsFor p i.standing = false := by
        intro p
        have hterminal : i.isTerminal = true := by simpa [ProcessInstance.isTerminal] using hended
        simp [countsFor_standing, hterminal]
      unfold decrementInflightByProcess State.InflightExact
      rw [hinflight]
      refine h.congr fun p => ?_
      have hp := hcount p
      simp only [hnot, Bool.false_eq_true, if_false, Nat.add_zero] at hp
      rw [hp]
    · next hlive =>
      have hcounts : ∀ p, countsFor p i.standing = (i.processId == p) := by
        intro p
        have hterminal : i.isTerminal = false := by simpa [ProcessInstance.isTerminal] using hlive
        simp [countsFor_standing, hterminal]
      simp only [hcounts] at hcount
      have hown := hcount i.processId
      simp only [beq_self_eq_true, if_true] at hown
      have hpos : s.inFlight i.processId + cold i.processId ≠ 0 := by omega
      have hentry : s.inflightByProcess[i.processId]? = some (s.inFlight i.processId + cold i.processId) := by
        rw [h i.processId]
        exact if_neg hpos
      unfold decrementInflightByProcess State.InflightExact
      dsimp only
      rw [hinflight, hentry]
      dsimp only
      refine h.pred i.processId hentry ?_ fun p hp => ?_
      · show t.inFlight i.processId + cold i.processId + 1 = _
        omega
      · have hother := hcount p
        simp only [beq_eq_false_iff_ne.2 (Ne.symm hp), Bool.false_eq_true, if_false, Nat.add_zero] at hother
        show t.inFlight p + cold p = _
        rw [hother]

/-- An instance that has not ended and will not have ended. -/
theorem exact_of_stay {s t : State} {cold : String → Nat} (h : s.InflightExact cold) {key : Key}
    {f : ProcessInstance → ProcessInstance} (hinflight : t.inflightByProcess = s.inflightByProcess)
    (hinstances : t.instances = s.instances.modify key f)
    (hstay : ∀ i, s.instances[key]? = some i →
      i.isTerminal = false ∧ (f i).isTerminal = false ∧ (f i).processId = i.processId) : t.InflightExact cold := by
  cases hi : s.instances[key]? with
  | none =>
    refine State.SameFlight.exact (.of_eq hinflight ?_) h
    rw [hinstances, Std.ExtTreeMap.modify_of_getElem?_eq_none hi]
  | some i =>
    have hsame : ∀ p, countsFor p (f i).standing = countsFor p i.standing := by
      intro p
      obtain ⟨hbefore, hafter, hpid⟩ := hstay i hi
      rw [countsFor_standing, countsFor_standing, hbefore, hafter, hpid]
    unfold State.InflightExact
    rw [hinflight]
    refine h.congr fun p => ?_
    have hcount := inFlight_modify hi hinstances p
    rw [hsame p] at hcount
    rw [Nat.add_right_cancel hcount]

/-- A migration moves one from the source process to the target's. -/
theorem exact_of_migrate {s : State} {cold : String → Nat} (h : s.InflightExact cold) {key : Key} {i : ProcessInstance}
    (hi : s.instances[key]? = some i) (hlive : i.isTerminal = false) (targetProcessId : String) (targetKey : Key)
    (mappings : List (ElementId × ElementId)) :
    (apply s (.processInstanceMigrated key targetProcessId targetKey mappings)).InflightExact cold := by
  -- only the instances and the counts matter of what the applier changes
  suffices hcount : ∀ t : State, t.instances = s.instances.modify key (·.migrate targetProcessId targetKey (remapId mappings)) →
      t.inflightByProcess = (if some i.processId = some targetProcessId then s.inflightByProcess
        else bump (decrementInflightByProcess s (some i.processId)).inflightByProcess targetProcessId) →
      t.InflightExact cold by
    refine hcount _ ?_ ?_
    · show State.instances (applyInstance s _) = _
      unfold applyInstance
      dsimp only
      split
      · rfl
      · exact instances_decrementInflightByProcess _ _
    · show State.inflightByProcess (applyInstance s _) = _
      unfold applyInstance
      dsimp only
      rw [hi, Option.map_some]
      split
      · rfl
      · unfold decrementInflightByProcess
        dsimp only [State.modifyInstance]
        split <;> rfl
  intro t hinstances hinflight
  have hcounts := inFlight_modify hi hinstances
  by_cases heq : i.processId = targetProcessId
  · rw [if_pos (congrArg some heq)] at hinflight
    refine exact_of_stay h hinflight hinstances fun i' hi' => ?_
    obtain rfl : i = i' := Option.some.inj (hi.symm.trans hi')
    exact ⟨hlive, hlive, heq.symm⟩
  · have hne : ¬ (some i.processId = some targetProcessId) := fun hsome => heq (Option.some.inj hsome)
    rw [if_neg hne] at hinflight
    have hbefore : ∀ p, countsFor p i.standing = (i.processId == p) := by
      intro p
      simp [countsFor_standing, hlive]
    have hafter : ∀ p, countsFor p (i.migrate targetProcessId targetKey (remapId mappings)).standing =
        (targetProcessId == p) := by
      intro p
      have hlive' : (i.migrate targetProcessId targetKey (remapId mappings)).isTerminal = false := hlive
      rw [countsFor_standing, hlive']
      rfl
    simp only [hbefore, hafter] at hcounts
    have hown := hcounts i.processId
    simp only [beq_self_eq_true, if_true, beq_eq_false_iff_ne.2 (Ne.symm heq), Bool.false_eq_true, if_false,
      Nat.add_zero] at hown
    have hpos : s.inFlight i.processId + cold i.processId ≠ 0 := by omega
    have hentry : s.inflightByProcess[i.processId]? = some (s.inFlight i.processId + cold i.processId) := by
      rw [h i.processId]
      exact if_neg hpos
    have hless : Counted (decrementInflightByProcess s (some i.processId)).inflightByProcess
        fun p => if p = i.processId then s.inFlight p + cold p - 1 else s.inFlight p + cold p := by
      unfold decrementInflightByProcess
      dsimp only
      rw [hentry]
      refine h.pred i.processId hentry ?_ fun p hp => if_neg hp
      simp only [if_true]
      omega
    unfold State.InflightExact
    rw [hinflight]
    refine hless.succ targetProcessId ?_ fun p hp => ?_
    · have htarget := hcounts targetProcessId
      simp only [beq_self_eq_true, if_true, beq_eq_false_iff_ne.2 heq, Bool.false_eq_true, if_false, Nat.add_zero] at htarget
      rw [if_neg (Ne.symm heq), htarget]
      omega
    · have hother := hcounts p
      simp only [beq_eq_false_iff_ne.2 (Ne.symm hp), Bool.false_eq_true, if_false, Nat.add_zero] at hother
      by_cases hsource : p = i.processId
      · subst hsource
        simp only [beq_self_eq_true, if_true] at hother ⊢
        omega
      · simp only [beq_eq_false_iff_ne.2 (Ne.symm hsource), Bool.false_eq_true, if_false, Nat.add_zero] at hother
        rw [if_neg hsource, hother]

/-- Every lawful event keeps the count. -/
theorem State.InflightExact.apply {s : State} {cold : String → Nat} (h : s.InflightExact cold) {e : Event}
    (he : e.Lawful s) : (NanoBpm.apply s e).InflightExact cold := by
  cases hlife : e.lifecycle with
  | false => exact (sameFlight_apply s hlife).exact h
  | true =>
    cases e with
    | processInstanceCreated key processId vars createdAt tags businessId definitionKey version parent parentElement =>
      have hone : ∀ p, (NanoBpm.apply s (.processInstanceCreated key processId vars createdAt tags businessId definitionKey
          version parent parentElement)).inFlight p = s.inFlight p + if processId == p then 1 else 0 := by
        intro p
        refine (Std.ExtTreeMap.countP_vals_insert_new he _ _).trans ?_
        rfl
      refine h.succ processId ?_ fun p hp => ?_
      · rw [hone]
        simp only [beq_self_eq_true, if_true]
        omega
      · rw [hone]
        simp [Ne.symm hp]
    | processInstanceCompleted key => exact exact_of_end h rfl rfl fun _ => rfl
    | processInstanceTerminated key => exact exact_of_end h rfl rfl fun _ => rfl
    | processInstanceTerminating key => exact exact_of_stay h rfl rfl fun i hi => ⟨he i hi, rfl, rfl⟩
    | processInstanceSuspended key => exact exact_of_stay h rfl rfl fun i hi => ⟨he i hi, rfl, rfl⟩
    | processInstanceResumed key => exact exact_of_stay h rfl rfl fun i hi => ⟨he i hi, rfl, rfl⟩
    | processInstanceMigrated key targetProcessId targetKey mappings =>
      obtain ⟨i, hi, hlive⟩ := he
      exact exact_of_migrate h hi hlive targetProcessId targetKey mappings
    | _ => cases hlife

/-! ## Stretches of events -/

/-- The events that are lawful in every state. -/
def Event.steady : Event → Bool
  | processInstanceCreated .. | processInstanceTerminating .. | processInstanceSuspended .. | processInstanceResumed ..
  | processInstanceMigrated .. => false
  | _ => true

theorem Event.lawful_of_steady {e : Event} (h : e.steady = true) (s : State) : e.Lawful s := by
  cases e <;> trivial

theorem Event.createdInstance_of_steady {e : Event} (h : e.steady = true) : e.createdInstance = none := by
  cases e <;> first | rfl | cases h

theorem Event.steady_of_lifecycle {e : Event} (h : e.lifecycle = false) : e.steady = true := by
  cases e <;> first | rfl | cases h

/-- The origins of the other events. -/
def Origin.unsteady : List Origin := [.start, .spawn, .cancellation, .suspension, .migration]

theorem Event.steady_of_origin {e : Event} (h : e.origin ∉ Origin.unsteady) : e.steady = true := by
  cases e with
  | processInstanceCreated _ _ _ _ _ _ _ _ parent _ => cases parent <;> simp [Event.origin, Origin.unsteady] at h
  | processInstanceTerminating => simp [Event.origin, Origin.unsteady] at h
  | processInstanceSuspended => simp [Event.origin, Origin.unsteady] at h
  | processInstanceResumed => simp [Event.origin, Origin.unsteady] at h
  | processInstanceMigrated => simp [Event.origin, Origin.unsteady] at h
  | _ => rfl

theorem not_resident_iff {s : State} {k : Key} : ¬ s.Resident k ↔ s.instances[k]? = none := by
  rw [State.Resident, Std.ExtTreeMap.contains_eq_isSome_getElem?]
  cases s.instances[k]? <;> simp

/-- Steady events around one creation under a new key. -/
theorem State.InflightExact.applyAll {s : State} {cold : String → Nat} (h : s.InflightExact cold) {events : List Event}
    (hone : (events.filterMap Event.createdInstance).length ≤ 1)
    (hnew : ∀ k ∈ events.filterMap Event.createdInstance, ¬ s.Resident k)
    (hsteady : ∀ e ∈ events, e.createdInstance = none → e.steady = true) :
    (NanoBpm.applyAll s events).InflightExact cold := by
  induction events generalizing s with
  | nil => exact h
  | cons e events ih =>
    rw [List.forall_mem_cons] at hsteady
    rw [applyAll_cons]
    cases hcreated : e.createdInstance with
    | none =>
      rw [List.filterMap_cons_none hcreated] at hone hnew
      refine ih (h.apply (Event.lawful_of_steady (hsteady.1 hcreated) s)) hone (fun k hk => ?_) hsteady.2
      rw [resident_apply_iff, hcreated]
      simpa using hnew k hk
    | some key =>
      rw [List.filterMap_cons_some hcreated] at hone hnew
      have hrest : events.filterMap Event.createdInstance = [] := List.eq_nil_of_length_eq_zero (by simpa using hone)
      have hlawful : e.Lawful s := by
        have hnone := not_resident_iff.1 (hnew key List.mem_cons_self)
        cases e <;> first | (cases hcreated; exact hnone) | cases hcreated
      refine ih (h.apply hlawful) (by simp [hrest]) (by simp [hrest]) hsteady.2

/-- The count is right and the resident instances have minted keys, as long as there are keys left. -/
def Engine.FlightSound (cold : String → Nat) (e : Engine) : Prop :=
  e.nextLocal ≤ localMask → e.state.InflightExact cold ∧ ∀ k, e.state.Resident k → e.Minted k

section Plans

variable {cold : String → Nat}

/-- What follows a command's plan keeps the count. -/
theorem Engine.FlightSound.stretch {s s' : PlanState} {events : List Event} (h : s.engine.FlightSound cold)
    (hs : Stretch [.join, .job, .spawn] s s' events) : s'.engine.FlightSound cold := by
  intro hroom
  obtain ⟨hexact, hminted⟩ := h (hs.nextLocal.trans hroom)
  have hcreated : ∀ k ∈ events.filterMap Event.createdInstance, MintedBetween s s' k := by
    intro k hk
    obtain ⟨event, hevent, hk⟩ := List.mem_filterMap.1 hk
    exact (hs.allowed event hevent).minted k (Event.created_of_createdInstance hk)
  refine ⟨?_, fun k hk => ?_⟩
  · rw [hs.state]
    refine hexact.applyAll hs.spawns (fun k hk hres => ?_) fun event hevent hnone => ?_
    · exact (hcreated k hk).not_minted hroom (hminted k hres)
    · refine Event.steady_of_origin fun hmem => ?_
      have horigin := (hs.allowed event hevent).origin
      simp only [Origin.unsteady, List.mem_cons, List.not_mem_nil, or_false] at hmem
      rcases hmem with hmem | hmem | hmem | hmem | hmem <;> rw [hmem] at horigin <;> try cases horigin
      cases event with
      | processInstanceCreated => cases hnone
      | _ => cases hmem
  · rw [hs.state, resident_applyAll_iff] at hk
    rcases hk with hk | hk
    · exact Node.minted_mono (hminted k hk) hs.partitionId hs.nextLocal
    · obtain ⟨n, -, hlt, rfl⟩ := hcreated k hk
      exact ⟨n, hlt, by rw [hs.partitionId]⟩

theorem Engine.FlightSound.stretches {s s' : PlanState} {events : List Event} (h : s.engine.FlightSound cold)
    (hs : Stretches [.join, .job, .spawn] s s' events) : s'.engine.FlightSound cold := by
  induction hs with
  | nil => exact h
  | cons hstretch _ ih => exact ih (h.stretch hstretch)

/-- From this state, the plan keeps the count. -/
def Plan.KeepsFlight {α : Type} (cold : String → Nat) (s : PlanState) (p : Plan α) : Prop :=
  s.engine.FlightSound cold → (p.run s).2.engine.FlightSound cold

namespace Plan.KeepsFlight

variable {α β : Type} {s : PlanState}

theorem bind {p : Plan α} {f : α → Plan β} (hp : p.KeepsFlight cold s)
    (hf : (f (p.run s).1).KeepsFlight cold (p.run s).2) : (p >>= f).KeepsFlight cold s := by
  intro h
  rw [run_bind]
  exact hf (hp h)

theorem self_bind {f : Engine → Plan β} (h : (f s.engine).KeepsFlight cold s) : (self >>= f).KeepsFlight cold s := h

theorem forM {xs : List α} {f : α → Plan Unit} (h : ∀ a ∈ xs, ∀ s, (f a).KeepsFlight cold s) :
    (xs.forM f).KeepsFlight cold s := by
  induction xs generalizing s with
  | nil => exact id
  | cons a xs ih => exact (h a List.mem_cons_self s).bind (ih fun b hb => h b (List.mem_cons_of_mem _ hb))

/-- Steady events keep it. -/
theorem of_log {p : Plan α} {events : List Event} (hlog : (p.run s).2.log = s.log ++ events)
    (hsteady : ∀ event ∈ events, event.steady = true) : p.KeepsFlight cold s := by
  intro hs hroom
  obtain ⟨hexact, hminted⟩ := hs ((nextLocal_le_run p s).trans hroom)
  have hnone : events.filterMap Event.createdInstance = [] :=
    List.filterMap_eq_nil_iff.2 fun event hevent => Event.createdInstance_of_steady (hsteady event hevent)
  rw [state_run hlog]
  refine ⟨hexact.applyAll (by simp [hnone]) (by simp [hnone]) fun event hevent _ => hsteady event hevent, fun k hk => ?_⟩
  rw [resident_applyAll_iff, hnone] at hk
  exact minted_run p (hminted k (hk.resolve_right List.not_mem_nil))

theorem of_steady {p : Plan α} (h : p.Emits (fun _ => True) (·.steady = true)) (s : PlanState) : p.KeepsFlight cold s := by
  obtain ⟨events, hlog, hsteady⟩ := h.log s fun _ _ _ => trivial
  exact of_log hlog hsteady

omit cold in
theorem steady_of_allowed {F : Key → Prop} {os : List Origin} (hos : ∀ o ∈ os, o ∉ Origin.unsteady) {event : Event}
    (h : Allowed F os event) : event.steady = true := by
  refine Event.steady_of_origin fun hmem => ?_
  have horigin := h.origin
  simp only [List.contains_iff_mem, List.mem_cons] at horigin
  rcases horigin with horigin | horigin
  · rw [horigin] at hmem
    simp [Origin.unsteady] at hmem
  · exact hos _ horigin hmem

theorem of_within (os : List Origin) {p : Plan α} (h : p.Within (fun _ => True) os)
    (hos : ∀ o ∈ os, o ∉ Origin.unsteady) (s : PlanState) : p.KeepsFlight cold s :=
  of_steady (h.mono fun _ => steady_of_allowed hos) s

theorem state_applyEvent (s : PlanState) (event : Event) :
    (s.applyEvent event).engine.state = NanoBpm.apply s.engine.state event := state_run (p := emitPlain event) rfl

/-- One lawful event that creates nothing. -/
theorem emit_lawful {event : Event} (hcreated : event.createdInstance = none)
    (halone : (emit event).run s = ((), s.applyEvent event)) (hlawful : event.Lawful s.engine.state) : (emit event).KeepsFlight cold s := by
  intro hs hroom
  rw [halone] at hroom ⊢
  rw [PlanState.nextLocal_applyEvent] at hroom
  obtain ⟨hexact, hminted⟩ := hs hroom
  rw [state_applyEvent]
  refine ⟨hexact.apply hlawful, fun k hk => ?_⟩
  rw [resident_apply_iff, hcreated] at hk
  obtain ⟨n, hlt, rfl⟩ := hminted k (hk.resolve_right nofun)
  exact ⟨n, by rwa [PlanState.nextLocal_applyEvent], by rw [PlanState.partitionId_applyEvent]⟩

/-- An instance is started under the key that is minted for it. -/
theorem starting (processId : String) (startEvent : ElementId) (vars : Vars) (tags : List String)
    (businessId : Option String) (processDefinitionKey : Key) (s : PlanState) :
    (startInstance processId startEvent vars tags businessId processDefinitionKey).KeepsFlight cold s := by
  intro hs
  obtain ⟨event, hcreated, hrun⟩ : ∃ event : Event, event.createdInstance = some s.mint.1 ∧
      ((startInstance processId startEvent vars tags businessId processDefinitionKey).run s).2.engine =
        (s.mint.2.applyEvent event).engine := ⟨_, rfl, rfl⟩
  rw [hrun]
  intro hroom
  rw [PlanState.nextLocal_applyEvent, PlanState.nextLocal_mint] at hroom
  obtain ⟨hexact, hminted⟩ := hs (Nat.le_of_succ_le hroom)
  have hnew : ¬ s.engine.state.Resident s.mint.1 := fun hres => not_minted_next hroom (hminted _ hres)
  rw [state_applyEvent]
  refine ⟨?_, fun k hk => ?_⟩
  · have hone : (applyAll s.engine.state [event]).InflightExact cold :=
      hexact.applyAll (by simp [hcreated]) (by simpa [hcreated] using hnew) (by simp [hcreated])
    exact hone
  · rw [resident_apply_iff, hcreated] at hk
    have hkey : s.mint.2.engine.Minted k := by
      rcases hk with hk | hk
      · exact minted_mint (hminted k hk)
      · exact ⟨s.engine.nextLocal, Nat.lt_succ_self _, (Option.some.inj hk).symm⟩
    obtain ⟨n, hlt, rfl⟩ := hkey
    exact ⟨n, by rwa [PlanState.nextLocal_applyEvent], by rw [PlanState.partitionId_applyEvent]⟩

theorem startingOrDispatching (processId : String) (startEvent : ElementId) (vars : Vars) (tags : List String)
    (businessId : Option String) (s : PlanState) :
    (startOrDispatchInstance processId startEvent vars tags businessId).KeepsFlight cold s := by
  refine .self_bind ?_
  split
  · exact starting _ _ _ _ _ _ _
  · refine bind (of_steady emits_nextDispatch s) ?_
    dsimp only
    split
    · exact starting _ _ _ _ _ _ _
    · exact of_within [.dispatch] (within_emit rfl rfl) (by decide) _

variable [Feel]

theorem triggeringTimers (now : Nat) (s : PlanState) : (triggerTimers now).KeepsFlight cold s := by
  refine .self_bind (bind (forM fun timerKey _ s => of_within [.timer] within_triggerTimer (by decide) s) (.self_bind ?_))
  refine forM fun timerKey _ s => .self_bind ?_
  split
  · exact id
  · split
    · exact id
    · exact bind (of_within [.rearm] (within_emit rfl rfl) (by decide) _) (startingOrDispatching _ _ _ _ _ _)

omit [Feel] in
theorem correlatingMessage (messageName correlationKey : String) (vars : Vars) (s : PlanState) :
    (correlateMessage messageName correlationKey vars).KeepsFlight cold s := by
  refine bind (of_steady emits_mintKey s) (bind (of_within [.message] (within_emit rfl rfl) (by decide) _) ?_)
  refine .self_bind (bind (of_within [.message] (emits_mapM fun _ _ => within_correlateSubscription) (by decide) _) ?_)
  split
  · exact .self_bind (forM fun _ _ s => startingOrDispatching _ _ _ _ _ s)
  · exact id

omit [Feel] in
/-- Events that end nothing leave an instance as it stands. -/
theorem standing_run {α : Type} {p : Plan α} (h : p.Emits (fun _ => True) (·.lifecycle = false)) (s : PlanState) (key : Key) :
    (p.run s).2.engine.state.instances[key]?.map ProcessInstance.standing =
      s.engine.state.instances[key]?.map ProcessInstance.standing := by
  obtain ⟨events, hlog, hevents⟩ := h.log s fun _ _ _ => trivial
  rw [state_run hlog]
  generalize s.engine.state = t
  clear hlog
  induction events generalizing t with
  | nil => rfl
  | cons event events ih =>
    rw [List.forall_mem_cons] at hevents
    rw [applyAll_cons, ih hevents.2, (sameFlight_apply t hevents.1).standing]

omit [Feel] in
theorem lifecycle_of_ofAgent (event : Event) (h : ofAgent event = true) : event.lifecycle = false := by
  cases event <;> first | rfl | cases h

omit [Feel] in
theorem lifecycle_cancelWaits {s : State} {instanceKey : Key} : ∀ event ∈ cancelWaits s instanceKey, event.lifecycle = false := by
  intro event hevent
  simp only [cancelWaits, List.mem_append, List.mem_map] at hevent
  rcases hevent with (((⟨_, -, rfl⟩ | ⟨_, -, rfl⟩) | ⟨m, -, rfl⟩) | ⟨_, -, rfl⟩) | ⟨_, -, rfl⟩ <;> try rfl
  unfold disarmSubscriptionEvent
  split <;> rfl

omit [Feel] in
/-- After such events an instance is looked at as it stood before. -/
theorem quiet_bind {p : Plan α} {f : α → Plan β} (hp : p.Emits (fun _ => True) (·.lifecycle = false)) (key : Key)
    (hf : ∀ a (s' : PlanState), s'.engine.state.instances[key]?.map ProcessInstance.standing =
      s.engine.state.instances[key]?.map ProcessInstance.standing → (f a).KeepsFlight cold s') :
    (p >>= f).KeepsFlight cold s :=
  bind (of_steady (hp.mono fun _ => Event.steady_of_lifecycle) s) (hf _ _ (standing_run hp s key))

theorem cancelling {instanceKey : Key} {s : PlanState} {i : ProcessInstance}
    (hi : s.engine.state.instances[instanceKey]? = some i) (hactive : i.state = .active) :
    (cancelInstance instanceKey).KeepsFlight cold s := by
  refine .self_bind (quiet_bind (emits_emitAll lifecycle_of_ofAgent lifecycle_cancelWaits) instanceKey fun _ s₁ hs₁ => ?_)
  refine quiet_bind (emits_emitAll lifecycle_of_ofAgent fun event hevent => ?_) instanceKey fun _ s₂ hs₂ => ?_
  · obtain ⟨_, -, rfl⟩ := List.mem_map.1 hevent
    rfl
  dsimp only
  split
  · exact of_steady (emits_emit (fun event h => Event.steady_of_lifecycle (lifecycle_of_ofAgent event h)) rfl) s₂
  · refine bind (emit_lawful rfl rfl fun j hj => ?_) (forM fun entry _ s => .self_bind ?_)
    · -- the waits that were withdrawn have not ended the instance
      have hstanding := hs₂.trans hs₁
      rw [hj, hi] at hstanding
      have hstate : j.state = i.state := congrArg Prod.fst (Option.some.inj hstanding)
      simp [ProcessInstance.isTerminal, hstate, hactive]
    · refine of_within [.job] (emits_ofStepM_bind (s.engine.tame_startTaskListenerChain.mono fun _ htame => ?_)) (by decide) s
      exact within_emitAll htame (by simp)

end Plan.KeepsFlight

/-- From this state, the command keeps the count. -/
def Cmd.KeepsFlight {α : Type} (cold : String → Nat) (s : PlanState) (c : Cmd α) : Prop :=
  s.engine.FlightSound cold → (c s).2.engine.FlightSound cold

theorem Cmd.KeepsFlight.plan {α : Type} {s : PlanState} {p : Plan α} (h : p.KeepsFlight cold s) :
    (Cmd.plan p).KeepsFlight cold s := h

/-- A command that passes its check keeps it when it does from there. -/
theorem Cmd.KeepsFlight.check_bind {α β : Type} {s : PlanState} {f : Engine → Except EngineError α} {c : α → Cmd β}
    (h : ∀ a, f s.engine = .ok a → (c a).KeepsFlight cold s) : (Cmd.check f >>= c).KeepsFlight cold s := by
  intro hs
  obtain ⟨a, hcheck, hrun⟩ | ⟨err, -, hrun⟩ := Cmd.check_bind_cases f c s
  · rw [hrun]
    exact h a hcheck hs
  · rw [hrun]
    exact hs

theorem checkTransition_ok {e : Engine} {key : Key} {source target : ProcessInstanceState}
    (h : checkTransition e key source target = .ok true) {i : ProcessInstance} (hi : e.state.instances[key]? = some i) :
    i.state = source := by
  unfold checkTransition at h
  rw [hi] at h
  dsimp only at h
  split at h
  · next heq => exact heq
  · split at h <;> cases h

variable [Feel]

/-- Most commands have steady events only. -/
theorem Cmd.KeepsFlight.of_origins {command : Command} (hos : ∀ o ∈ command.origins, o ∉ Origin.unsteady) (s : PlanState) :
    (planCommand command).KeepsFlight cold s := by
  obtain ⟨events, hlog, hallowed⟩ := within_planCommand (F := fun _ => True) command (fun _ _ => trivial) s fun _ _ _ => trivial
  obtain ⟨p, hp⟩ := runsPlan_planCommand command s
  rw [hp] at hlog
  intro hs
  rw [hp]
  exact Plan.KeepsFlight.of_log hlog (fun event hevent => Plan.KeepsFlight.steady_of_allowed hos (hallowed event hevent)) hs

/-- The plan of every command keeps the count. -/
theorem keepsFlight_planCommand (command : Command) (s : PlanState) : (planCommand command).KeepsFlight cold s := by
  cases command with
  | createInstance => exact .check_bind fun process _ => .plan (.starting _ _ _ _ _ _ s)
  | dispatchStartInstance => exact .plan (.starting _ _ _ _ _ _ s)
  | triggerTimers now => exact .plan (.triggeringTimers now s)
  | correlateMessage => exact .plan (.correlatingMessage _ _ _ s)
  | cancelInstance key =>
    refine .check_bind fun i hcheck => .plan ?_
    obtain ⟨hi, hactive⟩ := checkActive_ok hcheck
    exact .cancelling hi hactive
  | suspendInstance key =>
    refine .check_bind fun due hcheck => .plan ?_
    cases due with
    | false => exact id
    | true =>
      refine .self_bind (.emit_lawful rfl rfl fun i hi => ?_)
      simp [ProcessInstance.isTerminal, checkTransition_ok hcheck hi]
  | resumeInstance key =>
    refine .check_bind fun due hcheck => .plan ?_
    cases due with
    | false => exact id
    | true =>
      have hresume : (Plan.emit (.processInstanceResumed key)).KeepsFlight cold s := by
        refine .emit_lawful rfl rfl fun i hi => ?_
        simp [ProcessInstance.isTerminal, checkTransition_ok hcheck hi]
      exact hresume
  | migrateInstance key targetKey mappings =>
    refine .check_bind fun pid hcheck => .plan (.emit_lawful rfl rfl ?_)
    obtain ⟨i, _, _, hmigrates, -⟩ := checkMigrateInstance_spec hcheck
    exact ⟨i, hmigrates.resident, by simp [ProcessInstance.isTerminal, hmigrates.active]⟩
  | _ => exact .of_origins (by simp [Command.origins, Origin.unsteady]) s

end Plans

/-! ## Removals -/

/-- The removal of instances without an event leaves the count right when none of them was in flight, and only then. -/
theorem exact_of_removal_iff {s t : State} {cold : String → Nat} (h : s.InflightExact cold)
    (hinflight : t.inflightByProcess = s.inflightByProcess) {victims : Key → Prop} [DecidablePred victims]
    (hinstances : ∀ k : Key, t.instances[k]? = if victims k then none else s.instances[k]?) :
    t.InflightExact cold ↔ ∀ (k : Key) (i : ProcessInstance), victims k → s.instances[k]? = some i → i.isTerminal = true := by
  have hpart : ∀ (k : Key) (i : ProcessInstance), t.instances[k]? = some i → s.instances[k]? = some i := by
    intro k i hi
    rw [hinstances k] at hi
    split at hi
    · cases hi
    · exact hi
  have hsame : ∀ p, t.inFlight p = s.inFlight p ↔
      ∀ (k : Key) (i : ProcessInstance), s.instances[k]? = some i → countsFor p i.standing = true → t.instances[k]? = some i :=
    fun p => Std.ExtTreeMap.countP_vals_of_part hpart _
  constructor
  · intro ht k i hk hi
    have hcount : t.inFlight i.processId + cold i.processId = s.inFlight i.processId + cold i.processId := by
      unfold State.InflightExact at ht
      rw [hinflight] at ht
      exact ht.unique h i.processId
    by_contra hlive
    have hcounts : countsFor i.processId i.standing = true := by
      rw [countsFor_standing, Bool.eq_false_iff.2 hlive]
      simp
    have hstill := (hsame i.processId).1 (Nat.add_right_cancel hcount) k i hi hcounts
    rw [hinstances k, if_pos hk] at hstill
    cases hstill
  · intro hended
    unfold State.InflightExact
    rw [hinflight]
    refine h.congr fun p => ?_
    rw [(hsame p).2 fun k i hi hcounts => ?_]
    rw [hinstances k, if_neg, hi]
    intro hk
    rw [countsFor_standing, hended k i hk hi] at hcounts
    cases hcounts

theorem inflight_takeJobs (s : State) (key : Key) : (s.takeJobs key).2.inflightByProcess = s.inflightByProcess := by
  rw [takeJobs_withJobView]
  rfl

theorem inflight_removeInstances (victims : List Key) (s : State) :
    (victims.foldl State.removeInstance s).inflightByProcess = s.inflightByProcess := by
  induction victims generalizing s with
  | nil => rfl
  | cons v vs ih =>
    rw [List.foldl_cons, ih]
    exact inflight_takeJobs _ v

theorem inflight_removeInstanceSet (e : Engine) (victims : List Key) :
    (e.removeInstanceSet victims).state.inflightByProcess = e.state.inflightByProcess := by
  unfold Engine.removeInstanceSet
  split
  · rfl
  · exact inflight_removeInstances victims e.state

theorem exact_removeInstanceSet_iff {s : State} {cold : String → Nat} (h : s.InflightExact cold) {e : Engine} (he : e.state = s)
    (victims : List Key) : (e.removeInstanceSet victims).state.InflightExact cold ↔
      ∀ (k : Key) (i : ProcessInstance), k ∈ victims → s.instances[k]? = some i → i.isTerminal = true := by
  subst he
  exact exact_of_removal_iff h (inflight_removeInstanceSet e victims) fun k => instances_removeInstanceSet e victims k

theorem exact_evictInstance {e : Engine} {cold : String → Nat} (h : e.state.InflightExact cold) (key : Key) :
    (e.evictInstance key).2.state.InflightExact cold := by
  unfold Engine.evictInstance
  split
  · next hended =>
    have hinstances : ∀ k : Key, ((e.state.removeInstance key).retainOthers [key]).instances[k]? =
        if k ∈ [key] then none else e.state.instances[k]? := fun k => instances_removeInstances [key] e.state k
    have hinflight : ((e.state.removeInstance key).retainOthers [key]).inflightByProcess = e.state.inflightByProcess :=
      inflight_takeJobs _ key
    refine (exact_of_removal_iff h hinflight hinstances).2 fun k i hk hi => ?_
    rw [List.mem_singleton.1 hk] at hi
    rwa [hi] at hended
  · exact h

theorem exact_evictCompleted {e : Engine} {cold : String → Nat} (h : e.state.InflightExact cold) :
    e.evictCompleted.state.InflightExact cold := by
  unfold Engine.evictCompleted
  generalize (e.state.instances.toList.filter (·.2.isTerminal)).map (·.1) = keys
  induction keys generalizing e with
  | nil => exact h
  | cons k ks ih => exact ih (exact_evictInstance h k)

/-! ## Nodes -/

namespace Node

/-- The spilled instances of the process that have not ended. -/
def coldInFlight (n : Node) (p : String) : Nat := n.cold.countP fun snap => countsFor p snap.inst.standing

/-- The count of every process is the number of its instances that have not ended, resident or spilled, and there is no
entry for a process without one. -/
def InflightExact (n : Node) : Prop := n.engine.state.InflightExact n.coldInFlight

/-- An instance is resident or spilled, once. -/
structure Apart (n : Node) : Prop where
  nodup : (n.cold.map (·.inst.key)).Nodup
  resident : ∀ snap ∈ n.cold, ¬ n.engine.state.Resident snap.inst.key

theorem Apart.shrink {n : Node} (h : n.Apart) {engine : Engine} (hw : engine.state.Within n.engine.state) :
    ({ n with engine } : Node).Apart :=
  ⟨h.nodup, fun snap hsnap hres => h.resident snap hsnap (hw.resident hres)⟩

variable [Feel]

/-- What an operation removes without an event has ended. For a command that is what it creates under a tombstone. -/
def Spares (fuel : Nat) (n : Node) : NodeOp → Prop
  | .call c => ∀ (k : Key) (i : ProcessInstance), k ∈ (n.engine.call fuel c).1.filterMap Event.createdInstance →
      k ∈ n.engine.retiredTombstones → (applyAll n.engine.state (n.engine.call fuel c).1).instances[k]? = some i →
      i.isTerminal = true
  | .retireInstances keys => ∀ (k : Key) (i : ProcessInstance), k ∈ keys → n.engine.state.instances[k]? = some i →
      i.isTerminal = true
  | .retireBelow iter lowWater maxRemove => ∀ (k : Key) (i : ProcessInstance),
      k ∈ (iter.filter (· < lowWater)).take maxRemove → n.engine.state.instances[k]? = some i → i.isTerminal = true
  | _ => True

/-- What a command's events do to the count, before anything is reaped. -/
theorem exact_applyAll_call {fuel : Nat} {n : Node} (hinv : n.Inv) (h : n.InflightExact) (command : Command) (now : Nat)
    (hroom : (n.engine.applyCommandAt fuel command now).2.nextLocal ≤ localMask) :
    (applyAll n.engine.state (Engine.returned (n.engine.applyCommandAt fuel command now).1)).InflightExact
      n.coldInFlight := by
  have hemits := Engine.emits_planCommandAt n.engine command now
  have herror := @Engine.planCommandAt_of_error _ n.engine command now
  have hsound : ({ engine := n.engine.beginCommand now } : PlanState).engine.FlightSound n.coldInFlight :=
    fun _ => ⟨h, hinv.resident⟩
  have hs := keepsFlight_planCommand command { engine := n.engine.beginCommand now } hsound
  change ((n.engine.planCommandAt command now).2.engine).FlightSound _ at hs
  unfold Engine.applyCommandAt at hroom ⊢
  generalize n.engine.planCommandAt command now = planned at hemits herror hs hroom ⊢
  obtain ⟨result, s⟩ := planned
  cases result with
  | error err => exact h
  | ok u =>
    obtain ⟨log, hlog, hstate, -, -⟩ := hemits.trans (Plan.emits_run (Engine.settle fuel) s)
    obtain ⟨events, hevents⟩ := Plan.inStretches_settle fuel s
    have hsettled := hs.stretches hevents
    have hnext : ((Engine.settle fuel).run s).2.engine.nextLocal ≤ localMask := by
      obtain ⟨-, -, hn⟩ := finishCommand_frame ((Engine.settle fuel).run s).2.engine ((Engine.settle fuel).run s).2.log
      rw [← hn]
      exact hroom
    rw [show Engine.returned (.ok ((Engine.settle fuel).run s).2.log) = log from hlog]
    have hexact := (hsettled hnext).1
    rw [hstate] at hexact
    exact hexact

omit [Feel] in
theorem inflight_finishCommand (e : Engine) (log : List Event) :
    (e.finishCommand log).state.inflightByProcess = e.state.inflightByProcess := by
  unfold Engine.finishCommand
  split
  · rfl
  · dsimp only
    split
    · rfl
    · unfold Engine.reapTombstoned
      split
      · rfl
      · exact inflight_removeInstanceSet { e with retiredTombstones := _ } _

theorem exact_call_iff {fuel : Nat} {n : Node} (hinv : n.Inv) (h : n.InflightExact) (c : Engine.HostCall)
    (hroom : (n.step fuel (.call c)).engine.nextLocal ≤ localMask) :
    (n.step fuel (.call c)).InflightExact ↔ n.Spares fuel (.call c) := by
  cases c with
  | applyCommandAt command now =>
    obtain ⟨e', hstate, -, htombs, -, -, hfinish⟩ := n.engine.applyCommandAt_spec fuel command now
    have hbefore : e'.state.InflightExact n.coldInFlight := hstate ▸ exact_applyAll_call hinv h command now hroom
    have hreap := exact_of_removal_iff hbefore (inflight_finishCommand e' _) fun k =>
      (finishCommand_spec e' (Engine.returned (n.engine.applyCommandAt fuel command now).1) k).1
    have hengine : (n.step fuel (.call (.applyCommandAt command now))).engine =
        e'.finishCommand (Engine.returned (n.engine.applyCommandAt fuel command now).1) := hfinish
    unfold InflightExact
    rw [hengine]
    refine hreap.trans ?_
    rw [htombs, hstate]
    constructor
    · intro hended k i hcreated htomb hi
      exact hended k i ⟨hcreated, htomb⟩ hi
    · intro hspares k i hk hi
      exact hspares k i hk.1 hk.2 hi
  | _ =>
    refine iff_of_true h fun k i hk => ?_
    cases hk

theorem exact_retireInstances_iff {n : Node} (h : n.InflightExact) (fuel : Nat) (keys : List Key) :
    (n.step fuel (.retireInstances keys)).InflightExact ↔ n.Spares fuel (.retireInstances keys) := by
  refine (exact_removeInstanceSet_iff (s := n.engine.state) h (by exact rfl) _).trans ?_
  constructor
  · intro hended k i hk hi
    refine hended k i ?_ hi
    rw [List.mem_eraseDups, (retireStep_foldl n.engine keys ([], n.engine.retiredTombstones)).1]
    refine Or.inr ⟨hk, ?_⟩
    rw [State.Resident, Std.ExtTreeMap.contains_eq_isSome_getElem?, hi]
    rfl
  · intro hspares k i hk hi
    rw [List.mem_eraseDups, (retireStep_foldl n.engine keys ([], n.engine.retiredTombstones)).1] at hk
    exact hspares k i (hk.resolve_left List.not_mem_nil).1 hi

theorem exact_retireBelow_iff {n : Node} (h : n.InflightExact) (fuel : Nat) (iter : List Key) (lowWater maxRemove : Nat) :
    (n.step fuel (.retireBelow iter lowWater maxRemove)).InflightExact ↔ n.Spares fuel (.retireBelow iter lowWater maxRemove) := by
  have hstep : (n.step fuel (.retireBelow iter lowWater maxRemove)).InflightExact ↔
      ((n.engine.retireBelow iter lowWater maxRemove).2.state).InflightExact n.coldInFlight := Iff.rfl
  rw [hstep]
  unfold Engine.retireBelow
  split
  · next hskip =>
    refine iff_of_true h fun k i hk hi => ?_
    rcases Bool.or_eq_true_iff.1 hskip with hempty | hzero
    · rw [Std.ExtTreeMap.isEmpty_iff.1 hempty] at hi
      simp at hi
    · rw [beq_iff_eq.1 hzero] at hk
      simp at hk
  · dsimp only
    split
    · next hnone =>
      refine iff_of_true h fun k i hk hi => ?_
      rw [List.isEmpty_iff.1 hnone] at hk
      cases hk
    · exact exact_removeInstanceSet_iff (s := n.engine.state) h (by exact rfl) _

omit [Feel] in
/-- A snapshot that is found counts once. -/
theorem countP_cold_of_find? {cold : List InstanceSnapshot} {found : InstanceSnapshot → Bool} {snap : InstanceSnapshot}
    (h : cold.find? found = some snap) (p : InstanceSnapshot → Bool) :
    cold.countP p = (cold.eraseP found).countP p + if p snap then 1 else 0 := by
  induction cold with
  | nil => cases h
  | cons c cs ih =>
    cases hfound : found c with
    | true =>
      rw [List.find?_cons_of_pos hfound] at h
      obtain rfl := Option.some.inj h
      rw [List.eraseP_cons_of_pos hfound, List.countP_cons]
    | false =>
      have hnot : ¬ found c = true := by simp [hfound]
      rw [List.find?_cons_of_neg hnot] at h
      rw [List.eraseP_cons_of_neg hnot, List.countP_cons, List.countP_cons, ih h]
      omega

/-- One operation keeps the count right when what it removes without an event has ended, and only then. -/
theorem exact_step_iff {fuel : Nat} {n : Node} (hinv : n.Inv) (hapart : n.Apart) (h : n.InflightExact) (op : NodeOp)
    (hroom : (n.step fuel op).engine.nextLocal ≤ localMask) : (n.step fuel op).InflightExact ↔ n.Spares fuel op := by
  cases op with
  | call c => exact exact_call_iff hinv h c hroom
  | retireInstances keys => exact exact_retireInstances_iff h fuel keys
  | retireBelow iter lowWater maxRemove => exact exact_retireBelow_iff h fuel iter lowWater maxRemove
  | recoverLease jobKey deadline now =>
    refine iff_of_true (State.SameFlight.exact (.of_eq ?_ (JobSystem.recoverLease_frame _ _ _ _).1) h) trivial
    simp only [Engine.recoverLease]
    split <;> rfl
  | evictInstance key => exact iff_of_true (exact_evictInstance h key) trivial
  | evictInstances keys =>
    refine iff_of_true ((exact_removeInstanceSet_iff (s := n.engine.state) h (by exact rfl) _).2 fun k i hk hi => ?_) trivial
    rw [List.mem_eraseDups, List.mem_filter, hi] at hk
    exact hk.2
  | evictCompleted => exact iff_of_true (exact_evictCompleted h) trivial
  | spillVariables key =>
    refine iff_of_true ?_ trivial
    show ((n.engine.spillVariables key).2.state).InflightExact _
    unfold Engine.spillVariables
    split
    · exact h
    · split
      · exact h
      · refine State.SameFlight.exact (s := n.engine.state) ?_ h
        exact .of_modify rfl rfl fun _ => rfl
  | rehydrateVariables key vars =>
    refine iff_of_true (State.SameFlight.exact (s := n.engine.state) ?_ h) trivial
    exact .of_modify rfl rfl fun _ => rfl
  | snapshotInstance key =>
    refine iff_of_true ?_ trivial
    rcases step_snapshotInstance n fuel key with hsame | ⟨i, snap, state, hi, -, rfl, hstate, hinflight, hstep⟩
    · rw [hsame]
      exact h
    · rw [hstep]
      unfold InflightExact State.InflightExact
      rw [hinflight]
      refine h.congr fun p => ?_
      unfold State.inFlight coldInFlight
      rw [hstate, Std.ExtTreeMap.countP_vals_of_getElem? hi, List.countP_cons]
      omega
  | rehydrateInstance key =>
    refine iff_of_true ?_ trivial
    rcases step_rehydrateInstance n fuel key with hsame | ⟨snap, hfind, hinstances, hinflight, hstep⟩
    · rw [hsame]
      exact h
    · have hnew := not_resident_iff.1 (hapart.resident snap (List.mem_of_find?_eq_some hfind))
      rw [hstep]
      unfold InflightExact State.InflightExact
      dsimp only
      rw [hinflight]
      refine h.congr fun p => ?_
      unfold State.inFlight coldInFlight
      dsimp only
      rw [hinstances, Std.ExtTreeMap.countP_vals_insert_new hnew, countP_cold_of_find? hfind]
      omega

omit [Feel] in
/-- What is put back is not spilled any more. -/
theorem key_ne_of_mem_eraseP {cold : List InstanceSnapshot} (h : (cold.map (·.inst.key)).Nodup) {key : Key}
    {snap : InstanceSnapshot} (hsnap : snap ∈ cold.eraseP (·.inst.key == key)) : snap.inst.key ≠ key := by
  induction cold with
  | nil => cases hsnap
  | cons c cs ih =>
    rw [List.map_cons, List.nodup_cons] at h
    by_cases hc : (c.inst.key == key) = true
    · simp only [List.eraseP_cons, hc, cond_true] at hsnap
      rintro rfl
      exact h.1 (List.mem_map.2 ⟨snap, hsnap, (beq_iff_eq.1 hc).symm⟩)
    · simp only [List.eraseP_cons, hc, cond_false] at hsnap
      rcases List.mem_cons.1 hsnap with rfl | hsnap
      · exact fun heq => hc (beq_iff_eq.2 heq)
      · exact ih h.2 hsnap

/-- Instances stay apart as long as there are keys left. -/
theorem Apart.step {fuel : Nat} {n : Node} (hinv : n.Inv) (h : n.Apart) (op : NodeOp)
    (hroom : (n.step fuel op).engine.nextLocal ≤ localMask) : (n.step fuel op).Apart := by
  cases op with
  | call c =>
    obtain ⟨created, -, -, -, hres, -, hfresh⟩ := call_spec fuel n c
    refine ⟨h.nodup, fun snap hsnap hresident => ?_⟩
    rcases ((hres snap.inst.key).1 hresident).1 with hold | hnew
    · exact h.resident snap hsnap hold
    · exact hfresh hroom snap.inst.key hnew (hinv.cold snap hsnap)
  | recoverLease jobKey deadline now => exact h.shrink (quiet_recoverLease _ _ _ _).table
  | evictInstance key => exact h.shrink (quiet_evictInstance _ _).table
  | evictInstances keys => exact h.shrink (quiet_removeInstanceSet _ _).table
  | evictCompleted => exact h.shrink (quiet_evictCompleted _).table
  | retireInstances keys => exact h.shrink (quiet_retireInstances _ _).table
  | retireBelow iter lowWater maxRemove => exact h.shrink (quiet_retireBelow _ _ _ _).table
  | spillVariables key => exact h.shrink (quiet_spillVariables _ _).table
  | rehydrateVariables key vars => exact h.shrink (within_modifyInstance _ _ fun _ => rfl)
  | snapshotInstance key =>
    rcases step_snapshotInstance n fuel key with hsame | ⟨i, snap, state, hi, -, rfl, hstate, -, hstep⟩
    · rw [hsame]
      exact h
    · have hkey := hinv.keyed key _ hi
      have hhere : n.engine.state.Resident snap.inst.key := by
        rw [hkey]
        exact Classical.byContradiction fun hnot => by
          rw [not_resident_iff.1 hnot] at hi
          cases hi
      rw [hstep]
      refine ⟨?_, fun other hother => not_resident_iff.2 ?_⟩
      · rw [List.map_cons, List.nodup_cons]
        refine ⟨fun hmem => ?_, h.nodup⟩
        obtain ⟨other, hother, heq⟩ := List.mem_map.1 hmem
        exact h.resident other hother (heq ▸ hhere)
      · show state.instances[other.inst.key]? = none
        rw [hstate, Std.ExtTreeMap.getElem?_erase]
        rcases List.mem_cons.1 hother with rfl | hother
        · rw [hkey, if_pos Std.ReflCmp.compare_self]
        · rw [not_resident_iff.1 (h.resident other hother), ite_self]
  | rehydrateInstance key =>
    rcases step_rehydrateInstance n fuel key with hsame | ⟨snap, hfind, hinstances, -, hstep⟩
    · rw [hsame]
      exact h
    · rw [hstep]
      have hsub : (n.cold.eraseP (·.inst.key == key)).map (·.inst.key) |>.Sublist (n.cold.map (·.inst.key)) :=
        List.eraseP_sublist.map _
      refine ⟨h.nodup.sublist hsub, fun other hother => not_resident_iff.2 ?_⟩
      have hmem := List.mem_of_mem_eraseP hother
      show (n.engine.rehydrateInstance snap).state.instances[other.inst.key]? = none
      rw [hinstances, Std.ExtTreeMap.getElem?_insert]
      split
      · next heq =>
        exfalso
        have hsame : snap.inst.key = other.inst.key := Std.LawfulEqCmp.eq_of_compare heq
        have hfound := List.find?_some hfind
        have hkey : snap.inst.key = key := beq_iff_eq.1 hfound
        exact key_ne_of_mem_eraseP h.nodup hother (hsame.symm.trans hkey)
      · exact not_resident_iff.1 (h.resident other hmem)

/-- Every operation of the run spares what is in flight. -/
def SparesAlong (fuel : Nat) : Node → List NodeOp → Prop
  | _, [] => True
  | n, op :: ops => n.Spares fuel op ∧ SparesAlong fuel (n.step fuel op) ops

/-- The count is right in every state of the run. -/
def ExactAlong (fuel : Nat) : Node → List NodeOp → Prop
  | n, [] => n.InflightExact
  | n, op :: ops => n.InflightExact ∧ ExactAlong fuel (n.step fuel op) ops

theorem sparesAlong_append {fuel : Nat} {n : Node} {ops more : List NodeOp} :
    n.SparesAlong fuel (ops ++ more) ↔ n.SparesAlong fuel ops ∧ (n.run fuel ops).SparesAlong fuel more := by
  induction ops generalizing n with
  | nil => exact (iff_of_eq (true_and _)).symm
  | cons op ops ih => exact (and_congr_right fun _ => ih).trans and_assoc.symm

theorem ExactAlong.first {fuel : Nat} {n : Node} {ops : List NodeOp} (h : n.ExactAlong fuel ops) : n.InflightExact := by
  cases ops with
  | nil => exact h
  | cons op ops => exact h.1

theorem exactAlong_iff {fuel : Nat} {n : Node} (hinv : n.Inv) (hapart : n.Apart) (h : n.InflightExact) (ops : List NodeOp)
    (hroom : (n.run fuel ops).engine.nextLocal ≤ localMask) : n.ExactAlong fuel ops ↔ n.SparesAlong fuel ops := by
  induction ops generalizing n with
  | nil => exact iff_of_true h trivial
  | cons op ops ih =>
    have hstep : (n.step fuel op).engine.nextLocal ≤ localMask := ((n.step fuel op).nextLocal_le_run fuel ops).trans hroom
    have hone := exact_step_iff hinv hapart h op hstep
    have hnext := fun hexact => ih (hinv.step fuel op) (hapart.step hinv op hstep) hexact hroom
    constructor
    · rintro ⟨-, hrest⟩
      exact ⟨hone.1 hrest.first, (hnext hrest.first).1 hrest⟩
    · rintro ⟨hspares, hrest⟩
      exact ⟨h, (hnext (hone.2 hspares)).2 hrest⟩

omit [Feel] in
theorem inflightExact_start (partitionId : Nat) : (start partitionId).InflightExact := Counted.empty

omit [Feel] in
theorem apart_start (partitionId : Nat) : (start partitionId).Apart := ⟨List.nodup_nil, fun snap hsnap => by cases hsnap⟩

/-- Commands alone leave nothing behind that could reap. -/
theorem sparesAlong_calls {fuel : Nat} {n : Node} (h : n.engine.retiredTombstones.isEmpty = true)
    (calls : List Engine.HostCall) :
    n.SparesAlong fuel (calls.map .call) ∧ (n.run fuel (calls.map .call)).cold = n.cold ∧
      (n.run fuel (calls.map .call)).engine = (Engine.runCalls fuel n.engine calls).2 := by
  induction calls generalizing n with
  | nil => exact ⟨trivial, rfl, rfl⟩
  | cons c cs ih =>
    have hempty : (n.step fuel (.call c)).engine.retiredTombstones.isEmpty = true := (Engine.follows_call h fuel c).noTombstones
    obtain ⟨hspares, hcold, hengine⟩ := ih hempty
    refine ⟨⟨fun k i _ htomb => ?_, hspares⟩, hcold, ?_⟩
    · rw [Std.ExtTreeSet.isEmpty_iff.1 h] at htomb
      exact absurd htomb Std.ExtTreeSet.not_mem_empty
    · rw [Engine.runCalls_cons]
      exact hengine

theorem ExactAlong.last {fuel : Nat} {n : Node} {ops : List NodeOp} (h : n.ExactAlong fuel ops) :
    (n.run fuel ops).InflightExact := by
  induction ops generalizing n with
  | nil => exact h
  | cons op ops ih => exact ih h.2

/-- In every run that does not use up the keys: the count of each process is the number of its instances that have not
ended, in every state of the run, exactly when no retirement, sweep or reaping removes one that has not. A replay of the
events of commands counts right as well. -/
theorem inflightByProcess_exact_iff (fuel partitionId : Nat) :
    (∀ ops : List NodeOp, ((start partitionId).run fuel ops).engine.nextLocal ≤ localMask →
      ((start partitionId).ExactAlong fuel ops ↔ (start partitionId).SparesAlong fuel ops)) ∧
    ∀ calls : List Engine.HostCall,
      (Engine.runCalls fuel (Engine.withPartition partitionId) calls).2.nextLocal ≤ localMask →
      (Engine.replayPartition partitionId
        (Engine.runCalls fuel (Engine.withPartition partitionId) calls).1).state.InflightExact fun _ => 0 := by
  have hruns : ∀ ops : List NodeOp, ((start partitionId).run fuel ops).engine.nextLocal ≤ localMask →
      ((start partitionId).ExactAlong fuel ops ↔ (start partitionId).SparesAlong fuel ops) := fun ops hroom =>
    exactAlong_iff (inv_start partitionId) (apart_start partitionId) (inflightExact_start partitionId) ops hroom
  refine ⟨hruns, fun calls hroom => ?_⟩
  have hempty : (start partitionId).engine.retiredTombstones.isEmpty = true := rfl
  obtain ⟨hspares, hcold, hengine⟩ := @sparesAlong_calls _ fuel _ hempty calls
  have hlast := ((hruns (calls.map .call) (hengine ▸ hroom)).2 hspares).last
  unfold InflightExact at hlast
  have hnone : ((start partitionId).run fuel (calls.map .call)).coldInFlight = fun _ => 0 := by
    unfold coldInFlight
    rw [hcold]
    rfl
  rw [hnone, hengine] at hlast
  rw [Engine.replayPartition, Engine.state_applyReplayedEvents]
  have hfollows := (Engine.follows_runCalls fuel (Engine.withPartition partitionId) hempty calls).state
  rw [show (start partitionId).engine = Engine.withPartition partitionId from rfl, hfollows] at hlast
  exact hlast

end Node

/-- A replica drops a retired instance that is still active there: its process keeps a count of one. -/
theorem retired_instance_stays_counted :
    (@Node.run Feel.refusing 40 (Node.start 0)
      (suspendedOrder.take 2 ++ [.retireInstances [3]])).engine.state.inflightByProcess["order"]? = some 1 ∧
    (@Node.run Feel.refusing 40 (Node.start 0)
      (suspendedOrder.take 2 ++ [.retireInstances [3]])).engine.state.inFlight "order" = 0 ∧
    (@Node.run Feel.refusing 40 (Node.start 0) (suspendedOrder.take 2 ++ [.retireInstances [3]])).cold.length = 0 ∧
    ¬ (@Node.run Feel.refusing 40 (Node.start 0) (suspendedOrder.take 2 ++ [.retireInstances [3]])).InflightExact := by
  have hentry : (@Node.run Feel.refusing 40 (Node.start 0)
      (suspendedOrder.take 2 ++ [.retireInstances [3]])).engine.state.inflightByProcess["order"]? = some 1 := by decide +kernel
  have hcount : (@Node.run Feel.refusing 40 (Node.start 0)
      (suspendedOrder.take 2 ++ [.retireInstances [3]])).engine.state.inFlight "order" = 0 := by decide +kernel
  have hcold : (@Node.run Feel.refusing 40 (Node.start 0)
      (suspendedOrder.take 2 ++ [.retireInstances [3]])).cold.length = 0 := by decide +kernel
  refine ⟨hentry, hcount, hcold, fun h => ?_⟩
  have hexact := h "order"
  rw [hentry] at hexact
  simp [hcount, Node.coldInFlight, List.eq_nil_of_length_eq_zero hcold] at hexact

/-- The commands of an instance that is canceled. -/
def canceledOrder : List Engine.HostCall :=
  [.applyCommandAt (.deployProcess oneTaskProcess) 0, .applyCommandAt (.createInstance "order" ∅ [] none none none) 0,
    .applyCommandAt (.cancelInstance 3) 1]

/-- The instance is canceled before its replica drops it: the count is right throughout. -/
theorem inflightByProcess_exact_after_cancel :
    @Node.ExactAlong Feel.refusing 40 (Node.start 0) (canceledOrder.map .call ++ [.retireInstances [3]]) ∧
    (Engine.replayPartition 0 (@Engine.runCalls Feel.refusing 40 (Engine.withPartition 0)
      canceledOrder).1).state.InflightExact fun _ => 0 := by
  have hcalls := (@Node.sparesAlong_calls Feel.refusing 40 (Node.start 0) rfl canceledOrder).1
  have hended : (@Node.run Feel.refusing 40 (Node.start 0) (canceledOrder.map .call)).engine.state.instances[3]?.map
      ProcessInstance.isTerminal = some true := by decide +kernel
  have hspares : @Node.Spares Feel.refusing 40 (@Node.run Feel.refusing 40 (Node.start 0) (canceledOrder.map .call))
      (.retireInstances [3]) := by
    intro k i hk hi
    rw [List.mem_singleton.1 hk] at hi
    rw [hi] at hended
    exact Option.some.inj hended
  refine ⟨((@Node.inflightByProcess_exact_iff Feel.refusing 40 0).1 _ (by decide +kernel)).2 ?_,
    (@Node.inflightByProcess_exact_iff Feel.refusing 40 0).2 _ (by decide +kernel)⟩
  exact (@Node.sparesAlong_append Feel.refusing 40 (Node.start 0) _ _).2 ⟨hcalls, hspares, trivial⟩

end NanoBpm
