import NanoBpm.Lib.Rekey
import NanoBpm.Arrivals
import NanoBpm.Residency
import NanoBpm.Planner.Runs

/-!
# Migration to another definition (`engine/mod.rs:3824-4163`, `state/apply/instance.rs:317-450`)

A migration is checked against the latest version of the instance's process, while the instance runs the version it is
pinned to. What passed the checks is applied by renaming the element ids the instance holds, one table after the other.
-/

namespace NanoBpm

/-! ## What the checks have seen -/

theorem forM_eq_ok {α : Type} {xs : List α} {f : α → Except EngineError Unit} {u : Unit} :
    xs.forM f = .ok u ↔ ∀ x ∈ xs, f x = .ok () := by
  induction xs with
  | nil => simp [pure, Except.pure]
  | cons x xs ih =>
    have hcons : (x :: xs).forM f = f x >>= fun _ => xs.forM f := rfl
    rw [hcons, Except.bind_eq_ok, List.forall_mem_cons]
    constructor
    · rintro ⟨⟨⟩, hx, hxs⟩
      exact ⟨hx, ih.1 hxs⟩
    · rintro ⟨hx, hxs⟩
      exact ⟨(), hx, ih.2 hxs⟩

theorem mem_dedupSorted {α : Type} [DecidableEq α] {xs : List α} {x : α} : x ∈ dedupSorted xs ↔ x ∈ xs := by
  fun_induction dedupSorted xs with
  | case1 => rfl
  | case2 => rfl
  | case3 y rest ih => simp [ih]
  | case4 y z rest hne ih => simp [ih]

@[simp] theorem mem_sortStrings {xs : List String} {x : String} : x ∈ sortStrings xs ↔ x ∈ xs := by
  unfold sortStrings
  exact List.mem_insertionSort _

theorem minString_eq_none {xs : List String} : minString xs = none ↔ xs = [] := by
  unfold minString
  rw [List.head?_eq_none_iff, List.eq_nil_iff_forall_not_mem, List.eq_nil_iff_forall_not_mem]
  simp

/-- Where a mapping sends an id, if anywhere. -/
def mappedTo (mappings : List (ElementId × ElementId)) (id : ElementId) : Option ElementId :=
  (mappings.reverse.find? (·.1 == id)).map (·.2)

theorem remapId_eq (mappings : List (ElementId × ElementId)) (id : ElementId) :
    remapId mappings id = (mappedTo mappings id).getD id := rfl

theorem mappedTo_cons (entry : ElementId × ElementId) (mappings : List (ElementId × ElementId)) (id : ElementId) :
    mappedTo (entry :: mappings) id = (mappedTo mappings id).or (if entry.1 = id then some entry.2 else none) := by
  unfold mappedTo
  rw [List.reverse_cons, List.find?_append]
  by_cases h : entry.1 = id <;> cases mappings.reverse.find? (·.1 == id) <;> simp [h]

/-- The id an entry is for is sent to the target of some entry. -/
theorem mem_of_mappedTo {mappings : List (ElementId × ElementId)} {id target : ElementId}
    (h : mappedTo mappings id = some target) : (id, target) ∈ mappings := by
  obtain ⟨entry, hfind, rfl⟩ := Option.map_eq_some_iff.1 h
  have hid := List.find?_some hfind
  have hmem := List.mem_of_find?_eq_some hfind
  rw [← beq_iff_eq.1 hid]
  exact List.mem_reverse.1 hmem

theorem checkMappings_spec {instanceKey targetKey : Key} {source target : ProcessDefinition} {m m' : StrMap ElementId}
    {mappings : List (ElementId × ElementId)} (h : checkMappings instanceKey targetKey source target m mappings = .ok m') :
    (∀ id : ElementId, m'[id]? = (mappedTo mappings id).or m[id]?) ∧
      ∀ entry ∈ mappings, entry.1 ∈ source.elements ∧ entry.2 ∈ target.elements := by
  induction mappings generalizing m with
  | nil =>
    cases h
    simp [mappedTo]
  | cons entry rest ih =>
    obtain ⟨src, tgt⟩ := entry
    unfold checkMappings at h
    obtain ⟨_, -, h⟩ := Except.bind_eq_ok.1 h
    obtain ⟨srcEl, hsrc, h⟩ := Except.bind_eq_ok.1 h
    obtain ⟨tgtEl, htgt, h⟩ := Except.bind_eq_ok.1 h
    obtain ⟨_, -, h⟩ := Except.bind_eq_ok.1 h
    obtain ⟨hlookup, hmem⟩ := ih h
    refine ⟨fun id => ?_, fun entry hentry => ?_⟩
    · rw [hlookup, mappedTo_cons, Std.ExtTreeMap.getElem?_insert]
      by_cases hid : src = id
      · cases mappedTo rest id <;> simp [hid]
      · have hne : ¬ compare src id = .eq := fun hc => hid (Std.LawfulEqCmp.eq_of_compare hc)
        simp [hid, hne]
    · rcases List.mem_cons.1 hentry with rfl | hrest
      · exact ⟨Std.ExtTreeMap.mem_iff_isSome_getElem?.2 (by rw [okOr_eq_ok.1 hsrc]; rfl),
          Std.ExtTreeMap.mem_iff_isSome_getElem?.2 (by rw [okOr_eq_ok.1 htgt]; rfl)⟩
      · exact hmem entry hrest

/-! ## Open joins -/

/-- A gateway that collects tokens. -/
def ProcessDefinition.isJoin (d : ProcessDefinition) (join : ElementId) : Bool :=
  d.elements[join]?.any (·.kind == .parallelGateway) || d.elements[join]?.any (·.kind == .inclusiveGateway)

namespace ProcessInstance

/-- The tokens at a join stand for a number of its flows: it is a parallel gateway, or an inclusive one with tokens of no
flow. -/
def readsArity (i : ProcessInstance) (d : ProcessDefinition) (join : ElementId) : Bool :=
  d.elements[join]?.any (·.kind == .parallelGateway) ||
    d.elements[join]?.any (·.kind == .inclusiveGateway) && i.joinCounts[join]?.any (0 < ·)

/-- The flows a join has counted a token of. -/
def countedFlows (i : ProcessInstance) (join : ElementId) : List IncomingFlow :=
  ((i.joinFlowArrivals[join]?.map (·.entries)).getD []).map (·.1)

/-- An open join of `source` means the same in `target`: as many flows where their number counts, and every flow that was
counted. -/
structure JoinKept (i : ProcessInstance) (source target : ProcessDefinition) (remap : ElementId → ElementId)
    (join : ElementId) : Prop where
  arity : i.readsArity source join = true → source.incomingCount join = target.incomingCount (remap join)
  flows : source.isJoin join = true → ∀ flow ∈ i.countedFlows join,
    target.hasIncomingFlow (remap join) { flow with source := remap flow.source } = true

/-- The latest version reads an open join as the version the instance runs does. Where the latest version has no such join
the checks have compared nothing, and it is up to the target. -/
structure JoinAgrees (i : ProcessInstance) (running latest target : ProcessDefinition) (remap : ElementId → ElementId)
    (join : ElementId) : Prop where
  arity : i.readsArity running join = true →
    if i.readsArity latest join then running.incomingCount join = latest.incomingCount join
    else running.incomingCount join = target.incomingCount (remap join)
  flows : running.isJoin join = true → latest.isJoin join = false → ∀ flow ∈ i.countedFlows join,
    target.hasIncomingFlow (remap join) { flow with source := remap flow.source } = true

/-- A join that is kept from the latest version is kept from the running one when the two agree on it. -/
theorem JoinKept.iff_agrees {i : ProcessInstance} {running latest target : ProcessDefinition}
    {remap : ElementId → ElementId} {join : ElementId} (h : i.JoinKept latest target remap join) :
    i.JoinKept running target remap join ↔ i.JoinAgrees running latest target remap join := by
  constructor
  · intro hkept
    refine ⟨fun hreads => ?_, fun hjoin _ => hkept.flows hjoin⟩
    split
    · next hlatest => rw [hkept.arity hreads, h.arity hlatest]
    · exact hkept.arity hreads
  · intro hagrees
    refine ⟨fun hreads => ?_, fun hjoin => ?_⟩
    · have harity := hagrees.arity hreads
      split at harity
      · next hlatest => rw [harity, h.arity hlatest]
      · exact harity
    · by_cases hlatest : latest.isJoin join = true
      · exact h.flows hlatest
      · exact hagrees.flows hjoin (Bool.eq_false_iff.2 hlatest)

end ProcessInstance

/-- The check of an open join is that it is kept, for the definition it is given as the source. -/
theorem checkOpenJoin_eq_ok {i : ProcessInstance} {source target : ProcessDefinition} {mapped : StrMap ElementId}
    {join : ElementId} : checkOpenJoin i source target mapped join = .ok () ↔
      i.JoinKept source target (fun id => mapped[id]?.getD id) join := by
  have hflows : ∀ remap : ElementId → ElementId,
      (((i.joinFlowArrivals[join]?.map (·.entries)).getD []).forM fun p =>
        refuseIf (!target.hasIncomingFlow (remap join) ⟨remap p.1.source, p.1.ordinal⟩)
          (.migratedJoinFlowMissing i.key join (remap join) p.1.source p.1.ordinal)) = .ok () ↔
      ∀ flow ∈ i.countedFlows join, target.hasIncomingFlow (remap join) { flow with source := remap flow.source } = true := by
    intro remap
    rw [forM_eq_ok]
    simp [refuseIf_eq_ok, ProcessInstance.countedFlows]
  have hkept : i.JoinKept source target (fun id => mapped[id]?.getD id) join ↔
      (i.readsArity source join = true → source.incomingCount join = target.incomingCount (mapped[join]?.getD join)) ∧
      (source.isJoin join = true → ∀ flow ∈ i.countedFlows join,
        target.hasIncomingFlow (mapped[join]?.getD join) { flow with source := mapped[flow.source]?.getD flow.source } = true) :=
    ⟨fun h => ⟨h.arity, h.flows⟩, fun h => ⟨h.1, h.2⟩⟩
  rw [hkept, ← hflows fun id => mapped[id]?.getD id]
  unfold checkOpenJoin ProcessInstance.readsArity ProcessDefinition.isJoin
  generalize source.elements[join]?.any (·.kind == .parallelGateway) = parallel
  generalize source.elements[join]?.any (·.kind == .inclusiveGateway) = inclusive
  generalize i.joinCounts[join]?.any (0 < ·) = unidentified
  cases parallel <;> cases inclusive <;> cases unidentified <;>
    simp [Except.bind_eq_ok, refuseIf_eq_ok, pure, Except.pure]

/-- What an accepted migration has passed. -/
structure Migrates (s : State) (key targetKey : Key) (mappings : List (ElementId × ElementId)) (i : ProcessInstance)
    (latest target : DeployedProcess) : Prop where
  resident : s.instances[key]? = some i
  active : i.state = .active
  isLatest : s.processes[i.processId]? = some latest
  isTarget : s.processes.vals.find? (·.key == targetKey) = some target
  mapped : ∀ entry ∈ mappings, entry.1 ∈ latest.definition.elements ∧ entry.2 ∈ target.definition.elements
  unarmed : armedBoundaries s key = []
  activeMapped : ∀ id ∈ i.active.vals, (mappedTo mappings id).isSome = true
  joins : ∀ join ∈ i.joinInstances, i.JoinKept latest.definition target.definition (remapId mappings) join

theorem checkMigrateInstance_spec {e : Engine} {key targetKey : Key} {mappings : List (ElementId × ElementId)} {pid : String}
    (h : checkMigrateInstance e key targetKey mappings = .ok pid) :
    ∃ i latest target, Migrates e.state key targetKey mappings i latest target ∧ target.definition.id = pid := by
  unfold checkMigrateInstance at h
  obtain ⟨i, hi, h⟩ := Except.bind_eq_ok.1 h
  obtain ⟨target, htarget, h⟩ := Except.bind_eq_ok.1 h
  obtain ⟨latest, hlatest, h⟩ := Except.bind_eq_ok.1 h
  obtain ⟨mapped, hmapped, h⟩ := Except.bind_eq_ok.1 h
  obtain ⟨_, -, h⟩ := Except.bind_eq_ok.1 h
  -- the three kinds of element that no migration moves
  dsimp only at h
  split at h
  · cases h
  next hunarmed =>
  obtain ⟨_, -, h⟩ := Except.bind_eq_ok.1 h
  split at h
  · cases h
  obtain ⟨_, -, h⟩ := Except.bind_eq_ok.1 h
  split at h
  · cases h
  obtain ⟨_, -, h⟩ := Except.bind_eq_ok.1 h
  obtain ⟨_, hactive, h⟩ := Except.bind_eq_ok.1 h
  obtain ⟨_, hjoins, h⟩ := Except.bind_eq_ok.1 h
  obtain ⟨hresident, hstate⟩ := checkActive_ok hi
  obtain ⟨hlookup, hentries⟩ := checkMappings_spec hmapped
  have hsome : ∀ id : ElementId, mapped[id]? = mappedTo mappings id := by
    intro id
    simp [hlookup]
  have hremap : (fun id : ElementId => mapped[id]?.getD id) = remapId mappings := by
    funext id
    rw [hsome, remapId_eq]
  refine ⟨i, latest, target, ⟨hresident, hstate, okOr_eq_ok.1 hlatest, okOr_eq_ok.1 htarget, hentries, minString_eq_none.1 hunarmed,
    ?_, ?_⟩, ?_⟩
  · intro id hid
    have hcontains := forM_eq_ok.1 hactive id (mem_dedupSorted.2 (mem_sortStrings.2 hid))
    rw [refuseIf_eq_ok, Bool.not_eq_false', Std.ExtTreeMap.contains_eq_isSome_getElem?, hsome] at hcontains
    exact hcontains
  · intro join hjoin
    have hkept := forM_eq_ok.1 hjoins join (mem_sortStrings.2 (Std.ExtTreeMap.mem_keys.2 hjoin))
    rw [checkOpenJoin_eq_ok, hremap] at hkept
    exact hkept
  · cases h
    rfl

/-! ## The ids an instance holds -/

namespace ProcessInstance

/-- The tokens that wait at joins. -/
def waitingTokens (i : ProcessInstance) : Nat :=
  i.joinCounts.vals.sum + (i.joinFlowArrivals.vals.map (·.tokens)).sum

/-- The ids of the join tables: the joins, and the elements the waiting tokens came from. -/
def HoldsJoinId (i : ProcessInstance) (id : ElementId) : Prop :=
  id ∈ i.joinCounts ∨ id ∈ i.joinFlowArrivals ∨ id ∈ i.joinInstances ∨
    ∃ arrivals ∈ i.joinFlowArrivals.vals, arrivals.HasTokenFrom id

/-- The ids of the compensation subscriptions and of the throw events that wait for their handlers. -/
def compensationIds (i : ProcessInstance) : List ElementId :=
  i.compensable.flatMap (fun c => [c.elementId, c.handler]) ++
    i.compensationWaits.vals.flatMap fun w => w.throwElementId :: w.pendingHandlers

/-- The merge of unidentified arrivals. -/
def addCount (under : Option Nat) (count : Nat) : Nat := under.getD 0 + count

/-- The merge of renamed arrivals. -/
def addArrivals (remap : ElementId → ElementId) (under : Option FlowArrivals) (arrivals : FlowArrivals) : FlowArrivals :=
  (arrivals.remap remap).entries.foldl (fun m (flow, tokens) => m.add flow tokens) (under.getD {})

theorem tokens_addArrivals (remap : ElementId → ElementId) (under : Option FlowArrivals) (arrivals : FlowArrivals) :
    (addArrivals remap under arrivals).tokens = (under.map FlowArrivals.tokens).getD 0 + arrivals.tokens := by
  unfold addArrivals
  rw [FlowArrivals.tokens_addAll, ← FlowArrivals.tokens_remap arrivals remap]
  cases under <;> rfl

theorem hasTokenFrom_addArrivals {remap : ElementId → ElementId} {under : Option FlowArrivals} {arrivals : FlowArrivals}
    {id : ElementId} : (addArrivals remap under arrivals).HasTokenFrom id ↔
      (∃ a ∈ under, a.HasTokenFrom id) ∨ ∃ old, arrivals.HasTokenFrom old ∧ remap old = id := by
  unfold addArrivals
  rw [FlowArrivals.hasTokenFrom_addAll, ← FlowArrivals.hasTokenFrom_remap]
  cases under with
  | none => simp [FlowArrivals.HasTokenFrom]
  | some a => simp [FlowArrivals.HasTokenFrom]

section

variable (i : ProcessInstance) (targetProcessId : String) (targetKey : Key) (remap : ElementId → ElementId)

theorem joinCounts_migrate :
    (i.migrate targetProcessId targetKey remap).joinCounts = rekey remap addCount i.joinCounts.toList ∅ :=
  Std.ExtTreeMap.foldl_eq_foldl_toList

theorem joinFlowArrivals_migrate : (i.migrate targetProcessId targetKey remap).joinFlowArrivals =
    rekey remap (addArrivals remap) i.joinFlowArrivals.toList ∅ :=
  Std.ExtTreeMap.foldl_eq_foldl_toList

theorem joinInstances_migrate :
    (i.migrate targetProcessId targetKey remap).joinInstances = rekey remap keepLeast i.joinInstances.toList ∅ := by
  unfold migrate
  dsimp only
  rw [Std.ExtTreeMap.foldl_eq_foldl_toList]
  unfold rekey
  congr 1
  funext acc entry
  congr 1
  cases acc[remap entry.1]? <;> rfl

/-- Joins may be merged, but no token is lost. -/
theorem waitingTokens_migrate : (i.migrate targetProcessId targetKey remap).waitingTokens = i.waitingTokens := by
  have hcounts := sum_vals_rekey (f := remap) (g := addCount) (w := id) (v := id)
    (fun under count => by cases under <;> rfl) i.joinCounts.toList (∅ : StrMap Nat)
  have hflows := sum_vals_rekey (f := remap) (tokens_addArrivals remap) i.joinFlowArrivals.toList (∅ : StrMap FlowArrivals)
  rw [← joinCounts_migrate i targetProcessId targetKey] at hcounts
  rw [← joinFlowArrivals_migrate i targetProcessId targetKey] at hflows
  have hnone : (∅ : StrMap Nat).vals = [] := rfl
  have hnone' : (∅ : StrMap FlowArrivals).vals = [] := rfl
  unfold waitingTokens
  rw [hflows, hnone', ← List.map_id (i.migrate targetProcessId targetKey remap).joinCounts.vals, hcounts, hnone]
  simp [Std.ExtTreeMap.vals, Function.comp_def]

/-- The ids of the join tables are renamed. -/
theorem holdsJoinId_migrate {id : ElementId} :
    (i.migrate targetProcessId targetKey remap).HoldsJoinId id ↔ ∃ old, i.HoldsJoinId old ∧ remap old = id := by
  have hkeys : ∀ {β : Type} {m : StrMap β}, (∃ entry ∈ m.toList, remap entry.1 = id) ↔ ∃ old ∈ m, remap old = id := by
    intro β m
    constructor
    · rintro ⟨entry, hentry, heq⟩
      exact ⟨entry.1, Std.ExtTreeMap.mem_iff_isSome_getElem?.2
        (by rw [Std.ExtTreeMap.mem_toList_iff_getElem?_eq_some.1 hentry]; rfl), heq⟩
    · rintro ⟨old, hold, heq⟩
      obtain ⟨v, hv⟩ := Option.isSome_iff_exists.1 (Std.ExtTreeMap.mem_iff_isSome_getElem?.1 hold)
      exact ⟨(old, v), Std.ExtTreeMap.mem_toList_iff_getElem?_eq_some.2 hv, heq⟩
  have hsources := exists_mem_vals_rekey (f := remap) (p := (FlowArrivals.HasTokenFrom · id))
    (fun under arrivals => @hasTokenFrom_addArrivals remap under arrivals id) i.joinFlowArrivals.toList (∅ : StrMap FlowArrivals)
  unfold HoldsJoinId
  rw [joinCounts_migrate, joinFlowArrivals_migrate, joinInstances_migrate, mem_rekey, mem_rekey, mem_rekey, hkeys, hkeys,
    hkeys, hsources]
  constructor
  · rintro (⟨old, hold, heq⟩ | ⟨old, hold, heq⟩ | ⟨old, hold, heq⟩ | ⟨a, ha, -⟩ | ⟨entry, hentry, old, hold, heq⟩)
    · exact ⟨old, .inl hold, heq⟩
    · exact ⟨old, .inr (.inl hold), heq⟩
    · exact ⟨old, .inr (.inr (.inl hold)), heq⟩
    · cases ha
    · exact ⟨old, .inr (.inr (.inr ⟨entry.2, List.mem_map_of_mem hentry, hold⟩)), heq⟩
  · rintro ⟨old, hold | hold | hold | ⟨arrivals, harrivals, hold⟩, heq⟩
    · exact .inl ⟨old, hold, heq⟩
    · exact .inr (.inl ⟨old, hold, heq⟩)
    · exact .inr (.inr (.inl ⟨old, hold, heq⟩))
    · obtain ⟨entry, hentry, rfl⟩ := List.mem_map.1 harrivals
      exact .inr (.inr (.inr (.inr ⟨entry, hentry, old, hold, heq⟩)))

end

end ProcessInstance

/-- A job that is not over. -/
def JobState.isPending : JobState → Bool
  | .created | .activated | .failed => true
  | .errored | .canceled | .completed => false

def MessageSubscriptionState.isOpen : MessageSubscriptionState → Bool
  | .opened | .opening => true
  | .correlated | .canceled => false

/-- The ids of what is attached to the elements of an instance and is not over. -/
def State.attachedIds (s : State) (key : Key) : List ElementId :=
  (s.jobs.vals.filter fun j => j.instanceKey == key && j.state.isPending).map (·.elementId) ++
    (s.timers.vals.filter fun t => t.instanceKey == key && t.state == .created).map (·.elementId) ++
    (s.messageSubscriptions.vals.filter fun x => x.instanceKey == key && x.state.isOpen).map (·.elementId) ++
    (s.signalSubscriptions.vals.filter fun x => x.instanceKey == key && x.state.isOpen).map (·.elementId) ++
    (s.conditionalSubscriptions.vals.filter fun x => x.instanceKey == key && x.state.isOpen).map (·.elementId) ++
    (s.userTasks.vals.filter fun t => t.instanceKey == key && t.state == .created).map (·.elementId) ++
    (s.incidents.vals.filter fun x => x.instanceKey == key && x.state == .active).map (·.elementId)

section

variable (s : State) (key : Key) (targetProcessId : String) (targetKey : Key) (mappings : List (ElementId × ElementId))

theorem instances_processInstanceMigrated :
    (applyInstance s (.processInstanceMigrated key targetProcessId targetKey mappings)).instances =
      s.instances.modify key (·.migrate targetProcessId targetKey (remapId mappings)) := by
  unfold applyInstance
  dsimp only
  split
  · rfl
  · exact instances_decrementInflightByProcess _ _

theorem jobs_processInstanceMigrated :
    (applyInstance s (.processInstanceMigrated key targetProcessId targetKey mappings)).jobs =
      s.jobs.map fun _ j => j.rename key (remapId mappings) := by
  unfold applyInstance
  dsimp only
  split
  · rfl
  · have hjobs : ∀ (t : State) (p : Option String), (decrementInflightByProcess t p).jobs = t.jobs :=
      fun t p => congrArg JobView.jobs (jobView_decrementInflightByProcess t p)
    rw [hjobs]
    rfl

/-- What is attached to the elements is renamed table by table. -/
theorem attachedIds_processInstanceMigrated :
    (applyInstance s (.processInstanceMigrated key targetProcessId targetKey mappings)).attachedIds key =
      (s.attachedIds key).map (remapId mappings) := by
  have hview := entityView_processInstanceMigrated s key targetProcessId targetKey mappings
  have hjobs := jobs_processInstanceMigrated s key targetProcessId targetKey mappings
  generalize applyInstance s (.processInstanceMigrated key targetProcessId targetKey mappings) = t at hview hjobs
  unfold State.entityView EntityView.rename at hview
  injection hview with htimers hmessages hsignals hconditionals htasks hincidents _
  unfold State.attachedIds
  rw [hjobs, htimers, hmessages, hsignals, hconditionals, htasks, hincidents]
  simp only [List.map_append]
  unfold Job.rename
  repeat' apply congrArg₂ (· ++ ·)
  all_goals
    refine Std.ExtTreeMap.map_filter_vals_map (fun v => ?_) fun v hlook => ?_
    · split <;> rfl
    · rw [if_pos (beq_iff_eq.1 (Bool.and_eq_true_iff.1 hlook).1)]

/-- A boundary event is named by the kind of what it waits for, which a migration leaves alone. -/
theorem armedBoundaries_processInstanceMigrated :
    armedBoundaries (applyInstance s (.processInstanceMigrated key targetProcessId targetKey mappings)) key =
      armedBoundaries s key := by
  have hview := entityView_processInstanceMigrated s key targetProcessId targetKey mappings
  generalize applyInstance s (.processInstanceMigrated key targetProcessId targetKey mappings) = t at hview
  unfold State.entityView EntityView.rename at hview
  injection hview with htimers hmessages hsignals hconditionals _ _ _
  unfold armedBoundaries
  rw [htimers, hmessages, hsignals, hconditionals]
  repeat' apply congrArg₂ (· ++ ·)
  all_goals
    refine Std.ExtTreeMap.filterMap_filter_vals_map (fun v => ?_) fun v => ?_
    · split <;> rfl
    · split <;> rfl

end

/-- The instance holds the id: for an element, a join, something attached to an element, or a compensation. -/
def State.HoldsId (s : State) (key : Key) (i : ProcessInstance) (id : ElementId) : Prop :=
  id ∈ i.active.vals ∨ i.HoldsJoinId id ∨ id ∈ s.attachedIds key ∨ id ∈ armedBoundaries s key ∨ id ∈ i.compensationIds

/-- What a migration of `i` to `i'` leaves behind: only ids of the target, the same element instances for the open joins,
and as many waiting tokens. -/
structure RuntimeKept (s : State) (key : Key) (i i' : ProcessInstance) (target : ProcessDefinition)
    (remap : ElementId → ElementId) : Prop where
  ids : ∀ id, s.HoldsId key i' id → id ∈ target.elements
  joins : ∀ (join : ElementId) (eik : Key), i.joinInstances[join]? = some eik → eik ∈ i.active →
    i'.joinInstances[remap join]? = some eik
  tokens : i'.waitingTokens = i.waitingTokens

/-- What has to hold before: an id that is not mapped is one of the target's, those of the compensations are in any case,
and no open join is mapped onto the place of one with a smaller key. -/
structure Movable (s : State) (key : Key) (i : ProcessInstance) (target : ProcessDefinition)
    (mappings : List (ElementId × ElementId)) : Prop where
  ids : ∀ id, i.HoldsJoinId id ∨ id ∈ s.attachedIds key → mappedTo mappings id = none → id ∈ target.elements
  compensation : ∀ id ∈ i.compensationIds, id ∈ target.elements
  joins : ∀ (join : ElementId) (eik : Key), i.joinInstances[join]? = some eik → eik ∈ i.active →
    ∀ (other : ElementId) (eik' : Key), i.joinInstances[other]? = some eik' →
      remapId mappings other = remapId mappings join → eik ≤ eik'

namespace Migrates

variable {s : State} {key targetKey : Key} {mappings : List (ElementId × ElementId)} {i : ProcessInstance}
  {latest target : DeployedProcess}

/-- A mapped id is sent to an element of the target. -/
theorem remapId_mem_iff (h : Migrates s key targetKey mappings i latest target) {id : ElementId} :
    remapId mappings id ∈ target.definition.elements ↔ (mappedTo mappings id = none → id ∈ target.definition.elements) := by
  rw [remapId_eq]
  cases hmapped : mappedTo mappings id with
  | none => simp
  | some tgt =>
    have htgt := (h.mapped _ (mem_of_mappedTo hmapped)).2
    simpa using htgt

theorem runtimeKept_iff (h : Migrates s key targetKey mappings i latest target) {targetProcessId : String} :
    RuntimeKept (applyInstance s (.processInstanceMigrated key targetProcessId targetKey mappings)) key i
        (i.migrate targetProcessId targetKey (remapId mappings)) target.definition (remapId mappings) ↔
      Movable s key i target.definition mappings := by
  have hactive : (i.migrate targetProcessId targetKey (remapId mappings)).active.vals = i.active.vals.map (remapId mappings) :=
    Std.ExtTreeMap.vals_map _ _
  have hattached := attachedIds_processInstanceMigrated s key targetProcessId targetKey mappings
  have harmed : armedBoundaries (applyInstance s (.processInstanceMigrated key targetProcessId targetKey mappings)) key = [] := by
    rw [armedBoundaries_processInstanceMigrated, h.unarmed]
  have hjoins : ∀ (join : ElementId) (eik : Key), i.joinInstances[join]? = some eik →
      ((i.migrate targetProcessId targetKey (remapId mappings)).joinInstances[remapId mappings join]? = some eik ↔
        ∀ (other : ElementId) (eik' : Key), i.joinInstances[other]? = some eik' →
          remapId mappings other = remapId mappings join → eik ≤ eik') := by
    intro join eik hjoin
    have hmem := Std.ExtTreeMap.mem_toList_iff_getElem?_eq_some.2 hjoin
    rw [ProcessInstance.joinInstances_migrate, getElem?_rekey_keepLeast hmem]
    simp only [Prod.forall, Std.ExtTreeMap.mem_toList_iff_getElem?_eq_some]
  constructor
  · intro hkept
    refine ⟨fun id hheld => ?_, fun id hid => hkept.ids id (.inr (.inr (.inr (.inr hid)))), fun join eik hjoin hin =>
      (hjoins join eik hjoin).1 (hkept.joins join eik hjoin hin)⟩
    refine h.remapId_mem_iff.1 (hkept.ids _ ?_)
    rcases hheld with hheld | hheld
    · exact .inr (.inl ((i.holdsJoinId_migrate _ _ _).2 ⟨id, hheld, rfl⟩))
    · refine .inr (.inr (.inl ?_))
      rw [hattached]
      exact List.mem_map_of_mem hheld
  · intro hmovable
    refine ⟨?_, fun join eik hjoin hin => (hjoins join eik hjoin).2 (hmovable.joins join eik hjoin hin),
      i.waitingTokens_migrate _ _ _⟩
    rintro id (hid | hid | hid | hid | hid)
    · rw [hactive] at hid
      obtain ⟨old, hold, rfl⟩ := List.mem_map.1 hid
      refine h.remapId_mem_iff.2 fun hnone => ?_
      have hsome := h.activeMapped old hold
      rw [hnone] at hsome
      cases hsome
    · obtain ⟨old, hold, rfl⟩ := (i.holdsJoinId_migrate _ _ _).1 hid
      exact h.remapId_mem_iff.2 (hmovable.ids old (.inl hold))
    · rw [hattached] at hid
      obtain ⟨old, hold, rfl⟩ := List.mem_map.1 hid
      exact h.remapId_mem_iff.2 (hmovable.ids old (.inr hold))
    · rw [harmed] at hid
      cases hid
    · exact hmovable.compensation id hid

end Migrates

namespace Engine

section

variable [Feel]

/-- A migration is accepted when it passes the checks, and then the one event is applied. -/
theorem planCommandAt_migrateInstance {e : Engine} {now : Nat} {key targetKey : Key}
    {mappings : List (ElementId × ElementId)} {s : PlanState}
    (h : e.planCommandAt (.migrateInstance key targetKey mappings) now = (.ok (), s)) :
    ∃ i latest target, Migrates e.state key targetKey mappings i latest target ∧
      s.engine.state = NanoBpm.apply e.state (.processInstanceMigrated key target.definition.id targetKey mappings) := by
  have hplan : e.planCommandAt (.migrateInstance key targetKey mappings) now =
      match checkMigrateInstance e key targetKey mappings with
      | .error err => (.error err, { engine := e.beginCommand now })
      | .ok pid => (.ok (), ((Plan.emit (.processInstanceMigrated key pid targetKey mappings)).run
          { engine := e.beginCommand now }).2) := by
    have hcheck : checkMigrateInstance (e.beginCommand now) key targetKey mappings =
        checkMigrateInstance e key targetKey mappings := rfl
    rw [← hcheck]
    unfold planCommandAt planCommand
    cases hc : checkMigrateInstance (e.beginCommand now) key targetKey mappings <;>
      simp [bind, Cmd.check, Cmd.plan, hc]
  rw [hplan] at h
  cases hcheck : checkMigrateInstance e key targetKey mappings with
  | error err =>
    rw [hcheck] at h
    cases h
  | ok pid =>
    rw [hcheck] at h
    obtain ⟨i, latest, target, hmigrates, rfl⟩ := checkMigrateInstance_spec hcheck
    obtain ⟨-, hs⟩ := Prod.mk.inj h
    refine ⟨i, latest, target, hmigrates, ?_⟩
    rw [← hs]
    exact PlanState.state_applyEvent _ _

/-- An accepted migration keeps every open join of the version the instance runs if and only if the latest version, which
the checks were made against, agrees with it on the open joins. -/
theorem migration_keeps_joins_iff (e : Engine) (now : Nat) (key targetKey : Key) (mappings : List (ElementId × ElementId))
    (s : PlanState) (h : e.planCommandAt (.migrateInstance key targetKey mappings) now = (.ok (), s))
    (i : ProcessInstance) (hi : e.state.instances[key]? = some i)
    (running latest target : DeployedProcess) (hrunning : e.state.definitionFor i = some running)
    (hlatest : e.state.processes[i.processId]? = some latest)
    (htarget : e.state.processes.vals.find? (·.key == targetKey) = some target) :
    (∀ join ∈ i.joinInstances, i.JoinKept running.definition target.definition (remapId mappings) join) ↔
      ∀ join ∈ i.joinInstances,
        i.JoinAgrees running.definition latest.definition target.definition (remapId mappings) join := by
  obtain ⟨i', latest', target', hmigrates, -⟩ := planCommandAt_migrateInstance h
  obtain rfl : i' = i := Option.some.inj (hmigrates.resident.symm.trans hi)
  obtain rfl : latest' = latest := Option.some.inj (hmigrates.isLatest.symm.trans hlatest)
  obtain rfl : target' = target := Option.some.inj (hmigrates.isTarget.symm.trans htarget)
  constructor
  · intro hkept join hjoin
    exact (hmigrates.joins join hjoin).iff_agrees.1 (hkept join hjoin)
  · intro hagrees join hjoin
    exact (hmigrates.joins join hjoin).iff_agrees.2 (hagrees join hjoin)

/-- An accepted migration leaves the instance with ids of the target only, with its open joins and with its tokens if and
only if it could be moved. -/
theorem migration_keeps_runtime_iff (e : Engine) (now : Nat) (key targetKey : Key) (mappings : List (ElementId × ElementId))
    (s : PlanState) (h : e.planCommandAt (.migrateInstance key targetKey mappings) now = (.ok (), s))
    (i i' : ProcessInstance) (hi : e.state.instances[key]? = some i) (hi' : s.engine.state.instances[key]? = some i')
    (target : DeployedProcess) (htarget : e.state.processes.vals.find? (·.key == targetKey) = some target) :
    RuntimeKept s.engine.state key i i' target.definition (remapId mappings) ↔
      Movable e.state key i target.definition mappings := by
  obtain ⟨i₀, latest, target', hmigrates, hstate⟩ := planCommandAt_migrateInstance h
  obtain rfl : i₀ = i := Option.some.inj (hmigrates.resident.symm.trans hi)
  obtain rfl : target' = target := Option.some.inj (hmigrates.isTarget.symm.trans htarget)
  have hmigrated : i' = i₀.migrate target'.definition.id targetKey (remapId mappings) := by
    have hinstances := instances_processInstanceMigrated e.state key target'.definition.id targetKey mappings
    have hsame : s.engine.state.instances[key]? = (applyInstance e.state
      (.processInstanceMigrated key target'.definition.id targetKey mappings)).instances[key]? := by rw [hstate]; rfl
    rw [hsame, hinstances, Std.ExtTreeMap.getElem?_modify_self, hi] at hi'
    exact (Option.some.inj hi').symm
  rw [hstate, hmigrated]
  exact hmigrates.runtimeKept_iff

end

/-- A join behind a fork, with a flow from `label` to it or past it. -/
def packAndLabel (labelTarget : ElementId) : ProcessDefinition where
  id := "order"
  startEvent := "start"
  elements := ({} : StrMap Element)
    |>.insert "start" { id := "start", kind := .startEvent, outgoing := [{ target := "fork" }] }
    |>.insert "fork" { id := "fork", kind := .parallelGateway,
                       outgoing := [{ target := "join" }, { target := "pack" }, { target := "label" }] }
    |>.insert "pack" { id := "pack", kind := .serviceTask "work" none none [] [], outgoing := [{ target := "join" }] }
    |>.insert "label" { id := "label", kind := .serviceTask "work" none none [] [], outgoing := [{ target := labelTarget }] }
    |>.insert "join" { id := "join", kind := .parallelGateway, outgoing := [{ target := "end" }] }
    |>.insert "end" { id := "end", kind := .endEvent }

/-- The version with the flow from `label` past the join. -/
def shortened : ProcessDefinition :=
  packAndLabel "end"

/-- The version in which another worker makes the label. -/
def relabelled : ProcessDefinition :=
  { packAndLabel "join" with
    elements := (packAndLabel "join").elements.insert "label"
      { id := "label", kind := .serviceTask "print" none none [] [], outgoing := [{ target := "join" }] } }

/-- An instance of the first version has one of three tokens at its join when the second version is deployed. -/
def halfOpenJoin (second : ProcessDefinition) : Engine :=
  (@runCalls Feel.refusing 60 (withPartition 0)
    [.applyCommandAt (.deployProcess (packAndLabel "join")) 0,
      .applyCommandAt (.createInstance "order" ∅ [] none none none) 0,
      .applyCommandAt (.deployProcess second) 0]).2

def sameIds : List (ElementId × ElementId) := [("join", "join"), ("pack", "pack"), ("label", "label")]

theorem eq_ok_of_isOk {x : Except EngineError Unit × PlanState} (h : x.1.isOk = true) : x = (.ok (), x.2) := by
  obtain ⟨result, s⟩ := x
  cases result with
  | error err => cases h
  | ok u => rfl

/-- The second version has the join with two flows only. The migration onto it is checked against itself, and the token of
one flow is read as one of two. -/
theorem migration_loses_a_flow :
    ∃ s i running target,
      @planCommandAt Feel.refusing (halfOpenJoin shortened) (.migrateInstance 3 12 sameIds) 0 = (.ok (), s) ∧
      (halfOpenJoin shortened).state.instances[3]? = some i ∧ (halfOpenJoin shortened).state.definitionFor i = some running ∧
      (halfOpenJoin shortened).state.processes.vals.find? (·.key == 12) = some target ∧
      "join" ∈ i.joinInstances ∧ running.definition.incomingCount "join" = 3 ∧ target.definition.incomingCount "join" = 2 ∧
      ¬ ∀ join ∈ i.joinInstances, i.JoinKept running.definition target.definition (remapId sameIds) join := by
  have haccepted : (@planCommandAt Feel.refusing (halfOpenJoin shortened) (.migrateInstance 3 12 sameIds) 0).1.isOk = true := by
    decide +kernel
  have hview : ((halfOpenJoin shortened).state.instances[3]?.bind fun i =>
      ((halfOpenJoin shortened).state.definitionFor i).bind fun running =>
      ((halfOpenJoin shortened).state.processes.vals.find? (·.key == 12)).map fun target =>
        (i.joinInstances.contains "join", i.readsArity running.definition "join",
          running.definition.incomingCount "join", target.definition.incomingCount "join")) = some (true, true, 3, 2) := by
    decide +kernel
  obtain ⟨i, hi, hview⟩ := Option.bind_eq_some_iff.1 hview
  obtain ⟨running, hrunning, hview⟩ := Option.bind_eq_some_iff.1 hview
  obtain ⟨target, htarget, hview⟩ := Option.map_eq_some_iff.1 hview
  simp only [Prod.mk.injEq] at hview
  obtain ⟨hopen, hreads, hthree, htwo⟩ := hview
  refine ⟨_, i, running, target, eq_ok_of_isOk haccepted, hi, hrunning, htarget,
    Std.ExtTreeMap.mem_iff_contains.2 hopen, hthree, htwo, fun hkept => ?_⟩
  have harity := (hkept "join" (Std.ExtTreeMap.mem_iff_contains.2 hopen)).arity hreads
  rw [hthree, show remapId sameIds "join" = "join" from by decide +kernel, htwo] at harity
  cases harity

/-- The second version has the join with three flows too. The instance moves onto it, and its open join is kept. -/
theorem migration_keeps_join :
    ∃ s i running target,
      @planCommandAt Feel.refusing (halfOpenJoin relabelled) (.migrateInstance 3 12 sameIds) 0 = (.ok (), s) ∧
      (halfOpenJoin relabelled).state.instances[3]? = some i ∧ (halfOpenJoin relabelled).state.definitionFor i = some running ∧
      (halfOpenJoin relabelled).state.processes.vals.find? (·.key == 12) = some target ∧ "join" ∈ i.joinInstances ∧
      running.key ≠ target.key ∧
      ∀ join ∈ i.joinInstances, i.JoinKept running.definition target.definition (remapId sameIds) join := by
  have haccepted : (@planCommandAt Feel.refusing (halfOpenJoin relabelled) (.migrateInstance 3 12 sameIds) 0).1.isOk = true := by
    decide +kernel
  have hview : ((halfOpenJoin relabelled).state.instances[3]?.bind fun i =>
      ((halfOpenJoin relabelled).state.definitionFor i).bind fun running =>
      ((halfOpenJoin relabelled).state.processes[i.processId]?).bind fun latest =>
      ((halfOpenJoin relabelled).state.processes.vals.find? (·.key == 12)).map fun target =>
        (i.joinInstances.keys, i.readsArity latest.definition "join", running.definition.incomingCount "join",
          latest.definition.incomingCount "join", latest.definition.isJoin "join", running.key != target.key)) =
      some (["join"], true, 3, 3, true, true) := by
    decide +kernel
  obtain ⟨i, hi, hview⟩ := Option.bind_eq_some_iff.1 hview
  obtain ⟨running, hrunning, hview⟩ := Option.bind_eq_some_iff.1 hview
  obtain ⟨latest, hlatest, hview⟩ := Option.bind_eq_some_iff.1 hview
  obtain ⟨target, htarget, hview⟩ := Option.map_eq_some_iff.1 hview
  simp only [Prod.mk.injEq] at hview
  obtain ⟨hopen, hreads, hthree, hlatestThree, hjoin, hother⟩ := hview
  have hmem : ∀ join, join ∈ i.joinInstances ↔ join = "join" := by
    intro join
    rw [← Std.ExtTreeMap.mem_keys, hopen, List.mem_singleton]
  refine ⟨_, i, running, target, eq_ok_of_isOk haccepted, hi, hrunning, htarget, (hmem "join").2 rfl,
    bne_iff_ne.1 hother, ?_⟩
  refine (@migration_keeps_joins_iff Feel.refusing _ 0 3 12 sameIds _ (eq_ok_of_isOk haccepted) i hi running latest target
    hrunning hlatest htarget).2 fun join hmember => ?_
  rw [(hmem join).1 hmember]
  refine ⟨fun _ => ?_, fun _ hnot => ?_⟩
  · rw [if_pos hreads, hthree, hlatestThree]
  · rw [hjoin] at hnot
    cases hnot

/-- A task that can be compensated before the one that packs. -/
def chargeAndPack : ProcessDefinition where
  id := "order"
  startEvent := "start"
  elements := ({} : StrMap Element)
    |>.insert "start" { id := "start", kind := .startEvent, outgoing := [{ target := "charge" }] }
    |>.insert "charge" { id := "charge", kind := .serviceTask "charge" none none [] [], outgoing := [{ target := "pack" }] }
    |>.insert "charged" { id := "charged", kind := .compensationBoundaryEvent "charge" "refund" }
    |>.insert "refund" { id := "refund", kind := .serviceTask "refund" none none [] [] }
    |>.insert "pack" { id := "pack", kind := .serviceTask "work" none none [] [], outgoing := [{ target := "end" }] }
    |>.insert "end" { id := "end", kind := .endEvent }

/-- The first task is completed, the second waits, and a process with that task alone is deployed. -/
def chargedOrder : Engine :=
  (@runCalls Feel.refusing 60 (withPartition 0)
    [.setLenientCompletion true, .applyCommandAt (.deployProcess chargeAndPack) 0,
      .applyCommandAt (.createInstance "order" ∅ [] none none none) 0,
      .applyCommandAt (.completeJob 6 none ∅ none none) 0,
      .applyCommandAt (.deployProcess { oneTaskProcess with id := "shipment" }) 0]).2

/-- The one active element is mapped, and the subscription of the completed task keeps naming a handler that the target does
not have. -/
theorem migration_leaves_compensation :
    ∃ s i i' target,
      @planCommandAt Feel.refusing chargedOrder (.migrateInstance 3 10 [("pack", "pack")]) 0 = (.ok (), s) ∧
      chargedOrder.state.instances[3]? = some i ∧ s.engine.state.instances[3]? = some i' ∧
      chargedOrder.state.processes.vals.find? (·.key == 10) = some target ∧
      "refund" ∈ i'.compensationIds ∧ "refund" ∉ target.definition.elements ∧
      ¬ RuntimeKept s.engine.state 3 i i' target.definition (remapId [("pack", "pack")]) := by
  have haccepted : (@planCommandAt Feel.refusing chargedOrder (.migrateInstance 3 10 [("pack", "pack")]) 0).1.isOk = true := by
    decide +kernel
  have hbefore : chargedOrder.state.instances[3]?.isSome = true := by decide +kernel
  have hafter : (@planCommandAt Feel.refusing chargedOrder (.migrateInstance 3 10 [("pack", "pack")])
      0).2.engine.state.instances[3]?.map (·.compensationIds) = some ["charge", "refund"] := by decide +kernel
  have hdeployed : (chargedOrder.state.processes.vals.find? (·.key == 10)).map (·.definition.elements.contains "refund") =
      some false := by decide +kernel
  obtain ⟨i, hi⟩ := Option.isSome_iff_exists.1 hbefore
  obtain ⟨i', hi', hids⟩ := Option.map_eq_some_iff.1 hafter
  obtain ⟨target, htarget, habsent⟩ := Option.map_eq_some_iff.1 hdeployed
  have hrefund : "refund" ∈ i'.compensationIds := by
    rw [hids]
    simp
  have hnot : "refund" ∉ target.definition.elements := by
    rw [Std.ExtTreeMap.mem_iff_contains, habsent]
    simp
  exact ⟨_, i, i', target, eq_ok_of_isOk haccepted, hi, hi', htarget, hrefund, hnot, fun hkept =>
    hnot (hkept.ids "refund" (.inr (.inr (.inr (.inr hrefund)))))⟩

/-- Without compensations and with one open join, all of it mapped, everything is kept. -/
theorem migration_keeps_runtime :
    ∃ s i i' target,
      @planCommandAt Feel.refusing (halfOpenJoin shortened) (.migrateInstance 3 12 sameIds) 0 = (.ok (), s) ∧
      (halfOpenJoin shortened).state.instances[3]? = some i ∧ s.engine.state.instances[3]? = some i' ∧
      (halfOpenJoin shortened).state.processes.vals.find? (·.key == 12) = some target ∧ i.waitingTokens = 1 ∧
      RuntimeKept s.engine.state 3 i i' target.definition (remapId sameIds) := by
  have haccepted : (@planCommandAt Feel.refusing (halfOpenJoin shortened) (.migrateInstance 3 12 sameIds) 0).1.isOk = true := by
    decide +kernel
  have hafter : (@planCommandAt Feel.refusing (halfOpenJoin shortened) (.migrateInstance 3 12 sameIds)
      0).2.engine.state.instances[3]?.isSome = true := by decide +kernel
  have hview : (halfOpenJoin shortened).state.instances[3]?.map (fun i =>
      (i.waitingTokens, i.joinCounts.keys, i.joinFlowArrivals.keys, i.joinInstances.keys, i.compensationIds)) =
      some (1, [], ["join"], ["join"], []) := by decide +kernel
  have hflows : (halfOpenJoin shortened).state.instances[3]?.map (·.joinFlowArrivals.vals) =
      some [⟨[(⟨"fork", 0⟩, 1)]⟩] := by decide +kernel
  have hdeployed : ((halfOpenJoin shortened).state.processes.vals.find? (·.key == 12)).map
      (·.definition.elements.contains "fork") = some true := by decide +kernel
  have hmapped : (mappedTo sameIds "join").isSome = true := by decide +kernel
  have hattached : ((halfOpenJoin shortened).state.attachedIds 3).all (fun id => (mappedTo sameIds id).isSome) = true := by
    decide +kernel
  obtain ⟨i, hi, hview⟩ := Option.map_eq_some_iff.1 hview
  obtain ⟨target, htarget, hdeployed⟩ := Option.map_eq_some_iff.1 hdeployed
  obtain ⟨i', hi'⟩ := Option.isSome_iff_exists.1 hafter
  rw [hi, Option.map_some, Option.some.injEq] at hflows
  simp only [Prod.mk.injEq] at hview
  obtain ⟨htokens, hcounts, harrivals, hjoins, hcompensation⟩ := hview
  have hjoin : ∀ join, join ∈ i.joinInstances → join = "join" := by
    intro join hmem
    rw [← Std.ExtTreeMap.mem_keys, hjoins, List.mem_singleton] at hmem
    exact hmem
  refine ⟨_, i, i', target, eq_ok_of_isOk haccepted, hi, hi', htarget, htokens, ?_⟩
  refine (@migration_keeps_runtime_iff Feel.refusing _ 0 3 12 sameIds _ (eq_ok_of_isOk haccepted) i i' hi hi' target
    htarget).2 ⟨?_, ?_, ?_⟩
  · rintro id ((hid | hid | hid | ⟨arrivals, hmem, entry, hentry, -, hsource⟩) | hid) hnone
    · rw [← Std.ExtTreeMap.mem_keys, hcounts] at hid
      cases hid
    · rw [← Std.ExtTreeMap.mem_keys, harrivals, List.mem_singleton] at hid
      rw [hid] at hnone
      rw [hnone] at hmapped
      cases hmapped
    · rw [hjoin id hid] at hnone
      rw [hnone] at hmapped
      cases hmapped
    · rw [hflows, List.mem_singleton] at hmem
      rw [hmem, List.mem_singleton] at hentry
      rw [← hsource, hentry]
      exact Std.ExtTreeMap.mem_iff_contains.2 hdeployed
    · have hsome := List.all_eq_true.1 hattached id hid
      rw [hnone] at hsome
      cases hsome
  · rw [hcompensation]
    simp
  · intro join eik hin _ other eik' hin' _
    have hkey := hjoin join (Std.ExtTreeMap.mem_iff_isSome_getElem?.2 (by rw [hin]; rfl))
    have hkey' := hjoin other (Std.ExtTreeMap.mem_iff_isSome_getElem?.2 (by rw [hin']; rfl))
    rw [hkey] at hin
    rw [hkey'] at hin'
    exact Nat.le_of_eq (Option.some.inj (hin.symm.trans hin'))

end Engine

end NanoBpm
