import NanoBpm.Residency
import NanoBpm.Planner.Runs
import NanoBpm.Cells

/-!
# Retirement on replicas (`engine-core/src/engine/memory.rs:251-385`, `engine/mod.rs:1815-1833`)

The owner of a partition tells its replicas which instances are gone: by digests of retired keys, and by a low-water mark
below which everything has ended. A replica that has not yet applied the create of a retired key keeps a tombstone, and
reaps the instance when it comes. A node here is an engine with the snapshots its host keeps of spilled instances; the
ghost field `created` lists the instances its commands have created.
-/

namespace NanoBpm

/-! ## What a command does to the instance table -/

/-- The instance is in hot state. -/
def State.Resident (s : State) (k : Key) : Prop := s.instances.contains k = true

theorem resident_iff_cellOf {s : State} {k : Key} : s.Resident k ↔ (s.cellOf k).isSome = true := by
  unfold State.Resident State.cellOf
  rw [Std.ExtTreeMap.contains_eq_isSome_getElem?, Option.isSome_map]

theorem varKind_create_iff (e : Event) (k : Key) : (∃ vars, e.varKind k = .create vars) ↔ e.createdInstance = some k := by
  cases e <;> simp only [Event.varKind, Event.createdInstance, reduceCtorEq, exists_false, Option.some_inj] <;>
    split <;> simp_all

/-- An event adds the instance it creates, and takes none away. -/
theorem resident_apply_iff (s : State) (e : Event) (k : Key) :
    (apply s e).Resident k ↔ s.Resident k ∨ e.createdInstance = some k := by
  rw [resident_iff_cellOf, resident_iff_cellOf, cellOf_apply, VarCell.step_eq, ← varKind_create_iff]
  cases e.varKind k <;> simp [VarKind.run]

theorem resident_applyAll_iff (s : State) (log : List Event) (k : Key) :
    (applyAll s log).Resident k ↔ s.Resident k ∨ k ∈ log.filterMap Event.createdInstance := by
  induction log generalizing s with
  | nil => simp
  | cons e log ih =>
    rw [applyAll_cons, ih, resident_apply_iff, or_assoc]
    cases hcreated : e.createdInstance with
    | none => simp [hcreated]
    | some k' => simp [hcreated, eq_comm]

theorem Event.created_of_createdInstance {e : Event} {k : Key} (h : e.createdInstance = some k) : e.created = some k := by
  cases e <;> first | exact h | cases h

theorem MintedBetween.mono {s s₁ s₂ s' : PlanState} {k : Key} (h : MintedBetween s₁ s₂ k)
    (hbefore : s.engine.nextLocal ≤ s₁.engine.nextLocal) (hafter : s₂.engine.nextLocal ≤ s'.engine.nextLocal)
    (hpartition : s₁.engine.partitionId = s.engine.partitionId) : MintedBetween s s' k := by
  obtain ⟨n, hle, hlt, rfl⟩ := h
  exact ⟨n, by omega, by omega, by rw [hpartition]⟩

/-- What stretches create, they create under keys minted in them. -/
theorem Stretches.created {os : List Origin} {s s' : PlanState} {events : List Event} (h : Stretches os s s' events)
    {event : Event} (hevent : event ∈ events) {k : Key} (hk : event.created = some k) : MintedBetween s s' k := by
  induction h with
  | nil => cases hevent
  | cons hstretch hmore ih =>
    rcases List.mem_append.1 hevent with hevent | hevent
    · exact ((hstretch.allowed event hevent).minted k hk).mono (Nat.le_refl _) hmore.nextLocal rfl
    · exact (ih hevent).mono hstretch.nextLocal (Nat.le_refl _) hstretch.partitionId

namespace Engine

variable [Feel]

/-- The instances the plan of a command creates have keys it minted. -/
theorem createdInstance_planCommandAt (e : Engine) (command : Command) (now : Nat) {event : Event}
    (hevent : event ∈ (e.planCommandAt command now).2.log) {k : Key} (hk : event.createdInstance = some k) :
    MintedBetween { engine := e.beginCommand now } (e.planCommandAt command now).2 k := by
  cases hopened : command.opened with
  | some key =>
    -- the one command that is given a key opens a subscription under it, and creates no instance
    exfalso
    cases command with
    | openMessageSubscription subscriptionKey instanceKey elementInstanceKey elementId messageName correlationKey kind =>
      have hemits : (openMessageSubscription subscriptionKey instanceKey elementInstanceKey elementId messageName
          correlationKey kind).Emits (fun _ => True) fun event => event.createdInstance = none := by
        refine .bind Plan.emits_self fun e => ?_
        split
        · exact Plan.emits_emit (fun event h => Event.createdInstance_of_created (Plan.plain_of_ofAgent h).2.1) rfl
        · trivial
      obtain ⟨events, hlog, hnone⟩ := hemits.log { engine := e.beginCommand now } fun _ _ _ => trivial
      have hrun : (e.planCommandAt (.openMessageSubscription subscriptionKey instanceKey elementInstanceKey elementId
          messageName correlationKey kind) now).2.log = [] ++ events := hlog
      rw [hrun, List.nil_append] at hevent
      rw [hnone event hevent] at hk
      cases hk
    | _ => cases hopened
  | none =>
    -- any key but `k` may serve as the one that is there to mint
    let F : Key → Prop := fun key =>
      MintedBetween { engine := e.beginCommand now } (e.planCommandAt command now).2 key ∨ key = k + 1
    have hF : Plan.Mints F := ⟨k + 1, Or.inr rfl⟩
    obtain ⟨events, hlog, hallowed⟩ := within_planCommand (F := F) command (by simp [hopened])
      { engine := e.beginCommand now } fun n hn hlt => Or.inl ⟨n, hn, hlt, rfl⟩
    have hrun : (e.planCommandAt command now).2.log = [] ++ events := hlog
    rw [hrun, List.nil_append] at hevent
    rcases (hallowed event hevent).minted k (Event.created_of_createdInstance hk) with hminted | heq
    · exact hminted
    · exact absurd heq (Nat.ne_of_lt (Nat.lt_succ_self k))

/-- What a command, planned or refused, does to the instance table: its events, then the reaping of what was retired
before it was created. -/
theorem applyCommandAt_spec (fuel : Nat) (e : Engine) (command : Command) (now : Nat) :
    ∃ e' : Engine, e'.state = applyAll e.state (returned (e.applyCommandAt fuel command now).1) ∧
      e'.partitionId = e.partitionId ∧ e'.retiredTombstones = e.retiredTombstones ∧ e.nextLocal ≤ e'.nextLocal ∧
      (∀ k ∈ (returned (e.applyCommandAt fuel command now).1).filterMap Event.createdInstance,
        ∃ n, e.nextLocal ≤ n ∧ n < e'.nextLocal ∧ k = mintedKey e.partitionId n) ∧
      (e.applyCommandAt fuel command now).2 = e'.finishCommand (returned (e.applyCommandAt fuel command now).1) := by
  have hemits := emits_planCommandAt e command now
  have herror := @planCommandAt_of_error _ e command now
  have hplan := @minted_planCommandAt _ e command now
  have hcreated := @createdInstance_planCommandAt _ e command now
  unfold applyCommandAt
  generalize e.planCommandAt command now = planned at hemits herror hplan hcreated ⊢
  obtain ⟨result, s⟩ := planned
  cases result with
  | error err =>
    rw [show s = _ from herror rfl]
    refine ⟨e.beginCommand now, rfl, rfl, rfl, Nat.le_refl _, by simp [returned], ?_⟩
    simp only [returned, finishCommand, List.filterMap_nil, List.isEmpty_nil, if_true, ite_self]
  | ok u =>
    obtain ⟨log, hlog, hstate, hpartition, htombstones⟩ := hemits.trans (Plan.emits_run (settle fuel) s)
    obtain ⟨events, hevents⟩ := Plan.inStretches_settle fuel s
    have hnext : e.nextLocal ≤ s.engine.nextLocal := (hplan rfl).1
    have hpart : s.engine.partitionId = e.partitionId := hemits.choose_spec.2.2.1
    refine ⟨((settle fuel).run s).2.engine, ?_, hpartition, htombstones, hnext.trans hevents.nextLocal, ?_, rfl⟩
    · rw [show returned (.ok ((settle fuel).run s).2.log) = log from hlog]
      exact hstate
    · intro k hk
      obtain ⟨event, hevent, hk⟩ := List.mem_filterMap.1 hk
      have hsplit : event ∈ s.log ++ events := hevents.log ▸ hevent
      rcases List.mem_append.1 hsplit with hevent | hevent
      · obtain ⟨n, hle, hlt, heq⟩ := hcreated hevent hk
        exact ⟨n, hle, Nat.lt_of_lt_of_le hlt hevents.nextLocal, heq⟩
      · obtain ⟨n, hle, hlt, heq⟩ := hevents.created hevent (Event.created_of_createdInstance hk)
        exact ⟨n, hnext.trans hle, hlt, by rw [heq, hpart]⟩

end Engine

/-! ## Removals -/

theorem instances_removeInstances (victims : List Key) (s : State) (k : Key) :
    (victims.foldl State.removeInstance s).instances[k]? = if k ∈ victims then none else s.instances[k]? := by
  induction victims generalizing s with
  | nil => simp
  | cons v vs ih =>
    have hone : (s.removeInstance v).instances = s.instances.erase v := instances_takeJobs _ v
    rw [List.foldl_cons, ih, hone, Std.ExtTreeMap.getElem?_erase]
    by_cases hk : k = v
    · simp [hk]
    · simp [hk, Ne.symm hk]

/-- What a removal leaves of the instance table. -/
theorem instances_removeInstanceSet (e : Engine) (victims : List Key) (k : Key) :
    (e.removeInstanceSet victims).state.instances[k]? = if k ∈ victims then none else e.state.instances[k]? := by
  unfold Engine.removeInstanceSet
  split
  · next hempty =>
    rw [List.isEmpty_iff.1 hempty]
    simp
  · exact instances_removeInstances victims e.state k

theorem resident_removeInstanceSet_iff (e : Engine) (victims : List Key) (k : Key) :
    (e.removeInstanceSet victims).state.Resident k ↔ e.state.Resident k ∧ k ∉ victims := by
  unfold State.Resident
  rw [Std.ExtTreeMap.contains_eq_isSome_getElem?, Std.ExtTreeMap.contains_eq_isSome_getElem?, instances_removeInstanceSet]
  by_cases hk : k ∈ victims
  · simp [hk]
  · simp [hk]

theorem mem_foldl_erase (ks : List Key) (t : KeySet) (k : Key) :
    k ∈ ks.foldl (·.erase ·) t ↔ k ∈ t ∧ k ∉ ks := by
  induction ks generalizing t with
  | nil => simp
  | cons x ks ih =>
    rw [List.foldl_cons, ih, Std.ExtTreeSet.mem_erase]
    by_cases hx : x = k
    · simp [hx]
    · simp [hx, Ne.symm hx]

theorem removeInstanceSet_tombstones (e : Engine) (victims : List Key) :
    (e.removeInstanceSet victims).retiredTombstones = e.retiredTombstones := by
  unfold Engine.removeInstanceSet
  split <;> rfl

/-- Every instance of the later table is one of the earlier, under the same key. -/
def State.Within (s' s : State) : Prop :=
  ∀ (k : Key) (i' : ProcessInstance), s'.instances[k]? = some i' → ∃ i, s.instances[k]? = some i ∧ i'.key = i.key

theorem State.Within.refl (s : State) : s.Within s := fun _ i hi => ⟨i, hi, rfl⟩

theorem State.Within.resident {s s' : State} (h : s'.Within s) {k : Key} (hk : s'.Resident k) : s.Resident k := by
  unfold State.Resident at hk ⊢
  rw [Std.ExtTreeMap.contains_eq_isSome_getElem?, Option.isSome_iff_exists] at hk ⊢
  obtain ⟨i', hi'⟩ := hk
  obtain ⟨i, hi, -⟩ := h k i' hi'
  exact ⟨i, hi⟩

theorem State.Within.keyed {s s' : State} (h : s'.Within s) (hs : InstancesKeyed s) : InstancesKeyed s' := by
  intro k i' hi'
  obtain ⟨i, hi, hkey⟩ := h k i' hi'
  rw [hkey]
  exact hs k i hi

theorem within_modifyInstance (s : State) (key : Key) {f : ProcessInstance → ProcessInstance} (hf : ∀ i, (f i).key = i.key) :
    (s.modifyInstance key f).Within s := by
  intro k i' hi'
  simp only [State.modifyInstance, Std.ExtTreeMap.getElem?_modify, Std.LawfulEqCmp.compare_eq_iff_eq] at hi'
  split at hi'
  · next heq =>
    obtain ⟨i, hi, rfl⟩ := Option.map_eq_some_iff.1 hi'
    exact ⟨i, heq ▸ hi, hf i⟩
  · exact ⟨i', hi', rfl⟩

theorem within_removeInstanceSet (e : Engine) (victims : List Key) : (e.removeInstanceSet victims).state.Within e.state := by
  intro k i hi
  rw [instances_removeInstanceSet] at hi
  split at hi
  · cases hi
  · exact ⟨i, hi, rfl⟩

theorem within_evictInstance (e : Engine) (key : Key) : (e.evictInstance key).2.state.Within e.state := by
  unfold Engine.evictInstance
  split
  · intro k i hi
    have hone := instances_removeInstances [key] e.state k
    have hi' : (e.state.removeInstance key).instances[k]? = some i := hi
    rw [show (e.state.removeInstance key).instances[k]? = _ from hone] at hi'
    split at hi'
    · cases hi'
    · exact ⟨i, hi', rfl⟩
  · exact .refl _

theorem State.Within.trans {s s' s'' : State} (h' : s''.Within s') (h : s'.Within s) : s''.Within s := by
  intro k i'' hi''
  obtain ⟨i', hi', hkey'⟩ := h' k i'' hi''
  obtain ⟨i, hi, hkey⟩ := h k i' hi'
  exact ⟨i, hi, hkey'.trans hkey⟩

/-! ## Nodes -/

/-- An engine, the snapshots of the instances its host has spilled, and the keys of the instances that were created. -/
structure Node where
  engine : Engine
  cold : List InstanceSnapshot := []
  created : List Key := []

inductive NodeOp where
  | call (c : Engine.HostCall)
  | recoverLease (jobKey : Key) (deadline now : Nat)
  | evictInstance (key : Key)
  | evictInstances (keys : List Key)
  | evictCompleted
  | retireInstances (keys : List Key)
  | retireBelow (iter : List Key) (lowWater maxRemove : Nat)
  | spillVariables (key : Key)
  | rehydrateVariables (key : Key) (vars : Vars)
  | snapshotInstance (key : Key)
  | rehydrateInstance (key : Key)

namespace Node

def start (partitionId : Nat) : Node := { engine := Engine.withPartition partitionId }

section

variable [Feel]

def step (fuel : Nat) (n : Node) : NodeOp → Node
  | .call c =>
    { n with
      engine := (n.engine.call fuel c).2
      created := n.created ++ (n.engine.call fuel c).1.filterMap Event.createdInstance }
  | .recoverLease jobKey deadline now => { n with engine := (n.engine.recoverLease jobKey deadline now).2 }
  | .evictInstance key => { n with engine := (n.engine.evictInstance key).2 }
  | .evictInstances keys => { n with engine := n.engine.evictInstances keys }
  | .evictCompleted => { n with engine := n.engine.evictCompleted }
  | .retireInstances keys => { n with engine := n.engine.retireInstances keys }
  | .retireBelow iter lowWater maxRemove => { n with engine := (n.engine.retireBelow iter lowWater maxRemove).2 }
  | .spillVariables key => { n with engine := (n.engine.spillVariables key).2 }
  | .rehydrateVariables key vars => { n with engine := n.engine.rehydrateVariables key vars }
  | .snapshotInstance key =>
    match n.engine.snapshotInstance key with
    | (some snap, engine) => { n with engine, cold := snap :: n.cold }
    | (none, engine) => { n with engine }
  | .rehydrateInstance key =>
    match n.cold.find? (·.inst.key == key) with
    | some snap => { n with engine := n.engine.rehydrateInstance snap, cold := n.cold.eraseP (·.inst.key == key) }
    | none => n

def run (fuel : Nat) (n : Node) (ops : List NodeOp) : Node := ops.foldl (step fuel) n

/-- Every instance the node knows of has a key its engine minted. -/
structure Inv (n : Node) : Prop where
  keyed : InstancesKeyed n.engine.state
  resident : ∀ k, n.engine.state.Resident k → n.engine.Minted k
  cold : ∀ snap ∈ n.cold, n.engine.Minted snap.inst.key
  created : ∀ k ∈ n.created, n.engine.Minted k

omit [Feel] in
theorem inv_start (partitionId : Nat) : (start partitionId).Inv where
  keyed := by intro k i hi; simp [start, Engine.withPartition] at hi
  resident := by intro k hk; simp [start, Engine.withPartition, State.Resident] at hk
  cold := by intro snap hsnap; cases hsnap
  created := by intro k hk; cases hk

omit [Feel] in
theorem minted_mono {e e' : Engine} {k : Key} (h : e.Minted k) (hp : e'.partitionId = e.partitionId)
    (hn : e.nextLocal ≤ e'.nextLocal) : e'.Minted k := by
  obtain ⟨m, hm, rfl⟩ := h
  exact ⟨m, Nat.lt_of_lt_of_le hm hn, by rw [hp]⟩

omit [Feel] in
/-- No instance comes, and the counter does not go back. -/
theorem Inv.shrink {n : Node} (h : n.Inv) {engine : Engine} (hw : engine.state.Within n.engine.state)
    (hp : engine.partitionId = n.engine.partitionId) (hn : n.engine.nextLocal ≤ engine.nextLocal) :
    ({ n with engine } : Node).Inv where
  keyed := hw.keyed h.keyed
  resident k hk := minted_mono (h.resident k (hw.resident hk)) hp hn
  cold snap hsnap := minted_mono (h.cold snap hsnap) hp hn
  created k hk := minted_mono (h.created k hk) hp hn

omit [Feel] in
theorem instancesKeyed_applyAll {s : State} (h : InstancesKeyed s) (log : List Event) : InstancesKeyed (applyAll s log) := by
  induction log generalizing s with
  | nil => exact h
  | cons e log ih => exact ih (instancesKeyed_apply h e)

omit [Feel] in
theorem finishCommand_frame (e : Engine) (log : List Event) :
    (e.finishCommand log).state.Within e.state ∧ (e.finishCommand log).partitionId = e.partitionId ∧
      (e.finishCommand log).nextLocal = e.nextLocal := by
  unfold Engine.finishCommand
  split
  · exact ⟨.refl _, rfl, rfl⟩
  · dsimp only
    split
    · exact ⟨.refl _, rfl, rfl⟩
    · unfold Engine.reapTombstoned
      split
      · exact ⟨.refl _, rfl, rfl⟩
      · exact ⟨within_removeInstanceSet { e with retiredTombstones := _ } _,
          removeInstanceSet_counter { e with retiredTombstones := _ } _⟩

theorem Inv.call {n : Node} (h : n.Inv) (fuel : Nat) (c : Engine.HostCall) : (n.step fuel (.call c)).Inv := by
  cases c with
  | applyCommandAt command now =>
    obtain ⟨e', hstate, hp, -, hn, hcreated, hfinish⟩ := n.engine.applyCommandAt_spec fuel command now
    have hnew : ∀ k ∈ (Engine.returned (n.engine.applyCommandAt fuel command now).1).filterMap Event.createdInstance,
        e'.Minted k := by
      intro k hk
      obtain ⟨m, -, hm, rfl⟩ := hcreated k hk
      exact ⟨m, hm, by rw [hp]⟩
    have hmid : Inv { n with
        engine := e'
        created := n.created ++
          (Engine.returned (n.engine.applyCommandAt fuel command now).1).filterMap Event.createdInstance } := by
      refine ⟨?_, fun k hk => ?_, fun snap hsnap => minted_mono (h.cold snap hsnap) hp hn, fun k hk => ?_⟩
      · show InstancesKeyed e'.state
        rw [hstate]
        exact instancesKeyed_applyAll h.keyed _
      · have hk' : e'.state.Resident k := hk
        rw [hstate, resident_applyAll_iff] at hk'
        rcases hk' with hk' | hk'
        · exact minted_mono (h.resident k hk') hp hn
        · exact hnew k hk'
      · rcases List.mem_append.1 hk with hk | hk
        · exact minted_mono (h.created k hk) hp hn
        · exact hnew k hk
    obtain ⟨hw, hp', hn'⟩ := finishCommand_frame e' (Engine.returned (n.engine.applyCommandAt fuel command now).1)
    have hdone := hmid.shrink hw hp' (Nat.le_of_eq hn'.symm)
    rw [← hfinish] at hdone
    exact hdone
  | _ =>
    refine ⟨h.keyed, h.resident, h.cold, fun k hk => h.created k ?_⟩
    simpa [step, Engine.call] using hk

end

/-- What a spill of variables, a removal or a recovered lease does: no instance comes and the counter stays. -/
structure Quiet (e e' : Engine) : Prop where
  table : e'.state.Within e.state
  partitionId : e'.partitionId = e.partitionId
  nextLocal : e'.nextLocal = e.nextLocal

theorem Quiet.refl (e : Engine) : Quiet e e := ⟨.refl _, rfl, rfl⟩

theorem Quiet.trans {e e' e'' : Engine} (h : Quiet e e') (h' : Quiet e' e'') : Quiet e e'' :=
  ⟨h'.table.trans h.table, h'.partitionId.trans h.partitionId, h'.nextLocal.trans h.nextLocal⟩

theorem quiet_removeInstanceSet (e : Engine) (victims : List Key) : Quiet e (e.removeInstanceSet victims) :=
  have hcounter := removeInstanceSet_counter e victims
  ⟨within_removeInstanceSet e victims, hcounter.1, hcounter.2⟩

theorem quiet_modifyInstance (e : Engine) (key : Key) {f : ProcessInstance → ProcessInstance} (hf : ∀ i, (f i).key = i.key) :
    Quiet e { e with state := e.state.modifyInstance key f } :=
  ⟨within_modifyInstance e.state key hf, rfl, rfl⟩

theorem quiet_evictInstance (e : Engine) (key : Key) : Quiet e (e.evictInstance key).2 := by
  refine ⟨within_evictInstance e key, ?_, ?_⟩ <;> unfold Engine.evictInstance <;> split <;> rfl

theorem quiet_evictCompleted (e : Engine) : Quiet e e.evictCompleted := by
  unfold Engine.evictCompleted
  generalize (e.state.instances.toList.filter (·.2.isTerminal)).map (·.1) = keys
  induction keys generalizing e with
  | nil => exact .refl _
  | cons k ks ih => exact (quiet_evictInstance e k).trans (ih _)

theorem quiet_recoverLease (e : Engine) (jobKey : Key) (deadline now : Nat) :
    Quiet e (e.recoverLease jobKey deadline now).2 := by
  obtain ⟨hinst, hp, hn⟩ := JobSystem.recoverLease_frame e jobKey deadline now
  refine ⟨fun k i hi => ⟨i, ?_, rfl⟩, hp, hn⟩
  rwa [hinst] at hi

theorem quiet_retireInstances (e : Engine) (keys : List Key) : Quiet e (e.retireInstances keys) := by
  have h := quiet_removeInstanceSet
    { e with retiredTombstones := (keys.foldl e.retireStep ([], e.retiredTombstones)).2 }
    (keys.foldl e.retireStep ([], e.retiredTombstones)).1.eraseDups
  exact ⟨h.table, h.partitionId, h.nextLocal⟩

theorem quiet_retireBelow (e : Engine) (iter : List Key) (lowWater maxRemove : Nat) :
    Quiet e (e.retireBelow iter lowWater maxRemove).2 := by
  unfold Engine.retireBelow
  split
  · exact .refl _
  · dsimp only
    split
    · exact .refl _
    · have h := quiet_removeInstanceSet { e with retiredTombstones := if e.retiredTombstones.isEmpty then
        e.retiredTombstones else e.retiredTombstones.filter (lowWater ≤ ·) } ((iter.filter (· < lowWater)).take maxRemove)
      exact ⟨h.table, h.partitionId, h.nextLocal⟩

theorem quiet_spillVariables (e : Engine) (key : Key) : Quiet e (e.spillVariables key).2 := by
  unfold Engine.spillVariables
  split
  · exact .refl _
  · split
    · exact .refl _
    · exact quiet_modifyInstance e key fun _ => rfl

theorem Inv.quiet {n : Node} (h : n.Inv) {engine : Engine} (hq : Quiet n.engine engine) : ({ n with engine } : Node).Inv :=
  h.shrink hq.table hq.partitionId (Nat.le_of_eq hq.nextLocal.symm)

/-- A snapshot moves an active instance out of hot state, or does nothing. -/
theorem step_snapshotInstance [Feel] (n : Node) (fuel : Nat) (key : Key) :
    n.step fuel (.snapshotInstance key) = n ∨
      ∃ (i : ProcessInstance) (snap : InstanceSnapshot) (state : State), n.engine.state.instances[key]? = some i ∧
        i.state = .active ∧ snap.inst = i ∧ state.instances = n.engine.state.instances.erase key ∧
        state.inflightByProcess = n.engine.state.inflightByProcess ∧
        n.step fuel (.snapshotInstance key) = { n with engine := { n.engine with state }, cold := snap :: n.cold } := by
  simp only [Node.step, Engine.snapshotInstance]
  cases hi : n.engine.state.instances[key]? with
  | none => exact Or.inl rfl
  | some i =>
    dsimp only
    by_cases hg : (i.state != .active || i.variablesSpilled) = true
    · rw [if_pos hg]
      exact Or.inl rfl
    · rw [if_neg hg]
      simp only [Bool.or_eq_true, not_or, bne_iff_ne, ne_eq, not_not] at hg
      refine Or.inr ⟨i, _, _, rfl, hg.1, rfl, ?_, ?_, rfl⟩
      · exact congrArg (·.erase key) (instances_takeJobs n.engine.state key)
      · have hjobs := congrArg State.inflightByProcess (takeJobs_withJobView n.engine.state key)
        exact hjobs

/-- A rehydration puts back the instance of a snapshot, or does nothing. -/
theorem step_rehydrateInstance [Feel] (n : Node) (fuel : Nat) (key : Key) :
    n.step fuel (.rehydrateInstance key) = n ∨
      ∃ snap : InstanceSnapshot, n.cold.find? (·.inst.key == key) = some snap ∧
        (n.engine.rehydrateInstance snap).state.instances = n.engine.state.instances.insert snap.inst.key snap.inst ∧
        (n.engine.rehydrateInstance snap).state.inflightByProcess = n.engine.state.inflightByProcess ∧
        n.step fuel (.rehydrateInstance key) =
          { n with engine := n.engine.rehydrateInstance snap, cold := n.cold.eraseP (·.inst.key == key) } := by
  simp only [Node.step]
  split
  · next snap hfind =>
    have hstate := rehydrateInstance_state n.engine snap
    have hinstances := congrArg State.instances hstate
    have hinflight := congrArg State.inflightByProcess hstate
    exact Or.inr ⟨snap, hfind, hinstances, hinflight, rfl⟩
  · exact Or.inl rfl

theorem Inv.step [Feel] {n : Node} (h : n.Inv) (fuel : Nat) (op : NodeOp) : (n.step fuel op).Inv := by
  cases op with
  | call c => exact h.call fuel c
  | recoverLease jobKey deadline now => exact h.quiet (quiet_recoverLease _ _ _ _)
  | evictInstance key => exact h.quiet (quiet_evictInstance _ _)
  | evictInstances keys => exact h.quiet (quiet_removeInstanceSet _ _)
  | evictCompleted => exact h.quiet (quiet_evictCompleted _)
  | retireInstances keys => exact h.quiet (quiet_retireInstances _ _)
  | retireBelow iter lowWater maxRemove => exact h.quiet (quiet_retireBelow _ _ _ _)
  | spillVariables key => exact h.quiet (quiet_spillVariables _ _)
  | rehydrateVariables key vars => exact h.quiet (quiet_modifyInstance _ _ fun _ => rfl)
  | snapshotInstance key =>
    rcases step_snapshotInstance n fuel key with hsame | ⟨i, snap, state, hi, -, rfl, hstate, -, hstep⟩
    · rw [hsame]
      exact h
    · have hw : state.Within n.engine.state := by
        intro k i' hi'
        rw [hstate, Std.ExtTreeMap.getElem?_erase] at hi'
        split at hi'
        · cases hi'
        · exact ⟨i', hi', rfl⟩
      have hquiet : Quiet n.engine { n.engine with state } := ⟨hw, rfl, rfl⟩
      rw [hstep]
      refine { h.quiet hquiet with cold := fun other hother => ?_ }
      rcases List.mem_cons.1 hother with rfl | hother
      · refine h.resident _ ?_
        rw [h.keyed key _ hi, State.Resident, Std.ExtTreeMap.contains_eq_isSome_getElem?, hi]
        rfl
      · exact h.cold other hother
  | rehydrateInstance key =>
    rcases step_rehydrateInstance n fuel key with hsame | ⟨snap, hfind, hinst, -, hstep⟩
    · rw [hsame]
      exact h
    · have hmem := List.mem_of_find?_eq_some hfind
      rw [hstep]
      refine ⟨fun k i hi => ?_, fun k hk => ?_, fun s hs => h.cold s (List.mem_of_mem_eraseP hs), h.created⟩
      · change (n.engine.rehydrateInstance snap).state.instances[k]? = some i at hi
        rw [hinst, Std.ExtTreeMap.getElem?_insert] at hi
        split at hi
        · next heq =>
          rw [← Option.some.inj hi]
          exact Std.LawfulEqCmp.eq_of_compare heq
        · exact h.keyed k i hi
      · change (n.engine.rehydrateInstance snap).state.instances.contains k = true at hk
        rw [hinst, Std.ExtTreeMap.contains_insert, Bool.or_eq_true] at hk
        rcases hk with hk | hk
        · rw [← Std.LawfulEqCmp.eq_of_compare (beq_iff_eq.1 hk)]
          exact h.cold snap hmem
        · exact h.resident k hk

theorem Inv.run [Feel] {n : Node} (h : n.Inv) (fuel : Nat) (ops : List NodeOp) : (n.run fuel ops).Inv := by
  induction ops generalizing n with
  | nil => exact h
  | cons op ops ih => exact ih (h.step fuel op)

/-! ## The low-water mark -/

/-- The instance has not ended, in hot state or spilled. -/
def Live (n : Node) (k : Key) : Prop :=
  (∃ i, n.engine.state.instances[k]? = some i ∧ i.isTerminal = false) ∨
    ∃ snap ∈ n.cold, snap.inst.key = k ∧ snap.inst.isTerminal = false

/-- The mark the node broadcasts is safe: nothing that lives is below it, so no replica loses a live instance to it,
whatever that replica holds. -/
structure SafeMark (n : Node) : Prop where
  above : ∀ k, n.Live k → n.engine.retirementLowWater ≤ k
  replica : ∀ (replica : Engine) (iter : List Key) (maxRemove : Nat) (k : Key), replica.state.Resident k →
    ¬ (replica.retireBelow iter n.engine.retirementLowWater maxRemove).2.state.Resident k → ¬ n.Live k

/-- Every live instance has an active one in hot state at or below its key. -/
def LedByActive (n : Node) : Prop :=
  ∀ k, n.Live k → ∃ k' i, n.engine.state.instances[k']? = some i ∧ i.state = .active ∧ k' ≤ k

end Node

theorem mem_activeKeys {e : Engine} (h : InstancesKeyed e.state) (k : Key) :
    k ∈ (e.state.instances.vals.filter (·.state == .active)).map (·.key) ↔
      ∃ i, e.state.instances[k]? = some i ∧ i.state = .active := by
  simp only [List.mem_map, List.mem_filter, Std.ExtTreeMap.mem_vals, beq_iff_eq]
  constructor
  · rintro ⟨i, ⟨⟨k', hi⟩, hactive⟩, rfl⟩
    exact ⟨i, by rw [h k' i hi]; exact hi, hactive⟩
  · rintro ⟨i, hi, hactive⟩
    exact ⟨i, ⟨⟨k, hi⟩, hactive⟩, h k i hi⟩

theorem retirementLowWater_le {e : Engine} (h : InstancesKeyed e.state) {k : Key} {i : ProcessInstance}
    (hi : e.state.instances[k]? = some i) (hactive : i.state = .active) : e.retirementLowWater ≤ k := by
  have hmem := (mem_activeKeys h k).2 ⟨i, hi, hactive⟩
  unfold Engine.retirementLowWater
  cases hmin : ((e.state.instances.vals.filter (·.state == .active)).map (·.key)).min? with
  | none =>
    rw [List.min?_eq_none_iff.1 hmin] at hmem
    cases hmem
  | some m => exact (List.min?_eq_some_iff.1 hmin).2 k hmem

/-- Without an active instance the mark is the next key. -/
theorem retirementLowWater_of_none {e : Engine} (h : InstancesKeyed e.state)
    (hnone : ∀ (k : Key) (i : ProcessInstance), e.state.instances[k]? = some i → i.state ≠ .active) :
    e.retirementLowWater = composeKey e.partitionId (satAdd e.nextLocal 1) := by
  have hempty : (e.state.instances.vals.filter (·.state == .active)).map (·.key) = [] := by
    refine List.eq_nil_iff_forall_not_mem.2 fun k hk => ?_
    obtain ⟨i, hi, hactive⟩ := (mem_activeKeys h k).1 hk
    exact hnone k i hi hactive
  simp [Engine.retirementLowWater, hempty]

/-- With one, the mark is the key of an active instance. -/
theorem retirementLowWater_of_some {e : Engine} (h : InstancesKeyed e.state) {k : Key} {i : ProcessInstance}
    (hi : e.state.instances[k]? = some i) (hactive : i.state = .active) :
    ∃ j, e.state.instances[e.retirementLowWater]? = some j ∧ j.state = .active := by
  have hmem := (mem_activeKeys h k).2 ⟨i, hi, hactive⟩
  unfold Engine.retirementLowWater
  cases hmin : ((e.state.instances.vals.filter (·.state == .active)).map (·.key)).min? with
  | none =>
    rw [List.min?_eq_none_iff.1 hmin] at hmem
    cases hmem
  | some m => exact (mem_activeKeys h m).1 (List.min?_eq_some_iff.1 hmin).1

/-- A sweep takes only what is below its mark. -/
theorem lt_of_retireBelow {e : Engine} {iter : List Key} {lowWater maxRemove : Nat} {k : Key} (h : e.state.Resident k)
    (hgone : ¬ (e.retireBelow iter lowWater maxRemove).2.state.Resident k) : k < lowWater := by
  unfold Engine.retireBelow at hgone
  split at hgone
  · exact absurd h hgone
  · dsimp only at hgone
    split at hgone
    · exact absurd h hgone
    · rw [resident_removeInstanceSet_iff] at hgone
      have hmem : k ∈ (iter.filter (· < lowWater)).take maxRemove :=
        Classical.byContradiction fun hnot => hgone ⟨h, hnot⟩
      exact of_decide_eq_true (List.mem_filter.1 (List.mem_of_mem_take hmem)).2

/-- A sweep over a key takes it, unless its bound is used up by others. -/
theorem not_resident_retireBelow (e : Engine) {iter : List Key} {lowWater maxRemove : Nat} {k : Key} (hiter : k ∈ iter)
    (hlt : k < lowWater) (hmax : iter.length ≤ maxRemove) :
    ¬ (e.retireBelow iter lowWater maxRemove).2.state.Resident k := by
  have hmem : k ∈ (iter.filter (· < lowWater)).take maxRemove := by
    rw [List.take_of_length_le ((List.length_filter_le _ _).trans hmax)]
    exact List.mem_filter.2 ⟨hiter, by simpa using hlt⟩
  unfold Engine.retireBelow
  split
  · next hskip =>
    rcases Bool.or_eq_true_iff.1 hskip with hempty | hzero
    · rw [State.Resident, Std.ExtTreeMap.isEmpty_iff.1 hempty]
      simp
    · rw [beq_iff_eq.1 hzero] at hmem
      simp at hmem
  · dsimp only
    split
    · next hnone =>
      rw [List.isEmpty_iff.1 hnone] at hmem
      cases hmem
    · rw [resident_removeInstanceSet_iff]
      exact fun h => h.2 hmem

/-- A minted key is below the next one. -/
theorem minted_lt_next {e : Engine} (hroom : e.nextLocal < localMask) {k : Key} (h : e.Minted k) :
    k < composeKey e.partitionId (satAdd e.nextLocal 1) := by
  obtain ⟨m, hm, rfl⟩ := h
  simp only [Engine.mintedKey, composeKey, satAdd, u64Max, localMask, localSpan] at hroom ⊢
  rw [Nat.mod_eq_of_lt (by omega), Nat.mod_eq_of_lt (by omega)]
  exact Nat.add_lt_add_left (by omega) _

/-- In every state a node reaches: its mark is safe when every live instance has an active one in hot state at or below
its key, and, as long as there are keys left to mint, only then. -/
theorem retirementLowWater_safe_iff [Feel] (fuel partitionId : Nat) (ops : List NodeOp) :
    (((Node.start partitionId).run fuel ops).LedByActive → ((Node.start partitionId).run fuel ops).SafeMark) ∧
      (((Node.start partitionId).run fuel ops).engine.nextLocal < localMask →
        ((Node.start partitionId).run fuel ops).SafeMark → ((Node.start partitionId).run fuel ops).LedByActive) := by
  have h := (Node.inv_start partitionId).run fuel ops
  generalize (Node.start partitionId).run fuel ops = n at h
  constructor
  · intro hled
    have habove : ∀ k, n.Live k → n.engine.retirementLowWater ≤ k := by
      intro k hk
      obtain ⟨k', i, hi, hactive, hle⟩ := hled k hk
      exact (retirementLowWater_le h.keyed hi hactive).trans hle
    refine ⟨habove, fun replica iter maxRemove k hres hgone hlive => ?_⟩
    exact absurd (lt_of_retireBelow hres hgone) (Nat.not_lt.2 (habove k hlive))
  · intro hroom hsafe k hk
    by_cases hactive : ∃ (k' : Key) (i : ProcessInstance), n.engine.state.instances[k']? = some i ∧ i.state = .active
    · obtain ⟨k', i, hi, hstate⟩ := hactive
      obtain ⟨j, hj, hjstate⟩ := retirementLowWater_of_some h.keyed hi hstate
      exact ⟨n.engine.retirementLowWater, j, hj, hjstate, hsafe.above k hk⟩
    · exfalso
      have hmark := retirementLowWater_of_none h.keyed fun k' i hi hstate => hactive ⟨k', i, hi, hstate⟩
      have hminted : n.engine.Minted k := by
        rcases hk with ⟨i, hi, -⟩ | ⟨snap, hsnap, rfl, -⟩
        · refine h.resident k ?_
          rw [State.Resident, Std.ExtTreeMap.contains_eq_isSome_getElem?, hi]
          rfl
        · exact h.cold snap hsnap
      have hbelow := minted_lt_next hroom hminted
      have habove := hsafe.above k hk
      rw [hmark] at habove
      exact absurd hbelow (Nat.not_lt.2 habove)

/-- The owner's commands up to the suspension of its one instance, which has key 3. -/
def suspendedOrder : List NodeOp :=
  [.call (.applyCommandAt (.deployProcess oneTaskProcess) 0),
    .call (.applyCommandAt (.createInstance "order" ∅ [] none none none) 0),
    .call (.applyCommandAt (.suspendInstance 3) 1)]

/-- Nothing is active on the owner, so its mark is the next key: a replica that has applied the create loses the instance
which the owner may still resume. -/
theorem retirementLowWater_passes_suspended :
    (@Node.run Feel.refusing 40 (Node.start 0) suspendedOrder).Live 3 ∧
      (@Node.run Feel.refusing 40 (Node.start 0) (suspendedOrder.take 2)).engine.state.Resident 3 ∧
      ¬ ((@Node.run Feel.refusing 40 (Node.start 0) (suspendedOrder.take 2)).engine.retireBelow [3]
        (@Node.run Feel.refusing 40 (Node.start 0) suspendedOrder).engine.retirementLowWater 10).2.state.Resident 3 ∧
      ¬ (@Node.run Feel.refusing 40 (Node.start 0) suspendedOrder).SafeMark := by
  have hlive : (@Node.run Feel.refusing 40 (Node.start 0) suspendedOrder).Live 3 := by
    have hview : (@Node.run Feel.refusing 40 (Node.start 0) suspendedOrder).engine.state.instances[3]?.map
        ProcessInstance.isTerminal = some false := by decide +kernel
    exact Or.inl (Option.map_eq_some_iff.1 hview)
  refine ⟨hlive, by unfold State.Resident; decide +kernel, by unfold State.Resident; decide +kernel, fun hsafe => ?_⟩
  have hbelow : 3 < (@Node.run Feel.refusing 40 (Node.start 0) suspendedOrder).engine.retirementLowWater := by decide +kernel
  exact absurd hbelow (Nat.not_lt.2 (hsafe.above 3 hlive))

/-! ## Tombstones -/

/-- What the reaping after a command leaves: what was created without a tombstone, and the tombstones of what was not
created. -/
theorem finishCommand_spec (e : Engine) (log : List Event) (k : Key) :
    (e.finishCommand log).state.instances[k]? =
        (if k ∈ log.filterMap Event.createdInstance ∧ k ∈ e.retiredTombstones then none else e.state.instances[k]?) ∧
      (k ∈ (e.finishCommand log).retiredTombstones ↔
        k ∈ e.retiredTombstones ∧ k ∉ log.filterMap Event.createdInstance) := by
  unfold Engine.finishCommand
  by_cases hempty : e.retiredTombstones.isEmpty = true
  · have hnone : k ∉ e.retiredTombstones := by
      rw [Std.ExtTreeSet.isEmpty_iff.1 hempty]
      exact Std.ExtTreeSet.not_mem_empty
    simp [hempty, hnone]
  · simp only [hempty, Bool.false_eq_true, if_false]
    by_cases hcreated : (log.filterMap Event.createdInstance).isEmpty = true
    · rw [if_pos hcreated, List.isEmpty_iff.1 hcreated]
      simp
    · rw [if_neg hcreated]
      unfold Engine.reapTombstoned
      rw [if_neg hempty]
      have hhit : k ∈ ((log.filterMap Event.createdInstance).filter e.retiredTombstones.contains).eraseDups ↔
          k ∈ log.filterMap Event.createdInstance ∧ k ∈ e.retiredTombstones := by
        rw [List.mem_eraseDups, List.mem_filter, Std.ExtTreeSet.mem_iff_contains]
      constructor
      · rw [instances_removeInstanceSet]
        simp only [hhit]
      · rw [removeInstanceSet_tombstones, mem_foldl_erase, hhit]
        by_cases hk : k ∈ e.retiredTombstones
        · simp [hk]
        · simp [hk]

theorem resident_finishCommand_iff (e : Engine) (log : List Event) (k : Key) :
    (e.finishCommand log).state.Resident k ↔
      e.state.Resident k ∧ ¬ (k ∈ log.filterMap Event.createdInstance ∧ k ∈ e.retiredTombstones) := by
  unfold State.Resident
  rw [Std.ExtTreeMap.contains_eq_isSome_getElem?, Std.ExtTreeMap.contains_eq_isSome_getElem?, (finishCommand_spec e log k).1]
  by_cases hreaped : k ∈ log.filterMap Event.createdInstance ∧ k ∈ e.retiredTombstones
  · rw [if_pos hreaped]
    simp only [hreaped, Option.isSome_none, Bool.false_eq_true, and_self, not_true_eq_false, and_false]
  · rw [if_neg hreaped]
    simp only [hreaped, not_false_eq_true, and_true]

/-- One key of a digest: a victim when it is resident, else a tombstone, unless the cap is reached. -/
theorem retireStep_spec (e : Engine) (acc : List Key × KeySet) (x : Key) :
    (∀ k, k ∈ (e.retireStep acc x).1 ↔ k ∈ acc.1 ∨ (k = x ∧ e.state.Resident k)) ∧
      (∀ k, k ∈ (e.retireStep acc x).2 ↔
        k ∈ acc.2 ∨ (k = x ∧ ¬ e.state.Resident k ∧ acc.2.size < maxTombstones)) ∧
      acc.2.size ≤ (e.retireStep acc x).2.size := by
  unfold Engine.retireStep State.Resident
  split
  · next hres =>
    refine ⟨fun k => ?_, fun k => ?_, Nat.le_refl _⟩
    · by_cases hk : k = x
      · simp [hk, hres]
      · simp [hk]
    · by_cases hk : k = x
      · simp [hk, hres]
      · simp [hk]
  · next hres =>
    split
    · next hcap =>
      refine ⟨fun k => ?_, fun k => ?_, Std.ExtTreeSet.size_le_size_insert⟩
      · by_cases hk : k = x
        · simp [hk, hres]
        · simp [hk]
      · by_cases hk : k = x
        · simp [hk, hres, hcap]
        · simp [hk, Ne.symm hk]
    · next hcap =>
      refine ⟨fun k => ?_, fun k => ?_, Nat.le_refl _⟩
      · by_cases hk : k = x
        · simp [hk, hres]
        · simp [hk]
      · simp [hcap]

/-- The loop of a digest. -/
theorem retireStep_foldl (e : Engine) (keys : List Key) (acc : List Key × KeySet) :
    (∀ k, k ∈ (keys.foldl e.retireStep acc).1 ↔ k ∈ acc.1 ∨ (k ∈ keys ∧ e.state.Resident k)) ∧
      (∀ k, k ∈ acc.2 → k ∈ (keys.foldl e.retireStep acc).2) ∧
      (∀ k, k ∈ (keys.foldl e.retireStep acc).2 → k ∈ acc.2 ∨ k ∈ keys) ∧
      acc.2.size ≤ (keys.foldl e.retireStep acc).2.size ∧
      ((keys.foldl e.retireStep acc).2.size < maxTombstones → ∀ k ∈ keys, ¬ e.state.Resident k →
        k ∈ (keys.foldl e.retireStep acc).2) := by
  induction keys generalizing acc with
  | nil => simp
  | cons x xs ih =>
    obtain ⟨hvictim, htomb, hsize⟩ := retireStep_spec e acc x
    obtain ⟨hv, hgrow, honly, hsizes, hall⟩ := ih (e.retireStep acc x)
    rw [List.foldl_cons]
    refine ⟨fun k => ?_, fun k hk => hgrow k ((htomb k).2 (Or.inl hk)), fun k hk => ?_, hsize.trans hsizes,
      fun hcap k hk hres => ?_⟩
    · rw [hv, hvictim, List.mem_cons]
      tauto
    · rcases honly k hk with hk | hk
      · rcases (htomb k).1 hk with hk | ⟨rfl, -⟩
        · exact Or.inl hk
        · exact Or.inr List.mem_cons_self
      · exact Or.inr (List.mem_cons_of_mem _ hk)
    · rcases List.mem_cons.1 hk with rfl | hk
      · exact hgrow k ((htomb k).2 (Or.inr ⟨rfl, hres, Nat.lt_of_le_of_lt (hsize.trans hsizes) hcap⟩))
      · exact hall hcap k hk hres

/-- What a digest does: its keys are not resident after it, other instances stay, and below the cap a key that was not
resident has a tombstone. -/
theorem retireInstances_spec (e : Engine) (keys : List Key) :
    (∀ k, (e.retireInstances keys).state.Resident k ↔ e.state.Resident k ∧ k ∉ keys) ∧
      (∀ k, k ∈ e.retiredTombstones → k ∈ (e.retireInstances keys).retiredTombstones) ∧
      (∀ k, k ∈ (e.retireInstances keys).retiredTombstones → k ∈ e.retiredTombstones ∨ k ∈ keys) ∧
      ((e.retireInstances keys).retiredTombstones.size < maxTombstones → ∀ k ∈ keys, ¬ e.state.Resident k →
        k ∈ (e.retireInstances keys).retiredTombstones) := by
  obtain ⟨hv, hgrow, honly, -, hall⟩ := retireStep_foldl e keys ([], e.retiredTombstones)
  have htombs : (e.retireInstances keys).retiredTombstones = (keys.foldl e.retireStep ([], e.retiredTombstones)).2 :=
    removeInstanceSet_tombstones _ _
  rw [htombs]
  refine ⟨fun k => ?_, hgrow, honly, hall⟩
  unfold Engine.retireInstances
  rw [resident_removeInstanceSet_iff, List.mem_eraseDups, hv]
  constructor
  · rintro ⟨hres, hnot⟩
    exact ⟨hres, fun hk => hnot (Or.inr ⟨hk, hres⟩)⟩
  · rintro ⟨hres, hnot⟩
    refine ⟨hres, ?_⟩
    rintro (hk | ⟨hk, -⟩)
    · cases hk
    · exact hnot hk

/-- A sweep leaves the tombstones at or above its mark, and adds none. -/
theorem retireBelow_tombstones (e : Engine) (iter : List Key) (lowWater maxRemove : Nat) (k : Key) :
    (k ∈ (e.retireBelow iter lowWater maxRemove).2.retiredTombstones → k ∈ e.retiredTombstones) ∧
      (k ∈ e.retiredTombstones → lowWater ≤ k → k ∈ (e.retireBelow iter lowWater maxRemove).2.retiredTombstones) := by
  unfold Engine.retireBelow
  split
  · exact ⟨id, fun h _ => h⟩
  · dsimp only
    split
    · exact ⟨id, fun h _ => h⟩
    · rw [removeInstanceSet_tombstones]
      split
      · exact ⟨id, fun h _ => h⟩
      · constructor
        · intro h
          exact Std.ExtTreeSet.mem_of_mem_filter h
        · intro h hle
          refine Std.ExtTreeSet.mem_filter.2 ⟨h, ?_⟩
          simpa using hle

/-- A sweep that removes nothing returns before it drops a tombstone. -/
theorem retireBelow_of_nothing {e : Engine} {iter : List Key} {lowWater maxRemove : Nat}
    (h : (e.retireBelow iter lowWater maxRemove).1 = []) : (e.retireBelow iter lowWater maxRemove).2 = e := by
  unfold Engine.retireBelow at h ⊢
  split
  · rfl
  · next hready =>
    rw [if_neg hready] at h
    dsimp only at h ⊢
    split
    · rfl
    · next hvictims =>
      rw [if_neg hvictims] at h
      exact absurd (List.isEmpty_iff.mpr h) hvictims

/-- What a follower replica does: it applies commands, digests and sweeps. -/
def NodeOp.onFollower : NodeOp → Bool
  | .call _ | .retireInstances _ | .retireBelow _ _ _ => true
  | _ => false

/-- The operation is a sweep whose mark is above the key. -/
def NodeOp.sweepsOver (k : Key) : NodeOp → Bool
  | .retireBelow _ lowWater _ => k < lowWater
  | _ => false

/-- The operation is a sweep that removes an instance of the node, with a mark above the key. -/
def NodeOp.reapsOver (n : Node) (k : Key) : NodeOp → Bool
  | .retireBelow iter lowWater maxRemove => k < lowWater && !(n.engine.retireBelow iter lowWater maxRemove).1.isEmpty
  | _ => false

/-- The operation is a digest that lists the key. -/
def NodeOp.retires (k : Key) : NodeOp → Bool
  | .retireInstances keys => keys.contains k
  | _ => false

namespace Node

variable [Feel]

theorem quiet_of_onFollower (n : Node) (fuel : Nat) {op : NodeOp} (hop : op.onFollower = true)
    (hcall : ∀ c, op ≠ .call c) : Quiet n.engine (n.step fuel op).engine ∧ (n.step fuel op).created = n.created := by
  cases op with
  | call c => exact absurd rfl (hcall c)
  | retireInstances keys => exact ⟨quiet_retireInstances _ _, rfl⟩
  | retireBelow iter lowWater maxRemove => exact ⟨quiet_retireBelow _ _ _ _, rfl⟩
  | _ => cases hop

/-- What a call does to the instances and the tombstones: with the keys it creates, which no key minted before is. -/
theorem call_spec (fuel : Nat) (n : Node) (c : Engine.HostCall) :
    ∃ created : List Key, (n.step fuel (.call c)).created = n.created ++ created ∧
      (n.step fuel (.call c)).engine.partitionId = n.engine.partitionId ∧
      n.engine.nextLocal ≤ (n.step fuel (.call c)).engine.nextLocal ∧
      (∀ k, (n.step fuel (.call c)).engine.state.Resident k ↔
        (n.engine.state.Resident k ∨ k ∈ created) ∧ ¬ (k ∈ created ∧ k ∈ n.engine.retiredTombstones)) ∧
      (∀ k, k ∈ (n.step fuel (.call c)).engine.retiredTombstones ↔ k ∈ n.engine.retiredTombstones ∧ k ∉ created) ∧
      ((n.step fuel (.call c)).engine.nextLocal ≤ localMask → ∀ k ∈ created, ¬ n.engine.Minted k) := by
  cases c with
  | applyCommandAt command now =>
    obtain ⟨e', hstate, hp, htombs, hn, hcreated, hfinish⟩ := n.engine.applyCommandAt_spec fuel command now
    obtain ⟨-, hp', hn'⟩ := finishCommand_frame e' (Engine.returned (n.engine.applyCommandAt fuel command now).1)
    have hengine : (n.step fuel (.call (.applyCommandAt command now))).engine =
        e'.finishCommand (Engine.returned (n.engine.applyCommandAt fuel command now).1) := hfinish
    refine ⟨_, rfl, ?_⟩
    rw [hengine]
    refine ⟨hp'.trans hp, hn.trans (Nat.le_of_eq hn'.symm), fun k => ?_, fun k => ?_, fun hroom k hk hminted => ?_⟩
    · rw [resident_finishCommand_iff, hstate, resident_applyAll_iff, htombs]
      rfl
    · rw [(finishCommand_spec _ _ k).2, htombs]
      rfl
    · obtain ⟨m, hle, hlt, rfl⟩ := hcreated k hk
      obtain ⟨m', hlt', heq⟩ := hminted
      rw [hn'] at hroom
      have := mintedKey_inj (Nat.lt_of_lt_of_le hlt hroom) (by omega) heq
      omega
  | _ =>
    refine ⟨[], rfl, rfl, Nat.le_refl _, fun k => ?_, fun k => ?_, fun _ k hk => ?_⟩
    · have hsame : n.engine.state.Resident k ↔
          (n.engine.state.Resident k ∨ k ∈ ([] : List Key)) ∧ ¬ (k ∈ ([] : List Key) ∧ k ∈ n.engine.retiredTombstones) := by
        simp
      exact hsame
    · have hsame : k ∈ n.engine.retiredTombstones ↔ k ∈ n.engine.retiredTombstones ∧ k ∉ ([] : List Key) := by simp
      exact hsame
    · cases hk

theorem nextLocal_step {n : Node} {fuel : Nat} {op : NodeOp} (hcall : ∀ c, op ≠ .call c) :
    (n.step fuel op).engine.nextLocal = n.engine.nextLocal := by
  cases op with
  | call c => exact absurd rfl (hcall c)
  | recoverLease jobKey deadline now => exact (quiet_recoverLease _ _ _ _).nextLocal
  | evictInstance key => exact (quiet_evictInstance _ _).nextLocal
  | evictInstances keys => exact (quiet_removeInstanceSet _ _).nextLocal
  | evictCompleted => exact (quiet_evictCompleted _).nextLocal
  | retireInstances keys => exact (quiet_retireInstances _ _).nextLocal
  | retireBelow iter lowWater maxRemove => exact (quiet_retireBelow _ _ _ _).nextLocal
  | spillVariables key => exact (quiet_spillVariables _ _).nextLocal
  | rehydrateVariables key vars => rfl
  | snapshotInstance key =>
    rcases step_snapshotInstance n fuel key with hsame | ⟨_, _, _, -, -, -, -, -, hstep⟩
    · rw [hsame]
    · rw [hstep]
  | rehydrateInstance key =>
    rcases step_rehydrateInstance n fuel key with hsame | ⟨_, -, -, -, hstep⟩
    · rw [hsame]
    · rw [hstep]
      rfl

theorem nextLocal_le_step (n : Node) (fuel : Nat) (op : NodeOp) :
    n.engine.nextLocal ≤ (n.step fuel op).engine.nextLocal := by
  by_cases hcall : ∃ c, op = .call c
  · obtain ⟨c, rfl⟩ := hcall
    obtain ⟨_, -, -, hn, -⟩ := call_spec fuel n c
    exact hn
  · exact Nat.le_of_eq (nextLocal_step fun c hc => hcall ⟨c, hc⟩).symm

theorem nextLocal_le_run (n : Node) (fuel : Nat) (ops : List NodeOp) :
    n.engine.nextLocal ≤ (n.run fuel ops).engine.nextLocal := by
  induction ops generalizing n with
  | nil => exact Nat.le_refl _
  | cons op ops ih => exact (n.nextLocal_le_step fuel op).trans (ih _)

/-- A key that was minted and is not resident stays away. -/
def Gone (n : Node) (k : Key) : Prop := ¬ n.engine.state.Resident k ∧ n.engine.Minted k

/-- A key is not resident, and is either gone for good or has a tombstone. -/
def Retired (n : Node) (k : Key) : Prop :=
  ¬ n.engine.state.Resident k ∧ (n.engine.Minted k ∨ k ∈ n.engine.retiredTombstones)

theorem Gone.step {n : Node} {k : Key} (h : n.Gone k) {fuel : Nat} {op : NodeOp} (hop : op.onFollower = true)
    (hroom : (n.step fuel op).engine.nextLocal ≤ localMask) : (n.step fuel op).Gone k := by
  by_cases hcall : ∃ c, op = .call c
  · obtain ⟨c, rfl⟩ := hcall
    obtain ⟨created, -, hp, hn, hres, -, hfresh⟩ := call_spec fuel n c
    refine ⟨fun hk => ?_, minted_mono h.2 hp hn⟩
    rcases ((hres k).1 hk).1 with hk | hk
    · exact h.1 hk
    · exact hfresh hroom k hk h.2
  · obtain ⟨hq, -⟩ := n.quiet_of_onFollower fuel hop fun c hc => hcall ⟨c, hc⟩
    exact ⟨fun hk => h.1 (hq.table.resident hk), minted_mono h.2 hq.partitionId (Nat.le_of_eq hq.nextLocal.symm)⟩

theorem Retired.step {n : Node} {k : Key} (hinv : n.Inv) (h : n.Retired k) {fuel : Nat} {op : NodeOp}
    (hop : op.onFollower = true) (hsweep : op.reapsOver n k = false)
    (hroom : (n.step fuel op).engine.nextLocal ≤ localMask) : (n.step fuel op).Retired k := by
  rcases h.2 with hminted | htomb
  · have hgone := Gone.step ⟨h.1, hminted⟩ hop hroom
    exact ⟨hgone.1, Or.inl hgone.2⟩
  · cases op with
    | call c =>
      obtain ⟨created, hcreated, -, -, hres, htombs, -⟩ := call_spec fuel n c
      refine ⟨fun hk => ?_, ?_⟩
      · obtain ⟨hk, hreaped⟩ := (hres k).1 hk
        rcases hk with hk | hk
        · exact h.1 hk
        · exact hreaped ⟨hk, htomb⟩
      · by_cases hk : k ∈ created
        · refine Or.inl ((hinv.step fuel (.call c)).created k ?_)
          rw [hcreated]
          exact List.mem_append_right _ hk
        · exact Or.inr ((htombs k).2 ⟨htomb, hk⟩)
    | retireInstances keys =>
      obtain ⟨hres, hgrow, -, -⟩ := retireInstances_spec n.engine keys
      exact ⟨fun hk => h.1 ((hres k).1 hk).1, Or.inr (hgrow k htomb)⟩
    | retireBelow iter lowWater maxRemove =>
      rcases Nat.lt_or_ge k lowWater with hlt | hle
      · have hnothing : (n.engine.retireBelow iter lowWater maxRemove).1 = [] := by
          simpa [NodeOp.reapsOver, hlt] using hsweep
        have hsame := retireBelow_of_nothing hnothing
        have hengine : (n.step fuel (.retireBelow iter lowWater maxRemove)).engine = n.engine := hsame
        exact ⟨by rw [hengine]; exact h.1, Or.inr (by rw [hengine]; exact htomb)⟩
      · exact ⟨fun hk => h.1 ((quiet_retireBelow n.engine iter lowWater maxRemove).table.resident hk),
          Or.inr ((retireBelow_tombstones n.engine iter lowWater maxRemove k).2 htomb hle)⟩
    | _ => cases hop

/-- No sweep of the run reaps over the key. -/
def unreaped (fuel : Nat) (k : Key) : Node → List NodeOp → Bool
  | _, [] => true
  | n, op :: ops => !op.reapsOver n k && unreaped fuel k (n.step fuel op) ops

theorem Gone.run {n : Node} {k : Key} (h : n.Gone k) {fuel : Nat} {ops : List NodeOp}
    (hops : ∀ op ∈ ops, op.onFollower = true) (hroom : (n.run fuel ops).engine.nextLocal ≤ localMask) :
    (n.run fuel ops).Gone k := by
  induction ops generalizing n with
  | nil => exact h
  | cons op ops ih =>
    rw [List.forall_mem_cons] at hops
    exact ih (h.step hops.1 (((n.step fuel op).nextLocal_le_run fuel ops).trans hroom)) hops.2 hroom

theorem Retired.run {n : Node} {k : Key} (hinv : n.Inv) (h : n.Retired k) {fuel : Nat} {ops : List NodeOp}
    (hops : ∀ op ∈ ops, op.onFollower = true) (hsweeps : unreaped fuel k n ops = true)
    (hroom : (n.run fuel ops).engine.nextLocal ≤ localMask) : (n.run fuel ops).Retired k := by
  induction ops generalizing n with
  | nil => exact h
  | cons op ops ih =>
    rw [List.forall_mem_cons] at hops
    simp only [unreaped, Bool.and_eq_true, Bool.not_eq_true'] at hsweeps
    have hstep := h.step hinv hops.1 hsweeps.1 (((n.step fuel op).nextLocal_le_run fuel ops).trans hroom)
    exact ih (hinv.step fuel op) hstep hops.2 hsweeps.2 hroom

/-- A digest retires its keys, as long as there is room for their tombstones. -/
theorem retired_retireInstances {n : Node} (hinv : n.Inv) (fuel : Nat) {keys : List Key} {k : Key} (hk : k ∈ keys)
    (hcap : (n.step fuel (.retireInstances keys)).engine.retiredTombstones.size < maxTombstones) :
    (n.step fuel (.retireInstances keys)).Retired k := by
  obtain ⟨hres, -, -, htombs⟩ := retireInstances_spec n.engine keys
  refine ⟨fun h => ((hres k).1 h).2 hk, ?_⟩
  by_cases hwas : n.engine.state.Resident k
  · have hq := quiet_retireInstances n.engine keys
    exact Or.inl (minted_mono (hinv.resident k hwas) hq.partitionId (Nat.le_of_eq hq.nextLocal.symm))
  · exact Or.inr (htombs hcap k hk hwas)

/-- The key has no tombstone, and is resident if it was created. -/
def Spared (n : Node) (k : Key) : Prop :=
  k ∉ n.engine.retiredTombstones ∧ (k ∈ n.created → n.engine.state.Resident k)

theorem Spared.step {n : Node} {k : Key} (h : n.Spared k) {fuel : Nat} {op : NodeOp} (hop : op.onFollower = true)
    (hretires : op.retires k = false) (hsweep : op.sweepsOver k = false) : (n.step fuel op).Spared k := by
  cases op with
  | call c =>
    obtain ⟨created, hcreated, -, -, hres, htombs, -⟩ := call_spec fuel n c
    refine ⟨fun hk => h.1 ((htombs k).1 hk).1, fun hk => (hres k).2 ⟨?_, fun hreaped => h.1 hreaped.2⟩⟩
    rw [hcreated] at hk
    exact (List.mem_append.1 hk).imp_left h.2
  | retireInstances keys =>
    obtain ⟨hres, -, honly, -⟩ := retireInstances_spec n.engine keys
    have hnot : k ∉ keys := by simpa [NodeOp.retires] using hretires
    refine ⟨fun hk => ?_, fun hk => (hres k).2 ⟨h.2 hk, hnot⟩⟩
    rcases honly k hk with hk | hk
    · exact h.1 hk
    · exact hnot hk
  | retireBelow iter lowWater maxRemove =>
    refine ⟨fun hk => h.1 ((retireBelow_tombstones n.engine iter lowWater maxRemove k).1 hk), fun hk => ?_⟩
    by_contra hgone
    have hlt := lt_of_retireBelow (h.2 hk) hgone
    exact absurd hlt (of_decide_eq_false hsweep)
  | _ => cases hop

theorem Spared.run {n : Node} {k : Key} (h : n.Spared k) {fuel : Nat} {ops : List NodeOp}
    (hops : ∀ op ∈ ops, op.onFollower = true) (hretires : ∀ op ∈ ops, op.retires k = false)
    (hsweeps : ∀ op ∈ ops, op.sweepsOver k = false) : (n.run fuel ops).Spared k := by
  induction ops generalizing n with
  | nil => exact h
  | cons op ops ih =>
    rw [List.forall_mem_cons] at hops hretires hsweeps
    exact ih (h.step hops.1 hretires.1 hsweeps.1) hops.2 hretires.2 hsweeps.2

end Node

/-- A second create of the process, whose instance has key 7. -/
def createSecond : NodeOp := .call (.applyCommandAt (.createInstance "order" ∅ [] none none none) 1)

def JobOp.event? : JobOp → Option Event
  | .event e => some e
  | _ => none

/-- The events of `waitingOnJob` are those of a deployment and a creation. -/
theorem planned_waitingOnJob :
    (@Engine.runCalls Feel.refusing 40 (Engine.withPartition 0)
      [.applyCommandAt (.deployProcess oneTaskProcess) 0,
        .applyCommandAt (.createInstance "order" ∅ [] none none none) 0]).1 = waitingOnJob.filterMap JobOp.event? := rfl

/-- Those of `canceledOnJob` are these and a cancellation. -/
theorem planned_canceledOnJob :
    (@Engine.runCalls Feel.refusing 40 (Engine.withPartition 0)
      [.applyCommandAt (.deployProcess oneTaskProcess) 0,
        .applyCommandAt (.createInstance "order" ∅ [] none none none) 0,
        .applyCommandAt (.cancelInstance 3) 0]).1 = canceledOnJob.filterMap JobOp.event? := rfl

/-- Those of `completedUserTask` are a deployment, a creation and the completion of the task. -/
theorem planned_completedUserTask :
    (@Engine.runCalls Feel.refusing 40 (Engine.withPartition 0)
      [.applyCommandAt (.deployProcess oneUserTaskProcess) 0,
        .applyCommandAt (.createInstance "approval" ∅ [] none none none) 0,
        .applyCommandAt (.completeUserTask 6 ∅) 0]).1 = completedUserTask.filterMap JobOp.event? := rfl

end NanoBpm
