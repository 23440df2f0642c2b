import NanoBpm.JobIndex

/-!
# Job indices over whole runs

The system is an engine, the snapshots of spilled instances its host holds, and the keys `mint_key`
has handed out and no job carries yet. A step is a minted key, one event, a lease recovery, an
eviction, a retirement, a spill, a rehydration or a restart from a snapshot. A job-creating event must
carry a pooled key, which is what the engine does; that the key is then unused is derived from the
counter. The indices are exact after every run in which no `recover_lease` takes its success branch.
-/

namespace NanoBpm

/-! ## Residency operations -/

/-- After a removal: owners exact, instances keyed, and no job that was not there before. -/
structure Shrunk (s s' : State) : Prop where
  owner : s'.jobView.OwnerExact
  keyed : InstancesKeyed s'
  resident : ∀ k : Key, s'.jobs[k]? ≠ none → s.jobs[k]? ≠ none

theorem Shrunk.refl {s : State} (h : s.jobView.OwnerExact) (hk : InstancesKeyed s) : Shrunk s s := ⟨h, hk, fun _ => id⟩

theorem Shrunk.trans {s₁ s₂ s₃ : State} (h₁ : Shrunk s₁ s₂) (h₂ : Shrunk s₂ s₃) : Shrunk s₁ s₃ :=
  ⟨h₂.owner, h₂.keyed, fun k hk => h₁.resident k (h₂.resident k hk)⟩

theorem instancesKeyed_erase {s : State} (h : InstancesKeyed s) (key : Key) {s' : State}
    (hs' : s'.instances = s.instances.erase key) : InstancesKeyed s' := by
  intro k i hi
  rw [hs', Std.ExtTreeMap.getElem?_erase] at hi
  split at hi
  · cases hi
  · exact h k i hi

theorem shrunk_removeInstance {s : State} (h : s.jobView.OwnerExact) (hk : InstancesKeyed s) (key : Key) :
    Shrunk s (s.removeInstance key) := by
  obtain ⟨hex, hjob, -, hinst⟩ := takeJobs_spec (s := { s with instances := s.instances.erase key }) h key
  refine ⟨hex, instancesKeyed_erase hk key hinst, fun k hne => ?_⟩
  obtain ⟨j, hj⟩ := Option.ne_none_iff_exists'.1 hne
  have hs : s.jobs[k]? = some j := ((hjob k j).1 hj).1
  rw [hs]
  exact Option.some_ne_none j

theorem shrunk_removeInstances {s : State} (h : s.jobView.OwnerExact) (hk : InstancesKeyed s) (victims : List Key) :
    Shrunk s (victims.foldl State.removeInstance s) := by
  induction victims generalizing s with
  | nil => exact Shrunk.refl h hk
  | cons v vs ih =>
    have hv := shrunk_removeInstance h hk v
    exact hv.trans (ih hv.owner hv.keyed)

theorem shrunk_removeInstanceSet {e : Engine} (h : e.state.jobView.OwnerExact) (hk : InstancesKeyed e.state)
    (victims : List Key) : Shrunk e.state (e.removeInstanceSet victims).state := by
  unfold Engine.removeInstanceSet
  split
  · exact Shrunk.refl h hk
  · have hv := shrunk_removeInstances h hk victims
    exact ⟨hv.owner, hv.keyed, hv.resident⟩

theorem removeInstanceSet_counter (e : Engine) (victims : List Key) :
    (e.removeInstanceSet victims).partitionId = e.partitionId ∧
      (e.removeInstanceSet victims).nextLocal = e.nextLocal := by
  unfold Engine.removeInstanceSet
  split <;> exact ⟨rfl, rfl⟩

/-! ## Spilling and rehydrating -/

/-- Lifting a job list out keeps the order of the keys it is driven by. -/
theorem foldl_takeJob_keys (ks : List Key) (acc : List Job × State)
    (hkey : ∀ (k : Key) (j : Job), acc.2.jobs[k]? = some j → j.key = k) :
    ((ks.foldl State.takeJob acc).1.map (·.key)).Sublist (acc.1.map (·.key) ++ ks) := by
  induction ks generalizing acc with
  | nil => simp
  | cons k₀ ks ih =>
    have hkey' : ∀ (k : Key) (j : Job), (State.takeJob acc k₀).2.jobs[k]? = some j → j.key = k := by
      intro k j hj
      rw [getElem?_takeJob] at hj
      split at hj
      · cases hj
      · exact hkey k j hj
    refine (ih (State.takeJob acc k₀) hkey').trans ?_
    unfold State.takeJob
    split
    · exact List.Sublist.append_left (List.sublist_cons_self k₀ ks) _
    · next j hj =>
      simp [hkey k₀ j hj]

theorem nodup_takeJobs {s : State} (h : s.jobView.OwnerExact) (key : Key) :
    ((s.takeJobs key).1.map (·.key)).Nodup := by
  unfold State.takeJobs
  split
  · exact List.nodup_nil
  · next set hset =>
    have hsub := foldl_takeJob_keys set.toList ([], { s with jobsByInstance := s.jobsByInstance.erase key }) h.jobKey
    refine List.Nodup.sublist hsub ?_
    rw [List.map_nil, List.nil_append]
    exact Std.ExtTreeMap.nodup_keys

theorem jobView_rehydrateJob (s : State) (job : Job) :
    (Engine.rehydrateJob job.instanceKey s job).jobView = (insertJob s job).jobView := by
  simp only [Engine.rehydrateJob, insertJob, State.linkJob, State.resyncJobIndex,
    Std.ExtTreeMap.getElem?_insert_self, State.jobView]

theorem instances_rehydrateJob (i : Key) (s : State) (job : Job) :
    (Engine.rehydrateJob i s job).instances = s.instances := by
  unfold Engine.rehydrateJob State.resyncJobIndex
  dsimp only
  split <;> rfl

theorem getElem?_rehydrateJob (i : Key) (s : State) (job : Job) (k : Key) :
    (Engine.rehydrateJob i s job).jobs[k]? = if job.key = k then some job else s.jobs[k]? := by
  have hjobs : (Engine.rehydrateJob i s job).jobs = s.jobs.insert job.key job := by
    simp only [Engine.rehydrateJob, State.linkJob, State.resyncJobIndex, Std.ExtTreeMap.getElem?_insert_self]
  rw [hjobs, Std.ExtTreeMap.getElem?_insert]
  simp only [Std.LawfulEqCmp.compare_eq_iff_eq]

/-- Putting back the jobs of one instance, none of which is resident. -/
theorem rehydrateJobs_spec (i : Key) (jobs : List Job) (s : State) (h : s.jobView.OwnerExact)
    (hown : ∀ j ∈ jobs, j.instanceKey = i) (hfree : ∀ j ∈ jobs, s.jobs[j.key]? = none)
    (hnodup : (jobs.map (·.key)).Nodup) :
    (jobs.foldl (Engine.rehydrateJob i) s).jobView.OwnerExact ∧
      (∀ k, (jobs.foldl (Engine.rehydrateJob i) s).jobs[k]? ≠ none → s.jobs[k]? ≠ none ∨ k ∈ jobs.map (·.key)) ∧
      (jobs.foldl (Engine.rehydrateJob i) s).instances = s.instances := by
  induction jobs generalizing s with
  | nil => exact ⟨h, fun k hk => Or.inl hk, rfl⟩
  | cons job jobs ih =>
    obtain rfl := hown job List.mem_cons_self
    rw [List.map_cons, List.nodup_cons] at hnodup
    have hex : (Engine.rehydrateJob job.instanceKey s job).jobView.OwnerExact := by
      rw [jobView_rehydrateJob]
      exact ownerExact_insertJob h job (hfree job List.mem_cons_self)
    have hfree' : ∀ j ∈ jobs, (Engine.rehydrateJob job.instanceKey s job).jobs[j.key]? = none := by
      intro j hj
      have hne : job.key ≠ j.key := fun e => hnodup.1 (e ▸ List.mem_map_of_mem hj)
      rw [getElem?_rehydrateJob, if_neg hne]
      exact hfree j (List.mem_cons_of_mem _ hj)
    obtain ⟨h₁, h₂, h₃⟩ := ih _ hex (fun j hj => hown j (List.mem_cons_of_mem _ hj)) hfree' hnodup.2
    refine ⟨h₁, fun k hk => ?_, h₃.trans (instances_rehydrateJob _ _ _)⟩
    rcases h₂ k hk with hk | hk
    · rw [getElem?_rehydrateJob] at hk
      split at hk
      · next e => exact Or.inr (e ▸ List.mem_cons_self)
      · exact Or.inl hk
    · exact Or.inr (List.mem_cons_of_mem _ hk)

/-! ## The system -/

structure JobSystem where
  engine : Engine
  /-- Snapshots of spilled instances. -/
  cold : List InstanceSnapshot := []
  /-- Minted keys that no job carries yet. -/
  pool : List Key := []

inductive JobOp where
  | mint
  | event (e : Event)
  | recoverLease (jobKey : Key) (deadline now : Nat)
  | evictInstance (key : Key)
  | evictInstances (keys : List Key)
  | retireInstances (keys : List Key)
  | reapTombstoned (created : List Key)
  | retireBelow (iter : List Key) (lowWater maxRemove : Nat)
  | snapshotInstance (key : Key)
  | rehydrateInstance (key : Key)
  | restart

namespace JobSystem

def start (partitionId : Nat) : JobSystem := { engine := Engine.withPartition partitionId }

/-- One step; `none` where `mint_key` asserts or where a job-creating event carries no pooled key. -/
def step (c : JobSystem) : JobOp → Option JobSystem
  | .mint =>
    if c.engine.nextLocal < localMask then
      some { c with engine := c.engine.mintKey.2, pool := c.engine.mintKey.1 :: c.pool }
    else none
  | .event e =>
    let engine := { c.engine with state := apply c.engine.state e }
    match e.createdJobKey with
    | none => some { c with engine }
    | some k => if k ∈ c.pool then some { c with engine, pool := c.pool.erase k } else none
  | .recoverLease jobKey deadline now => some { c with engine := (c.engine.recoverLease jobKey deadline now).2 }
  | .evictInstance key => some { c with engine := (c.engine.evictInstance key).2 }
  | .evictInstances keys => some { c with engine := c.engine.evictInstances keys }
  | .retireInstances keys => some { c with engine := c.engine.retireInstances keys }
  | .reapTombstoned created => some { c with engine := c.engine.reapTombstoned created }
  | .retireBelow iter lowWater maxRemove => some { c with engine := (c.engine.retireBelow iter lowWater maxRemove).2 }
  | .snapshotInstance key =>
    match c.engine.snapshotInstance key with
    | (some snap, engine) => some { c with engine, cold := snap :: c.cold }
    | (none, engine) => some { c with engine }
  | .rehydrateInstance key =>
    match c.cold.find? (·.inst.key == key) with
    | some snap =>
      some { c with engine := c.engine.rehydrateInstance snap, cold := c.cold.eraseP (·.inst.key == key) }
    | none => some c
  | .restart => some { engine := Engine.fromSnapshot c.engine.snapshot }

def run (c : JobSystem) : List JobOp → Option JobSystem
  | [] => some c
  | op :: ops => (c.step op).bind (·.run ops)

/-- The step is no lease recovery that succeeds. -/
def recoversNoLease (c : JobSystem) : JobOp → Bool
  | .recoverLease jobKey deadline now => !c.engine.leaseRecoverable jobKey deadline now
  | _ => true

/-- No step of the run is a lease recovery that succeeds. -/
def runRecoversNoLease (c : JobSystem) : List JobOp → Bool
  | [] => true
  | op :: ops => c.recoversNoLease op && (c.step op).all (·.runRecoversNoLease ops)

/-- The job keys of the spilled instances. -/
def coldKeys (c : JobSystem) : List Key := c.cold.flatMap fun snap => snap.jobs.map (·.key)

/-- The key was minted by this engine's counter. -/
def Minted (c : JobSystem) (k : Key) : Prop := partitionOf k = c.engine.partitionId ∧ localOf k ≤ c.engine.nextLocal

structure Inv (c : JobSystem) : Prop where
  owner : c.engine.state.jobView.OwnerExact
  keyed : InstancesKeyed c.engine.state
  poolNodup : c.pool.Nodup
  poolMinted : ∀ k ∈ c.pool, c.Minted k
  poolFree : ∀ k ∈ c.pool, c.engine.state.jobs[k]? = none ∧ k ∉ c.coldKeys
  residentMinted : ∀ k : Key, c.engine.state.jobs[k]? ≠ none → c.Minted k
  coldMinted : ∀ k ∈ c.coldKeys, c.Minted k
  coldFree : ∀ k ∈ c.coldKeys, c.engine.state.jobs[k]? = none
  coldNodup : c.coldKeys.Nodup
  coldOwned : ∀ snap ∈ c.cold, ∀ j ∈ snap.jobs, j.instanceKey = snap.inst.key

theorem inv_start (p : Nat) : (start p).Inv where
  owner := exact_empty.toOwnerExact
  keyed := by intro k i hi; simp [start, Engine.withPartition] at hi
  poolNodup := List.nodup_nil
  poolMinted := by intro k hk; cases hk
  poolFree := by intro k hk; cases hk
  residentMinted := by intro k hk; simp [start, Engine.withPartition] at hk
  coldMinted := by intro k hk; cases hk
  coldFree := by intro k hk; cases hk
  coldNodup := List.nodup_nil
  coldOwned := by intro snap hs; cases hs

/-- An operation that only removes jobs, and leaves the counter alone, keeps the invariant. -/
theorem Inv.shrink {c : JobSystem} (h : c.Inv) {engine : Engine} (hs : Shrunk c.engine.state engine.state)
    (hp : engine.partitionId = c.engine.partitionId) (hn : engine.nextLocal = c.engine.nextLocal) :
    ({ c with engine } : JobSystem).Inv := by
  have hfree : ∀ k : Key, c.engine.state.jobs[k]? = none → engine.state.jobs[k]? = none := by
    intro k hk
    refine Classical.byContradiction fun hne => hs.resident k hne hk
  have hm : ∀ k, c.Minted k → ({ c with engine } : JobSystem).Minted k := by
    intro k ⟨h₁, h₂⟩
    exact ⟨h₁.trans hp.symm, hn ▸ h₂⟩
  exact
    { owner := hs.owner
      keyed := hs.keyed
      poolNodup := h.poolNodup
      poolMinted := fun k hk => hm k (h.poolMinted k hk)
      poolFree := fun k hk => ⟨hfree k (h.poolFree k hk).1, (h.poolFree k hk).2⟩
      residentMinted := fun k hk => hm k (h.residentMinted k (hs.resident k hk))
      coldMinted := fun k hk => hm k (h.coldMinted k hk)
      coldFree := fun k hk => hfree k (h.coldFree k hk)
      coldNodup := h.coldNodup
      coldOwned := h.coldOwned }

theorem Inv.removeInstanceSet {c : JobSystem} (h : c.Inv) (engine : Engine) (victims : List Key)
    (hs : engine.state = c.engine.state) (hp : engine.partitionId = c.engine.partitionId)
    (hn : engine.nextLocal = c.engine.nextLocal) :
    ({ c with engine := engine.removeInstanceSet victims } : JobSystem).Inv := by
  have hex : engine.state.jobView.OwnerExact := hs ▸ h.owner
  have hk : InstancesKeyed engine.state := hs ▸ h.keyed
  have hc := removeInstanceSet_counter engine victims
  exact h.shrink (hs ▸ shrunk_removeInstanceSet hex hk victims) (hc.1.trans hp) (hc.2.trans hn)

/-- `mint_key` hands out a key that is neither pooled nor on a job. -/
theorem Inv.mint {c : JobSystem} (h : c.Inv) (hroom : c.engine.nextLocal < localMask) :
    ({ c with engine := c.engine.mintKey.2, pool := c.engine.mintKey.1 :: c.pool } : JobSystem).Inv := by
  have hloc : localOf c.engine.mintKey.1 = c.engine.nextLocal + 1 := by
    refine localOf_composeKey ?_
    unfold localMask at hroom
    omega
  have hnew : ∀ k, c.Minted k → k ≠ c.engine.mintKey.1 := by
    rintro k ⟨-, hk⟩ rfl
    omega
  have hm : ∀ k, c.Minted k → partitionOf k = c.engine.partitionId ∧ localOf k ≤ c.engine.nextLocal + 1 :=
    fun k hk => ⟨hk.1, Nat.le_succ_of_le hk.2⟩
  have hfree : c.engine.state.jobs[c.engine.mintKey.1]? = none := by
    refine Classical.byContradiction fun hne => ?_
    exact hnew _ (h.residentMinted _ hne) rfl
  refine
    { owner := h.owner
      keyed := h.keyed
      poolNodup := ?_
      poolMinted := fun k hk => ?_
      poolFree := fun k hk => ?_
      residentMinted := fun k hk => hm k (h.residentMinted k hk)
      coldMinted := fun k hk => hm k (h.coldMinted k hk)
      coldFree := h.coldFree
      coldNodup := h.coldNodup
      coldOwned := h.coldOwned }
  · exact List.nodup_cons.2 ⟨fun hk => hnew _ (h.poolMinted _ hk) rfl, h.poolNodup⟩
  · rcases List.mem_cons.1 hk with rfl | hk
    · exact ⟨partitionOf_composeKey _ _, Nat.le_of_eq hloc⟩
    · exact hm k (h.poolMinted k hk)
  · rcases List.mem_cons.1 hk with rfl | hk
    · exact ⟨hfree, fun hc => hnew _ (h.coldMinted _ hc) rfl⟩
    · exact h.poolFree k hk

/-- An event that creates no job. -/
theorem Inv.event {c : JobSystem} (h : c.Inv) (e : Event) (he : e.createdJobKey = none) :
    ({ c with engine := { c.engine with state := apply c.engine.state e } } : JobSystem).Inv := by
  refine h.shrink ⟨ownerExact_apply h.owner e ?_, instancesKeyed_apply h.keyed e, fun k hk => ?_⟩ rfl rfl
  · intro k hk
    rw [he] at hk
    cases hk
  · rcases resident_apply hk with hk | hk
    · exact hk
    · rw [he] at hk
      cases hk

/-- An event that creates a job under a pooled key. -/
theorem Inv.createJob {c : JobSystem} (h : c.Inv) (e : Event) (k₀ : Key) (he : e.createdJobKey = some k₀)
    (hpool : k₀ ∈ c.pool) :
    ({ c with engine := { c.engine with state := apply c.engine.state e }, pool := c.pool.erase k₀ } :
      JobSystem).Inv := by
  have hnew : ∀ k, k ≠ k₀ → c.engine.state.jobs[k]? = none → (apply c.engine.state e).jobs[k]? = none := by
    intro k hne hk
    refine Classical.byContradiction fun hres => ?_
    rcases resident_apply hres with hres | hres
    · exact hres hk
    · rw [he] at hres
      exact hne (Option.some.inj hres).symm
  have hpool' : ∀ k ∈ c.pool.erase k₀, k ∈ c.pool ∧ k ≠ k₀ := by
    intro k hk
    exact ⟨List.mem_of_mem_erase hk, fun e => (h.poolNodup.not_mem_erase) (e ▸ hk)⟩
  refine
    { owner := ownerExact_apply h.owner e fun k hk => ?_
      keyed := instancesKeyed_apply h.keyed e
      poolNodup := h.poolNodup.erase _
      poolMinted := fun k hk => h.poolMinted k (hpool' k hk).1
      poolFree := fun k hk => ?_
      residentMinted := fun k hk => ?_
      coldMinted := h.coldMinted
      coldFree := fun k hk => ?_
      coldNodup := h.coldNodup
      coldOwned := h.coldOwned }
  · rw [he] at hk
    obtain rfl := Option.some.inj hk
    exact (h.poolFree k₀ hpool).1
  · obtain ⟨hk, hne⟩ := hpool' k hk
    exact ⟨hnew k hne (h.poolFree k hk).1, (h.poolFree k hk).2⟩
  · rcases resident_apply hk with hk | hk
    · exact h.residentMinted k hk
    · rw [he] at hk
      obtain rfl := Option.some.inj hk
      exact h.poolMinted k₀ hpool
  · exact hnew k (fun e => (h.poolFree k₀ hpool).2 (e ▸ hk)) (h.coldFree k hk)

/-- Lifting a resident instance into the cold store. -/
theorem Inv.snapshotInstance {c : JobSystem} (h : c.Inv) (key : Key) (i : ProcessInstance)
    (hi : c.engine.state.instances[key]? = some i) :
    ({ c with
       engine := { c.engine with state := (Engine.liftInstance c.engine.state key i).2 }
       cold := (Engine.liftInstance c.engine.state key i).1 :: c.cold } : JobSystem).Inv := by
  obtain ⟨hex, hjob, htaken, hinst⟩ := takeJobs_spec h.owner key
  have hview : (Engine.liftInstance c.engine.state key i).2.jobView = (c.engine.state.takeJobs key).2.jobView := rfl
  have hjobs : (Engine.liftInstance c.engine.state key i).2.jobs = (c.engine.state.takeJobs key).2.jobs := rfl
  have hsnap : (Engine.liftInstance c.engine.state key i).1.jobs = (c.engine.state.takeJobs key).1 := rfl
  have hkeys : ∀ k, k ∈ (c.engine.state.takeJobs key).1.map (·.key) →
      ∃ j, c.engine.state.jobs[k]? = some j ∧ j.instanceKey = key := by
    intro k hk
    obtain ⟨j, hj, rfl⟩ := List.mem_map.1 hk
    exact ⟨j, htaken j hj⟩
  have hgone : ∀ k : Key, c.engine.state.jobs[k]? = none → (c.engine.state.takeJobs key).2.jobs[k]? = none := by
    intro k hk
    refine Option.eq_none_iff_forall_ne_some.2 fun j hj => ?_
    rw [((hjob k j).1 hj).1] at hk
    cases hk
  have hcold : ∀ k, k ∈ ({ c with
       engine := { c.engine with state := (Engine.liftInstance c.engine.state key i).2 }
       cold := (Engine.liftInstance c.engine.state key i).1 :: c.cold } : JobSystem).coldKeys ↔
      k ∈ (c.engine.state.takeJobs key).1.map (·.key) ∨ k ∈ c.coldKeys := by
    intro k
    simp only [coldKeys, List.flatMap_cons, List.mem_append, hsnap]
  refine
    { owner := hview ▸ hex
      keyed := instancesKeyed_erase h.keyed key (congrArg (·.erase key) hinst)
      poolNodup := h.poolNodup
      poolMinted := h.poolMinted
      poolFree := fun k hk => ⟨hgone k (h.poolFree k hk).1, fun hc => ?_⟩
      residentMinted := fun k hk => h.residentMinted k fun hn => hk (hgone k hn)
      coldMinted := fun k hk => ?_
      coldFree := fun k hk => ?_
      coldNodup := ?_
      coldOwned := fun snap hs j hj => ?_ }
  · rcases (hcold k).1 hc with hc | hc
    · obtain ⟨j, hj, -⟩ := hkeys k hc
      rw [(h.poolFree k hk).1] at hj
      cases hj
    · exact (h.poolFree k hk).2 hc
  · rcases (hcold k).1 hk with hk | hk
    · obtain ⟨j, hj, -⟩ := hkeys k hk
      exact h.residentMinted k (by rw [hj]; exact Option.some_ne_none j)
    · exact h.coldMinted k hk
  · rcases (hcold k).1 hk with hk | hk
    · obtain ⟨j, hj, hown⟩ := hkeys k hk
      refine Option.eq_none_iff_forall_ne_some.2 fun j' hj' => ?_
      obtain ⟨hres, hne⟩ := (hjob k j').1 hj'
      rw [← Option.some.inj (hj.symm.trans hres)] at hne
      exact hne hown
    · exact hgone k (h.coldFree k hk)
  · change (((c.engine.state.takeJobs key).1.map (·.key)) ++ c.coldKeys).Nodup
    rw [List.nodup_append]
    refine ⟨nodup_takeJobs h.owner key, h.coldNodup, fun a ha b hb e => ?_⟩
    obtain ⟨j, hj, -⟩ := hkeys a ha
    rw [e, h.coldFree b hb] at hj
    cases hj
  · rcases List.mem_cons.1 hs with rfl | hs
    · exact ((htaken j hj).2).trans (h.keyed key i hi).symm
    · exact h.coldOwned snap hs j hj

/-- Putting a spilled instance back. -/
theorem Inv.rehydrateInstance {c : JobSystem} (h : c.Inv) (key : Key) (snap : InstanceSnapshot)
    (hfind : c.cold.find? (·.inst.key == key) = some snap) :
    ({ c with engine := c.engine.rehydrateInstance snap, cold := c.cold.eraseP (·.inst.key == key) } :
      JobSystem).Inv := by
  obtain ⟨hp, before, after, hsplit, hbefore⟩ := List.find?_eq_some_iff_append.1 hfind
  have herase : c.cold.eraseP (·.inst.key == key) = before ++ after := by
    rw [hsplit, List.eraseP_append_right _ (by simpa using hbefore)]
    simp [hp]
  have hperm : c.coldKeys.Perm (snap.jobs.map (·.key) ++
      (before ++ after).flatMap fun s => s.jobs.map (·.key)) := by
    unfold coldKeys
    rw [hsplit]
    exact List.perm_middle.flatMap_right fun s : InstanceSnapshot => s.jobs.map (·.key)
  have hnodup := hperm.nodup_iff.1 h.coldNodup
  rw [List.nodup_append] at hnodup
  have hmem : snap ∈ c.cold := by simp [hsplit]
  have hin : ∀ k, k ∈ snap.jobs.map (·.key) → k ∈ c.coldKeys := fun k hk =>
    hperm.mem_iff.2 (List.mem_append_left _ hk)
  have hrest : ∀ k, k ∈ ((before ++ after).flatMap fun s => s.jobs.map (·.key)) → k ∈ c.coldKeys := fun k hk =>
    hperm.mem_iff.2 (List.mem_append_right _ hk)
  obtain ⟨hex, hres, hinst⟩ := rehydrateJobs_spec snap.inst.key snap.jobs
    { c.engine.state with instances := c.engine.state.instances.insert snap.inst.key snap.inst } h.owner
    (h.coldOwned snap hmem) (fun j hj => h.coldFree _ (hin _ (List.mem_map_of_mem hj))) hnodup.1
  have hstays : ∀ k : Key, k ∉ snap.jobs.map (·.key) → c.engine.state.jobs[k]? = none →
      (c.engine.rehydrateInstance snap).state.jobs[k]? = none := by
    intro k hk hn
    refine Classical.byContradiction fun hne => ?_
    rcases hres k hne with hne | hk'
    · exact hne hn
    · exact hk hk'
  have hcold : ({ c with engine := c.engine.rehydrateInstance snap, cold := c.cold.eraseP (·.inst.key == key) } :
      JobSystem).coldKeys = (before ++ after).flatMap fun s => s.jobs.map (·.key) := by
    unfold coldKeys
    rw [herase]
  refine
    { owner := hex
      keyed := fun k i hi => ?_
      poolNodup := h.poolNodup
      poolMinted := h.poolMinted
      poolFree := fun k hk => ⟨hstays k (fun hs => (h.poolFree k hk).2 (hin k hs)) (h.poolFree k hk).1, fun hc => ?_⟩
      residentMinted := fun k hk => ?_
      coldMinted := fun k hk => h.coldMinted k (hrest k (hcold ▸ hk))
      coldFree := fun k hk => ?_
      coldNodup := hcold ▸ hnodup.2.1
      coldOwned := fun s hs j hj => h.coldOwned s ?_ j hj }
  · have hi' : (c.engine.state.instances.insert snap.inst.key snap.inst)[k]? = some i :=
      (congrArg (fun m : KeyMap ProcessInstance => m[k]?) hinst).symm.trans hi
    rw [Std.ExtTreeMap.getElem?_insert] at hi'
    split at hi'
    · next e =>
      rw [← Option.some.inj hi']
      exact Std.LawfulEqCmp.eq_of_compare e
    · exact h.keyed k i hi'
  · exact (h.poolFree k hk).2 (hrest k (hcold ▸ hc))
  · rcases hres k hk with hk | hk
    · exact h.residentMinted k hk
    · exact h.coldMinted k (hin k hk)
  · rw [hcold] at hk
    exact hstays k (fun hs => hnodup.2.2 k hs k hk rfl) (h.coldFree k (hrest k hk))
  · have hs' : s ∈ before ++ after := herase ▸ hs
    rw [hsplit]
    rcases List.mem_append.1 hs' with hs' | hs'
    · exact List.mem_append_left _ hs'
    · exact List.mem_append_right _ (List.mem_cons_of_mem _ hs')

/-- A restart keeps the engine's jobs; the cold store and the pool do not survive it. -/
theorem Inv.restart {c : JobSystem} (h : c.Inv) :
    ({ engine := Engine.fromSnapshot c.engine.snapshot } : JobSystem).Inv where
  owner := h.owner
  keyed := h.keyed
  poolNodup := List.nodup_nil
  poolMinted := by intro k hk; cases hk
  poolFree := by intro k hk; cases hk
  residentMinted := h.residentMinted
  coldMinted := by intro k hk; cases hk
  coldFree := by intro k hk; cases hk
  coldNodup := List.nodup_nil
  coldOwned := by intro snap hs; cases hs

/-! ## Steps and runs -/

theorem ownerExact_recoverLease {e : Engine} (h : e.state.jobView.OwnerExact) (jobKey : Key) (deadline now : Nat) :
    (e.recoverLease jobKey deadline now).2.state.jobView.OwnerExact := by
  unfold Engine.recoverLease
  split
  · exact h.retag rfl fun k => map_modifyJob e.state jobKey k _ _ fun _ => rfl
  · exact h

theorem jobs_recoverLease {e : Engine} {jobKey : Key} {deadline now : Nat} {k : Key}
    (h : (e.recoverLease jobKey deadline now).2.state.jobs[k]? ≠ none) : e.state.jobs[k]? ≠ none := by
  unfold Engine.recoverLease at h
  split at h
  · intro hk
    refine h (Option.map_eq_none_iff.1 ((map_modifyJob e.state jobKey k _ (fun _ => ()) fun _ => rfl).trans ?_))
    rw [hk, Option.map_none]
  · exact h

theorem recoverLease_frame (e : Engine) (jobKey : Key) (deadline now : Nat) :
    (e.recoverLease jobKey deadline now).2.state.instances = e.state.instances ∧
      (e.recoverLease jobKey deadline now).2.partitionId = e.partitionId ∧
      (e.recoverLease jobKey deadline now).2.nextLocal = e.nextLocal := by
  unfold Engine.recoverLease
  split <;> exact ⟨rfl, rfl, rfl⟩

/-- Every step keeps the invariant. -/
theorem Inv.step {c c' : JobSystem} (h : c.Inv) (op : JobOp) (hs : c.step op = some c') : c'.Inv := by
  cases op with
  | mint =>
    simp only [JobSystem.step] at hs
    split at hs
    · next hroom =>
      obtain rfl := Option.some.inj hs
      exact h.mint hroom
    · cases hs
  | event e =>
    simp only [JobSystem.step] at hs
    split at hs
    · next he =>
      obtain rfl := Option.some.inj hs
      exact h.event e he
    · next k he =>
      split at hs
      · next hk =>
        obtain rfl := Option.some.inj hs
        exact h.createJob e k he hk
      · cases hs
  | recoverLease jobKey deadline now =>
    obtain rfl := Option.some.inj hs
    obtain ⟨hinst, hpartition, hnext⟩ := recoverLease_frame c.engine jobKey deadline now
    refine h.shrink ⟨ownerExact_recoverLease h.owner jobKey deadline now, ?_, fun k => jobs_recoverLease⟩ hpartition hnext
    intro k i hi
    rw [hinst] at hi
    exact h.keyed k i hi
  | evictInstance key =>
    obtain rfl := Option.some.inj hs
    unfold Engine.evictInstance
    split
    · have hr := shrunk_removeInstance h.owner h.keyed key
      exact h.shrink ⟨hr.owner, hr.keyed, hr.resident⟩ rfl rfl
    · exact h
  | evictInstances keys =>
    obtain rfl := Option.some.inj hs
    exact h.removeInstanceSet _ _ rfl rfl rfl
  | retireInstances keys =>
    obtain rfl := Option.some.inj hs
    exact h.removeInstanceSet { c.engine with retiredTombstones := _ } _ rfl rfl rfl
  | reapTombstoned created =>
    obtain rfl := Option.some.inj hs
    unfold Engine.reapTombstoned
    split
    · exact h
    · exact h.removeInstanceSet { c.engine with retiredTombstones := _ } _ rfl rfl rfl
  | retireBelow iter lowWater maxRemove =>
    obtain rfl := Option.some.inj hs
    unfold Engine.retireBelow
    split
    · exact h
    · dsimp only
      split
      · exact h
      · exact h.removeInstanceSet { c.engine with retiredTombstones := _ } _ rfl rfl rfl
  | snapshotInstance key =>
    simp only [JobSystem.step, Engine.snapshotInstance] at hs
    cases hi : c.engine.state.instances[key]? with
    | none =>
      simp only [hi] at hs
      obtain rfl := Option.some.inj hs
      exact h
    | some i =>
      simp only [hi] at hs
      by_cases hg : (i.state != .active || i.variablesSpilled) = true
      · simp only [hg, if_true] at hs
        obtain rfl := Option.some.inj hs
        exact h
      · simp only [hg, Bool.false_eq_true, if_false] at hs
        obtain rfl := Option.some.inj hs
        exact h.snapshotInstance key i hi
  | rehydrateInstance key =>
    simp only [JobSystem.step] at hs
    split at hs
    · next snap hfind =>
      obtain rfl := Option.some.inj hs
      exact h.rehydrateInstance key snap hfind
    · obtain rfl := Option.some.inj hs
      exact h
  | restart =>
    obtain rfl := Option.some.inj hs
    exact h.restart

theorem Inv.run {c c' : JobSystem} (h : c.Inv) (ops : List JobOp) (hrun : c.run ops = some c') : c'.Inv := by
  induction ops generalizing c with
  | nil =>
    obtain rfl := Option.some.inj hrun
    exact h
  | cons op ops ih =>
    obtain ⟨c₁, hstep, hrest⟩ := Option.bind_eq_some_iff.1 hrun
    exact ih (h.step op hstep) hrest

/-! ## The state indices -/

section Law

variable {P : JobView → Prop} (hP : JobView.Law P)

include hP

theorem law_removeInstance {s : State} (h : P s.jobView) (key : Key) : P (s.removeInstance key).jobView :=
  hP.takeJobs (s := { s with instances := s.instances.erase key }) h key

theorem law_removeInstances {s : State} (h : P s.jobView) (victims : List Key) :
    P (victims.foldl State.removeInstance s).jobView := by
  induction victims generalizing s with
  | nil => exact h
  | cons v vs ih => exact ih (law_removeInstance hP h v)

theorem law_removeInstanceSet {e : Engine} (h : P e.state.jobView) (victims : List Key) :
    P (e.removeInstanceSet victims).state.jobView := by
  unfold Engine.removeInstanceSet
  split
  · exact h
  · exact law_removeInstances hP h victims

theorem law_rehydrateJobs (i : Key) (jobs : List Job) {s : State} (h : P s.jobView)
    (hown : ∀ j ∈ jobs, j.instanceKey = i) (hfree : ∀ j ∈ jobs, s.jobs[j.key]? = none)
    (hnodup : (jobs.map (·.key)).Nodup) : P (jobs.foldl (Engine.rehydrateJob i) s).jobView := by
  induction jobs generalizing s with
  | nil => exact h
  | cons job jobs ih =>
    obtain rfl := hown job List.mem_cons_self
    rw [List.map_cons, List.nodup_cons] at hnodup
    refine ih ?_ (fun j hj => hown j (List.mem_cons_of_mem _ hj)) (fun j hj => ?_) hnodup.2
    · rw [jobView_rehydrateJob]
      exact hP.insertJob h job (hfree job List.mem_cons_self)
    · have hne : job.key ≠ j.key := fun e => hnodup.1 (e ▸ List.mem_map_of_mem hj)
      rw [getElem?_rehydrateJob, if_neg hne]
      exact hfree j (List.mem_cons_of_mem _ hj)

/-- Every step but a lease recovery keeps a law of the state indices; a lease recovery is left to the law. -/
theorem Inv.keeps_step {c c' : JobSystem} (h : c.Inv) (hc : P c.engine.state.jobView) (op : JobOp)
    (hlease : ∀ jobKey deadline now, op = .recoverLease jobKey deadline now →
      P (c.engine.recoverLease jobKey deadline now).2.state.jobView)
    (hs : c.step op = some c') : P c'.engine.state.jobView := by
  cases op with
  | mint =>
    simp only [JobSystem.step] at hs
    split at hs
    · obtain rfl := Option.some.inj hs
      exact hc
    · cases hs
  | event e =>
    simp only [JobSystem.step] at hs
    split at hs
    · next he =>
      obtain rfl := Option.some.inj hs
      exact hP.apply hc e (by simp [he])
    · next k he =>
      split at hs
      · next hk =>
        obtain rfl := Option.some.inj hs
        refine hP.apply hc e fun k' hk' => ?_
        obtain rfl := Option.some.inj (he.symm.trans hk')
        exact (h.poolFree k hk).1
      · cases hs
  | recoverLease jobKey deadline now =>
    obtain rfl := Option.some.inj hs
    exact hlease jobKey deadline now rfl
  | evictInstance key =>
    obtain rfl := Option.some.inj hs
    unfold Engine.evictInstance
    split
    · exact law_removeInstance hP hc key
    · exact hc
  | evictInstances keys =>
    obtain rfl := Option.some.inj hs
    exact law_removeInstanceSet hP hc _
  | retireInstances keys =>
    obtain rfl := Option.some.inj hs
    exact law_removeInstanceSet hP (by exact hc) _
  | reapTombstoned created =>
    obtain rfl := Option.some.inj hs
    unfold Engine.reapTombstoned
    split
    · exact hc
    · exact law_removeInstanceSet hP (by exact hc) _
  | retireBelow iter lowWater maxRemove =>
    obtain rfl := Option.some.inj hs
    unfold Engine.retireBelow
    split
    · exact hc
    · dsimp only
      split
      · exact hc
      · exact law_removeInstanceSet hP (by exact hc) _
  | snapshotInstance key =>
    simp only [JobSystem.step, Engine.snapshotInstance] at hs
    cases hi : c.engine.state.instances[key]? with
    | none =>
      simp only [hi] at hs
      obtain rfl := Option.some.inj hs
      exact hc
    | some i =>
      simp only [hi] at hs
      by_cases hg : (i.state != .active || i.variablesSpilled) = true
      · simp only [hg, if_true] at hs
        obtain rfl := Option.some.inj hs
        exact hc
      · simp only [hg, Bool.false_eq_true, if_false] at hs
        obtain rfl := Option.some.inj hs
        exact hP.takeJobs hc key
  | rehydrateInstance key =>
    simp only [JobSystem.step] at hs
    split at hs
    · next snap hfind =>
      obtain rfl := Option.some.inj hs
      have hmem := List.mem_of_find?_eq_some hfind
      have hin : ∀ k ∈ snap.jobs.map (·.key), k ∈ c.coldKeys :=
        fun k hk => List.mem_flatMap.2 ⟨snap, hmem, hk⟩
      refine law_rehydrateJobs hP snap.inst.key snap.jobs (s := { c.engine.state with instances := _ }) hc
        (h.coldOwned snap hmem) (fun j hj => h.coldFree _ (hin _ (List.mem_map_of_mem hj))) ?_
      exact (List.pairwise_flatMap.1 h.coldNodup).1 snap hmem
    · obtain rfl := Option.some.inj hs
      exact hc
  | restart =>
    obtain rfl := Option.some.inj hs
    exact hc

end Law

/-- Every step that is not a successful lease recovery keeps the indices exact. -/
theorem Inv.stateExact_step {c c' : JobSystem} (h : c.Inv) (hc : c.engine.state.jobView.StateExact) (op : JobOp)
    (hop : c.recoversNoLease op = true) (hs : c.step op = some c') : c'.engine.state.jobView.StateExact := by
  refine h.keeps_step law_stateExact hc op (fun jobKey deadline now hrecover => ?_) hs
  subst hrecover
  simp only [recoversNoLease, Bool.not_eq_true'] at hop
  simpa only [Engine.recoverLease, hop, Bool.false_eq_true, if_false] using hc

theorem Inv.stateExact_run {c c' : JobSystem} (h : c.Inv) (hc : c.engine.state.jobView.StateExact) (ops : List JobOp)
    (hops : c.runRecoversNoLease ops = true) (hrun : c.run ops = some c') : c'.engine.state.jobView.StateExact := by
  induction ops generalizing c with
  | nil =>
    obtain rfl := Option.some.inj hrun
    exact hc
  | cons op ops ih =>
    obtain ⟨c₁, hstep, hrest⟩ := Option.bind_eq_some_iff.1 hrun
    simp only [runRecoversNoLease, hstep, Option.all_some, Bool.and_eq_true] at hops
    exact ih (h.step op hstep) (h.stateExact_step hc op hops.1 hstep) hops.2 hrest

end JobSystem

/-! ## Counting -/

/-- The keys listed in all the per-type sets. -/
def State.slotKeys (s : State) : List Key := s.activatableJobs.toList.flatMap fun e => e.2.toList.map (·.2)

theorem mem_slotKeys {s : State} (h : s.jobView.Exact) (k : Key) :
    k ∈ s.slotKeys ↔ ∃ j, s.jobs[k]? = some j ∧ (j.state == .created) = true := by
  simp only [State.slotKeys, List.mem_flatMap, List.mem_map, Prod.exists, Std.ExtTreeMap.mem_toList_iff_getElem?_eq_some,
    Std.ExtTreeSet.mem_toList, beq_iff_eq]
  constructor
  · rintro ⟨ty, set, hset, p, k', hmem, rfl⟩
    obtain ⟨j, hj, hcreated, -, -⟩ := (h.slot_iff ty (-p) k').1
      (by simpa [activationOrder, State.jobView, hset] using hmem)
    exact ⟨j, hj, hcreated⟩
  · rintro ⟨j, hj, hcreated⟩
    have hmem := (h.slot_iff j.jobType j.priority k).2 ⟨j, hj, hcreated, rfl, rfl⟩
    cases hset : s.activatableJobs[j.jobType]? with
    | none => simp [State.jobView, hset] at hmem
    | some set => exact ⟨j.jobType, set, hset, _, k, by simpa [activationOrder, State.jobView, hset] using hmem, rfl⟩

theorem nodup_slotKeys {s : State} (h : s.jobView.Exact) : s.slotKeys.Nodup := by
  have hslot : ∀ (ty : String) (set : JobSlots), s.activatableJobs[ty]? = some set → ∀ x ∈ set,
      ∃ j, s.jobs[x.2]? = some j ∧ j.state = .created ∧ j.jobType = ty ∧ j.priority = -x.1 := by
    intro ty set hset x hx
    refine (h.slot_iff ty (-x.1) x.2).1 ?_
    simpa [activationOrder, State.jobView, hset] using hx
  refine List.pairwise_flatMap.2 ⟨?_, ?_⟩
  · rintro ⟨ty, set⟩ hmem
    rw [Std.ExtTreeMap.mem_toList_iff_getElem?_eq_some] at hmem
    rw [List.pairwise_map]
    refine Std.ExtTreeSet.distinct_toList.imp_of_mem fun {a b} ha hb hne e => hne ?_
    obtain ⟨j, hj, -, -, hp⟩ := hslot ty set hmem a (Std.ExtTreeSet.mem_toList.1 ha)
    obtain ⟨j', hj', -, -, hp'⟩ := hslot ty set hmem b (Std.ExtTreeSet.mem_toList.1 hb)
    rw [e] at hj
    obtain rfl := Option.some.inj (hj.symm.trans hj')
    have hfst : a.1 = b.1 := by omega
    rw [show a = b from Prod.ext hfst e]
    exact Std.ReflCmp.compare_self
  · refine Std.ExtTreeMap.distinct_keys_toList.imp_of_mem ?_
    rintro ⟨ty, set⟩ ⟨ty', set'⟩ hm hm' hne x hx y hy rfl
    rw [Std.ExtTreeMap.mem_toList_iff_getElem?_eq_some] at hm hm'
    obtain ⟨a, ha, rfl⟩ := List.mem_map.1 hx
    obtain ⟨b, hb, e⟩ := List.mem_map.1 hy
    obtain ⟨j, hj, -, hty, -⟩ := hslot ty set hm a (Std.ExtTreeSet.mem_toList.1 ha)
    obtain ⟨j', hj', -, hty', -⟩ := hslot ty' set' hm' b (Std.ExtTreeSet.mem_toList.1 hb)
    rw [e] at hj'
    obtain rfl := Option.some.inj (hj.symm.trans hj')
    exact hne (by rw [← hty, ← hty']; exact Std.ReflCmp.compare_self)

/-- `live_job_count` counts the jobs in state `Created` and those in state `Activated`. -/
theorem liveJobCount_of_exact {s : State} (h : s.jobView.Exact) :
    s.liveJobCount = s.jobs.vals.countP (·.state == .created) + s.jobs.vals.countP (·.state == .activated) := by
  have hslots : (s.activatableJobs.vals.map (·.size)).sum = s.slotKeys.length := by
    simp [Std.ExtTreeMap.vals, State.slotKeys, List.length_flatMap, Function.comp_def]
  have hcreated := Index.length_eq_countP s.jobs (·.state == .created) s.slotKeys (nodup_slotKeys h) (mem_slotKeys h)
  have hactive := Index.length_eq_countP s.jobs (·.state == .activated) s.activatedJobs.toList
    (Std.ExtTreeMap.nodup_keys) fun k => by
      rw [Std.ExtTreeSet.mem_toList]
      simpa [State.jobView] using h.lock_iff k
  rw [Std.ExtTreeSet.length_toList] at hactive
  unfold State.liveJobCount
  rw [hslots, hcreated, hactive, Nat.add_comm]

/-! ## The statement -/

/-- The job indices of a state are exact. -/
structure JobIndicesExact (s : State) : Prop where
  activatable : ∀ (ty : String) (p : Int) (k : Key), activationOrder p k ∈ s.activatableJobs[ty]?.getD ∅ ↔
    ∃ j, s.jobs[k]? = some j ∧ j.state = .created ∧ j.jobType = ty ∧ j.priority = p
  activated : ∀ k : Key, k ∈ s.activatedJobs ↔ ∃ j, s.jobs[k]? = some j ∧ j.state = .activated
  noEmpty : ∀ (ty : String) (set : JobSlots), s.activatableJobs[ty]? = some set → set.isEmpty = false
  byInstance : ∀ i k : Key, k ∈ s.jobsByInstance[i]?.getD ∅ ↔ ∃ j, s.jobs[k]? = some j ∧ j.instanceKey = i
  liveCount : s.liveJobCount =
    s.jobs.vals.countP (·.state == .created) + s.jobs.vals.countP (·.state == .activated)

/-- In every run none of whose lease recoveries succeeds, every state reached has exact job indices. -/
theorem jobIndices_exact_of_no_lease_recovered (partitionId : Nat) (ops : List JobOp) (c : JobSystem)
    (hrun : (JobSystem.start partitionId).run ops = some c)
    (hops : (JobSystem.start partitionId).runRecoversNoLease ops = true) : JobIndicesExact c.engine.state := by
  have hstart := JobSystem.inv_start partitionId
  have hstate := hstart.stateExact_run exact_empty.toStateExact ops hops hrun
  have hexact : c.engine.state.jobView.Exact := ⟨hstate, (hstart.run ops hrun).owner⟩
  exact ⟨hexact.slot_iff, hexact.lock_iff, hexact.noEmpty, hexact.owner_iff, liveJobCount_of_exact hexact⟩

/-! ## A recovered lease -/

/-- One service task between a start and an end event. -/
def oneTaskProcess : ProcessDefinition where
  id := "order"
  startEvent := "start"
  elements := ({} : StrMap Element)
    |>.insert "start" { id := "start", kind := .startEvent, outgoing := [{ target := "pack" }] }
    |>.insert "pack" { id := "pack", kind := .serviceTask "work" none none [] [], outgoing := [{ target := "end" }] }
    |>.insert "end" { id := "end", kind := .endEvent }

/-- The keys and events of a run that deploys `oneTaskProcess` and creates an instance: it waits on its job, under key 6. -/
def waitingOnJob : List JobOp :=
  [.mint, .event (.deploymentCreated 1), .mint, .event (.processDeployed 1 2 1 oneTaskProcess),
    .mint, .event (.processInstanceCreated 3 "order" ∅ 0 [] none 2 1 none none),
    .mint, .event (.elementActivating 3 4 "start"), .event (.elementActivated 3 4 "start" 0),
    .event (.elementCompleting 3 4 "start"), .event (.elementCompleted 3 4 "start"),
    .event (.sequenceFlowTaken 3 "start" "pack"),
    .mint, .event (.elementActivating 3 5 "pack"), .event (.elementActivated 3 5 "pack" 0),
    .mint, .event (.jobCreated 6 3 5 "pack" "work" 0 50 3)]

/-- A run with an activation, an expiry, a spill, a rehydration and a completion. -/
theorem jobIndices_exact_through_a_spill :
    ∃ c, (JobSystem.start 0).run (waitingOnJob ++
        [.event (.jobActivated 6 3 false "w" 100 (some 0) [] none), .event (.jobLockExpired 6 3),
          .snapshotInstance 3, .rehydrateInstance 3, .recoverLease 6 100 200]) = some c ∧
      JobIndicesExact c.engine.state := by
  have hrun : ((JobSystem.start 0).run (waitingOnJob ++
      [.event (.jobActivated 6 3 false "w" 100 (some 0) [] none), .event (.jobLockExpired 6 3),
        .snapshotInstance 3, .rehydrateInstance 3, .recoverLease 6 100 200])).isSome = true := by decide +kernel
  obtain ⟨c, hc⟩ := Option.isSome_iff_exists.1 hrun
  exact ⟨c, hc, jobIndices_exact_of_no_lease_recovered 0 _ c hc (by decide +kernel)⟩

/-- After a recovered lease the job is `Activated` and still listed as activatable. -/
theorem jobIndices_inexact_after_recoverLease :
    ∃ c, (JobSystem.start 0).run (waitingOnJob ++ [.recoverLease 6 100 10]) = some c ∧
      ¬ JobIndicesExact c.engine.state := by
  have hrun : ((JobSystem.start 0).run (waitingOnJob ++ [.recoverLease 6 100 10])).map (fun c =>
      ((c.engine.state.activatableJobs["work"]?.getD ∅).contains (activationOrder 50 6),
        c.engine.state.jobs[6]?.map (·.state))) = some (true, some .activated) := by decide +kernel
  obtain ⟨c, hc, hview⟩ := Option.map_eq_some_iff.1 hrun
  rw [Prod.mk.injEq] at hview
  refine ⟨c, hc, fun hex => ?_⟩
  obtain ⟨j, hj, hcreated, -, -⟩ := (hex.activatable "work" 50 6).1 (Std.ExtTreeSet.mem_iff_contains.2 hview.1)
  rw [hj, Option.map_some, hcreated] at hview
  cases hview.2

end NanoBpm
