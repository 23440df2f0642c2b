import NanoBpm.Memory

/-!
# The job indices are exact (`state/types.rs:1254-1277`, `:1615-1678`)

Every job operation of the engine goes through one of four shapes: a record is put back and
`resync_job_index` is called for it, a record changes outside of what the indices look at, a fresh
record is inserted, or the records of one instance are lifted out. Each shape has one lemma here, and
a run over all operations is an induction over them. The shape `recover_lease` has is none of the
four: it sets the job `Activated` and does not resync, so its slot in `activatable_jobs` stays.
-/

namespace NanoBpm

/-! ## Slots -/

/-- The slot is listed in `activatable_jobs[type]`. -/
def hasSlot (m : StrMap JobSlots) (ty : String) (slot : JobSlot) : Prop := slot ∈ m[ty]?.getD ∅

/-- No per-type set is empty. -/
def NoEmptySlots (m : StrMap JobSlots) : Prop :=
  ∀ (ty : String) (set : JobSlots), m[ty]? = some set → set.isEmpty = false

theorem hasSlot_addSlot (m : StrMap JobSlots) (ty t : String) (o x : JobSlot) :
    hasSlot (State.addSlot m ty o) t x ↔ (t = ty ∧ x = o) ∨ hasSlot m t x := by
  unfold hasSlot State.addSlot
  rw [Std.ExtTreeMap.getElem?_insert]
  by_cases h : ty = t
  · subst h
    simp [eq_comm (a := x)]
  · have h' : ¬ t = ty := fun e => h e.symm
    simp [h, h']

theorem hasSlot_dropSlot (m : StrMap JobSlots) (ty t : String) (o x : JobSlot) :
    hasSlot (State.dropSlot m ty o) t x ↔ hasSlot m t x ∧ ¬ (t = ty ∧ x = o) := by
  unfold hasSlot State.dropSlot
  cases hm : m[ty]? with
  | none =>
    refine ⟨fun h => ⟨h, ?_⟩, fun h => h.1⟩
    rintro ⟨rfl, -⟩
    simp [hm] at h
  | some set =>
    have hset : ∀ e : m[ty]? = some set, x ∈ set.erase o ↔ x ∈ (m[ty]?.getD ∅) ∧ ¬ x = o := by
      intro e
      simp [e, and_comm, eq_comm (a := x)]
    by_cases h : ty = t
    · subst h
      by_cases he : (set.erase o).isEmpty = true
      · have hx : x ∉ set.erase o := by
          rw [Std.ExtTreeSet.isEmpty_iff] at he
          simp [he]
        simp only [he, if_true, Std.ExtTreeMap.getElem?_erase_self, Option.getD_none,
          Std.ExtTreeSet.not_mem_empty, true_and, false_iff]
        exact fun hc => hx ((hset hm).2 hc)
      · simp only [he, Bool.false_eq_true, if_false, Std.ExtTreeMap.getElem?_insert_self, Option.getD_some, true_and]
        exact hset hm
    · have h' : ¬ t = ty := fun e => h e.symm
      by_cases he : (set.erase o).isEmpty = true <;>
        simp only [he, if_true, Bool.false_eq_true, if_false, Std.ExtTreeMap.getElem?_erase,
          Std.ExtTreeMap.getElem?_insert, Std.LawfulEqCmp.compare_eq_iff_eq, h, h', false_and, not_false_eq_true, and_true]

theorem noEmptySlots_addSlot {m : StrMap JobSlots} (h : NoEmptySlots m) (ty : String) (o : JobSlot) :
    NoEmptySlots (State.addSlot m ty o) := by
  intro t set hset
  unfold State.addSlot at hset
  rw [Std.ExtTreeMap.getElem?_insert] at hset
  split at hset
  · obtain rfl := Option.some.inj hset
    simp
  · exact h t set hset

theorem noEmptySlots_dropSlot {m : StrMap JobSlots} (h : NoEmptySlots m) (ty : String) (o : JobSlot) :
    NoEmptySlots (State.dropSlot m ty o) := by
  intro t set hset
  unfold State.dropSlot at hset
  split at hset
  · exact h t set hset
  · dsimp only at hset
    split at hset
    · rw [Std.ExtTreeMap.getElem?_erase] at hset
      split at hset
      · cases hset
      · exact h t set hset
    · next he =>
      rw [Std.ExtTreeMap.getElem?_insert] at hset
      split at hset
      · obtain rfl := Option.some.inj hset
        simpa using he
      · exact h t set hset

/-! ## Exactness -/

/-- What `activatable_jobs` lists a job under. -/
def Job.slotTag (j : Job) : Option (String × Int) :=
  if j.state = .created then some (j.jobType, -j.priority) else none

/-- Whether `activated_jobs` lists a job. -/
def Job.lockTag (j : Job) : Option Unit := if j.state = .activated then some () else none

/-- The job table and its three indices. -/
structure JobView where
  jobs : KeyMap Job
  activatable : StrMap JobSlots
  activated : KeySet
  byInstance : KeyMap KeySet

def State.jobView (s : State) : JobView := ⟨s.jobs, s.activatableJobs, s.activatedJobs, s.jobsByInstance⟩

/-- The two indices `resync_job_index` keeps. -/
structure JobView.StateExact (v : JobView) : Prop where
  slots : Index.Exact (fun k => v.jobs[k]?) Job.slotTag fun t k => hasSlot v.activatable t.1 (t.2, k)
  locks : Index.Exact (fun k => v.jobs[k]?) Job.lockTag fun _ k => k ∈ v.activated
  noEmpty : NoEmptySlots v.activatable

/-- The owner index, and that a job is filed under its own key. -/
structure JobView.OwnerExact (v : JobView) : Prop where
  owners : Index.Exact (fun k => v.jobs[k]?) (fun j : Job => some j.instanceKey)
    fun i k => k ∈ v.byInstance[i]?.getD ∅
  jobKey : ∀ (k : Key) (j : Job), v.jobs[k]? = some j → j.key = k

/-- All job indices are exact. -/
structure JobView.Exact (v : JobView) : Prop extends v.StateExact, v.OwnerExact

theorem JobView.StateExact.slot_iff {v : JobView} (h : v.StateExact) (ty : String) (p : Int) (k : Key) :
    activationOrder p k ∈ v.activatable[ty]?.getD ∅ ↔
      ∃ j, v.jobs[k]? = some j ∧ j.state = .created ∧ j.jobType = ty ∧ j.priority = p := by
  refine (h.slots (ty, -p) k).trans (Option.bind_eq_some_iff.trans (exists_congr fun j => and_congr_right fun _ => ?_))
  unfold Job.slotTag
  split <;> simp_all

theorem JobView.StateExact.lock_iff {v : JobView} (h : v.StateExact) (k : Key) :
    k ∈ v.activated ↔ ∃ j, v.jobs[k]? = some j ∧ j.state = .activated := by
  refine (h.locks () k).trans (Option.bind_eq_some_iff.trans (exists_congr fun j => and_congr_right fun _ => ?_))
  unfold Job.lockTag
  split <;> simp_all

theorem JobView.OwnerExact.owner_iff {v : JobView} (h : v.OwnerExact) (i k : Key) :
    k ∈ v.byInstance[i]?.getD ∅ ↔ ∃ j, v.jobs[k]? = some j ∧ j.instanceKey = i := by
  refine (h.owners i k).trans (Option.bind_eq_some_iff.trans (exists_congr fun j => and_congr_right fun _ => ?_))
  exact Option.some_inj

/-- Two records the indices cannot tell apart except by their state. -/
def Job.SameSlot (j j' : Job) : Prop :=
  j'.key = j.key ∧ j'.jobType = j.jobType ∧ j'.priority = j.priority ∧ j'.instanceKey = j.instanceKey

theorem exact_empty : (State.jobView {}).Exact where
  slots := by intro t k; simp [State.jobView, hasSlot]
  locks := by intro t k; simp [State.jobView]
  noEmpty := by intro ty set h; simp [State.jobView] at h
  owners := by intro t k; simp [State.jobView]
  jobKey := by intro k j h; simp [State.jobView] at h

/-- Every listed slot is that of a created or a locked job, and every created job is listed: what is left of `StateExact`
once a lease has been recovered. -/
structure JobView.Listed (v : JobView) : Prop where
  slotOf : ∀ (t : String × Int) (k : Key), hasSlot v.activatable t.1 (t.2, k) →
    ∃ j, v.jobs[k]? = some j ∧ t = (j.jobType, -j.priority) ∧ (j.state = .created ∨ j.state = .activated)
  listed : ∀ (k : Key) (j : Job), v.jobs[k]? = some j → j.state = .created →
    hasSlot v.activatable j.jobType (-j.priority, k)
  locks : Index.Exact (fun k => v.jobs[k]?) Job.lockTag fun _ k => k ∈ v.activated
  noEmpty : NoEmptySlots v.activatable

theorem JobView.StateExact.listed {v : JobView} (h : v.StateExact) : v.Listed where
  slotOf := by
    intro t k ht
    obtain ⟨j, hj, htag⟩ := Option.bind_eq_some_iff.1 ((h.slots t k).1 ht)
    unfold Job.slotTag at htag
    split at htag
    · next hstate => exact ⟨j, hj, (Option.some.inj htag).symm, Or.inl hstate⟩
    · cases htag
  listed := by
    intro k j hj hstate
    refine (h.slots (j.jobType, -j.priority) k).2 (Option.bind_eq_some_iff.2 ⟨j, hj, ?_⟩)
    rw [Job.slotTag, if_pos hstate]
  locks := h.locks
  noEmpty := h.noEmpty

/-! ## The shapes -/

/-- A property of the two state indices that every shape keeps. -/
structure JobView.Law (P : JobView → Prop) : Prop where
  owners : ∀ {v : JobView} (byInstance : KeyMap KeySet), P v → P { v with byInstance }
  /-- Records change, but in nothing an index looks at. -/
  retag : ∀ {v : JobView} (jobs : KeyMap Job) (f : Key → Job → Job),
    (∀ k j, v.jobs[k]? = some j → j.SameSlot (f k j) ∧ (f k j).state = j.state) →
    (∀ k, jobs[k]? = v.jobs[k]?.map (f k)) → P v → P { v with jobs }
  /-- `resync_job_index` after the record of `k` was put back: the state indices follow it, provided the record it
  replaces sat in the same slot. -/
  resync : ∀ {s : State} {v : JobView} (k : Key) (j : Job), s.jobs[k]? = some j →
    (∀ k', k' ≠ k → s.jobs[k']? = v.jobs[k']?) → s.activatableJobs = v.activatable → s.activatedJobs = v.activated →
    (∀ j₀, v.jobs[k]? = some j₀ → j₀.SameSlot j) → P v → P (s.resyncJobIndex k).jobView
  /-- One job is lifted out. -/
  takeJob : ∀ {acc : List Job × State} (k : Key), P acc.2.jobView → P (State.takeJob acc k).2.jobView

theorem hasSlot_resyncJobIndex {s : State} {k : Key} {j : Job} (hj : s.jobs[k]? = some j) (t : String) (x : JobSlot) :
    hasSlot (s.resyncJobIndex k).activatableJobs t x ↔
      (j.state = .created ∧ t = j.jobType ∧ x = activationOrder j.priority k) ∨
        (hasSlot s.activatableJobs t x ∧ (j.state = .created ∨ ¬ (t = j.jobType ∧ x = activationOrder j.priority k))) := by
  simp only [State.resyncJobIndex, hj]
  by_cases hstate : j.state = .created
  · simp [hstate, hasSlot_addSlot]
  · simp [hstate, hasSlot_dropSlot]

theorem mem_activatedJobs_resyncJobIndex {s : State} {k : Key} {j : Job} (hj : s.jobs[k]? = some j) (x : Key) :
    x ∈ (s.resyncJobIndex k).activatedJobs ↔ (j.state = .activated ∧ x = k) ∨ (x ∈ s.activatedJobs ∧ x ≠ k) := by
  simp only [State.resyncJobIndex, hj]
  by_cases hstate : j.state = .activated
  · by_cases hx : x = k <;> simp [hstate, hx, eq_comm (a := k)]
  · simp [hstate, and_comm, eq_comm (a := x)]

theorem jobs_resyncJobIndex (s : State) (k : Key) : (s.resyncJobIndex k).jobs = s.jobs := by
  unfold State.resyncJobIndex
  split <;> rfl

theorem noEmptySlots_resyncJobIndex {s : State} (h : NoEmptySlots s.activatableJobs) (k : Key) :
    NoEmptySlots (s.resyncJobIndex k).activatableJobs := by
  unfold State.resyncJobIndex
  split
  · exact h
  · dsimp only
    split
    · exact noEmptySlots_addSlot h _ _
    · exact noEmptySlots_dropSlot h _ _

theorem getElem?_takeJob (acc : List Job × State) (k k' : Key) :
    (State.takeJob acc k).2.jobs[k']? = if k = k' then none else acc.2.jobs[k']? := by
  cases hj : acc.2.jobs[k]? with
  | none =>
    simp only [State.takeJob, hj]
    split
    · next e => rw [← e, hj]
    · rfl
  | some j => simp [State.takeJob, hj, State.deindexJob, Std.ExtTreeMap.getElem?_erase]

theorem takeJob_of_none {acc : List Job × State} {k : Key} (h : acc.2.jobs[k]? = none) : State.takeJob acc k = acc := by
  simp only [State.takeJob, h]

theorem hasSlot_takeJob {acc : List Job × State} {k : Key} {j : Job} (hj : acc.2.jobs[k]? = some j) (t : String)
    (x : JobSlot) : hasSlot (State.takeJob acc k).2.activatableJobs t x ↔
      hasSlot acc.2.activatableJobs t x ∧ ¬ (t = j.jobType ∧ x = activationOrder j.priority k) := by
  simp only [State.takeJob, hj, State.deindexJob, hasSlot_dropSlot]

theorem mem_activatedJobs_takeJob {acc : List Job × State} {k : Key} {j : Job} (hj : acc.2.jobs[k]? = some j) (x : Key) :
    x ∈ (State.takeJob acc k).2.activatedJobs ↔ x ∈ acc.2.activatedJobs ∧ x ≠ k := by
  simp only [State.takeJob, hj, State.deindexJob]
  simp [and_comm, eq_comm (a := x)]

theorem noEmptySlots_takeJob {acc : List Job × State} (h : NoEmptySlots acc.2.activatableJobs) (k : Key) :
    NoEmptySlots (State.takeJob acc k).2.activatableJobs := by
  unfold State.takeJob
  split
  · exact h
  · exact noEmptySlots_dropSlot h _ _

/-- The locks are exact after a record changes in nothing an index looks at. -/
theorem locks_retag {v : JobView} (h : Index.Exact (fun k => v.jobs[k]?) Job.lockTag fun _ k => k ∈ v.activated)
    {jobs : KeyMap Job} {f : Key → Job → Job} (hf : ∀ k j, v.jobs[k]? = some j → (f k j).state = j.state)
    (hjobs : ∀ k, jobs[k]? = v.jobs[k]?.map (f k)) :
    Index.Exact (fun k => jobs[k]?) Job.lockTag fun _ k => k ∈ v.activated := by
  refine h.congr (fun k => ?_) fun _ _ => Iff.rfl
  rw [hjobs k]
  cases hv : v.jobs[k]? with
  | none => rfl
  | some j => simp [Job.lockTag, hf k j hv]

/-- The locks are exact after a record was put back and resynced. -/
theorem locks_resync {s : State} {v : JobView} {k : Key} {j : Job}
    (h : Index.Exact (fun k => v.jobs[k]?) Job.lockTag fun _ k => k ∈ v.activated) (hj : s.jobs[k]? = some j)
    (hoff : ∀ k', k' ≠ k → s.jobs[k']? = v.jobs[k']?) (hlock : s.activatedJobs = v.activated) :
    Index.Exact (fun k' => (s.resyncJobIndex k).jobs[k']?) Job.lockTag fun _ k' => k' ∈ (s.resyncJobIndex k).activatedJobs := by
  rw [jobs_resyncJobIndex]
  refine h.set k hoff (fun _ k' hk => ?_) fun t => ?_
  · rw [mem_activatedJobs_resyncJobIndex hj, hlock]
    simp [hk]
  · rw [mem_activatedJobs_resyncJobIndex hj, hj, Option.bind_some, Job.lockTag]
    split
    · next hstate => simp [hstate]
    · next hstate => simp [hstate]

/-- The locks are exact after a job was lifted out. -/
theorem locks_takeJob {acc : List Job × State} {k : Key} {j : Job} (hj : acc.2.jobs[k]? = some j)
    (h : Index.Exact (fun k => acc.2.jobs[k]?) Job.lockTag fun _ k => k ∈ acc.2.activatedJobs) :
    Index.Exact (fun k' => (State.takeJob acc k).2.jobs[k']?) Job.lockTag
      fun _ k' => k' ∈ (State.takeJob acc k).2.activatedJobs := by
  refine h.set k (fun k' hk => ?_) (fun _ k' hk => ?_) fun t => ?_
  · rw [getElem?_takeJob, if_neg fun e => hk e.symm]
  · rw [mem_activatedJobs_takeJob hj]
    simp [hk]
  · rw [mem_activatedJobs_takeJob hj, getElem?_takeJob, if_pos rfl]
    simp

theorem law_stateExact : JobView.Law JobView.StateExact where
  owners _ h := ⟨h.slots, h.locks, h.noEmpty⟩
  retag {v} jobs f hf hjobs h := by
    refine ⟨h.slots.congr (fun k => ?_) fun _ _ => Iff.rfl, locks_retag h.locks (fun k j hj => (hf k j hj).2) hjobs,
      h.noEmpty⟩
    rw [hjobs k]
    cases hv : v.jobs[k]? with
    | none => rfl
    | some j =>
      obtain ⟨⟨-, hty, hp, -⟩, hs⟩ := hf k j hv
      simp [Job.slotTag, hty, hp, hs]
  resync {s v} k j hj hoff hact hlock hold h := by
    -- the slot the replaced record may occupy is the slot of the new record
    have hmine : ∀ t : String × Int, hasSlot v.activatable t.1 (t.2, k) → t = (j.jobType, -j.priority) := by
      intro t ht
      obtain ⟨j₀, hj₀, heq, -⟩ := h.listed.slotOf t k ht
      obtain ⟨-, hty, hp, -⟩ := hold j₀ hj₀
      rw [heq, hty, hp]
    refine ⟨?_, locks_resync h.locks hj hoff hlock, noEmptySlots_resyncJobIndex (hact ▸ h.noEmpty) k⟩
    show Index.Exact (fun k' => (s.resyncJobIndex k).jobs[k']?) Job.slotTag
      fun t k' => hasSlot (s.resyncJobIndex k).activatableJobs t.1 (t.2, k')
    rw [jobs_resyncJobIndex]
    refine h.slots.set k hoff (fun t k' hk => ?_) fun t => ?_
    · rw [hasSlot_resyncJobIndex hj, hact]
      simp [activationOrder, hk]
    · rw [hasSlot_resyncJobIndex hj, hact, hj, Option.bind_some, Job.slotTag]
      split
      · next hstate =>
        simp only [hstate, true_and, true_or, and_true, activationOrder, Prod.mk.injEq, Option.some_inj]
        constructor
        · rintro (⟨hty, hp⟩ | ht)
          · exact Prod.ext hty.symm hp.symm
          · exact (hmine t ht).symm
        · rintro rfl
          exact Or.inl ⟨rfl, rfl⟩
      · next hstate =>
        simp only [hstate, false_and, false_or, reduceCtorEq, iff_false]
        rintro ⟨ht, hne⟩
        rw [hmine t ht] at hne
        exact hne ⟨rfl, rfl⟩
  takeJob {acc} k h := by
    cases hj : acc.2.jobs[k]? with
    | none =>
      rw [takeJob_of_none hj]
      exact h
    | some j =>
      refine ⟨?_, locks_takeJob hj h.locks, noEmptySlots_takeJob h.noEmpty k⟩
      refine h.slots.set k (fun k' hk => ?_) (fun t k' hk => ?_) fun t => ?_
      · exact (getElem?_takeJob acc k k').trans (if_neg fun e => hk e.symm)
      · refine (hasSlot_takeJob hj t.1 (t.2, k')).trans ?_
        simp [activationOrder, hk, State.jobView]
      · refine (hasSlot_takeJob hj t.1 (t.2, k)).trans ?_
        rw [show (State.takeJob acc k).2.jobView.jobs[k]? = none from
          (getElem?_takeJob acc k k).trans (if_pos rfl)]
        simp only [Option.bind_none, reduceCtorEq, iff_false]
        rintro ⟨ht, hne⟩
        obtain ⟨j₀, hj₀, heq, -⟩ := h.listed.slotOf t k ht
        obtain rfl : j = j₀ := Option.some.inj (hj.symm.trans hj₀)
        rw [heq] at hne
        exact hne ⟨rfl, rfl⟩

theorem law_listed : JobView.Law JobView.Listed where
  owners _ h := ⟨h.slotOf, h.listed, h.locks, h.noEmpty⟩
  retag {v} jobs f hf hjobs h := by
    refine ⟨fun t k ht => ?_, fun k j' hj' hstate => ?_, locks_retag h.locks (fun k j hj => (hf k j hj).2) hjobs, h.noEmpty⟩
    · obtain ⟨j, hj, heq, hstate⟩ := h.slotOf t k ht
      obtain ⟨⟨-, hty, hp, -⟩, hs⟩ := hf k j hj
      exact ⟨f k j, by simp [hjobs k, hj], by rw [heq, hty, hp], by rwa [hs]⟩
    · change jobs[k]? = some j' at hj'
      rw [hjobs k] at hj'
      obtain ⟨j, hj, rfl⟩ := Option.map_eq_some_iff.1 hj'
      obtain ⟨⟨-, hty, hp, -⟩, hs⟩ := hf k j hj
      rw [hty, hp]
      exact h.listed k j hj (hs ▸ hstate)
  resync {s v} k j hj hoff hact hlock hold h := by
    refine ⟨fun t k' ht => ?_, fun k' j' hj' hstate => ?_, locks_resync h.locks hj hoff hlock,
      noEmptySlots_resyncJobIndex (hact ▸ h.noEmpty) k⟩
    · change hasSlot (s.resyncJobIndex k).activatableJobs t.1 (t.2, k') at ht
      change ∃ j', (s.resyncJobIndex k).jobs[k']? = some j' ∧ _
      rw [jobs_resyncJobIndex]
      rw [hasSlot_resyncJobIndex hj, hact] at ht
      rcases ht with ⟨hstate, hty, heq⟩ | ⟨ht, hor⟩
      · obtain ⟨hp, rfl⟩ := Prod.mk.inj heq
        exact ⟨j, hj, Prod.ext hty hp, Or.inl hstate⟩
      · obtain ⟨j₀, hj₀, heq, hstate₀⟩ := h.slotOf t k' ht
        by_cases hk : k' = k
        · subst hk
          obtain ⟨-, hty, hp, -⟩ := hold j₀ hj₀
          rw [← hty, ← hp] at heq
          refine ⟨j, hj, heq, Or.inl (hor.resolve_right fun hne => hne ?_)⟩
          rw [heq]
          exact ⟨rfl, rfl⟩
        · exact ⟨j₀, (hoff k' hk).trans hj₀, heq, hstate₀⟩
    · change (s.resyncJobIndex k).jobs[k']? = some j' at hj'
      rw [jobs_resyncJobIndex] at hj'
      refine (hasSlot_resyncJobIndex hj j'.jobType (-j'.priority, k')).2 ?_
      by_cases hk : k' = k
      · subst hk
        obtain rfl : j = j' := Option.some.inj (hj.symm.trans hj')
        exact Or.inl ⟨hstate, rfl, rfl⟩
      · refine Or.inr ⟨?_, Or.inr fun heq => hk (Prod.mk.inj heq.2).2⟩
        rw [hact]
        exact h.listed k' j' ((hoff k' hk).symm.trans hj') hstate
  takeJob {acc} k h := by
    cases hj : acc.2.jobs[k]? with
    | none =>
      rw [takeJob_of_none hj]
      exact h
    | some j =>
      refine ⟨fun t k' ht => ?_, fun k' j' hj' hstate => ?_, locks_takeJob hj h.locks, noEmptySlots_takeJob h.noEmpty k⟩
      · obtain ⟨ht, hne⟩ := (hasSlot_takeJob hj t.1 (t.2, k')).1 ht
        obtain ⟨j₀, hj₀, heq, hstate⟩ := h.slotOf t k' ht
        have hk : k ≠ k' := by
          rintro rfl
          obtain rfl : j = j₀ := Option.some.inj (hj.symm.trans hj₀)
          rw [heq] at hne
          exact hne ⟨rfl, rfl⟩
        exact ⟨j₀, ((getElem?_takeJob acc k k').trans (if_neg hk)).trans hj₀, heq, hstate⟩
      · change (State.takeJob acc k).2.jobs[k']? = some j' at hj'
        rw [getElem?_takeJob] at hj'
        split at hj'
        · cases hj'
        · next hk =>
          refine (hasSlot_takeJob hj j'.jobType (-j'.priority, k')).2 ⟨h.listed k' j' hj' hstate, fun heq => hk ?_⟩
          exact (Prod.mk.inj heq.2).2.symm

/-! ## Records -/

theorem getElem?_modifyJob (s : State) (k k' : Key) (f : Job → Job) :
    (s.modifyJob k f).jobs[k']? = if k = k' then s.jobs[k']?.map f else s.jobs[k']? := by
  simp only [State.modifyJob, Std.ExtTreeMap.getElem?_modify, Std.LawfulEqCmp.compare_eq_iff_eq]
  split
  · next e => rw [e]
  · rfl

theorem resyncJobIndex_of_none {s : State} {k : Key} (h : s.jobs[k]? = none) : s.resyncJobIndex k = s := by
  simp only [State.resyncJobIndex, h]

/-- Records change in nothing the owner index looks at. -/
theorem JobView.OwnerExact.retag {v v' : JobView} (h : v.OwnerExact) (howned : v'.byInstance = v.byInstance)
    (hjobs : ∀ k : Key, (v'.jobs[k]?).map (fun j : Job => (j.key, j.instanceKey)) =
      (v.jobs[k]?).map fun j : Job => (j.key, j.instanceKey)) : v'.OwnerExact where
  owners := by
    refine h.owners.congr (fun k => ?_) fun i k => by rw [howned]
    have hk := hjobs k
    cases hv : v.jobs[k]? with
    | none =>
      rw [hv, Option.map_none, Option.map_eq_none_iff] at hk
      rw [hk]
    | some j =>
      rw [hv] at hk
      obtain ⟨j', hj', heq⟩ := Option.map_eq_some_iff.1 hk
      rw [hj', Option.bind_some, Option.bind_some, (Prod.mk.inj heq).2]
  jobKey := by
    intro k j' hj'
    have hk := hjobs k
    rw [hj', Option.map_some] at hk
    obtain ⟨j, hj, heq⟩ := Option.map_eq_some_iff.1 hk.symm
    rw [← (Prod.mk.inj heq).1]
    exact h.jobKey k j hj

theorem map_modifyJob {β : Type} (s : State) (k k' : Key) (f : Job → Job) (g : Job → β) (hg : ∀ j, g (f j) = g j) :
    ((s.modifyJob k f).jobs[k']?).map g = (s.jobs[k']?).map g := by
  rw [getElem?_modifyJob]
  split
  · cases s.jobs[k']? <;> simp [hg]
  · rfl

theorem jobsByInstance_resyncJobIndex (s : State) (k : Key) : (s.resyncJobIndex k).jobsByInstance = s.jobsByInstance := by
  unfold State.resyncJobIndex
  split <;> rfl

section Law

variable {P : JobView → Prop} (hP : JobView.Law P) {s : State}

include hP

/-- A record is changed and resynced. -/
theorem JobView.Law.modifyJob_resync (h : P s.jobView) (k : Key) (f : Job → Job) (hf : ∀ j : Job, j.SameSlot (f j)) :
    P ((s.modifyJob k f).resyncJobIndex k).jobView := by
  have hget := getElem?_modifyJob s k (f := f)
  cases hj : s.jobs[k]? with
  | none =>
    -- `get_mut` finds nothing: the table is unchanged and there is nothing to resync
    have hnone : (s.modifyJob k f).jobs[k]? = none := by rw [hget k, hj]; simp
    have hmod : (s.modifyJob k f).jobs = s.jobs := by
      apply Std.ExtTreeMap.ext_getElem?
      intro k'
      rw [hget k']
      split
      · next e => rw [← e, hj]; rfl
      · rfl
    have hsame : (s.modifyJob k f).jobView = s.jobView := by
      simp only [State.jobView, hmod]
      rfl
    rw [resyncJobIndex_of_none hnone, hsame]
    exact h
  | some j =>
    have hat : (s.modifyJob k f).jobs[k]? = some (f j) := by rw [hget k, hj]; simp
    refine hP.resync k (f j) hat (fun k' hk => ?_) rfl rfl (fun j₀ hj₀ => ?_) h
    · rw [hget k', if_neg fun e => hk e.symm]
      rfl
    · obtain rfl : j = j₀ := Option.some.inj (hj.symm.trans hj₀)
      exact hf j

/-- A record is changed in nothing the indices look at, and not resynced. -/
theorem JobView.Law.modifyJob (h : P s.jobView) (k : Key) (f : Job → Job)
    (hf : ∀ j : Job, j.SameSlot (f j) ∧ (f j).state = j.state) : P (s.modifyJob k f).jobView := by
  refine hP.retag (s.modifyJob k f).jobs (fun k' j => if k = k' then f j else j) (fun k' j _ => ?_) (fun k' => ?_) h
  · split
    · exact hf j
    · exact ⟨⟨rfl, rfl, rfl, rfl⟩, rfl⟩
  · rw [getElem?_modifyJob]
    split
    · rfl
    · exact Option.map_id'.symm

/-- A fresh record is inserted, indexed and linked to its instance. -/
theorem JobView.Law.insertJob (h : P s.jobView) (job : Job) (hfresh : s.jobs[job.key]? = none) :
    P (insertJob s job).jobView := by
  have hat : ({ s with jobs := s.jobs.insert job.key job } : State).jobs[job.key]? = some job := by simp
  refine hP.owners _ (hP.resync (s := { s with jobs := s.jobs.insert job.key job }) job.key job hat (fun k' hk => ?_) rfl rfl
    (fun j hj => ?_) h)
  · have hk' : ¬ job.key = k' := fun e => hk e.symm
    simp [State.jobView, Std.ExtTreeMap.getElem?_insert, hk']
  · rw [show s.jobView.jobs[job.key]? = none from hfresh] at hj
    cases hj

end Law

theorem jobs_insertJob (s : State) (job : Job) : (insertJob s job).jobs = s.jobs.insert job.key job := by
  simp only [insertJob, State.linkJob, jobs_resyncJobIndex]

theorem ownerExact_insertJob {s : State} (h : s.jobView.OwnerExact) (job : Job) (hfresh : s.jobs[job.key]? = none) :
    (insertJob s job).jobView.OwnerExact := by
  have hjobs := jobs_insertJob s job
  have hown : (insertJob s job).jobsByInstance =
      s.jobsByInstance.insert job.instanceKey ((s.jobsByInstance[job.instanceKey]?.getD ∅).insert job.key) := by
    simp only [insertJob, State.linkJob, jobsByInstance_resyncJobIndex]
  refine ⟨?_, ?_⟩
  · refine h.owners.set job.key (fun k hk => ?_) (fun i k hk => ?_) fun i => ?_
    · change (insertJob s job).jobs[k]? = _
      have hk' : ¬ job.key = k := fun e => hk e.symm
      simp [hjobs, State.jobView, Std.ExtTreeMap.getElem?_insert, hk']
    · change k ∈ (insertJob s job).jobsByInstance[i]?.getD ∅ ↔ _
      have hk' : ¬ job.key = k := fun e => hk e.symm
      rw [hown, Std.ExtTreeMap.getElem?_insert]
      split
      · next e =>
        obtain rfl := Std.LawfulEqCmp.eq_of_compare e
        simp [hk', State.jobView]
      · rfl
    · change job.key ∈ (insertJob s job).jobsByInstance[i]?.getD ∅ ↔ (insertJob s job).jobs[job.key]?.bind _ = _
      have hno : ¬ job.key ∈ s.jobsByInstance[i]?.getD ∅ := by
        intro hm
        obtain ⟨j, hj, -⟩ := (h.owner_iff i job.key).1 hm
        cases hfresh.symm.trans hj
      rw [hjobs, hown, Std.ExtTreeMap.getElem?_insert]
      by_cases e : job.instanceKey = i
      · simp [e]
      · simp [e, hno]
  · intro k j hj
    change (insertJob s job).jobs[k]? = some j at hj
    rw [hjobs, Std.ExtTreeMap.getElem?_insert] at hj
    split at hj
    · next e =>
      obtain rfl := Std.LawfulEqCmp.eq_of_compare e
      rw [Option.some.inj hj]
    · exact h.jobKey k j hj

/-! ## Removal -/

theorem takeJob_frame (acc : List Job × State) (k : Key) :
    (State.takeJob acc k).2.jobsByInstance = acc.2.jobsByInstance ∧
      (State.takeJob acc k).2.instances = acc.2.instances := by
  unfold State.takeJob
  split <;> exact ⟨rfl, rfl⟩

/-- What the removal loop leaves: the listed jobs are gone, everything else stands. -/
theorem foldl_takeJob_spec (ks : List Key) (acc : List Job × State) :
    (∀ k, (ks.foldl State.takeJob acc).2.jobs[k]? = if k ∈ ks then none else acc.2.jobs[k]?) ∧
      (ks.foldl State.takeJob acc).2.jobsByInstance = acc.2.jobsByInstance ∧
      (ks.foldl State.takeJob acc).2.instances = acc.2.instances := by
  induction ks generalizing acc with
  | nil => exact ⟨fun k => by simp, rfl, rfl⟩
  | cons k₀ ks ih =>
    obtain ⟨hget, hown, hinst⟩ := ih (State.takeJob acc k₀)
    refine ⟨fun k => ?_, hown.trans (takeJob_frame acc k₀).1, hinst.trans (takeJob_frame acc k₀).2⟩
    rw [List.foldl_cons, hget k, getElem?_takeJob]
    by_cases hk : k ∈ ks
    · simp [hk]
    · simp [hk, eq_comm]

theorem JobView.Law.foldl_takeJob {P : JobView → Prop} (hP : JobView.Law P) (ks : List Key) {acc : List Job × State}
    (h : P acc.2.jobView) : P (ks.foldl State.takeJob acc).2.jobView := by
  induction ks generalizing acc with
  | nil => exact h
  | cons k ks ih => exact ih (hP.takeJob k h)

theorem JobView.Law.takeJobs {P : JobView → Prop} (hP : JobView.Law P) {s : State} (h : P s.jobView) (key : Key) :
    P (s.takeJobs key).2.jobView := by
  unfold State.takeJobs
  split
  · exact h
  · exact hP.foldl_takeJob _ (hP.owners _ h)

/-- The lifted jobs are records of the table, each under a key the loop removed. -/
theorem foldl_takeJob_jobs (ks : List Key) (acc : List Job × State) (j : Job)
    (hj : j ∈ (ks.foldl State.takeJob acc).1) : j ∈ acc.1 ∨ ∃ k ∈ ks, acc.2.jobs[k]? = some j := by
  induction ks generalizing acc with
  | nil => exact Or.inl hj
  | cons k₀ ks ih =>
    rcases ih (State.takeJob acc k₀) hj with h | ⟨k, hk, h⟩
    · unfold State.takeJob at h
      split at h
      · exact Or.inl h
      · next j₀ hj₀ =>
        rcases List.mem_append.1 h with h | h
        · exact Or.inl h
        · exact Or.inr ⟨k₀, List.mem_cons_self, by rw [hj₀, List.mem_singleton.1 h]⟩
    · rw [getElem?_takeJob] at h
      split at h
      · cases h
      · exact Or.inr ⟨k, List.mem_cons_of_mem _ hk, h⟩

/-- Lifting an instance's jobs out: exactly its jobs leave, and the owner index stays exact. -/
theorem takeJobs_spec {s : State} (h : s.jobView.OwnerExact) (key : Key) :
    (s.takeJobs key).2.jobView.OwnerExact ∧
      (∀ (k : Key) (j : Job), (s.takeJobs key).2.jobs[k]? = some j ↔ s.jobs[k]? = some j ∧ j.instanceKey ≠ key) ∧
      (∀ j ∈ (s.takeJobs key).1, s.jobs[j.key]? = some j ∧ j.instanceKey = key) ∧
      (s.takeJobs key).2.instances = s.instances := by
  cases hset : s.jobsByInstance[key]? with
  | none =>
    have hsame : s.takeJobs key = ([], s) := by simp only [State.takeJobs, hset]
    rw [hsame]
    refine ⟨h, fun k j => ⟨fun hj => ⟨hj, fun e => ?_⟩, fun hj => hj.1⟩, (by simp), rfl⟩
    have hm := (h.owner_iff key k).2 ⟨j, hj, e⟩
    simp [State.jobView, hset] at hm
  | some set =>
    have hrun : s.takeJobs key =
        set.toList.foldl State.takeJob ([], { s with jobsByInstance := s.jobsByInstance.erase key }) := by
      simp only [State.takeJobs, hset]
    have hlisted : ∀ k, k ∈ set.toList ↔ ∃ j, s.jobs[k]? = some j ∧ j.instanceKey = key := by
      intro k
      have hown := h.owner_iff key k
      simp only [State.jobView, hset, Option.getD_some] at hown
      rw [Std.ExtTreeSet.mem_toList, hown]
    obtain ⟨hget, hown, hinst⟩ := foldl_takeJob_spec set.toList
      ([], { s with jobsByInstance := s.jobsByInstance.erase key })
    rw [← hrun] at hget hown hinst
    have hjob : ∀ (k : Key) (j : Job), (s.takeJobs key).2.jobs[k]? = some j ↔ s.jobs[k]? = some j ∧ j.instanceKey ≠ key := by
      intro k j
      rw [hget k]
      split
      · next hk =>
        obtain ⟨j₀, hj₀, hkey⟩ := (hlisted k).1 hk
        refine ⟨(by intro e; cases e), fun ⟨hj, hne⟩ => absurd ?_ hne⟩
        rw [← Option.some.inj (hj₀.symm.trans hj)]
        exact hkey
      · next hk => exact ⟨fun hj => ⟨hj, fun e => hk ((hlisted k).2 ⟨j, hj, e⟩)⟩, fun hj => hj.1⟩
    refine ⟨⟨fun i k => ?_, fun k j hj => h.jobKey k j ((hjob k j).1 hj).1⟩, hjob, fun j hj => ?_, hinst⟩
    · change k ∈ (s.takeJobs key).2.jobsByInstance[i]?.getD ∅ ↔ _
      rw [hown, Option.bind_eq_some_iff]
      simp only [Option.some_inj]
      by_cases hi : key = i
      · subst hi
        simp only [Std.ExtTreeMap.getElem?_erase_self, Option.getD_none, Std.ExtTreeSet.not_mem_empty, false_iff,
          not_exists, not_and]
        exact fun j hj => ((hjob k j).1 hj).2
      · rw [Std.ExtTreeMap.getElem?_erase, if_neg (by simpa using hi)]
        refine (h.owner_iff i k).trans (exists_congr fun j => ?_)
        constructor
        · rintro ⟨hj, e⟩
          exact ⟨(hjob k j).2 ⟨hj, fun e' => hi (e'.symm.trans e)⟩, e⟩
        · rintro ⟨hj, e⟩
          exact ⟨((hjob k j).1 hj).1, e⟩
    · rw [hrun] at hj
      rcases foldl_takeJob_jobs _ _ j hj with hj | ⟨k, hk, hj⟩
      · cases hj
      · obtain ⟨j₀, hj₀, hkey⟩ := (hlisted k).1 hk
        obtain rfl : j₀ = j := Option.some.inj (hj₀.symm.trans hj)
        rw [h.jobKey k j₀ hj₀]
        exact ⟨hj₀, hkey⟩

/-! ## Events -/

/-- The key of the job an event creates. -/
def Event.createdJobKey : Event → Option Key
  | .jobCreated k .. | .executionListenerJobCreated k .. | .taskListenerJobCreated k .. => some k
  | _ => none

theorem jobView_decrementInflightByProcess (s : State) (p : Option String) :
    (decrementInflightByProcess s p).jobView = s.jobView := by
  unfold decrementInflightByProcess
  split
  · rfl
  · split <;> rfl

theorem jobView_applyProcess (s : State) (e : Event) : (applyProcess s e).jobView = s.jobView := by
  unfold applyProcess
  split <;> rfl

theorem jobView_applyResource (s : State) (e : Event) : (applyResource s e).jobView = s.jobView := by
  unfold applyResource
  split <;> try rfl
  split <;> rfl

theorem jobView_applyElement (s : State) (e : Event) : (applyElement s e).jobView = s.jobView := by
  unfold applyElement
  split <;> rfl

theorem jobView_applyUserTask (s : State) (e : Event) : (applyUserTask s e).jobView = s.jobView := by
  unfold applyUserTask
  split <;> rfl

theorem jobView_applyTimer (s : State) (e : Event) : (applyTimer s e).jobView = s.jobView := by
  unfold applyTimer
  split <;> rfl

theorem jobView_applySubscription (s : State) (e : Event) : (applySubscription s e).jobView = s.jobView := by
  unfold applySubscription
  split <;> rfl

/-- What a migration does to the jobs of the migrated instance. -/
def Job.rename (instanceKey : Key) (remap : ElementId → ElementId) (j : Job) : Job :=
  if j.instanceKey = instanceKey then { j with elementId := remap j.elementId } else j

/-- Instance events reach the job table only through a migration, which renames elements. -/
theorem jobView_applyInstance (s : State) (e : Event) :
    (applyInstance s e).jobView = s.jobView ∨
      ∃ instanceKey remap, (applyInstance s e).jobView =
        { s.jobView with jobs := s.jobs.map fun _ j => j.rename instanceKey remap } := by
  cases e <;> try exact Or.inl rfl
  case processInstanceCompleted => exact Or.inl (jobView_decrementInflightByProcess _ _)
  case processInstanceTerminated => exact Or.inl (jobView_decrementInflightByProcess _ _)
  case processInstanceMigrated instanceKey targetProcessId targetKey mappings =>
    refine Or.inr ⟨instanceKey, remapId mappings, ?_⟩
    have hmap : ∀ s' : State, s'.jobView = s.jobView →
        ({ s'.jobView with jobs := s'.jobs.map fun _ j => j.rename instanceKey (remapId mappings) } : JobView) =
          { s.jobView with jobs := s.jobs.map fun _ j => j.rename instanceKey (remapId mappings) } := by
      intro s' hs
      rw [hs, show s'.jobs = s.jobs from congrArg JobView.jobs hs]
    unfold applyInstance
    dsimp only
    split
    · exact hmap (s.modifyInstance instanceKey _) rfl
    · exact hmap { decrementInflightByProcess _ _ with inflightByProcess := _ }
        (jobView_decrementInflightByProcess _ _)

theorem sameSlot_rename (instanceKey : Key) (remap : ElementId → ElementId) (j : Job) :
    j.SameSlot (j.rename instanceKey remap) ∧ (j.rename instanceKey remap).state = j.state := by
  unfold Job.rename
  split <;> exact ⟨⟨rfl, rfl, rfl, rfl⟩, rfl⟩

theorem Job.SameSlot.refl (j : Job) : j.SameSlot j := ⟨rfl, rfl, rfl, rfl⟩

theorem JobView.Law.applyInstance {P : JobView → Prop} (hP : JobView.Law P) {s : State} (h : P s.jobView) (e : Event) :
    P (applyInstance s e).jobView := by
  rcases jobView_applyInstance s e with he | ⟨instanceKey, remap, he⟩
  · rw [he]
    exact h
  · rw [he]
    refine hP.retag _ (fun _ j => j.rename instanceKey remap) (fun k j _ => sameSlot_rename instanceKey remap j)
      (fun k => ?_) h
    rw [Std.ExtTreeMap.getElem?_map]
    rfl

theorem JobView.Law.applyJob {P : JobView → Prop} (hP : JobView.Law P) {s : State} (h : P s.jobView) (e : Event)
    (hfresh : ∀ k, e.createdJobKey = some k → s.jobs[k]? = none) : P (applyJob s e).jobView := by
  have same := Job.SameSlot.refl
  cases e <;> try exact h
  case jobCreated => exact hP.insertJob h _ (hfresh _ rfl)
  case executionListenerJobCreated => exact hP.insertJob h _ (hfresh _ rfl)
  case taskListenerJobCreated => exact hP.insertJob h _ (hfresh _ rfl)
  case jobActivated => exact hP.modifyJob_resync h _ _ same
  case jobLockExpired =>
    refine hP.modifyJob_resync h _ _ fun j => ?_
    split <;> exact same j
  case jobFailed =>
    refine hP.modifyJob_resync h _ _ fun j => ?_
    split <;> exact same j
  case jobErrorThrown => exact hP.modifyJob_resync h _ _ same
  case jobCompleted => exact hP.modifyJob_resync h _ _ same
  case jobRetriesUpdated => exact hP.modifyJob h _ _ fun j => ⟨same j, rfl⟩
  case jobTimeoutUpdated => exact hP.modifyJob h _ _ fun j => ⟨same j, rfl⟩
  case incidentResolved incidentKey instanceKey jobKey resolvedAt reference =>
    cases jobKey with
    | none => exact h
    | some jobKey =>
      unfold NanoBpm.applyJob
      dsimp only
      split
      · exact hP.modifyJob_resync (s := State.modifyInstance { s with incidents := _ } _ _) h _ _ same
      · exact h
  case jobCanceled => exact hP.modifyJob_resync h _ _ same

/-- Every event keeps the state indices, as long as it does not create a job under a key in use. -/
theorem JobView.Law.apply {P : JobView → Prop} (hP : JobView.Law P) {s : State} (h : P s.jobView) (e : Event)
    (hfresh : ∀ k, e.createdJobKey = some k → s.jobs[k]? = none) : P (apply s e).jobView := by
  refine apply_dispatch (P := fun s => P s.jobView) ?_ ?_ (hP.applyInstance h e) ?_ (hP.applyJob h e hfresh) ?_ ?_ ?_
  · rw [jobView_applyProcess]; exact h
  · rw [jobView_applyResource]; exact h
  · rw [jobView_applyElement]; exact h
  · rw [jobView_applyUserTask]; exact h
  · rw [jobView_applyTimer]; exact h
  · rw [jobView_applySubscription]; exact h

theorem ownerExact_applyJob {s : State} (h : s.jobView.OwnerExact) (e : Event)
    (hfresh : ∀ k, e.createdJobKey = some k → s.jobs[k]? = none) : (applyJob s e).jobView.OwnerExact := by
  have hmodify : ∀ (t : State) (k : Key) (f : Job → Job), t.jobs = s.jobs → t.jobsByInstance = s.jobsByInstance →
      (∀ j : Job, j.SameSlot (f j)) → (t.modifyJob k f).jobView.OwnerExact := by
    intro t k f hjobs hown hf
    refine h.retag hown fun k' => ?_
    refine (map_modifyJob t k k' f _ fun j => ?_).trans (by rw [hjobs]; rfl)
    rw [(hf j).1, (hf j).2.2.2]
  have hresync : ∀ (t : State) (k : Key), t.jobView.OwnerExact → (t.resyncJobIndex k).jobView.OwnerExact := by
    intro t k ht
    exact ht.retag (jobsByInstance_resyncJobIndex t k) fun k' => by
      simp only [State.jobView, jobs_resyncJobIndex]
  have same := Job.SameSlot.refl
  cases e <;> try exact h
  case jobCreated => exact ownerExact_insertJob h _ (hfresh _ rfl)
  case executionListenerJobCreated => exact ownerExact_insertJob h _ (hfresh _ rfl)
  case taskListenerJobCreated => exact ownerExact_insertJob h _ (hfresh _ rfl)
  case jobLockExpired =>
    refine hresync _ _ (hmodify _ _ _ rfl rfl fun j => ?_)
    split <;> exact same j
  case jobFailed =>
    refine hresync _ _ (hmodify _ _ _ rfl rfl fun j => ?_)
    split <;> exact same j
  case jobRetriesUpdated => exact hmodify _ _ _ rfl rfl same
  case jobTimeoutUpdated => exact hmodify _ _ _ rfl rfl same
  case incidentResolved incidentKey instanceKey jobKey resolvedAt reference =>
    cases jobKey with
    | none => exact h
    | some jobKey =>
      unfold applyJob
      dsimp only
      split
      · exact hresync _ _ (hmodify (State.modifyInstance { s with incidents := _ } _ _) _ _ rfl rfl same)
      · exact h
  all_goals exact hresync _ _ (hmodify _ _ _ rfl rfl same)

theorem ownerExact_apply {s : State} (h : s.jobView.OwnerExact) (e : Event)
    (hfresh : ∀ k, e.createdJobKey = some k → s.jobs[k]? = none) : (apply s e).jobView.OwnerExact := by
  refine apply_dispatch (P := fun s => s.jobView.OwnerExact) ?_ ?_ ?_ ?_ (ownerExact_applyJob h e hfresh) ?_ ?_ ?_
  · rw [jobView_applyProcess]; exact h
  · rw [jobView_applyResource]; exact h
  · rcases jobView_applyInstance s e with he | ⟨instanceKey, remap, he⟩
    · rw [he]
      exact h
    · rw [he]
      refine h.retag rfl fun k => ?_
      rw [Std.ExtTreeMap.getElem?_map, Option.map_map]
      congr 1
      funext j
      simp only [Function.comp_apply, (sameSlot_rename instanceKey remap j).1.1,
        (sameSlot_rename instanceKey remap j).1.2.2.2]
  · rw [jobView_applyElement]; exact h
  · rw [jobView_applyUserTask]; exact h
  · rw [jobView_applyTimer]; exact h
  · rw [jobView_applySubscription]; exact h

/-- A job is resident after an event only if it was before, or the event created it. -/
theorem resident_apply {s : State} {e : Event} {k : Key} (h : (apply s e).jobs[k]? ≠ none) :
    s.jobs[k]? ≠ none ∨ e.createdJobKey = some k := by
  have ofView : ∀ {s' : State}, s'.jobView = s.jobView → s'.jobs[k]? ≠ none →
      s.jobs[k]? ≠ none ∨ e.createdJobKey = some k := by
    intro s' hv hs'
    rw [show s'.jobs = s.jobs from congrArg JobView.jobs hv] at hs'
    exact Or.inl hs'
  have ofModify : ∀ {t : State} {k₀ : Key} {f : Job → Job}, t.jobs = s.jobs →
      ((t.modifyJob k₀ f).resyncJobIndex k₀).jobs[k]? ≠ none → s.jobs[k]? ≠ none := by
    intro t k₀ f ht hne hk
    apply hne
    have hres : ((t.modifyJob k₀ f).resyncJobIndex k₀).jobs = (t.modifyJob k₀ f).jobs := by
      unfold State.resyncJobIndex
      split <;> rfl
    rw [hres, getElem?_modifyJob, ht, hk]
    split <;> rfl
  have ofInsert : ∀ {job : Job}, (insertJob s job).jobs[k]? ≠ none → s.jobs[k]? ≠ none ∨ some job.key = some k := by
    intro job hne
    have hjobs : (insertJob s job).jobs = s.jobs.insert job.key job := by
      simp only [insertJob, State.linkJob, State.resyncJobIndex, Std.ExtTreeMap.getElem?_insert_self]
    by_cases e : job.key = k
    · exact Or.inr (congrArg some e)
    · rw [hjobs, Std.ExtTreeMap.getElem?_insert, if_neg (by simpa using e)] at hne
      exact Or.inl hne
  revert h
  refine apply_dispatch (P := fun s' => s'.jobs[k]? ≠ none → s.jobs[k]? ≠ none ∨ e.createdJobKey = some k)
    (ofView (jobView_applyProcess s e)) (ofView (jobView_applyResource s e)) ?_ (ofView (jobView_applyElement s e)) ?_
    (ofView (jobView_applyUserTask s e)) (ofView (jobView_applyTimer s e)) (ofView (jobView_applySubscription s e))
  · rcases jobView_applyInstance s e with he | ⟨instanceKey, remap, he⟩
    · exact ofView he
    · intro hne
      refine Or.inl fun hk => hne ?_
      rw [show (applyInstance s e).jobs = s.jobs.map fun _ j => j.rename instanceKey remap from
        congrArg JobView.jobs he, Std.ExtTreeMap.getElem?_map, hk]
      rfl
  · cases e <;> try exact Or.inl
    case jobCreated => exact ofInsert
    case executionListenerJobCreated => exact ofInsert
    case taskListenerJobCreated => exact ofInsert
    case jobActivated => exact fun hne => Or.inl (ofModify rfl hne)
    case jobLockExpired => exact fun hne => Or.inl (ofModify rfl hne)
    case jobFailed => exact fun hne => Or.inl (ofModify rfl hne)
    case jobErrorThrown => exact fun hne => Or.inl (ofModify rfl hne)
    case jobCompleted => exact fun hne => Or.inl (ofModify rfl hne)
    case jobCanceled => exact fun hne => Or.inl (ofModify rfl hne)
    case jobRetriesUpdated =>
      intro hne
      refine Or.inl fun hk => hne ?_
      unfold applyJob
      rw [getElem?_modifyJob, hk]
      split <;> rfl
    case jobTimeoutUpdated =>
      intro hne
      refine Or.inl fun hk => hne ?_
      unfold applyJob
      rw [getElem?_modifyJob, hk]
      split <;> rfl
    case incidentResolved incidentKey instanceKey jobKey resolvedAt reference =>
      cases jobKey with
      | none => exact Or.inl
      | some jobKey =>
        unfold applyJob
        dsimp only
        split
        · exact fun hne => Or.inl (ofModify (t := State.modifyInstance { s with incidents := _ } _ _) rfl hne)
        · exact Or.inl

/-! ## Instances are filed under their own key -/

def InstancesKeyed (s : State) : Prop := ∀ (k : Key) (i : ProcessInstance), s.instances[k]? = some i → i.key = k

theorem instancesKeyed_modifyInstance {s : State} (h : InstancesKeyed s) (key : Key)
    (f : ProcessInstance → ProcessInstance) (hf : ∀ i, (f i).key = i.key) :
    InstancesKeyed (s.modifyInstance key f) := by
  intro k i hi
  simp only [State.modifyInstance, Std.ExtTreeMap.getElem?_modify, Std.LawfulEqCmp.compare_eq_iff_eq] at hi
  split at hi
  · next e =>
    obtain ⟨i₀, hi₀, rfl⟩ := Option.map_eq_some_iff.1 hi
    rw [hf i₀, h key i₀ hi₀, e]
  · exact h k i hi

theorem instances_decrementInflightByProcess (s : State) (p : Option String) :
    (decrementInflightByProcess s p).instances = s.instances := by
  unfold decrementInflightByProcess
  split
  · rfl
  · split <;> rfl

theorem instancesKeyed_applyElement {s : State} (h : InstancesKeyed s) (e : Event) :
    InstancesKeyed (applyElement s e) := by
  cases e <;> try exact h
  case parallelJoinTokenArrived =>
    refine instancesKeyed_modifyInstance h _ _ fun i => ?_
    split <;> rfl
  case compensationHandlerCompleted =>
    refine instancesKeyed_modifyInstance h _ _ fun i => ?_
    split
    · rfl
    · dsimp only
      split <;> rfl
  all_goals exact instancesKeyed_modifyInstance h _ _ fun i => rfl

theorem instancesKeyed_applyInstance {s : State} (h : InstancesKeyed s) (e : Event) :
    InstancesKeyed (applyInstance s e) := by
  have decr : ∀ {s' : State} (p : Option String), InstancesKeyed s' →
      InstancesKeyed (decrementInflightByProcess s' p) := by
    intro s' p hs'
    unfold InstancesKeyed
    rw [instances_decrementInflightByProcess]
    exact hs'
  cases e <;> try exact h
  case processInstanceCreated instanceKey _ _ _ _ _ _ _ _ _ =>
    intro k i hi
    simp only [applyInstance, Std.ExtTreeMap.getElem?_insert, Std.LawfulEqCmp.compare_eq_iff_eq] at hi
    split at hi
    · next e => rw [← e, ← Option.some.inj hi]
    · exact h k i hi
  case scopedVariablesUpdated =>
    refine instancesKeyed_modifyInstance h _ _ fun i => ?_
    split <;> rfl
  case processInstanceCompleted => exact decr _ (instancesKeyed_modifyInstance h _ _ fun i => rfl)
  case processInstanceTerminated =>
    exact decr _ (instancesKeyed_modifyInstance (s := { s with incidents := _ }) h _ _ fun i => rfl)
  case processInstanceMigrated instanceKey targetProcessId targetKey mappings =>
    have hmig : InstancesKeyed (s.modifyInstance instanceKey (·.migrate targetProcessId targetKey (remapId mappings))) :=
      instancesKeyed_modifyInstance h _ _ fun i => rfl
    unfold applyInstance
    dsimp only
    split
    · exact hmig
    · exact decr _ hmig
  all_goals exact instancesKeyed_modifyInstance h _ _ fun i => rfl

theorem instancesKeyed_applyJob {s : State} (h : InstancesKeyed s) (e : Event) : InstancesKeyed (applyJob s e) := by
  have resync : ∀ {s' : State} (k : Key), InstancesKeyed s' → InstancesKeyed (s'.resyncJobIndex k) := by
    intro s' k hs'
    unfold State.resyncJobIndex
    split <;> exact hs'
  cases e <;> try exact h
  case incidentRaised => exact instancesKeyed_modifyInstance (s := { s with incidents := _ }) h _ _ fun i => rfl
  case incidentResolved incidentKey instanceKey jobKey resolvedAt reference =>
    have hinc : InstancesKeyed (State.modifyInstance
        { s with incidents := s.incidents.modify incidentKey fun i =>
          { i with state := .resolved, resolvedAt := some resolvedAt, operationReference := reference } }
        instanceKey fun i => { i with incidents := i.incidents.filter (· ≠ incidentKey) }) :=
      instancesKeyed_modifyInstance (s := { s with incidents := _ }) h _ _ fun i => rfl
    cases jobKey with
    | none => exact hinc
    | some jobKey =>
      unfold applyJob
      dsimp only
      split
      · exact resync _ hinc
      · exact hinc
  all_goals exact resync _ h

theorem instancesKeyed_apply {s : State} (h : InstancesKeyed s) (e : Event) : InstancesKeyed (apply s e) := by
  refine apply_dispatch (P := InstancesKeyed) ?_ ?_ (instancesKeyed_applyInstance h e) (instancesKeyed_applyElement h e)
    (instancesKeyed_applyJob h e) ?_ ?_ ?_
  · unfold applyProcess
    split <;> exact h
  · unfold applyResource
    split <;> try exact h
    split <;> exact h
  · unfold applyUserTask
    split <;> exact h
  · unfold applyTimer
    split <;> exact h
  · unfold applySubscription
    split <;> exact h

end NanoBpm
