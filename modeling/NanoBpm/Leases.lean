import Mathlib.Data.List.Induction
import NanoBpm.JobIndex

/-!
# Leases of jobs, over a log

The part of a job that fences its workers is its state and its lease token. Each event acts on it by itself, so that a
log says which tokens a job was activated with and how often it was completed. In a fair log a job is created once, is
activated and finished only while it is open, and is activated without a lease only when it holds no token. Then it is
completed at most once and, as long as no incident gives a parked job back without its token, the token it holds is that
of its latest activation.
-/

namespace NanoBpm

/-- A token is a text of its own. -/
theorem Lease.issue_isEmpty (key : Key) : (Lease.issue key).isEmpty = false := by
  by_contra hempty
  have heq : Lease.issue key = "" := String.isEmpty_iff.mp (Bool.not_eq_false _ ▸ hempty)
  have hnil : (Lease.issue key).toList = [] := by
    rw [heq]
    rfl
  unfold Lease.issue at hnil
  rw [String.toList_ofList, List.append_eq_nil_iff] at hnil
  exact absurd hnil.1 (by decide)

/-- What fences the workers of a job. -/
structure JobLease where
  key : Key
  state : JobState
  token : Option String
deriving DecidableEq

/-- The states no job returns from. -/
def JobState.ended : JobState → Bool
  | .completed | .errored | .canceled => true
  | .created | .activated | .failed => false

/-- The states in which a worker may finish a job. -/
def JobState.isOpen : JobState → Bool
  | .created | .activated => true
  | .completed | .errored | .canceled | .failed => false

def Job.lease (j : Job) : JobLease := ⟨j.key, j.state, j.leaseToken⟩

def State.lease (s : State) (k : Key) : Option JobLease := s.jobs[k]?.map Job.lease

namespace Event

/-- What an event does to the lease of the job `k`. -/
def onLease (k : Key) : Event → JobLease → JobLease
  | jobActivated key _ _ _ _ _ _ token, l => if key = k then { l with state := .activated, token } else l
  | jobLockExpired key _, l => if key = k ∧ l.state = .activated then { l with state := .created } else l
  | jobFailed key _ retries _, l =>
    if key = k then { l with state := if 0 < retries then .created else .failed } else l
  | jobErrorThrown key .., l => if key = k then { l with state := .errored, token := none } else l
  | jobCompleted key .., l => if key = k then { l with state := .completed } else l
  | incidentResolved _ _ jobKey _ _, l =>
    if jobKey = some k ∧ l.state = .failed then { l with state := .created, token := none } else l
  | jobCanceled key _, l => if key = k then { l with state := .canceled, token := none } else l
  | _, l => l

end Event

theorem lease_of_jobs {s s' : State} (h : s'.jobs = s.jobs) (k : Key) : s'.lease k = s.lease k := by
  simp [State.lease, h]

theorem lease_modifyJob (s : State) (key k : Key) (f : Job → Job) (g : JobLease → JobLease)
    (h : ∀ j, (f j).lease = g j.lease) :
    (s.modifyJob key f).lease k = (s.lease k).map fun l => if key = k then g l else l := by
  rw [State.lease, getElem?_modifyJob, State.lease]
  cases s.jobs[k]? with
  | none => split <;> rfl
  | some j => split <;> simp [h]

theorem lease_modifyJob_resync (s : State) (key k : Key) (f : Job → Job) (g : JobLease → JobLease)
    (h : ∀ j, (f j).lease = g j.lease) :
    ((s.modifyJob key f).resyncJobIndex key).lease k = (s.lease k).map fun l => if key = k then g l else l := by
  rw [lease_of_jobs (jobs_resyncJobIndex _ _), lease_modifyJob s key k f g h]

theorem lease_insertJob (s : State) (job : Job) (k : Key) :
    (insertJob s job).lease k = if some job.key = some k then some job.lease else s.lease k := by
  have hjobs : (insertJob s job).jobs = s.jobs.insert job.key job := by
    simp only [insertJob, State.linkJob, State.resyncJobIndex, Std.ExtTreeMap.getElem?_insert_self]
  rw [State.lease, hjobs, Std.ExtTreeMap.getElem?_insert]
  by_cases hk : job.key = k
  · simp [hk]
  · simp [hk, State.lease]

theorem lease_applyInstance (s : State) (e : Event) (k : Key) : (applyInstance s e).lease k = s.lease k := by
  rcases jobView_applyInstance s e with hview | ⟨instanceKey, remap, hview⟩
  · exact lease_of_jobs (congrArg JobView.jobs hview) k
  · have hjobs : (applyInstance s e).jobs = s.jobs.map fun _ j => j.rename instanceKey remap :=
      congrArg JobView.jobs hview
    rw [State.lease, hjobs, Std.ExtTreeMap.getElem?_map, State.lease, Option.map_map]
    congr 1
    funext j
    simp only [Function.comp, Job.rename]
    split <;> rfl

theorem lease_applyJob (s : State) (e : Event) (k : Key) :
    (applyJob s e).lease k =
      if e.createdJobKey = some k then some ⟨k, .created, none⟩ else (s.lease k).map (e.onLease k) := by
  have hsame : (s.lease k) = (s.lease k).map fun l => l := by simp
  have hinsert : ∀ job : Job, job.state = .created → job.leaseToken = none →
      (insertJob s job).lease k = if some job.key = some k then some ⟨k, .created, none⟩ else (s.lease k).map fun l => l := by
    intro job hstate htoken
    rw [lease_insertJob, ← hsame]
    split
    · next hk => simp [Job.lease, hstate, htoken, Option.some.inj hk]
    · rfl
  cases e <;> try exact hsame
  case jobCreated => exact hinsert _ rfl rfl
  case executionListenerJobCreated => exact hinsert _ rfl rfl
  case taskListenerJobCreated => exact hinsert _ rfl rfl
  case jobActivated key _ _ _ _ _ _ token =>
    exact lease_modifyJob_resync s key k _ (fun l => { l with state := .activated, token }) fun _ => rfl
  case jobLockExpired key _ =>
    refine (lease_modifyJob_resync s key k _ (fun l => if l.state = .activated then { l with state := .created } else l)
      fun j => ?_).trans ?_
    · by_cases hstate : j.state = .activated
      · simp [hstate, Job.lease, Job.unlock]
      · simp [hstate, Job.lease]
    · refine congrArg (Option.map · (s.lease k)) (funext fun l => ?_)
      by_cases hk : key = k
      · simp [Event.onLease, hk]
      · simp [Event.onLease, hk]
  case jobFailed key _ retries _ =>
    refine lease_modifyJob_resync s key k _ (fun l => { l with state := if 0 < retries then .created else .failed })
      fun j => ?_
    split <;> rfl
  case jobErrorThrown key _ _ _ =>
    exact lease_modifyJob_resync s key k _ (fun l => { l with state := .errored, token := none }) fun _ => rfl
  case jobCompleted key _ _ _ _ => exact lease_modifyJob_resync s key k _ (fun l => { l with state := .completed }) fun _ => rfl
  case jobCanceled key _ =>
    exact lease_modifyJob_resync s key k _ (fun l => { l with state := .canceled, token := none }) fun _ => rfl
  case jobRetriesUpdated key _ retries _ =>
    refine (lease_modifyJob s key k (fun j => { j with retries }) (fun l => l) fun _ => rfl).trans ?_
    simp only [ite_self]
    rfl
  case jobTimeoutUpdated key _ deadline _ =>
    refine (lease_modifyJob s key k (fun j => { j with deadline := some deadline }) (fun l => l) fun _ => rfl).trans ?_
    simp only [ite_self]
    rfl
  case incidentResolved incidentKey instanceKey jobKey _ _ =>
    cases jobKey with
    | none =>
      refine hsame.trans (congrArg (Option.map · (s.lease k)) (funext fun l => ?_))
      simp [Event.onLease]
    | some key =>
      -- the job is read after the instance was changed, which leaves the jobs alone
      have hjobs : ∀ t : State, t.jobs = s.jobs → (if t.jobs[key]?.map (·.state) = some .failed then
          (t.modifyJob key fun j =>
            { j.unlock with state := .created, worker := none, leaseToken := none }).resyncJobIndex key
          else t).lease k = (s.lease k).map fun l =>
            if some key = some k ∧ l.state = .failed then { l with state := .created, token := none } else l := by
        intro t ht
        by_cases hfailed : t.jobs[key]?.map (·.state) = some .failed
        · rw [if_pos hfailed, lease_modifyJob_resync t key k _ (fun l => { l with state := .created, token := none }) fun _ => rfl,
            lease_of_jobs ht]
          by_cases hk : key = k
          · subst hk
            obtain ⟨j, hj, hstate⟩ := Option.map_eq_some_iff.mp hfailed
            simp [State.lease, ← ht, hj, Job.lease, hstate]
          · simp [hk]
        · rw [if_neg hfailed, lease_of_jobs ht, State.lease]
          cases hj : s.jobs[k]? with
          | none => rfl
          | some j =>
            rw [ht] at hfailed
            have hne : ¬(key = k ∧ j.state = .failed) := by
              rintro ⟨rfl, hstate⟩
              exact hfailed (by simp [hj, hstate])
            simp [Job.lease, hne]
      exact hjobs _ rfl

/-- What an event does to the leases. -/
theorem lease_apply (s : State) (e : Event) (k : Key) :
    (apply s e).lease k =
      if e.createdJobKey = some k then some ⟨k, .created, none⟩ else (s.lease k).map (e.onLease k) := by
  have hother : e.createdJobKey = none → (∀ l, e.onLease k l = l) → (apply s e).lease k =
      if e.createdJobKey = some k then some ⟨k, .created, none⟩ else (s.lease k).map (e.onLease k) := by
    intro hcreated hlease
    have hsame : (s.lease k).map (e.onLease k) = s.lease k := by rw [funext hlease, Option.map_id']
    rw [hcreated, if_neg (by simp), hsame]
    refine apply_dispatch (P := fun s' => s'.lease k = s.lease k) ?_ ?_ (lease_applyInstance s e k) ?_ ?_ ?_ ?_ ?_
    · exact lease_of_jobs (congrArg JobView.jobs (jobView_applyProcess s e)) k
    · exact lease_of_jobs (congrArg JobView.jobs (jobView_applyResource s e)) k
    · exact lease_of_jobs (congrArg JobView.jobs (jobView_applyElement s e)) k
    · rw [lease_applyJob, hcreated, if_neg (by simp), hsame]
    · exact lease_of_jobs (congrArg JobView.jobs (jobView_applyUserTask s e)) k
    · exact lease_of_jobs (congrArg JobView.jobs (jobView_applyTimer s e)) k
    · exact lease_of_jobs (congrArg JobView.jobs (jobView_applySubscription s e)) k
  cases e <;> first
    | exact hother rfl fun _ => rfl
    | exact lease_applyJob s _ k

/-! ## Fair logs -/

namespace Event

/-- The job an event activates, and the token it hands out. -/
def activation : Event → Option (Key × Option String)
  | jobActivated key _ _ _ _ _ _ token => some (key, token)
  | _ => none

/-- The job that a worker completes or fails, or throws an error for. -/
def finished : Event → Option Key
  | jobCompleted key .. | jobFailed key .. | jobErrorThrown key .. => some key
  | _ => none

/-- The job an event completes. -/
def completed : Event → Option Key
  | jobCompleted key .. => some key
  | _ => none

/-- An incident is resolved that gives a parked job back without the token it holds. -/
def forgetsLease (s : State) : Event → Bool
  | incidentResolved _ _ (some k) _ _ => (s.lease k).any fun l => l.state == .failed && l.token.isSome
  | _ => false

theorem finished_of_completed {event : Event} {k : Key} (h : event.completed = some k) : event.finished = some k := by
  cases event <;> first | exact h | cases h

end Event

/-- The tokens that the activations of a job handed out, the latest last: `none` for one without a lease. -/
def tokens (k : Key) (log : List Event) : List (Option String) :=
  log.filterMap fun event => (event.activation.filter (·.1 == k)).map (·.2)

/-- How often a job was completed. -/
def completions (k : Key) (log : List Event) : Nat := log.countP (·.completed == some k)

/-- The state a log leads to. -/
def replayed (log : List Event) : State := applyAll {} log

/-- No event of a log gives a parked job back without its token. -/
def keepsLeases : State → List Event → Bool
  | _, [] => true
  | s, event :: events => !event.forgetsLease s && keepsLeases (apply s event) events

@[simp] theorem tokens_append (k : Key) (xs ys : List Event) : tokens k (xs ++ ys) = tokens k xs ++ tokens k ys := by
  simp [tokens]

@[simp] theorem completions_append (k : Key) (xs ys : List Event) :
    completions k (xs ++ ys) = completions k xs + completions k ys := by
  simp [completions]

@[simp] theorem replayed_snoc (log : List Event) (event : Event) :
    replayed (log ++ [event]) = apply (replayed log) event := by
  simp [replayed, applyAll_append]

theorem keepsLeases_snoc (s : State) (log : List Event) (event : Event) :
    keepsLeases s (log ++ [event]) = (keepsLeases s log && !event.forgetsLease (applyAll s log)) := by
  induction log generalizing s with
  | nil => simp [keepsLeases]
  | cons first log ih => simp [keepsLeases, ih, Bool.and_assoc]

theorem tokens_singleton {k : Key} {event : Event} :
    tokens k [event] = (event.activation.filter (·.1 == k)).toList.map (·.2) := by
  unfold tokens
  cases h : event.activation.filter (·.1 == k) with
  | none => simp [h]
  | some x => simp [h]

theorem tokens_of_activation {k : Key} {event : Event} (h : ∀ token, event.activation ≠ some (k, token)) :
    tokens k [event] = [] := by
  have hnone : event.activation.filter (·.1 == k) = none := by
    refine Option.eq_none_iff_forall_ne_some.mpr fun x hx => ?_
    obtain ⟨hx, hk⟩ := Option.filter_eq_some_iff.mp hx
    exact h x.2 (by rw [hx, ← beq_iff_eq.mp hk])
  simp [tokens_singleton, hnone]

theorem completions_singleton {k : Key} {event : Event} :
    completions k [event] = if event.completed = some k then 1 else 0 := by
  simp [completions, List.countP_cons]

/-- What an event may do to the jobs, after a log. -/
structure Event.Fair (log : List Event) (event : Event) : Prop where
  created : ∀ k, event.createdJobKey = some k → tokens k log = [] ∧ completions k log = 0 ∧
    ∀ l, (replayed log).lease k = some l → l.state = .created
  activated : ∀ k token, event.activation = some (k, token) →
    (∃ l, (replayed log).lease k = some l ∧ l.state.isOpen = true ∧ (token = none → l.token = none)) ∧
      ∀ t, token = some t → ∀ other, some t ∉ tokens other log
  finished : ∀ k, event.finished = some k → ∃ l, (replayed log).lease k = some l ∧ l.state.isOpen = true

/-- An event that neither creates nor activates nor finishes a job. -/
theorem Event.Fair.plain {log : List Event} {event : Event} (hcreated : event.createdJobKey = none)
    (hactivation : event.activation = none) (hfinished : event.finished = none) : event.Fair log :=
  ⟨by simp [hcreated], by simp [hactivation], by simp [hfinished]⟩

/-- Every event of the log is fair after those before it. -/
inductive FairLog : List Event → Prop where
  | nil : FairLog []
  | snoc {log : List Event} {event : Event} (h : FairLog log) (hevent : event.Fair log) : FairLog (log ++ [event])

theorem JobState.not_ended_of_isOpen {s : JobState} (h : s.isOpen = true) : s.ended = false := by
  cases s <;> first | rfl | cases h

namespace Event

variable {k : Key} {event : Event} {l : JobLease}

/-- Only a worker or an activation takes a job out of the states it ends in. -/
theorem ended_onLease (hended : l.state.ended = true) (hfinished : event.finished ≠ some k)
    (hactivation : ∀ token, event.activation ≠ some (k, token)) : (event.onLease k l).state.ended = true := by
  cases event <;> try exact hended
  case jobActivated key _ _ _ _ _ _ token =>
    have hk : key ≠ k := fun hk => hactivation token (by simp [activation, hk])
    simpa [onLease, hk] using hended
  case jobLockExpired =>
    have hstate : l.state ≠ .activated := fun h => by simp [h, JobState.ended] at hended
    simpa [onLease, hstate] using hended
  case jobFailed key _ _ _ =>
    have hk : key ≠ k := fun hk => hfinished (by simp [finished, hk])
    simpa [onLease, hk] using hended
  case jobErrorThrown =>
    simp only [onLease]
    split
    · rfl
    · exact hended
  case jobCompleted =>
    simp only [onLease]
    split
    · rfl
    · exact hended
  case incidentResolved =>
    have hstate : l.state ≠ .failed := fun h => by simp [h, JobState.ended] at hended
    simpa [onLease, hstate] using hended
  case jobCanceled =>
    simp only [onLease]
    split
    · rfl
    · exact hended

/-- While a job has not ended, only an activation and the resolution of its incident touch its token. -/
theorem onLease_token (hactivation : ∀ token, event.activation ≠ some (k, token))
    (hended : (event.onLease k l).state.ended = false) : (event.onLease k l).token = l.token ∨
      (l.state = .failed ∧ ∃ i p r o, event = .incidentResolved i p (some k) r o) := by
  cases event <;> try exact .inl rfl
  case jobActivated key _ _ _ _ _ _ token =>
    have hk : key ≠ k := fun hk => hactivation token (by simp [activation, hk])
    exact .inl (by simp [onLease, hk])
  case jobLockExpired =>
    simp only [onLease]
    split <;> exact .inl rfl
  case jobFailed =>
    simp only [onLease]
    split <;> exact .inl rfl
  case jobErrorThrown key _ _ _ =>
    by_cases hk : key = k
    · simp [onLease, hk, JobState.ended] at hended
    · exact .inl (by simp [onLease, hk])
  case jobCompleted =>
    simp only [onLease]
    split <;> exact .inl rfl
  case incidentResolved _ _ jobKey _ _ =>
    by_cases hparked : jobKey = some k ∧ l.state = .failed
    · obtain ⟨rfl, hfailed⟩ := hparked
      exact .inr ⟨hfailed, _, _, _, _, rfl⟩
    · exact .inl (by simp [onLease, hparked])
  case jobCanceled key _ =>
    by_cases hk : key = k
    · simp [onLease, hk, JobState.ended] at hended
    · exact .inl (by simp [onLease, hk])

end Event

namespace FairLog

variable {log : List Event} {k : Key}

/-- The last event was fair after the log before it. -/
theorem of_snoc {event : Event} (h : FairLog (log ++ [event])) : FairLog log ∧ event.Fair log := by
  generalize hall : log ++ [event] = all at h
  cases h with
  | nil => simp at hall
  | snoc h hevent =>
    obtain ⟨hlog, hlast⟩ := List.append_inj' hall rfl
    cases hlast
    subst hlog
    exact ⟨h, hevent⟩

theorem of_append {later : List Event} (h : FairLog (log ++ later)) : FairLog log := by
  induction later using List.reverseRecOn with
  | nil => simpa using h
  | append_singleton later event ih =>
    rw [← List.append_assoc] at h
    exact ih h.of_snoc.1

theorem lease_nil : (replayed []).lease k = none := by
  simp [replayed, State.lease]

/-- Jobs are kept under their keys. -/
theorem keyed (log : List Event) {l : JobLease} (hl : (replayed log).lease k = some l) : l.key = k := by
  induction log using List.reverseRecOn generalizing l with
  | nil => exact absurd (hl.symm.trans lease_nil) (by simp)
  | append_singleton log event ih =>
    rw [replayed_snoc, lease_apply] at hl
    split at hl
    · cases hl
      rfl
    · obtain ⟨l', hl', rfl⟩ := Option.map_eq_some_iff.mp hl
      rw [← ih hl']
      unfold Event.onLease
      split <;> first | rfl | (split <;> rfl)

/-- A job that does not exist was neither activated nor completed. -/
theorem untouched (h : FairLog log) (hnone : (replayed log).lease k = none) :
    tokens k log = [] ∧ completions k log = 0 := by
  induction h with
  | nil => exact ⟨rfl, rfl⟩
  | @snoc log event _ hevent ih =>
    rw [replayed_snoc, lease_apply] at hnone
    split at hnone
    · cases hnone
    · have hbefore : (replayed log).lease k = none := Option.map_eq_none_iff.mp hnone
      have hactivation : ∀ token, event.activation ≠ some (k, token) := by
        intro token htoken
        obtain ⟨⟨l, hl, -⟩, -⟩ := hevent.activated k token htoken
        exact absurd (hl.symm.trans hbefore) (by simp)
      have hcompleted : event.completed ≠ some k := by
        intro hcompleted
        obtain ⟨l, hl, -⟩ := hevent.finished k (Event.finished_of_completed hcompleted)
        exact absurd (hl.symm.trans hbefore) (by simp)
      obtain ⟨htokens, hcompletions⟩ := ih hbefore
      rw [tokens_append, htokens, tokens_of_activation hactivation, completions_append, hcompletions,
        completions_singleton, if_neg hcompleted]
      exact ⟨rfl, rfl⟩

/-- No event returns a job from the states it ends in. -/
theorem ended_apply {event : Event} (hevent : event.Fair log) {l : JobLease} (hl : (replayed log).lease k = some l)
    (hended : l.state.ended = true) : ∃ l', (replayed (log ++ [event])).lease k = some l' ∧ l'.state.ended = true := by
  rw [replayed_snoc, lease_apply]
  split
  · next hcreated =>
    have hstate := (hevent.created k hcreated).2.2 l hl
    rw [hstate] at hended
    cases hended
  · rw [hl]
    refine ⟨_, rfl, Event.ended_onLease hended (fun hfinished => ?_) fun token htoken => ?_⟩
    · obtain ⟨l', hl', hopen⟩ := hevent.finished k hfinished
      cases hl.symm.trans hl'
      simp [JobState.not_ended_of_isOpen hopen] at hended
    · obtain ⟨⟨l', hl', hopen, -⟩, -⟩ := hevent.activated k token htoken
      cases hl.symm.trans hl'
      simp [JobState.not_ended_of_isOpen hopen] at hended

theorem ended_append {later : List Event} (h : FairLog (log ++ later)) {l : JobLease}
    (hl : (replayed log).lease k = some l) (hended : l.state.ended = true) :
    ∃ l', (replayed (log ++ later)).lease k = some l' ∧ l'.state.ended = true := by
  induction later using List.reverseRecOn with
  | nil => exact ⟨l, by simpa using hl, hended⟩
  | append_singleton later event ih =>
    rw [← List.append_assoc] at h ⊢
    obtain ⟨hlog, hevent⟩ := h.of_snoc
    obtain ⟨l', hl', hended'⟩ := ih hlog
    exact ended_apply hevent hl' hended'

/-- A job is completed at most once, and then it has ended. -/
theorem completed_once (h : FairLog log) : completions k log = 0 ∨
    (completions k log = 1 ∧ ∃ l, (replayed log).lease k = some l ∧ l.state.ended = true) := by
  induction h with
  | nil => exact .inl rfl
  | @snoc log event hlog hevent ih =>
    rw [completions_append, completions_singleton]
    by_cases hcompleted : event.completed = some k
    · obtain ⟨l, hl, hopen⟩ := hevent.finished k (Event.finished_of_completed hcompleted)
      rcases ih with hzero | ⟨-, l', hl', hended⟩
      · refine .inr ⟨by simp [hzero, hcompleted], ?_⟩
        cases event <;> cases hcompleted
        rw [replayed_snoc, lease_apply, hl]
        exact ⟨{ l with state := .completed }, by simp [Event.createdJobKey, Event.onLease], rfl⟩
      · cases hl.symm.trans hl'
        simp [JobState.not_ended_of_isOpen hopen] at hended
    · rw [if_neg hcompleted, Nat.add_zero]
      rcases ih with hzero | ⟨hone, l, hl, hended⟩
      · exact .inl hzero
      · exact .inr ⟨hone, ended_apply hevent hl hended⟩

/-- Unless a parked job was given back without its token, a job that has not ended holds the token of its latest
activation. -/
theorem token_eq (h : FairLog log) (hkeeps : keepsLeases {} log = true) {l : JobLease}
    (hl : (replayed log).lease k = some l) (hended : l.state.ended = false) : l.token = (tokens k log).getLast?.join := by
  induction h generalizing l with
  | nil => exact absurd (hl.symm.trans lease_nil) (by simp)
  | @snoc log event hlog hevent ih =>
    rw [keepsLeases_snoc, Bool.and_eq_true, Bool.not_eq_true'] at hkeeps
    obtain ⟨hkeeps, hkept⟩ := hkeeps
    rw [replayed_snoc, lease_apply] at hl
    split at hl
    · next hcreated =>
      cases hl
      have hnone : ∀ token, event.activation ≠ some (k, token) := by
        cases event <;> simp [Event.activation, Event.createdJobKey] at hcreated ⊢
      rw [tokens_append, (hevent.created k hcreated).1, tokens_of_activation hnone]
      rfl
    · obtain ⟨l', hl', rfl⟩ := Option.map_eq_some_iff.mp hl
      have hbefore : l'.state.ended = false := by
        by_contra hnot
        obtain ⟨l'', hl'', hended''⟩ := ended_apply hevent hl' (by simpa using hnot)
        rw [replayed_snoc, lease_apply, if_neg ‹_›] at hl''
        cases hl.symm.trans hl''
        simp [hended] at hended''
      have hih := ih hkeeps hl' hbefore
      by_cases hactivation : ∃ token, event.activation = some (k, token)
      · obtain ⟨token, htoken⟩ := hactivation
        cases event <;> cases htoken
        simp [Event.onLease, tokens, Event.activation]
      · have hnone : ∀ token, event.activation ≠ some (k, token) := fun token htoken => hactivation ⟨token, htoken⟩
        rw [tokens_append, tokens_of_activation hnone, List.append_nil, ← hih]
        rcases Event.onLease_token hnone hended with htoken | ⟨hfailed, i, p, r, o, rfl⟩
        · exact htoken
        · -- the job holds no token that could be forgotten
          have hkept' : ((replayed log).lease k).any (fun l => l.state == .failed && l.token.isSome) = false := hkept
          have htoken : l'.token = none := by simpa [hl', hfailed] using hkept'
          simp [Event.onLease, hfailed, htoken]

/-- An activation without a lease finds no token: once a job was leased, it stays so. -/
theorem all_leaseless (h : FairLog log) (hkeeps : keepsLeases {} log = true)
    (hlast : (tokens k log).getLast?.join = none) : ∀ token ∈ tokens k log, token = none := by
  induction h with
  | nil => simp [tokens]
  | @snoc log event hlog hevent ih =>
    rw [keepsLeases_snoc, Bool.and_eq_true] at hkeeps
    by_cases hactivation : ∃ token, event.activation = some (k, token)
    · obtain ⟨token, htoken⟩ := hactivation
      have hnew : tokens k [event] = [token] := by simp [tokens_singleton, htoken]
      rw [tokens_append, hnew] at hlast ⊢
      have hnone : token = none := by simpa using hlast
      obtain ⟨⟨l, hl, hopen, hfree⟩, -⟩ := hevent.activated k token htoken
      have hheld := token_eq hlog hkeeps.1 hl (JobState.not_ended_of_isOpen hopen)
      rw [hfree hnone] at hheld
      intro other hother
      rcases List.mem_append.mp hother with hother | hother
      · exact ih hkeeps.1 hheld.symm other hother
      · simpa [hnone] using hother
    · have hnone : tokens k [event] = [] := tokens_of_activation fun token htoken => hactivation ⟨token, htoken⟩
      rw [tokens_append, hnone, List.append_nil] at hlast ⊢
      exact ih hkeeps.1 hlast

/-- No token is handed out twice. -/
theorem nodup_tokens (h : FairLog log) : ((tokens k log).filterMap id).Nodup := by
  induction h with
  | nil => simp [tokens]
  | @snoc log event hlog hevent ih =>
    rw [tokens_append, List.filterMap_append]
    by_cases hactivation : ∃ token, event.activation = some (k, token)
    · obtain ⟨token, htoken⟩ := hactivation
      have hnew : tokens k [event] = [token] := by simp [tokens_singleton, htoken]
      obtain ⟨-, hfresh⟩ := hevent.activated k token htoken
      rw [hnew]
      cases token with
      | none => simpa using ih
      | some t =>
        refine List.nodup_append.mpr ⟨ih, by simp, ?_⟩
        intro a ha b hb hab
        subst hab
        have hmem : some a ∈ tokens k log := by simpa using ha
        have heq : a = t := by simpa using hb
        exact hfresh t rfl k (heq ▸ hmem)
    · have hnone : tokens k [event] = [] := tokens_of_activation fun token htoken => hactivation ⟨token, htoken⟩
      simpa [hnone] using ih

/-- The tokens of earlier activations are not the one a job holds, which then holds one. -/
theorem token_ne_earlier (h : FairLog log) (hkeeps : keepsLeases {} log = true) {l : JobLease}
    (hl : (replayed log).lease k = some l) (hended : l.state.ended = false) {t : String}
    (ht : some t ∈ (tokens k log).dropLast) : l.token.isSome = true ∧ l.token ≠ some t := by
  have hheld := token_eq h hkeeps hl hended
  have hmem : some t ∈ tokens k log := List.dropLast_subset _ ht
  cases htoken : l.token with
  | none =>
    rw [htoken] at hheld
    exact absurd (all_leaseless h hkeeps hheld.symm _ hmem) (by simp)
  | some held =>
    refine ⟨rfl, fun heq => ?_⟩
    cases heq
    rw [htoken] at hheld
    have hlast : (tokens k log).getLast? = some (some t) := by
      cases hlast : (tokens k log).getLast? with
      | none => simp [hlast] at hheld
      | some last => simpa [hlast] using hheld.symm
    obtain ⟨earlier, hsplit⟩ := List.getLast?_eq_some_iff.mp hlast
    have hnodup := nodup_tokens (k := k) h
    rw [hsplit, List.dropLast_concat] at ht
    rw [hsplit, List.filterMap_append, List.nodup_append] at hnodup
    exact hnodup.2.2 t (by simpa using ht) t (by simp) rfl

end FairLog

end NanoBpm
