import NanoBpm.Engine

/-!
# Residency (`engine-core/src/engine/memory.rs`) and lease recovery (`engine/api.rs:93`)

Everything here changes the state without an event: eviction and retirement of instances, spilling of
variables, lifting a whole instance out (`snapshot_instance`) and back in (`rehydrate_instance`), and
the leader-local lease recovery.
-/

namespace NanoBpm

/-- `MAX_TOMBSTONES`. -/
def maxTombstones : Nat := 2 ^ 20

/-- `LEASE_DIGEST_WORKER` (`engine/mod.rs:114`). -/
def leaseDigestWorker : String := "__lease_digest__"

def ProcessInstance.isTerminal (i : ProcessInstance) : Bool := i.state == .completed || i.state == .terminated

namespace State

/-- The inner loop of every removal: take one job out of `jobs` and both state indices. -/
def takeJob (acc : List Job × State) (jobKey : Key) : List Job × State :=
  match acc.2.jobs[jobKey]? with
  | none => acc
  | some job =>
    (acc.1 ++ [job],
      { acc.2 with jobs := acc.2.jobs.erase jobKey }.deindexJob job.jobType jobKey job.priority)

/-- `jobs_by_instance.remove(&key)` followed by the removal of every job it listed. -/
def takeJobs (s : State) (key : Key) : List Job × State :=
  match s.jobsByInstance[key]? with
  | none => ([], s)
  | some jobKeys => jobKeys.toList.foldl takeJob ([], { s with jobsByInstance := s.jobsByInstance.erase key })

/-- One victim of `remove_instance_set`. -/
def removeInstance (s : State) (key : Key) : State := ({ s with instances := s.instances.erase key }.takeJobs key).2

/-- The three `retain`s that end every removal. -/
def retainOthers (s : State) (victims : List Key) : State :=
  { s with
    timers := s.timers.filter fun _ t => !victims.contains t.instanceKey
    messageSubscriptions := s.messageSubscriptions.filter fun _ x => !victims.contains x.instanceKey
    incidents := s.incidents.filter fun _ i => !victims.contains i.instanceKey }

end State

/-- `drain_owned` (`engine/mod.rs:12412`): the entities of an instance and the map without them. -/
def drainOwned {β : Type} (owner : β → Key) (m : KeyMap β) (key : Key) : List β × KeyMap β :=
  ((m.filter fun _ v => owner v == key).vals, m.filter fun _ v => owner v != key)

namespace Engine

/-! ## Leases -/

/-- The success branch of `recover_lease`: what the source tests before it touches the job. -/
def leaseRecoverable (e : Engine) (jobKey : Key) (deadline now : Nat) : Bool :=
  !e.state.jobRequiresDurableActivation jobKey &&
    e.state.jobs[jobKey]?.any fun j => j.state == .created && j.leaseToken.isNone && now < deadline

/-- `recover_lease` (`api.rs:93`). -/
def recoverLease (e : Engine) (jobKey : Key) (deadline now : Nat) : Bool × Engine :=
  if e.leaseRecoverable jobKey deadline now then
    (true,
      { e with
        state :=
          { e.state with
            jobs := e.state.jobs.modify jobKey fun j =>
              { j with
                state := .activated
                worker := some leaseDigestWorker
                deadline := some deadline
                activated := true }
            activatedJobs := e.state.activatedJobs.insert jobKey } })
  else (false, e)

/-! ## Eviction and retirement -/

/-- `evict_instance` (`memory.rs:188`). -/
def evictInstance (e : Engine) (key : Key) : Bool × Engine :=
  if e.state.instances[key]?.any (·.isTerminal) then
    (true, { e with state := (e.state.removeInstance key).retainOthers [key] })
  else (false, e)

/-- `remove_instance_set` (`memory.rs:391`). -/
def removeInstanceSet (e : Engine) (victims : List Key) : Engine :=
  if victims.isEmpty then e
  else
    { e with
      dirtyVars := if e.trackDirtyVars then victims.foldl (·.erase ·) e.dirtyVars else e.dirtyVars
      forgottenVars := if e.trackDirtyVars then victims.foldl (·.insert ·) e.forgottenVars else e.forgottenVars
      state := (victims.foldl State.removeInstance e.state).retainOthers victims }

/-- `evict_instances` (`memory.rs:231`). -/
def evictInstances (e : Engine) (keys : List Key) : Engine :=
  e.removeInstanceSet (keys.filter fun k => e.state.instances[k]?.any (·.isTerminal)).eraseDups

/-- The loop of `retire_instances`: a resident key is a victim, another one leaves a tombstone. -/
def retireStep (e : Engine) (acc : List Key × KeySet) (k : Key) : List Key × KeySet :=
  if e.state.instances.contains k then (acc.1 ++ [k], acc.2)
  else if acc.2.size < maxTombstones then (acc.1, acc.2.insert k) else acc

/-- `retire_instances` (`memory.rs:266`). -/
def retireInstances (e : Engine) (keys : List Key) : Engine :=
  let (victims, tombstones) := keys.foldl (retireStep e) ([], e.retiredTombstones)
  { e with retiredTombstones := tombstones }.removeInstanceSet victims.eraseDups

/-- `reap_tombstoned` (`memory.rs:292`). -/
def reapTombstoned (e : Engine) (created : List Key) : Engine :=
  if e.retiredTombstones.isEmpty then e
  else
    let hit := (created.filter e.retiredTombstones.contains).eraseDups
    { e with retiredTombstones := hit.foldl (·.erase ·) e.retiredTombstones }.removeInstanceSet hit

/-- `retirement_low_water` (`memory.rs:322`). -/
def retirementLowWater (e : Engine) : Key :=
  ((e.state.instances.vals.filter (·.state == .active)).map (·.key)).min?.getD
    (composeKey e.partitionId (satAdd e.nextLocal 1))

/-- `retire_below` (`memory.rs:350`); `iter` is the order in which the map yields its keys. -/
def retireBelow (e : Engine) (iter : List Key) (lowWater maxRemove : Nat) : List Key × Engine :=
  if e.state.instances.isEmpty || maxRemove == 0 then ([], e)
  else
    let victims := (iter.filter (· < lowWater)).take maxRemove
    if victims.isEmpty then ([], e)
    else
      let tombstones := if e.retiredTombstones.isEmpty then e.retiredTombstones
        else e.retiredTombstones.filter (lowWater ≤ ·)
      (victims, { e with retiredTombstones := tombstones }.removeInstanceSet victims)

/-- `evict_completed` (`memory.rs:424`); `shrink` releases capacity only. -/
def evictCompleted (e : Engine) : Engine :=
  ((e.state.instances.toList.filter (·.2.isTerminal)).map (·.1)).foldl (fun e k => (e.evictInstance k).2) e

/-! ## Spilling variables -/

def spillVariables (e : Engine) (key : Key) : Option Vars × Engine :=
  match e.state.instances[key]? with
  | none => (none, e)
  | some i =>
    if i.variablesSpilled || i.vars.isEmpty then (none, e)
    else
      (some i.vars,
        { e with state := e.state.modifyInstance key fun i => { i with vars := ∅, variablesSpilled := true } })

def rehydrateVariables (e : Engine) (key : Key) (vars : Vars) : Engine :=
  { e with state := e.state.modifyInstance key fun i => { i with vars, variablesSpilled := false } }

/-- `install_variables` (`memory.rs:148`): the body of `rehydrate_variables`. -/
def installVariables (e : Engine) (key : Key) (vars : Vars) : Engine := e.rehydrateVariables key vars

def markAllDirty (e : Engine) : Engine :=
  { e with dirtyVars := e.state.instances.keys.foldl (·.insert ·) ∅, forgottenVars := ∅ }

/-- `drain_dirty_vars` (`memory.rs:97`). -/
def drainDirtyVars (e : Engine) : (List (Key × Vars) × List Key) × Engine :=
  let upserts := e.dirtyVars.toList.filterMap fun key =>
    match e.state.instances[key]? with
    | none => none
    | some i => if i.variablesSpilled then none else some (key, i.vars)
  ((upserts, e.forgottenVars.toList), { e with dirtyVars := ∅, forgottenVars := ∅ })

/-- `snapshot_control_only` (`memory.rs:126`). -/
def snapshotControlOnly (e : Engine) : EngineSnapshot :=
  { e.snapshot with state := { e.state with instances := e.state.instances.map fun _ i => { i with vars := ∅ } } }

/-- `instances_with_async_token` (`memory.rs:649`), as a membership test. -/
def hasAsyncToken (s : State) (key : Key) : Bool :=
  s.timers.any (fun _ t => t.state == .created && t.instanceKey == key) ||
    s.messageSubscriptions.any (fun _ x => (x.state == .opened || x.state == .opening) && x.instanceKey == key) ||
    s.conditionalSubscriptions.any (fun _ x => x.state == .opened && x.instanceKey == key)

def isSpillable (e : Engine) (key : Key) (i : ProcessInstance) : Bool :=
  i.state == .active && !i.variablesSpilled && !i.vars.isEmpty && !hasAsyncToken e.state key &&
    e.state.jobsByInstance[key]?.any (!·.isEmpty)

/-- `spillable_instances` (`memory.rs:528`): ascending keys, at most `limit`. -/
def spillableInstances (e : Engine) (limit : Nat) : List Key :=
  ((e.state.instances.toList.filter fun (k, i) => e.isSpillable k i).map (·.1)).take limit

/-! ## Spilling whole instances -/

/-- `is_cold_spillable` (`memory.rs:721`). -/
def isColdSpillable (e : Engine) (key : Key) (i : ProcessInstance) : Bool :=
  if i.state != .active || i.active.isEmpty || i.variablesSpilled then false
  else
    match e.state.jobsByInstance[key]? with
    | some jobs => !jobs.any e.state.activatedJobs.contains
    | none => true

/-- `cold_spillable_instances` (`memory.rs:697`): ascending keys, at most `limit`. -/
def coldSpillableInstances (e : Engine) (limit : Nat) : List Key :=
  ((e.state.instances.toList.filter fun (k, i) => e.isColdSpillable k i).map (·.1)).take limit

/-- The body of `snapshot_instance` once its guard has passed: lift everything the instance owns. -/
def liftInstance (s : State) (key : Key) (i : ProcessInstance) : InstanceSnapshot × State :=
  let (jobs, s) := s.takeJobs key
  let (timers, timers') := drainOwned Timer.instanceKey s.timers key
  let (messages, messages') := drainOwned MessageSubscription.instanceKey s.messageSubscriptions key
  let (signals, signals') := drainOwned SignalSubscription.instanceKey s.signalSubscriptions key
  let (conditionals, conditionals') := drainOwned ConditionalSubscription.instanceKey s.conditionalSubscriptions key
  let (tasks, tasks') := drainOwned UserTask.instanceKey s.userTasks key
  let (incidents, incidents') := drainOwned Incident.instanceKey s.incidents key
  (⟨i, jobs, timers, messages, signals, conditionals, tasks, incidents⟩,
    { s with
      timers := timers'
      messageSubscriptions := messages'
      signalSubscriptions := signals'
      conditionalSubscriptions := conditionals'
      userTasks := tasks'
      incidents := incidents'
      instances := s.instances.erase key })

/-- `snapshot_instance` (`memory.rs:748`). -/
def snapshotInstance (e : Engine) (key : Key) : Option InstanceSnapshot × Engine :=
  match e.state.instances[key]? with
  | none => (none, e)
  | some i =>
    if i.state != .active || i.variablesSpilled then (none, e)
    else
      let (snap, s) := liftInstance e.state key i
      (some snap, { e with state := s })

/-- The job loop of `rehydrate_instance`. -/
def rehydrateJob (instanceKey : Key) (s : State) (job : Job) : State :=
  let s := s.linkJob instanceKey job.key
  { s with jobs := s.jobs.insert job.key job }.resyncJobIndex job.key

/-- `rehydrate_instance` (`memory.rs:790`). -/
def rehydrateInstance (e : Engine) (snap : InstanceSnapshot) : Engine :=
  let s := { e.state with instances := e.state.instances.insert snap.inst.key snap.inst }
  let s := snap.jobs.foldl (rehydrateJob snap.inst.key) s
  { e with
    state :=
      { s with
        timers := snap.timers.foldl (fun m t => m.insert t.key t) s.timers
        messageSubscriptions := snap.messageSubscriptions.foldl (fun m x => m.insert x.key x) s.messageSubscriptions
        signalSubscriptions := snap.signalSubscriptions.foldl (fun m x => m.insert x.key x) s.signalSubscriptions
        conditionalSubscriptions :=
          snap.conditionalSubscriptions.foldl (fun m x => m.insert x.key x) s.conditionalSubscriptions
        userTasks := snap.userTasks.foldl (fun m t => m.insert t.key t) s.userTasks
        incidents := snap.incidents.foldl (fun m i => m.insert i.key i) s.incidents } }

end Engine

end NanoBpm
