import NanoBpm.Definitions
import NanoBpm.Seglog.MultiRuns

/-!
# Deployments across a restart (`journal.rs:1184-1222`, `seglog.rs:1873-1890`, `:2118-2129`, `main.rs:1925-1940`)

A durable deployment is journaled by the first partition of the node and installed, in memory, by the others.
On a restart the others get it back from their own entry of the combined snapshot, from the broadcast set, which
holds only `ProcessDeployed`, or, on the node that owns the deployment partition 0, from what that partition
replicates: the newest processes, graphs, decisions and forms.
-/

namespace NanoBpm

namespace Seglog

variable (T : Topology)

/-! ## The host's restart -/

/-- The host passes the definitions of the deployment partition on to its other partitions (`main.rs:1932`). -/
def seedReplicas (engines : Nat → Engine) (p : Nat) : Engine :=
  if 0 ∈ T.owned ∧ p ≠ 0 then (engines p).installDeployment (engines 0).state.definitions.replicationEvents
  else engines p

/-- A restart of the host is a recovery and the replication. -/
def MultiNode.hosted (n : MultiNode) : MultiOp → MultiNode
  | .recover _ => { n with engines := seedReplicas T n.engines }
  | _ => n

inductive HostReachable (ok : MultiNode → MultiOp → Prop) : MultiNode → Prop
  | init : HostReachable ok {}
  | step {n n'} (op : MultiOp) : HostReachable ok n → ok n op → MultiStep T n op n' →
      HostReachable ok (n'.hosted T op)

/-- How a node deploys: its first partition journals what the deployment partition minted. On the node that owns
it the keys are new. No sidecar recovery relies on is lost. -/
def Deploys (n : MultiNode) : MultiOp → Prop
  | .append _ events _ => ∀ e ∈ events, e.isDeployment = false
  | .deploy p events =>
    T.owned.head? = some p ∧ (∀ e ∈ events, partitionOf e.maxKey = 0) ∧
      (p = 0 → (n.engines 0).state.definitions.Fresh (events.filterMap Event.resource))
  | op => KeepsSidecars n op

/-- Every deployment reaches every partition again: it is held by the partition's snapshot entry; or, on the node
of the deployment partition, replication passes it on; or, on the others, it is a surviving `ProcessDeployed`
whose tag is not the partition of its key. -/
def Recoverable (n : MultiNode) : Prop :=
  ∀ p ∈ T.owned, T.owned.head? ≠ some p → ∀ i r x, n.log[i]? = some r → r.2.resource = some x →
    i < n.heldAt p ∨
      if 0 ∈ T.owned then (n.engines 0).state.definitions.Current x
      else recoveredFirstIndex n.dir.toFiles ≤ i ∧ isBroadcast T.numPartitions r = true

/-- Deployments, with every restart at a moment when they can be recovered. -/
def DeploysRecoverably (n : MultiNode) (op : MultiOp) : Prop :=
  Deploys T n op ∧ ∀ written, op = .recover written → Recoverable T n

/-- A restart leaves every owned partition with the definitions it had. -/
def MultiNode.Resolves (n : MultiNode) : Prop :=
  ∀ written n', MultiStep T n (.recover written) n' → ∀ p ∈ T.owned,
    ((n'.hosted T (.recover written)).engines p).state.definitions = (n.engines p).state.definitions

/-! ## The definitions of a log -/

def resourcesOf (log : List Tagged) : List Resource := (log.map (·.2)).filterMap Event.resource

def noDefinitions : Definitions := State.definitions {}

/-- The definitions a log deploys. -/
def deployedBy (log : List Tagged) : Definitions := noDefinitions.registerAll (resourcesOf log)

@[simp] theorem resourcesOf_append (xs ys : List Tagged) :
    resourcesOf (xs ++ ys) = resourcesOf xs ++ resourcesOf ys := by
  simp [resourcesOf]

theorem deployedBy_append (xs ys : List Tagged) : deployedBy (xs ++ ys) = (deployedBy xs).registerAll (resourcesOf ys) := by
  rw [deployedBy, resourcesOf_append, Definitions.registerAll_append]
  rfl

theorem deployedBy_batch (log : List Tagged) (p : Nat) (events : List Event) :
    deployedBy (log ++ events.map (p, ·)) = (deployedBy log).deployAll events := by
  rw [deployedBy_append, Definitions.deployAll_eq]
  simp [resourcesOf, Function.comp_def]

theorem normalized_deployedBy (log : List Tagged) : (deployedBy log).Normalized := by
  have := Definitions.normalized_deployAll normalized_empty (log.map (·.2))
  rw [Definitions.deployAll_eq] at this
  exact this

theorem mem_resourcesOf {log : List Tagged} {x : Resource} :
    x ∈ resourcesOf log ↔ ∃ r ∈ log, r.2.resource = some x := by
  simp [resourcesOf]

/-- A partition that journals every deployment has them all in its own events. -/
theorem resources_eventsOf_self {p : Nat} {log : List Tagged}
    (h : ∀ r ∈ log, r.2.isDeployment = true → r.1 = p) : (eventsOf p log).filterMap Event.resource = resourcesOf log := by
  induction log with
  | nil => rfl
  | cons r log ih =>
    obtain ⟨hr, hlog⟩ := List.forall_mem_cons.1 h
    have ih := ih hlog
    rw [Event.isDeployment_eq] at hr
    simp only [eventsOf, resourcesOf] at ih ⊢
    by_cases hp : r.1 = p
    · cases hres : r.2.resource <;> simp [hp, hres, ih]
    · have hnone : r.2.resource = none := by
        cases hres : r.2.resource with
        | none => rfl
        | some x => exact absurd (hr (by simp [hres])) hp
      simp [hp, hnone, ih]

/-- One that journals none has none. -/
theorem resources_eventsOf_other {p : Nat} {log : List Tagged}
    (h : ∀ r ∈ log, r.2.isDeployment = true → r.1 ≠ p) : (eventsOf p log).filterMap Event.resource = [] := by
  rw [List.filterMap_eq_nil_iff]
  intro e he
  obtain ⟨r, hr, rfl⟩ := List.mem_map.1 he
  obtain ⟨hr, htag⟩ := List.mem_filter.1 hr
  have hne := h r hr
  rw [Event.isDeployment_eq] at hne
  cases hres : r.2.resource with
  | none => rfl
  | some x => exact absurd (by simpa using htag) (hne (by simp [hres]))

/-- What recovery installs into `p` of the broadcast set. -/
def broadcastFor (numPartitions p : Nat) (log : List Tagged) : List Event :=
  ((log.filter (isBroadcast numPartitions)).filter (·.1 != p)).map (·.2)

/-- Only process deployments are broadcast, and of those minted by the deployment partition all that another one
journaled. -/
theorem isBroadcast_eq {numPartitions : Nat} {r : Tagged} {x : Resource} (hr : r.2.resource = some x)
    (hkey : partitionOf r.2.maxKey = 0) : isBroadcast numPartitions r = (x.isProcess && r.1 != 0) := by
  obtain ⟨tag, e⟩ := r
  unfold Event.resource at hr
  dsimp only at hr hkey ⊢
  split at hr <;> cases hr
  · show (tag != min (partitionOf _) (numPartitions - 1)) = _
    rw [hkey]
    simp [Resource.isProcess]
  all_goals rfl

theorem broadcastFor_eq_nil {numPartitions p : Nat} {log : List Tagged}
    (h : ∀ r ∈ log, isBroadcast numPartitions r = true → r.1 = p) : broadcastFor numPartitions p log = [] := by
  simp only [broadcastFor, List.map_eq_nil_iff, List.filter_eq_nil_iff, List.mem_filter]
  rintro r ⟨hr, hb⟩
  simp [h r hr hb]

theorem resources_broadcastFor {numPartitions p : Nat} {log : List Tagged}
    (h : ∀ r ∈ log, r.2.isDeployment = true → r.1 ≠ p ∧ r.1 ≠ 0 ∧ partitionOf r.2.maxKey = 0) :
    (broadcastFor numPartitions p log).filterMap Event.resource = (resourcesOf log).filter Resource.isProcess := by
  induction log with
  | nil => rfl
  | cons r log ih =>
    obtain ⟨hr, hlog⟩ := List.forall_mem_cons.1 h
    have ih := ih hlog
    simp only [broadcastFor, resourcesOf, List.filterMap_map, List.filter_filter, Function.comp_def] at ih ⊢
    cases hres : r.2.resource with
    | none =>
      have hb : isBroadcast numPartitions r = false := by
        rw [← Bool.not_eq_true]
        intro hb
        have := isBroadcast_isDeployment hb
        rw [Event.isDeployment_eq, hres] at this
        cases this
      simp [hb, hres, ih]
    | some x =>
      obtain ⟨hp, hzero, hkey⟩ := hr (by rw [Event.isDeployment_eq, hres]; rfl)
      have hb := @isBroadcast_eq numPartitions r x hres hkey
      cases hx : x.isProcess with
      | true => simp [hb, hx, hp, hzero, hres, ih]
      | false => simp [hb, hx, hres, ih]

/-! ## The invariant -/

/-- A snapshot entry that holds the log up to `a`. -/
structure MultiSnapshotEntry.Held (entry : MultiSnapshotEntry) (log : List Tagged) (a : Nat) : Prop where
  le : a ≤ log.length
  covered : entry.covered = (eventsOf entry.partition (log.take a)).length
  definitions : (Engine.fromSnapshot entry.engine).state.definitions = deployedBy (log.take a)

theorem MultiSnapshotEntry.Held.extend {entry : MultiSnapshotEntry} {log : List Tagged} {a : Nat}
    (h : entry.Held log a) (more : List Tagged) : entry.Held (log ++ more) a := by
  have htake : (log ++ more).take a = log.take a := List.take_append_of_le_length h.le
  refine ⟨?_, htake ▸ h.covered, htake ▸ h.definitions⟩
  have := h.le
  simp only [List.length_append]
  omega

structure MultiWriter.Deployed (w : MultiWriter) (combined : Option (Except SnapshotLoadError (List MultiSnapshotEntry)))
    (log : List Tagged) : Prop where
  taken : ∀ e ∈ w.taken, e.Held log (w.takenAt e.partition)
  covered : w.covered = [] ∨ combined ≠ none
  ends : ∀ seg ∈ w.shared.sealed, seg.perPartitionEnd.length = T.numPartitions

structure MultiNode.Deployed (n : MultiNode) : Prop where
  live : ∀ p ∈ T.owned, (n.engines p).state.definitions = deployedBy n.log
  tags : ∀ r ∈ n.log, r.2.isDeployment = true → T.owned.head? = some r.1 ∧ partitionOf r.2.maxKey = 0
  fresh : 0 ∈ T.owned → noDefinitions.Fresh (resourcesOf n.log)
  layout : ∃ first activeStart, n.Inv T .any first activeStart ∧ (n.dir.combined = none → first = 0)
  unheld : n.dir.combined = none → ∀ p, n.heldAt p = 0
  held : ∀ entries, n.dir.combined = some (.ok entries) → ∀ p ∈ T.owned,
    ∃ e, entryOf entries p = some e ∧ e.Held n.log (n.heldAt p)
  writer : ∀ w, n.writer = some w → w.Deployed T n.dir.combined n.log

variable {T}

/-! ## What a recovery rebuilds -/

/-- In a run a recovery starts from the combined snapshot or, where there is none, from a log that is still
whole; it does not migrate. -/
theorem MultiNode.Deployed.source {n : MultiNode} (h : n.Deployed T) {source : Source}
    (hs : chooseSource n.dir (surveyedMulti T.numPartitions n.dir.toFiles) = .ok source) :
    (n.dir.combined = none ∧ recoveredFirstIndex n.dir.toFiles = 0 ∧ source = .snapshot none) ∨
      ∃ entries, n.dir.combined = some (.ok entries) ∧ source = .snapshot (some entries) := by
  obtain ⟨first, activeStart, hinv, hnone⟩ := h.layout
  have hfirst : recoveredFirstIndex n.dir.toFiles = first := hinv.dir.files.recoveredFirstIndex_eq
  unfold chooseSource at hs
  cases hc : n.dir.combined with
  | none =>
    have hzero : (surveyedMulti T.numPartitions n.dir.toFiles).firstIndex = 0 := hfirst.trans (hnone hc)
    simp only [hc, hzero, if_true] at hs
    exact Or.inl ⟨rfl, hzero, (Except.ok.inj hs).symm⟩
  | some c =>
    obtain ⟨entries, rfl, -⟩ := hinv.dir.combined c hc
    simp only [hc] at hs
    exact Or.inr ⟨entries, rfl, (Except.ok.inj hs).symm⟩

theorem MultiNode.Deployed.recovered_dir {n : MultiNode} (h : n.Deployed T) {written : Bool} {r : MultiSegRecovery}
    {dir : MultiDir} (hr : recoverMulti T.owned T.numPartitions none written n.dir = .ok (r, dir)) : dir = n.dir := by
  obtain ⟨source, hs, -, -, -, -, rfl | ⟨⟨cold, rfl⟩, -⟩⟩ := recoverMulti_cases hr
  · rfl
  · rcases h.source hs with ⟨-, -, hmigrate⟩ | ⟨entries, -, hmigrate⟩ <;> cases hmigrate

/-- A partition's recovered definitions: those its entry holds, those of its own later events, and the broadcast. -/
theorem MultiNode.Deployed.recovered {n : MultiNode} (h : n.Deployed T) {written : Bool} {r : MultiSegRecovery}
    {dir : MultiDir} (hr : recoverMulti T.owned T.numPartitions none written n.dir = .ok (r, dir)) {p : Nat}
    (hp : p ∈ T.owned) :
    (r.engineOf p).state.definitions =
      ((deployedBy (n.log.take (n.heldAt p))).deployAll (eventsOf p (n.log.drop (n.heldAt p)))).deployAll
        (broadcastFor T.numPartitions p (n.log.drop (recoveredFirstIndex n.dir.toFiles))) := by
  obtain ⟨first, activeStart, hinv, -⟩ := h.layout
  obtain ⟨source, hs, hcheck, -, -, hengines, -⟩ := recoverMulti_cases hr
  have hfirst : recoveredFirstIndex n.dir.toFiles = first := hinv.dir.files.recoveredFirstIndex_eq
  have htagged : (surveyedMulti T.numPartitions n.dir.toFiles).tagged = n.log.drop first :=
    hinv.dir.files.survivingRecords_eq
  have hbase : (surveyedMulti T.numPartitions n.dir.toFiles).ppBase.getD p 0 =
      (eventsOf p (n.log.take first)).length := by
    show (recoveredBase T.numPartitions n.dir.toFiles).getD p 0 = _
    rw [hinv.dir.base, getD_countsOf (T.lt p hp)]
  rw [hfirst, MultiSegRecovery.engineOf, hengines, lookup_map_self _ hp, Option.getD_some]
  have hinstall : ∀ engine : Engine, (if (broadcastFor T.numPartitions p (n.log.drop first)).isEmpty then engine
      else engine.installDeploymentIfNewer (broadcastFor T.numPartitions p (n.log.drop first))).state.definitions =
        engine.state.definitions.deployAll (broadcastFor T.numPartitions p (n.log.drop first)) := by
    intro engine
    split
    · rename_i hemp
      rw [List.isEmpty_iff.1 hemp]
      rfl
    · exact definitions_installDeployment engine _
  rcases h.source hs with ⟨hc, hzero, rfl⟩ | ⟨entries, hc, rfl⟩
  · -- no snapshot: the whole log survives and is replayed
    rw [hfirst] at hzero
    have hreplay : ∀ events, (Engine.replayPartition p events).state.definitions = noDefinitions.deployAll events :=
      fun events => definitions_applyReplayedEvents (Engine.withPartition p) events
    unfold rebuildPartition
    dsimp only [Option.bind_none]
    rw [h.unheld hc, htagged, hzero]
    rw [List.drop_zero, List.take_zero]
    rw [hzero, List.drop_zero] at hinstall
    exact (hinstall _).trans (congrArg (Definitions.deployAll · _) (hreplay _))
  · obtain ⟨entry, hentry, hheld⟩ := h.held entries hc p hp
    obtain ⟨-, rfl⟩ := mem_of_entryOf hentry
    -- exactly the events past the entry are replayed
    have hskip := @eventsOf_drop_skip n.log first entry.covered entry.partition <| by
      by_cases hzero : (eventsOf entry.partition (n.log.take first)).length = 0
      · exact Or.inl hzero
      · obtain ⟨e, he, hle⟩ := checkCompacted_entry hcheck hp hbase hzero
        rw [hentry, Option.some.injEq] at he
        exact Or.inr (he ▸ hle)
    have htail : (eventsOf entry.partition n.log).drop entry.covered =
        eventsOf entry.partition (n.log.drop (n.heldAt entry.partition)) := by
      conv_lhs => rw [← List.take_append_drop (n.heldAt entry.partition) n.log]
      rw [eventsOf_append, hheld.covered, List.drop_left]
    unfold rebuildPartition
    dsimp only [Option.bind_some, installStored]
    rw [htagged, hentry]
    refine (hinstall _).trans (congrArg (Definitions.deployAll · _) ?_)
    dsimp only
    rw [hbase, hskip, htail]
    split
    · rw [definitions_applyReplayedEvents, hheld.definitions]
    · rename_i hlt
      rw [List.drop_eq_nil_of_le (Nat.le_of_not_lt hlt), htail] at hskip
      rw [← hskip, hheld.definitions]
      rfl

theorem Topology.head_eq_zero {T : Topology} (h : 0 ∈ T.owned) : T.owned.head? = some 0 := by
  have hsorted := T.sorted
  cases ho : T.owned with
  | nil => simp [ho] at h
  | cons q qs =>
    rw [ho] at h hsorted
    rcases List.mem_cons.1 h with rfl | hmem
    · rfl
    · exact absurd ((List.pairwise_cons.1 hsorted).1 0 hmem) (Nat.not_lt_zero q)

theorem deployedBy_take_drop (log : List Tagged) (a : Nat) :
    (deployedBy (log.take a)).registerAll (resourcesOf (log.drop a)) = deployedBy log := by
  rw [← deployedBy_append, List.take_append_drop]

/-- The partition that journals the deployments replays them. -/
theorem MultiNode.Deployed.recovered_writer {n : MultiNode} (h : n.Deployed T) {written : Bool} {r : MultiSegRecovery}
    {dir : MultiDir} (hr : recoverMulti T.owned T.numPartitions none written n.dir = .ok (r, dir)) {p : Nat}
    (hp : p ∈ T.owned) (hhead : T.owned.head? = some p) : (r.engineOf p).state.definitions = deployedBy n.log := by
  have hdefs := h.recovered hr hp
  have htag : ∀ x ∈ n.log, x.2.isDeployment = true → x.1 = p := by
    intro x hx hdep
    have := (h.tags x hx hdep).1
    rw [hhead] at this
    exact (Option.some.inj this).symm
  have hbroadcast : broadcastFor T.numPartitions p (n.log.drop (recoveredFirstIndex n.dir.toFiles)) = [] :=
    broadcastFor_eq_nil fun x hx hb => htag x (List.mem_of_mem_drop hx) (isBroadcast_isDeployment hb)
  rw [hdefs, hbroadcast, Definitions.deployAll_nil, Definitions.deployAll_eq,
    resources_eventsOf_self fun x hx => htag x (List.mem_of_mem_drop hx), deployedBy_take_drop]

/-- The others have the deployments their entry holds, and the broadcast. -/
theorem MultiNode.Deployed.recovered_other {n : MultiNode} (h : n.Deployed T) {written : Bool} {r : MultiSegRecovery}
    {dir : MultiDir} (hr : recoverMulti T.owned T.numPartitions none written n.dir = .ok (r, dir)) {p : Nat}
    (hp : p ∈ T.owned) (hhead : T.owned.head? ≠ some p) :
    (r.engineOf p).state.definitions = (deployedBy (n.log.take (n.heldAt p))).registerAll
      ((broadcastFor T.numPartitions p (n.log.drop (recoveredFirstIndex n.dir.toFiles))).filterMap Event.resource) := by
  have hdefs := h.recovered hr hp
  have hown : (eventsOf p (n.log.drop (n.heldAt p))).filterMap Event.resource = [] := by
    refine resources_eventsOf_other fun x hx hdep heq => hhead ?_
    rw [(h.tags x (List.mem_of_mem_drop hx) hdep).1, heq]
  rw [hdefs, Definitions.deployAll_eq, Definitions.deployAll_eq, hown]
  rfl

/-- On a node without the deployment partition, the broadcast brings the surviving processes. -/
theorem registerAll_broadcast {log : List Tagged} {a first : Nat}
    (h : ∀ i r x, log[i]? = some r → r.2.resource = some x → i < a ∨ first ≤ i ∧ x.isProcess = true) :
    (deployedBy (log.take a)).registerAll ((resourcesOf (log.drop first)).filter Resource.isProcess) =
      deployedBy log := by
  have hprocess : ∀ x ∈ resourcesOf (log.drop a), x.isProcess = true := by
    intro x hx
    obtain ⟨r, hr, hres⟩ := mem_resourcesOf.1 hx
    obtain ⟨i, hi⟩ := List.mem_iff_getElem?.1 hr
    rw [List.getElem?_drop] at hi
    rcases h _ r x hi hres with hlt | ⟨-, hx⟩
    · omega
    · exact hx
  rcases Nat.le_total first a with hle | hle
  · -- the processes between the first record and the snapshot come a second time
    have hsplit : log.drop first = (log.take a).drop first ++ log.drop a := by
      conv_lhs => rw [← List.take_append_drop a log]
      by_cases hlen : a ≤ log.length
      · rw [List.drop_append_of_le_length (by simp; omega)]
      · simp [List.take_of_length_le (Nat.le_of_not_le hlen), List.drop_eq_nil_of_le (Nat.le_of_not_le hlen)]
    have hagain : (deployedBy (log.take a)).registerAll
        ((resourcesOf ((log.take a).drop first)).filter Resource.isProcess) = deployedBy (log.take a) := by
      have hparts := deployedBy_take_drop (log.take a) first
      rw [← hparts]
      exact Definitions.registerAll_processes_again _ _
    rw [hsplit, resourcesOf_append, List.filter_append, Definitions.registerAll_append, hagain,
      List.filter_eq_self.2 hprocess, deployedBy_take_drop]
  · -- nothing was deployed between the snapshot and the first record
    have hsplit : log.drop a = (log.drop a).take (first - a) ++ log.drop first := by
      conv_lhs => rw [← List.take_append_drop (first - a) (log.drop a)]
      rw [List.drop_drop]
      congr 2
      omega
    have hnothing : resourcesOf ((log.drop a).take (first - a)) = [] := by
      rw [List.eq_nil_iff_forall_not_mem]
      intro x hx
      obtain ⟨r, hr, hres⟩ := mem_resourcesOf.1 hx
      obtain ⟨i, hi⟩ := List.mem_iff_getElem?.1 hr
      rw [List.getElem?_take] at hi
      split at hi
      · rw [List.getElem?_drop] at hi
        rcases h _ r x hi hres with hlt | ⟨hge, -⟩ <;> omega
      · cases hi
    have hsame : resourcesOf (log.drop a) = resourcesOf (log.drop first) := by
      rw [hsplit, resourcesOf_append, hnothing, List.nil_append]
    rw [← hsame, List.filter_eq_self.2 hprocess, deployedBy_take_drop]

theorem consistent_noDefinitions : noDefinitions.Consistent where
  latest := by
    intro K hK i x hx
    exfalso
    rcases ResourceKind.mem_all.1 hK with rfl | rfl | rfl | rfl | rfl <;>
      exact absurd (hx.symm.trans Std.ExtTreeMap.getElem?_empty) (by simp)
  graph := fun k x hx => absurd (hx.symm.trans Std.ExtTreeMap.getElem?_empty) (by simp)

/-- A recoverable restart gives every owned partition all definitions of the log. -/
theorem MultiNode.Deployed.restarted {n : MultiNode} (h : n.Deployed T) (hrec : Recoverable T n) {written : Bool}
    {r : MultiSegRecovery} {dir : MultiDir}
    (hr : recoverMulti T.owned T.numPartitions none written n.dir = .ok (r, dir)) {p : Nat} (hp : p ∈ T.owned) :
    (seedReplicas T r.engineOf p).state.definitions = deployedBy n.log := by
  unfold seedReplicas
  by_cases hhead : T.owned.head? = some p
  · -- the first partition: it is not seeded
    rw [if_neg, h.recovered_writer hr hp hhead]
    rintro ⟨hzero, hne⟩
    rw [Topology.head_eq_zero hzero] at hhead
    exact hne (Option.some.inj hhead).symm
  · have hother := h.recovered_other hr hp hhead
    have hrecp := hrec p hp hhead
    by_cases hzero : 0 ∈ T.owned
    · -- the node of the deployment partition: no broadcast, but replication
      have hbroadcast : broadcastFor T.numPartitions p (n.log.drop (recoveredFirstIndex n.dir.toFiles)) = [] := by
        refine broadcastFor_eq_nil fun x hx hb => ?_
        have hdep := isBroadcast_isDeployment hb
        obtain ⟨htag, hkey⟩ := h.tags x (List.mem_of_mem_drop hx) hdep
        obtain ⟨y, hy⟩ := Option.isSome_iff_exists.1 (x.2.isDeployment_eq ▸ hdep)
        rw [Topology.head_eq_zero hzero, Option.some.injEq] at htag
        rw [isBroadcast_eq hy hkey, ← htag] at hb
        simp at hb
      rw [hbroadcast, List.filterMap_nil, Definitions.registerAll_nil] at hother
      have hne : p ≠ 0 := fun heq => hhead (heq ▸ Topology.head_eq_zero hzero)
      have hfresh := h.fresh hzero
      have hsplit := List.take_append_drop (n.heldAt p) n.log
      rw [← hsplit, resourcesOf_append, Definitions.fresh_append] at hfresh
      have hwhole := deployedBy_take_drop n.log (n.heldAt p)
      rw [if_pos ⟨hzero, hne⟩, definitions_installDeployment, hother,
        h.recovered_writer hr hzero (Topology.head_eq_zero hzero), ← hwhole]
      refine Definitions.deployAll_replicationEvents (consistent_noDefinitions.registerAll hfresh.1) hfresh.2
        (hwhole ▸ normalized_deployedBy n.log) fun x hx => ?_
      obtain ⟨q, hq, hres⟩ := mem_resourcesOf.1 hx
      obtain ⟨i, hi⟩ := List.mem_iff_getElem?.1 hq
      rw [List.getElem?_drop] at hi
      rcases hrecp _ q x hi hres with hlt | hcur
      · omega
      · rw [if_pos hzero, h.live 0 hzero] at hcur
        rw [hwhole]
        exact hcur
    · -- another node: the broadcast
      rw [if_neg fun hc => hzero hc.1, hother, resources_broadcastFor]
      · refine registerAll_broadcast fun i q x hq hres => (hrecp i q x hq hres).imp id fun hsurv => ?_
        rw [if_neg hzero] at hsurv
        refine ⟨hsurv.1, ?_⟩
        have hdep : q.2.isDeployment = true := by rw [Event.isDeployment_eq, hres]; rfl
        have hb := hsurv.2
        rw [isBroadcast_eq hres (h.tags q (List.mem_of_getElem? hq) hdep).2] at hb
        exact (Bool.and_eq_true_iff.1 hb).1
      · intro q hq hdep
        obtain ⟨htag, hkey⟩ := h.tags q (List.mem_of_mem_drop hq) hdep
        refine ⟨fun heq => hhead (heq ▸ htag), fun heq => hzero ?_, hkey⟩
        exact heq ▸ List.mem_of_mem_head? htag

/-! ## Steps -/

theorem Deploys.keepsSidecars {n : MultiNode} {op : MultiOp} (h : Deploys T n op) : KeepsSidecars n op := by
  cases op <;> first | exact h | trivial

theorem ends_sealSegment {w : SegShared} {k : Nat} (writes : SealWrites) (f : Files Tagged)
    (htotal : w.perPartitionTotal.length = k) (h : ∀ seg ∈ w.sealed, seg.perPartitionEnd.length = k) :
    ∀ seg ∈ (sealSegment writes f w).2.1.sealed, seg.perPartitionEnd.length = k := by
  intro seg hseg
  unfold sealSegment at hseg
  dsimp only at hseg
  split at hseg
  · exact h seg hseg
  · rcases List.mem_append.1 hseg with hold | hnew
    · exact h seg hold
    · obtain rfl := List.mem_singleton.1 hnew
      exact htotal

theorem compactFaulty_sublist {deletable : SealedSeg → Bool} {remove : Files Tagged → Nat → Files Tagged}
    (flags : List Bool) (f : Files Tagged) (sealed : List SealedSeg) :
    (compactFaulty deletable remove flags f sealed).2.Sublist sealed := by
  induction flags generalizing f sealed with
  | nil => exact List.Sublist.refl _
  | cons removed flags ih =>
    cases sealed with
    | nil => exact List.Sublist.refl _
    | cons seg rest =>
      unfold compactFaulty
      split
      · split
        · exact List.Sublist.refl _
        · exact (ih _ rest).trans (List.sublist_cons_self seg rest)
      · exact List.Sublist.refl _

theorem ends_readSealedMulti {k : Nat} {running : List Nat} (hrun : running.length = k) (sealed : List (Nat × List Tagged)) :
    ∀ seg ∈ readSealedMulti k running sealed, seg.perPartitionEnd.length = k := by
  have hbump : ∀ (counts : List Nat) (records : List Tagged), (bumpTags k counts records).length = counts.length := by
    intro counts records
    induction records generalizing counts with
    | nil => rfl
    | cons r rs ih => exact (ih _).trans (List.length_modify _ _ _)
  induction sealed generalizing running with
  | nil => exact fun _ h => nomatch h
  | cons q qs ih =>
    intro seg hseg
    rcases List.mem_cons.1 hseg with rfl | hseg
    · exact (hbump _ _).trans hrun
    · exact ih ((hbump _ _).trans hrun) seg hseg

/-- Before the first combined snapshot nothing is deletable. -/
theorem compactMulti_uncovered {exported : List Nat} {flags : List Bool} {k : Nat} {f : Files Tagged} {w : SegShared}
    (hk : k ≠ 0) (h : ∀ seg ∈ w.sealed, seg.perPartitionEnd.length = k) :
    (compactMulti [] exported flags f w).1 = f := by
  unfold compactMulti
  show (compactFaulty _ _ flags f w.sealed).1 = f
  cases flags with
  | nil => rfl
  | cons removed flags =>
    cases hs : w.sealed with
    | nil => rfl
    | cons seg rest =>
      have hlen := h seg (hs ▸ List.mem_cons_self)
      have hkeep : deletableMulti [] exported seg = false := by simp [deletableMulti, hlen, hk]
      simp [compactFaulty, hkeep]

/-- The files keep the log, and until a combined snapshot is written they keep all of it. -/
theorem MultiNode.Deployed.step_layout {n n' : MultiNode} {op : MultiOp} (h : n.Deployed T) (hop : Deploys T n op)
    (hs : MultiStep T n op n') (hcombined : n'.dir.combined = none → n.dir.combined = none) :
    ∃ first activeStart, n'.Inv T .any first activeStart ∧ (n'.dir.combined = none → first = 0) := by
  obtain ⟨first, activeStart, hinv, hnone⟩ := h.layout
  obtain ⟨first', start', hinv', hcompact | rfl⟩ := hinv.step hop.keepsSidecars hs
  · refine ⟨first', start', hinv', fun hc => ?_⟩
    obtain ⟨exported, flags, rfl⟩ := hcompact
    cases hs
    rename_i w hw
    have hok := h.writer w hw
    by_cases hzero : T.numPartitions = 0
    · -- no partitions, no log
      have hlog : n.log = [] := by
        rw [List.eq_nil_iff_forall_not_mem]
        intro r hr
        have := T.lt r.1 (hinv.tags r hr)
        omega
      have := hinv'.dir.files.first_le
      simp only [hlog, List.length_nil] at this
      omega
    · have hcov : w.covered = [] := hok.covered.resolve_right fun hne => hne (hcombined hc)
      have hsame := @compactMulti_uncovered exported flags _ n.dir.toFiles _ hzero hok.ends
      have hindex := hinv'.dir.files.recoveredFirstIndex_eq
      change recoveredFirstIndex (compactMulti w.covered exported flags n.dir.toFiles w.shared).1 = first' at hindex
      rw [hcov, hsame, hinv.dir.files.recoveredFirstIndex_eq, hnone (hcombined hc)] at hindex
      exact hindex.symm
  · exact ⟨first', start', hinv', fun hc => hnone (hcombined hc)⟩

/-- A step that leaves log, engines and snapshot alone. -/
theorem MultiNode.Deployed.frame {n n' : MultiNode} (h : n.Deployed T) (hlog : n'.log = n.log)
    (hengines : n'.engines = n.engines) (hcombined : n'.dir.combined = n.dir.combined) (hheld : n'.heldAt = n.heldAt)
    (hlayout : ∃ first activeStart, n'.Inv T .any first activeStart ∧ (n'.dir.combined = none → first = 0))
    (hwriter : ∀ w, n'.writer = some w → w.Deployed T n.dir.combined n.log) : n'.Deployed T where
  live := by
    rw [hengines, hlog]
    exact h.live
  tags := hlog ▸ h.tags
  fresh := hlog ▸ h.fresh
  layout := hlayout
  unheld := by
    rw [hcombined, hheld]
    exact h.unheld
  held := by
    rw [hcombined, hheld, hlog]
    exact h.held
  writer := by
    rw [hcombined, hlog]
    exact hwriter

/-- A batch the log takes in. -/
theorem MultiNode.Deployed.extend {n n' : MultiNode} {p : Nat} {events : List Event} {w : MultiWriter}
    (h : n.Deployed T) (hlog : n'.log = n.log ++ events.map (p, ·)) (hcombined : n'.dir.combined = n.dir.combined)
    (hheld : n'.heldAt = n.heldAt) (hw : n.writer = some w)
    (hw' : n'.writer =
      some { w with shared := w.shared.append events.length (batchDeltas T.numPartitions p events.length) })
    (hlayout : ∃ first activeStart, n'.Inv T .any first activeStart ∧ (n'.dir.combined = none → first = 0))
    (hlive : ∀ q ∈ T.owned, (n'.engines q).state.definitions = (deployedBy n.log).deployAll events)
    (htags : ∀ e ∈ events, e.isDeployment = true → T.owned.head? = some p ∧ partitionOf e.maxKey = 0)
    (hfresh : 0 ∈ T.owned → (deployedBy n.log).Fresh (events.filterMap Event.resource)) : n'.Deployed T where
  live := by
    intro q hq
    rw [hlive q hq, hlog, deployedBy_batch]
  tags := by
    intro r hr
    rw [hlog] at hr
    rcases List.mem_append.1 hr with hr | hr
    · exact h.tags r hr
    · obtain ⟨e, he, rfl⟩ := List.mem_map.1 hr
      exact htags e he
  fresh := by
    intro hzero
    rw [hlog, resourcesOf_append, Definitions.fresh_append]
    refine ⟨h.fresh hzero, ?_⟩
    have := hfresh hzero
    have hres : resourcesOf (events.map (p, ·)) = events.filterMap Event.resource := by
      simp [resourcesOf, Function.comp_def]
    rw [hres]
    exact this
  layout := hlayout
  unheld := by
    rw [hcombined, hheld]
    exact h.unheld
  held := by
    rw [hcombined, hheld, hlog]
    intro entries hc q hq
    obtain ⟨e, he, hh⟩ := h.held entries hc q hq
    exact ⟨e, he, hh.extend _⟩
  writer := by
    rw [hcombined, hlog, hw']
    rintro _ ⟨⟩
    have hok := h.writer w hw
    exact ⟨fun e he => (hok.taken e he).extend _, hok.covered, hok.ends⟩

/-- Every partition saves the definitions of the log so far. -/
theorem MultiNode.Deployed.snapshot_held {n : MultiNode} (h : n.Deployed T) {p covered : Nat} (hp : p ∈ T.owned)
    (hcovered : covered = (eventsOf p n.log).length) :
    MultiSnapshotEntry.Held ⟨p, covered, (n.engines p).snapshot⟩ n.log n.log.length where
  le := Nat.le_refl _
  covered := by rw [List.take_length, hcovered]
  definitions := by
    have hnorm : (n.engines p).state.definitions.Normalized := h.live p hp ▸ normalized_deployedBy n.log
    have hlogged := congrArg (fun l : Engine.Logged => l.state.definitions) (Engine.logged_fromSnapshot hnorm)
    rw [List.take_length]
    exact hlogged.trans (h.live p hp)

theorem MultiNode.Deployed.step {n n' : MultiNode} {op : MultiOp} (h : n.Deployed T)
    (hop : DeploysRecoverably T n op) (hs : MultiStep T n op n') : (n'.hosted T op).Deployed T := by
  have hlayout := h.step_layout hop.1 hs
  cases hs with
  | @append w p events engine hw hp happly =>
    have hnone : ∀ e ∈ events, e.isDeployment = false := hop.1
    have hres : events.filterMap Event.resource = [] := by
      rw [List.filterMap_eq_nil_iff]
      intro e he
      have := hnone e he
      rw [Event.isDeployment_eq] at this
      simpa using this
    have hsame : (deployedBy n.log).deployAll events = deployedBy n.log := by
      rw [Definitions.deployAll_eq, hres, Definitions.registerAll_nil]
    refine h.extend rfl rfl rfl hw rfl (hlayout id) (fun q hq => ?_) (fun e he hdep => ?_) (fun _ => ?_)
    · show (if q = p then engine else n.engines q).state.definitions = _
      split
      · rename_i heq
        have hstate := congrArg (fun l : Engine.Logged => l.state.definitions) happly
        refine hstate.trans ?_
        show ((n.engines p).applyReplayedEvents events).state.definitions = _
        rw [definitions_applyReplayedEvents, h.live p hp]
      · rw [hsame, h.live q hq]
    · rw [hnone e he] at hdep
      cases hdep
    · rw [hres]
      trivial
  | @deploy w p events hw hp hdep =>
    obtain ⟨hhead, hkeys, hfresh⟩ := hop.1
    refine h.extend rfl rfl rfl hw rfl (hlayout id) (fun q hq => ?_) (fun e he _ => ⟨hhead, hkeys e he⟩) fun hzero => ?_
    · show (if q ∈ T.owned then (n.engines q).installDeployment events else n.engines q).state.definitions = _
      rw [if_pos hq, definitions_installDeployment, h.live q hq]
    · have hp0 : p = 0 := by
        rw [Topology.head_eq_zero hzero] at hhead
        exact (Option.some.inj hhead).symm
      have := hfresh hp0
      rwa [h.live 0 hzero] at this
  | @sealActive w writes hw =>
    have hok := h.writer w hw
    obtain ⟨_, _, hinv, -⟩ := h.layout
    refine h.frame rfl rfl rfl rfl (hlayout id) ?_
    rintro _ ⟨⟩
    refine ⟨hok.taken, hok.covered, ends_sealSegment writes _ ?_ hok.ends⟩
    rw [(hinv.writer w hw).totals, length_countsOf]
  | sealInterrupted hw hne => exact h.frame rfl rfl rfl rfl (hlayout id) fun _ hnone => nomatch hnone
  | @snapshotPartition w p writes hw hp hfresh =>
    have hok := h.writer w hw
    obtain ⟨_, _, hinv, -⟩ := h.layout
    have htotals := (hinv.writer w hw).totals
    refine h.frame rfl rfl rfl rfl (hlayout id) ?_
    rintro _ ⟨⟩
    refine ⟨fun e he => ?_, hok.covered, ends_sealSegment writes _ (by rw [htotals, length_countsOf]) hok.ends⟩
    dsimp only at he ⊢
    rcases List.mem_append.1 he with he | he
    · have hne : e.partition ≠ p := fun heq => hfresh (heq ▸ List.mem_map_of_mem he)
      rw [if_neg hne]
      exact hok.taken e he
    · obtain rfl := List.mem_singleton.1 he
      rw [if_pos rfl]
      refine h.snapshot_held hp ?_
      have hend : (sealSegment writes n.dir.toFiles w.shared).2.2.perPartitionEnd = w.shared.perPartitionTotal := by
        unfold sealSegment
        dsimp only
        split <;> rfl
      rw [hend, htotals, List.getD_eq_getElem?_getD, getElem?_countsOf, if_pos (T.lt p hp), Option.getD_some]
  | @dropTick w hw =>
    have hok := h.writer w hw
    refine h.frame rfl rfl rfl rfl (hlayout id) ?_
    rintro _ ⟨⟩
    exact ⟨(fun _ he => nomatch he), hok.covered, hok.ends⟩
  | @writeSnapshot w hw htick =>
    have hok := h.writer w hw
    refine ⟨h.live, h.tags, h.fresh, hlayout (fun hc => nomatch hc), (fun hc => nomatch hc), ?_, ?_⟩
    · rintro _ ⟨⟩ p hp
      rw [← htick] at hp
      obtain ⟨e, he, rfl⟩ := List.mem_map.1 hp
      have hsome : (entryOf w.taken e.partition).isSome := by
        rw [entryOf, List.find?_isSome]
        exact ⟨e, List.mem_reverse.2 he, by simp⟩
      obtain ⟨e', he'⟩ := Option.isSome_iff_exists.1 hsome
      obtain ⟨hmem, hpart⟩ := mem_of_entryOf he'
      have := hok.taken e' hmem
      rw [hpart] at this
      exact ⟨e', he', this⟩
    · rintro _ ⟨⟩
      exact ⟨(fun _ he => nomatch he), Or.inr (fun hc => nomatch hc), hok.ends⟩
  | archive hw _ _ _ => exact h.frame rfl rfl rfl rfl (hlayout id) h.writer
  | @compact w exported flags hw =>
    have hok := h.writer w hw
    refine h.frame rfl rfl rfl rfl (hlayout id) ?_
    rintro _ ⟨⟩
    exact ⟨hok.taken, hok.covered, fun seg hseg => hok.ends seg ((compactFaulty_sublist _ _ _).subset hseg)⟩
  | prune => exact h.frame rfl rfl rfl rfl (hlayout id) h.writer
  | crash => exact h.frame rfl rfl rfl rfl (hlayout id) fun _ hnone => nomatch hnone
  | @recover written r dir hr =>
    obtain rfl := h.recovered_dir hr
    have hheld : n.heldAfter n.dir = n.heldAt := by
      unfold MultiNode.heldAfter
      cases n.dir.combined.any (·.isOk) <;> rfl
    obtain ⟨first', start', hinv', hzero⟩ := hlayout id
    obtain ⟨first, activeStart, hinv, -⟩ := h.layout
    refine ⟨fun p hp => h.restarted (hop.2 written rfl) hr hp, h.tags, h.fresh,
      ⟨first', start', ⟨hinv'.dir, hinv'.tags, fun _ _ => trivial, hinv'.writer⟩, hzero⟩, ?_, ?_, ?_⟩
    · show _ → ∀ p, n.heldAfter n.dir p = 0
      rw [hheld]
      exact h.unheld
    · show ∀ entries, _ → ∀ p ∈ T.owned, ∃ e, _ ∧ MultiSnapshotEntry.Held e n.log (n.heldAfter n.dir p)
      rw [hheld]
      exact h.held
    · rintro _ ⟨⟩
      refine ⟨(fun _ he => nomatch he), Or.inl rfl, ?_⟩
      obtain ⟨-, -, -, hshared, -, -, -⟩ := recoverMulti_cases hr
      show ∀ seg ∈ r.shared.sealed, _
      rw [hshared]
      refine ends_readSealedMulti ?_ _
      rw [hinv.dir.base, length_countsOf]

theorem MultiNode.Deployed.init : ({} : MultiNode).Deployed T where
  live := fun _ _ => rfl
  tags := fun _ hr => nomatch hr
  fresh := fun _ => trivial
  layout := ⟨0, 0, MultiNode.Inv.init, fun _ => rfl⟩
  unheld := fun _ _ => rfl
  held := fun _ hc => nomatch hc
  writer := fun _ hw => nomatch hw

theorem MultiNode.Deployed.run {n : MultiNode} (h : HostReachable T (DeploysRecoverably T) n) : n.Deployed T := by
  induction h with
  | init => exact MultiNode.Deployed.init
  | step op _ hop hs ih => exact ih.step hop hs

/-! ## Restarts -/

/-- **A recoverable restart loses no definition.** In every run whose restarts all come when every deployment can
be recovered, a restart at such a moment leaves every owned partition with exactly the definitions it had. -/
theorem restart_resolves_definitions {T : Topology} {n : MultiNode} (h : HostReachable T (DeploysRecoverably T) n)
    (hrec : Recoverable T n) : n.Resolves T := by
  have hinv := MultiNode.Deployed.run h
  intro written n' hs p hp
  cases hs with
  | recover hr =>
    rw [hinv.live p hp]
    exact hinv.restarted hrec hr hp

/-- A form keyed to the deployment partition 0. -/
def replicatedForm : Event := .formDeployed 3 4 1 "form" "form.form" ""

/-- A second version of the process. -/
def lateProcess : Event := .processDeployed 5 6 2 { id := "demo", startEvent := "start" }

/-- A peer node deploys a process and a form, takes a snapshot, deploys another process and goes down: the form
is in partition 2's entry, the late process in the broadcast. -/
theorem restart_resolves_after_snapshot : ∃ n, HostReachable peerTopology (DeploysRecoverably peerTopology) n ∧
    n.log.length = 3 ∧ (n.engines 2).state.definitions.forms.size = 1 ∧ n.Resolves peerTopology := by
  have hinit : HostReachable peerTopology (DeploysRecoverably peerTopology) {} := .init
  have hopen := hinit.step (.recover false)
    ⟨trivial, fun _ _ => by rintro p hp hhead i r x hi; simp at hi⟩ (.recover rfl)
  have hdeploy := hopen.step (.deploy 1 [replicatedProcess, replicatedForm])
    ⟨⟨rfl, by decide +kernel, fun hzero => nomatch hzero⟩, (fun _ heq => nomatch heq)⟩ (.deploy rfl (by decide) (by decide))
  have hsnap1 := hdeploy.step (.snapshotPartition 1 ⟨true, true, true⟩)
    ⟨(fun _ _ _ _ => Or.inl rfl), (fun _ heq => nomatch heq)⟩ (.snapshotPartition rfl (by decide) (by decide))
  have hsnap2 := hsnap1.step (.snapshotPartition 2 ⟨true, true, true⟩)
    ⟨(fun _ _ _ _ => Or.inl rfl), (fun _ heq => nomatch heq)⟩ (.snapshotPartition rfl (by decide) (by decide))
  have hwrite := hsnap2.step .writeSnapshot ⟨trivial, (fun _ heq => nomatch heq)⟩ (.writeSnapshot rfl rfl)
  have hlate := hwrite.step (.deploy 1 [lateProcess])
    ⟨⟨rfl, by decide +kernel, fun hzero => nomatch hzero⟩, (fun _ heq => nomatch heq)⟩ (.deploy rfl (by decide) (by decide))
  have hcrash := hlate.step .crash ⟨trivial, (fun _ heq => nomatch heq)⟩ .crash
  obtain ⟨n, hn, hlog, hheld, hfirst, hforms⟩ : ∃ n, HostReachable peerTopology (DeploysRecoverably peerTopology) n ∧
      n.log = [(1, replicatedProcess), (1, replicatedForm), (1, lateProcess)] ∧ n.heldAt 2 = 2 ∧
      recoveredFirstIndex n.dir.toFiles = 0 ∧ (n.engines 2).state.definitions.forms.size = 1 :=
    ⟨_, hcrash, rfl, rfl, rfl, by decide +kernel⟩
  refine ⟨n, hn, by rw [hlog]; rfl, hforms, restart_resolves_definitions hn ?_⟩
  intro p hp hhead i r x hi hres
  have hp2 : p = 2 := by
    rcases List.mem_cons.1 hp with rfl | hp
    · exact absurd rfl hhead
    · simpa using hp
  rw [hlog] at hi
  rw [hp2, hheld, hfirst]
  match i with
  | 0 => exact Or.inl (by decide)
  | 1 => exact Or.inl (by decide)
  | 2 =>
    cases hi
    rw [if_neg (by decide)]
    exact Or.inr ⟨Nat.zero_le _, by decide +kernel⟩
  | k + 3 => cases hi

/-- A form that a peer node deploys is lost to its second partition when the node restarts before a snapshot. -/
theorem restart_loses_form : ¬ ∀ (T : Topology) (n : MultiNode), HostReachable T (Deploys T) n → n.Resolves T := by
  intro h
  have hinit : HostReachable peerTopology (Deploys peerTopology) {} := .init
  have hopen := hinit.step (.recover false) trivial (.recover rfl)
  have hdeploy := hopen.step (.deploy 1 [replicatedForm]) ⟨rfl, by decide +kernel, fun hzero => nomatch hzero⟩
    (.deploy rfl (by decide) (by decide))
  have hcrash := hdeploy.step .crash trivial .crash
  have hforms := congrArg (fun d : Definitions => d.forms.size) (h _ _ hcrash false _ (.recover rfl) 2 (by decide))
  exact absurd hforms (by decide +kernel)

end Seglog

end NanoBpm
