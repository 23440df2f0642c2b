import NanoBpm.Planner.Command
import NanoBpm.Residency

/-!
# Durable snapshots of a partition (`nano-server-raft/src/raft.rs:518-837`, `:860-1243`, `:1733-1875`)

A replica keeps its snapshots as files of one directory, with a pointer file that names the current one and the log
position it stands for. Once a snapshot is pointed at, the log below it may be dropped, and the snapshot is the only copy
of what those entries did. Names come from a counter of the process, which begins anew at every boot, while the pointer
survives. A file operation either is done or is not; a crash may fall between any two.

A position of the log counts its entries: position `n` is the log id of entry `n - 1`, and 0 is no log id.
-/

namespace NanoBpm.Raft

variable [Feel]

/-! ## What the log does to the engine -/

/-- `EntryPayload`. -/
inductive LogEntry where
  | blank
  | normal (items : List (Command × Nat))
  | membership

/-- The engine's part of `apply`: the commands of an entry in order, a refused one leaving it as it was. -/
def applyEntry (fuel : Nat) (e : Engine) : LogEntry → Engine
  | .normal items => items.foldl (fun e item => (e.applyCommandAt fuel item.1 item.2).2) e
  | .blank | .membership => e

/-- `restore_engine_from_snapshot` (`journal.rs:997`); dirty variables are tracked where there is a variable store. -/
def restoreEngineFromSnapshot (e : Engine) (snapshot : EngineSnapshot) : Engine :=
  let engine : Engine :=
    { Engine.fromSnapshot snapshot with
      lenientCompletion := e.lenientCompletion, clusterVariables := e.clusterVariables }
  (if e.trackDirtyVars then { engine with trackDirtyVars := true }.markAllDirty else engine).evictCompleted

/-- What a snapshot carries, with the definitions as a load brings them up to date. -/
def content (e : Engine) : EngineSnapshot :=
  { e.snapshot with state := Engine.normalizeDefinitions e.state, numPartitions := max e.numPartitions 1 }

/-- What the host does to an engine outside of the log: it evicts instances that have ended, retires such and those that
the leader has announced, and sets what is its own. -/
inductive Outside (announced : Key → Prop) : Engine → Engine → Prop where
  | evict (e : Engine) (key : Key) : Outside announced e (e.evictInstance key).2
  | evictAll (e : Engine) (keys : List Key) : Outside announced e (e.evictInstances keys)
  | retire (e : Engine) (keys : List Key) (h : ∀ key ∈ keys, announced key ∨ e.state.instances[key]?.any (·.isTerminal)) :
      Outside announced e (e.retireInstances keys)
  | retireBelow (e : Engine) (iter : List Key) (lowWater maxRemove : Nat)
      (h : ∀ key ∈ (e.retireBelow iter lowWater maxRemove).1, announced key ∨ e.state.instances[key]?.any (·.isTerminal)) :
      Outside announced e (e.retireBelow iter lowWater maxRemove).2
  | settings {e e' : Engine} (hcontent : content e' = content e)
      (htombstones : ∀ key ∈ e'.retiredTombstones, key ∈ e.retiredTombstones) : Outside announced e e'

/-- What an engine that began as `fresh` can be once it has taken in the first `n` entries. -/
inductive Applied (announced : Key → Prop) (fuel : Nat) (log : Nat → LogEntry) (fresh : Engine) :
    Nat → Engine → Prop where
  | fresh : Applied announced fuel log fresh 0 fresh
  | entry {n : Nat} {e : Engine} (h : Applied announced fuel log fresh n e) :
      Applied announced fuel log fresh (n + 1) (applyEntry fuel e (log n))
  | outside {n : Nat} {e e' : Engine} (h : Applied announced fuel log fresh n e) (ho : Outside announced e e') :
      Applied announced fuel log fresh n e'

/-! ## Restoring a snapshot -/

omit [Feel] in
theorem normalizeDefinitions_idem (s : State) :
    Engine.normalizeDefinitions (Engine.normalizeDefinitions s) = Engine.normalizeDefinitions s := by
  have hmap : ∀ {α : Type} [Ord α] [Std.TransOrd α] [Std.LawfulEqOrd α] (m : Std.ExtTreeMap α DeployedProcess),
      (m.map fun _ d => { d with definition := d.definition.normalizeLegacyAgentTasks : DeployedProcess }).map
        (fun _ d => { d with definition := d.definition.normalizeLegacyAgentTasks }) =
      m.map fun _ d => { d with definition := d.definition.normalizeLegacyAgentTasks } := by
    intro α _ _ _ m
    refine Std.ExtTreeMap.ext_getElem? fun k => ?_
    simp [Std.ExtTreeMap.getElem?_map]
  unfold Engine.normalizeDefinitions
  dsimp only
  rw [hmap, hmap]

omit [Feel] in
theorem content_fromSnapshot (e : Engine) : content (Engine.fromSnapshot e.snapshot) = content e := by
  unfold content Engine.fromSnapshot Engine.snapshot
  dsimp only
  rw [normalizeDefinitions_idem, Nat.max_assoc, Nat.max_self]

theorem Applied.evictCompleted {announced : Key → Prop} {fuel : Nat} {log : Nat → LogEntry} {fresh e : Engine} {n : Nat}
    (h : Applied announced fuel log fresh n e) : Applied announced fuel log fresh n e.evictCompleted := by
  unfold Engine.evictCompleted
  generalize (e.state.instances.toList.filter (·.2.isTerminal)).map (·.1) = keys
  induction keys generalizing e with
  | nil => exact h
  | cons key keys ih => exact ih (h.outside (.evict e key))

/-- An engine that is restored from the snapshot of another one has taken in what that one has. -/
theorem Applied.restore {announced : Key → Prop} {fuel : Nat} {log : Nat → LogEntry} {fresh e : Engine} {n : Nat}
    (h : Applied announced fuel log fresh n e) (host : Engine) :
    Applied announced fuel log fresh n (restoreEngineFromSnapshot host e.snapshot) := by
  unfold restoreEngineFromSnapshot
  refine Applied.evictCompleted (h.outside (.settings ?_ ?_))
  · split <;> exact content_fromSnapshot e
  · intro key hkey
    split at hkey <;> exact absurd hkey Std.ExtTreeSet.not_mem_empty

omit [Feel] in
/-- An instance is taken out of the state, with its jobs, timers, message subscriptions and incidents. -/
def takeOut (s : State) (key : Key) : State := (s.removeInstance key).retainOthers [key]

/-- The engine holds what the snapshot does, but for the instances that have ended. -/
structure Restored (snapshot : EngineSnapshot) (e : Engine) : Prop where
  state : ∃ ended : List Key, (∀ key, key ∈ ended ↔ snapshot.state.instances[key]?.any (·.isTerminal) = true) ∧
    e.state = ended.foldl takeOut (Engine.normalizeDefinitions snapshot.state)
  counters : e.partitionId = snapshot.partitionId ∧ e.nextLocal = snapshot.nextLocal ∧
    e.numPartitions = max snapshot.numPartitions 1 ∧ e.now = snapshot.now ∧ e.startDispatchRr = snapshot.startDispatchRr

omit [Feel] in
theorem evictInstance_terminal {e : Engine} {key : Key} (h : e.state.instances[key]?.any (·.isTerminal) = true) :
    (e.evictInstance key).2 = { e with state := takeOut e.state key } := by
  unfold Engine.evictInstance
  rw [if_pos h]
  rfl

omit [Feel] in
theorem evict_terminals {e : Engine} {keys : List Key} (hnodup : keys.Nodup)
    (h : ∀ key ∈ keys, e.state.instances[key]?.any (·.isTerminal) = true) :
    keys.foldl (fun e key => (e.evictInstance key).2) e = { e with state := keys.foldl takeOut e.state } := by
  induction keys generalizing e with
  | nil => rfl
  | cons key keys ih =>
    rw [List.foldl_cons, evictInstance_terminal (h key List.mem_cons_self), List.foldl_cons]
    obtain ⟨hnew, hnodup⟩ := List.nodup_cons.mp hnodup
    refine ih hnodup fun other hother => ?_
    have hinstances : (takeOut e.state key).instances = e.state.instances.erase key :=
      instances_takeJobs { e.state with instances := e.state.instances.erase key } key
    have hne : key ≠ other := fun heq => hnew (heq ▸ hother)
    show (takeOut e.state key).instances[other]?.any (·.isTerminal) = true
    rw [hinstances, Std.ExtTreeMap.getElem?_erase, if_neg (by simpa using hne)]
    exact h other (List.mem_cons_of_mem _ hother)

omit [Feel] in
theorem restored_evictCompleted {snapshot : EngineSnapshot} {loaded : Engine}
    (hstate : loaded.state = Engine.normalizeDefinitions snapshot.state)
    (hcounters : loaded.partitionId = snapshot.partitionId ∧ loaded.nextLocal = snapshot.nextLocal ∧
      loaded.numPartitions = max snapshot.numPartitions 1 ∧ loaded.now = snapshot.now ∧
        loaded.startDispatchRr = snapshot.startDispatchRr) : Restored snapshot loaded.evictCompleted := by
  have hmem : ∀ key, key ∈ (loaded.state.instances.toList.filter (·.2.isTerminal)).map (·.1) ↔
      loaded.state.instances[key]?.any (·.isTerminal) = true := by
    intro key
    simp only [List.mem_map, List.mem_filter, Prod.exists, exists_and_right, exists_eq_right, Option.any_eq_true,
      Std.ExtTreeMap.mem_toList_iff_getElem?_eq_some]
  have hnodup : ((loaded.state.instances.toList.filter (·.2.isTerminal)).map (·.1)).Nodup := by
    refine List.Nodup.sublist (List.filter_sublist.map _) ?_
    rw [Std.ExtTreeMap.map_fst_toList_eq_keys]
    exact Std.ExtTreeMap.nodup_keys
  unfold Engine.evictCompleted
  rw [evict_terminals hnodup fun key hkey => (hmem key).mp hkey]
  refine ⟨⟨_, fun key => ?_, congrArg (List.foldl takeOut · _) hstate⟩, hcounters⟩
  rw [hmem, hstate]
  rfl

omit [Feel] in
/-- What a restore yields. -/
theorem restored_restoreEngineFromSnapshot (host : Engine) (snapshot : EngineSnapshot) :
    Restored snapshot (restoreEngineFromSnapshot host snapshot) := by
  unfold restoreEngineFromSnapshot
  split <;> exact restored_evictCompleted rfl ⟨rfl, rfl, rfl, rfl, rfl⟩

/-- The entries of a stretch of the log, as openraft applies them again after a boot. -/
def applyEntries (fuel : Nat) (log : Nat → LogEntry) (e : Engine) (first : Nat) : Nat → Engine
  | 0 => e
  | count + 1 => applyEntry fuel (applyEntries fuel log e first count) (log (first + count))

theorem applied_applyEntries {announced : Key → Prop} {fuel : Nat} {log : Nat → LogEntry} {fresh e : Engine} {first : Nat}
    (h : Applied announced fuel log fresh first e) (count : Nat) :
    Applied announced fuel log fresh (first + count) (applyEntries fuel log e first count) := by
  induction count with
  | zero => exact h
  | succ count ih => exact .entry ih

/-! ## The directory -/

/-- The names of the snapshot files. -/
inductive FileName where
  /-- `snap-<idx>.bin` -/
  | snap (idx : Nat)
  /-- `snap-installed-<idx>.bin` -/
  | installed (idx : Nat)
  /-- `incoming-<pid>-<seq>.tmp` -/
  | incoming (pid seq : Nat)
deriving DecidableEq, Repr

def FileName.isIncoming : FileName → Bool
  | incoming .. => true
  | _ => false

/-- A file in the making, or one whose serialization is complete. -/
inductive Contents where
  | torn
  | whole (snapshot : EngineSnapshot)

def Contents.isWhole : Contents → Bool
  | whole _ => true
  | torn => false

/-- `PersistedSnapshotPtr` and `StoredSnapshot`: a snapshot file and the position it stands for. -/
structure StoredSnapshot where
  file : FileName
  lastLogId : Nat
deriving DecidableEq, Repr

/-- The snapshot files, the pointer with the file it is staged in, and the position below which the log is dropped. -/
structure Dir where
  files : FileName → Option Contents := fun _ => none
  pointer : Option StoredSnapshot := none
  staged : Option StoredSnapshot := none
  purged : Nat := 0

/-- The file operations. -/
inductive FileOp where
  /-- `File::create`, which truncates. -/
  | create (file : FileName)
  /-- The serialization is complete and synced. -/
  | write (file : FileName) (snapshot : EngineSnapshot)
  | rename (source target : FileName)
  | remove (file : FileName)
  /-- The temporary file of `write_snapshot_ptr`. -/
  | stagePointer (stored : StoredSnapshot)
  /-- The rename of `write_snapshot_ptr`. -/
  | movePointer

namespace Dir

def setFile (dir : Dir) (file : FileName) (contents : Option Contents) : Dir :=
  { dir with files := Function.update dir.files file contents }

def doOp (dir : Dir) : FileOp → Dir
  | .create file => dir.setFile file (some .torn)
  | .write file snapshot => dir.setFile file (some (.whole snapshot))
  | .rename source target => (dir.setFile target (dir.files source)).setFile source none
  | .remove file => dir.setFile file none
  | .stagePointer stored => { dir with staged := some stored }
  | .movePointer => { dir with pointer := dir.staged, staged := none }

def doOps (dir : Dir) (ops : List FileOp) : Dir := ops.foldl doOp dir

/-- `read_snapshot_ptr`: the file must be there. -/
def readSnapshotPtr (dir : Dir) : Option StoredSnapshot := dir.pointer.filter fun stored => (dir.files stored.file).isSome

/-- The position of the pointer, 0 without one. -/
def pointed (dir : Dir) : Nat := (dir.pointer.map (·.lastLogId)).getD 0

/-- The position that a boot adopts. -/
def recovered (dir : Dir) : Nat := (dir.readSnapshotPtr.map (·.lastLogId)).getD 0

end Dir

/-- `write_snapshot_ptr`. -/
def writeSnapshotPtr (stored : StoredSnapshot) : List FileOp := [.stagePointer stored, .movePointer]

/-! ## The state machine -/

/-- `PartitionStateMachine`, with the builder openraft may hold and the snapshot it may be receiving. -/
structure StateMachine where
  engine : Engine
  lastApplied : Nat
  currentSnapshot : Option StoredSnapshot
  pid : Nat
  snapshotIdx : Nat := 0
  recvIdx : Nat := 0
  builder : Option (EngineSnapshot × Nat) := none
  receiving : Option FileName := none

namespace StateMachine

/-- `apply` at the next entry. -/
def apply (m : StateMachine) (fuel : Nat) (log : Nat → LogEntry) : StateMachine :=
  { m with engine := applyEntry fuel m.engine (log m.lastApplied), lastApplied := m.lastApplied + 1 }

/-- `get_snapshot_builder`. -/
def getSnapshotBuilder (m : StateMachine) : StateMachine :=
  { m with builder := some (m.engine.snapshot, m.lastApplied) }

/-- The file operations of `build_snapshot`: the file it replaces is removed unless it has the same name. -/
def buildOps (m : StateMachine) (captured : EngineSnapshot) (lastApplied : Nat) : List FileOp :=
  let file := FileName.snap (m.snapshotIdx + 1)
  [.create file, .write file captured] ++ writeSnapshotPtr ⟨file, lastApplied⟩ ++
    ((m.currentSnapshot.filter (·.file != file)).map fun previous => FileOp.remove previous.file).toList

def built (m : StateMachine) (lastApplied : Nat) : StateMachine :=
  { m with
    snapshotIdx := m.snapshotIdx + 1
    currentSnapshot := some ⟨.snap (m.snapshotIdx + 1), lastApplied⟩
    builder := none }

/-- The file that `begin_receiving_snapshot` opens; it removes the others of its kind first. -/
def incomingFile (m : StateMachine) : FileName := .incoming m.pid m.recvIdx

def beginReceiving (m : StateMachine) : StateMachine :=
  { m with recvIdx := m.recvIdx + 1, receiving := some m.incomingFile }

/-- The file operations of `install_snapshot`: the file it replaces is removed whatever its name. -/
def installOps (m : StateMachine) (received : FileName) (lastLogId : Nat) : List FileOp :=
  let file := FileName.installed (m.snapshotIdx + 1)
  [.rename received file] ++ writeSnapshotPtr ⟨file, lastLogId⟩ ++
    (m.currentSnapshot.map fun previous => FileOp.remove previous.file).toList

/-- The machine after `install_snapshot`; the engine is restored before the first file operation. -/
def installed (m : StateMachine) (snapshot : EngineSnapshot) (lastLogId : Nat) : StateMachine :=
  { m with
    engine := restoreEngineFromSnapshot m.engine snapshot
    lastApplied := lastLogId
    snapshotIdx := m.snapshotIdx + 1
    currentSnapshot := some ⟨.installed (m.snapshotIdx + 1), lastLogId⟩
    receiving := none }

end StateMachine

/-! ## Boot -/

/-- The ways to boot a partition over a durable log directory. -/
inductive BootPath where
  /-- `bootstrap_single_durable` -/
  | single
  /-- `bootstrap_member` -/
  | member
deriving DecidableEq, Repr

namespace Dir

/-- The removal of stale files in `new`, which keeps the file that is pointed at. -/
def sweep (dir : Dir) : Dir :=
  { dir with files := fun file => if dir.readSnapshotPtr.any (·.file == file) then dir.files file else none }

/-- The directory after `PartitionStateMachine::new`: a pointer without its file is dropped. -/
def opened (dir : Dir) : Dir := { dir.sweep with pointer := dir.readSnapshotPtr }

/-- `restore_from_current_snapshot`: `none` is a file that does not parse. -/
def restoreFromCurrentSnapshot (dir : Dir) (engine : Engine) : Option Engine :=
  match dir.readSnapshotPtr with
  | none => some engine
  | some stored =>
    match dir.files stored.file with
    | some (.whole snapshot) => some (restoreEngineFromSnapshot engine snapshot)
    | _ => none

/-- The state machine that a boot hands to openraft, over the given engine: the metadata of the current snapshot is adopted
on every path, its contents on one. -/
def boot (dir : Dir) (path : BootPath) (fresh : Engine) (pid : Nat) : Option StateMachine :=
  let machine (engine : Engine) : StateMachine :=
    { engine, pid, currentSnapshot := dir.readSnapshotPtr, lastApplied := dir.recovered }
  match path with
  | .single => some (machine fresh)
  | .member => (dir.restoreFromCurrentSnapshot fresh).map machine

end Dir

/-- The file that is pointed at holds, if it is complete, the state at the pointer's position. -/
def Dir.HoldsState (dir : Dir) (announced : Key → Prop) (fuel : Nat) (log : Nat → LogEntry) (fresh : Engine) : Prop :=
  ∀ stored snapshot, dir.readSnapshotPtr = some stored → dir.files stored.file = some (.whole snapshot) →
    ∃ e, snapshot = e.snapshot ∧ Applied announced fuel log fresh stored.lastLogId e

/-- The engine of a boot is at the position that the state machine reports, unless a snapshot is adopted and not restored. -/
theorem applied_boot_iff {dir : Dir} {announced : Key → Prop} {fuel : Nat} {log : Nat → LogEntry} {fresh : Engine}
    {path : BootPath} {pid : Nat}
    {m : StateMachine} (hdir : dir.HoldsState announced fuel log fresh) (hboot : dir.boot path fresh pid = some m) :
    Applied announced fuel log fresh m.lastApplied m.engine ↔
      path = .member ∨ dir.readSnapshotPtr = none ∨ Applied announced fuel log fresh dir.recovered fresh := by
  cases path with
  | single =>
    cases hboot
    simp only [reduceCtorEq, false_or]
    refine ⟨.inr, ?_⟩
    rintro (hnone | h)
    · simpa [Dir.recovered, hnone] using Applied.fresh
    · exact h
  | member =>
    simp only [Dir.boot, Option.map_eq_some_iff] at hboot
    obtain ⟨engine, hengine, rfl⟩ := hboot
    simp only [true_or, iff_true]
    unfold Dir.restoreFromCurrentSnapshot at hengine
    split at hengine
    · next hnone =>
      cases hengine
      simpa [Dir.recovered, hnone] using Applied.fresh
    · next stored hstored =>
      split at hengine
      · next snapshot hfile =>
        cases hengine
        obtain ⟨e, rfl, he⟩ := hdir stored snapshot hstored hfile
        simpa [Dir.recovered, hstored] using he.restore fresh
      · cases hengine

omit [Feel] in
/-- A member's boot over a snapshot restores it. -/
theorem restored_boot {dir : Dir} {fresh : Engine} {pid : Nat} {m : StateMachine} {stored : StoredSnapshot}
    {snapshot : EngineSnapshot} (hboot : dir.boot .member fresh pid = some m) (hstored : dir.readSnapshotPtr = some stored)
    (hfile : dir.files stored.file = some (.whole snapshot)) : Restored snapshot m.engine := by
  simp only [Dir.boot, Dir.restoreFromCurrentSnapshot, hstored, hfile, Option.map_some, Option.some.injEq] at hboot
  rw [← hboot]
  exact restored_restoreEngineFromSnapshot fresh snapshot

/-- For every way to boot a partition over a durable directory: whatever is committed, once openraft has applied again what
follows the reported position the engine has taken in all committed entries, if and only if the boot restores the engine, or
has no snapshot to restore, or the entries below the snapshot left a fresh engine as it is; and a member's boot restores it. -/
theorem boot_recovers_committed_iff {announced : Key → Prop} {dir : Dir} {fuel : Nat} {log : Nat → LogEntry} {fresh : Engine}
    {path : BootPath} {pid : Nat} {m : StateMachine} (hdir : dir.HoldsState announced fuel log fresh)
    (hboot : dir.boot path fresh pid = some m) :
    ((∀ committed, m.lastApplied ≤ committed → Applied announced fuel log fresh committed
      (applyEntries fuel log m.engine m.lastApplied (committed - m.lastApplied))) ↔
      path = .member ∨ dir.readSnapshotPtr = none ∨ Applied announced fuel log fresh dir.recovered fresh) ∧
    (path = .member → ∀ stored snapshot, dir.readSnapshotPtr = some stored →
      dir.files stored.file = some (.whole snapshot) → Restored snapshot m.engine) := by
  rw [← applied_boot_iff hdir hboot]
  refine ⟨⟨fun h => ?_, fun h committed hle => ?_⟩, ?_⟩
  · simpa [applyEntries] using h m.lastApplied (Nat.le_refl _)
  · have hreplayed := applied_applyEntries h (committed - m.lastApplied)
    rwa [Nat.add_sub_cancel' hle] at hreplayed
  · rintro rfl stored snapshot hstored hfile
    exact restored_boot hboot hstored hfile

omit [Feel] in
/-- A log whose first entry deploys a form. -/
def formLog : Nat → LogEntry
  | 0 => .normal [(.deployForms [⟨"order", "order.form", "[]"⟩], 0)]
  | _ => .blank

/-- The directory of a partition that took a snapshot after the first entry and dropped the entry. -/
def formDir : Dir :=
  { files := Function.update (fun _ => none) (.snap 1) (some (.whole (applyEntry 0 Engine.new (formLog 0)).snapshot))
    pointer := some ⟨.snap 1, 1⟩
    purged := 1 }

theorem holdsState_formDir : formDir.HoldsState (fun _ => False) 0 formLog Engine.new := by
  intro stored snapshot hstored hfile
  have hpointed : stored = ⟨.snap 1, 1⟩ := by
    simpa [Dir.readSnapshotPtr, formDir, Option.filter, eq_comm] using hstored
  subst hpointed
  have hsnapshot : snapshot = (applyEntry 0 Engine.new (formLog 0)).snapshot := by
    simpa [formDir, eq_comm] using hfile
  exact ⟨_, hsnapshot, .entry .fresh⟩

omit [Feel] in
theorem member_boot_recovers_form :
    letI := Feel.refusing
    ∃ m, formDir.boot .member Engine.new 7 = some m ∧ ∀ committed, m.lastApplied ≤ committed →
      Applied (fun _ => False) 0 formLog Engine.new
      committed (applyEntries 0 formLog m.engine m.lastApplied (committed - m.lastApplied)) :=
  letI := Feel.refusing
  ⟨_, rfl, (boot_recovers_committed_iff holdsState_formDir rfl).1.mpr (.inl rfl)⟩

omit [Feel] in
/-- `bootstrap_single_durable` reports that the first entry is applied, and the engine does not have the form. -/
theorem single_boot_loses_snapshot :
    letI := Feel.refusing
    (formDir.boot .single Engine.new 7).map (fun m =>
        (m.lastApplied, (applyEntries 0 formLog m.engine m.lastApplied (1 - m.lastApplied)).state.forms.contains "order")) =
      some (1, false) ∧
    (applyEntries 0 formLog Engine.new 0 1).state.forms.contains "order" = true := by
  decide +kernel

/-! ## Whole runs -/

/-- The pointer names a complete file that holds the state at its position, and not a partial reception; every entry of the
log is below that position or not dropped. -/
structure Dir.Protected (dir : Dir) (announced : Key → Prop) (fuel : Nat) (log : Nat → LogEntry) (fresh : Engine) : Prop where
  holds : ∀ stored, dir.pointer = some stored →
    ∃ e, dir.files stored.file = some (.whole e.snapshot) ∧ Applied announced fuel log fresh stored.lastLogId e
  named : ∀ stored, dir.pointer = some stored → stored.file.isIncoming = false
  covers : ∀ i, i < dir.pointed ∨ dir.purged ≤ i

/-- A replica: its directory, and the state machine while it is up. -/
structure Node where
  dir : Dir := {}
  machine : Option StateMachine := none

/-- What may happen at a replica. A build and an install say how many of their file operations are done; where it is not all
of them, the process has died. -/
inductive Operation where
  /-- A stale file goes, at a boot or when a snapshot is to be received, and the process may die before the next one. -/
  | tidy (file : FileName)
  | boot (path : BootPath) (pid : Nat)
  | apply
  | outside
  | getSnapshotBuilder
  | buildSnapshot (done : Nat)
  | beginReceivingSnapshot
  | receive (contents : Contents)
  | installSnapshot (lastLogId done : Nat)
  | purge (upto : Nat)
  | crash

/-- `begin_receiving_snapshot`: partial files of earlier receptions go, and a fresh one is opened. -/
def Dir.beginReceiving (dir : Dir) (file : FileName) : Dir :=
  { dir with files := fun f => if f = file then some .torn else if f.isIncoming then none else dir.files f }

namespace Node

/-- The replica after some of the file operations of a build or an install. -/
def after (n : Node) (ops : List FileOp) (done : Nat) (m : StateMachine) : Node :=
  { dir := n.dir.doOps (ops.take done), machine := if ops.length ≤ done then some m else none }

/-- One step of a replica. Openraft promises that entries come in order, that a snapshot it installs is the leader's at the
position it gives and is not below what is dropped here, and that the log is dropped only below the current snapshot. -/
inductive Step (announced : Key → Prop) (fuel : Nat) (log : Nat → LogEntry) (fresh : Engine) (n : Node) :
    Operation → Node → Prop where
  | tidy (file : FileName) (hkeep : ∀ stored ∈ n.dir.readSnapshotPtr, stored.file ≠ file)
      (hstale : n.machine = none ∨ file.isIncoming) :
      Step announced fuel log fresh n (.tidy file) { n with dir := n.dir.setFile file none }
  | boot (path : BootPath) (pid : Nat) (hdown : n.machine = none) :
      Step announced fuel log fresh n (.boot path pid) { dir := n.dir.opened, machine := n.dir.boot path fresh pid }
  | apply {m : StateMachine} (hm : n.machine = some m) :
      Step announced fuel log fresh n .apply { n with machine := some (m.apply fuel log) }
  | outside {m : StateMachine} {e : Engine} (hm : n.machine = some m) (he : Outside announced m.engine e) :
      Step announced fuel log fresh n .outside { n with machine := some { m with engine := e } }
  | getSnapshotBuilder {m : StateMachine} (hm : n.machine = some m) :
      Step announced fuel log fresh n .getSnapshotBuilder { n with machine := some m.getSnapshotBuilder }
  | buildSnapshot {m : StateMachine} {captured : EngineSnapshot} {lastApplied : Nat} (done : Nat)
      (hm : n.machine = some m) (hbuilder : m.builder = some (captured, lastApplied)) :
      Step announced fuel log fresh n (.buildSnapshot done) (n.after (m.buildOps captured lastApplied) done (m.built lastApplied))
  | beginReceivingSnapshot {m : StateMachine} (hm : n.machine = some m) :
      Step announced fuel log fresh n .beginReceivingSnapshot
        { dir := n.dir.beginReceiving m.incomingFile, machine := some m.beginReceiving }
  | receive {m : StateMachine} {file : FileName} (contents : Contents) (hm : n.machine = some m)
      (hfile : m.receiving = some file) :
      Step announced fuel log fresh n (.receive contents) { n with dir := n.dir.setFile file (some contents) }
  | installSnapshot {m : StateMachine} {file : FileName} {e : Engine} (lastLogId done : Nat) (hm : n.machine = some m)
      (hfile : m.receiving = some file) (hwhole : n.dir.files file = some (.whole e.snapshot))
      (hleader : Applied announced fuel log fresh lastLogId e) (hpurged : n.dir.purged ≤ lastLogId) :
      Step announced fuel log fresh n (.installSnapshot lastLogId done)
        (n.after (m.installOps file lastLogId) done (m.installed e.snapshot lastLogId))
  | purge {m : StateMachine} {stored : StoredSnapshot} (upto : Nat) (hm : n.machine = some m)
      (hcurrent : m.currentSnapshot = some stored) (hupto : upto ≤ stored.lastLogId) :
      Step announced fuel log fresh n (.purge upto) { n with dir := { n.dir with purged := max n.dir.purged upto } }
  | crash : Step announced fuel log fresh n .crash { n with machine := none }

/-- The name that the next build or install gives its file. -/
def nextIdx (n : Node) : Nat := (n.machine.map (·.snapshotIdx)).getD 0 + 1

/-- A step that keeps off the snapshot that is pointed at: a build and an install do not take its name, a build does not go
back behind what is dropped, and a boot restores the engine if there is a snapshot. -/
def Clean (n : Node) : Operation → Prop
  | .boot path _ => path = .member ∨ n.dir.readSnapshotPtr = none
  | .buildSnapshot _ => (∀ stored ∈ n.dir.pointer, stored.file ≠ .snap n.nextIdx) ∧
      ∀ m ∈ n.machine, ∀ captured ∈ m.builder, n.dir.purged ≤ captured.2
  | .installSnapshot _ _ => ∀ stored ∈ n.dir.pointer, stored.file ≠ .installed n.nextIdx
  | _ => True

/-- The replicas that a run leads to from an empty directory, each step of which meets `C` in the state it is taken in. -/
inductive Reachable (announced : Key → Prop) (fuel : Nat) (log : Nat → LogEntry) (fresh : Engine)
    (C : Node → Operation → Prop) : Node → Prop where
  | start : Reachable announced fuel log fresh C {}
  | step {n n' : Node} {a : Operation} (h : Reachable announced fuel log fresh C n) (hc : C n a)
      (hstep : Step announced fuel log fresh n a n') :
      Reachable announced fuel log fresh C n'

end Node

section Protection

variable {announced : Key → Prop} {fuel : Nat} {log : Nat → LogEntry} {fresh : Engine}

namespace Dir

omit [Feel] in
@[simp] theorem pointer_setFile (dir : Dir) (file : FileName) (contents : Option Contents) :
    (dir.setFile file contents).pointer = dir.pointer := rfl

omit [Feel] in
@[simp] theorem staged_setFile (dir : Dir) (file : FileName) (contents : Option Contents) :
    (dir.setFile file contents).staged = dir.staged := rfl

omit [Feel] in
@[simp] theorem purged_setFile (dir : Dir) (file : FileName) (contents : Option Contents) :
    (dir.setFile file contents).purged = dir.purged := rfl

omit [Feel] in
@[simp] theorem files_setFile_self (dir : Dir) (file : FileName) (contents : Option Contents) :
    (dir.setFile file contents).files file = contents := by
  simp [setFile]

omit [Feel] in
theorem files_setFile_of_ne (dir : Dir) {file other : FileName} (contents : Option Contents) (h : other ≠ file) :
    (dir.setFile file contents).files other = dir.files other := by
  simp [setFile, h]

/-- What is not pointed at may be written and removed. -/
theorem Protected.of_frame {dir dir' : Dir} (h : dir.Protected announced fuel log fresh) (hpointer : dir'.pointer = dir.pointer)
    (hfiles : ∀ stored ∈ dir.pointer, dir'.files stored.file = dir.files stored.file) (hpurged : dir'.purged = dir.purged) :
    dir'.Protected announced fuel log fresh := by
  constructor
  · intro stored hstored
    rw [hpointer] at hstored
    rw [hfiles stored hstored]
    exact h.holds stored hstored
  · rw [hpointer]
    exact h.named
  · intro i
    rw [pointed, hpointer, hpurged]
    exact h.covers i

theorem Protected.setFile {dir : Dir} (h : dir.Protected announced fuel log fresh) {file : FileName} {contents : Option Contents}
    (hne : ∀ stored ∈ dir.pointer, stored.file ≠ file) : (dir.setFile file contents).Protected announced fuel log fresh := by
  refine h.of_frame rfl ?_ rfl
  intro stored hstored
  exact files_setFile_of_ne dir contents (hne stored hstored)

theorem Protected.stagePointer {dir : Dir} (h : dir.Protected announced fuel log fresh) (stored : StoredSnapshot) :
    (dir.doOp (.stagePointer stored)).Protected announced fuel log fresh :=
  h.of_frame rfl (fun _ _ => rfl) rfl

/-- The pointer may move to a complete file that is not behind what is dropped. -/
theorem protected_movePointer {dir : Dir} {stored : StoredSnapshot} {e : Engine} (hstaged : dir.staged = some stored)
    (hfile : dir.files stored.file = some (.whole e.snapshot)) (hnamed : stored.file.isIncoming = false)
    (he : Applied announced fuel log fresh stored.lastLogId e) (hpurged : dir.purged ≤ stored.lastLogId) :
      (dir.doOp .movePointer).Protected announced fuel log fresh := by
  constructor
  · intro stored' hstored'
    obtain rfl : stored = stored' := Option.some.inj (hstaged.symm.trans hstored')
    exact ⟨e, hfile, he⟩
  · intro stored' hstored'
    obtain rfl : stored = stored' := Option.some.inj (hstaged.symm.trans hstored')
    exact hnamed
  · intro i
    have hpointed : (dir.doOp .movePointer).pointed = stored.lastLogId := by
      simp [pointed, doOp, hstaged]
    rw [hpointed]
    change i < stored.lastLogId ∨ dir.purged ≤ i
    omega

/-- Every prefix of some file operations leaves the directory protected. -/
def Safe (announced : Key → Prop) (fuel : Nat) (log : Nat → LogEntry) (fresh : Engine) (dir : Dir) : List FileOp → Prop
  | [] => dir.Protected announced fuel log fresh
  | op :: ops => dir.Protected announced fuel log fresh ∧ Safe announced fuel log fresh (dir.doOp op) ops

theorem Safe.take {dir : Dir} {ops : List FileOp} (h : Safe announced fuel log fresh dir ops) (done : Nat) :
    (dir.doOps (ops.take done)).Protected announced fuel log fresh := by
  induction ops generalizing dir done with
  | nil => simpa [doOps, Safe] using h
  | cons op ops ih =>
    cases done with
    | zero => exact h.1
    | succ done => exact ih h.2 done

/-- A boot reads a protected pointer back. -/
theorem Protected.readSnapshotPtr {dir : Dir} (h : dir.Protected announced fuel log fresh) : dir.readSnapshotPtr = dir.pointer := by
  unfold Dir.readSnapshotPtr
  cases hpointer : dir.pointer with
  | none => rfl
  | some stored =>
    obtain ⟨e, hfile, -⟩ := h.holds stored hpointer
    simp [Option.filter, hfile]

theorem Protected.holdsState {dir : Dir} (h : dir.Protected announced fuel log fresh) : dir.HoldsState announced fuel log fresh := by
  intro stored snapshot hstored hfile
  rw [h.readSnapshotPtr] at hstored
  obtain ⟨e, hwhole, he⟩ := h.holds stored hstored
  obtain rfl : e.snapshot = snapshot := by simpa [hwhole] using hfile
  exact ⟨e, rfl, he⟩

theorem Protected.opened {dir : Dir} (h : dir.Protected announced fuel log fresh) : dir.opened.Protected announced fuel log fresh := by
  refine h.of_frame h.readSnapshotPtr ?_ rfl
  intro stored hstored
  have hread : dir.readSnapshotPtr = some stored := h.readSnapshotPtr.trans hstored
  simp [Dir.opened, sweep, hread]

/-- The pointer moves to a complete file, and the file that it named before is removed. -/
theorem Protected.safe_writeSnapshotPtr {dir : Dir} (h : dir.Protected announced fuel log fresh) {stored : StoredSnapshot}
    {e : Engine}
    {previous : Option StoredSnapshot} (hfile : dir.files stored.file = some (.whole e.snapshot))
    (hnamed : stored.file.isIncoming = false) (he : Applied announced fuel log fresh stored.lastLogId e)
    (hpurged : dir.purged ≤ stored.lastLogId) (hne : ∀ p ∈ previous, p.file ≠ stored.file) :
    Safe announced fuel log fresh dir (writeSnapshotPtr stored ++ (previous.map fun p => FileOp.remove p.file).toList) := by
  have hmoved : ((dir.doOp (.stagePointer stored)).doOp .movePointer).Protected announced fuel log fresh :=
    protected_movePointer rfl hfile hnamed he hpurged
  refine ⟨h, h.stagePointer stored, ?_⟩
  cases previous with
  | none => exact hmoved
  | some p =>
    refine ⟨hmoved, hmoved.setFile ?_⟩
    rintro stored' ⟨⟩
    exact (hne p rfl).symm

/-- The file operations of a build whose file is not the one that is pointed at. -/
theorem Protected.safe_buildOps {dir : Dir} (h : dir.Protected announced fuel log fresh) {m : StateMachine} {e : Engine}
    {lastApplied : Nat} (hne : ∀ stored ∈ dir.pointer, stored.file ≠ .snap (m.snapshotIdx + 1))
    (he : Applied announced fuel log fresh lastApplied e) (hpurged : dir.purged ≤ lastApplied) :
    Safe announced fuel log fresh dir (m.buildOps e.snapshot lastApplied) := by
  have hcreated : (dir.doOp (.create (.snap (m.snapshotIdx + 1)))).Protected announced fuel log fresh := h.setFile hne
  have hwritten : ((dir.doOp (.create (.snap (m.snapshotIdx + 1)))).doOp
      (.write (.snap (m.snapshotIdx + 1)) e.snapshot)).Protected announced fuel log fresh := hcreated.setFile hne
  refine ⟨h, hcreated, ?_⟩
  refine hwritten.safe_writeSnapshotPtr (files_setFile_self _ _ _) rfl he hpurged ?_
  intro p hp
  simpa using (Option.mem_filter_iff.mp hp).2

/-- The file operations of an install over another file than the one that is pointed at. -/
theorem Protected.safe_installOps {dir : Dir} (h : dir.Protected announced fuel log fresh) {m : StateMachine} {e : Engine}
    {received : FileName} {lastLogId : Nat} (hcurrent : m.currentSnapshot = dir.pointer)
    (hne : ∀ stored ∈ dir.pointer, stored.file ≠ .installed (m.snapshotIdx + 1))
    (hreceived : ∀ stored ∈ dir.pointer, stored.file ≠ received) (hincoming : received.isIncoming)
    (hwhole : dir.files received = some (.whole e.snapshot)) (he : Applied announced fuel log fresh lastLogId e)
    (hpurged : dir.purged ≤ lastLogId) : Safe announced fuel log fresh dir (m.installOps received lastLogId) := by
  have hrenamed : (dir.doOp (.rename received (.installed (m.snapshotIdx + 1)))).Protected announced fuel log fresh :=
    (h.setFile hne).setFile hreceived
  refine ⟨h, hrenamed.safe_writeSnapshotPtr (e := e) ?_ rfl he hpurged ?_⟩
  · have hother : FileName.installed (m.snapshotIdx + 1) ≠ received := by
      rintro rfl
      cases hincoming
    exact (files_setFile_of_ne _ _ hother).trans ((files_setFile_self _ _ _).trans hwhole)
  · rw [hcurrent]
    exact hne

omit [Feel] in
theorem pointer_doOps_writeSnapshotPtr (dir : Dir) (stored : StoredSnapshot) (previous : Option StoredSnapshot) :
    (dir.doOps (writeSnapshotPtr stored ++ (previous.map fun p => FileOp.remove p.file).toList)).pointer = some stored := by
  cases previous with
  | none => rfl
  | some p => rfl

end Dir

namespace Node

/-- What holds at every replica of a clean run. -/
structure Inv (announced : Key → Prop) (fuel : Nat) (log : Nat → LogEntry) (fresh : Engine) (n : Node) : Prop where
  protect : n.dir.Protected announced fuel log fresh
  current : ∀ m ∈ n.machine, m.currentSnapshot = n.dir.pointer
  engine : ∀ m ∈ n.machine, Applied announced fuel log fresh m.lastApplied m.engine
  builder : ∀ m ∈ n.machine, ∀ captured ∈ m.builder, ∃ e, captured.1 = e.snapshot ∧ Applied announced fuel log fresh captured.2 e
  receiving : ∀ m ∈ n.machine, ∀ file ∈ m.receiving, file.isIncoming

/-- A replica that is down holds what its directory holds. -/
theorem inv_down {dir : Dir} (h : dir.Protected announced fuel log fresh) : Inv announced fuel log fresh { dir } :=
  ⟨h, by simp, by simp, by simp, by simp⟩

theorem inv_up {dir : Dir} {m : StateMachine} (h : dir.Protected announced fuel log fresh)
    (hcurrent : m.currentSnapshot = dir.pointer)
    (hengine : Applied announced fuel log fresh m.lastApplied m.engine)
    (hbuilder : ∀ captured ∈ m.builder, ∃ e, captured.1 = e.snapshot ∧ Applied announced fuel log fresh captured.2 e)
    (hreceiving : ∀ file ∈ m.receiving, file.isIncoming) : Inv announced fuel log fresh { dir, machine := some m } := by
  constructor
  · exact h
  all_goals
    rintro m ⟨⟩
    assumption

/-- After any number of the file operations of a build or an install. -/
theorem inv_after {n : Node} {ops : List FileOp} {m : StateMachine} (hops : n.dir.Safe announced fuel log fresh ops) (done : Nat)
    (hcurrent : (n.dir.doOps ops).pointer = m.currentSnapshot) (hengine : Applied announced fuel log fresh m.lastApplied m.engine)
    (hbuilder : ∀ captured ∈ m.builder, ∃ e, captured.1 = e.snapshot ∧ Applied announced fuel log fresh captured.2 e)
    (hreceiving : ∀ file ∈ m.receiving, file.isIncoming) : Inv announced fuel log fresh (n.after ops done m) := by
  unfold after
  split
  · next hdone =>
    rw [List.take_of_length_le hdone]
    have hall := hops.take ops.length
    rw [List.take_length] at hall
    exact inv_up hall hcurrent.symm hengine hbuilder hreceiving
  · exact inv_down (hops.take done)

theorem Inv.receiving_ne {n : Node} (h : Inv announced fuel log fresh n) {m : StateMachine} {file : FileName}
    (hm : n.machine = some m)
    (hfile : m.receiving = some file) : ∀ stored ∈ n.dir.pointer, stored.file ≠ file := by
  rintro stored hstored rfl
  have hnamed := h.protect.named stored hstored
  rw [h.receiving m hm _ hfile] at hnamed
  cases hnamed

omit [Feel] in
theorem boot_spec {dir : Dir} {path : BootPath} {pid : Nat} {m : StateMachine} (h : dir.boot path fresh pid = some m) :
    m.currentSnapshot = dir.opened.pointer ∧ m.builder = none ∧ m.receiving = none := by
  cases path with
  | single =>
    cases h
    exact ⟨rfl, rfl, rfl⟩
  | member =>
    simp only [Dir.boot, Option.map_eq_some_iff] at h
    obtain ⟨engine, -, rfl⟩ := h
    exact ⟨rfl, rfl, rfl⟩

theorem Inv.step {n n' : Node} {a : Operation} (h : Inv announced fuel log fresh n) (hclean : n.Clean a)
    (hstep : Step announced fuel log fresh n a n') : Inv announced fuel log fresh n' := by
  cases hstep with
  | tidy file hkeep hstale =>
    rw [h.protect.readSnapshotPtr] at hkeep
    exact ⟨h.protect.setFile hkeep, h.current, h.engine, h.builder, h.receiving⟩
  | boot path pid hdown =>
    cases hboot : n.dir.boot path fresh pid with
    | none => exact inv_down h.protect.opened
    | some m =>
      have hengine := (applied_boot_iff h.protect.holdsState hboot).mpr (or_assoc.mp (.inl hclean))
      obtain ⟨hcurrent, hbuilder, hreceiving⟩ := boot_spec hboot
      exact inv_up h.protect.opened hcurrent hengine (by simp [hbuilder]) (by simp [hreceiving])
  | @apply m hm => exact inv_up h.protect (h.current m hm) (.entry (h.engine m hm)) (h.builder m hm) (h.receiving m hm)
  | @outside m e hm he =>
    exact inv_up h.protect (h.current m hm) (.outside (h.engine m hm) he) (h.builder m hm) (h.receiving m hm)
  | @getSnapshotBuilder m hm =>
    refine inv_up h.protect (h.current m hm) (h.engine m hm) ?_ (h.receiving m hm)
    rintro captured ⟨⟩
    exact ⟨m.engine, rfl, h.engine m hm⟩
  | @buildSnapshot m captured lastApplied done hm hbuilder =>
    obtain ⟨e, rfl, he⟩ := h.builder m hm _ hbuilder
    have hne : ∀ stored ∈ n.dir.pointer, stored.file ≠ .snap (m.snapshotIdx + 1) := by
      simpa [nextIdx, hm] using hclean.1
    have hpurged : n.dir.purged ≤ lastApplied := hclean.2 m hm _ hbuilder
    refine inv_after (h.protect.safe_buildOps hne he hpurged) done ?_ (h.engine m hm) ?_ (h.receiving m hm)
    · exact Dir.pointer_doOps_writeSnapshotPtr _ _ _
    · rintro captured ⟨⟩
  | @beginReceivingSnapshot m hm =>
    refine inv_up (h.protect.of_frame rfl ?_ rfl) (h.current m hm) (h.engine m hm) (h.builder m hm) ?_
    · intro stored hstored
      have hnamed := h.protect.named stored hstored
      have hother : stored.file ≠ m.incomingFile := by
        intro heq
        rw [heq] at hnamed
        cases hnamed
      simp [Dir.beginReceiving, hother, hnamed]
    · rintro file ⟨⟩
      rfl
  | @receive m file contents hm hfile =>
    have hother := h.receiving_ne hm hfile
    exact ⟨h.protect.setFile hother, h.current, h.engine, h.builder, h.receiving⟩
  | @installSnapshot m file e lastLogId done hm hfile hwhole hleader hpurged =>
    have hother := h.receiving_ne hm hfile
    have hne : ∀ stored ∈ n.dir.pointer, stored.file ≠ .installed (m.snapshotIdx + 1) := by
      simpa [nextIdx, hm, Clean] using hclean
    have hsafe := h.protect.safe_installOps (h.current m hm) hne hother (h.receiving m hm file hfile) hwhole hleader hpurged
    refine inv_after hsafe done ?_ (hleader.restore m.engine) (h.builder m hm) ?_
    · exact Dir.pointer_doOps_writeSnapshotPtr _ _ _
    · rintro file ⟨⟩
  | @purge m stored upto hm hcurrent hupto =>
    refine ⟨⟨h.protect.holds, h.protect.named, ?_⟩, h.current, h.engine, h.builder, h.receiving⟩
    intro i
    have hpointed : n.dir.pointed = stored.lastLogId := by
      simp [Dir.pointed, ← h.current m hm, hcurrent]
    have hcovers := h.protect.covers i
    change i < n.dir.pointed ∨ max n.dir.purged upto ≤ i
    omega
  | crash => exact inv_down h.protect

theorem Reachable.inv {n : Node} (h : Reachable announced fuel log fresh Clean n) : Inv announced fuel log fresh n := by
  induction h with
  | start =>
    apply inv_down
    constructor <;> simp
  | step _ hclean hstep ih => exact ih.step hclean hstep

end Node

end Protection

/-- The machine after a first boot and the form's entry, with a builder of its snapshot. -/
def formMachine : StateMachine :=
  { engine := applyEntry 0 Engine.new (formLog 0), lastApplied := 1, currentSnapshot := none, pid := 7,
    builder := some ((applyEntry 0 Engine.new (formLog 0)).snapshot, 1) }

/-- A first boot, the form's entry, and a snapshot of it. -/
theorem reachable_formMachine {C : Node → Operation → Prop} (hboot : C {} (.boot .member 7)) (happly : ∀ n, C n .apply)
    (hbuilder : ∀ n, C n .getSnapshotBuilder) :
    Node.Reachable (fun _ => False) 0 formLog Engine.new C { dir := Dir.opened {}, machine := some formMachine } := by
  have hstart : Node.Reachable (fun _ => False) 0 formLog Engine.new C {} := .start
  have hbooted := hstart.step hboot (.boot .member 7 rfl)
  have happlied := hbooted.step (happly _) (.apply rfl)
  have hcaptured := happlied.step (hbuilder _) (.getSnapshotBuilder rfl)
  exact hcaptured

end NanoBpm.Raft
