import NanoBpm.Memory
import NanoBpm.Seglog.Layout

/-!
# The multi-partition journal (`seglog.rs:940-990`, `:1663-2260`)

One shared log carries every partition's events, each under the tag of the partition that wrote it.
Segment positions are global indices as on the single-partition path; beside them every segment boundary
has a vector of per-partition counts, kept in the writer, in a `.ppmeta` sidecar per sealed segment and in
the `.pphead` sidecar. Recovery demultiplexes by tag and skips, for each partition, the events its entry of
the combined snapshot covers.
-/

namespace NanoBpm

namespace Seglog

/-- A record of the shared log: `<partition>\t<event json>`. -/
abbrev Tagged := Nat × Event

/-- The events a partition wrote, in log order. -/
def eventsOf (p : Nat) (log : List Tagged) : List Event := (log.filter (·.1 == p)).map (·.2)

/-! ## Counts -/

/-- The per-partition counts of a stretch of the log. -/
def countsOf (numPartitions : Nat) (log : List Tagged) : List Nat :=
  (List.range numPartitions).map fun p => (eventsOf p log).length

/-- The `deltas` of a batch of one partition (`journal.rs:457-464`). -/
def batchDeltas (numPartitions p count : Nat) : List Nat :=
  (List.range numPartitions).map fun q => if q = p then count else 0

/-- `pp_running[tag.min(n - 1)] += 1`. -/
def bumpTag (numPartitions : Nat) (counts : List Nat) (tag : Nat) : List Nat :=
  counts.modify (min tag (numPartitions - 1)) (· + 1)

def bumpTags (numPartitions : Nat) (counts : List Nat) (records : List Tagged) : List Nat :=
  records.foldl (fun c r => bumpTag numPartitions c r.1) counts

/-! ## The combined snapshot -/

structure MultiSnapshotEntry where
  partition : Nat
  covered : Nat
  engine : EngineSnapshot

structure MultiDir extends Files Tagged where
  /-- `msnapshot.bin`: what the file decodes to. -/
  combined : Option (Except SnapshotLoadError (List MultiSnapshotEntry)) := none

def MultiDir.withFiles (dir : MultiDir) (files : Files Tagged) : MultiDir := { dir with toFiles := files }

/-- `write_multi_snapshot`: the previous combined snapshot is overwritten. -/
def MultiDir.writeMultiSnapshot (dir : MultiDir) (entries : List MultiSnapshotEntry) : MultiDir :=
  { dir with combined := some (.ok entries) }

/-- The map `load_multi_snapshot` collects: the last entry of a partition wins. -/
def entryOf (entries : List MultiSnapshotEntry) (p : Nat) : Option MultiSnapshotEntry :=
  entries.reverse.find? (·.partition == p)

/-! ## Compaction (`seglog.rs:2210`) -/

/-- `export_ok && snap_ok`. -/
def deletableMulti (covered exported : List Nat) (seg : SealedSeg) : Bool :=
  (seg.perPartitionEnd.zipIdx.all fun (stop, p) => stop ≤ exported.getD p 0) &&
    (seg.perPartitionEnd.length ≤ covered.length &&
      seg.perPartitionEnd.zipIdx.all fun (stop, p) => stop ≤ covered.getD p 0)

def removeWithSidecar (f : Files Tagged) (start : Nat) : Files Tagged := (f.removeSealed start).removePpMeta start

/-- `compact_multi`. -/
def compactMulti (covered exported : List Nat) (flags : List Bool) (f : Files Tagged) (w : SegShared) :
    Files Tagged × SegShared :=
  let (f, sealed) := compactFaulty (deletableMulti covered exported) removeWithSidecar flags f w.sealed
  (f, { w with sealed })

/-! ## Recovery (`seglog.rs:1794`) -/

structure MultiSegRecovery where
  fresh : Bool
  shared : SegShared
  tagged : List Tagged
  ppBase : List Nat
  firstIndex : Nat
  totalEvents : Nat
  engines : List (Nat × Engine)

/-- `.filter(|v| v.len() == num_partitions).unwrap_or_else(zeros)`. -/
def sidecarOr (numPartitions : Nat) (sidecar : Option (List Nat)) : List Nat :=
  (sidecar.filter (·.length == numPartitions)).getD (List.replicate numPartitions 0)

/-- `base_p`: the sidecar of the first sealed segment, or the per-partition head, or zeros. -/
def recoveredBase (numPartitions : Nat) (f : Files Tagged) : List Nat :=
  match f.sealed with
  | (start, _) :: _ => sidecarOr numPartitions f.ppMeta[start]?
  | [] => sidecarOr numPartitions f.ppHead

/-- The sealed segments with their running per-partition counts. -/
def readSealedMulti (numPartitions : Nat) : List Nat → List (Nat × List Tagged) → List SealedSeg
  | _, [] => []
  | running, (start, records) :: rest =>
    let running := bumpTags numPartitions running records
    ⟨start, start + records.length, running⟩ :: readSealedMulti numPartitions running rest

/-- What recovery reads off the files before it looks at the snapshot. -/
def surveyedMulti (numPartitions : Nat) (f : Files Tagged) : MultiSegRecovery :=
  let ppBase := recoveredBase numPartitions f
  let activeStart := recoveredActiveStart f
  let totalEvents := activeStart + f.active.length
  let perPartitionActiveStart := bumpTags numPartitions ppBase (f.sealed.flatMap (·.2))
  { fresh := false
    shared :=
      { totalEvents, activeStart
        sealed := readSealedMulti numPartitions ppBase f.sealed
        perPartitionTotal := bumpTags numPartitions perPartitionActiveStart f.active
        perPartitionActiveStart }
    tagged := survivingRecords f
    ppBase
    firstIndex := recoveredFirstIndex f
    totalEvents
    engines := [] }

/-- The replicated-deployment broadcast set: a `ProcessDeployed` whose tag is not its key's partition. -/
def isBroadcast (numPartitions : Nat) : Tagged → Bool
  | (tag, e@(.processDeployed ..)) => tag != min (partitionOf e.maxKey) (numPartitions - 1)
  | _ => false

/-- Where the engines of a boot come from. -/
inductive Source where
  /-- The combined snapshot, if any, and the surviving tail. -/
  | snapshot (entries : Option (List MultiSnapshotEntry))
  /-- The cold prefix and the surviving tail, replayed from scratch. -/
  | migrate (cold : List Tagged)

/-- The match on `load_multi_snapshot` (`seglog.rs:1906-1970`). -/
def chooseSource (dir : MultiDir) (survey : MultiSegRecovery) : Except RecoverError Source :=
  let gate (fail : RecoverError) : Except RecoverError Source :=
    match fullColdPrefix dir.toFiles survey.firstIndex survey.totalEvents survey.tagged.length with
    | .error e => .error e
    | .ok none => .error fail
    | .ok (some cold) => .ok (.migrate cold)
  match dir.combined with
  | some (.ok entries) => .ok (.snapshot (some entries))
  | none => if survey.firstIndex = 0 then .ok (.snapshot none) else gate (.cannotReconstruct survey.firstIndex)
  | some (.error e) => gate (.snapshot e)

/-- The two guards before the engines are rebuilt (`seglog.rs:2005-2060`). -/
def checkCompacted (owned : List Nat) (survey : MultiSegRecovery) : Source → Except RecoverError Unit
  | .migrate _ => .ok ()
  | .snapshot entries =>
    if entries.isNone ∧ 0 < survey.firstIndex then .error (.compactedWithoutSnapshot survey.firstIndex)
    else
      let stale := owned.find? fun p =>
        let base := survey.ppBase.getD p 0
        base != 0 && (((entries.bind (entryOf · p)).map (·.covered)).all (· < base))
      match stale with
      | none => .ok ()
      | some p => .error (.stalePartition p (survey.ppBase.getD p 0) ((entries.bind (entryOf · p)).map (·.covered)))

/-- The variables of the durable store, on the lean path: installed before the tail is replayed. -/
def installStored (p : Nat) (engine : Engine) : Option (List (Key × Vars)) → Engine
  | none => engine
  | some all => all.foldl (fun e (key, vars) => if partitionOf key = p then e.installVariables key vars else e) engine

/-- One partition's engine (`seglog.rs:2087-2131`). -/
def rebuildPartition (numPartitions : Nat) (stored : Option (List (Key × Vars))) (survey : MultiSegRecovery)
    (source : Source) (p : Nat) : Engine :=
  let history := match source with
    | .migrate cold => cold ++ survey.tagged
    | .snapshot _ => survey.tagged
  let pEvents := eventsOf p history
  let engine := match source with
    | .migrate _ => Engine.replayPartition p pEvents
    | .snapshot entries =>
      match entries.bind (entryOf · p) with
      | none => Engine.replayPartition p pEvents
      | some entry =>
        let engine := installStored p (Engine.fromSnapshot entry.engine) stored
        let skip := entry.covered - survey.ppBase.getD p 0
        if skip < pEvents.length then engine.applyReplayedEvents (pEvents.drop skip) else engine
  let broadcast := ((history.filter (isBroadcast numPartitions)).filter (·.1 != p)).map (·.2)
  if broadcast.isEmpty then engine else engine.installDeploymentIfNewer broadcast

/-- `recover_multi`. `written`: the best-effort snapshot write after a migration succeeds. -/
def recoverMulti (owned : List Nat) (numPartitions : Nat) (stored : Option (List (Key × Vars))) (written : Bool)
    (dir : MultiDir) : Except RecoverError (MultiSegRecovery × MultiDir) := do
  let survey := surveyedMulti numPartitions dir.toFiles
  let source ← chooseSource dir survey
  checkCompacted owned survey source
  let engines := owned.map fun p => (p, rebuildPartition numPartitions stored survey source p)
  match source with
  | .snapshot entries =>
    return ({ survey with fresh := survey.totalEvents == 0 && entries.isNone, engines }, dir)
  | .migrate _ =>
    let entries := engines.map fun (p, e) =>
      (⟨p, survey.shared.perPartitionTotal.getD p 0, e.snapshot⟩ : MultiSnapshotEntry)
    let dir' := (dir.writeMultiSnapshot entries).withFiles (pruneColdArchive dir.toFiles survey.totalEvents)
    return ({ survey with engines }, if stored.isNone && written then dir' else dir)

/-- The host's lookup of a recovered engine (`main.rs:22767`). -/
def MultiSegRecovery.engineOf (r : MultiSegRecovery) (p : Nat) : Engine :=
  (r.engines.lookup p).getD (Engine.withPartition p)

end Seglog

end NanoBpm
