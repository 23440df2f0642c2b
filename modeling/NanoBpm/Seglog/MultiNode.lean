import NanoBpm.Seglog.MultiRecover

/-!
# Runs of a node with several partitions (`server/src/main.rs:22924-23070`, `:13803-13840`)

The steps of a node: a partition's batch, a deployment that one partition journals and the others install,
seals, the per-partition snapshots of a maintenance tick and their combined write, compaction, pruning,
crashes and restarts.
-/

namespace NanoBpm

namespace Seglog

open Tiling

/-- The partitions a node owns, in ascending order, among those of the cluster (`cluster.rs:133`). -/
structure Topology where
  owned : List Nat
  numPartitions : Nat
  sorted : owned.Pairwise (· < ·)
  lt : ∀ p ∈ owned, p < numPartitions

structure MultiWriter where
  shared : SegShared
  /-- The entries of the running maintenance tick. -/
  taken : List MultiSnapshotEntry := []
  /-- History variable: the log length at which each entry of the tick was taken. -/
  takenAt : Nat → Nat := fun _ => 0
  /-- The covered counts of the last combined snapshot this boot wrote. -/
  covered : List Nat := []

structure MultiNode where
  dir : MultiDir := {}
  writer : Option MultiWriter := none
  /-- The owned engines; while the node is down, as they were when it went down. -/
  engines : Nat → Engine := Engine.withPartition
  log : List Tagged := []
  /-- History variable: the log length at which each entry of the combined snapshot on disk was taken. -/
  heldAt : Nat → Nat := fun _ => 0

inductive MultiOp where
  | append (p : Nat) (events : List Event) (engine : Engine)
  /-- `install_replicated_deployment`: `p` journals it, every other owned partition installs it. -/
  | deploy (p : Nat) (events : List Event)
  | sealActive (writes : SealWrites)
  | sealInterrupted (metaWritten : Bool)
  | snapshotPartition (p : Nat) (writes : SealWrites)
  | dropTick
  | writeSnapshot
  | archive (exported : List Nat)
  | compact (exported : List Nat) (flags : List Bool)
  | prune (keepFrom : Nat)
  | crash
  | recover (written : Bool)

/-- The `covered` vector of a tick. -/
def coveredVector (numPartitions : Nat) (entries : List MultiSnapshotEntry) : List Nat :=
  (List.range numPartitions).map fun p => ((entryOf entries p).map (·.covered)).getD 0

/-- A migration that rewrites the combined snapshot holds the whole log. -/
def MultiNode.heldAfter (n : MultiNode) (dir : MultiDir) : Nat → Nat :=
  if !(n.dir.combined.any (·.isOk)) && dir.combined.any (·.isOk) then fun _ => n.log.length else n.heldAt

variable (T : Topology)

inductive MultiStep : MultiNode → MultiOp → MultiNode → Prop
  | append {n w p events engine} (hw : n.writer = some w) (hp : p ∈ T.owned)
      (happly : engine.logged = ((n.engines p).applyReplayedEvents events).logged) :
      MultiStep n (.append p events engine)
        { n with
          dir := n.dir.withFiles (n.dir.toFiles.append (events.map (p, ·)))
          writer := some
            { w with shared := w.shared.append events.length (batchDeltas T.numPartitions p events.length) }
          engines := fun q => if q = p then engine else n.engines q
          log := n.log ++ events.map (p, ·) }
  | deploy {n w p events} (hw : n.writer = some w) (hp : p ∈ T.owned) (hdep : ∀ e ∈ events, e.isDeployment = true) :
      MultiStep n (.deploy p events)
        { n with
          dir := n.dir.withFiles (n.dir.toFiles.append (events.map (p, ·)))
          writer := some
            { w with shared := w.shared.append events.length (batchDeltas T.numPartitions p events.length) }
          engines := fun q => if q ∈ T.owned then (n.engines q).installDeployment events else n.engines q
          log := n.log ++ events.map (p, ·) }
  | sealActive {n w writes} (hw : n.writer = some w) :
      MultiStep n (.sealActive writes)
        { n with
          dir := n.dir.withFiles (sealSegment writes n.dir.toFiles w.shared).1
          writer := some { w with shared := (sealSegment writes n.dir.toFiles w.shared).2.1 } }
  | sealInterrupted {n w metaWritten} (hw : n.writer = some w)
      (hne : w.shared.totalEvents ≠ w.shared.activeStart) :
      MultiStep n (.sealInterrupted metaWritten)
        { n with
          dir := n.dir.withFiles
            (n.dir.toFiles.rename w.shared.activeStart w.shared.perPartitionActiveStart metaWritten)
          writer := none }
  /-- A tick visits each owned partition once. -/
  | snapshotPartition {n w p writes} (hw : n.writer = some w) (hp : p ∈ T.owned)
      (hfresh : p ∉ w.taken.map (·.partition)) :
      MultiStep n (.snapshotPartition p writes)
        { n with
          dir := n.dir.withFiles (sealSegment writes n.dir.toFiles w.shared).1
          writer := some
            { w with
              shared := (sealSegment writes n.dir.toFiles w.shared).2.1
              taken := w.taken ++ [⟨p, (sealSegment writes n.dir.toFiles w.shared).2.2.perPartitionEnd.getD p
                (sealSegment writes n.dir.toFiles w.shared).2.2.stop, (n.engines p).snapshot⟩]
              takenAt := fun q => if q = p then n.log.length else w.takenAt q } }
  | dropTick {n w} (hw : n.writer = some w) : MultiStep n .dropTick { n with writer := some { w with taken := [] } }
  | writeSnapshot {n w} (hw : n.writer = some w) (htick : w.taken.map (·.partition) = T.owned) :
      MultiStep n .writeSnapshot
        { n with
          dir := n.dir.writeMultiSnapshot w.taken
          writer := some { w with taken := [], covered := coveredVector T.numPartitions w.taken }
          heldAt := w.takenAt }
  | archive {n w exported seg rest f} (hw : n.writer = some w) (hs : w.shared.sealed = seg :: rest)
      (hdel : deletableMulti w.covered exported seg = true)
      (ha : archiveColdSegment n.dir.toFiles seg.start seg.stop = some f) :
      MultiStep n (.archive exported) { n with dir := n.dir.withFiles f }
  | compact {n w exported flags} (hw : n.writer = some w) :
      MultiStep n (.compact exported flags)
        { n with
          dir := n.dir.withFiles (compactMulti w.covered exported flags n.dir.toFiles w.shared).1
          writer := some { w with shared := (compactMulti w.covered exported flags n.dir.toFiles w.shared).2 } }
  | prune {n keepFrom} :
      MultiStep n (.prune keepFrom) { n with dir := n.dir.withFiles (pruneColdArchive n.dir.toFiles keepFrom) }
  | crash {n} : MultiStep n .crash { n with writer := none }
  | recover {n written r dir}
      (hr : recoverMulti T.owned T.numPartitions none written n.dir = .ok (r, dir)) :
      MultiStep n (.recover written)
        { n with dir, writer := some { shared := r.shared }, engines := r.engineOf, heldAt := n.heldAfter dir }

/-- The nodes reached by runs whose steps all satisfy `ok`. -/
inductive MultiReachable (ok : MultiNode → MultiOp → Prop) : MultiNode → Prop
  | init : MultiReachable ok {}
  | step {n n'} (op : MultiOp) : MultiReachable ok n → ok n op → MultiStep T n op n' → MultiReachable ok n'

/-- The seal that creates the only sealed segment writes its sidecar, unless nothing precedes it. -/
def KeepsMeta (n : MultiNode) (metaWritten : Bool) : Prop :=
  ∀ w, n.writer = some w → w.shared.sealed = [] → w.shared.totalEvents ≠ w.shared.activeStart →
    metaWritten = true ∨ ∀ c ∈ w.shared.perPartitionActiveStart, c = 0

/-- A compaction leaves a position behind: the sidecar of the segment that becomes the first one, or,
when it removes every sealed segment, the head and the per-partition head. -/
def KeepsBoundary (n : MultiNode) (exported : List Nat) (archives : Nat) : Prop :=
  ∀ w, n.writer = some w →
    let removed := (w.shared.sealed.takeWhile (deletableMulti w.covered exported)).take archives
    ∀ last, removed.getLast? = some last →
      if removed.length = w.shared.sealed.length then
        n.dir.head = some w.shared.activeStart ∧ n.dir.ppHead = some w.shared.perPartitionActiveStart
      else (n.dir.ppMeta[last.stop]?).isSome

/-- No sidecar that recovery has to rely on is lost, and no removal of a segment fails. -/
def KeepsSidecars (n : MultiNode) : MultiOp → Prop
  | .sealActive writes => KeepsMeta n writes.ppMeta
  | .snapshotPartition _ writes => KeepsMeta n writes.ppMeta
  | .sealInterrupted metaWritten => KeepsMeta n metaWritten
  | .compact exported flags => (∀ b ∈ flags, b = true) ∧ KeepsBoundary n exported flags.length
  | _ => True

end Seglog

end NanoBpm
