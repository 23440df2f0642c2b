import NanoBpm.Lib.Tiling
import NanoBpm.Replay

/-!
# The segmented journal directory (`nano-server-storage/src/seglog.rs:257-535`, `:1225-1660`)

A directory holds the active segment, the sealed segments (each named after the absolute index of its
first record), a best-effort head file, best-effort per-partition sidecars, and the cold archive of
compacted segments. A file stands for the records it decodes to (`Segment` has the bytes). The listings
of the source sort by start index, so the files are kept in that order.

Everything here is shared by the single-partition journal, whose records are events and whose
per-partition vectors are empty, and the multi-partition one, whose records carry a write tag.
-/

namespace NanoBpm

namespace Seglog

variable {ρ : Type}

/-! ## Files -/

/-- `journal.cold.<start>.<end>.jsonl.z`. -/
structure ColdFile (ρ : Type) where
  start : Nat
  stop : Nat
  records : List ρ

structure Files (ρ : Type) where
  /-- `journal.jsonl`; a missing file reads as an empty one. -/
  active : List ρ := []
  /-- `journal.<start>.jsonl`, in the order of `list_sealed`. -/
  sealed : List (Nat × List ρ) := []
  /-- `journal.head`. -/
  head : Option Nat := none
  /-- `journal.<start>.jsonl.ppmeta`: the per-partition counts at the segment's first record. -/
  ppMeta : Std.ExtTreeMap Nat (List Nat) := ∅
  /-- `journal.pphead`: the per-partition counts at the active segment's first record. -/
  ppHead : Option (List Nat) := none
  /-- The cold archive, in the order of `list_cold`. -/
  cold : List (ColdFile ρ) := []

/-- `SealedSeg`; its path is the sealed name of `start`. -/
structure SealedSeg where
  start : Nat
  stop : Nat
  perPartitionEnd : List Nat := []
deriving DecidableEq

/-- `SegShared`: what the writer knows. The per-partition vectors are empty on the single-partition path. -/
structure SegShared where
  totalEvents : Nat := 0
  activeStart : Nat := 0
  sealed : List SealedSeg := []
  perPartitionTotal : List Nat := []
  perPartitionActiveStart : List Nat := []

/-- `SealInfo`. -/
structure SealInfo where
  stop : Nat
  perPartitionEnd : List Nat

/-! ## Appending and sealing (`seglog.rs:429`, `:465`) -/

def Files.append (f : Files ρ) (records : List ρ) : Files ρ := { f with active := f.active ++ records }

/-- `add_partition_events`. -/
def addPartitionEvents (totals deltas : List Nat) : List Nat :=
  totals.zipIdx.map fun (n, p) => n + deltas.getD p 0

/-- The writer's counters after a batch. -/
def SegShared.append (w : SegShared) (count : Nat) (deltas : List Nat) : SegShared :=
  { w with
    totalEvents := w.totalEvents + count
    perPartitionTotal := addPartitionEvents w.perPartitionTotal deltas }

/-- Which of the best-effort writes of a seal reach the disk. -/
structure SealWrites where
  ppMeta : Bool
  head : Bool
  ppHead : Bool

/-- The files after the rename of a seal at `start`, before its head is written. -/
def Files.rename (f : Files ρ) (start : Nat) (perPartitionStart : List Nat) (metaWritten : Bool) : Files ρ :=
  { f with
    ppMeta := if perPartitionStart.isEmpty || !metaWritten then f.ppMeta else f.ppMeta.insert start perPartitionStart
    sealed := Tiling.file start f.active f.sealed
    active := [] }

/-- `ActiveSegment::seal`. -/
def sealSegment (wr : SealWrites) (f : Files ρ) (w : SegShared) : Files ρ × SegShared × SealInfo :=
  let info : SealInfo := ⟨w.totalEvents, w.perPartitionTotal⟩
  if w.totalEvents = w.activeStart then (f, w, info)
  else
    let f := f.rename w.activeStart w.perPartitionActiveStart wr.ppMeta
    let f := { f with
      head := if wr.head then some w.totalEvents else f.head
      ppHead := if w.perPartitionTotal.isEmpty || !wr.ppHead then f.ppHead else some w.perPartitionTotal }
    let w := { w with
      activeStart := w.totalEvents
      perPartitionActiveStart := w.perPartitionTotal
      sealed := w.sealed ++ [⟨w.activeStart, w.totalEvents, w.perPartitionTotal⟩] }
    (f, w, info)

/-! ## Cold archive (`seglog.rs:1291-1660`) -/

/-- The place `list_cold` gives a new file. -/
def insertCold (c : ColdFile ρ) : List (ColdFile ρ) → List (ColdFile ρ)
  | [] => [c]
  | d :: ds => if d.start ≤ c.start then d :: insertCold c ds else c :: d :: ds

/-- `archive_cold_segment`; `none` when the segment cannot be read. -/
def archiveColdSegment (f : Files ρ) (start stop : Nat) : Option (Files ρ) :=
  if f.cold.any fun c => c.start == start && c.stop == stop then some f
  else
    (f.sealed.find? (·.1 == start)).map fun p => { f with cold := insertCold ⟨start, stop, p.2⟩ f.cold }

/-- `prune_cold_archive`. -/
def pruneColdArchive (f : Files ρ) (keepFrom : Nat) : Files ρ :=
  { f with cold := f.cold.dropWhile (·.stop ≤ keepFrom) }

inductive SnapshotLoadError where
  | formatMismatch (found supported : Nat)
  | corrupt
deriving DecidableEq

inductive RecoverError where
  | coldMisSized (start stop found : Nat)
  | staleSnapshot (covered firstIndex : Nat)
  | stalePartition (partition base : Nat) (covered : Option Nat)
  | cannotReconstruct (firstIndex : Nat)
  | compactedWithoutSnapshot (firstIndex : Nat)
  | snapshot (e : SnapshotLoadError)
deriving DecidableEq

/-- The walk of `read_cold_prefix` and `read_cold_prefix_tagged`. -/
def coldPrefix : Nat → List (ColdFile ρ) → Except RecoverError (List ρ × Nat)
  | expected, [] => .ok ([], expected)
  | expected, c :: cs =>
    if c.start ≠ expected then .ok ([], expected)
    else if c.records.length ≠ c.stop - c.start then .error (.coldMisSized c.start c.stop c.records.length)
    else
      match coldPrefix c.stop cs with
      | .ok (records, stop) => .ok (c.records ++ records, stop)
      | .error e => .error e

/-- The gate of `migrate_by_replay` and `full_cold_prefix_tagged`: the cold prefix, when it meets the hot
tail and the tail spans the rest. -/
def fullColdPrefix (f : Files ρ) (firstIndex totalEvents hotLen : Nat) : Except RecoverError (Option (List ρ)) :=
  match coldPrefix 0 f.cold with
  | .error e => .error e
  | .ok (cold, coldEnd) =>
    if coldEnd = firstIndex ∧ hotLen = totalEvents - firstIndex then .ok (some cold) else .ok none

/-! ## Compaction (`seglog.rs:1254`, `:2210`) -/

def Files.removeSealed (f : Files ρ) (start : Nat) : Files ρ :=
  { f with sealed := f.sealed.filter (·.1 ≠ start) }

def Files.removePpMeta (f : Files ρ) (start : Nat) : Files ρ := { f with ppMeta := f.ppMeta.erase start }

/-- The loop of `compact` and `compact_multi` where every removal succeeds. `archives` bounds how many archive writes
succeed: a failed one, or a crash, ends the loop there. -/
def compactLoop (deletable : SealedSeg → Bool) (remove : Files ρ → Nat → Files ρ) :
    Nat → Files ρ → List SealedSeg → Files ρ × List SealedSeg
  | 0, f, sealed => (f, sealed)
  | _ + 1, f, [] => (f, [])
  | archives + 1, f, seg :: rest =>
    if deletable seg then
      match archiveColdSegment f seg.start seg.stop with
      | none => (f, seg :: rest)
      | some f' => compactLoop deletable remove archives (remove f' seg.start) rest
    else (f, seg :: rest)

/-- The loop of `compact` and `compact_multi`: one flag per archived segment, whether its `remove_file`
succeeds. The segment leaves the writer's list either way. A failed archive, or a crash, ends the flags. -/
def compactFaulty (deletable : SealedSeg → Bool) (remove : Files ρ → Nat → Files ρ) :
    List Bool → Files ρ → List SealedSeg → Files ρ × List SealedSeg
  | [], f, sealed => (f, sealed)
  | _ :: _, f, [] => (f, [])
  | removed :: flags, f, seg :: rest =>
    if deletable seg then
      match archiveColdSegment f seg.start seg.stop with
      | none => (f, seg :: rest)
      | some f' => compactFaulty deletable remove flags (if removed then remove f' seg.start else f') rest
    else (f, seg :: rest)

/-- Without a failed removal it is `compactLoop`. -/
theorem compactFaulty_eq (deletable : SealedSeg → Bool) (remove : Files ρ → Nat → Files ρ) (flags : List Bool)
    (h : ∀ b ∈ flags, b = true) (f : Files ρ) (sealed : List SealedSeg) :
    compactFaulty deletable remove flags f sealed = compactLoop deletable remove flags.length f sealed := by
  induction flags generalizing f sealed with
  | nil => rfl
  | cons b bs ih =>
    obtain ⟨rfl, hbs⟩ := List.forall_mem_cons.1 h
    cases sealed with
    | nil => rfl
    | cons seg rest =>
      cases harchive : archiveColdSegment f seg.start seg.stop <;>
        simp only [compactFaulty, compactLoop, List.length_cons, if_true, ih hbs, harchive]

/-- `compact`. -/
def compact (watermark : Nat) (flags : List Bool) (f : Files ρ) (w : SegShared) : Files ρ × SegShared :=
  let (f, sealed) := compactFaulty (fun seg => seg.stop ≤ watermark) Files.removeSealed flags f w.sealed
  (f, { w with sealed })

/-! ## Reading back -/

/-- The list of sealed segments recovery rebuilds from names and record counts. -/
def readSealed (f : Files ρ) : List SealedSeg := f.sealed.map fun p => { start := p.1, stop := p.1 + p.2.length }

/-- Where recovery believes the active segment starts: the end of the last sealed segment, or the head. -/
def recoveredActiveStart (f : Files ρ) : Nat :=
  match f.sealed.getLast? with
  | none => f.head.getD 0
  | some p => p.1 + p.2.length

def recoveredFirstIndex (f : Files ρ) : Nat := (f.sealed.head?.map (·.1)).getD (recoveredActiveStart f)

/-- All surviving records, in order. -/
def survivingRecords (f : Files ρ) : List ρ := f.sealed.flatMap (·.2) ++ f.active

end Seglog

end NanoBpm
