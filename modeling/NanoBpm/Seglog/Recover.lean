import NanoBpm.Seglog.Layout

/-!
# Recovery of a single-partition journal (`seglog.rs:992-1285`, `server/src/main.rs:22877-22922`)

`recover` rebuilds the engine from the newest snapshot and the surviving records, or from a full replay.
Around it stands the node: the writer's appends and seals, the maintenance task's snapshot, compaction
and pruning, crashes between any two of them, and restarts. Each node carries the log of all events ever
appended, which no step of the code reads; it is what recovery is measured against.
-/

namespace NanoBpm

namespace Seglog

open Tiling

/-! ## Snapshots -/

structure PersistedSnapshot where
  coveredEvents : Nat
  engine : EngineSnapshot

structure Dir extends Files Event where
  /-- `snapshot.<covered>.bin`: the count in the name, and what the file decodes to. -/
  snapshots : List (Nat × Except SnapshotLoadError PersistedSnapshot) := []

/-- `write_snapshot` (`seglog.rs:1228`). -/
def Dir.writeSnapshot (dir : Dir) (snap : EngineSnapshot) (coveredEvents : Nat) : Dir :=
  { dir with
    snapshots := (coveredEvents, .ok ⟨coveredEvents, snap⟩) :: dir.snapshots.filter fun s => coveredEvents < s.1 }

def Dir.withFiles (dir : Dir) (files : Files Event) : Dir := { dir with toFiles := files }

/-- The scan of `load_latest_snapshot`: the file whose name covers most. -/
def newestSnapshot {α : Type} (files : List (Nat × α)) : Option (Nat × α) :=
  files.foldl (fun best f => if best.all fun b => b.1 < f.1 then some f else best) none

/-- `load_latest_snapshot` (`seglog.rs:1001`). -/
def loadLatestSnapshot (dir : Dir) : Except SnapshotLoadError (Option (EngineSnapshot × Nat)) :=
  match newestSnapshot dir.snapshots with
  | none => .ok none
  | some (_, .error e) => .error e
  | some (_, .ok s) => .ok (some (s.engine, s.coveredEvents))

/-! ## Recovery -/

structure SegRecovery where
  fresh : Bool
  shared : SegShared
  events : List Event
  firstIndex : Nat
  totalEvents : Nat

/-- `migrate_by_replay` (`seglog.rs:1616`). -/
def migrateByReplay (dir : Dir) (partitionId firstIndex totalEvents : Nat) (hotEvents : List Event) :
    Except RecoverError (Option Engine) :=
  match fullColdPrefix dir.toFiles firstIndex totalEvents hotEvents.length with
  | .error e => .error e
  | .ok none => .ok none
  | .ok (some cold) => .ok (some (Engine.replayPartition partitionId (cold ++ hotEvents)))

/-- The two migrating branches of `recover`: rebuild from the full history, then write a fresh snapshot
(`written`: the write is best-effort) and prune up to it. -/
def reconstruct (dir : Dir) (survey : SegRecovery) (written : Bool) (fail : RecoverError) :
    Except RecoverError (Engine × SegRecovery × Dir) :=
  match migrateByReplay dir 0 survey.firstIndex survey.totalEvents survey.events with
  | .error e => .error e
  | .ok none => .error fail
  | .ok (some engine) =>
    let fresh := dir.writeSnapshot engine.snapshot survey.totalEvents
    .ok (engine, survey, if written then fresh.withFiles (pruneColdArchive fresh.toFiles survey.totalEvents) else dir)

/-- What `recover` reads off the files before it looks at a snapshot. -/
def surveyed (f : Files Event) : SegRecovery :=
  let activeStart := recoveredActiveStart f
  let totalEvents := activeStart + f.active.length
  { fresh := false
    shared := { totalEvents, activeStart, sealed := readSealed f }
    events := survivingRecords f
    firstIndex := recoveredFirstIndex f
    totalEvents }

/-- `recover` (`seglog.rs:1053`): the engine, the recovery record and the directory it leaves. -/
def recover (written : Bool) (dir : Dir) : Except RecoverError (Engine × SegRecovery × Dir) :=
  let survey := surveyed dir.toFiles
  match loadLatestSnapshot dir with
  | .ok (some (snap, covered)) =>
    -- the one guard: a snapshot below the compaction floor
    if 0 < survey.firstIndex ∧ covered < survey.firstIndex then .error (.staleSnapshot covered survey.firstIndex)
    else
      let engine := Engine.fromSnapshot snap
      let skip := covered - survey.firstIndex
      .ok (if skip < survey.events.length then engine.applyReplayedEvents (survey.events.drop skip) else engine, survey, dir)
  | .ok none =>
    if survey.firstIndex = 0 then
      .ok (Engine.replayPartition 0 survey.events, { survey with fresh := survey.totalEvents == 0 }, dir)
    else reconstruct dir survey written (.cannotReconstruct survey.firstIndex)
  | .error e => reconstruct dir survey written (.snapshot e)

/-! ## The node -/

/-- A running node: the engine, the writer's shared state, and the maintenance task's locals. -/
structure Writer where
  engine : Engine
  shared : SegShared := {}
  /-- What `snapshot_and_rotate` returned to the maintenance task. -/
  taken : Option (EngineSnapshot × Nat) := none
  /-- The count of the last snapshot this boot wrote; it bounds the compaction watermark. -/
  covered : Nat := 0

structure Node where
  dir : Dir := {}
  writer : Option Writer := none
  log : List Event := []

inductive Op where
  | append (events : List Event) (engine : Engine)
  | sealActive (writes : SealWrites)
  /-- A crash between the rename of a seal and its head write. -/
  | sealInterrupted
  | snapshotAndRotate (writes : SealWrites)
  | writeSnapshot
  | archive (exported : Nat)
  | compact (exported : Nat) (flags : List Bool)
  | prune (keepFrom : Nat)
  | crash
  | recover (written : Bool)

/-- `covered.min(store.exported_position())` (`main.rs:22905`). -/
def Writer.watermark (w : Writer) (exported : Nat) : Nat := min w.covered exported

inductive Step : Node → Op → Node → Prop
  /-- A command's events are applied and made durable. -/
  | append {n w events engine} (hw : n.writer = some w)
      (happly : engine.logged = (w.engine.applyReplayedEvents events).logged) :
      Step n (.append events engine)
        { dir := n.dir.withFiles (n.dir.toFiles.append events)
          writer := some { w with engine, shared := w.shared.append events.length [] }
          log := n.log ++ events }
  | sealActive {n w writes} (hw : n.writer = some w) :
      Step n (.sealActive writes)
        { n with
          dir := n.dir.withFiles (sealSegment writes n.dir.toFiles w.shared).1
          writer := some { w with shared := (sealSegment writes n.dir.toFiles w.shared).2.1 } }
  | sealInterrupted {n w} (hw : n.writer = some w) (hne : w.shared.totalEvents ≠ w.shared.activeStart) :
      Step n .sealInterrupted
        { n with
          dir := n.dir.withFiles (n.dir.toFiles.rename w.shared.activeStart w.shared.perPartitionActiveStart false)
          writer := none }
  | snapshotAndRotate {n w writes} (hw : n.writer = some w) :
      Step n (.snapshotAndRotate writes)
        { n with
          dir := n.dir.withFiles (sealSegment writes n.dir.toFiles w.shared).1
          writer := some
            { w with
              shared := (sealSegment writes n.dir.toFiles w.shared).2.1
              taken := some (w.engine.snapshot, (sealSegment writes n.dir.toFiles w.shared).2.2.stop) } }
  | writeSnapshot {n w snap covered} (hw : n.writer = some w) (ht : w.taken = some (snap, covered)) :
      Step n .writeSnapshot
        { n with dir := n.dir.writeSnapshot snap covered, writer := some { w with taken := none, covered } }
  /-- The archive write of a compaction whose deletion has not happened yet. -/
  | archive {n w exported seg rest f} (hw : n.writer = some w) (hs : w.shared.sealed = seg :: rest)
      (hle : seg.stop ≤ w.watermark exported) (ha : archiveColdSegment n.dir.toFiles seg.start seg.stop = some f) :
      Step n (.archive exported) { n with dir := n.dir.withFiles f }
  | compact {n w exported flags} (hw : n.writer = some w) :
      Step n (.compact exported flags)
        { n with
          dir := n.dir.withFiles (Seglog.compact (w.watermark exported) flags n.dir.toFiles w.shared).1
          writer := some
            { w with shared := (Seglog.compact (w.watermark exported) flags n.dir.toFiles w.shared).2 } }
  | prune {n keepFrom} : Step n (.prune keepFrom) { n with dir := n.dir.withFiles (pruneColdArchive n.dir.toFiles keepFrom) }
  | crash {n} : Step n .crash { n with writer := none }
  | recover {n written engine survey dir} (hr : Seglog.recover written n.dir = .ok (engine, survey, dir)) :
      Step n (.recover written) { n with dir, writer := some { engine, shared := survey.shared } }

/-- The nodes reached by runs whose steps all satisfy `ok`. -/
inductive Reachable (ok : Node → Op → Prop) : Node → Prop
  | init : Reachable ok {}
  | step {n n'} (op : Op) : Reachable ok n → ok n op → Step n op n' → Reachable ok n'

def Unrestricted (_ : Node) (_ : Op) : Prop := True

/-- Whatever `recover` returns without an error is the replay of the whole log, with its length; the
surviving events it reports are the log from its first index on. -/
def Node.Sound (n : Node) : Prop :=
  ∀ written engine survey dir, Seglog.recover written n.dir = .ok (engine, survey, dir) →
    engine.logged = (Engine.replayPartition 0 n.log).logged ∧ survey.totalEvents = n.log.length ∧
      survey.events = n.log.drop survey.firstIndex

/-- No removal of a compaction fails, and a compaction that removes every sealed segment finds the head file at the active
segment's start. -/
def KeepsPosition (n : Node) : Op → Prop
  | .compact exported flags => (∀ b ∈ flags, b = true) ∧ ∀ w, n.writer = some w → w.shared.sealed ≠ [] →
      (∀ seg ∈ w.shared.sealed, seg.stop ≤ w.watermark exported) → w.shared.sealed.length ≤ flags.length →
      n.dir.head = some w.shared.activeStart
  | _ => True

/-! ## The invariant -/

/-- A snapshot that restores the first `covered` events. -/
def SnapshotOk (log : List Event) (snap : EngineSnapshot) (covered : Nat) : Prop :=
  covered ≤ log.length ∧
    (Engine.fromSnapshot snap).logged = (Engine.replayPartition 0 (log.take covered)).logged

theorem SnapshotOk.extend {log : List Event} {snap : EngineSnapshot} {covered : Nat} (h : SnapshotOk log snap covered)
    (more : List Event) : SnapshotOk (log ++ more) snap covered := by
  refine ⟨?_, ?_⟩
  · rw [List.length_append]
    exact Nat.le_trans h.1 (Nat.le_add_right _ _)
  · rw [List.take_append_of_le_length h.1]
    exact h.2

/-- A snapshot of an engine that has replayed the log restores the whole log. -/
theorem snapshotOk_of_engine {log : List Event} {engine : Engine}
    (h : engine.logged = (Engine.replayPartition 0 log).logged) : SnapshotOk log engine.snapshot log.length := by
  have hstate : engine.state = (Engine.replayPartition 0 log).state := congrArg Engine.Logged.state h
  refine ⟨Nat.le_refl _, ?_⟩
  rw [List.take_length, Engine.logged_fromSnapshot (hstate ▸ Engine.normalized_replayPartition 0 log), h]

structure Dir.Ok (dir : Dir) (log : List Event) (first activeStart : Nat) : Prop where
  files : dir.toFiles.Holds log first activeStart
  snapshots : ∀ s ∈ dir.snapshots, ∃ snap, s.2 = .ok ⟨s.1, snap⟩ ∧ SnapshotOk log snap s.1

structure Writer.Ok (w : Writer) (dir : Dir) (log : List Event) (activeStart : Nat) : Prop where
  engine : w.engine.logged = (Engine.replayPartition 0 log).logged
  shared : w.shared.Tracks dir.toFiles log activeStart
  taken : ∀ snap covered, w.taken = some (snap, covered) → SnapshotOk log snap covered

def Node.Inv (n : Node) : Prop :=
  ∃ first activeStart, n.dir.Ok n.log first activeStart ∧ ∀ w, n.writer = some w → w.Ok n.dir n.log activeStart

/-! ## Recovery is sound on the invariant -/

theorem newestSnapshot_mem {α : Type} {files : List (Nat × α)} {f : Nat × α} (h : newestSnapshot files = some f) :
    f ∈ files := by
  have hfold : ∀ (files : List (Nat × α)) (best : Option (Nat × α)) (f : Nat × α),
      files.foldl (fun best f => if best.all fun b => b.1 < f.1 then some f else best) best = some f →
      f ∈ files ∨ best = some f := by
    intro files
    induction files with
    | nil => exact fun best f h => Or.inr h
    | cons x xs ih =>
      intro best f h
      rw [List.foldl_cons] at h
      rcases ih _ f h with hmem | hbest
      · exact Or.inl (List.mem_cons_of_mem _ hmem)
      · split at hbest
        · exact Or.inl (Option.some.inj hbest ▸ List.mem_cons_self)
        · exact Or.inr hbest
  rcases hfold files none f h with hmem | hnone
  · exact hmem
  · cases hnone

/-- On a directory of the invariant a snapshot file is never unreadable. -/
theorem loadLatestSnapshot_ok {dir : Dir} {log : List Event} {first activeStart : Nat}
    (h : dir.Ok log first activeStart) : loadLatestSnapshot dir = .ok none ∨
      ∃ snap covered, loadLatestSnapshot dir = .ok (some (snap, covered)) ∧ SnapshotOk log snap covered := by
  unfold loadLatestSnapshot
  cases hn : newestSnapshot dir.snapshots with
  | none => exact Or.inl rfl
  | some s =>
    obtain ⟨snap, hs, hok⟩ := h.snapshots s (newestSnapshot_mem hn)
    obtain ⟨name, content⟩ := s
    obtain rfl : content = .ok ⟨name, snap⟩ := hs
    exact Or.inr ⟨snap, name, rfl, hok⟩

/-- Snapshot and tail: the skipped events are exactly those the snapshot covers. -/
theorem snapshot_then_tail {log : List Event} {snap : EngineSnapshot} {covered first : Nat}
    (h : SnapshotOk log snap covered) (hle : first = 0 ∨ first ≤ covered) :
    ((Engine.fromSnapshot snap).applyReplayedEvents ((log.drop first).drop (covered - first))).logged =
      (Engine.replayPartition 0 log).logged := by
  have hdrop : (log.drop first).drop (covered - first) = log.drop covered := by
    rw [List.drop_drop]
    congr 1
    omega
  rw [hdrop, Engine.logged_applyReplayedEvents_congr h.2, ← Engine.replayPartition_append, List.take_append_drop]

/-- What an accepted recovery returns: the replay of the log, and a directory and a writer that satisfy
the invariant again. -/
structure RecoveredOk (log : List Event) (activeStart : Nat) (engine : Engine) (survey : SegRecovery)
    (dir : Dir) : Prop where
  engine : engine.logged = (Engine.replayPartition 0 log).logged
  total : survey.totalEvents = log.length
  events : survey.events = log.drop survey.firstIndex
  shared : survey.shared.Tracks dir.toFiles log activeStart
  layout : ∃ first, dir.Ok log first activeStart

theorem recover_ok {dir dir' : Dir} {log : List Event} {first activeStart : Nat} {written : Bool} {engine : Engine}
    {survey : SegRecovery} (h : dir.Ok log first activeStart)
    (hr : Seglog.recover written dir = .ok (engine, survey, dir')) :
    RecoveredOk log activeStart engine survey dir' := by
  have hfirst : (surveyed dir.toFiles).firstIndex = first := h.files.recoveredFirstIndex_eq
  have htotal : (surveyed dir.toFiles).totalEvents = log.length := h.files.total_eq
  have hevents : (surveyed dir.toFiles).events = log.drop first := h.files.survivingRecords_eq
  have hshared : (surveyed dir.toFiles).shared.Tracks dir.toFiles log activeStart := by
    refine ⟨h.files.total_eq, h.files.recoveredActiveStart_eq, ?_⟩
    simp [surveyed, readSealed]
  -- every branch returns the survey (up to `fresh`), so only the engine and the directory differ
  have done : ∀ (engine : Engine) (fresh : Bool) (dir' : Dir), dir'.toFiles.sealed = dir.toFiles.sealed →
      engine.logged = (Engine.replayPartition 0 log).logged → dir'.Ok log first activeStart →
      RecoveredOk log activeStart engine { surveyed dir.toFiles with fresh } dir' := by
    intro engine fresh dir' hsealed hengine hdir'
    refine ⟨hengine, htotal, ?_, ⟨hshared.total, hshared.start, ?_⟩, first, hdir'⟩
    · show (surveyed dir.toFiles).events = log.drop (surveyed dir.toFiles).firstIndex
      rw [hevents, hfirst]
    · rw [hsealed]
      exact hshared.segments
  unfold Seglog.recover at hr
  rcases loadLatestSnapshot_ok h with hload | ⟨snap, covered, hload, hsnap⟩
  · rw [hload] at hr
    dsimp only at hr
    split at hr
    · rename_i hzero
      cases hr
      refine done _ _ dir rfl ?_ h
      rw [hevents, ← hfirst, hzero]
      rfl
    · -- no snapshot and a compacted prefix: only the cold archive can complete the log
      unfold reconstruct migrateByReplay at hr
      split at hr
      · cases hr
      · cases hr
      · rename_i engine' hmig
        split at hmig
        · cases hmig
        · cases hmig
        · rename_i cold hcold
          cases hmig
          cases hr
          have hfull : cold ++ (surveyed dir.toFiles).events = log := by
            rw [hevents, ← hfirst]
            exact fullColdPrefix_sound h.files.cold hcold
          have hengine : (Engine.replayPartition 0 (cold ++ (surveyed dir.toFiles).events)).logged =
              (Engine.replayPartition 0 log).logged := by
            rw [hfull]
          refine done _ (surveyed dir.toFiles).fresh _ ?_ hengine ?_
          · split <;> rfl
          · split
            · refine ⟨h.files.prune _, ?_⟩
              intro s hs
              rcases List.mem_cons.1 hs with rfl | hs
              · rw [htotal]
                exact ⟨_, rfl, snapshotOk_of_engine hengine⟩
              · exact h.snapshots s (List.mem_filter.1 hs).1
            · exact h
  · rw [hload] at hr
    dsimp only at hr
    split at hr
    · cases hr
    · rename_i hguard
      rw [hfirst] at hguard
      have htail := snapshot_then_tail hsnap (Nat.eq_zero_or_pos first |>.imp_right (by omega))
      cases hr
      refine done _ (surveyed dir.toFiles).fresh dir rfl ?_ h
      rw [hevents, hfirst]
      split
      · exact htail
      · rename_i hskip
        rw [List.drop_eq_nil_of_le (Nat.le_of_not_lt hskip)] at htail
        exact htail

/-! ## Steps and runs -/

theorem Node.Inv.step {n n' : Node} {op : Op} (h : n.Inv) (hop : KeepsPosition n op) (hs : Step n op n') :
    n'.Inv := by
  obtain ⟨first, activeStart, hdir, hwriter⟩ := h
  cases hs with
  | @append w events engine hw happly =>
    have hok := hwriter w hw
    refine ⟨first, activeStart, ⟨hdir.files.append events, ?_⟩, ?_⟩
    · intro s hs
      obtain ⟨snap, hsnap, hcov⟩ := hdir.snapshots s hs
      exact ⟨snap, hsnap, hcov.extend events⟩
    · rintro _ ⟨⟩
      refine ⟨?_, ⟨?_, hok.shared.start, hok.shared.segments⟩, fun snap covered ht => (hok.taken _ _ ht).extend events⟩
      · rw [happly, Engine.logged_applyReplayedEvents_congr hok.engine, Engine.replayPartition_append]
      · show w.shared.totalEvents + events.length = (n.log ++ events).length
        rw [hok.shared.total, List.length_append]
  | @sealActive w writes hw =>
    have hok := hwriter w hw
    obtain ⟨start', hf, ht, -⟩ := tracks_sealSegment writes hdir.files hok.shared
    refine ⟨first, start', ⟨hf, hdir.snapshots⟩, ?_⟩
    rintro _ ⟨⟩
    exact ⟨hok.engine, ht, hok.taken⟩
  | @sealInterrupted w hw hne =>
    have hok := hwriter w hw
    have hlt : activeStart < n.log.length := by
      have := hdir.files.activeStart_le
      rw [hok.shared.total, hok.shared.start] at hne
      omega
    refine ⟨first, n.log.length, ⟨?_, hdir.snapshots⟩, fun _ hnone => nomatch hnone⟩
    rw [hok.shared.start]
    exact hdir.files.rename hlt _ _ _ _
  | @snapshotAndRotate w writes hw =>
    have hok := hwriter w hw
    obtain ⟨start', hf, ht, hstop⟩ := tracks_sealSegment writes hdir.files hok.shared
    refine ⟨first, start', ⟨hf, hdir.snapshots⟩, ?_⟩
    rintro _ ⟨⟩
    refine ⟨hok.engine, ht, ?_⟩
    rintro _ _ ⟨⟩
    rw [hstop]
    exact snapshotOk_of_engine hok.engine
  | @writeSnapshot w snap covered hw ht =>
    have hok := hwriter w hw
    refine ⟨first, activeStart, ⟨hdir.files, ?_⟩, ?_⟩
    · intro s hs
      rcases List.mem_cons.1 hs with rfl | hs
      · exact ⟨snap, rfl, hok.taken snap covered ht⟩
      · exact hdir.snapshots s (List.mem_filter.1 hs).1
    · rintro _ ⟨⟩
      exact ⟨hok.engine, hok.shared, fun _ _ hnone => nomatch hnone⟩
  | @archive w exported seg rest f hw hseg hle ha =>
    have hok := hwriter w hw
    -- the writer's first segment is the first file
    cases hsealed : n.dir.toFiles.sealed with
    | nil =>
      have := hok.shared.segments
      rw [hseg, hsealed] at this
      exact absurd this (by simp)
    | cons p ps =>
      have hsegs := hok.shared.segments
      rw [hseg, hsealed, List.map_cons, List.map_cons] at hsegs
      obtain ⟨hstart, hstop⟩ := Prod.mk.inj (List.cons.inj hsegs).1
      rw [hstart, hstop] at ha
      obtain ⟨hf, hcold⟩ := archive_spec hdir.files.tiles hdir.files.first_le hdir.files.cold hsealed ha
      have hfiles : f.Holds n.log first activeStart := by
        rw [hf]
        exact ⟨hdir.files.tiles, hdir.files.first_le, hdir.files.active, hdir.files.position, hcold⟩
      refine ⟨first, activeStart, ⟨hfiles, hdir.snapshots⟩, fun w' hw' => ?_⟩
      have hok' := hwriter w' hw'
      refine ⟨hok'.engine, ⟨hok'.shared.total, hok'.shared.start, ?_⟩, hok'.taken⟩
      show _ = f.sealed.map _
      rw [hf]
      exact hok'.shared.segments
  | @compact w exported flags hw =>
    have hok := hwriter w hw
    obtain ⟨hflags, hposition⟩ := hop
    unfold Seglog.compact
    rw [compactFaulty_eq _ _ _ hflags]
    obtain ⟨k, hk⟩ := @compactLoop_spec _ (fun seg => seg.stop ≤ w.watermark exported) _
      removesSealed_removeSealed _ _ flags.length n.dir.toFiles w.shared.sealed first hdir.files.tiles hdir.files.first_le
      hdir.files.cold hok.shared.segments
    have hlen : w.shared.sealed.length = n.dir.toFiles.sealed.length := by
      simpa using congrArg List.length hok.shared.segments
    have hhead : n.dir.toFiles.sealed ≠ [] → n.dir.toFiles.sealed.drop k = [] →
        n.dir.toFiles.head = some activeStart := by
      intro hne hnil
      have hkall : w.shared.sealed.length ≤ k := hlen ▸ List.drop_eq_nil_iff.1 hnil
      have hdel := hk.deleted
      rw [List.take_of_length_le hkall] at hdel
      rw [← hok.shared.start]
      refine hposition w hw ?_ (fun seg hseg => by simpa using hdel seg hseg) (Nat.le_trans hkall hk.bound)
      intro hnil'
      rw [hnil'] at hlen
      exact hne (List.length_eq_zero_iff.1 hlen.symm)
    obtain ⟨first', -, hf⟩ := hdir.files.compacted hk hhead
    refine ⟨first', activeStart, ⟨hf, hdir.snapshots⟩, ?_⟩
    rintro _ ⟨⟩
    refine ⟨hok.engine, ⟨hok.shared.total, hok.shared.start, ?_⟩, hok.taken⟩
    show (compactLoop _ _ _ _ _).2.map _ = (compactLoop _ _ _ _ _).1.sealed.map _
    rw [hk.segments, hk.files, List.map_drop, List.map_drop, hok.shared.segments]
  | prune =>
    refine ⟨first, activeStart, ⟨hdir.files.prune _, hdir.snapshots⟩, fun w hw => ?_⟩
    have hok := hwriter w hw
    exact ⟨hok.engine, ⟨hok.shared.total, hok.shared.start, hok.shared.segments⟩, hok.taken⟩
  | crash => exact ⟨first, activeStart, hdir, fun _ hnone => nomatch hnone⟩
  | @recover written engine survey dir hr =>
    have hok := recover_ok hdir hr
    obtain ⟨first', hdir'⟩ := hok.layout
    refine ⟨first', activeStart, hdir', ?_⟩
    rintro _ ⟨⟩
    exact ⟨hok.engine, hok.shared, fun _ _ hnone => nomatch hnone⟩

theorem Node.Inv.run {n : Node} (h : Reachable KeepsPosition n) : n.Inv := by
  induction h with
  | init =>
    exact ⟨0, 0, ⟨Files.Holds.empty, fun _ hs => nomatch hs⟩, fun _ hnone => nomatch hnone⟩
  | step op _ hop hs ih => exact ih.step hop hs

/-- **Recovery returns the whole log.** In every run of appends, seals with any best-effort head write
lost, snapshots, archives, compactions, prunes, crashes and restarts in which no compaction fails to remove a segment or
removes the last sealed one under a missing or stale head, recovery fails or returns the replay of everything
ever appended. -/
theorem recover_sound_of_head_kept {n : Node} (h : Reachable KeepsPosition n) : n.Sound := by
  intro written engine survey dir hr
  obtain ⟨first, activeStart, hdir, -⟩ := Node.Inv.run h
  have hok := recover_ok hdir hr
  exact ⟨hok.engine, hok.total, hok.events⟩

/-- A compaction down to the active segment whose head reached the disk, one more append, a crash. -/
theorem recover_sound_after_full_compaction :
    ∃ n, Reachable KeepsPosition n ∧ n.dir.sealed = [] ∧ n.log.length = 2 ∧ n.writer = none ∧ n.Sound := by
  have hinit : Reachable KeepsPosition {} := .init
  have hopen := hinit.step (.recover false) trivial (.recover rfl)
  have hfirst := hopen.step (.append [.deploymentCreated 1] _) trivial (.append rfl rfl)
  have hrotate := hfirst.step (.snapshotAndRotate ⟨true, true, true⟩) trivial
    (.snapshotAndRotate rfl)
  have hwrite := hrotate.step .writeSnapshot trivial (.writeSnapshot rfl rfl)
  have hcompact := hwrite.step (.compact 1 [true]) ⟨by decide, by rintro _ ⟨⟩ _ _ _; rfl⟩ (.compact rfl)
  have hsecond := hcompact.step (.append [.deploymentCreated 2] _) trivial (.append rfl rfl)
  have hcrash := hsecond.step .crash trivial .crash
  exact ⟨_, hcrash, rfl, rfl, rfl, recover_sound_of_head_kept hcrash⟩

/-- The head write of the only seal is lost and compaction then removes the segment it sealed: recovery
takes the active segment for the start of the log and skips the acknowledged event in it. -/
theorem recover_skips_events_after_lost_head : ¬ ∀ n, Reachable Unrestricted n → n.Sound := by
  intro h
  have hinit : Reachable Unrestricted {} := .init
  have hopen := hinit.step (.recover false) trivial (.recover rfl)
  have hfirst := hopen.step (.append [.deploymentCreated 1, .deploymentCreated 2] _) trivial (.append rfl rfl)
  have hrotate := hfirst.step (.snapshotAndRotate ⟨true, false, true⟩) trivial
    (.snapshotAndRotate rfl)
  have hwrite := hrotate.step .writeSnapshot trivial (.writeSnapshot rfl rfl)
  have hcompact := hwrite.step (.compact 2 [true]) trivial (.compact rfl)
  have hsecond := hcompact.step (.append [.deploymentCreated 3] _) trivial (.append rfl rfl)
  have hcrash := hsecond.step .crash trivial .crash
  obtain ⟨-, htotal, -⟩ := h _ hcrash false _ _ _ rfl
  exact absurd htotal (by decide)

end Seglog

end NanoBpm
