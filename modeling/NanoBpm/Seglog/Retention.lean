import NanoBpm.Seglog.MultiRuns

/-!
# What compaction and pruning leave readable (`seglog.rs:1249-1285`, `:1356-1372`, `:1556-1600`, `:2212-2252`)

A compaction copies covered segments into the cold archive and then deletes them; pruning drops cold files below
a floor. Here every file operation of the two may fail, and a run may stop after any of them. What is measured is
the log from the cold floor on: read the cold files up to where the hot log begins, then the hot log.

The single-partition journal and the shared one differ in the test a segment has to pass, in the sidecars a
removal takes along and in what a restart reads back. `Kind` holds these differences; the run is the same. A
record of the single-partition journal carries the tag 0.
-/

namespace NanoBpm

namespace Seglog

open Tiling

variable {ρ : Type}

/-! ## Pruning with failing removals -/

/-- The loop of `prune_cold_archive`, one flag per `remove_file`; a crash, or a failed listing, ends the flags. -/
def pruneFaulty (keepFrom : Nat) : List Bool → List (ColdFile ρ) → List (ColdFile ρ)
  | [], cold => cold
  | _ :: _, [] => []
  | removed :: flags, c :: cold =>
    if c.stop ≤ keepFrom then
      if removed then pruneFaulty keepFrom flags cold else c :: pruneFaulty keepFrom flags cold
    else c :: cold

theorem pruneFaulty_sublist (keepFrom : Nat) (flags : List Bool) (cold : List (ColdFile ρ)) :
    (pruneFaulty keepFrom flags cold).Sublist cold := by
  induction flags generalizing cold with
  | nil => exact List.Sublist.refl _
  | cons b bs ih =>
    cases cold with
    | nil => exact List.Sublist.refl _
    | cons c cs =>
      unfold pruneFaulty
      split
      · split
        · exact (ih cs).cons c
        · exact (ih cs).cons_cons c
      · exact List.Sublist.refl _

/-- Whatever is removed ends at or before the floor. -/
theorem filter_pruneFaulty {keepFrom floor : Nat} (h : keepFrom ≤ floor) (flags : List Bool)
    (cold : List (ColdFile ρ)) :
    (pruneFaulty keepFrom flags cold).filter (floor < ·.stop) = cold.filter (floor < ·.stop) := by
  induction flags generalizing cold with
  | nil => rfl
  | cons b bs ih =>
    cases cold with
    | nil => rfl
    | cons c cs =>
      unfold pruneFaulty
      split
      · rename_i hle
        have hneg : ∀ cs : List (ColdFile ρ), (c :: cs).filter (floor < ·.stop) = cs.filter (floor < ·.stop) := by
          intro cs
          rw [List.filter_cons, if_neg]
          simp only [decide_eq_true_eq]
          omega
        rw [hneg]
        split
        · exact ih cs
        · rw [hneg]
          exact ih cs
      · rfl

/-! ## Reading the archive and the hot log -/

/-- The cold records above the floor and below the hot log. -/
def coldRun (f : Files ρ) (floor : Nat) : List ρ :=
  (f.cold.filter fun c => floor < c.stop && c.stop ≤ recoveredFirstIndex f).flatMap (·.records)

/-- The records from index `floor` on, cold ones first. -/
def readFrom (f : Files ρ) (floor : Nat) : List ρ :=
  (coldRun f floor ++ survivingRecords f).drop (floor - (recoveredFirstIndex f - (coldRun f floor).length))

def coldPieces (floor : Nat) (cold : List (ColdFile ρ)) : List (Nat × List ρ) :=
  (cold.filter (floor < ·.stop)).map fun c => (c.start, c.records)

/-- The cold files above the floor follow one another up to the hot log; the last of them may be a copy of the
hot log's first segment, whose removal has not happened. -/
structure ColdTiles (f : Files ρ) (log : List ρ) (first floor : Nat) : Prop where
  shape : ∀ c ∈ f.cold, c.start < c.stop ∧
    (c.stop ≤ first ∨ ∃ p ps, f.sealed = p :: ps ∧ c.start = first ∧ c.stop = first + p.2.length)
  kept : ∃ start stop, start ≤ floor ∧ start ≤ first ∧ first ≤ stop ∧ Tiles log start (coldPieces floor f.cold) stop

namespace ColdTiles

variable {f : Files ρ} {log : List ρ} {first activeStart floor : Nat}

theorem empty : ColdTiles ({} : Files ρ) [] 0 0 where
  shape := fun _ hc => nomatch hc
  kept := ⟨0, 0, Nat.le_refl _, Nat.le_refl _, Nat.le_refl _, rfl, Nat.le_refl _⟩

/-- The records of `coldRun` tile up to the hot log. -/
theorem run_tiles (h : ColdTiles f log first floor) (hf : f.Holds log first activeStart) :
    ∃ start, start ≤ floor ∧ start ≤ log.length ∧
      ∃ pieces, coldRun f floor = pieces.flatMap (·.2) ∧ Tiles log start pieces first := by
  obtain ⟨start, stop, hfloor, hfirst, hstop, ht⟩ := h.kept
  have hlen : start ≤ log.length := Nat.le_trans hfirst hf.first_le
  refine ⟨start, hfloor, hlen, (coldPieces floor f.cold).filter (fun p => p.1 + p.2.length ≤ first), ?_, ?_⟩
  · rw [coldRun, hf.recoveredFirstIndex_eq, coldPieces, List.filter_map, List.flatMap_map, List.filter_filter]
    congr 1
    refine List.filter_congr fun c hc => ?_
    obtain ⟨hpiece, -⟩ := hf.cold c hc
    simp only [Function.comp_apply, hpiece.2, Bool.and_comm]
  · refine ht.filter_stop_le hlen hfirst hstop fun p hp => ?_
    obtain ⟨c, hc, rfl⟩ := List.mem_map.1 hp
    have hmem := (List.mem_filter.1 hc).1
    obtain ⟨hpiece, -⟩ := hf.cold c hmem
    rcases (h.shape c hmem).2 with hle | ⟨_, _, -, hstart, -⟩
    · exact Or.inl (by rw [hpiece.2]; exact hle)
    · exact Or.inr (Nat.le_of_eq hstart.symm)

/-- Every record from the floor on is read once, in order. -/
theorem readFrom_eq (h : ColdTiles f log first floor) (hf : f.Holds log first activeStart) :
    readFrom f floor = log.drop floor := by
  obtain ⟨start, hfloor, hlen, pieces, hrun, ht⟩ := h.run_tiles hf
  have hstart : first - (coldRun f floor).length = start := by
    have := ht.length_flatMap hlen
    rw [← hrun] at this
    omega
  rw [readFrom, hf.recoveredFirstIndex_eq, hstart, hf.survivingRecords_eq, hrun, ht.flatMap_append, List.drop_drop]
  congr 1
  omega

/-- The log grows, and segments are closed, behind the first one. -/
theorem extend (h : ColdTiles f log first floor) (hf : f.Holds log first activeStart) {f' : Files ρ}
    (hcold : f'.cold = f.cold) (hsealed : f.sealed <+: f'.sealed) (more : List ρ) :
    ColdTiles f' (log ++ more) first floor := by
  obtain ⟨start, stop, hfloor, hfirst, hstop, ht⟩ := h.kept
  refine ⟨fun c hc => ?_, start, stop, hfloor, hfirst, hstop, ?_⟩
  · obtain ⟨hlt, hle | ⟨p, ps, hp, hstart, hend⟩⟩ := h.shape c (hcold ▸ hc)
    · exact ⟨hlt, Or.inl hle⟩
    · obtain ⟨rest, hrest⟩ := hsealed
      exact ⟨hlt, Or.inr ⟨p, ps ++ rest, by rw [← hrest, hp]; rfl, hstart, hend⟩⟩
  · rw [hcold]
    exact ht.extend (Nat.le_trans hfirst hf.first_le) more

theorem prune (h : ColdTiles f log first floor) (hf : f.Holds log first activeStart) (keepFrom : Nat)
    (flags : List Bool) :
    ColdTiles { f with cold := pruneFaulty keepFrom flags f.cold } log first (max floor keepFrom) := by
  obtain ⟨start, stop, hfloor, hfirst, hstop, ht⟩ := h.kept
  have hlen : start ≤ log.length := Nat.le_trans hfirst hf.first_le
  refine ⟨fun c hc => h.shape c ((pruneFaulty_sublist keepFrom flags f.cold).subset hc), ?_⟩
  have hpieces : coldPieces (max floor keepFrom) (pruneFaulty keepFrom flags f.cold) =
      (coldPieces floor f.cold).filter fun p => max floor keepFrom < p.1 + p.2.length := by
    rw [coldPieces, filter_pruneFaulty (Nat.le_max_right _ _), coldPieces, List.filter_map, List.filter_filter]
    congr 1
    refine List.filter_congr fun c hc => ?_
    obtain ⟨hpiece, -⟩ := hf.cold c hc
    simp only [Function.comp_apply, hpiece.2]
    by_cases hlt : max floor keepFrom < c.stop
    · have : floor < c.stop := by omega
      simp [hlt, this]
    · simp [hlt]
  obtain ⟨m, hm, hmlen, htm⟩ := ht.filter_lt_stop hlen (max floor keepFrom)
  show ∃ start stop, _ ∧ _ ∧ _ ∧ Tiles log start (coldPieces (max floor keepFrom) (pruneFaulty keepFrom flags f.cold)) stop
  rw [hpieces]
  by_cases hmfirst : m ≤ first
  · exact ⟨m, stop, by omega, hmfirst, hstop, htm⟩
  · -- every file up to the hot log is below the floor, and so is the copy of its first segment
    have hnil : (coldPieces floor f.cold).filter (fun p => max floor keepFrom < p.1 + p.2.length) = [] := by
      cases hp : (coldPieces floor f.cold).filter (fun p => max floor keepFrom < p.1 + p.2.length) with
      | nil => rfl
      | cons p ps =>
        rw [hp] at htm
        have hmem : p ∈ coldPieces floor f.cold := (List.mem_filter.1 (hp ▸ List.mem_cons_self)).1
        obtain ⟨c, hc, rfl⟩ := List.mem_map.1 hmem
        obtain ⟨hlt, hshape⟩ := h.shape c (List.mem_filter.1 hc).1
        have hstart : c.start = m := htm.head
        rcases hshape with hle | ⟨_, _, -, hs, -⟩ <;> omega
    rw [hnil]
    exact ⟨first, first, by omega, Nat.le_refl _, Nat.le_refl _, rfl, hf.first_le⟩

theorem insertCold_eq_append {c : ColdFile ρ} {ds : List (ColdFile ρ)} (h : ∀ d ∈ ds, d.start ≤ c.start) :
    insertCold c ds = ds ++ [c] := by
  induction ds with
  | nil => rfl
  | cons d ds ih =>
    obtain ⟨hd, hds⟩ := List.forall_mem_cons.1 h
    rw [insertCold, if_pos hd, ih hds]
    rfl

/-- Archiving the first sealed segment adds its copy behind the cold files, unless it is there. -/
theorem archive (h : ColdTiles f log first floor) (ht : Tiles log first f.sealed activeStart) (hok : ColdOk log f.cold)
    {p : Nat × List ρ} {ps : List (Nat × List ρ)} (hp : f.sealed = p :: ps) {f' : Files ρ}
    (ha : archiveColdSegment f p.1 (p.1 + p.2.length) = some f') :
    ColdTiles f' log first floor ∧ ∃ c ∈ f'.cold, c.start = first ∧ c.stop = first + p.2.length := by
  rw [hp] at ht
  obtain ⟨hstart, hne, hpre, -⟩ := ht
  have hpos : 0 < p.2.length := List.length_pos_iff.2 hne
  unfold archiveColdSegment at ha
  split at ha
  · -- an interrupted compaction left the copy
    rename_i hany
    obtain rfl := Option.some.inj ha
    obtain ⟨c, hc, heq⟩ := List.any_eq_true.1 hany
    simp only [Bool.and_eq_true, beq_iff_eq] at heq
    exact ⟨h, c, hc, by omega, by omega⟩
  · rename_i hany
    have hfind : f.sealed.find? (·.1 == p.1) = some p := by
      rw [hp, List.find?_cons_of_pos (by simp)]
    rw [hfind, Option.map_some] at ha
    obtain rfl := Option.some.inj ha
    have hall : ∀ c ∈ f.cold, c.stop ≤ first := by
      intro c hc
      rcases (h.shape c hc).2 with hle | ⟨q, qs, hq, hs, he⟩
      · exact hle
      · obtain ⟨rfl, rfl⟩ := List.cons.inj (hp.symm.trans hq)
        refine absurd (List.any_eq_true.2 ⟨c, hc, ?_⟩) hany
        simp only [Bool.and_eq_true, beq_iff_eq]
        omega
    have hcold : insertCold ⟨p.1, p.1 + p.2.length, p.2⟩ f.cold = f.cold ++ [⟨p.1, p.1 + p.2.length, p.2⟩] := by
      refine insertCold_eq_append fun d hd => ?_
      have hlt := (h.shape d hd).1
      have hle := hall d hd
      show d.start ≤ p.1
      omega
    refine ⟨⟨?_, ?_⟩, ⟨p.1, p.1 + p.2.length, p.2⟩, ?_, hstart, by rw [hstart]⟩
    · intro c hc
      rw [show _ = f.cold ++ [_] from hcold] at hc
      rcases List.mem_append.1 hc with hc | hc
      · exact ⟨(h.shape c hc).1, Or.inl (hall c hc)⟩
      · obtain rfl := List.mem_singleton.1 hc
        exact ⟨Nat.lt_add_of_pos_right hpos, Or.inr ⟨p, ps, hp, hstart, by rw [hstart]⟩⟩
    · -- the cold files end where the segment begins
      obtain ⟨start, stop, hfloor, hfirst, hstop, htiles⟩ := h.kept
      obtain rfl : stop = first := by
        have hlast := htiles.last
        cases hl : (coldPieces floor f.cold).getLast? with
        | none =>
          rw [hl] at hlast
          change start = stop at hlast
          omega
        | some q =>
          rw [hl] at hlast
          change q.1 + q.2.length = stop at hlast
          obtain ⟨c, hc, rfl⟩ := List.mem_map.1 (List.mem_of_getLast? hl)
          have hmem := (List.mem_filter.1 hc).1
          have hle := hall c hmem
          have hend := (hok c hmem).1.2
          dsimp only at hlast
          omega
      show ∃ start stop', _ ∧ _ ∧ _ ∧ Tiles log start (coldPieces floor (insertCold _ f.cold)) stop'
      rw [hcold, coldPieces, List.filter_append, List.map_append]
      by_cases hkeep : floor < stop + p.2.length
      · rw [List.filter_cons_of_pos (by simpa [hstart] using hkeep), List.filter_nil, List.map_singleton, hstart]
        exact ⟨start, _, hfloor, hfirst, Nat.le_add_right _ _, htiles.concat hne hpre⟩
      · rw [List.filter_cons_of_neg (by simpa [hstart] using hkeep), List.filter_nil, List.map_nil, List.append_nil]
        exact ⟨start, stop, hfloor, hfirst, Nat.le_refl _, htiles⟩
    · show _ ∈ insertCold _ f.cold
      rw [hcold]
      exact List.mem_append_right _ List.mem_cons_self

/-- The archived segment goes; the hot log begins behind it. -/
theorem remove (h : ColdTiles f log first floor) (ht : Tiles log first f.sealed activeStart) (hle : first ≤ log.length)
    (hok : ColdOk log f.cold) {p : Nat × List ρ} {ps : List (Nat × List ρ)} (hp : f.sealed = p :: ps)
    (hcopy : ∃ c ∈ f.cold, c.start = first ∧ c.stop = first + p.2.length) {f' : Files ρ} (hcold : f'.cold = f.cold) :
    ColdTiles f' log (first + p.2.length) floor := by
  have hlen : first + p.2.length ≤ log.length := by
    rw [hp] at ht
    exact add_length_le ht.2.2.1 hle
  obtain ⟨copy, hmem, hs, he⟩ := hcopy
  refine ⟨fun c hc => ?_, ?_⟩
  · obtain ⟨hlt, hle | ⟨q, qs, hq, hstart, hend⟩⟩ := h.shape c (hcold ▸ hc)
    · exact ⟨hlt, Or.inl (by omega)⟩
    · obtain ⟨rfl, rfl⟩ := List.cons.inj (hp.symm.trans hq)
      exact ⟨hlt, Or.inl (by omega)⟩
  · obtain ⟨start, stop, hfloor, hfirst, hstop, ht⟩ := h.kept
    rw [hcold]
    by_cases hkeep : floor < copy.stop
    · have hpiece : (copy.start, copy.records) ∈ coldPieces floor f.cold :=
        List.mem_map.2 ⟨copy, List.mem_filter.2 ⟨hmem, by simpa using hkeep⟩, rfl⟩
      have hend := ht.stop_le _ hpiece
      have := (hok copy hmem).1.2
      dsimp only at hend
      exact ⟨start, stop, hfloor, by omega, by omega, ht⟩
    · -- the copy is below the floor, and with it every other cold file
      have hnil : coldPieces floor f.cold = [] := by
        rw [coldPieces, List.map_eq_nil_iff, List.filter_eq_nil_iff]
        intro c hc
        simp only [decide_eq_true_eq]
        obtain ⟨-, hle | ⟨q, qs, hq, -, hend⟩⟩ := h.shape c hc
        · omega
        · obtain ⟨rfl, rfl⟩ := List.cons.inj (hp.symm.trans hq)
          omega
      rw [hnil]
      exact ⟨first + p.2.length, first + p.2.length, by omega, Nat.le_refl _, Nat.le_refl _, rfl, hlen⟩

/-- A compaction without a failed removal. -/
theorem compacted {deletable : SealedSeg → Bool} {remove : Files ρ → Nat → Files ρ} (hremove : RemovesSealed remove)
    (archives : Nat) :
    ∀ (f : Files ρ) (sealed : List SealedSeg) (first : Nat), Tiles log first f.sealed activeStart →
      first ≤ log.length → ColdOk log f.cold →
      sealed.map (fun s => (s.start, s.stop)) = f.sealed.map (fun p => (p.1, p.1 + p.2.length)) →
      ColdTiles f log first floor →
      ∃ first', Tiles log first' (compactLoop deletable remove archives f sealed).1.sealed activeStart ∧
        ColdTiles (compactLoop deletable remove archives f sealed).1 log first' floor := by
  induction archives with
  | zero => exact fun f sealed first ht _ _ _ h => ⟨first, ht, h⟩
  | succ n ih =>
    intro f sealed first ht hfirst hok hseg h
    cases sealed with
    | nil => exact ⟨first, ht, h⟩
    | cons seg rest =>
      unfold compactLoop
      split
      · split
        · exact ⟨first, ht, h⟩
        · rename_i f' ha
          cases hps : f.sealed with
          | nil =>
            rw [hps] at hseg
            exact absurd hseg (by simp)
          | cons p ps =>
            rw [hps, List.map_cons, List.map_cons] at hseg
            obtain ⟨hhead, htail⟩ := List.cons.inj hseg
            obtain ⟨hstart, hstop⟩ := Prod.mk.inj hhead
            rw [hstart, hstop] at ha
            obtain ⟨hf', hok'⟩ := archive_spec ht hfirst hok hps ha
            obtain ⟨harch, hcopy⟩ := h.archive ht hok hps ha
            have hsealed' : f'.sealed = f.sealed := by rw [hf']
            have hrest : (remove f' seg.start).sealed = ps := by
              rw [hremove.sealed, hsealed', hstart, hps]
              exact filter_ne_head (hps ▸ ht)
            have hnext := harch.remove (hsealed'.symm ▸ ht) hfirst hok' (hsealed'.trans hps) hcopy
              (hremove.cold f' seg.start)
            rw [hps] at ht
            refine ih (remove f' seg.start) rest (first + p.2.length) (hrest ▸ ht.2.2.2)
              (add_length_le ht.2.2.1 hfirst) ?_ (hrest ▸ htail) hnext
            rw [hremove.cold]
            exact hok'
      · exact ⟨first, ht, h⟩

end ColdTiles

/-! ## The run -/

inductive Kind where
  | single
  | multi (T : Topology)

namespace Kind

def numPartitions : Kind → Nat
  | .single => 1
  | .multi T => T.numPartitions

/-- The partitions that write into this journal. -/
def owned : Kind → List Nat
  | .single => [0]
  | .multi T => T.owned

/-- The test of `compact`, with its watermark `covered.min(exported)`, and of `compact_multi`. -/
def deletable : Kind → List Nat → List Nat → SealedSeg → Bool
  | .single, covered, exported, seg => seg.stop ≤ min (covered.getD 0 0) (exported.getD 0 0)
  | .multi _, covered, exported, seg => deletableMulti covered exported seg

def remove : Kind → Files Tagged → Nat → Files Tagged
  | .single => Files.removeSealed
  | .multi _ => removeWithSidecar

def deltas : Kind → Nat → Nat → List Nat
  | .single, _, _ => []
  | .multi T, p, count => batchDeltas T.numPartitions p count

/-- What `recover` and `recover_multi` read back of the writer's state. -/
def reopened : Kind → Files Tagged → SegShared
  | .single, f =>
    { totalEvents := recoveredActiveStart f + f.active.length
      activeStart := recoveredActiveStart f
      sealed := readSealed f }
  | .multi T, f => (surveyedMulti T.numPartitions f).shared

end Kind

/-- No entry of `a` is past the one of `b`. -/
def Below (a b : List Nat) : Prop := ∀ p, a.getD p 0 ≤ b.getD p 0

structure LogNode where
  files : Files Tagged := {}
  writer : Option SegShared := none
  log : List Tagged := []
  /-- The counts the durable snapshots cover, by partition. -/
  covered : List Nat := []
  /-- The exported positions of the read-model shards, by partition. -/
  exported : List Nat := []
  /-- The highest floor the cold archive was pruned to. -/
  floor : Nat := 0

inductive LogOp where
  | append (p : Nat) (events : List Event)
  | sealActive (writes : SealWrites)
  | sealInterrupted (metaWritten : Bool)
  | snapshot (covered : List Nat)
  | exportEvents (exported : List Nat)
  /-- The archive write of a compaction whose removal has not happened yet. -/
  | archive (covered exported : List Nat)
  | compact (covered exported : List Nat) (flags : List Bool)
  | prune (keepFrom : Nat) (flags : List Bool)
  | crash
  | recover

variable (K : Kind)

inductive LogStep : LogNode → LogOp → LogNode → Prop
  | append {n w p events} (hw : n.writer = some w) (hp : p ∈ K.owned) :
      LogStep n (.append p events)
        { n with
          files := n.files.append (events.map (p, ·))
          writer := some (w.append events.length (K.deltas p events.length))
          log := n.log ++ events.map (p, ·) }
  | sealActive {n w writes} (hw : n.writer = some w) :
      LogStep n (.sealActive writes)
        { n with files := (sealSegment writes n.files w).1, writer := some (sealSegment writes n.files w).2.1 }
  | sealInterrupted {n w metaWritten} (hw : n.writer = some w) (hne : w.totalEvents ≠ w.activeStart) :
      LogStep n (.sealInterrupted metaWritten)
        { n with files := n.files.rename w.activeStart w.perPartitionActiveStart metaWritten, writer := none }
  /-- A snapshot is durable; it covers what a partition has written by then, and no less than before. -/
  | snapshot {n covered} (hgrow : Below n.covered covered)
      (hle : ∀ p, covered.getD p 0 ≤ (eventsOf p n.log).length) :
      LogStep n (.snapshot covered) { n with covered }
  | exportEvents {n exported} (hgrow : Below n.exported exported)
      (hle : ∀ p, exported.getD p 0 ≤ (eventsOf p n.log).length) :
      LogStep n (.exportEvents exported) { n with exported }
  | archive {n w covered exported seg rest f} (hw : n.writer = some w) (hs : w.sealed = seg :: rest)
      (hdel : K.deletable covered exported seg = true)
      (ha : archiveColdSegment n.files seg.start seg.stop = some f) :
      LogStep n (.archive covered exported) { n with files := f }
  /-- The maintenance task passes what it snapshotted and what it read of the shards. -/
  | compact {n w covered exported flags} (hw : n.writer = some w) (hc : Below covered n.covered)
      (hx : Below exported n.exported) :
      LogStep n (.compact covered exported flags)
        { n with
          files := (compactFaulty (K.deletable covered exported) K.remove flags n.files w.sealed).1
          writer := some
            { w with sealed := (compactFaulty (K.deletable covered exported) K.remove flags n.files w.sealed).2 } }
  | prune {n keepFrom flags} :
      LogStep n (.prune keepFrom flags)
        { n with
          files := { n.files with cold := pruneFaulty keepFrom flags n.files.cold }
          floor := max n.floor keepFrom }
  | crash {n} : LogStep n .crash { n with writer := none }
  | recover {n} : LogStep n .recover { n with writer := some (K.reopened n.files) }

inductive LogReachable (ok : LogNode → LogOp → Prop) : LogNode → Prop
  | init : LogReachable ok {}
  | step {n n'} (op : LogOp) : LogReachable ok n → ok n op → LogStep K n op n' → LogReachable ok n'

/-! ## The condition -/

/-- A seal that creates the only sealed segment writes its sidecar, unless nothing precedes it. -/
def Kind.KeepsMeta (n : LogNode) (metaWritten : Bool) : Kind → Prop
  | .single => True
  | .multi _ => ∀ w, n.writer = some w → w.sealed = [] → w.totalEvents ≠ w.activeStart →
      metaWritten = true ∨ ∀ c ∈ w.perPartitionActiveStart, c = 0

/-- A compaction leaves a position behind: the head when it removes every sealed segment, and in the shared
journal the sidecar of what becomes the first segment, or the per-partition head. -/
def Kind.KeepsBoundary (n : LogNode) (covered exported : List Nat) (archives : Nat) : Kind → Prop
  | .single => ∀ w, n.writer = some w →
      let removed := (w.sealed.takeWhile (Kind.deletable .single covered exported)).take archives
      ∀ last, removed.getLast? = some last → removed.length = w.sealed.length → n.files.head = some w.activeStart
  | .multi T => ∀ w, n.writer = some w →
      let removed := (w.sealed.takeWhile (Kind.deletable (.multi T) covered exported)).take archives
      ∀ last, removed.getLast? = some last →
        if removed.length = w.sealed.length then
          n.files.head = some w.activeStart ∧ n.files.ppHead = some w.perPartitionActiveStart
        else (n.files.ppMeta[last.stop]?).isSome

/-- No removal of a segment fails, and no best-effort file that a later boot relies on is lost. -/
def Kind.Keeps (n : LogNode) : LogOp → Prop
  | .sealActive writes => K.KeepsMeta n writes.ppMeta
  | .sealInterrupted metaWritten => K.KeepsMeta n metaWritten
  | .compact covered exported flags => (∀ b ∈ flags, b = true) ∧ K.KeepsBoundary n covered exported flags.length
  | _ => True

/-! ## The property -/

structure LogNode.Retains (n : LogNode) : Prop where
  /-- From the cold floor on every event is readable, once and in order. -/
  readable : readFrom n.files n.floor = n.log.drop n.floor
  /-- The hot log is the log from its first index on. -/
  hot : survivingRecords n.files = n.log.drop (recoveredFirstIndex n.files)
  /-- What is gone from the hot log is covered by every partition's snapshot and projected by every shard. -/
  needed : ∀ p < K.numPartitions,
    (eventsOf p (n.log.take (recoveredFirstIndex n.files))).length ≤ n.covered.getD p 0 ∧
      (eventsOf p (n.log.take (recoveredFirstIndex n.files))).length ≤ n.exported.getD p 0

/-- The operations a compaction consists of, and those that interrupt it. -/
def LogOp.isCompaction : LogOp → Bool
  | .archive .. | .compact .. | .crash | .recover => true
  | _ => false

/-! ## The invariant -/

/-- The per-partition counts of the shared journal are those of the log. -/
structure SharedCounts (T : Topology) (f : Files Tagged) (writer : Option SegShared) (log : List Tagged)
    (first activeStart : Nat) : Prop where
  dir : MultiDir.Ok T .any { toFiles := f } log first activeStart
  counters : ∀ w, writer = some w → MultiWriter.Ok T .any { shared := w } { toFiles := f } log activeStart
  ends : ∀ w, writer = some w → ∀ seg ∈ w.sealed,
    seg.stop ≤ log.length ∧ seg.perPartitionEnd = countsOf T.numPartitions (log.take seg.stop)

def Kind.Counts (f : Files Tagged) (writer : Option SegShared) (log : List Tagged) (first activeStart : Nat) :
    Kind → Prop
  | .single => True
  | .multi T => SharedCounts T f writer log first activeStart

structure LogNode.Inv (n : LogNode) (first activeStart : Nat) : Prop where
  files : n.files.Holds n.log first activeStart
  tags : ∀ r ∈ n.log, r.1 ∈ K.owned
  writer : ∀ w, n.writer = some w → w.Tracks n.files n.log activeStart
  counts : K.Counts n.files n.writer n.log first activeStart
  cold : ColdTiles n.files n.log first n.floor
  needed : ∀ p < K.numPartitions, (eventsOf p (n.log.take first)).length ≤ n.covered.getD p 0 ∧
    (eventsOf p (n.log.take first)).length ≤ n.exported.getD p 0

variable {K}

theorem LogNode.Inv.retains {n : LogNode} {first activeStart : Nat} (h : n.Inv K first activeStart) : n.Retains K := by
  have hfirst := h.files.recoveredFirstIndex_eq
  refine ⟨h.cold.readFrom_eq h.files, ?_, ?_⟩
  · rw [hfirst]
    exact h.files.survivingRecords_eq
  · rw [hfirst]
    exact h.needed

theorem Kind.removesSealed : ∀ K : Kind, RemovesSealed K.remove
  | .single => removesSealed_removeSealed
  | .multi _ => removesSealed_removeWithSidecar

/-! ## Counts -/

namespace SharedCounts

variable {T : Topology} {f : Files Tagged} {w : SegShared} {log : List Tagged} {first activeStart : Nat}

theorem append (h : SharedCounts T f (some w) log first activeStart) (p : Nat) (events : List Event) :
    SharedCounts T (f.append (events.map (p, ·))) (some (w.append events.length (batchDeltas T.numPartitions p events.length)))
      (log ++ events.map (p, ·)) first activeStart := by
  refine ⟨h.dir.append _, ?_, ?_⟩
  · rintro _ ⟨⟩
    exact (h.counters w rfl).append h.dir.files.activeStart_le p events
  · rintro _ ⟨⟩ seg hseg
    obtain ⟨hle, hends⟩ := h.ends w rfl seg hseg
    rw [List.take_append_of_le_length hle, List.length_append]
    exact ⟨Nat.le_trans hle (Nat.le_add_right _ _), hends⟩

theorem sealSegment (h : SharedCounts T f (some w) log first activeStart) (writes : SealWrites)
    (hkeep : w.sealed = [] → w.totalEvents ≠ w.activeStart →
      writes.ppMeta = true ∨ ∀ c ∈ w.perPartitionActiveStart, c = 0) :
    ∃ start', SharedCounts T (Seglog.sealSegment writes f w).1 (some (Seglog.sealSegment writes f w).2.1) log first
      start' := by
  have hok := h.counters w rfl
  obtain ⟨start', hdir, hwr, -⟩ := seal_ok writes h.dir hok hkeep
  refine ⟨start', hdir, ?_, ?_⟩
  · rintro _ ⟨⟩
    exact hwr [] _ [] fun _ he => (nomatch he)
  · rintro _ ⟨⟩ seg hseg
    unfold Seglog.sealSegment at hseg
    dsimp only at hseg
    split at hseg
    · exact h.ends w rfl seg hseg
    · rcases List.mem_append.1 hseg with hseg | hseg
      · exact h.ends w rfl seg hseg
      · obtain rfl := List.mem_singleton.1 hseg
        show w.totalEvents ≤ log.length ∧ w.perPartitionTotal = countsOf T.numPartitions (log.take w.totalEvents)
        have htotal := hok.shared.total
        dsimp only at htotal
        rw [htotal, List.take_length]
        exact ⟨Nat.le_refl _, hok.totals⟩

/-- Files that differ in the cold archive alone. -/
theorem withCold {writer : Option SegShared} (h : SharedCounts T f writer log first activeStart) {f' : Files Tagged}
    (hf : f' = { f with cold := f'.cold }) (hok : ColdOk log f'.cold) :
    SharedCounts T f' writer log first activeStart := by
  rw [hf]
  have hfiles := h.dir.files
  refine ⟨⟨⟨hfiles.tiles, hfiles.first_le, hfiles.active, hfiles.position, hok⟩, h.dir.base, h.dir.ppMeta, h.dir.combined⟩,
    fun w hw => ?_, h.ends⟩
  have hc := h.counters w hw
  exact ⟨⟨hc.shared.total, hc.shared.start, hc.shared.segments⟩, hc.totals, hc.starts, hc.taken⟩

theorem rename (h : SharedCounts T f (some w) log first activeStart) (hne : w.totalEvents ≠ w.activeStart)
    {metaWritten : Bool}
    (hkeep : w.sealed = [] → w.totalEvents ≠ w.activeStart →
      metaWritten = true ∨ ∀ c ∈ w.perPartitionActiveStart, c = 0) :
    SharedCounts T (f.rename w.activeStart w.perPartitionActiveStart metaWritten) none log first log.length := by
  have hok := h.counters w rfl
  have hlt : activeStart < log.length := by
    have := h.dir.files.activeStart_le
    have := hok.shared.total
    have := hok.shared.start
    dsimp only at *
    omega
  refine ⟨?_, fun _ hw => (nomatch hw), fun _ hw => (nomatch hw)⟩
  have hstart := hok.shared.start
  dsimp only at hstart
  rw [hstart]
  refine h.dir.rename hlt hok.starts (fun hnil => ?_) _ _
  have hlen := congrArg List.length hok.shared.segments
  change f.sealed = [] at hnil
  simp only [hnil, List.map_nil, List.length_nil, List.length_map] at hlen
  exact hkeep (List.length_eq_zero_iff.1 hlen) hne

/-- The segments a boot reads back carry the counts of the log at their ends. -/
theorem ends_readSealedMulti {b : Nat} (htags : ∀ r ∈ log, r.1 < T.numPartitions) (sealed : List (Nat × List Tagged)) :
    ∀ a, a ≤ log.length → Tiles log a sealed b →
      ∀ seg ∈ readSealedMulti T.numPartitions (countsOf T.numPartitions (log.take a)) sealed,
        seg.stop ≤ log.length ∧ seg.perPartitionEnd = countsOf T.numPartitions (log.take seg.stop) := by
  induction sealed with
  | nil => exact fun a _ _ seg hseg => (nomatch hseg)
  | cons p rest ih =>
    obtain ⟨start, records⟩ := p
    intro a ha ht
    obtain ⟨rfl, -, hpre, hrest⟩ := ht
    have hend := add_length_le hpre ha
    have htake : log.take start ++ records = log.take (start + records.length) := by
      obtain ⟨more, hmore⟩ := hpre
      rw [List.take_add, ← hmore, List.take_left]
    have hmem : ∀ r ∈ records, r.1 < T.numPartitions := fun r hr =>
      htags r (List.mem_of_mem_take (htake ▸ List.mem_append_right _ hr))
    have hcounts : bumpTags T.numPartitions (countsOf T.numPartitions (log.take start)) records =
        countsOf T.numPartitions (log.take (start + records.length)) := by
      rw [bumpTags_countsOf _ _ hmem, htake]
    intro seg hseg
    unfold readSealedMulti at hseg
    dsimp only at hseg
    rw [hcounts] at hseg
    rcases List.mem_cons.1 hseg with rfl | hseg
    · exact ⟨hend, rfl⟩
    · exact ih _ hend hrest seg hseg

theorem recover {writer : Option SegShared} (h : SharedCounts T f writer log first activeStart)
    (htags : ∀ r ∈ log, r.1 < T.numPartitions) :
    SharedCounts T f (some (surveyedMulti T.numPartitions f).shared) log first activeStart := by
  obtain ⟨hstarts, htotals⟩ := surveyedMulti_counts h.dir htags
  refine ⟨h.dir, ?_, ?_⟩
  · rintro _ ⟨⟩
    exact ⟨⟨h.dir.files.total_eq, h.dir.files.recoveredActiveStart_eq, segments_readSealedMulti _ _ _⟩, htotals, hstarts,
      fun _ he => (nomatch he)⟩
  · rintro _ ⟨⟩ seg hseg
    change seg ∈ readSealedMulti T.numPartitions (recoveredBase T.numPartitions f) f.sealed at hseg
    have hbase := h.dir.base
    dsimp only at hbase
    rw [hbase] at hseg
    exact ends_readSealedMulti htags f.sealed first h.dir.files.first_le h.dir.files.tiles seg hseg

theorem compacted {deletable : SealedSeg → Bool} {archives k : Nat} {f' : Files Tagged} {sealed' : List SealedSeg}
    (h : SharedCounts T f (some w) log first activeStart)
    (hk : Compacted deletable archives log f w.sealed f' sealed' k)
    (hkeep : ∀ last, (w.sealed.take k).getLast? = some last →
      if (w.sealed.take k).length = w.sealed.length then
        f.head = some w.activeStart ∧ f.ppHead = some w.perPartitionActiveStart
      else (f.ppMeta[last.stop]?).isSome) :
    ∃ first', SharedCounts T f' (some { w with sealed := sealed' }) log first' activeStart := by
  have hok := h.counters w rfl
  obtain ⟨first', hdir⟩ := h.dir.compacted hok.shared hok.starts hk hkeep
  refine ⟨first', hdir, ?_, ?_⟩
  · rintro _ ⟨⟩
    refine ⟨⟨hok.shared.total, hok.shared.start, ?_⟩, hok.totals, hok.starts, fun _ he => (nomatch he)⟩
    show sealed'.map _ = f'.sealed.map _
    rw [hk.segments, hk.files, List.map_drop, List.map_drop]
    exact congrArg (List.drop k) hok.shared.segments
  · rintro _ ⟨⟩ seg hseg
    change seg ∈ sealed' at hseg
    rw [hk.segments] at hseg
    exact h.ends w rfl seg (List.mem_of_mem_drop hseg)

end SharedCounts

/-- A deletable segment's events are covered and exported, partition by partition. -/
theorem Kind.deletable_bound {f : Files Tagged} {w : SegShared} {log : List Tagged} {first activeStart : Nat}
    {covered exported : List Nat} {seg : SealedSeg} :
    ∀ {K : Kind}, K.Counts f (some w) log first activeStart → seg ∈ w.sealed →
      K.deletable covered exported seg = true → ∀ p < K.numPartitions,
        (eventsOf p (log.take seg.stop)).length ≤ covered.getD p 0 ∧
          (eventsOf p (log.take seg.stop)).length ≤ exported.getD p 0
  | .single, _, _, hdel, p, hp => by
    obtain rfl : p = 0 := by
      change p < 1 at hp
      omega
    have hlen : (eventsOf 0 (log.take seg.stop)).length ≤ seg.stop := by
      unfold eventsOf
      rw [List.length_map]
      refine Nat.le_trans (List.length_filter_le _ _) ?_
      rw [List.length_take]
      exact Nat.min_le_left _ _
    simp only [Kind.deletable, decide_eq_true_eq] at hdel
    omega
  | .multi T, hcounts, hseg, hdel, p, hp => by
    change p < T.numPartitions at hp
    obtain ⟨-, hends⟩ := SharedCounts.ends hcounts w rfl seg hseg
    have hmem : ((eventsOf p (log.take seg.stop)).length, p) ∈ seg.perPartitionEnd.zipIdx := by
      rw [hends, List.mem_zipIdx_iff_getElem?, getElem?_countsOf, if_pos hp]
    simp only [Kind.deletable, deletableMulti, Bool.and_eq_true, List.all_eq_true] at hdel
    have hx := hdel.1 _ hmem
    have hc := hdel.2.2 _ hmem
    simp only [decide_eq_true_eq] at hx hc
    exact ⟨hc, hx⟩

/-! ## Steps -/

namespace LogNode.Inv

variable {n : LogNode} {first activeStart : Nat}

theorem down (h : n.Inv K first activeStart) : ({ n with writer := none } : LogNode).Inv K first activeStart := by
  refine ⟨h.files, h.tags, fun _ hw => (nomatch hw), ?_, h.cold, h.needed⟩
  cases K with
  | single => trivial
  | multi T => exact ⟨SharedCounts.dir h.counts, fun _ hw => (nomatch hw), fun _ hw => (nomatch hw)⟩

theorem append (h : n.Inv K first activeStart) {w : SegShared} {p : Nat} (hw : n.writer = some w) (hp : p ∈ K.owned)
    (events : List Event) :
    ({ n with
        files := n.files.append (events.map (p, ·))
        writer := some (w.append events.length (K.deltas p events.length))
        log := n.log ++ events.map (p, ·) } : LogNode).Inv K first activeStart := by
  have ht := h.writer w hw
  have hcold : ColdTiles (n.files.append (events.map (p, ·))) (n.log ++ events.map (p, ·)) first n.floor := by
    refine h.cold.extend h.files ?_ ?_ _
    · rfl
    · exact List.prefix_rfl
  refine ⟨h.files.append _, ?_, ?_, ?_, hcold, ?_⟩
  · intro r hr
    rcases List.mem_append.1 hr with hr | hr
    · exact h.tags r hr
    · obtain ⟨e, -, rfl⟩ := List.mem_map.1 hr
      exact hp
  · rintro _ ⟨⟩
    refine ⟨?_, ht.start, ht.segments⟩
    show w.totalEvents + events.length = (n.log ++ events.map (p, ·)).length
    rw [ht.total, List.length_append, List.length_map]
  · have hcounts := h.counts
    rw [hw] at hcounts
    cases K with
    | single => trivial
    | multi T => exact SharedCounts.append hcounts p events
  · dsimp only
    rw [List.take_append_of_le_length h.files.first_le]
    exact h.needed

/-- The hot log begins where it did; the cold archive is untouched. -/
theorem sealed_tiles (h : n.Inv K first activeStart) {f' : Files Tagged} (hcold : f'.cold = n.files.cold)
    (hsealed : n.files.sealed <+: f'.sealed) : ColdTiles f' n.log first n.floor := by
  have := h.cold.extend h.files hcold hsealed []
  rwa [List.append_nil] at this

theorem sealActive (h : n.Inv K first activeStart) {w : SegShared} (hw : n.writer = some w) (writes : SealWrites)
    (hkeep : K.KeepsMeta n writes.ppMeta) :
    ∃ start', ({ n with
      files := (sealSegment writes n.files w).1
      writer := some (sealSegment writes n.files w).2.1 } : LogNode).Inv K first start' := by
  obtain ⟨start', hf, ht, -⟩ := tracks_sealSegment writes h.files (h.writer w hw)
  refine ⟨start', hf, h.tags, ?_, ?_, h.sealed_tiles ?_ ?_, h.needed⟩
  · rintro _ ⟨⟩
    exact ht
  · have hcounts := h.counts
    rw [hw] at hcounts
    cases K with
    | single => trivial
    | multi T =>
      obtain ⟨start'', hc⟩ := SharedCounts.sealSegment hcounts writes (hkeep w hw)
      obtain rfl : start'' = start' := hc.dir.files.recoveredActiveStart_eq.symm.trans hf.recoveredActiveStart_eq
      exact hc
  · unfold sealSegment
    dsimp only
    split <;> rfl
  · unfold sealSegment
    dsimp only
    split
    · exact List.prefix_rfl
    · show n.files.sealed <+: Tiling.file w.activeStart n.files.active n.files.sealed
      rw [(h.writer w hw).start, file_eq_append h.files.tiles.start_lt]
      exact List.prefix_append _ _

theorem sealInterrupted (h : n.Inv K first activeStart) {w : SegShared} (hw : n.writer = some w)
    (hne : w.totalEvents ≠ w.activeStart) {metaWritten : Bool} (hkeep : K.KeepsMeta n metaWritten) :
    ({ n with
        files := n.files.rename w.activeStart w.perPartitionActiveStart metaWritten
        writer := none } : LogNode).Inv K first n.log.length := by
  have ht := h.writer w hw
  have hlt : activeStart < n.log.length := by
    have := h.files.activeStart_le
    have := ht.total
    have := ht.start
    omega
  refine ⟨?_, h.tags, fun _ hw => (nomatch hw), ?_, h.sealed_tiles rfl ?_, h.needed⟩
  · rw [ht.start]
    exact h.files.rename hlt _ _ _ _
  · have hcounts := h.counts
    rw [hw] at hcounts
    cases K with
    | single => trivial
    | multi T => exact SharedCounts.rename hcounts hne (hkeep w hw)
  · show n.files.sealed <+: Tiling.file w.activeStart n.files.active n.files.sealed
    rw [ht.start, file_eq_append h.files.tiles.start_lt]
    exact List.prefix_append _ _

/-- A change of the cold archive alone. -/
theorem withCold (h : n.Inv K first activeStart) {f' : Files Tagged} {floor : Nat}
    (hf : f' = { n.files with cold := f'.cold }) (hok : ColdOk n.log f'.cold) (hcold : ColdTiles f' n.log first floor) :
    ({ n with files := f', floor } : LogNode).Inv K first activeStart := by
  refine ⟨?_, h.tags, fun w hw => ?_, ?_, hcold, h.needed⟩
  · rw [hf]
    exact ⟨h.files.tiles, h.files.first_le, h.files.active, h.files.position, hok⟩
  · have ht := h.writer w hw
    refine ⟨ht.total, ht.start, ?_⟩
    rw [hf]
    exact ht.segments
  · have hcounts := h.counts
    cases K with
    | single => trivial
    | multi T => exact SharedCounts.withCold hcounts hf hok

theorem archive (h : n.Inv K first activeStart) {w : SegShared} {seg : SealedSeg} {rest : List SealedSeg}
    {f : Files Tagged} (hw : n.writer = some w) (hs : w.sealed = seg :: rest)
    (ha : archiveColdSegment n.files seg.start seg.stop = some f) :
    ({ n with files := f } : LogNode).Inv K first activeStart := by
  have hsegs := (h.writer w hw).segments
  cases hsealed : n.files.sealed with
  | nil =>
    rw [hs, hsealed] at hsegs
    exact absurd hsegs (by simp)
  | cons p ps =>
    rw [hs, hsealed, List.map_cons, List.map_cons] at hsegs
    obtain ⟨hstart, hstop⟩ := Prod.mk.inj (List.cons.inj hsegs).1
    rw [hstart, hstop] at ha
    obtain ⟨hf, hok⟩ := archive_spec h.files.tiles h.files.first_le h.files.cold hsealed ha
    exact h.withCold hf hok (h.cold.archive h.files.tiles h.files.cold hsealed ha).1

theorem prune (h : n.Inv K first activeStart) (keepFrom : Nat) (flags : List Bool) :
    ({ n with
        files := { n.files with cold := pruneFaulty keepFrom flags n.files.cold }
        floor := max n.floor keepFrom } : LogNode).Inv K first activeStart :=
  h.withCold rfl (fun c hc => h.files.cold c ((pruneFaulty_sublist keepFrom flags _).subset hc))
    (h.cold.prune h.files keepFrom flags)

theorem recover (h : n.Inv K first activeStart) :
    ({ n with writer := some (K.reopened n.files) } : LogNode).Inv K first activeStart := by
  refine ⟨h.files, h.tags, ?_, ?_, h.cold, h.needed⟩
  · rintro _ ⟨⟩
    cases K with
    | single =>
      refine ⟨h.files.total_eq, h.files.recoveredActiveStart_eq, ?_⟩
      simp [Kind.reopened, readSealed]
    | multi T => exact ⟨h.files.total_eq, h.files.recoveredActiveStart_eq, segments_readSealedMulti _ _ _⟩
  · have hcounts := h.counts
    have htags := h.tags
    cases K with
    | single => trivial
    | multi T => exact SharedCounts.recover hcounts fun r hr => T.lt r.1 (htags r hr)

/-- What a compaction removed ends where the hot log now begins. -/
theorem removed_stop (h : n.Inv K first activeStart) {w : SegShared} (hw : n.writer = some w) {k first' : Nat}
    (ht : Tiles n.log first (n.files.sealed.take k) first') :
    ((w.sealed.take k).getLast?.map (·.stop)).getD first = first' := by
  have hmap := congrArg (List.map Prod.snd) (congrArg (List.take k) (h.writer w hw).segments)
  simp only [← List.map_take, List.map_map, Function.comp_def] at hmap
  rw [← ht.last, ← List.getLast?_map, ← List.getLast?_map, hmap]

theorem compact (h : n.Inv K first activeStart) {w : SegShared} (hw : n.writer = some w) {covered exported : List Nat}
    {flags : List Bool} (hc : Below covered n.covered) (hx : Below exported n.exported)
    (hflags : ∀ b ∈ flags, b = true) (hkeep : K.KeepsBoundary n covered exported flags.length) :
    ∃ first', ({ n with
      files := (compactFaulty (K.deletable covered exported) K.remove flags n.files w.sealed).1
      writer := some
        { w with sealed := (compactFaulty (K.deletable covered exported) K.remove flags n.files w.sealed).2 } } :
          LogNode).Inv K first' activeStart := by
  rw [compactFaulty_eq _ _ _ hflags]
  have ht := h.writer w hw
  have hcounts := h.counts
  rw [hw] at hcounts
  obtain ⟨k, hk⟩ := @compactLoop_spec _ (K.deletable covered exported) _ K.removesSealed _ _ flags.length n.files w.sealed
    first h.files.tiles h.files.first_le h.files.cold ht.segments
  obtain ⟨firstCold, htcold, hcold⟩ := @ColdTiles.compacted _ _ _ _ (K.deletable covered exported) _ K.removesSealed
    flags.length n.files w.sealed first h.files.tiles h.files.first_le h.files.cold ht.segments h.cold
  have hlen : w.sealed.length = n.files.sealed.length := by simpa using congrArg List.length ht.segments
  -- a compaction that empties the sealed list found the head in place
  have hhead : n.files.sealed ≠ [] → n.files.sealed.drop k = [] → n.files.head = some activeStart := by
    intro hne hnil
    have hall : w.sealed.length ≤ k := hlen ▸ List.drop_eq_nil_iff.1 hnil
    have hne' : w.sealed ≠ [] := by
      intro hnil'
      rw [hnil'] at hlen
      exact hne (List.length_eq_zero_iff.1 hlen.symm)
    have hremoved := hk.removed
    rw [List.take_of_length_le hall] at hremoved
    rw [← ht.start]
    cases K with
    | single =>
      have := hkeep w hw
      dsimp only at this
      rw [← hremoved] at this
      exact this _ (List.getLast?_eq_some_getLast hne') rfl
    | multi T =>
      have := hkeep w hw
      dsimp only at this
      rw [← hremoved] at this
      have := this _ (List.getLast?_eq_some_getLast hne')
      rw [if_pos rfl] at this
      exact this.1
  obtain ⟨first', htake, hf⟩ := h.files.compacted hk hhead
  obtain rfl : firstCold = first' := htcold.start_unique hf.tiles
  have hstop := h.removed_stop hw htake
  refine ⟨firstCold, hf, h.tags, ?_, ?_, hcold, ?_⟩
  · rintro _ ⟨⟩
    refine ⟨ht.total, ht.start, ?_⟩
    show (compactLoop _ _ _ _ _).2.map _ = (compactLoop _ _ _ _ _).1.sealed.map _
    rw [hk.segments, hk.files, List.map_drop, List.map_drop, ht.segments]
  · cases K with
    | single => trivial
    | multi T =>
      have hkeep' := hkeep w hw
      dsimp only at hkeep'
      rw [← hk.removed] at hkeep'
      obtain ⟨first'', hc'⟩ := SharedCounts.compacted hcounts hk hkeep'
      obtain rfl : first'' = firstCold := hc'.dir.files.tiles.start_unique hf.tiles
      exact hc'
  · intro p hp
    cases hlast : (w.sealed.take k).getLast? with
    | none =>
      rw [hlast] at hstop
      change first = firstCold at hstop
      rw [← hstop]
      exact h.needed p hp
    | some seg =>
      rw [hlast] at hstop
      change seg.stop = firstCold at hstop
      have hmem := List.mem_of_getLast? hlast
      obtain ⟨hcov, hexp⟩ := Kind.deletable_bound hcounts (List.mem_of_mem_take hmem) (hk.deleted seg hmem) p hp
      rw [← hstop]
      exact ⟨Nat.le_trans hcov (hc p), Nat.le_trans hexp (hx p)⟩

theorem step {n' : LogNode} {op : LogOp} (h : n.Inv K first activeStart) (hop : K.Keeps n op) (hs : LogStep K n op n') :
    ∃ first' start', n'.Inv K first' start' := by
  cases hs with
  | append hw hp => exact ⟨first, activeStart, h.append hw hp _⟩
  | sealActive hw => exact ⟨first, h.sealActive hw _ hop⟩
  | sealInterrupted hw hne => exact ⟨first, _, h.sealInterrupted hw hne hop⟩
  | snapshot hgrow _ =>
    refine ⟨first, activeStart, h.files, h.tags, h.writer, h.counts, h.cold, fun p hp => ?_⟩
    exact ⟨Nat.le_trans (h.needed p hp).1 (hgrow p), (h.needed p hp).2⟩
  | exportEvents hgrow _ =>
    refine ⟨first, activeStart, h.files, h.tags, h.writer, h.counts, h.cold, fun p hp => ?_⟩
    exact ⟨(h.needed p hp).1, Nat.le_trans (h.needed p hp).2 (hgrow p)⟩
  | archive hw hseg _ ha => exact ⟨first, activeStart, h.archive hw hseg ha⟩
  | compact hw hc hx =>
    obtain ⟨first', hinv⟩ := h.compact hw hc hx hop.1 hop.2
    exact ⟨first', activeStart, hinv⟩
  | prune => exact ⟨first, activeStart, h.prune _ _⟩
  | crash => exact ⟨first, activeStart, h.down⟩
  | recover => exact ⟨first, activeStart, h.recover⟩

theorem init : ({} : LogNode).Inv K 0 0 := by
  refine ⟨Files.Holds.empty, fun _ hr => (nomatch hr), fun _ hw => (nomatch hw), ?_, ColdTiles.empty, ?_⟩
  · cases K with
    | single => trivial
    | multi T =>
      have hdir := (@MultiNode.Inv.init T ReplayRel.any).dir
      exact ⟨hdir, fun _ hw => (nomatch hw), fun _ hw => (nomatch hw)⟩
  · exact fun p _ => ⟨Nat.zero_le _, Nat.zero_le _⟩

theorem run {n : LogNode} (h : LogReachable K K.Keeps n) : ∃ first activeStart, n.Inv K first activeStart := by
  induction h with
  | init => exact ⟨0, 0, init⟩
  | step op _ hop hs ih =>
    obtain ⟨first, activeStart, hinv⟩ := ih
    exact hinv.step hop hs

end LogNode.Inv

/-- A compaction, and what interrupts it, adds no event and moves no floor. -/
theorem LogStep.compaction_frame {n n' : LogNode} {op : LogOp} (hs : LogStep K n op n') (hop : op.isCompaction = true) :
    n'.log = n.log ∧ n'.floor = n.floor := by
  cases hs with
  | append | sealActive | sealInterrupted | snapshot | exportEvents | prune => cases hop
  | archive | compact | crash | recover => exact ⟨rfl, rfl⟩

/-- **Nothing above the cold floor is lost.** In every run of either journal, with archive writes and cold
removals failing and crashes between any two file operations, in which no removal of a hot segment fails and no
best-effort position file a later boot relies on is lost: every event from the cold floor on is read once, in
order, from the archive and the hot log; nothing has left the hot log that a partition's snapshot does not cover
or a shard has not projected; and a compaction, interrupted and repeated, changes nothing of what is read. -/
theorem retains_above_floor {n : LogNode} (h : LogReachable K K.Keeps n) :
    n.Retains K ∧ ∀ op n', op.isCompaction = true → K.Keeps n op → LogStep K n op n' →
      readFrom n'.files n'.floor = readFrom n.files n.floor := by
  obtain ⟨first, activeStart, hinv⟩ := LogNode.Inv.run h
  refine ⟨hinv.retains, fun op n' hc hop hs => ?_⟩
  obtain ⟨first', start', hinv'⟩ := hinv.step hop hs
  obtain ⟨hlog, hfloor⟩ := hs.compaction_frame hc
  rw [hinv'.retains.readable, hinv.retains.readable, hlog, hfloor]

/-- Two events sealed, snapshotted, exported and compacted, one more appended, an archive prune, a crash. -/
theorem retains_above_floor_after_compaction :
    ∃ n, LogReachable .single Kind.single.Keeps n ∧ n.log.length = 3 ∧ n.files.sealed = [] ∧ n.Retains .single := by
  have hinit : LogReachable .single Kind.single.Keeps {} := .init
  have hopen := hinit.step .recover trivial .recover
  have hfirst := hopen.step (.append 0 [.deploymentCreated 1, .deploymentCreated 2]) trivial (.append rfl (by decide))
  have hseal := hfirst.step (.sealActive ⟨true, true, true⟩) trivial (.sealActive rfl)
  have hsnap := hseal.step (.snapshot [2]) trivial (.snapshot (fun p => by simp) (fun p => by
    match p with
    | 0 => decide
    | _ + 1 => exact Nat.zero_le _))
  have hexport := hsnap.step (.exportEvents [2]) trivial (.exportEvents (fun p => by simp) (fun p => by
    match p with
    | 0 => decide
    | _ + 1 => exact Nat.zero_le _))
  have hcompact := hexport.step (.compact [2] [2] [true])
    ⟨by decide, by rintro _ ⟨⟩; exact fun _ _ _ => rfl⟩ (.compact rfl (fun _ => Nat.le_refl _) (fun _ => Nat.le_refl _))
  have hlate := hcompact.step (.append 0 [.deploymentCreated 3]) trivial (.append rfl (by decide))
  have hprune := hlate.step (.prune 1 [true]) trivial .prune
  have hcrash := hprune.step .crash trivial .crash
  exact ⟨_, hcrash, rfl, rfl, (retains_above_floor hcrash).1⟩

/-- The head write of a seal is lost and the segment compacted away. The next boot counts from 0 again, so the
next segment is filed under the same range: its archive write finds the old file in place, its removal succeeds,
and its events are nowhere. -/
theorem events_lost_after_lost_head :
    ¬ ∀ (K : Kind) (n : LogNode), LogReachable K (fun _ _ => True) n → n.Retains K := by
  intro h
  have hinit : LogReachable .single (fun _ _ => True) {} := .init
  have hopen := hinit.step .recover trivial .recover
  have hfirst := hopen.step (.append 0 [.deploymentCreated 1, .deploymentCreated 2]) trivial (.append rfl (by decide))
  have hseal := hfirst.step (.sealActive ⟨true, false, true⟩) trivial (.sealActive rfl)
  have hsnap := hseal.step (.snapshot [2]) trivial (.snapshot (fun p => by simp) (fun p => by
    match p with
    | 0 => decide
    | _ + 1 => exact Nat.zero_le _))
  have hexport := hsnap.step (.exportEvents [2]) trivial (.exportEvents (fun p => by simp) (fun p => by
    match p with
    | 0 => decide
    | _ + 1 => exact Nat.zero_le _))
  have hcompact := hexport.step (.compact [2] [2] [true]) trivial
    (.compact rfl (fun _ => Nat.le_refl _) (fun _ => Nat.le_refl _))
  have hcrash := hcompact.step .crash trivial .crash
  have hagain := hcrash.step .recover trivial .recover
  have hsecond := hagain.step (.append 0 [.deploymentCreated 3, .deploymentCreated 4]) trivial (.append rfl (by decide))
  have hseal' := hsecond.step (.sealActive ⟨true, true, true⟩) trivial (.sealActive rfl)
  have hcompact' := hseal'.step (.compact [2] [2] [true]) trivial
    (.compact rfl (fun _ => Nat.le_refl _) (fun _ => Nat.le_refl _))
  have hread := congrArg List.length (h _ _ hcompact').readable
  exact absurd hread (by decide)

end Seglog

end NanoBpm
