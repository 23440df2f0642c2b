import NanoBpm.Seglog.MultiNode

/-!
# Every run of a multi-partition node recovers its partitions

The invariant: the files hold the log, the base counts recovery reads are those of the compacted prefix,
every snapshot entry and every engine is the replay of its partition's events so far, interleaved with
deployments of the others. Each step keeps it while the sidecars recovery relies on reach the disk.
-/

namespace NanoBpm

namespace Seglog

open Tiling

variable (T : Topology) (R : ReplayRel)

/-! ## The invariant -/

structure MultiSnapshotEntry.Ok (entry : MultiSnapshotEntry) (log : List Tagged) : Prop where
  covered_le : entry.covered ≤ (eventsOf entry.partition log).length
  replays : R.Rel entry.partition log ((eventsOf entry.partition log).take entry.covered)
    (Engine.fromSnapshot entry.engine).logged

theorem MultiSnapshotEntry.Ok.extend {R : ReplayRel} {entry : MultiSnapshotEntry} {log : List Tagged} (h : entry.Ok R log)
    (more : List Tagged) : entry.Ok R (log ++ more) := by
  refine ⟨?_, ?_⟩
  · rw [eventsOf_append, List.length_append]
    exact Nat.le_trans h.covered_le (Nat.le_add_right _ _)
  · rw [eventsOf_append, List.take_append_of_le_length h.covered_le]
    exact R.extend h.replays more

structure MultiDir.Ok (dir : MultiDir) (log : List Tagged) (first activeStart : Nat) : Prop where
  files : dir.toFiles.Holds log first activeStart
  base : recoveredBase T.numPartitions dir.toFiles = countsOf T.numPartitions (log.take first)
  ppMeta : ∀ (s : Nat) (v : List Nat), dir.ppMeta[s]? = some v →
    s ≤ log.length ∧ v = countsOf T.numPartitions (log.take s)
  combined : ∀ c, dir.combined = some c → ∃ entries, c = .ok entries ∧ ∀ e ∈ entries, e.Ok R log

structure MultiWriter.Ok (w : MultiWriter) (dir : MultiDir) (log : List Tagged) (activeStart : Nat) : Prop where
  shared : w.shared.Tracks dir.toFiles log activeStart
  totals : w.shared.perPartitionTotal = countsOf T.numPartitions log
  starts : w.shared.perPartitionActiveStart = countsOf T.numPartitions (log.take activeStart)
  taken : ∀ e ∈ w.taken, e.Ok R log

structure MultiNode.Inv (n : MultiNode) (first activeStart : Nat) : Prop where
  dir : n.dir.Ok T R n.log first activeStart
  tags : ∀ r ∈ n.log, r.1 ∈ T.owned
  engines : ∀ p ∈ T.owned, R.Rel p n.log (eventsOf p n.log) (n.engines p).logged
  writer : ∀ w, n.writer = some w → w.Ok T R n.dir n.log activeStart

/-! ## The base counts -/

variable {T R}

/-- A sidecar that is right when present, and zeros where nothing precedes. -/
theorem sidecarOr_eq {n : Nat} {log : List Tagged} {o : Option (List Nat)}
    (hsome : ∀ v, o = some v → v = countsOf n log) (hnone : o = none → countsOf n log = List.replicate n 0) :
    sidecarOr n o = countsOf n log := by
  unfold sidecarOr
  cases o with
  | none => exact (hnone rfl).symm
  | some v =>
    rw [hsome v rfl, Option.filter_some, if_pos (by simp [length_countsOf]), Option.getD_some]

theorem recoveredBase_nil {n : Nat} {f : Files Tagged} (h : f.sealed = []) :
    recoveredBase n f = sidecarOr n f.ppHead := by
  unfold recoveredBase
  rw [h]

theorem recoveredBase_cons {n : Nat} {f : Files Tagged} {q : Nat × List Tagged} {qs : List (Nat × List Tagged)}
    (h : f.sealed = q :: qs) : recoveredBase n f = sidecarOr n f.ppMeta[q.1]? := by
  unfold recoveredBase
  rw [h]

theorem countsOf_eq_zeros {n : Nat} {log : List Tagged} (h : ∀ c ∈ countsOf n log, c = 0) :
    countsOf n log = List.replicate n 0 := List.eq_replicate_iff.2 ⟨length_countsOf n log, h⟩

namespace MultiDir.Ok

theorem append {dir : MultiDir} {log : List Tagged} {first activeStart : Nat} (h : dir.Ok T R log first activeStart)
    (records : List Tagged) : (dir.withFiles (dir.toFiles.append records)).Ok T R (log ++ records) first activeStart where
  files := h.files.append records
  base := by
    rw [List.take_append_of_le_length h.files.first_le]
    exact h.base
  ppMeta := by
    intro s v hv
    obtain ⟨hle, rfl⟩ := h.ppMeta s v hv
    rw [List.take_append_of_le_length hle, List.length_append]
    exact ⟨Nat.le_trans hle (Nat.le_add_right _ _), rfl⟩
  combined := by
    intro c hc
    obtain ⟨entries, rfl, hok⟩ := h.combined c hc
    exact ⟨entries, rfl, fun e he => (hok e he).extend records⟩

/-- A rename under a kept sidecar keeps the base counts. -/
theorem rename {dir : MultiDir} {log : List Tagged} {first activeStart : Nat} (h : dir.Ok T R log first activeStart)
    (hlt : activeStart < log.length) {written : Bool} {counts : List Nat}
    (hcounts : counts = countsOf T.numPartitions (log.take activeStart))
    (hkeep : dir.toFiles.sealed = [] → written = true ∨ ∀ c ∈ counts, c = 0)
    (head : Option Nat) (ppHead : Option (List Nat)) :
    (dir.withFiles { dir.toFiles.rename activeStart counts written with head, ppHead }).Ok T R log first log.length := by
  have hsealed : (dir.withFiles { dir.toFiles.rename activeStart counts written with head, ppHead }).toFiles.sealed =
      dir.toFiles.sealed ++ [(activeStart, dir.toFiles.active)] := file_eq_append h.files.tiles.start_lt
  have hget : ∀ s : Nat, (dir.toFiles.rename activeStart counts written).ppMeta[s]? =
      if (counts.isEmpty || !written) = false ∧ activeStart = s then some counts else dir.ppMeta[s]? := by
    intro s
    simp only [Files.rename]
    cases counts.isEmpty || !written with
    | true => simp
    | false => simp [Std.ExtTreeMap.getElem?_insert, Std.LawfulEqCmp.compare_eq_iff_eq]
  have hmeta : ∀ (s : Nat) (v : List Nat), (dir.toFiles.rename activeStart counts written).ppMeta[s]? = some v →
      s ≤ log.length ∧ v = countsOf T.numPartitions (log.take s) := by
    intro s v hv
    rw [hget] at hv
    split at hv
    · rename_i hs
      obtain ⟨-, rfl⟩ := hs
      exact ⟨Nat.le_of_lt hlt, (Option.some.inj hv).symm.trans hcounts⟩
    · exact h.ppMeta s v hv
  refine ⟨h.files.rename hlt _ _ _ _, ?_, hmeta, h.combined⟩
  -- the first sealed segment is the old one, or the one just renamed
  cases hs : dir.toFiles.sealed with
  | nil =>
    have hfirst : first = activeStart := by
      have := h.files.tiles
      rw [hs] at this
      exact this.1
    rw [hs] at hsealed
    refine (recoveredBase_cons hsealed).trans ?_
    rw [hfirst]
    refine sidecarOr_eq (fun v hv => (hmeta activeStart v hv).2) fun hnone => ?_
    change (dir.toFiles.rename activeStart counts written).ppMeta[activeStart]? = none at hnone
    rw [hget] at hnone
    split at hnone
    · cases hnone
    · rename_i hcond
      have hlost : (counts.isEmpty || !written) = true := by
        rw [← Bool.not_eq_false]
        exact fun hf => hcond ⟨hf, rfl⟩
      rw [← hcounts]
      rcases Bool.or_eq_true_iff.1 hlost with hemp | hnot
      · rw [hcounts]
        refine countsOf_eq_zeros fun c hc => ?_
        rw [← hcounts, List.isEmpty_iff.1 hemp] at hc
        cases hc
      · rcases hkeep hs with hw | hzero
        · rw [hw] at hnot
          cases hnot
        · rw [hcounts] at hzero ⊢
          exact countsOf_eq_zeros hzero
  | cons q qs =>
    have hlt' : q.1 < activeStart := h.files.tiles.start_lt q (hs ▸ List.mem_cons_self)
    rw [hs] at hsealed
    refine (recoveredBase_cons hsealed).trans (Eq.trans ?_ h.base)
    rw [recoveredBase_cons hs]
    congr 1
    show (dir.toFiles.rename activeStart counts written).ppMeta[q.1]? = _
    rw [hget, if_neg (by omega)]

/-- A compaction that leaves a boundary behind keeps the base counts. -/
theorem compacted {dir : MultiDir} {log : List Tagged} {first activeStart k archives : Nat} {f' : Files Tagged}
    {deletable : SealedSeg → Bool} {w : SegShared} {sealed' : List SealedSeg} (h : dir.Ok T R log first activeStart)
    (htracks : w.Tracks dir.toFiles log activeStart)
    (hstarts : w.perPartitionActiveStart = countsOf T.numPartitions (log.take activeStart))
    (hc : Compacted deletable archives log dir.toFiles w.sealed f' sealed' k)
    (hkeep : ∀ last, (w.sealed.take k).getLast? = some last →
      if (w.sealed.take k).length = w.sealed.length then
        dir.head = some w.activeStart ∧ dir.ppHead = some w.perPartitionActiveStart
      else (dir.ppMeta[last.stop]?).isSome) :
    ∃ first', (dir.withFiles f').Ok T R log first' activeStart := by
  have hlen : w.sealed.length = dir.toFiles.sealed.length := by
    simpa using congrArg List.length htracks.segments
  -- what is removed ends where the rest begins
  have hends : ∀ first', Tiles log first (dir.toFiles.sealed.take k) first' →
      ((w.sealed.take k).getLast?.map (·.stop)).getD first = first' := by
    intro first' ht
    have hmap := congrArg (List.map Prod.snd) (congrArg (List.take k) htracks.segments)
    simp only [← List.map_take, List.map_map, Function.comp_def] at hmap
    rw [← ht.last, ← List.getLast?_map, ← List.getLast?_map, hmap]
  have hhead : dir.toFiles.sealed ≠ [] → dir.toFiles.sealed.drop k = [] → dir.toFiles.head = some activeStart := by
    intro hne hnil
    have hall : w.sealed.length ≤ k := hlen ▸ List.drop_eq_nil_iff.1 hnil
    have hne' : w.sealed ≠ [] := by
      intro hnil'
      rw [hnil'] at hlen
      exact hne (List.length_eq_zero_iff.1 hlen.symm)
    rw [List.take_of_length_le hall] at hkeep
    have := hkeep _ (List.getLast?_eq_some_getLast hne')
    rw [if_pos rfl] at this
    rw [← htracks.start]
    exact this.1
  obtain ⟨first', htake, hf⟩ := h.files.compacted hc hhead
  have hfirst' := hends first' htake
  refine ⟨first', hf, ?_, ?_, h.combined⟩
  · cases hlast : (w.sealed.take k).getLast? with
    | none =>
      -- nothing was removed
      rw [hlast] at hfirst'
      have hnil : w.sealed.take k = [] := List.getLast?_eq_none_iff.1 hlast
      have htk : dir.toFiles.sealed.take k = [] := by
        have := congrArg List.length hnil
        rw [List.length_take, hlen, ← List.length_take] at this
        exact List.length_eq_zero_iff.1 this
      have hsame : f'.sealed = dir.toFiles.sealed := by
        rw [hc.files]
        have := List.take_append_drop k dir.toFiles.sealed
        rw [htk, List.nil_append] at this
        exact this
      rw [← hfirst']
      refine Eq.trans ?_ h.base
      show recoveredBase _ f' = _
      cases hs : dir.toFiles.sealed with
      | nil => rw [recoveredBase_nil (hsame.trans hs), recoveredBase_nil hs, hc.ppHead]
      | cons q qs =>
        rw [recoveredBase_cons (hsame.trans hs), recoveredBase_cons hs, hc.ppMeta q.1 (by rw [htk]; simp)]
    | some last =>
      rw [hlast, Option.map_some, Option.getD_some] at hfirst'
      have hk := hkeep last hlast
      show recoveredBase _ f' = _
      cases hs : f'.sealed with
      | nil =>
        -- everything was removed: the per-partition head takes over
        have hall : w.sealed.length ≤ k := by
          rw [hc.files] at hs
          exact hlen ▸ List.drop_eq_nil_iff.1 hs
        rw [List.take_of_length_le hall, if_pos rfl] at hk
        have hactive : first' = activeStart := by
          have := hf.tiles
          rw [hs] at this
          exact this.1
        rw [recoveredBase_nil hs, hc.ppHead, hk.2, hstarts, hactive]
        exact sidecarOr_eq (fun v hv => (Option.some.inj hv).symm) (fun hnone => nomatch hnone)
      | cons q qs =>
        have hq : q.1 = first' := by
          have := hf.tiles
          rw [hs] at this
          exact this.head
        have hshort : ¬ (w.sealed.take k).length = w.sealed.length := by
          intro hfull
          rw [List.length_take] at hfull
          have hnil : dir.toFiles.sealed.drop k = [] := List.drop_eq_nil_iff.2 (by omega)
          rw [hc.files, hnil] at hs
          cases hs
        rw [if_neg hshort, hfirst'] at hk
        obtain ⟨v, hv⟩ := Option.isSome_iff_exists.1 hk
        have hkept : f'.ppMeta[first']? = dir.ppMeta[first']? :=
          hc.ppMeta first' fun r hr => Nat.ne_of_lt (htake.start_lt r hr)
        rw [recoveredBase_cons hs, hq, hkept, hv]
        exact sidecarOr_eq (fun v' hv' => Option.some.inj hv' ▸ (h.ppMeta first' v hv).2) (fun hnone => nomatch hnone)
  · exact fun s v hv => h.ppMeta s v (hc.ppMeta_sub s v hv)

end MultiDir.Ok

/-! ## Recovery is sound on the invariant -/

/-- Before the active segment stand the compacted prefix and the sealed records. -/
theorem Files.Holds.take_active {ρ : Type} {f : Files ρ} {log : List ρ} {first activeStart : Nat}
    (h : f.Holds log first activeStart) : log.take first ++ f.sealed.flatMap (·.2) = log.take activeStart := by
  refine List.append_cancel_right (?_ : _ ++ log.drop activeStart = _ ++ log.drop activeStart)
  rw [List.append_assoc, h.tiles.flatMap_append, List.take_append_drop, List.take_append_drop]

theorem segments_readSealedMulti (n : Nat) (running : List Nat) (sealed : List (Nat × List Tagged)) :
    (readSealedMulti n running sealed).map (fun s => (s.start, s.stop)) =
      sealed.map fun p => (p.1, p.1 + p.2.length) := by
  induction sealed generalizing running with
  | nil => rfl
  | cons p ps ih => exact congrArg ((p.1, p.1 + p.2.length) :: ·) (ih _)

/-- The counters recovery rebuilds are those of the log. -/
theorem surveyedMulti_counts {dir : MultiDir} {log : List Tagged} {first activeStart : Nat}
    (h : dir.Ok T R log first activeStart) (htags : ∀ r ∈ log, r.1 < T.numPartitions) :
    (surveyedMulti T.numPartitions dir.toFiles).shared.perPartitionActiveStart =
        countsOf T.numPartitions (log.take activeStart) ∧
      (surveyedMulti T.numPartitions dir.toFiles).shared.perPartitionTotal = countsOf T.numPartitions log := by
  have hsealed : ∀ r ∈ dir.toFiles.sealed.flatMap (·.2), r.1 < T.numPartitions := by
    intro r hr
    have hmem := List.mem_append_right (log.take first) hr
    rw [h.files.take_active] at hmem
    exact htags r (List.mem_of_mem_take hmem)
  have hactive : ∀ r ∈ dir.toFiles.active, r.1 < T.numPartitions := by
    intro r hr
    rw [h.files.active] at hr
    exact htags r (List.mem_of_mem_drop hr)
  have hstart : bumpTags T.numPartitions (recoveredBase T.numPartitions dir.toFiles)
      (dir.toFiles.sealed.flatMap (·.2)) = countsOf T.numPartitions (log.take activeStart) := by
    rw [h.base, bumpTags_countsOf _ _ hsealed, h.files.take_active]
  refine ⟨hstart, ?_⟩
  show bumpTags _ (bumpTags _ _ _) dir.toFiles.active = _
  rw [hstart, bumpTags_countsOf _ _ hactive, h.files.active, List.take_append_drop]

/-- The surviving events of a partition, past those a count covers. -/
theorem eventsOf_drop_skip {log : List Tagged} {first covered : Nat} (p : Nat)
    (h : (eventsOf p (log.take first)).length = 0 ∨ (eventsOf p (log.take first)).length ≤ covered) :
    (eventsOf p (log.drop first)).drop (covered - (eventsOf p (log.take first)).length) =
      (eventsOf p log).drop covered := by
  have hsplit : eventsOf p log = eventsOf p (log.take first) ++ eventsOf p (log.drop first) := by
    rw [← eventsOf_append, List.take_append_drop]
  rw [hsplit, List.drop_append]
  rcases h with hzero | hle
  · rw [List.length_eq_zero_iff.1 hzero]
    simp
  · rw [List.drop_eq_nil_of_le hle, List.nil_append]

theorem isBroadcast_isDeployment {n : Nat} {r : Tagged} (h : isBroadcast n r = true) : r.2.isDeployment = true := by
  obtain ⟨tag, e⟩ := r
  cases e <;> first | rfl | cases h

theorem mem_of_entryOf {entries : List MultiSnapshotEntry} {p : Nat} {e : MultiSnapshotEntry}
    (h : entryOf entries p = some e) : e ∈ entries ∧ e.partition = p := by
  refine ⟨List.mem_reverse.1 (List.mem_of_find?_eq_some h), ?_⟩
  simpa using List.find?_some h

/-- The snapshot branch: the base is below the covered count, so exactly the covered events are skipped. -/
theorem rebuild_from_entry {log : List Tagged} {first p : Nat} {entry : MultiSnapshotEntry} (hok : entry.Ok R log)
    (hp : entry.partition = p)
    (hbase : (eventsOf p (log.take first)).length = 0 ∨ (eventsOf p (log.take first)).length ≤ entry.covered) :
    R.Rel p log (eventsOf p log)
      (if entry.covered - (eventsOf p (log.take first)).length < (eventsOf p (log.drop first)).length then
        (Engine.fromSnapshot entry.engine).applyReplayedEvents
          ((eventsOf p (log.drop first)).drop (entry.covered - (eventsOf p (log.take first)).length))
      else Engine.fromSnapshot entry.engine).logged := by
  subst hp
  have hskip := eventsOf_drop_skip entry.partition hbase
  have htail := R.own hok.replays ((eventsOf entry.partition log).drop entry.covered)
  rw [List.take_append_drop] at htail
  split
  · rw [hskip, logged_applyReplayedEvents_eq]
    exact htail
  · rename_i hlt
    rw [List.drop_eq_nil_of_le (Nat.le_of_not_lt hlt)] at hskip
    rw [← hskip] at htail
    exact htail

/-- What the choice of a source tells about the log. -/
theorem chooseSource_spec {dir : MultiDir} {log : List Tagged} {first activeStart : Nat} {source : Source}
    (h : dir.Ok T R log first activeStart)
    (hs : chooseSource dir (surveyedMulti T.numPartitions dir.toFiles) = .ok source) :
    (∃ entries, source = .snapshot (some entries) ∧ ∀ e ∈ entries, e.Ok R log) ∨
      (source = .snapshot none ∧ first = 0) ∨ ∃ cold, source = .migrate cold ∧ cold ++ log.drop first = log := by
  have hfirst : (surveyedMulti T.numPartitions dir.toFiles).firstIndex = first := h.files.recoveredFirstIndex_eq
  unfold chooseSource at hs
  dsimp only at hs
  cases hc : dir.combined with
  | none =>
    rw [hc] at hs
    dsimp only at hs
    split at hs
    · rename_i hzero
      cases hs
      exact Or.inr (Or.inl ⟨rfl, hfirst ▸ hzero⟩)
    · split at hs
      · cases hs
      · cases hs
      · rename_i cold hcold
        cases hs
        rw [hfirst] at hcold
        exact Or.inr (Or.inr ⟨cold, rfl, fullColdPrefix_sound h.files.cold hcold⟩)
  | some c =>
    obtain ⟨entries, rfl, hok⟩ := h.combined c hc
    rw [hc] at hs
    cases hs
    exact Or.inl ⟨entries, rfl, hok⟩

/-- The guard of an accepted recovery: a partition with a compacted prefix has an entry that reaches past it. -/
theorem checkCompacted_entry {log : List Tagged} {first p : Nat} {survey : MultiSegRecovery}
    {entries : List MultiSnapshotEntry} (hcheck : checkCompacted T.owned survey (.snapshot (some entries)) = .ok ())
    (hp : p ∈ T.owned) (hbase : survey.ppBase.getD p 0 = (eventsOf p (log.take first)).length)
    (hne : (eventsOf p (log.take first)).length ≠ 0) :
    ∃ e, entryOf entries p = some e ∧ (eventsOf p (log.take first)).length ≤ e.covered := by
  unfold checkCompacted at hcheck
  dsimp only at hcheck
  split at hcheck
  · cases hcheck
  · split at hcheck
    · rename_i hnone
      have := List.find?_eq_none.1 hnone p hp
      rw [hbase] at this
      cases he : entryOf entries p with
      | none => simp [he, hne] at this
      | some e => exact ⟨e, rfl, by simpa [he, hne] using this⟩
    · cases hcheck

theorem rebuildPartition_ok {dir : MultiDir} {log : List Tagged} {first activeStart : Nat} {source : Source}
    (h : dir.Ok T R log first activeStart)
    (hs : chooseSource dir (surveyedMulti T.numPartitions dir.toFiles) = .ok source)
    (hcheck : checkCompacted T.owned (surveyedMulti T.numPartitions dir.toFiles) source = .ok ())
    {p : Nat} (hp : p ∈ T.owned) :
    R.Rel p log (eventsOf p log)
      (rebuildPartition T.numPartitions none (surveyedMulti T.numPartitions dir.toFiles) source p).logged := by
  have htagged : (surveyedMulti T.numPartitions dir.toFiles).tagged = log.drop first := h.files.survivingRecords_eq
  have hbase : (surveyedMulti T.numPartitions dir.toFiles).ppBase.getD p 0 = (eventsOf p (log.take first)).length := by
    show (recoveredBase T.numPartitions dir.toFiles).getD p 0 = _
    rw [h.base, getD_countsOf (T.lt p hp)]
  have hfull : R.Rel p log (eventsOf p log) (Engine.replayPartition p (eventsOf p log)).logged := by
    have := R.own (R.start p log) (eventsOf p log)
    rw [List.nil_append] at this
    rw [Engine.replayPartition, logged_applyReplayedEvents_eq]
    exact this
  -- the broadcast adds only deployments that other partitions journaled
  have hinstall : ∀ (history : List Tagged) (engine : Engine), (∀ r ∈ history, r ∈ log) →
      R.Rel p log (eventsOf p log) engine.logged →
      R.Rel p log (eventsOf p log)
        (if (((history.filter (isBroadcast T.numPartitions)).filter (·.1 != p)).map (·.2)).isEmpty then engine
        else engine.installDeploymentIfNewer
          (((history.filter (isBroadcast T.numPartitions)).filter (·.1 != p)).map (·.2))).logged := by
    intro history engine hsub hengine
    split
    · exact hengine
    · refine (logged_installDeployment engine _).symm ▸ R.install hengine fun e he => ?_
      obtain ⟨r, hr, rfl⟩ := List.mem_map.1 he
      obtain ⟨hr, hne⟩ := List.mem_filter.1 hr
      obtain ⟨hr, hb⟩ := List.mem_filter.1 hr
      exact ⟨isBroadcast_isDeployment hb, r.1, by simpa using hne, hsub r hr⟩
  have hdrop : ∀ r ∈ log.drop first, r ∈ log := fun r hr => List.mem_of_mem_drop hr
  rcases chooseSource_spec h hs with ⟨entries, rfl, hok⟩ | ⟨rfl, hzero⟩ | ⟨cold, rfl, hcold⟩
  · unfold rebuildPartition
    dsimp only
    rw [htagged, hbase, Option.bind_some]
    refine hinstall _ _ hdrop ?_
    have hguard := checkCompacted_entry hcheck hp hbase
    cases he : entryOf entries p with
    | none =>
      by_cases hzero : (eventsOf p (log.take first)).length = 0
      · have := @eventsOf_drop_skip log first 0 p (Or.inl hzero)
        rw [Nat.zero_sub, List.drop_zero, List.drop_zero] at this
        rw [this]
        exact hfull
      · obtain ⟨e, hsome, -⟩ := hguard hzero
        rw [he] at hsome
        cases hsome
    | some entry =>
      obtain ⟨hmem, hpart⟩ := mem_of_entryOf he
      refine rebuild_from_entry (hok entry hmem) hpart ?_
      by_cases hzero : (eventsOf p (log.take first)).length = 0
      · exact Or.inl hzero
      · obtain ⟨e, hsome, hle⟩ := hguard hzero
        rw [he] at hsome
        cases hsome
        exact Or.inr hle
  · unfold rebuildPartition
    dsimp only
    rw [htagged, hzero]
    exact hinstall _ _ (fun r hr => hr) hfull
  · unfold rebuildPartition
    dsimp only
    rw [htagged, hcold]
    exact hinstall _ _ (fun r hr => hr) hfull

/-- What an accepted recovery returns. -/
structure MultiRecoveredOk (T : Topology) (R : ReplayRel) (log : List Tagged) (first activeStart : Nat)
    (r : MultiSegRecovery) (dir : MultiDir) : Prop where
  layout : dir.Ok T R log first activeStart
  engines : ∀ p ∈ T.owned, R.Rel p log (eventsOf p log) (r.engineOf p).logged
  total : r.totalEvents = log.length
  shared : r.shared.Tracks dir.toFiles log activeStart
  totals : r.shared.perPartitionTotal = countsOf T.numPartitions log
  starts : r.shared.perPartitionActiveStart = countsOf T.numPartitions (log.take activeStart)

theorem lookup_map_self {α : Type} (f : Nat → α) {p : Nat} {ps : List Nat} (h : p ∈ ps) :
    (ps.map fun q => (q, f q)).lookup p = some (f p) := by
  induction ps with
  | nil => cases h
  | cons q qs ih =>
    rw [List.map_cons, List.lookup_cons]
    by_cases he : p = q
    · rw [he, beq_self_eq_true]
    · rw [beq_false_of_ne he]
      exact ih ((List.mem_cons.1 h).resolve_left he)

/-- The shape of every accepted recovery. -/
theorem recoverMulti_cases {dir dir' : MultiDir} {written : Bool} {r : MultiSegRecovery}
    (h : recoverMulti T.owned T.numPartitions none written dir = .ok (r, dir')) :
    ∃ source, chooseSource dir (surveyedMulti T.numPartitions dir.toFiles) = .ok source ∧
      checkCompacted T.owned (surveyedMulti T.numPartitions dir.toFiles) source = .ok () ∧
      r.shared = (surveyedMulti T.numPartitions dir.toFiles).shared ∧
      r.totalEvents = (surveyedMulti T.numPartitions dir.toFiles).totalEvents ∧
      r.engines = T.owned.map (fun p => (p, rebuildPartition T.numPartitions none
        (surveyedMulti T.numPartitions dir.toFiles) source p)) ∧
      (dir' = dir ∨ (∃ cold, source = .migrate cold) ∧ dir' = (dir.writeMultiSnapshot (r.engines.map fun pe =>
          (⟨pe.1, r.shared.perPartitionTotal.getD pe.1 0, pe.2.snapshot⟩ : MultiSnapshotEntry))).withFiles
            (pruneColdArchive dir.toFiles r.totalEvents)) := by
  unfold recoverMulti at h
  cases hs : chooseSource dir (surveyedMulti T.numPartitions dir.toFiles) with
  | error e => simp [hs, bind, Except.bind] at h
  | ok source =>
    cases hc : checkCompacted T.owned (surveyedMulti T.numPartitions dir.toFiles) source with
    | error e => simp [hs, hc, bind, Except.bind] at h
    | ok u =>
      refine ⟨source, rfl, hc, ?_⟩
      simp only [hs, hc, bind, Except.bind, pure, Except.pure] at h
      cases source with
      | snapshot entries =>
        cases h
        exact ⟨rfl, rfl, rfl, Or.inl rfl⟩
      | migrate cold =>
        cases h
        refine ⟨rfl, rfl, rfl, ?_⟩
        split
        · exact Or.inr ⟨⟨cold, rfl⟩, rfl⟩
        · exact Or.inl rfl

theorem recoverMulti_ok {dir dir' : MultiDir} {log : List Tagged} {first activeStart : Nat} {written : Bool}
    {r : MultiSegRecovery} (h : dir.Ok T R log first activeStart) (htags : ∀ x ∈ log, x.1 ∈ T.owned)
    (hr : recoverMulti T.owned T.numPartitions none written dir = .ok (r, dir')) :
    MultiRecoveredOk T R log first activeStart r dir' := by
  obtain ⟨source, hs, hcheck, hshared, htotal, hengines, hdir⟩ := recoverMulti_cases hr
  obtain ⟨hstarts, htotals⟩ := surveyedMulti_counts h fun x hx => T.lt x.1 (htags x hx)
  have hreplay : ∀ p ∈ T.owned, R.Rel p log (eventsOf p log) (r.engineOf p).logged := by
    intro p hp
    rw [MultiSegRecovery.engineOf, hengines, lookup_map_self _ hp]
    exact rebuildPartition_ok h hs hcheck hp
  have hlayout : dir'.Ok T R log first activeStart := by
    rcases hdir with rfl | ⟨-, rfl⟩
    · exact h
    · refine ⟨h.files.prune _, h.base, h.ppMeta, ?_⟩
      rintro _ ⟨⟩
      refine ⟨_, rfl, fun e he => ?_⟩
      obtain ⟨⟨p, engine⟩, hpe, rfl⟩ := List.mem_map.1 he
      rw [hengines] at hpe
      obtain ⟨q, hq, heq⟩ := List.mem_map.1 hpe
      obtain ⟨rfl, rfl⟩ := Prod.mk.inj heq
      have hrq := rebuildPartition_ok h hs hcheck hq
      have hcov : r.shared.perPartitionTotal.getD q 0 = (eventsOf q log).length := by
        rw [hshared, htotals, getD_countsOf (T.lt q hq)]
      constructor
      · exact Nat.le_of_eq hcov
      · show R.Rel q log ((eventsOf q log).take (r.shared.perPartitionTotal.getD q 0)) _
        rw [hcov, List.take_length]
        exact R.snapshot hrq
  have hsealed : dir'.toFiles.sealed = dir.toFiles.sealed := by
    rcases hdir with rfl | ⟨-, rfl⟩ <;> rfl
  refine ⟨hlayout, hreplay, htotal.trans h.files.total_eq, ⟨?_, ?_, ?_⟩, ?_, ?_⟩
  · rw [hshared]
    exact h.files.total_eq
  · rw [hshared]
    exact h.files.recoveredActiveStart_eq
  · rw [hshared, hsealed]
    exact segments_readSealedMulti _ _ _
  · rw [hshared, htotals]
  · rw [hshared, hstarts]

/-! ## Steps and runs -/

theorem removesSealed_removeWithSidecar : RemovesSealed removeWithSidecar where
  sealed := fun _ _ => rfl
  active := fun _ _ => rfl
  head := fun _ _ => rfl
  cold := fun _ _ => rfl
  ppHead := fun _ _ => rfl
  ppMeta := by
    intro f start s hne
    show (f.ppMeta.erase start)[s]? = _
    rw [Std.ExtTreeMap.getElem?_erase, if_neg]
    exact fun heq => hne (Std.LawfulEqCmp.compare_eq_iff_eq.1 heq).symm
  ppMeta_sub := by
    intro f start s v hv
    change (f.ppMeta.erase start)[s]? = some v at hv
    rw [Std.ExtTreeMap.getElem?_erase] at hv
    split at hv
    · cases hv
    · exact hv

/-- Sealing keeps directory and writer in step, whichever best-effort writes are lost, as long as the
sidecar of an only segment is kept. -/
theorem seal_ok {dir : MultiDir} {w : MultiWriter} {log : List Tagged} {first activeStart : Nat} (writes : SealWrites)
    (hdir : dir.Ok T R log first activeStart) (hw : w.Ok T R dir log activeStart)
    (hkeep : w.shared.sealed = [] → w.shared.totalEvents ≠ w.shared.activeStart →
      writes.ppMeta = true ∨ ∀ c ∈ w.shared.perPartitionActiveStart, c = 0) :
    ∃ start', (dir.withFiles (sealSegment writes dir.toFiles w.shared).1).Ok T R log first start' ∧
      (∀ taken takenAt covered, (∀ e ∈ taken, MultiSnapshotEntry.Ok R e log) →
        MultiWriter.Ok T R ⟨(sealSegment writes dir.toFiles w.shared).2.1, taken, takenAt, covered⟩
          (dir.withFiles (sealSegment writes dir.toFiles w.shared).1) log start') ∧
      (sealSegment writes dir.toFiles w.shared).2.2.perPartitionEnd = countsOf T.numPartitions log := by
  unfold sealSegment
  dsimp only
  split
  · exact ⟨activeStart, hdir, fun _ _ _ ht => ⟨hw.shared, hw.totals, hw.starts, ht⟩, hw.totals⟩
  · rename_i hne
    have hlt : activeStart < log.length := by
      have := hdir.files.activeStart_le
      have := hw.shared.total
      have := hw.shared.start
      omega
    have hkeep' : dir.toFiles.sealed = [] → writes.ppMeta = true ∨ ∀ c ∈ w.shared.perPartitionActiveStart, c = 0 := by
      intro hnil
      have hlen := congrArg List.length hw.shared.segments
      rw [hnil] at hlen
      exact hkeep (List.length_eq_zero_iff.1 (by simpa using hlen)) hne
    refine ⟨log.length, ?_, fun taken takenAt covered ht => ⟨⟨hw.shared.total, hw.shared.total, ?_⟩, hw.totals, ?_, ht⟩,
      hw.totals⟩
    · rw [hw.shared.start]
      exact hdir.rename hlt hw.starts hkeep' _ _
    · show (w.shared.sealed ++ [_]).map _ = (Tiling.file w.shared.activeStart dir.toFiles.active dir.toFiles.sealed).map _
      rw [hw.shared.start, file_eq_append hdir.files.tiles.start_lt, List.map_append, List.map_append,
        hw.shared.segments, hdir.files.active]
      simp only [List.map_cons, List.map_nil, List.length_drop, hw.shared.total]
      congr 3
      omega
    · rw [List.take_length]
      exact hw.totals

/-- The writer's part of a batch. -/
theorem MultiWriter.Ok.append {w : MultiWriter} {dir : MultiDir} {log : List Tagged} {activeStart : Nat}
    (h : w.Ok T R dir log activeStart) (hle : activeStart ≤ log.length) (p : Nat) (events : List Event) :
    MultiWriter.Ok T R { w with shared := w.shared.append events.length (batchDeltas T.numPartitions p events.length) }
      (dir.withFiles (dir.toFiles.append (events.map (p, ·)))) (log ++ events.map (p, ·)) activeStart where
  shared := by
    refine ⟨?_, h.shared.start, h.shared.segments⟩
    show w.shared.totalEvents + events.length = (log ++ events.map (p, ·)).length
    rw [h.shared.total, List.length_append, List.length_map]
  totals := by
    show addPartitionEvents w.shared.perPartitionTotal _ = _
    rw [h.totals, addPartitionEvents_batch]
  starts := by
    rw [List.take_append_of_le_length hle]
    exact h.starts
  taken := fun e he => (h.taken e he).extend _

theorem MultiNode.Inv.append {n : MultiNode} {w : MultiWriter} {first activeStart p : Nat} {events : List Event}
    {engine : Engine} (h : n.Inv T R first activeStart) (hw : n.writer = some w) (hp : p ∈ T.owned)
    (happly : engine.logged = ((n.engines p).applyReplayedEvents events).logged) :
    MultiNode.Inv T R
      { n with
        dir := n.dir.withFiles (n.dir.toFiles.append (events.map (p, ·)))
        writer := some
          { w with shared := w.shared.append events.length (batchDeltas T.numPartitions p events.length) }
        engines := fun q => if q = p then engine else n.engines q
        log := n.log ++ events.map (p, ·) } first activeStart := by
  refine ⟨h.dir.append _, ?_, ?_, ?_⟩
  · intro r hr
    rcases List.mem_append.1 hr with hr | hr
    · exact h.tags r hr
    · obtain ⟨e, -, rfl⟩ := List.mem_map.1 hr
      exact hp
  · intro q hq
    have hold := R.extend (h.engines q hq) (events.map (p, ·))
    dsimp only
    rw [eventsOf_append]
    by_cases he : q = p
    · subst he
      rw [if_pos rfl, eventsOf_batch_self, happly, logged_applyReplayedEvents_eq]
      exact R.own hold events
    · rw [if_neg he, eventsOf_batch_other he, List.append_nil]
      exact hold
  · rintro _ ⟨⟩
    exact (h.writer w hw).append h.dir.files.activeStart_le p events

theorem MultiNode.Inv.deploy {n : MultiNode} {w : MultiWriter} {first activeStart p : Nat} {events : List Event}
    (h : n.Inv T R first activeStart) (hw : n.writer = some w) (hp : p ∈ T.owned)
    (hdep : ∀ e ∈ events, e.isDeployment = true) :
    MultiNode.Inv T R
      { n with
        dir := n.dir.withFiles (n.dir.toFiles.append (events.map (p, ·)))
        writer := some
          { w with shared := w.shared.append events.length (batchDeltas T.numPartitions p events.length) }
        engines := fun q => if q ∈ T.owned then (n.engines q).installDeployment events else n.engines q
        log := n.log ++ events.map (p, ·) } first activeStart := by
  -- for the partition that journals it, a deployment is a batch of its own
  have happend := h.append hw hp (rfl : ((n.engines p).applyReplayedEvents events).logged = _)
  refine ⟨happend.dir, happend.tags, ?_, happend.writer⟩
  intro q hq
  dsimp only
  rw [if_pos hq, eventsOf_append, logged_installDeployment]
  have hold := R.extend (h.engines q hq) (events.map (p, ·))
  by_cases he : q = p
  · subst he
    rw [eventsOf_batch_self, takeInputs_installed_eq _ hdep]
    exact R.own hold events
  · rw [eventsOf_batch_other he, List.append_nil]
    refine R.install hold fun e hmem => ⟨hdep e hmem, p, Ne.symm he, ?_⟩
    exact List.mem_append_right _ (List.mem_map_of_mem hmem)

theorem MultiNode.Inv.step {n n' : MultiNode} {op : MultiOp} {first activeStart : Nat} (h : n.Inv T R first activeStart)
    (hop : KeepsSidecars n op) (hs : MultiStep T n op n') : ∃ first' start', n'.Inv T R first' start' ∧
      ((∃ exported flags, op = .compact exported flags) ∨ first' = first) := by
  cases hs with
  | append hw hp happly => exact ⟨first, activeStart, h.append hw hp happly, Or.inr rfl⟩
  | deploy hw hp hdep => exact ⟨first, activeStart, h.deploy hw hp hdep, Or.inr rfl⟩
  | @sealActive w writes hw =>
    obtain ⟨start', hdir, hwr, -⟩ := seal_ok writes h.dir (h.writer w hw) (hop w hw)
    refine ⟨first, start', ⟨hdir, h.tags, h.engines, ?_⟩, Or.inr rfl⟩
    rintro _ ⟨⟩
    exact hwr _ _ _ (h.writer w hw).taken
  | @sealInterrupted w metaWritten hw hne =>
    have hok := h.writer w hw
    have hlt : activeStart < n.log.length := by
      have := h.dir.files.activeStart_le
      have := hok.shared.total
      have := hok.shared.start
      omega
    refine ⟨first, n.log.length, ⟨?_, h.tags, h.engines, fun _ hnone => nomatch hnone⟩, Or.inr rfl⟩
    rw [hok.shared.start]
    refine h.dir.rename hlt hok.starts (fun hnil => ?_) _ _
    have hlen := congrArg List.length hok.shared.segments
    rw [hnil] at hlen
    exact hop w hw (List.length_eq_zero_iff.1 (by simpa using hlen)) hne
  | @snapshotPartition w p writes hw hp hfresh =>
    obtain ⟨start', hdir, hwr, hcounts⟩ := seal_ok writes h.dir (h.writer w hw) (hop w hw)
    refine ⟨first, start', ⟨hdir, h.tags, h.engines, ?_⟩, Or.inr rfl⟩
    rintro _ ⟨⟩
    refine hwr _ _ _ fun e he => ?_
    rcases List.mem_append.1 he with he | he
    · exact (h.writer w hw).taken e he
    · obtain rfl := List.mem_singleton.1 he
      have hcov : (countsOf T.numPartitions n.log).getD p (sealSegment writes n.dir.toFiles w.shared).2.2.stop =
          (eventsOf p n.log).length := by
        rw [List.getD_eq_getElem?_getD, getElem?_countsOf, if_pos (T.lt p hp), Option.getD_some]
      have hengine := h.engines p hp
      rw [hcounts, hcov]
      constructor
      · exact Nat.le_refl _
      · show R.Rel p n.log ((eventsOf p n.log).take (eventsOf p n.log).length) _
        rw [List.take_length]
        exact R.snapshot hengine
  | @dropTick w hw =>
    have hok := h.writer w hw
    refine ⟨first, activeStart, ⟨h.dir, h.tags, h.engines, ?_⟩, Or.inr rfl⟩
    rintro _ ⟨⟩
    exact ⟨hok.shared, hok.totals, hok.starts, fun _ he => nomatch he⟩
  | @writeSnapshot w hw htick =>
    have hok := h.writer w hw
    refine ⟨first, activeStart, ⟨⟨h.dir.files, h.dir.base, h.dir.ppMeta, ?_⟩, h.tags, h.engines, ?_⟩, Or.inr rfl⟩
    · rintro _ ⟨⟩
      exact ⟨w.taken, rfl, hok.taken⟩
    · rintro _ ⟨⟩
      exact ⟨hok.shared, hok.totals, hok.starts, fun _ he => nomatch he⟩
  | @archive w exported seg rest f hw hseg hdel ha =>
    have hok := h.writer w hw
    cases hsealed : n.dir.toFiles.sealed with
    | nil =>
      have := hok.shared.segments
      rw [hseg, hsealed] at this
      exact absurd this (by simp)
    | cons q qs =>
      have hsegs := hok.shared.segments
      rw [hseg, hsealed, List.map_cons, List.map_cons] at hsegs
      obtain ⟨hstart, hstop⟩ := Prod.mk.inj (List.cons.inj hsegs).1
      rw [hstart, hstop] at ha
      obtain ⟨hf, hcold⟩ := archive_spec h.dir.files.tiles h.dir.files.first_le h.dir.files.cold hsealed ha
      rw [hf]
      refine ⟨first, activeStart, ⟨⟨?_, h.dir.base, h.dir.ppMeta, h.dir.combined⟩, h.tags, h.engines, fun w' hw' => ?_⟩,
        Or.inr rfl⟩
      · exact ⟨h.dir.files.tiles, h.dir.files.first_le, h.dir.files.active, h.dir.files.position, hcold⟩
      · have hok' := h.writer w' hw'
        exact ⟨⟨hok'.shared.total, hok'.shared.start, hok'.shared.segments⟩, hok'.totals, hok'.starts, hok'.taken⟩
  | @compact w exported flags hw =>
    have hok := h.writer w hw
    obtain ⟨hflags, hboundary⟩ := hop
    unfold compactMulti
    rw [compactFaulty_eq _ _ _ hflags]
    obtain ⟨k, hk⟩ := @compactLoop_spec _ (deletableMulti w.covered exported) _ removesSealed_removeWithSidecar _ _
      flags.length n.dir.toFiles w.shared.sealed first h.dir.files.tiles h.dir.files.first_le h.dir.files.cold
      hok.shared.segments
    have hkeep := hboundary w hw
    dsimp only at hkeep
    rw [← hk.removed] at hkeep
    obtain ⟨first', hdir⟩ := h.dir.compacted hok.shared hok.starts hk hkeep
    refine ⟨first', activeStart, ⟨hdir, h.tags, h.engines, ?_⟩, Or.inl ⟨_, _, rfl⟩⟩
    rintro _ ⟨⟩
    refine ⟨⟨hok.shared.total, hok.shared.start, ?_⟩, hok.totals, hok.starts, hok.taken⟩
    show (compactLoop _ _ _ _ _).2.map _ = (compactLoop _ _ _ _ _).1.sealed.map _
    rw [hk.segments, hk.files, List.map_drop, List.map_drop, hok.shared.segments]
  | prune =>
    refine ⟨first, activeStart, ⟨⟨h.dir.files.prune _, h.dir.base, h.dir.ppMeta, h.dir.combined⟩, h.tags, h.engines,
      fun w hw => ?_⟩, Or.inr rfl⟩
    have hok := h.writer w hw
    exact ⟨⟨hok.shared.total, hok.shared.start, hok.shared.segments⟩, hok.totals, hok.starts, hok.taken⟩
  | crash => exact ⟨first, activeStart, ⟨h.dir, h.tags, h.engines, fun _ hnone => nomatch hnone⟩, Or.inr rfl⟩
  | recover hr =>
    have hok := recoverMulti_ok h.dir h.tags hr
    refine ⟨first, activeStart, ⟨hok.layout, h.tags, hok.engines, ?_⟩, Or.inr rfl⟩
    rintro _ ⟨⟩
    exact ⟨hok.shared, hok.totals, hok.starts, fun _ he => nomatch he⟩

theorem MultiNode.Inv.init : ({} : MultiNode).Inv T R 0 0 where
  dir := ⟨Files.Holds.empty, (recoveredBase_nil rfl).trans (countsOf_nil _).symm,
    fun s v hv => absurd (hv.symm.trans Std.ExtTreeMap.getElem?_empty) (by simp), fun _ hc => nomatch hc⟩
  tags := fun _ hr => nomatch hr
  engines := fun p _ => R.start p []
  writer := fun _ hw => nomatch hw

theorem MultiNode.Inv.run {n : MultiNode} (h : MultiReachable T KeepsSidecars n) :
    ∃ first activeStart, n.Inv T R first activeStart := by
  induction h with
  | init => exact ⟨0, 0, MultiNode.Inv.init⟩
  | step op _ hop hs ih =>
    obtain ⟨first, activeStart, hinv⟩ := ih
    obtain ⟨first', start', hinv', -⟩ := hinv.step hop hs
    exact ⟨first', start', hinv'⟩

def MultiUnrestricted (_ : MultiNode) (_ : MultiOp) : Prop := True

/-- Recovery fails or gives every owned partition the replay of exactly its tagged events, and its count. -/
def MultiNode.Sound (T : Topology) (n : MultiNode) : Prop :=
  ∀ written r dir, recoverMulti T.owned T.numPartitions none written n.dir = .ok (r, dir) → ∀ p ∈ T.owned,
    (r.engineOf p).logged = (Engine.replayPartition p (eventsOf p n.log)).logged ∧
      r.shared.perPartitionTotal[p]? = some (eventsOf p n.log).length

/-- **Recovery replays each partition's own events.** In every run in which no sidecar recovery relies on is
lost, recovery fails or gives every owned partition an engine that has replayed exactly the events under its
tag, in log order, interleaved only with deployments journaled under other tags; where there are none of
those it is exactly the replay. The partition's count is the number of its tagged events. -/
theorem recoverMulti_replays_tagged {T : Topology} {n : MultiNode} (h : MultiReachable T KeepsSidecars n)
    (written : Bool) {r : MultiSegRecovery} {dir : MultiDir}
    (hr : recoverMulti T.owned T.numPartitions none written n.dir = .ok (r, dir)) {p : Nat} (hp : p ∈ T.owned) :
    ReplaysFor p n.log (eventsOf p n.log) (r.engineOf p).logged ∧
      ((∀ x ∈ n.log, x.2.isDeployment = true → x.1 = p) →
        (r.engineOf p).logged = (Engine.replayPartition p (eventsOf p n.log)).logged) ∧
      r.shared.perPartitionTotal[p]? = some (eventsOf p n.log).length := by
  obtain ⟨first, activeStart, hinv⟩ := @MultiNode.Inv.run T ReplayRel.replays n h
  have hok := recoverMulti_ok hinv.dir hinv.tags hr
  have hreplays : ReplaysFor p n.log (eventsOf p n.log) (r.engineOf p).logged := hok.engines p hp
  refine ⟨hreplays, hreplays.exact, ?_⟩
  rw [hok.totals, getElem?_countsOf, if_pos (T.lt p hp)]

/-- A node that owns partitions 1 and 2 of a cluster of three. -/
def peerTopology : Topology := ⟨[1, 2], 3, by decide, by decide⟩

/-- A process keyed to the deployment partition 0. -/
def replicatedProcess : Event := .processDeployed 1 2 1 { id := "demo", startEvent := "start" }

/-- Two partitions write, a snapshot is taken and everything sealed is compacted, one more event, a crash. -/
theorem recoverMulti_replays_after_compaction : ∃ n, MultiReachable peerTopology KeepsSidecars n ∧
    n.log.length = 3 ∧ n.dir.sealed = [] ∧ ∃ r dir,
      recoverMulti peerTopology.owned peerTopology.numPartitions none false n.dir = .ok (r, dir) ∧
      r.shared.perPartitionTotal[2]? = some 2 := by
  have hinit : MultiReachable peerTopology KeepsSidecars {} := .init
  have hopen := hinit.step (.recover false) trivial (.recover rfl)
  have hone := hopen.step (.append 1 [.deploymentCreated 1] _) trivial (.append rfl (by decide) rfl)
  have htwo := hone.step (.append 2 [.deploymentCreated 2] _) trivial (.append rfl (by decide) rfl)
  have hsnap1 := htwo.step (.snapshotPartition 1 ⟨true, true, true⟩) (fun _ _ _ _ => Or.inl rfl)
    (.snapshotPartition rfl (by decide) (by decide))
  have hsnap2 := hsnap1.step (.snapshotPartition 2 ⟨true, true, true⟩) (fun _ _ _ _ => Or.inl rfl)
    (.snapshotPartition rfl (by decide) (by decide))
  have hwrite := hsnap2.step .writeSnapshot trivial (.writeSnapshot rfl rfl)
  have hcompact := hwrite.step (.compact [0, 1, 1] [true])
    ⟨by decide, by rintro _ ⟨⟩ removed last -; rw [if_pos (by rfl)]; exact ⟨rfl, rfl⟩⟩ (.compact rfl)
  have hlate := hcompact.step (.append 2 [.deploymentCreated 3] _) trivial (.append rfl (by decide) rfl)
  have hcrash := hlate.step .crash trivial .crash
  obtain ⟨-, -, hcount⟩ := recoverMulti_replays_tagged hcrash false rfl (by decide : 2 ∈ peerTopology.owned)
  exact ⟨_, hcrash, rfl, rfl, _, _, rfl, hcount⟩

/-- Partition 1 journals a process of the deployment partition; recovery installs it into partition 2, none
of whose own events deploys it. -/
theorem recoverMulti_installs_foreign_process :
    ¬ ∀ (T : Topology) (n : MultiNode), MultiReachable T MultiUnrestricted n → n.Sound T := by
  intro h
  have hinit : MultiReachable peerTopology MultiUnrestricted {} := .init
  have hopen := hinit.step (.recover false) trivial (.recover rfl)
  have hdeploy := hopen.step (.append 1 [replicatedProcess] _) trivial (.append rfl (by decide) rfl)
  have hcrash := hdeploy.step .crash trivial .crash
  obtain ⟨hengine, -⟩ := h _ _ hcrash false _ _ rfl 2 (by decide)
  have hprocess := congrArg (fun l : Engine.Logged => (l.state.processVersions[2]?).isSome) hengine
  exact absurd hprocess (by decide +kernel)

end Seglog

end NanoBpm
