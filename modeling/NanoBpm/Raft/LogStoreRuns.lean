import NanoBpm.Raft.LogStoreSteps

/-!
# Opening and runs of the Raft log stores (`raft_logstore.rs:805-918`)

A directory whose segments are in order opens with what of them is not purged. So a store that is closed and opened anywhere in
a run has the entries it had, and the durable store reads as the one in memory does after the same operations.
-/

namespace NanoBpm.Raft.LogStore

open Seglog (Bytes Deflate storedDeflate)

variable {π : Type} {z : Deflate} {c : EntryCodec π}

/-! ## Opening -/

/-- The index of a record that was just read. -/
def storedOf (place : Nat × ScannedEntry π) : Nat × Stored π :=
  (place.2.index, ⟨place.2.logId, place.2.len, place.2.ramLen, place.1, place.2.offset, some place.2.entry⟩)

theorem storedOf_indexed (ps : List (Nat × ScannedEntry π)) : List.Forall₂ Indexed (ps.map storedOf) ps :=
  List.forall₂_map_left_iff.mpr (List.forall₂_same.mpr fun _ _ => ⟨rfl, rfl, rfl, rfl, rfl, .inr rfl⟩)

theorem purgedUpto_all (lastPurged : Option LogId) (index : Nat) :
    (lastPurged.map (·.index)).all (· < index) = decide (baseOf lastPurged ≤ index) := by
  cases lastPurged with
  | none => simp [baseOf]
  | some id => exact decide_eq_decide.mpr Nat.succ_le_iff.symm

/-- The records of a segment that are not purged go behind those of the segments before it. -/
theorem replayRecords_eq (lastPurged : Option LogId) (start : Nat) (r : RaftLogStore.Replayed π)
    {records : List (ScannedEntry π)} (hsorted : records.Pairwise fun x y => x.index < y.index)
    (hlog : ∀ p ∈ r.log, ∀ x ∈ records, p.1 < x.index) :
    ∃ ramTotal, RaftLogStore.replayRecords (lastPurged.map (·.index)) start r records =
      { r with
        ramTotal
        log := r.log ++ ((records.map (start, ·)).filter (baseOf lastPurged ≤ ·.2.index)).map storedOf } := by
  induction records generalizing r with
  | nil => exact ⟨r.ramTotal, by simp [RaftLogStore.replayRecords]⟩
  | cons x records ih =>
    obtain ⟨hx, hrecords⟩ := List.pairwise_cons.mp hsorted
    by_cases hbase : baseOf lastPurged ≤ x.index
    · have hinsert : r.log.insert x.index ⟨x.logId, x.len, x.ramLen, start, x.offset, some x.entry⟩ =
          r.log ++ [storedOf (start, x)] := BTreeMap.insert_of_lt fun p hp => hlog p hp x List.mem_cons_self
      obtain ⟨ramTotal, hrest⟩ := ih
        { r with ramTotal := r.ramTotal + x.ramLen, log := r.log ++ [storedOf (start, x)] } hrecords (by
          intro p hp y hy
          rcases List.mem_append.mp hp with hp | hp
          · exact hlog p hp y (List.mem_cons_of_mem _ hy)
          · obtain rfl := List.mem_singleton.mp hp
            exact hx y hy)
      refine ⟨ramTotal, ?_⟩
      rw [RaftLogStore.replayRecords, List.foldl_cons, purgedUpto_all, decide_eq_true hbase, if_pos rfl, hinsert]
      refine hrest.trans ?_
      simp [hbase]
    · obtain ⟨ramTotal, hrest⟩ := ih r hrecords fun p hp y hy => hlog p hp y (List.mem_cons_of_mem _ hy)
      refine ⟨ramTotal, ?_⟩
      rw [RaftLogStore.replayRecords, List.foldl_cons, purgedUpto_all, decide_eq_false hbase, if_neg (by simp)]
      refine hrest.trans ?_
      simp [hbase]

/-- A segment that `open` takes for garbage, if it is not the last one. -/
def purgedBy (lastPurged : Option LogId) (seg : Segment π) : Bool :=
  lastPurged.any fun id => RaftLogStore.fullyPurged id.index seg.meta

theorem getLast?_spans (i : Nat) (ws : List (Written π)) :
    (spans z c i ws).getLast?.map (·.index) = ws.getLast?.map (·.entry.index) := by
  have hindices : (spans z c i ws).map (·.index) = ws.map (·.entry.index) := by
    induction ws generalizing i with
    | nil => rfl
    | cons w ws ih => rw [spans, List.map_cons, List.map_cons, ih]; rfl
  rw [← List.getLast?_map, hindices, List.getLast?_map]

theorem fullyPurged_eq (lastPurged : Option LogId) (seg : Segment π) :
    (((spans z c 0 seg.written).getLast?.map (·.index)).any fun l => (lastPurged.map (·.index)).any (l ≤ ·)) =
      purgedBy lastPurged seg := by
  rw [getLast?_spans]
  cases lastPurged with
  | none =>
    cases seg.written.getLast? <;> rfl
  | some id => rfl

theorem replayRecords_spans (lastPurged : Option LogId) (r : RaftLogStore.Replayed π) {seg : Segment π}
    (h : seg.written.Pairwise fun v w => v.entry.index < w.entry.index)
    (hlog : ∀ p ∈ r.log, ∀ place ∈ places z c [seg], p.1 < place.2.index) :
    ∃ ramTotal, RaftLogStore.replayRecords (lastPurged.map (·.index)) seg.start r (spans z c 0 seg.written) =
      { r with ramTotal, log := r.log ++ (live z c (baseOf lastPurged) [seg]).map storedOf } := by
  have hsorted := pairwise_spans (z := z) (c := c) (i := 0) h
  obtain ⟨ramTotal, hrecords⟩ := replayRecords_eq lastPurged seg.start r hsorted fun p hp x hx =>
    hlog p hp (seg.start, x) (by simpa [places, Segment.places] using hx)
  exact ⟨ramTotal, by rw [hrecords, live, places, List.flatMap_cons, List.flatMap_nil, List.append_nil, Segment.places]⟩

/-- The segments in order, all but the purged ones. -/
theorem replaySegments_eq (lastPurged : Option LogId) {init : List (Segment π)} {act : Segment π}
    (h : Ordered (init ++ [act])) (r : RaftLogStore.Replayed π)
    (hlog : ∀ p ∈ r.log, ∀ place ∈ places z c (init ++ [act]), p.1 < place.2.index) :
    ∃ ramTotal, RaftLogStore.replaySegments z c (lastPurged.map (·.index)) r ((init ++ [act]).map (·.file z c)) =
      .ok
        { log := r.log ++ (live z c (baseOf lastPurged) (init ++ [act])).map storedOf
          ramTotal
          segments := r.segments ++ (init.filter (!purgedBy lastPurged ·) ++ [act]).map (·.meta)
          activeBytes := (bytesOf z c act.written).length
          removed := r.removed ++ (init.filter (purgedBy lastPurged)).map (·.start) } := by
  induction init generalizing r with
  | nil =>
    obtain ⟨ramTotal, hrecords⟩ := replayRecords_spans lastPurged r (h.within act (by simp)) hlog
    refine ⟨ramTotal, ?_⟩
    simp only [List.nil_append, List.map_cons, List.map_nil, Segment.file, RaftLogStore.replaySegments, scanSegment_bytesOf,
      bind, Except.bind, hrecords, getLast?_spans]
    simp [Segment.meta]
  | cons seg init ih =>
    have hplaces : places z c (seg :: init ++ [act]) = places z c [seg] ++ places z c (init ++ [act]) :=
      places_append [seg] (init ++ [act])
    have hlive : live z c (baseOf lastPurged) (seg :: init ++ [act]) =
        live z c (baseOf lastPurged) [seg] ++ live z c (baseOf lastPurged) (init ++ [act]) :=
      live_append _ [seg] (init ++ [act])
    have hsorted := h.pairwise_places (z := z) (c := c)
    rw [hplaces] at hlog hsorted
    obtain ⟨ram, hrecords⟩ := replayRecords_spans lastPurged r (h.within seg (by simp)) fun p hp place hplace =>
      hlog p hp place (List.mem_append_left _ hplace)
    have hnext : ∀ r' : RaftLogStore.Replayed π, r'.log = r.log ++ (live z c (baseOf lastPurged) [seg]).map storedOf →
        ∀ p ∈ r'.log, ∀ place ∈ places z c (init ++ [act]), p.1 < place.2.index := by
      intro r' hr' p hp place hplace
      rw [hr'] at hp
      rcases List.mem_append.mp hp with hp | hp
      · exact hlog p hp place (List.mem_append_right _ hplace)
      · obtain ⟨first, hfirst, rfl⟩ := List.mem_map.mp hp
        exact (List.pairwise_append.mp hsorted).2.2 first (List.mem_filter.mp hfirst).1 place hplace
    have hrest : ((init ++ [act]).map (·.file z c)).isEmpty = false := by simp
    have hfile : seg.file z c = (seg.start, bytesOf z c seg.written) := rfl
    simp only [List.cons_append, List.map_cons, hfile, RaftLogStore.replaySegments, scanSegment_bytesOf, bind, Except.bind,
      hrecords, fullyPurged_eq]
    have hsegs := h.sublist (List.sublist_cons_self _ _)
    let r₁ : RaftLogStore.Replayed π := { r with
      ramTotal := ram
      log := r.log ++ (live z c (baseOf lastPurged) [seg]).map storedOf }
    by_cases hpurged : purgedBy lastPurged seg = true
    · let r₂ := { r₁ with removed := r.removed ++ [seg.start] }
      obtain ⟨ramTotal, hloop⟩ := ih hsegs r₂ (hnext r₂ rfl)
      refine ⟨ramTotal, ?_⟩
      rw [hpurged, hrest, if_pos (by rfl)]
      refine hloop.trans ?_
      rw [← List.cons_append, hlive]
      simp [hpurged, r₁, r₂]
    · let r₂ := { r₁ with segments := r.segments ++ [seg.meta] }
      obtain ⟨ramTotal, hloop⟩ := ih hsegs r₂ (hnext r₂ rfl)
      refine ⟨ramTotal, ?_⟩
      rw [if_neg (by simp [hpurged])]
      rw [hrest, if_neg (by simp), getLast?_spans]
      refine hloop.trans ?_
      rw [← List.cons_append, hlive]
      simp [hpurged, r₁, r₂]

theorem live_filter_purgedBy (lastPurged : Option LogId) {init : List (Segment π)} (act : Segment π) (h : Ordered init) :
    live z c (baseOf lastPurged) (init.filter (!purgedBy lastPurged ·) ++ [act]) =
      live z c (baseOf lastPurged) (init ++ [act]) := by
  rw [live_append, live_append]
  congr 1
  cases lastPurged with
  | none => simp [purgedBy]
  | some id => exact live_filter_purged h id.index

theorem Reached.purgedBy {lastPurged : Option LogId} {init : List (Segment π)} {act : Segment π}
    (h : Reached (baseOf lastPurged) (init ++ [act])) (hordered : Ordered (init ++ [act])) :
    Reached (baseOf lastPurged) (init.filter (!purgedBy lastPurged ·) ++ [act]) := by
  cases lastPurged with
  | none => simpa [LogStore.purgedBy] using h
  | some id => exact h.purged hordered (Nat.le_refl _)

/-- The files are read in the order of their names. -/
theorem Ordered.sort_files {segs : List (Segment π)} (h : Ordered segs) :
    (segs.map (·.file z c)).insertionSort (fun a b => a.1 ≤ b.1) = segs.map (·.file z c) :=
  List.Pairwise.insertionSort_eq (List.pairwise_map.mpr (h.apart.imp fun hab => Nat.le_of_lt hab.1))

/-- Opening segments that are in order. -/
theorem open_spec (dir : LogDir) {init : List (Segment π)} {act : Segment π}
    (hfiles : dir.segs = (init ++ [act]).map (·.file z c)) (hordered : Ordered (init ++ [act])) (config : LogConfig) :
    ∃ s, RaftLogStore.open z c config dir = .ok s ∧ Stands z c s (init.filter (!purgedBy dir.lastPurged ·)) act ∧
      s.inner.lastPurged = dir.lastPurged ∧ s.inner.committed = dir.committed ∧ s.inner.vote = dir.vote := by
  obtain ⟨ramTotal, hreplay⟩ := replaySegments_eq (z := z) (c := c) dir.lastPurged hordered {} (by simp)
  have hremoved := hordered.remove_first hfiles (purgedBy dir.lastPurged)
  have hlive := live_filter_purgedBy (z := z) (c := c) dir.lastPurged act (hordered.sublist (List.sublist_append_left _ _))
  have hkept : Ordered (init.filter (!purgedBy dir.lastPurged ·) ++ [act]) :=
    hordered.sublist (List.filter_sublist.append (List.Sublist.refl _))
  generalize init.filter (!purgedBy dir.lastPurged ·) = init' at *
  have hempty : ((init' ++ [act]).map (·.meta)).isEmpty = false := by simp
  have hactive : (((init' ++ [act]).map (·.meta)).getLast?.map (·.start)).getD 0 = act.start := by simp [Segment.meta]
  have hopen : ({ dir with segs := (init' ++ [act]).map (·.file z c) } : LogDir).openAppend act.start =
      { dir with segs := (init' ++ [act]).map (·.file z c) } := by
    rw [LogDir.openAppend, if_pos]
    simp [Segment.file]
  let inner : Inner π :=
    { activeFile := act.start, segments := (init' ++ [act]).map (·.meta), activeBytes := (bytesOf z c act.written).length
      log := (live z c (baseOf dir.lastPurged) (init ++ [act])).map storedOf, ramBytes := ramTotal, demoteScanFrom := 0
      lastPurged := dir.lastPurged, committed := dir.committed, vote := dir.vote, stateDirty := false, config }
  have hinner : Stands z c (⟨{ dir with segs := (init' ++ [act]).map (·.file z c) }, inner⟩ : RaftLogStore π) init' act := by
    constructor
    · rfl
    · rfl
    · rfl
    · rfl
    · exact hkept
    · show List.Forall₂ Indexed inner.log (live z c (baseOf dir.lastPurged) _)
      rw [hlive]
      exact storedOf_indexed _
    · rfl
    · exact fun _ => rfl
    · rfl
  obtain ⟨log, ramBytes, cursor, hbudget, -⟩ := enforceRamBudget_eq inner
  refine ⟨⟨{ dir with segs := (init' ++ [act]).map (·.file z c) }, inner.enforceRamBudget⟩, ?_, hinner.enforceRamBudget, ?_⟩
  · simp only [RaftLogStore.open, hfiles, hordered.sort_files, hreplay, bind, Except.bind, List.nil_append, hempty,
      Bool.false_eq_true, if_false, hactive, hremoved, hopen]
    rfl
  · rw [hbudget]
    exact ⟨rfl, rfl, rfl⟩

/-- Opening an empty directory. -/
theorem open_empty (dir : LogDir) (hfiles : dir.segs = []) (config : LogConfig) :
    ∃ s, RaftLogStore.open z c config dir = .ok s ∧ Holds z c s [] ⟨0, []⟩ ∧
      s.inner.lastPurged = dir.lastPurged ∧ s.inner.committed = dir.committed ∧ s.inner.vote = dir.vote := by
  let inner : Inner π :=
    { activeFile := 0, segments := [⟨0, none⟩], activeBytes := 0, log := [], ramBytes := 0, demoteScanFrom := 0
      lastPurged := dir.lastPurged, committed := dir.committed, vote := dir.vote, stateDirty := false, config }
  have hinner : Holds z c (⟨{ dir with segs := [(0, [])] }, inner⟩ : RaftLogStore π) [] ⟨0, []⟩ := by
    refine ⟨⟨?_, ?_, ?_, ?_, ?_, ?_, ?_, ?_, ?_⟩, ?_⟩
    · rfl
    · rfl
    · rfl
    · rfl
    · exact ⟨List.pairwise_singleton _ _, by simp, by simp⟩
    · exact .nil
    · rfl
    · exact fun _ => rfl
    · rfl
    · intro seg hseg
      obtain rfl := List.mem_singleton.mp hseg
      exact .inl (Nat.zero_le _)
  obtain ⟨log, ramBytes, cursor, hbudget, -⟩ := enforceRamBudget_eq inner
  refine ⟨⟨{ dir with segs := [(0, [])] }, inner.enforceRamBudget⟩, ?_, hinner.enforceRamBudget, ?_⟩
  · simp only [RaftLogStore.open, hfiles, List.insertionSort_nil, RaftLogStore.replaySegments, bind, Except.bind,
      List.foldl_nil, LogDir.openAppend]
    simp [inner]
    rfl
  · rw [hbudget]
    exact ⟨rfl, rfl, rfl⟩

/-! ## Runs -/

/-- What `openraft` promises: entries come one after the other from the next index on, and purges go forward. -/
def Legal (m : MemLogStore π) : LogOp π → Prop
  | .append entries => Consecutive m.nextIndex entries
  | .purge logId => baseOf m.lastPurged ≤ logId.index + 1
  | .truncate _ | .saveCommitted .. | .saveVote _ | .flush | .reopen _ => True

def LegalRun (m : MemLogStore π) : List (LogOp π) → Prop
  | [] => True
  | op :: ops => Legal m op ∧ LegalRun (m.step op) ops

variable (z c) in
/-- The store on disk has what the store in memory has. -/
def Refines (s : RaftLogStore π) (m : MemLogStore π) : Prop :=
  ∃ init act, Holds z c s init act ∧ Same z c m s (init ++ [act])

theorem flush_spec {s : RaftLogStore π} {init : List (Segment π)} {act : Segment π} (h : Holds z c s init act) :
    s.flush.dir = { s.dir with committed := s.inner.committed } := by
  unfold RaftLogStore.flush
  split
  · show ({ s.dir with lastPurged := s.inner.lastPurged, committed := s.inner.committed } : LogDir) = _
    rw [← h.lastPurged]
  · next hclean =>
    rw [← h.committed (by simpa using hclean)]

/-- Every operation keeps both stores together. -/
theorem step_spec {s : RaftLogStore π} {m : MemLogStore π} {op : LogOp π} (h : Refines z c s m) (hlegal : Legal m op) :
    ∃ s', s.step z c op = .ok s' ∧ Refines z c s' (m.step op) := by
  obtain ⟨init, act, h, hsame⟩ := h
  cases op with
  | append entries =>
    obtain ⟨init', act', h', hsame'⟩ := append_spec h hsame hlegal
    exact ⟨_, rfl, init', act', h', hsame'⟩
  | truncate logId =>
    obtain ⟨init', act', h', hsame'⟩ := truncate_spec h hsame logId
    exact ⟨_, rfl, init', act', h', hsame'⟩
  | purge logId =>
    obtain ⟨init', h', hsame'⟩ := purge_spec h hsame (by rwa [← hsame.lastPurged])
    exact ⟨_, rfl, init', act, h', hsame'⟩
  | saveCommitted committed deferred =>
    refine ⟨_, rfl, init, act, ?_⟩
    cases deferred with
    | true => exact ⟨{ h with committed := nofun }, { hsame with committed := rfl }⟩
    | false => exact ⟨{ h with lastPurged := rfl, committed := fun _ => rfl }, { hsame with committed := rfl }⟩
  | saveVote vote => exact ⟨_, rfl, init, act, { h with vote := rfl }, { hsame with vote := rfl }⟩
  | flush =>
    refine ⟨_, rfl, init, act, ?_⟩
    unfold RaftLogStore.flush
    split
    · exact ⟨{ h with lastPurged := rfl, committed := fun _ => rfl }, { hsame with }⟩
    · exact ⟨h, hsame⟩
  | reopen config =>
    have hpurged : s.flush.dir.lastPurged = s.inner.lastPurged := by rw [flush_spec h, ← h.lastPurged]
    obtain ⟨s', hopen, h', hlast, hcommitted, hvote⟩ := open_spec (z := z) (c := c) s.flush.dir
      (by rw [flush_spec h]; exact h.files) h.ordered config
    have hreached : Reached (baseOf s.flush.dir.lastPurged) (init ++ [act]) := by
      rw [hpurged]
      exact h.reached
    refine ⟨s', hopen, _, act, ⟨h', by rw [hlast]; exact hreached.purgedBy h.ordered⟩, ?_⟩
    rw [flush_spec h] at hcommitted hvote
    constructor
    · rw [hlast, live_filter_purgedBy _ _ (h.ordered.sublist (List.sublist_append_left _ _)), hpurged]
      exact hsame.log
    · rw [hlast, hpurged]
      exact hsame.lastPurged
    · rw [hcommitted]
      exact hsame.committed
    · rw [hvote]
      exact hsame.vote.trans h.vote.symm

theorem run_spec {s : RaftLogStore π} {m : MemLogStore π} {ops : List (LogOp π)} (h : Refines z c s m)
    (hlegal : LegalRun m ops) : ∃ s', s.run z c ops = .ok s' ∧ Refines z c s' (m.run ops) := by
  induction ops generalizing s m with
  | nil => exact ⟨s, rfl, h⟩
  | cons op ops ih =>
    obtain ⟨s₁, hstep, h₁⟩ := step_spec h hlegal.1
    obtain ⟨s', hrun, h'⟩ := ih h₁ hlegal.2
    refine ⟨s', ?_, h'⟩
    rw [RaftLogStore.run, List.foldlM_cons, hstep]
    exact hrun

/-- From the empty directory on, every range and the state of the log read as in memory. -/
theorem durable_refines_memory (z : Deflate) (c : EntryCodec π) (config : LogConfig) (ops : List (LogOp π))
    (hlegal : LegalRun {} ops) :
    ∃ s₀ s, RaftLogStore.open z c config {} = .ok s₀ ∧ s₀.run z c ops = .ok s ∧
      (∀ start stop, s.tryGetLogEntries z c start stop = .ok ((({} : MemLogStore π).run ops).tryGetLogEntries start stop)) ∧
      s.getLogState = (({} : MemLogStore π).run ops).getLogState ∧
      s.inner.vote = (({} : MemLogStore π).run ops).vote ∧ s.inner.committed = (({} : MemLogStore π).run ops).committed := by
  obtain ⟨s₀, hopen, h₀, hlast, hcommitted, hvote⟩ := open_empty (z := z) (c := c) {} rfl config
  have hsame₀ : Same z c {} s₀ ([] ++ [⟨0, []⟩]) := ⟨rfl, hlast.symm, hcommitted.symm, hvote.symm⟩
  obtain ⟨s, hrun, init, act, h, hsame⟩ := run_spec ⟨[], _, h₀, hsame₀⟩ hlegal
  exact ⟨s₀, s, hopen, hrun, hsame.tryGetLogEntries h.toStands, hsame.getLogState h.toStands, hsame.vote.symm, hsame.committed.symm⟩

/-- A new leader replaces a suffix of the log, and the log is compacted. -/
def conflictOps : List (LogOp Unit) :=
  [.append [entryAt 1 0, entryAt 1 1, entryAt 1 2], .reopen { compress := true, segMaxBytes := 1, ramBudget := 1 },
    .truncate ⟨1, 1, 1⟩, .append [entryAt 2 1, entryAt 2 2], .purge ⟨1, 1, 0⟩, .reopen {}]

theorem durable_refines_memory_conflict :
    ∃ s₀ s, RaftLogStore.open storedDeflate blankCodec {} {} = .ok s₀ ∧
      s₀.run storedDeflate blankCodec conflictOps = .ok s ∧
      s.tryGetLogEntries storedDeflate blankCodec .unbounded .unbounded = .ok [entryAt 2 1, entryAt 2 2] := by
  have hlegal : LegalRun {} conflictOps :=
    ⟨⟨rfl, rfl, rfl, trivial⟩, trivial, trivial, ⟨rfl, rfl, trivial⟩, Nat.zero_le _, trivial, trivial⟩
  obtain ⟨s₀, s, hopen, hrun, hread, -⟩ := durable_refines_memory storedDeflate blankCodec {} conflictOps hlegal
  refine ⟨s₀, s, hopen, hrun, (hread .unbounded .unbounded).trans (congrArg Except.ok ?_)⟩
  decide +kernel

end NanoBpm.Raft.LogStore
