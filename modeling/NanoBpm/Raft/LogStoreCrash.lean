import NanoBpm.Raft.LogStoreRuns
import NanoBpm.Lib.Results

/-!
# Crashes of the Raft log store (`raft_logstore.rs:405-474`, `:957-1018`, `:1174-1384`)

A crash leaves a directory in which an operation is half done. A segment that ends in a part of a record is refused, so `open`
fails there. Else it succeeds: what was acknowledged is there, and what a truncate or a purge had removed is not.
-/

namespace NanoBpm.Raft.LogStore

open Seglog (Bytes Deflate storedDeflate frameMagic frameHeaderLen frameBytes fromLe32 newline splitLine)

variable {π : Type} {z : Deflate} {c : EntryCodec π}

/-! ## Torn records -/

variable (z c) in
/-- A part of a record, but not all of it. -/
def Torn (tail : Bytes) : Prop := ∃ compress e, tail <+: recordOf z c compress e ∧ tail ≠ recordOf z c compress e

theorem fromLe32_append {bs : Bytes} (h : 4 ≤ bs.length) (rest : Bytes) : fromLe32 (bs ++ rest) = fromLe32 bs := by
  match bs with
  | _ :: _ :: _ :: _ :: _ => rfl

/-- The scan does not find the end of a torn record. -/
theorem Torn.recordLen {tail : Bytes} (h : Torn z c tail) (hne : tail ≠ []) : ∃ err, recordLen tail = .error err := by
  obtain ⟨compress, e, hpart, hproper⟩ := h
  rcases recordOf_cases z c compress e with hline | ⟨hframe, hlen⟩
  · rw [hline] at hpart hproper
    have hsub : tail <+: c.toVec e := by
      rcases List.prefix_concat_iff.mp hpart with heq | hsub
      · exact absurd heq hproper
      · exact hsub
    have hhead : tail.head? = some 0x7B := by
      obtain ⟨bs, hbs⟩ := toVec_eq_cons c e
      cases tail with
      | nil => exact absurd rfl hne
      | cons b tail =>
        rw [hbs, List.cons_prefix_cons] at hsub
        rw [hsub.1]
        rfl
    have hnone : splitLine tail = none := Seglog.splitLine_none fun hmem => newline_notMem_toVec c e (hsub.subset hmem)
    refine ⟨.unterminatedLine, ?_⟩
    unfold LogStore.recordLen
    rw [if_neg (by rw [hhead]; decide), hnone]
  · rw [hframe] at hpart hproper
    obtain ⟨rest, hrest⟩ := hpart
    have htotal := frameBytes_length (c.toVec e).length (z.compress (c.toVec e))
    have hshort : tail.length < frameHeaderLen + (z.compress (c.toVec e)).length := by
      have hpos : rest ≠ [] := by
        rintro rfl
        exact hproper (by rw [← hrest, List.append_nil])
      have := List.length_pos_iff.mpr hpos
      rw [← htotal, ← hrest, List.length_append]
      omega
    have hmagic : tail.head? = some frameMagic := by
      cases tail with
      | nil => exact absurd rfl hne
      | cons b tail =>
        rw [frameBytes, List.cons_append] at hrest
        rw [(List.cons.inj hrest).1]
        rfl
    by_cases hheader : tail.length < frameHeaderLen
    · exact ⟨.truncatedFrameHeader, by rw [LogStore.recordLen, if_pos hmagic, if_pos hheader]⟩
    · refine ⟨.truncatedFrameBody, ?_⟩
      have hcomp : fromLe32 (tail.drop 6) = (z.compress (c.toVec e)).length := by
        have hheader' : 10 ≤ tail.length := Nat.le_of_not_lt hheader
        have hwhole : fromLe32 ((frameBytes (c.toVec e).length (z.compress (c.toVec e)) ++ []).drop 6) = _ :=
          fromLe32_frameBytes hlen []
        rw [List.append_nil, ← hrest, List.drop_append_of_le_length (by omega),
          fromLe32_append (by rw [List.length_drop]; omega)] at hwhole
        rw [hwhole]
      rw [LogStore.recordLen, if_pos hmagic, if_neg hheader, hcomp]
      exact if_pos hshort

/-- Behind whole records, a torn one fails the scan. -/
theorem Torn.scanSegment {tail : Bytes} (h : Torn z c tail) (hne : tail ≠ []) (ws : List (Written π)) :
    ∃ err, scanSegment z c (bytesOf z c ws ++ tail) = .error err := by
  obtain ⟨err, herr⟩ := h.recordLen hne
  obtain ⟨fuel, hfuel, hscan⟩ := scanLoop_bytesOf (z := z) (c := c) ws tail 0 (Nat.le_refl _)
  refine ⟨err, ?_⟩
  have hloop : scanLoop z c fuel (0 + (bytesOf z c ws).length) tail = .error err := by
    cases fuel with
    | zero => exact absurd (List.length_eq_zero_iff.mp (Nat.le_zero.mp hfuel)) hne
    | succ fuel =>
      have hfalse : tail.isEmpty = false := by simpa using hne
      simp [scanLoop, hfalse, herr, bind, Except.bind]
  rw [LogStore.scanSegment, hscan, hloop]
  rfl

/-- One segment that cannot be scanned fails all. -/
theorem replaySegments_error (purgedUpto : Option Nat) (init : List (Segment π)) (start : Nat) {raw : Bytes} {err : IoError}
    (h : scanSegment z c raw = .error err) (r : RaftLogStore.Replayed π) :
    RaftLogStore.replaySegments z c purgedUpto r (init.map (·.file z c) ++ [(start, raw)]) = .error err := by
  induction init generalizing r with
  | nil => simp [RaftLogStore.replaySegments, h, bind, Except.bind]
  | cons seg init ih =>
    have hfile : seg.file z c = (seg.start, bytesOf z c seg.written) := rfl
    simp only [List.map_cons, List.cons_append, hfile, RaftLogStore.replaySegments, scanSegment_bytesOf, bind, Except.bind]
    split
    · exact ih _
    · exact ih _

theorem open_error {dir : LogDir} {init : List (Segment π)} {act : Segment π} {raw : Bytes} {err : IoError}
    (hfiles : dir.segs = init.map (·.file z c) ++ [(act.start, raw)]) (hordered : Ordered (init ++ [act]))
    (h : scanSegment z c raw = .error err) (config : LogConfig) : RaftLogStore.open z c config dir = .error err := by
  have hsorted : dir.segs.Pairwise fun a b => a.1 ≤ b.1 := by
    have hfst : dir.segs.map (·.1) = (init ++ [act]).map (·.start) := by
      rw [hfiles]
      simp [Segment.file]
    have hstarts : ((init ++ [act]).map (·.start)).Pairwise (· ≤ ·) :=
      List.pairwise_map.mpr (hordered.apart.imp fun hab => Nat.le_of_lt hab.1)
    rw [← hfst] at hstarts
    exact List.pairwise_map.mp hstarts
  have hreplay := replaySegments_error (dir.lastPurged.map (·.index)) init act.start h {}
  rw [hfiles] at hsorted
  simp only [RaftLogStore.open, hfiles, hsorted.insertionSort_eq, hreplay, bind, Except.bind]

/-! ## Logs without gaps -/

/-- The entries stand at consecutive indices. -/
def GapFree (log : BTreeMap (Entry π)) : Prop := ∃ first, log.map (·.1) = List.range' first log.length

/-- The log in memory starts behind what is purged. -/
structure Dense (m : MemLogStore π) : Prop where
  keys : ∀ p ∈ m.log, p.1 = p.2.index
  consecutive : m.log.map (·.1) = List.range' (baseOf m.lastPurged) m.log.length

theorem Dense.gapFree {m : MemLogStore π} (h : Dense m) : GapFree m.log := ⟨_, h.consecutive⟩

theorem GapFree.of_append {log before after : BTreeMap (Entry π)} (h : GapFree log) (heq : log = before ++ after) :
    GapFree before ∧ GapFree after := by
  obtain ⟨first, hkeys⟩ := h
  rw [heq, List.map_append, List.length_append, ← List.range'_append_1] at hkeys
  obtain ⟨hbefore, hafter⟩ := List.append_inj hkeys (by simp)
  exact ⟨⟨first, hbefore⟩, ⟨_, hafter⟩⟩

theorem Dense.nextIndex {m : MemLogStore π} (h : Dense m) : m.nextIndex = baseOf m.lastPurged + m.log.length := by
  rcases List.eq_nil_or_concat m.log with hnil | ⟨log, p, hlog⟩
  · simp [MemLogStore.nextIndex, MemLogStore.getLogState, hnil, baseOf]
  · rw [List.concat_eq_append] at hlog
    have hkeys := h.consecutive
    rw [hlog, List.map_append, List.length_append, List.length_singleton, List.range'_1_concat] at hkeys
    have hp : p.1 = baseOf m.lastPurged + log.length := by simpa using (List.append_inj hkeys (by simp)).2
    have hindex : p.1 = p.2.index := h.keys p (by simp [hlog])
    have hnext : m.nextIndex = p.2.index + 1 := by
      simp [MemLogStore.nextIndex, MemLogStore.getLogState, hlog, Entry.index]
    rw [hnext, ← hindex, hp, hlog, List.length_append, List.length_singleton, Nat.add_assoc]

theorem Dense.keys_lt {m : MemLogStore π} (h : Dense m) : ∀ p ∈ m.log, p.1 < m.nextIndex := by
  intro p hp
  have hmem : p.1 ∈ m.log.map (·.1) := List.mem_map_of_mem hp
  rw [h.consecutive, List.mem_range'_1] at hmem
  rw [h.nextIndex]
  exact hmem.2

/-- Consecutive entries are put behind the log. -/
theorem Dense.append {m : MemLogStore π} (h : Dense m) {entries : List (Entry π)} (hentries : Consecutive m.nextIndex entries) :
    Dense (m.append entries) ∧ (m.append entries).log = m.log ++ entries.map fun e => (e.index, e) := by
  induction entries generalizing m with
  | nil => exact ⟨h, (List.append_nil _).symm⟩
  | cons e es ih =>
    obtain ⟨he, hes⟩ := hentries
    have hkeys : ∀ p ∈ m.log, p.1 < e.index := by
      rw [he]
      exact h.keys_lt
    have hlog : (m.append [e]).log = m.log ++ [(e.index, e)] := BTreeMap.insert_of_lt hkeys
    have hone : Dense (m.append [e]) := by
      constructor
      · intro p hp
        rw [hlog] at hp
        rcases List.mem_append.mp hp with hp | hp
        · exact h.keys p hp
        · obtain rfl := List.mem_singleton.mp hp
          rfl
      · rw [hlog, List.map_append, List.length_append, List.length_singleton, List.range'_1_concat, h.consecutive]
        simp [he, h.nextIndex, MemLogStore.append]
    obtain ⟨hdense, hrest⟩ := ih hone (by
      rw [MemLogStore.nextIndex_append hkeys, he]
      exact hes)
    refine ⟨hdense, hrest.trans ?_⟩
    rw [hlog, List.append_assoc]
    rfl

/-- The part of a log below an index, and the part from it on. -/
theorem Dense.split {m : MemLogStore π} (h : Dense m) (k : Nat) : m.log.below k ++ m.log.splitOff k = m.log := by
  refine split_at (f := fun p : Nat × Entry π => p.1) (List.pairwise_map.mp ?_) k
  show (m.log.map (·.1)).Pairwise (· < ·)
  rw [h.consecutive]
  exact List.pairwise_lt_range'

theorem Dense.truncate {m : MemLogStore π} (h : Dense m) (logId : LogId) : Dense (m.truncate logId) where
  keys p hp := h.keys p (List.mem_filter.mp hp).1
  consecutive := by
    have hkeys := h.consecutive
    rw [← h.split logId.index, List.map_append, List.length_append, ← List.range'_append_1] at hkeys
    exact (List.append_inj hkeys (by simp)).1

theorem Dense.purge {m : MemLogStore π} (h : Dense m) {logId : LogId} (hbase : baseOf m.lastPurged ≤ logId.index + 1) :
    Dense (m.purge logId) where
  keys p hp := h.keys p (List.mem_filter.mp hp).1
  consecutive := by
    have hkeys := h.consecutive
    rw [← h.split (logId.index + 1), List.map_append, List.length_append, ← List.range'_append_1] at hkeys
    obtain ⟨hbelow, hoff⟩ := List.append_inj hkeys (by simp)
    show (m.log.splitOff (logId.index + 1)).map (·.1) = List.range' (logId.index + 1) (m.log.splitOff (logId.index + 1)).length
    rw [hoff]
    cases hrest : m.log.splitOff (logId.index + 1) with
    | nil => rfl
    | cons p rest =>
      rw [hrest, List.length_cons, List.range'_succ, List.map_cons] at hoff
      have hp : p.1 = baseOf m.lastPurged + (m.log.below (logId.index + 1)).length := (List.cons.inj hoff).1
      have hmem : p ∈ m.log.splitOff (logId.index + 1) := by simp [hrest]
      have hle : logId.index + 1 ≤ p.1 := of_decide_eq_true (List.mem_filter.mp hmem).2
      -- the last index below the purge is the one in front of it
      have hge : p.1 ≤ logId.index + 1 := by
        by_cases hlen : (m.log.below (logId.index + 1)).length = 0
        · omega
        · have hlast : p.1 - 1 ∈ (m.log.below (logId.index + 1)).map (·.1) := by
            rw [hbelow, List.mem_range'_1]
            omega
          obtain ⟨q, hq, heq⟩ := List.mem_map.mp hlast
          have hlt : q.1 < logId.index + 1 := of_decide_eq_true (List.mem_filter.mp hq).2
          omega
      rw [← hp, Nat.le_antisymm hge hle]

theorem Dense.step {m : MemLogStore π} (h : Dense m) {op : LogOp π} (hlegal : Legal m op) : Dense (m.step op) := by
  cases op with
  | append entries => exact (h.append hlegal).1
  | truncate logId => exact h.truncate logId
  | purge logId => exact h.purge hlegal
  | saveCommitted committed deferred => exact { h with }
  | saveVote vote => exact { h with }
  | flush => exact h
  | reopen config => exact h

theorem Dense.run {m : MemLogStore π} (h : Dense m) {ops : List (LogOp π)} (hlegal : LegalRun m ops) : Dense (m.run ops) := by
  induction ops generalizing m with
  | nil => exact h
  | cons op ops ih => exact ih (h.step hlegal.1) hlegal.2

/-! ## Crash points -/

variable (z c) in
/-- The directory that a crash inside an operation leaves, and the part of a record at the end of it. The loops over the
segments stop anywhere; the markers, and the segment that a truncate rewrites, are renamed into place. -/
inductive Crash (s : RaftLogStore π) : LogOp π → Bytes → LogDir → Prop
  | between (done rest : List (Entry π)) :
    Crash s (.append (done ++ rest)) [] (done.foldl (fun s e => s.appendEntry z c e) s).dir
  | inside (done rest : List (Entry π)) (e : Entry π) (s' : RaftLogStore π) (line tail : Bytes)
    (hdone : s' = done.foldl (fun s e => s.appendEntry z c e) s) (hline : line = recordOf z c s'.inner.config.compress e)
    (hpart : tail <+: line) (hproper : tail ≠ line) :
    Crash s (.append (done ++ e :: rest)) tail
      ((s'.rolled line.length e.index).dir.write (s'.rolled line.length e.index).inner.activeFile tail)
  | truncate (logId : LogId) (n : Nat) :
    Crash s (.truncate logId) []
      (((s.inner.segments.take n).filter (logId.index ≤ ·.start)).foldl (fun dir seg => dir.removeFile seg.start) s.dir)
  | purge (logId : LogId) (n : Nat) :
    Crash s (.purge logId) []
      (((s.inner.segments.dropLast.take n).filter (RaftLogStore.fullyPurged logId.index)).foldl
        (fun dir seg => dir.removeFile seg.start) s.dir)

/-- A truncate has unlinked some of its segments, but not all. -/
def BetweenUnlinks (s : RaftLogStore π) (logId : LogId) (dir : LogDir) : Prop :=
  dir.segs ≠ s.dir.segs ∧ ∃ p ∈ dir.segs, logId.index ≤ p.1

/-- What an operation takes away. -/
def Covers : LogOp π → Nat → Prop
  | .truncate logId, index => logId.index ≤ index
  | .purge logId, index => index ≤ logId.index
  | .append _, _ | .saveCommitted .., _ | .saveVote _, _ | .flush, _ | .reopen _, _ => False

/-- What an operation adds. -/
def LogOp.entries : LogOp π → List (Entry π)
  | .append entries => entries
  | .truncate _ | .purge _ | .saveCommitted .. | .saveVote _ | .flush | .reopen _ => []

variable (z c) in
/-- The store on disk reads as the store in memory. -/
def Reads (s : RaftLogStore π) (m : MemLogStore π) : Prop :=
  (∀ start stop, s.tryGetLogEntries z c start stop = .ok (m.tryGetLogEntries start stop)) ∧ s.getLogState = m.getLogState

/-! ## Recovery -/

/-- Any of the segments, in order. -/
theorem open_segments (dir : LogDir) {segs : List (Segment π)} (hfiles : dir.segs = segs.map (·.file z c))
    (hordered : Ordered segs) (config : LogConfig) :
    ∃ s m, RaftLogStore.open z c config dir = .ok s ∧ Reads z c s m ∧
      m.log = (live z c (baseOf dir.lastPurged) segs).map fun p => (p.2.index, p.2.entry) := by
  rcases List.eq_nil_or_concat segs with rfl | ⟨init, act, rfl⟩
  · obtain ⟨s, hopen, h, hlast, hcommitted, hvote⟩ := open_empty (z := z) (c := c) dir hfiles config
    have hsame : Same z c ⟨[], dir.lastPurged, dir.committed, dir.vote⟩ s ([] ++ [⟨0, []⟩]) :=
      ⟨rfl, hlast.symm, hcommitted.symm, hvote.symm⟩
    exact ⟨s, _, hopen, ⟨hsame.tryGetLogEntries h.toStands, hsame.getLogState h.toStands⟩, rfl⟩
  · rw [List.concat_eq_append] at hfiles hordered ⊢
    obtain ⟨s, hopen, h, hlast, hcommitted, hvote⟩ := open_spec dir hfiles hordered config
    let log := (live z c (baseOf dir.lastPurged) (init ++ [act])).map fun p => (p.2.index, p.2.entry)
    have hsame : Same z c ⟨log, dir.lastPurged, dir.committed, dir.vote⟩ s
        (init.filter (!purgedBy dir.lastPurged ·) ++ [act]) := by
      refine ⟨?_, hlast.symm, hcommitted.symm, hvote.symm⟩
      rw [hlast, live_filter_purgedBy _ _ (hordered.sublist (List.sublist_append_left _ _))]
    exact ⟨s, _, hopen, ⟨hsame.tryGetLogEntries h, hsame.getLogState h⟩, rfl⟩

theorem mem_segment_places {seg : Segment π} {place : Nat × ScannedEntry π} (h : place ∈ seg.places z c) :
    ∃ w ∈ seg.written, place.2.index = w.entry.index := by
  obtain ⟨x, hx, rfl⟩ := List.mem_map.mp h
  obtain ⟨pre, w, post, hwritten, rfl⟩ := mem_spans hx
  exact ⟨w, by simp [hwritten], rfl⟩

theorem mem_live {base : Nat} {segs : List (Segment π)} {place : Nat × ScannedEntry π} :
    place ∈ live z c base segs ↔ base ≤ place.2.index ∧ ∃ seg ∈ segs, place ∈ seg.places z c := by
  simp only [live, places, List.mem_filter, List.mem_flatMap, decide_eq_true_iff]
  exact And.comm

theorem consecutive_append {next : Nat} {done rest : List (Entry π)} :
    Consecutive next (done ++ rest) ↔ Consecutive next done ∧ Consecutive (next + done.length) rest := by
  induction done generalizing next with
  | nil => simp [Consecutive]
  | cons e done ih =>
    simp only [List.cons_append, Consecutive, ih, List.length_cons, and_assoc]
    rw [Nat.add_assoc, Nat.add_comm 1]

section

variable {m : MemLogStore π} {s : RaftLogStore π} {init : List (Segment π)} {act : Segment π}

/-- Between two records nothing is lost. -/
theorem recover_between (h : Holds z c s init act) (hsame : Same z c m s (init ++ [act])) {done : List (Entry π)}
    (hdone : Consecutive m.nextIndex done) (config : LogConfig) :
    ∃ s' m', RaftLogStore.open z c config (done.foldl (fun s e => s.appendEntry z c e) s).dir = .ok s' ∧ Reads z c s' m' ∧
      m'.log = (m.append done).log := by
  obtain ⟨init', act', h', hsame'⟩ := appendEntries_spec h hsame hdone
  obtain ⟨s', m', hopen, hreads, hlog⟩ := open_segments _ h'.files h'.ordered config
  refine ⟨s', m', hopen, hreads, hlog.trans ?_⟩
  rw [h'.lastPurged]
  exact hsame'.log.symm

/-- Behind the roll and a part of a record: with the part the segment is refused, without it nothing is lost. -/
theorem recover_inside (h : Holds z c s init act) (hsame : Same z c m s (init ++ [act])) {e : Entry π}
    (he : e.index = m.nextIndex) (len : Nat) {tail : Bytes} (htorn : Torn z c tail) (config : LogConfig) :
    (tail ≠ [] → ∃ err, RaftLogStore.open z c config
      ((s.rolled len e.index).dir.write (s.rolled len e.index).inner.activeFile tail) = .error err) ∧
    (tail = [] → ∃ s' m', RaftLogStore.open z c config
      ((s.rolled len e.index).dir.write (s.rolled len e.index).inner.activeFile tail) = .ok s' ∧ Reads z c s' m' ∧
        m'.log = m.log) := by
  obtain ⟨init', act', h', hsame', -⟩ := rolled_spec h hsame he len
  have hfiles : ((s.rolled len e.index).dir.write (s.rolled len e.index).inner.activeFile tail).segs =
      init'.map (·.file z c) ++ [(act'.start, bytesOf z c act'.written ++ tail)] := by
    rw [LogDir.write, h'.activeFile, h'.files]
    exact h'.ordered.map_files (· ++ tail)
  constructor
  · intro hne
    obtain ⟨err, hscan⟩ := htorn.scanSegment hne act'.written
    exact ⟨err, open_error hfiles h'.ordered hscan config⟩
  · rintro rfl
    rw [List.append_nil] at hfiles
    have hwhole : ((s.rolled len e.index).dir.write (s.rolled len e.index).inner.activeFile []).segs =
        (init' ++ [act']).map (·.file z c) := by
      rw [hfiles]
      simp [Segment.file]
    obtain ⟨s', m', hopen, hreads, hlog⟩ := open_segments _ hwhole h'.ordered config
    refine ⟨s', m', hopen, hreads, hlog.trans ?_⟩
    show (live z c (baseOf (s.rolled len e.index).dir.lastPurged) _).map _ = _
    rw [h'.lastPurged]
    exact hsame'.log.symm

/-- With some of the first segments gone, the log has what is in the others. -/
theorem recover_removed (h : Holds z c s init act) (hsame : Same z c m s (init ++ [act])) {pre post : List (Segment π)}
    (hsplit : pre ++ post = init ++ [act]) (gone : Segment π → Bool) (config : LogConfig) :
    ∃ s' m', RaftLogStore.open z c config (((pre.filter gone).map (·.start)).foldl LogDir.removeFile s.dir) = .ok s' ∧
      Reads z c s' m' ∧
      m'.log = (live z c (baseOf s.inner.lastPurged) (pre.filter (!gone ·) ++ post)).map (fun p => (p.2.index, p.2.entry)) ∧
      ∀ p ∈ m'.log, p ∈ m.log := by
  have hordered := h.ordered
  have hfiles := h.files
  rw [← hsplit] at hordered hfiles
  rw [hordered.remove_first hfiles gone]
  have hsub : List.Sublist (pre.filter (!gone ·) ++ post) (pre ++ post) := List.filter_sublist.append (List.Sublist.refl _)
  obtain ⟨s', m', hopen, hreads, hlog⟩ :=
    open_segments { s.dir with segs := (pre.filter (!gone ·) ++ post).map (·.file z c) } rfl
      (hordered.sublist hsub) config
  rw [show baseOf s.dir.lastPurged = baseOf s.inner.lastPurged by rw [h.lastPurged]] at hlog
  refine ⟨s', m', hopen, hreads, hlog, fun p hp => ?_⟩
  rw [hlog] at hp
  obtain ⟨place, hplace, rfl⟩ := List.mem_map.mp hp
  obtain ⟨hbase, seg, hseg, hin⟩ := mem_live.mp hplace
  rw [hsame.log, ← hsplit]
  exact List.mem_map.mpr ⟨place, mem_live.mpr ⟨hbase, seg, hsub.subset hseg, hin⟩, rfl⟩

/-- Behind some of the unlinks of a truncate: what is below the cut stays. -/
theorem recover_truncate (h : Holds z c s init act) (hsame : Same z c m s (init ++ [act])) (hgaps : GapFree m.log)
    (logId : LogId) (n : Nat) (config : LogConfig) {dir : LogDir}
    (hdir : dir = ((s.inner.segments.take n).filter (logId.index ≤ ·.start)).foldl (fun dir seg => dir.removeFile seg.start)
      s.dir) :
    ∃ s' m', RaftLogStore.open z c config dir = .ok s' ∧ Reads z c s' m' ∧
      (∀ p ∈ m.log, p.1 < logId.index → p ∈ m'.log) ∧ (∀ p ∈ m'.log, p ∈ m.log) ∧
      (¬ BetweenUnlinks s logId dir → GapFree m'.log) := by
  let gone : Segment π → Bool := fun seg => logId.index ≤ seg.start
  let pre := (init ++ [act]).take n
  let post := (init ++ [act]).drop n
  have hsplit : pre ++ post = init ++ [act] := List.take_append_drop n _
  have hmetas : (s.inner.segments.take n).filter (logId.index ≤ ·.start) = (pre.filter gone).map (·.meta) := by
    rw [h.segments, ← List.map_take, List.filter_map]
    rfl
  rw [hmetas, foldl_removeSegments] at hdir
  obtain ⟨s', m', hopen, hreads, hlog, hold⟩ := recover_removed h hsame hsplit gone config
  have hordered : Ordered (pre ++ post) := hsplit ▸ h.ordered
  have hfiles : s.dir.segs = (pre ++ post).map (·.file z c) := hsplit ▸ h.files
  rw [hordered.remove_first hfiles gone] at hdir
  rw [hordered.remove_first hfiles gone, ← hdir] at hopen
  refine ⟨s', m', hopen, hreads, fun p hp hlt => ?_, hold, fun hnot => ?_⟩
  · rw [hsame.log, ← hsplit] at hp
    obtain ⟨place, hplace, rfl⟩ := List.mem_map.mp hp
    obtain ⟨hbase, seg, hseg, hin⟩ := mem_live.mp hplace
    rw [hlog]
    refine List.mem_map.mpr ⟨place, mem_live.mpr ⟨hbase, seg, ?_, hin⟩, rfl⟩
    have hstay : gone seg = false := by
      obtain ⟨w, hw, hindex⟩ := mem_segment_places hin
      rw [hsplit] at hseg
      have hle := h.ordered.start_le seg hseg w hw
      have hlt : place.2.index < logId.index := hlt
      exact decide_eq_false (by omega)
    rcases List.mem_append.mp hseg with hseg | hseg
    · exact List.mem_append_left _ (List.mem_filter.mpr ⟨hseg, by simp [hstay]⟩)
    · exact List.mem_append_right _ hseg
  · by_cases hsegs : dir.segs = s.dir.segs
    · -- nothing is gone yet
      have hkeep : pre.filter (!gone ·) = pre := by
        rw [hdir, hfiles] at hsegs
        have hlen := congrArg List.length hsegs
        simp only [List.length_map, List.length_append] at hlen
        exact List.filter_sublist.eq_of_length (by omega)
      rw [hlog, hkeep, hsplit, ← hsame.log]
      exact hgaps
    · -- everything from the cut on is gone
      have hbelow : ∀ seg ∈ pre.filter (!gone ·) ++ post, seg.start < logId.index := by
        intro seg hseg
        refine Nat.lt_of_not_le fun hle => hnot ⟨hsegs, seg.file z c, ?_, hle⟩
        rw [hdir]
        exact List.mem_map_of_mem hseg
      have hkept : pre.filter (!gone ·) ++ post = (init ++ [act]).filter (·.start < logId.index) := by
        rw [← hsplit, List.filter_append, List.filter_eq_self.mpr fun seg hseg =>
          decide_eq_true (hbelow seg (List.mem_append_right _ hseg))]
        congr 1
        refine List.filter_congr fun seg _ => ?_
        rw [Bool.eq_iff_iff, Bool.not_eq_true', decide_eq_false_iff_not, decide_eq_true_iff, Nat.not_le]
      have hparts := split_at (f := fun seg : Segment π => seg.start) (h.ordered.apart.imp fun hab => hab.1) logId.index
      have hafter : m.log = m'.log ++ (live z c (baseOf s.inner.lastPurged)
          ((init ++ [act]).filter (logId.index ≤ ·.start))).map (fun p => (p.2.index, p.2.entry)) := by
        rw [hlog, hkept, ← List.map_append, ← live_append, hparts]
        exact hsame.log
      exact (hgaps.of_append hafter).1

theorem exists_above {upto : Nat} {seg : Segment π} (h : RaftLogStore.fullyPurged upto seg.meta = false)
    (hne : seg.written ≠ []) : ∃ w ∈ seg.written, upto < w.entry.index := by
  obtain ⟨before, w, hwritten⟩ := List.eq_nil_or_concat seg.written |>.resolve_left hne
  refine ⟨w, by simp [hwritten], ?_⟩
  simpa [RaftLogStore.fullyPurged, Segment.meta, hwritten] using h

theorem written_of_fullyPurged {upto : Nat} {seg : Segment π} (h : RaftLogStore.fullyPurged upto seg.meta = true) :
    ∃ w, w ∈ seg.written := by
  cases hwritten : seg.written with
  | nil => simp [RaftLogStore.fullyPurged, Segment.meta, hwritten] at h
  | cons w ws => exact ⟨w, List.mem_cons_self⟩

/-- What of the segments a purge leaves are the last records. -/
theorem live_purged_suffix (base upto : Nat) {segs : List (Segment π)} (h : Ordered segs) :
    live z c base (segs.filter (!RaftLogStore.fullyPurged upto ·.meta)) <:+ live z c base segs := by
  induction segs with
  | nil => exact List.suffix_rfl
  | cons seg segs ih =>
    have hrest := ih (h.sublist (List.sublist_cons_self _ _))
    have hcons : ∀ segs : List (Segment π), live z c base (seg :: segs) = live z c base [seg] ++ live z c base segs :=
      live_append base [seg]
    rw [List.filter_cons]
    split
    · next hstay =>
      rw [hcons segs, hcons (segs.filter _)]
      cases hwritten : seg.written with
      | nil =>
        have hnone : live z c base [seg] = [] := by simp [live, places, Segment.places, hwritten, spans]
        rw [hnone]
        exact hrest
      | cons w ws =>
        -- what comes later is above the purge, as the end of this segment is
        have hself : segs.filter (!RaftLogStore.fullyPurged upto ·.meta) = segs := by
          refine List.filter_eq_self.mpr fun other hother => ?_
          rw [Bool.not_eq_true', Bool.eq_false_iff]
          intro hpurged
          obtain ⟨v, hv, hlt⟩ := exists_above (by simpa using hstay) (by simp [hwritten])
          obtain ⟨x, hx⟩ := written_of_fullyPurged hpurged
          have hle := h.fullyPurged (List.mem_cons_of_mem _ hother) hpurged x hx
          have hstart := h.start_le other (List.mem_cons_of_mem _ hother) x hx
          have hend := ((List.pairwise_cons.mp h.apart).1 other hother).2 v hv
          omega
        exact ⟨[], by rw [hself, List.nil_append]⟩
    · rw [hcons segs]
      exact hrest.trans (List.suffix_append _ _)

/-- Behind some of the unlinks of a purge: what is above it stays, and no gap opens. -/
theorem recover_purge (h : Holds z c s init act) (hsame : Same z c m s (init ++ [act])) (hgaps : GapFree m.log)
    (logId : LogId) (n : Nat) (config : LogConfig) :
    ∃ s' m', RaftLogStore.open z c config
      (((s.inner.segments.dropLast.take n).filter (RaftLogStore.fullyPurged logId.index)).foldl
        (fun dir seg => dir.removeFile seg.start) s.dir) = .ok s' ∧ Reads z c s' m' ∧
      (∀ p ∈ m.log, logId.index < p.1 → p ∈ m'.log) ∧ (∀ p ∈ m'.log, p ∈ m.log) ∧ GapFree m'.log := by
  let gone : Segment π → Bool := fun seg => RaftLogStore.fullyPurged logId.index seg.meta
  let pre := init.take n
  let post := init.drop n ++ [act]
  have hsplit : pre ++ post = init ++ [act] := by rw [← List.append_assoc, List.take_append_drop]
  have hmetas : (s.inner.segments.dropLast.take n).filter (RaftLogStore.fullyPurged logId.index) =
      (pre.filter gone).map (·.meta) := by
    rw [h.segments, List.map_append, List.map_singleton, List.dropLast_concat, ← List.map_take, List.filter_map]
    rfl
  rw [hmetas, foldl_removeSegments]
  obtain ⟨s', m', hopen, hreads, hlog, hold⟩ := recover_removed h hsame hsplit gone config
  refine ⟨s', m', hopen, hreads, fun p hp hlt => ?_, hold, ?_⟩
  · rw [hsame.log, ← hsplit] at hp
    obtain ⟨place, hplace, rfl⟩ := List.mem_map.mp hp
    obtain ⟨hbase, seg, hseg, hin⟩ := mem_live.mp hplace
    rw [hlog]
    refine List.mem_map.mpr ⟨place, mem_live.mpr ⟨hbase, seg, ?_, hin⟩, rfl⟩
    have hstay : gone seg = false := by
      obtain ⟨w, hw, hindex⟩ := mem_segment_places hin
      refine Bool.eq_false_iff.mpr fun hgone => ?_
      have hle := h.ordered.fullyPurged (hsplit ▸ hseg) hgone w hw
      have hlt : logId.index < place.2.index := hlt
      omega
    rcases List.mem_append.mp hseg with hseg | hseg
    · exact List.mem_append_left _ (List.mem_filter.mpr ⟨hseg, by simp [hstay]⟩)
    · exact List.mem_append_right _ hseg
  · have hpre : Ordered pre := h.ordered.sublist (hsplit ▸ List.sublist_append_left _ _)
    obtain ⟨before, hbefore⟩ := live_purged_suffix (z := z) (c := c) (baseOf s.inner.lastPurged) logId.index hpre
    have hfront : m.log = before.map (fun p => (p.2.index, p.2.entry)) ++ m'.log := by
      rw [hlog, live_append, List.map_append, ← List.append_assoc, ← List.map_append, hbefore, ← List.map_append,
        ← live_append, hsplit]
      exact hsame.log
    exact (hgaps.of_append hfront).2

end

/-! ## Any run, any crash -/

theorem Dense.appended {m m' : MemLogStore π} (h : Dense m) {done : List (Entry π)} (rest : List (Entry π)) (hdone : Consecutive m.nextIndex done)
    (hlog : m'.log = (m.append done).log) :
    (∀ p ∈ m.log, p ∈ m'.log) ∧ (∀ p ∈ m'.log, p ∈ m.log ∨ p.2 ∈ (LogOp.append (done ++ rest)).entries) ∧ GapFree m'.log := by
  obtain ⟨hdense, happend⟩ := h.append hdone
  refine ⟨fun p hp => ?_, fun p hp => ?_, hlog ▸ hdense.gapFree⟩
  · rw [hlog, happend]
    exact List.mem_append_left _ hp
  · rw [hlog, happend] at hp
    refine (List.mem_append.mp hp).imp_right fun hp => ?_
    obtain ⟨e, he, rfl⟩ := List.mem_map.mp hp
    exact List.mem_append_left _ he

/-- Where the part of a record is torn, `open` fails. Elsewhere it has what was acknowledged and not taken away, and nothing that
was taken away before. -/
theorem open_after_crash (z : Deflate) (c : EntryCodec π) (config config' : LogConfig) (ops : List (LogOp π)) {op : LogOp π}
    {tail : Bytes} {dir : LogDir} {s₀ s : RaftLogStore π} (hlegal : LegalRun {} ops) (hop : Legal (({} : MemLogStore π).run ops) op)
    (hopen : RaftLogStore.open z c config {} = .ok s₀) (hrun : s₀.run z c ops = .ok s) (hcrash : Crash z c s op tail dir) :
    (tail ≠ [] → ∃ err, RaftLogStore.open z c config' dir = .error err) ∧
      (tail = [] → ∃ s' m', RaftLogStore.open z c config' dir = .ok s' ∧ Reads z c s' m' ∧
        (∀ p ∈ (({} : MemLogStore π).run ops).log, ¬ Covers op p.1 → p ∈ m'.log) ∧
        (∀ p ∈ m'.log, p ∈ (({} : MemLogStore π).run ops).log ∨ p.2 ∈ op.entries) ∧
        ((∀ logId, op = .truncate logId → ¬ BetweenUnlinks s logId dir) → GapFree m'.log)) := by
  have hdense : Dense (({} : MemLogStore π).run ops) := Dense.run ⟨by simp, rfl⟩ hlegal
  obtain ⟨init, act, h, hsame⟩ : Refines z c s (({} : MemLogStore π).run ops) := by
    obtain ⟨first, hfirst, h₀, hlast, hcommitted, hvote⟩ := open_empty (z := z) (c := c) {} rfl config
    obtain rfl := Except.ok.inj (hopen.symm.trans hfirst)
    obtain ⟨last, hlast', h⟩ := run_spec ⟨[], _, h₀, ⟨rfl, hlast.symm, hcommitted.symm, hvote.symm⟩⟩ hlegal
    obtain rfl := Except.ok.inj (hrun.symm.trans hlast')
    exact h
  generalize ({} : MemLogStore π).run ops = m at *
  cases hcrash with
  | between done rest =>
    have hdone : Consecutive m.nextIndex done := (consecutive_append.mp hop).1
    obtain ⟨s', m', hopen', hreads, hlog⟩ := recover_between h hsame hdone config'
    obtain ⟨hkept, hold, hgaps⟩ := hdense.appended rest hdone hlog
    exact ⟨fun hne => absurd rfl hne, fun _ => ⟨s', m', hopen', hreads, fun p hp _ => hkept p hp, hold, fun _ => hgaps⟩⟩
  | inside done rest e before line tail hbefore hline hpart hproper =>
    obtain ⟨hdone, he, -⟩ := consecutive_append.mp hop
    obtain ⟨hdense', happend⟩ := hdense.append hdone
    obtain ⟨init', act', h', hsame'⟩ := appendEntries_spec h hsame hdone
    subst hbefore
    have hnext : e.index = (m.append done).nextIndex := by
      rw [he, hdense'.nextIndex, happend, hdense.nextIndex, List.length_append, List.length_map, Nat.add_assoc]
      rfl
    have htorn : Torn z c tail := ⟨_, e, hline ▸ hpart, hline ▸ hproper⟩
    obtain ⟨hfails, hopens⟩ := recover_inside h' hsame' hnext line.length htorn config'
    refine ⟨hfails, fun hnil => ?_⟩
    obtain ⟨s', m', hopen', hreads, hlog⟩ := hopens hnil
    obtain ⟨hkept, hold, hgaps⟩ := hdense.appended (e :: rest) hdone hlog
    exact ⟨s', m', hopen', hreads, fun p hp _ => hkept p hp, hold, fun _ => hgaps⟩
  | truncate logId n =>
    obtain ⟨s', m', hopen', hreads, hkept, hold, hgaps⟩ := recover_truncate h hsame hdense.gapFree logId n config' rfl
    exact ⟨fun hne => absurd rfl hne, fun _ => ⟨s', m', hopen', hreads, fun p hp hnot => hkept p hp (Nat.lt_of_not_le hnot),
      fun p hp => .inl (hold p hp), fun hnot => hgaps (hnot logId rfl)⟩⟩
  | purge logId n =>
    obtain ⟨s', m', hopen', hreads, hkept, hold, hgaps⟩ := recover_purge h hsame hdense.gapFree logId n config'
    exact ⟨fun hne => absurd rfl hne, fun _ => ⟨s', m', hopen', hreads, fun p hp hnot => hkept p hp (Nat.lt_of_not_le hnot),
      fun p hp => .inl (hold p hp), fun _ => hgaps⟩⟩

/-- One entry is acknowledged, and the next batch is cut behind its first record. -/
theorem open_after_crash_between_records :
    ∃ s₀ s dir, RaftLogStore.open storedDeflate blankCodec {} {} = .ok s₀ ∧
      s₀.run storedDeflate blankCodec [.append [entryAt 1 0]] = .ok s ∧
      Crash storedDeflate blankCodec s (.append [entryAt 1 1, entryAt 1 2]) [] dir ∧
      ∃ s' m', RaftLogStore.open storedDeflate blankCodec {} dir = .ok s' ∧ Reads storedDeflate blankCodec s' m' ∧
        (0, entryAt 1 0) ∈ m'.log ∧ GapFree m'.log := by
  have hlegal : LegalRun {} [LogOp.append [entryAt 1 0]] := ⟨⟨rfl, trivial⟩, trivial⟩
  obtain ⟨s₀, hopen, h₀, hlast, hcommitted, hvote⟩ := open_empty (z := storedDeflate) (c := blankCodec) {} rfl {}
  obtain ⟨s, hrun, -⟩ := run_spec ⟨[], _, h₀, ⟨rfl, hlast.symm, hcommitted.symm, hvote.symm⟩⟩ hlegal
  have hcrash := Crash.between (z := storedDeflate) (c := blankCodec) (s := s) [entryAt 1 1] [entryAt 1 2]
  have hop : Legal (({} : MemLogStore Unit).run [.append [entryAt 1 0]]) (.append [entryAt 1 1, entryAt 1 2]) :=
    ⟨rfl, rfl, trivial⟩
  obtain ⟨s', m', hopen', hreads, hkept, -, hgaps⟩ :=
    (open_after_crash storedDeflate blankCodec {} {} _ hlegal hop hopen hrun hcrash).2 rfl
  exact ⟨s₀, s, _, hopen, hrun, hcrash, s', m', hopen', hreads, hkept _ List.mem_cons_self id, hgaps nofun⟩

/-- What is read after a run and a crash behind the first `n` segments of a truncate. -/
def readAfterTruncateCrash (config : LogConfig) (ops : List (LogOp Unit)) (logId : LogId) (n : Nat) :
    Except IoError (List (Entry Unit)) := do
  let s₀ ← RaftLogStore.open storedDeflate blankCodec config {}
  let s ← s₀.run storedDeflate blankCodec ops
  let s' ← RaftLogStore.open storedDeflate blankCodec {}
    (((s.inner.segments.take n).filter (logId.index ≤ ·.start)).foldl (fun dir seg => dir.removeFile seg.start) s.dir)
  s'.tryGetLogEntries storedDeflate blankCodec .unbounded .unbounded

/-- A crash behind the first byte of a record, and one behind the first of two segments that a truncate unlinks. -/
theorem crash_unbootable_or_gap :
    (∃ s dir, RaftLogStore.open storedDeflate blankCodec {} {} = .ok s ∧
      Crash storedDeflate blankCodec s (.append [entryAt 1 0]) [123] dir ∧
      ∀ config, ¬ ∃ s', RaftLogStore.open storedDeflate blankCodec config dir = .ok s') ∧
    ∃ s₀ s dir s', RaftLogStore.open storedDeflate blankCodec { segMaxBytes := 1 } {} = .ok s₀ ∧
      s₀.run storedDeflate blankCodec [.append [entryAt 1 0, entryAt 1 1, entryAt 1 2]] = .ok s ∧
      Crash storedDeflate blankCodec s (.truncate ⟨1, 1, 1⟩) [] dir ∧
      RaftLogStore.open storedDeflate blankCodec {} dir = .ok s' ∧
      s'.tryGetLogEntries storedDeflate blankCodec .unbounded .unbounded = .ok [entryAt 1 0, entryAt 1 2] := by
  constructor
  · obtain ⟨s, hopen, h, hlast, hcommitted, hvote⟩ := open_empty (z := storedDeflate) (c := blankCodec) {} rfl {}
    have hplain : s.inner.config.compress = false := by
      have heval : RaftLogStore.open storedDeflate blankCodec {} {} = .ok _ := rfl
      obtain rfl := Except.ok.inj (hopen.symm.trans heval)
      rfl
    have hpart : [123] <+: recordOf storedDeflate blankCodec s.inner.config.compress (entryAt 1 0) := by
      rw [hplain]
      exact ⟨_, rfl⟩
    have hproper : [123] ≠ recordOf storedDeflate blankCodec s.inner.config.compress (entryAt 1 0) := by
      rw [hplain]
      exact fun heq => nomatch (List.cons.inj heq).2
    refine ⟨s, _, hopen, .inside [] [] (entryAt 1 0) s _ [123] rfl rfl hpart hproper, fun config ⟨s', hopen'⟩ => ?_⟩
    have hsame : Same storedDeflate blankCodec {} s ([] ++ [⟨0, []⟩]) := ⟨rfl, hlast.symm, hcommitted.symm, hvote.symm⟩
    obtain ⟨err, hfails⟩ := (recover_inside h hsame (e := entryAt 1 0) rfl _ ⟨_, _, hpart, hproper⟩ config).1 (by decide)
    cases hopen'.symm.trans hfails
  · have hread : (match readAfterTruncateCrash { segMaxBytes := 1 } [.append [entryAt 1 0, entryAt 1 1, entryAt 1 2]]
        ⟨1, 1, 1⟩ 2 with
        | .ok es => es == [entryAt 1 0, entryAt 1 2]
        | .error _ => false) = true := by decide +kernel
    split at hread
    · next es heq =>
      obtain rfl : es = [entryAt 1 0, entryAt 1 2] := by simpa using hread
      obtain ⟨s₀, hopen, heq⟩ := Except.bind_eq_ok.mp heq
      obtain ⟨s, hrun, heq⟩ := Except.bind_eq_ok.mp heq
      obtain ⟨s', hopen', hentries⟩ := Except.bind_eq_ok.mp heq
      exact ⟨s₀, s, _, s', hopen, hrun, .truncate ⟨1, 1, 1⟩ 2, hopen', hentries⟩
    · cases hread

end NanoBpm.Raft.LogStore
