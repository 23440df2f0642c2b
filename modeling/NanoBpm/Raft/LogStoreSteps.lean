import NanoBpm.Raft.LogStoreDisk

/-!
# Appending, truncating and purging (`raft_logstore.rs:957-1018`, `:1174-1405`)

What each operation leaves on disk: a record more, a new segment, the segments below an index, or those above one. The entries
of the index are those of the in-memory store after the same operation.
-/

namespace NanoBpm.Raft.LogStore

open Seglog (Bytes Deflate)

variable {π : Type} {z : Deflate} {c : EntryCodec π}

/-! ## Appending -/

/-- The index that comes next. -/
def MemLogStore.nextIndex (m : MemLogStore π) : Nat := (m.getLogState.lastLogId.map (·.index + 1)).getD 0

/-- The next index is behind everything that is on disk, and nothing is missing below it. -/
theorem Same.nextIndex {m : MemLogStore π} {s : RaftLogStore π} {segs : List (Segment π)} (hsame : Same z c m s segs)
    (hordered : Ordered segs) :
    baseOf s.inner.lastPurged ≤ m.nextIndex ∧ (∀ seg ∈ segs, ∀ w ∈ seg.written, w.entry.index < m.nextIndex) ∧
      (m.nextIndex = baseOf s.inner.lastPurged ∨
        ∃ seg ∈ segs, ∃ w ∈ seg.written, m.nextIndex = w.entry.index + 1) := by
  have hplace : ∀ seg ∈ segs, ∀ w ∈ seg.written, ∃ p ∈ places z c segs, p.2.index = w.entry.index := by
    intro seg hseg w hw
    obtain ⟨pre, post, hwritten⟩ := List.append_of_mem hw
    refine ⟨(seg.start, w.scanned z c (0 + (bytesOf z c pre).length)), List.mem_flatMap.mpr ⟨seg, hseg, ?_⟩, rfl⟩
    refine List.mem_map.mpr ⟨_, ?_, rfl⟩
    rw [hwritten, spans_append]
    simp [spans]
  cases hlive : (live z c (baseOf s.inner.lastPurged) segs).getLast? with
  | none =>
    have hnil : live z c (baseOf s.inner.lastPurged) segs = [] := List.getLast?_eq_none_iff.mp hlive
    have hnext : m.nextIndex = baseOf s.inner.lastPurged := by
      unfold MemLogStore.nextIndex MemLogStore.getLogState
      rw [hsame.log, hnil, hsame.lastPurged]
      rfl
    refine ⟨hnext.ge, fun seg hseg w hw => ?_, .inl hnext⟩
    obtain ⟨p, hp, hindex⟩ := hplace seg hseg w hw
    rw [hnext, ← hindex]
    by_contra hge
    have hmem : p ∈ live z c (baseOf s.inner.lastPurged) segs := List.mem_filter.mpr ⟨hp, by simpa using hge⟩
    rw [hnil] at hmem
    cases hmem
  | some last =>
    obtain ⟨before, hbefore⟩ := List.getLast?_eq_some_iff.mp hlive
    have hlast : last ∈ live z c (baseOf s.inner.lastPurged) segs := List.mem_of_getLast? hlive
    obtain ⟨hmem, hbase⟩ := List.mem_filter.mp hlast
    obtain ⟨seg, hseg, pre, w, post, hwritten, rfl⟩ := mem_places hmem
    have hnext : m.nextIndex = w.entry.index + 1 := by
      unfold MemLogStore.nextIndex MemLogStore.getLogState
      rw [hsame.log, List.getLast?_map, hlive]
      rfl
    have hbase : baseOf s.inner.lastPurged ≤ w.entry.index := of_decide_eq_true hbase
    refine ⟨by omega, fun seg' hseg' w' hw' => ?_, .inr ⟨seg, hseg, w, by simp [hwritten], hnext⟩⟩
    obtain ⟨p, hp, hindex⟩ := hplace seg' hseg' w' hw'
    by_cases hpbase : baseOf s.inner.lastPurged ≤ p.2.index
    · have hpmem : p ∈ live z c (baseOf s.inner.lastPurged) segs := List.mem_filter.mpr ⟨hp, by simpa using hpbase⟩
      have hsorted := (hordered.pairwise_places (z := z) (c := c)).filter fun p => baseOf s.inner.lastPurged ≤ p.2.index
      change (live z c (baseOf s.inner.lastPurged) segs).Pairwise _ at hsorted
      rw [hbefore] at hpmem hsorted
      rcases List.mem_append.mp hpmem with hpmem | hpmem
      · have hlt := (List.pairwise_append.mp hsorted).2.2 p hpmem _ List.mem_cons_self
        have hlt' : p.2.index < w.entry.index := hlt
        omega
      · obtain rfl := List.mem_singleton.mp hpmem
        have hsame' : w.entry.index = w'.entry.index := hindex
        omega
    · omega

theorem Same.keys_lt {m : MemLogStore π} {s : RaftLogStore π} {segs : List (Segment π)} (h : Same z c m s segs) {next : Nat}
    (hbelow : ∀ seg ∈ segs, ∀ w ∈ seg.written, w.entry.index < next) : ∀ p ∈ m.log, p.1 < next := by
  intro p hp
  rw [h.log] at hp
  obtain ⟨place, hplace, rfl⟩ := List.mem_map.mp hp
  obtain ⟨seg, hseg, pre, w, post, hwritten, rfl⟩ := mem_places (List.mem_filter.mp hplace).1
  exact hbelow seg hseg w (by simp [hwritten])

@[simp] theorem places_append (segs others : List (Segment π)) :
    places z c (segs ++ others) = places z c segs ++ places z c others := List.flatMap_append

theorem live_append (base : Nat) (segs others : List (Segment π)) :
    live z c base (segs ++ others) = live z c base segs ++ live z c base others := by
  rw [live, places_append, List.filter_append]
  rfl

theorem setLast_append (index : Nat) (segs : List SegMeta) (seg : SegMeta) :
    RaftLogStore.setLast index (segs ++ [seg]) = segs ++ [{ seg with last := some index }] := by
  induction segs with
  | nil => rfl
  | cons a segs ih =>
    cases hsegs : segs ++ [seg] with
    | nil => simp at hsegs
    | cons b rest =>
      rw [List.cons_append, hsegs, RaftLogStore.setLast, ← hsegs, ih]
      rfl
      nofun

theorem mem_append_singleton {segs : List (Segment π)} {new : Segment π} {p : Segment π → Prop} :
    (∀ seg ∈ segs ++ [new], p seg) ↔ (∀ seg ∈ segs, p seg) ∧ p new := by
  simp [or_imp, forall_and]

/-- A new segment behind the others. -/
theorem Ordered.snoc {segs : List (Segment π)} {index : Nat} (h : Ordered segs) (hstarts : ∀ seg ∈ segs, seg.start < index)
    (hindex : ∀ seg ∈ segs, ∀ w ∈ seg.written, w.entry.index < index) : Ordered (segs ++ [⟨index, []⟩]) where
  apart := List.pairwise_append.mpr ⟨h.apart, List.pairwise_singleton _ _, fun seg hseg b hb => by
    obtain rfl := List.mem_singleton.mp hb
    exact ⟨hstarts seg hseg, hindex seg hseg⟩⟩
  within := mem_append_singleton.mpr ⟨h.within, .nil⟩
  start_le := mem_append_singleton.mpr ⟨h.start_le, fun _ hw => absurd hw List.not_mem_nil⟩

/-- One record more in the last segment. -/
theorem Ordered.extend {init : List (Segment π)} {act : Segment π} {w : Written π} (h : Ordered (init ++ [act]))
    (hstart : act.start ≤ w.entry.index) (hindex : ∀ v ∈ act.written, v.entry.index < w.entry.index) :
    Ordered (init ++ [⟨act.start, act.written ++ [w]⟩]) := by
  obtain ⟨hinit, -, hact⟩ := List.pairwise_append.mp h.apart
  obtain ⟨hwithin, hwithin'⟩ := mem_append_singleton.mp h.within
  obtain ⟨hle, hle'⟩ := mem_append_singleton.mp h.start_le
  constructor
  · refine List.pairwise_append.mpr ⟨hinit, List.pairwise_singleton _ _, fun seg hseg b hb => ?_⟩
    obtain rfl := List.mem_singleton.mp hb
    exact hact seg hseg act List.mem_cons_self
  · refine mem_append_singleton.mpr ⟨hwithin, List.pairwise_append.mpr ⟨hwithin', List.pairwise_singleton _ _, ?_⟩⟩
    intro v hv w' hw'
    obtain rfl := List.mem_singleton.mp hw'
    exact hindex v hv
  · refine mem_append_singleton.mpr ⟨hle, fun v hv => ?_⟩
    rcases List.mem_append.mp hv with hv | hv
    · exact hle' v hv
    · obtain rfl := List.mem_singleton.mp hv
      exact hstart

theorem Ordered.start_ne {init : List (Segment π)} {act : Segment π} (h : Ordered (init ++ [act])) {seg : Segment π}
    (hseg : seg ∈ init) : seg.start ≠ act.start :=
  Nat.ne_of_lt ((List.pairwise_append.mp h.apart).2.2 seg hseg act List.mem_cons_self).1

theorem Ordered.start_inj {segs : List (Segment π)} (h : Ordered segs) {a b : Segment π} (ha : a ∈ segs) (hb : b ∈ segs)
    (heq : a.start = b.start) : a = b := by
  have hnodup : (segs.map (·.start)).Nodup := List.pairwise_map.mpr (h.apart.imp fun hab => Nat.ne_of_lt hab.1)
  exact List.inj_on_of_nodup_map hnodup ha hb heq

theorem Reached.snoc {base index : Nat} {segs : List (Segment π)} (h : Reached base segs)
    (hindex : index ≤ base ∨ ∃ p ∈ segs, ∃ w ∈ p.written, w.entry.index + 1 = index) :
    Reached base (segs ++ [⟨index, []⟩]) := by
  refine mem_append_singleton.mpr ⟨fun seg hseg => (h seg hseg).imp_right ?_, hindex.imp_right ?_⟩
  · rintro ⟨p, hp, w, hw, heq⟩
    exact ⟨p, List.mem_append_left _ hp, w, hw, heq⟩
  · rintro ⟨p, hp, w, hw, heq⟩
    exact ⟨p, List.mem_append_left _ hp, w, hw, heq⟩

theorem Reached.extend {base : Nat} {init : List (Segment π)} {act : Segment π} {w : Written π}
    (h : Reached base (init ++ [act])) : Reached base (init ++ [⟨act.start, act.written ++ [w]⟩]) := by
  have hmore : ∀ {start : Nat}, (∃ p ∈ init ++ [act], ∃ v ∈ p.written, v.entry.index + 1 = start) →
      ∃ p ∈ init ++ [⟨act.start, act.written ++ [w]⟩], ∃ v ∈ p.written, v.entry.index + 1 = start := by
    rintro start ⟨p, hp, v, hv, heq⟩
    rcases List.mem_append.mp hp with hp | hp
    · exact ⟨p, List.mem_append_left _ hp, v, hv, heq⟩
    · obtain rfl := List.mem_singleton.mp hp
      exact ⟨_, List.mem_append_right _ List.mem_cons_self, v, List.mem_append_left _ hv, heq⟩
  obtain ⟨hinit, hact⟩ := mem_append_singleton.mp h
  exact mem_append_singleton.mpr ⟨fun seg hseg => (hinit seg hseg).imp_right hmore, hact.imp_right hmore⟩

/-- An update of the last file leaves the others. -/
theorem Ordered.map_files {init : List (Segment π)} {act : Segment π} (h : Ordered (init ++ [act])) (f : Bytes → Bytes) :
    ((init ++ [act]).map (·.file z c)).map (fun (s, raw) => if s = act.start then (s, f raw) else (s, raw)) =
      init.map (·.file z c) ++ [(act.start, f (bytesOf z c act.written))] := by
  have hinit : (init.map (·.file z c)).map (fun (s, raw) => if s = act.start then (s, f raw) else (s, raw)) =
      init.map (·.file z c) := by
    rw [List.map_map]
    refine List.map_congr_left fun seg hseg => ?_
    simp [Segment.file, h.start_ne hseg]
  rw [List.map_append, List.map_append, hinit]
  simp [Segment.file]

theorem Ordered.write_last {init : List (Segment π)} {act : Segment π} (h : Ordered (init ++ [act])) {dir : LogDir}
    (hdir : dir.segs = (init ++ [act]).map (·.file z c)) (w : Written π) :
    dir.write act.start (w.bytes z c) =
      { dir with segs := (init ++ [(⟨act.start, act.written ++ [w]⟩ : Segment π)]).map (·.file z c) } := by
  rw [LogDir.write, hdir, h.map_files (· ++ w.bytes z c)]
  simp [Segment.file]

theorem Ordered.replace_last {init : List (Segment π)} {act : Segment π} (h : Ordered (init ++ [act])) {dir : LogDir}
    (hdir : dir.segs = (init ++ [act]).map (·.file z c)) (ws : List (Written π)) :
    dir.replace act.start (bytesOf z c ws) = { dir with segs := (init ++ [(⟨act.start, ws⟩ : Segment π)]).map (·.file z c) } := by
  rw [LogDir.replace, hdir, h.map_files fun _ => bytesOf z c ws]
  simp [Segment.file]

/-- The place of the record that is written next. -/
theorem places_extend (init : List (Segment π)) (act : Segment π) (w : Written π) :
    places z c (init ++ [⟨act.start, act.written ++ [w]⟩]) =
      places z c (init ++ [act]) ++ [(act.start, w.scanned z c (bytesOf z c act.written).length)] := by
  simp only [places, List.flatMap_append, List.flatMap_cons, List.flatMap_nil, List.append_nil, List.append_assoc]
  congr 1
  simp [Segment.places, spans_append, spans]

theorem live_extend {base : Nat} (init : List (Segment π)) (act : Segment π) {w : Written π} (hbase : base ≤ w.entry.index) :
    live z c base (init ++ [⟨act.start, act.written ++ [w]⟩]) =
      live z c base (init ++ [act]) ++ [(act.start, w.scanned z c (bytesOf z c act.written).length)] := by
  have hkeep : [(act.start, w.scanned z c (bytesOf z c act.written).length)].filter (base ≤ ·.2.index) =
      [(act.start, w.scanned z c (bytesOf z c act.written).length)] := by
    simp [Written.scanned, hbase]
  rw [live, places_extend, List.filter_append, hkeep]
  rfl

namespace Holds

variable {s : RaftLogStore π} {init : List (Segment π)} {act : Segment π}

/-- A roll to a new segment at the index that comes next. -/
theorem rollActive (h : Holds z c s init act) {index : Nat} (hbytes : 0 < s.inner.activeBytes)
    (hindex : ∀ seg ∈ init ++ [act], ∀ w ∈ seg.written, w.entry.index < index)
    (hreach : index ≤ baseOf s.inner.lastPurged ∨ ∃ seg ∈ init ++ [act], ∃ w ∈ seg.written, w.entry.index + 1 = index) :
    Holds z c (s.rollActive index) (init ++ [act]) ⟨index, []⟩ := by
  have hact : act.start < index := by
    cases hwritten : act.written with
    | nil =>
      rw [h.activeBytes, hwritten] at hbytes
      exact absurd hbytes (Nat.lt_irrefl 0)
    | cons w ws =>
      have hle := h.ordered.start_le act (by simp) w (by simp [hwritten])
      have hlt := hindex act (by simp) w (by simp [hwritten])
      omega
  have hstarts : ∀ seg ∈ init ++ [act], seg.start < index := mem_append_singleton.mpr ⟨fun seg hseg =>
    Nat.lt_trans ((List.pairwise_append.mp h.ordered.apart).2.2 seg hseg act List.mem_cons_self).1 hact, hact⟩
  have hnew : s.dir.segs.any (·.1 = index) = false := by
    rw [h.files, List.any_eq_false]
    rintro _ hp
    obtain ⟨seg, hseg, rfl⟩ := List.mem_map.mp hp
    simp [Segment.file, Nat.ne_of_lt (hstarts seg hseg)]
  have hdir : s.dir.openAppend index = { s.dir with segs := s.dir.segs ++ [(index, [])] } := by
    rw [LogDir.openAppend, if_neg (by simp [hnew])]
  refine ⟨⟨?_, ?_, ?_, ?_, ?_, ?_, ?_, ?_, ?_⟩, ?_⟩
  · simp only [RaftLogStore.rollActive, hdir, h.files, List.map_append, List.map_cons, List.map_nil]
    rfl
  · simp only [RaftLogStore.rollActive, h.segments, List.map_append, List.map_cons, List.map_nil]
    rfl
  · rfl
  · rfl
  · exact h.ordered.snoc hstarts hindex
  · rw [live_append]
    show List.Forall₂ Indexed s.inner.log (live z c (baseOf s.inner.lastPurged) (init ++ [act]) ++ [])
    rw [List.append_nil]
    exact h.index
  · simp only [RaftLogStore.rollActive, hdir]
    exact h.lastPurged
  · simp only [RaftLogStore.rollActive, hdir]
    exact h.committed
  · simp only [RaftLogStore.rollActive, hdir]
    exact h.vote
  · exact h.reached.snoc hreach

/-- A record that is written behind everything else. -/
theorem writeRecord (h : Holds z c s init act) (compress : Bool) {e : Entry π} (hstart : act.start ≤ e.index)
    (hindex : ∀ seg ∈ init ++ [act], ∀ w ∈ seg.written, w.entry.index < e.index)
    (hbase : baseOf s.inner.lastPurged ≤ e.index) :
    Holds z c (s.writeRecord c (recordOf z c compress e) e) init ⟨act.start, act.written ++ [⟨compress, e⟩]⟩ := by
  have hlast : (s.inner.segments.getLast?.map (·.start)).getD e.index = act.start := by
    rw [h.segments]
    simp [Segment.meta]
  refine ⟨⟨?_, ?_, ?_, ?_, ?_, ?_, ?_, ?_, ?_⟩, ?_⟩
  · show (s.dir.write s.inner.activeFile _).segs = _
    rw [h.activeFile]
    exact congrArg (·.segs) (h.ordered.write_last h.files ⟨compress, e⟩)
  · simp only [RaftLogStore.writeRecord, h.segments, List.map_append, List.map_cons, List.map_nil, setLast_append]
    simp [Segment.meta]
  · exact h.activeFile
  · simp [RaftLogStore.writeRecord, h.activeBytes, Written.bytes]
  · exact h.ordered.extend hstart (hindex act (by simp))
  · have hbelow : ∀ p ∈ s.inner.log, p.1 < e.index := by
      intro p hp
      obtain ⟨place, hplace, heq, -⟩ := exists_place h.index hp
      obtain ⟨seg, hseg, pre, w, post, hwritten, rfl⟩ := mem_places (List.mem_filter.mp hplace).1
      exact heq ▸ hindex seg hseg w (by simp [hwritten])
    simp only [RaftLogStore.writeRecord, hlast]
    rw [BTreeMap.insert_of_lt hbelow, live_extend init act hbase]
    refine List.rel_append h.index (.cons ⟨rfl, ?_⟩ .nil)
    exact ⟨rfl, rfl, rfl, h.activeBytes, .inr rfl⟩
  · exact h.lastPurged
  · exact h.committed
  · exact h.vote
  · exact h.reached.extend

end Holds

/-- Where the next entry goes: behind the active segment, or behind a new one. -/
theorem rolled_spec {m : MemLogStore π} {s : RaftLogStore π} {init : List (Segment π)} {act : Segment π}
    (h : Holds z c s init act) (hsame : Same z c m s (init ++ [act])) {index : Nat} (hnext : index = m.nextIndex) (len : Nat) :
    ∃ init' act', Holds z c (s.rolled len index) init' act' ∧ Same z c m (s.rolled len index) (init' ++ [act']) ∧
      (∀ seg ∈ init' ++ [act'], ∀ w ∈ seg.written, w.entry.index < index) ∧ act'.start ≤ index ∧
      baseOf (s.rolled len index).inner.lastPurged ≤ index := by
  obtain ⟨hbase, hbelow, hreach⟩ := hsame.nextIndex h.ordered
  rw [← hnext] at hbase hbelow hreach
  unfold RaftLogStore.rolled
  split
  · next hroll =>
    have hreach' : index ≤ baseOf s.inner.lastPurged ∨
        ∃ seg ∈ init ++ [act], ∃ w ∈ seg.written, w.entry.index + 1 = index := by
      rcases hreach with hreach | ⟨seg, hseg, w, hw, hreach⟩
      · exact .inl hreach.le
      · exact .inr ⟨seg, hseg, w, hw, hreach.symm⟩
    refine ⟨init ++ [act], ⟨index, []⟩, h.rollActive hroll.1 hbelow hreach', { hsame with log := ?_ }, ?_, Nat.le_refl _, hbase⟩
    · rw [live_append]
      show _ = (live z c (baseOf s.inner.lastPurged) (init ++ [act]) ++ []).map _
      rw [List.append_nil]
      exact hsame.log
    · exact mem_append_singleton.mpr ⟨hbelow, fun w hw => absurd hw List.not_mem_nil⟩
  · refine ⟨init, act, h, hsame, hbelow, ?_, hbase⟩
    rcases h.reached act (by simp) with hact | ⟨p, hp, w, hw, heq⟩
    · exact Nat.le_trans hact hbase
    · exact heq ▸ hbelow p hp w hw

/-- One entry at the index that comes next. -/
theorem appendEntry_spec {m : MemLogStore π} {s : RaftLogStore π} {init : List (Segment π)} {act : Segment π}
    (h : Holds z c s init act) (hsame : Same z c m s (init ++ [act])) {e : Entry π} (he : e.index = m.nextIndex) :
    ∃ init' act', Holds z c (s.appendEntry z c e) init' act' ∧
      Same z c (m.append [e]) (s.appendEntry z c e) (init' ++ [act']) := by
  obtain ⟨init', act', hroll, hsame', hindex, hstart, hbase⟩ :=
    rolled_spec h hsame he (recordOf z c s.inner.config.compress e).length
  refine ⟨init', _, hroll.writeRecord s.inner.config.compress hstart hindex hbase, ?_⟩
  constructor
  · show m.log.insert e.index e = (live z c (baseOf (s.rolled _ e.index).inner.lastPurged) _).map _
    rw [BTreeMap.insert_of_lt (hsame'.keys_lt hindex), live_extend init' act' hbase, List.map_append, hsame'.log]
    rfl
  · exact hsame'.lastPurged
  · exact hsame'.committed
  · exact hsame'.vote

/-- The entries come one after the other, from the next index on. -/
def Consecutive (next : Nat) : List (Entry π) → Prop
  | [] => True
  | e :: es => e.index = next ∧ Consecutive (next + 1) es

theorem MemLogStore.nextIndex_append {m : MemLogStore π} {e : Entry π} (h : ∀ p ∈ m.log, p.1 < e.index) :
    (m.append [e]).nextIndex = e.index + 1 := by
  unfold MemLogStore.nextIndex MemLogStore.getLogState MemLogStore.append
  simp only [List.foldl_cons, List.foldl_nil, BTreeMap.insert_of_lt h]
  simp [Entry.index]

/-- The loop of `append`. -/
theorem appendEntries_spec {m : MemLogStore π} {s : RaftLogStore π} {init : List (Segment π)} {act : Segment π}
    (h : Holds z c s init act) (hsame : Same z c m s (init ++ [act])) {entries : List (Entry π)}
    (hentries : Consecutive m.nextIndex entries) :
    ∃ init' act', Holds z c (entries.foldl (fun s e => s.appendEntry z c e) s) init' act' ∧
      Same z c (m.append entries) (entries.foldl (fun s e => s.appendEntry z c e) s) (init' ++ [act']) := by
  induction entries generalizing m s init act with
  | nil => exact ⟨init, act, h, hsame⟩
  | cons e es ih =>
    obtain ⟨he, hes⟩ := hentries
    obtain ⟨init', act', h', hsame'⟩ := appendEntry_spec h hsame he
    have hkeys : ∀ p ∈ m.log, p.1 < e.index := by
      rw [he]
      exact hsame.keys_lt (hsame.nextIndex h.ordered).2.1
    refine ih h' hsame' ?_
    rw [MemLogStore.nextIndex_append hkeys, he]
    exact hes

theorem append_spec {m : MemLogStore π} {s : RaftLogStore π} {init : List (Segment π)} {act : Segment π}
    (h : Holds z c s init act) (hsame : Same z c m s (init ++ [act])) {entries : List (Entry π)}
    (hentries : Consecutive m.nextIndex entries) :
    ∃ init' act', Holds z c (s.append z c entries) init' act' ∧
      Same z c (m.append entries) (s.append z c entries) (init' ++ [act']) := by
  obtain ⟨init', act', h', hsame'⟩ := appendEntries_spec h hsame hentries
  exact ⟨init', act', h'.enforceRamBudget, hsame'.enforceRamBudget⟩

/-! ## Truncating -/

theorem split_at {α : Type} {f : α → Nat} {xs : List α} (h : xs.Pairwise fun a b => f a < f b) (k : Nat) :
    xs.filter (f · < k) ++ xs.filter (k ≤ f ·) = xs := by
  induction xs with
  | nil => rfl
  | cons x xs ih =>
    obtain ⟨hx, hxs⟩ := List.pairwise_cons.mp h
    by_cases hk : f x < k
    · have hnot : ¬ k ≤ f x := by omega
      simp only [List.filter_cons, hk, hnot, decide_true, decide_false, if_true, Bool.false_eq_true, if_false, List.cons_append]
      rw [ih hxs]
    · have hrest : ∀ y ∈ xs, k ≤ f y := fun y hy => by
        have := hx y hy
        omega
      have hnone : xs.filter (f · < k) = [] := List.filter_eq_nil_iff.mpr fun y hy => by
        have := hrest y hy
        simp
        omega
      have hall : xs.filter (k ≤ f ·) = xs := List.filter_eq_self.mpr fun y hy => by simpa using hrest y hy
      have hle : k ≤ f x := by omega
      simp only [List.filter_cons, hk, hle, decide_true, decide_false, if_true, Bool.false_eq_true, if_false, hnone, hall,
        List.nil_append]

theorem foldl_removeFile (gone : List Nat) (dir : LogDir) :
    gone.foldl LogDir.removeFile dir = { dir with segs := dir.segs.filter (·.1 ∉ gone) } := by
  induction gone generalizing dir with
  | nil => simp
  | cons start gone ih =>
    rw [List.foldl_cons, ih]
    simp only [LogDir.removeFile, List.filter_filter, List.mem_cons, not_or]
    congr 1
    refine List.filter_congr fun p _ => ?_
    rw [Bool.and_comm, ← Bool.decide_and]

theorem foldl_removeSegments (gone : List (Segment π)) (dir : LogDir) :
    (gone.map (·.meta)).foldl (fun dir seg => dir.removeFile seg.start) dir = (gone.map (·.start)).foldl LogDir.removeFile dir := by
  rw [List.foldl_map, List.foldl_map]
  rfl

/-- The files of some segments, without those of others. -/
theorem removeFiles {dir : LogDir} {segs : List (Segment π)} (hdir : dir.segs = segs.map (·.file z c)) {gone : List Nat}
    (keep : Segment π → Bool) (h : ∀ seg ∈ segs, keep seg = true ↔ seg.start ∉ gone) :
    gone.foldl LogDir.removeFile dir = { dir with segs := (segs.filter keep).map (·.file z c) } := by
  rw [foldl_removeFile, hdir, List.filter_map]
  congr 2
  refine List.filter_congr fun seg hseg => ?_
  rw [Bool.eq_iff_iff, h seg hseg]
  simp [Segment.file]

theorem live_filter_below (base : Nat) {since : Nat} {init : List (Segment π)} (seg : Segment π) {gone : List (Segment π)}
    (hinit : ∀ p ∈ init, ∀ w ∈ p.written, w.entry.index < since)
    (hgone : ∀ p ∈ gone, ∀ w ∈ p.written, since ≤ w.entry.index) :
    (live z c base (init ++ seg :: gone)).filter (·.2.index < since) =
      live z c base init ++ (live z c base [seg]).filter (·.2.index < since) := by
  have hsplit : init ++ seg :: gone = init ++ ([seg] ++ gone) := rfl
  rw [hsplit, live_append, live_append, List.filter_append, List.filter_append]
  have hkeep : (live z c base init).filter (·.2.index < since) = live z c base init := by
    refine List.filter_eq_self.mpr fun p hp => ?_
    obtain ⟨seg', hseg', pre, w, post, hwritten, rfl⟩ := mem_places (List.mem_filter.mp hp).1
    exact decide_eq_true (hinit seg' hseg' w (by simp [hwritten]))
  have hdrop : (live z c base gone).filter (·.2.index < since) = [] := by
    refine List.filter_eq_nil_iff.mpr fun p hp => ?_
    obtain ⟨seg', hseg', pre, w, post, hwritten, rfl⟩ := mem_places (List.mem_filter.mp hp).1
    have hle : since ≤ w.entry.index := hgone seg' hseg' w (by simp [hwritten])
    exact fun hlt => absurd (of_decide_eq_true hlt) (Nat.not_lt.mpr hle)
  rw [hkeep, hdrop, List.append_nil]

/-- What is below an index is a prefix of what was written. -/
theorem live_filter_segment {base since : Nat} {seg : Segment π}
    (h : seg.written.Pairwise fun v w => v.entry.index < w.entry.index) :
    (live z c base [seg]).filter (·.2.index < since) =
      live z c base [⟨seg.start, seg.written.filter (·.entry.index < since)⟩] := by
  have hsplit := split_at (f := fun w : Written π => w.entry.index) h since
  have hplaces : places z c [seg] = places z c [⟨seg.start, seg.written.filter (·.entry.index < since)⟩] ++
      (spans z c (0 + (bytesOf z c (seg.written.filter (·.entry.index < since))).length)
        (seg.written.filter (since ≤ ·.entry.index))).map (seg.start, ·) := by
    simp only [places, List.flatMap_cons, List.flatMap_nil, List.append_nil, Segment.places, ← List.map_append, ← spans_append]
    rw [hsplit]
  have hkeep : (places z c [⟨seg.start, seg.written.filter (·.entry.index < since)⟩]).filter (·.2.index < since) =
      places z c [⟨seg.start, seg.written.filter (·.entry.index < since)⟩] := by
    refine List.filter_eq_self.mpr fun p hp => ?_
    obtain ⟨seg', hseg', pre, w, post, hwritten, rfl⟩ := mem_places hp
    obtain rfl := List.mem_singleton.mp hseg'
    have hw : w ∈ seg.written.filter (·.entry.index < since) := by
      rw [show seg.written.filter (·.entry.index < since) = pre ++ w :: post from hwritten]
      simp
    exact decide_eq_true (of_decide_eq_true (List.mem_filter.mp hw).2)
  have hdrop : ((spans z c (0 + (bytesOf z c (seg.written.filter (·.entry.index < since))).length)
      (seg.written.filter (since ≤ ·.entry.index))).map (seg.start, ·)).filter (·.2.index < since) = [] := by
    refine List.filter_eq_nil_iff.mpr fun p hp hlt => ?_
    obtain ⟨x, hx, rfl⟩ := List.mem_map.mp hp
    obtain ⟨pre, w, post, hwritten, rfl⟩ := mem_spans hx
    have hw : w ∈ seg.written.filter (since ≤ ·.entry.index) := by simp [hwritten]
    have hle : since ≤ w.entry.index := of_decide_eq_true (List.mem_filter.mp hw).2
    exact absurd (of_decide_eq_true hlt) (Nat.not_lt.mpr hle)
  rw [live, List.filter_filter]
  simp only [Bool.and_comm]
  rw [← List.filter_filter, hplaces, List.filter_append, hkeep, hdrop, List.append_nil]
  rfl

/-- The last of the live records of a segment ends where the segment does. -/
theorem live_segment_cases (base : Nat) (seg : Segment π)
    (h : seg.written.Pairwise fun v w => v.entry.index < w.entry.index) :
    (live z c base [seg] = [] ∧ ∀ w ∈ seg.written, w.entry.index < base) ∨
      ∃ p, (live z c base [seg]).getLast? = some p ∧ p.2.offset + p.2.len = (bytesOf z c seg.written).length ∧
        seg.written.getLast?.map (·.entry.index) = some p.2.index := by
  obtain ⟨start, written⟩ := seg
  rcases List.eq_nil_or_concat written with rfl | ⟨before, w, rfl⟩
  · exact .inl ⟨rfl, fun w hw => absurd hw List.not_mem_nil⟩
  · rw [List.concat_eq_append] at h ⊢
    by_cases hbase : base ≤ w.entry.index
    · have hlive := live_extend (z := z) (c := c) [] ⟨start, before⟩ hbase
      simp only [List.nil_append] at hlive
      refine .inr ⟨(start, w.scanned z c (bytesOf z c before).length), ?_, ?_, ?_⟩
      · rw [hlive, List.getLast?_append]
        rfl
      · simp [Written.scanned]
      · simp [Written.scanned]
    · have hall : ∀ v ∈ before ++ [w], v.entry.index < base := by
        intro v hv
        rcases List.mem_append.mp hv with hv | hv
        · have := (List.pairwise_append.mp h).2.2 v hv w List.mem_cons_self
          omega
        · obtain rfl := List.mem_singleton.mp hv
          omega
      refine .inl ⟨?_, hall⟩
      refine List.filter_eq_nil_iff.mpr fun p hp hle => ?_
      obtain ⟨seg', hseg', pre, v, post, hwritten, rfl⟩ := mem_places hp
      obtain rfl := List.mem_singleton.mp hseg'
      have hlt : v.entry.index < base := hall v (by rw [show before ++ [w] = _ from hwritten]; simp)
      exact absurd (of_decide_eq_true hle) (Nat.not_le.mpr hlt)

theorem Indexed.below {log : BTreeMap (Stored π)} {ps : List (Nat × ScannedEntry π)} (h : List.Forall₂ Indexed log ps)
    (since : Nat) : List.Forall₂ Indexed (log.below since) (ps.filter (·.2.index < since)) :=
  List.rel_filter (fun p q hpq => by simp [hpq.1]) h

theorem Same.below {m : MemLogStore π} {s : RaftLogStore π} {segs segs' : List (Segment π)} (h : Same z c m s segs)
    {since : Nat} (hlive : live z c (baseOf s.inner.lastPurged) segs' =
      (live z c (baseOf s.inner.lastPurged) segs).filter (·.2.index < since)) :
    m.log.below since = (live z c (baseOf s.inner.lastPurged) segs').map fun p => (p.2.index, p.2.entry) := by
  rw [hlive, h.log, BTreeMap.below, List.filter_map]
  rfl

/-- What reaches a segment stands before it. -/
theorem Reached.before {base : Nat} {pre post : List (Segment π)} {seg : Segment π} (h : Reached base (pre ++ seg :: post))
    (hordered : Ordered (pre ++ seg :: post)) :
    seg.start ≤ base ∨ ∃ p ∈ pre, ∃ w ∈ p.written, w.entry.index + 1 = seg.start := by
  refine (h seg (by simp)).imp_right ?_
  rintro ⟨p, hp, w, hw, heq⟩
  have hlt : p.start < seg.start := by
    have := hordered.start_le p hp w hw
    omega
  rcases List.mem_append.mp hp with hpre | hpost
  · exact ⟨p, hpre, w, hw, heq⟩
  · rcases List.mem_cons.mp hpost with rfl | hpost
    · exact absurd hlt (Nat.lt_irrefl _)
    · have hafter := (List.pairwise_cons.mp (List.pairwise_append.mp hordered.apart).2.1).1 p hpost
      exact absurd hlt (Nat.lt_asymm hafter.1)

/-- The segments up to one that loses records. -/
theorem Reached.cut {base : Nat} {init gone : List (Segment π)} {a : Segment π} (h : Reached base (init ++ a :: gone))
    (hordered : Ordered (init ++ a :: gone)) (ws : List (Written π)) : Reached base (init ++ [⟨a.start, ws⟩]) := by
  have hmore : ∀ {pre post : List (Segment π)} {start : Nat}, init = pre ++ post →
      (∃ p ∈ pre, ∃ w ∈ p.written, w.entry.index + 1 = start) →
      ∃ p ∈ init ++ [⟨a.start, ws⟩], ∃ w ∈ p.written, w.entry.index + 1 = start := by
    rintro pre post start rfl ⟨p, hp, w, hw, heq⟩
    exact ⟨p, by simp [hp], w, hw, heq⟩
  refine mem_append_singleton.mpr ⟨fun seg hseg => ?_, ?_⟩
  · obtain ⟨pre, post, rfl⟩ := List.append_of_mem hseg
    rw [List.append_assoc, List.cons_append] at h hordered
    exact (h.before hordered).imp_right (hmore rfl)
  · exact (h.before hordered).imp_right (hmore (List.append_nil _).symm)

theorem Ordered.cut {init gone : List (Segment π)} {a : Segment π} (h : Ordered (init ++ a :: gone)) {ws : List (Written π)}
    (hws : List.Sublist ws a.written) : Ordered (init ++ [⟨a.start, ws⟩]) := by
  obtain ⟨hinit, -, hlast⟩ := List.pairwise_append.mp h.apart
  constructor
  · refine List.pairwise_append.mpr ⟨hinit, List.pairwise_singleton _ _, fun seg hseg b hb => ?_⟩
    obtain rfl := List.mem_singleton.mp hb
    exact hlast seg hseg a List.mem_cons_self
  · exact mem_append_singleton.mpr
      ⟨fun seg hseg => h.within seg (List.mem_append_left _ hseg), (h.within a (by simp)).sublist hws⟩
  · exact mem_append_singleton.mpr
      ⟨fun seg hseg => h.start_le seg (List.mem_append_left _ hseg), fun w hw => h.start_le a (by simp) w (hws.subset hw)⟩

/-- The entries of the index in the last segment that stays. -/
theorem survivors_spec (base : Nat) {since : Nat} {init gone : List (Segment π)} {a : Segment π} (h : Ordered (init ++ a :: gone))
    (ha : a.start < since) (hgone : ∀ p ∈ gone, since ≤ p.start) :
    (live z c base (init ++ a :: gone)).filter (·.2.index < since) =
        live z c base init ++ live z c base [⟨a.start, a.written.filter (·.entry.index < since)⟩] ∧
      ((live z c base (init ++ a :: gone)).filter (·.2.index < since)).filter (a.start ≤ ·.2.index) =
        live z c base [⟨a.start, a.written.filter (·.entry.index < since)⟩] := by
  obtain ⟨-, -, hlast⟩ := List.pairwise_append.mp h.apart
  have hcut := live_filter_below (z := z) (c := c) base a
    (fun p hp w hw => Nat.lt_trans ((hlast p hp a List.mem_cons_self).2 w hw) ha)
    (fun p hp w hw => Nat.le_trans (hgone p hp) (h.start_le p (by simp [hp]) w hw))
  rw [live_filter_segment (h.within a (by simp))] at hcut
  refine ⟨hcut, ?_⟩
  rw [hcut, List.filter_append]
  have hbefore : (live z c base init).filter (a.start ≤ ·.2.index) = [] := by
    refine List.filter_eq_nil_iff.mpr fun p hp hle => ?_
    obtain ⟨seg, hseg, pre, w, post, hwritten, rfl⟩ := mem_places (List.mem_filter.mp hp).1
    have hlt : w.entry.index < a.start := (hlast seg hseg a List.mem_cons_self).2 w (by simp [hwritten])
    exact absurd (of_decide_eq_true hle) (Nat.not_le.mpr hlt)
  have hlast' : (live z c base [⟨a.start, a.written.filter (·.entry.index < since)⟩]).filter (a.start ≤ ·.2.index) =
      live z c base [⟨a.start, a.written.filter (·.entry.index < since)⟩] := by
    refine List.filter_eq_self.mpr fun p hp => ?_
    obtain ⟨seg, hseg, pre, w, post, hwritten, rfl⟩ := mem_places (List.mem_filter.mp hp).1
    obtain rfl := List.mem_singleton.mp hseg
    have hw : w ∈ a.written.filter (·.entry.index < since) := by
      rw [show a.written.filter (·.entry.index < since) = pre ++ w :: post from hwritten]
      simp
    exact decide_eq_true (h.start_le a (by simp) w (List.mem_filter.mp hw).1)
  rw [hbefore, hlast', List.nil_append]

/-- The file is cut behind the last entry of the index. -/
theorem cut_spec {base start : Nat} {ws : List (Written π)} (gone : List (Written π)) (h : ws.Pairwise fun v w => v.entry.index < w.entry.index)
    {survivors : BTreeMap (Stored π)} (hsurvivors : List.Forall₂ Indexed survivors (live z c base [⟨start, ws⟩])) :
    ∃ ws', List.Sublist ws' ws ∧ live z c base [⟨start, ws'⟩] = live z c base [⟨start, ws⟩] ∧
      min ((survivors.getLast?.map fun p => p.2.offset + p.2.len).getD 0) (bytesOf z c (ws ++ gone)).length =
        (bytesOf z c ws').length ∧
      (bytesOf z c (ws ++ gone)).take (bytesOf z c ws').length = bytesOf z c ws' ∧
      survivors.getLast?.map (·.1) = ws'.getLast?.map (·.entry.index) := by
  rcases live_segment_cases (z := z) (c := c) base ⟨start, ws⟩ h with ⟨hlive, -⟩ | ⟨place, hlast, hend, hindex⟩
  · rw [hlive] at hsurvivors
    cases hsurvivors
    exact ⟨[], List.nil_sublist _, hlive.symm ▸ rfl, by simp, by simp, rfl⟩
  · obtain ⟨p, hp, hplace⟩ := exists_last hsurvivors hlast
    have hoffset : p.2.offset + p.2.len = (bytesOf z c ws).length := by rw [hplace.2.offset, hplace.2.len, hend]
    refine ⟨ws, List.Sublist.refl _, rfl, ?_, ?_, ?_⟩
    · simp [hp, hoffset]
    · simp
    · rw [hp, hindex, ← hplace.1]
      rfl

/-- The segments below the cut, of which the last one loses what is not below it. -/
theorem truncate_spec {m : MemLogStore π} {s : RaftLogStore π} {init : List (Segment π)} {act : Segment π}
    (h : Holds z c s init act) (hsame : Same z c m s (init ++ [act])) (logId : LogId) :
    ∃ init' act', Holds z c (s.truncate logId) init' act' ∧ Same z c (m.truncate logId) (s.truncate logId) (init' ++ [act']) := by
  let since := logId.index
  let base := baseOf s.inner.lastPurged
  let gone := (init ++ [act]).filter (since ≤ ·.start)
  have hsplit : (init ++ [act]).filter (·.start < since) ++ gone = init ++ [act] :=
    split_at (h.ordered.apart.imp fun hab => hab.1) since
  have hkept : s.inner.segments.filter (·.start < since) = ((init ++ [act]).filter (·.start < since)).map (·.meta) := by
    rw [h.segments, List.filter_map]
    rfl
  have hgone : s.inner.segments.filter (since ≤ ·.start) = gone.map (·.meta) := by
    rw [h.segments, List.filter_map]
    rfl
  have hremoved : (gone.map (·.meta)).foldl (fun dir seg => dir.removeFile seg.start) s.dir =
      { s.dir with segs := ((init ++ [act]).filter (·.start < since)).map (·.file z c) } := by
    rw [foldl_removeSegments, removeFiles h.files (·.start < since)]
    intro seg hseg
    rw [decide_eq_true_iff, List.mem_map]
    constructor
    · rintro hlt ⟨other, hother, heq⟩
      have hle : since ≤ other.start := of_decide_eq_true (List.mem_filter.mp hother).2
      have hstart : other.start = seg.start := heq
      omega
    · intro hnone
      refine Nat.lt_of_not_le fun hle => hnone ⟨seg, ?_, rfl⟩
      exact List.mem_filter.mpr ⟨hseg, decide_eq_true hle⟩
  have hindex := Indexed.below h.index since
  rcases List.eq_nil_or_concat ((init ++ [act]).filter (·.start < since)) with hnil | ⟨init', a, hconcat⟩
  · -- nothing is kept
    rw [hnil] at hsplit hremoved hkept
    have hall : ∀ seg ∈ init ++ [act], since ≤ seg.start := fun seg hseg => by
      rw [← hsplit] at hseg
      exact of_decide_eq_true (List.mem_filter.mp hseg).2
    have hlive : (live z c base (init ++ [act])).filter (·.2.index < since) = [] := by
      refine List.filter_eq_nil_iff.mpr fun p hp hlt => ?_
      obtain ⟨seg, hseg, pre, w, post, hwritten, rfl⟩ := mem_places (List.mem_filter.mp hp).1
      have hle := h.ordered.start_le seg hseg w (by simp [hwritten])
      have hlt : w.entry.index < since := of_decide_eq_true hlt
      have := hall seg hseg
      omega
    have hbase : since ≤ base := by
      cases hsegs : init ++ [act] with
      | nil => simp at hsegs
      | cons seg rest =>
        have hreached := h.reached
        have hordered := h.ordered
        rw [hsegs] at hreached hordered
        change Reached base ([] ++ seg :: rest) at hreached
        rcases hreached.before hordered with hle | ⟨p, hp, -⟩
        · exact Nat.le_trans (hall seg (by simp [hsegs])) hle
        · cases hp
    have hstore : s.truncate logId =
        { dir := { s.dir with segs := [(since, [])] }
          inner := { s.inner with
            log := s.inner.log.below since
            ramBytes := s.inner.ramBytes -
              (((s.inner.log.splitOff since).filter (·.2.entry.isSome)).map (·.2.ramLen)).sum
            activeFile := since
            activeBytes := 0
            segments := [⟨since, none⟩] } } := by
      show RaftLogStore.rewriteAfterTruncate _ since = _
      simp only [RaftLogStore.rewriteAfterTruncate, hkept, hgone, hremoved]
      simp [LogDir.createEmpty, LogDir.openAppend, LogDir.replace, since]
    rw [hstore]
    rw [hlive] at hindex
    refine ⟨[], ⟨since, []⟩, ?_, ?_⟩
    · refine ⟨⟨?_, ?_, ?_, ?_, ?_, ?_, ?_, ?_, ?_⟩, ?_⟩
      · rfl
      · rfl
      · rfl
      · rfl
      · exact ⟨List.pairwise_singleton _ _, by simp, by simp⟩
      · exact hindex
      · exact h.lastPurged
      · exact h.committed
      · exact h.vote
      · intro seg hseg
        obtain rfl := List.mem_singleton.mp hseg
        exact .inl hbase
    · constructor
      · exact hsame.below hlive.symm
      · exact hsame.lastPurged
      · exact hsame.committed
      · exact hsame.vote
  · -- the last segment that is kept becomes the active one
    rw [List.concat_eq_append] at hconcat
    rw [hconcat] at hsplit hremoved hkept
    rw [List.append_assoc, List.singleton_append] at hsplit
    have hordered := h.ordered
    have hreached := h.reached
    rw [← hsplit] at hordered hreached hindex
    have ha : a.start < since := by
      have hmem : a ∈ (init ++ [act]).filter (·.start < since) := by simp [hconcat]
      exact of_decide_eq_true (List.mem_filter.mp hmem).2
    obtain ⟨hbelow, hsurvive⟩ := survivors_spec (z := z) (c := c) base hordered ha fun p hp =>
      of_decide_eq_true (List.mem_filter.mp hp).2
    have hsurvivors : List.Forall₂ Indexed ((s.inner.log.below since).filter (a.start ≤ ·.1))
        (live z c base [⟨a.start, a.written.filter (·.entry.index < since)⟩]) := by
      rw [← hsurvive]
      exact List.rel_filter (fun p q hpq => by simp [hpq.1]) hindex
    obtain ⟨ws, hws, hlive, hcut, htake, hlast⟩ := cut_spec (a.written.filter (since ≤ ·.entry.index))
      ((hordered.within a (by simp)).filter _) hsurvivors
    rw [split_at (f := fun w : Written π => w.entry.index) (hordered.within a (by simp)) since] at hcut htake
    have hkeep : Ordered (init' ++ [a]) := hordered.cut (List.Sublist.refl _)
    have hstore : s.truncate logId =
        { dir := { s.dir with segs := (init' ++ [(⟨a.start, ws⟩ : Segment π)]).map (·.file z c) }
          inner := { s.inner with
            log := s.inner.log.below since
            ramBytes := s.inner.ramBytes -
              (((s.inner.log.splitOff since).filter (·.2.entry.isSome)).map (·.2.ramLen)).sum
            activeFile := a.start
            activeBytes := (bytesOf z c ws).length
            segments := (init' ++ [(⟨a.start, ws⟩ : Segment π)]).map (·.meta) } } := by
      show RaftLogStore.rewriteAfterTruncate _ since = _
      have hactive : ((init' ++ [a]).map (·.meta)).getLast? = some a.meta := by simp
      have hstart : a.meta.start = a.start := rfl
      simp only [RaftLogStore.rewriteAfterTruncate, hkept, hgone, hremoved, hactive, hstart]
      rw [LogDir.file, hkeep.lookup_file (by simp), Option.getD_some, hcut, htake, hkeep.replace_last rfl, hlast]
      simp [Segment.meta, since]
    rw [hstore]
    refine ⟨init', ⟨a.start, ws⟩, ?_, ?_⟩
    · refine ⟨⟨?_, ?_, ?_, ?_, ?_, ?_, ?_, ?_, ?_⟩, ?_⟩
      · rfl
      · rfl
      · rfl
      · rfl
      · exact hordered.cut (hws.trans List.filter_sublist)
      · show List.Forall₂ Indexed (s.inner.log.below since) (live z c base _)
        rw [live_append, hlive, ← hbelow]
        exact hindex
      · exact h.lastPurged
      · exact h.committed
      · exact h.vote
      · exact hreached.cut hordered ws
    · constructor
      · refine hsame.below ?_
        rw [← hsplit, hbelow, live_append, hlive]
      · exact hsame.lastPurged
      · exact hsame.committed
      · exact hsame.vote

/-! ## Purging and the markers -/

theorem Ordered.sublist {segs others : List (Segment π)} (h : Ordered segs) (hsub : List.Sublist others segs) :
    Ordered others where
  apart := h.apart.sublist hsub
  within seg hseg := h.within seg (hsub.subset hseg)
  start_le seg hseg := h.start_le seg (hsub.subset hseg)

theorem live_live {base base' : Nat} (hle : base ≤ base') (segs : List (Segment π)) :
    (live z c base segs).filter (base' ≤ ·.2.index) = live z c base' segs := by
  rw [live, List.filter_filter, live]
  refine List.filter_congr fun p _ => ?_
  rw [Bool.eq_iff_iff, Bool.and_eq_true, decide_eq_true_iff, decide_eq_true_iff]
  omega

/-- Nothing of a purged segment is live. -/
theorem Ordered.fullyPurged {segs : List (Segment π)} (h : Ordered segs) {seg : Segment π} (hseg : seg ∈ segs) {upto : Nat}
    (hpurged : RaftLogStore.fullyPurged upto seg.meta = true) : ∀ w ∈ seg.written, w.entry.index ≤ upto := by
  intro w hw
  cases hlast : seg.written.getLast? with
  | none => simp [RaftLogStore.fullyPurged, Segment.meta, hlast] at hpurged
  | some v =>
    obtain ⟨before, hbefore⟩ := List.getLast?_eq_some_iff.mp hlast
    have hv : v.entry.index ≤ upto := by simpa [RaftLogStore.fullyPurged, Segment.meta, hlast] using hpurged
    have hsorted := h.within seg hseg
    rw [hbefore] at hw hsorted
    rcases List.mem_append.mp hw with hw | hw
    · have hlt := (List.pairwise_append.mp hsorted).2.2 w hw v List.mem_cons_self
      omega
    · obtain rfl := List.mem_singleton.mp hw
      exact hv

theorem live_filter_purged {segs : List (Segment π)} (h : Ordered segs) (upto : Nat) :
    live z c (upto + 1) (segs.filter (!RaftLogStore.fullyPurged upto ·.meta)) = live z c (upto + 1) segs := by
  induction segs with
  | nil => rfl
  | cons seg segs ih =>
    have hrest := ih (h.sublist (List.sublist_cons_self _ _))
    have hcons : live z c (upto + 1) (seg :: segs) = live z c (upto + 1) [seg] ++ live z c (upto + 1) segs :=
      live_append (upto + 1) [seg] segs
    rw [hcons, List.filter_cons]
    split
    · rw [← hrest]
      exact live_append (upto + 1) [seg] _
    · next hpurged =>
      have hnone : live z c (upto + 1) [seg] = [] := by
        refine List.filter_eq_nil_iff.mpr fun p hp hle => ?_
        obtain ⟨seg', hseg', pre, w, post, hwritten, rfl⟩ := mem_places hp
        obtain rfl := List.mem_singleton.mp hseg'
        have hw := h.fullyPurged List.mem_cons_self (by simpa using hpurged) w (by simp [hwritten])
        exact absurd (of_decide_eq_true hle) (Nat.not_le.mpr (Nat.lt_succ_of_le hw))
      rw [hnone, List.nil_append, hrest]

theorem Reached.purged {base upto : Nat} {init : List (Segment π)} {act : Segment π} (h : Reached base (init ++ [act]))
    (hordered : Ordered (init ++ [act])) (hbase : base ≤ upto + 1) :
    Reached (upto + 1) (init.filter (!RaftLogStore.fullyPurged upto ·.meta) ++ [act]) := by
  have hmore : ∀ seg ∈ init ++ [act], seg.start ≤ upto + 1 ∨
      ∃ p ∈ init.filter (!RaftLogStore.fullyPurged upto ·.meta) ++ [act], ∃ w ∈ p.written, w.entry.index + 1 = seg.start := by
    intro seg hseg
    rcases h seg hseg with hle | ⟨p, hp, w, hw, heq⟩
    · exact .inl (Nat.le_trans hle hbase)
    · by_cases hpurged : RaftLogStore.fullyPurged upto p.meta = true
      · have hle := hordered.fullyPurged hp hpurged w hw
        exact .inl (by omega)
      · refine .inr ⟨p, ?_, w, hw, heq⟩
        rcases List.mem_append.mp hp with hp | hp
        · exact List.mem_append_left _ (List.mem_filter.mpr ⟨hp, by simpa using hpurged⟩)
        · exact List.mem_append_right _ hp
  intro seg hseg
  refine hmore seg ?_
  rcases List.mem_append.mp hseg with hseg | hseg
  · exact List.mem_append_left _ (List.mem_filter.mp hseg).1
  · exact List.mem_append_right _ hseg

/-- Some of the first segments go. -/
theorem Ordered.remove_first {pre post : List (Segment π)} (h : Ordered (pre ++ post)) {dir : LogDir}
    (hdir : dir.segs = (pre ++ post).map (·.file z c)) (gone : Segment π → Bool) :
    ((pre.filter gone).map (·.start)).foldl LogDir.removeFile dir =
      { dir with segs := (pre.filter (!gone ·) ++ post).map (·.file z c) } := by
  rw [removeFiles hdir (fun seg => seg.start ∉ (pre.filter gone).map (·.start)) (by simp)]
  rw [List.filter_append]
  congr 3
  · refine List.filter_congr fun seg hseg => ?_
    rw [Bool.eq_iff_iff, decide_eq_true_iff, List.mem_map, Bool.not_eq_true']
    constructor
    · intro hnone
      refine Bool.eq_false_iff.mpr fun hgone => ?_
      exact hnone ⟨seg, List.mem_filter.mpr ⟨hseg, hgone⟩, rfl⟩
    · rintro hstay ⟨other, hother, heq⟩
      obtain ⟨hmem, hgone⟩ := List.mem_filter.mp hother
      obtain rfl := h.start_inj (List.mem_append_left _ hmem) (List.mem_append_left _ hseg) heq
      rw [hgone] at hstay
      cases hstay
  · refine List.filter_eq_self.mpr fun seg hseg => decide_eq_true fun hmem => ?_
    obtain ⟨other, hother, heq⟩ := List.mem_map.mp hmem
    have hlt := ((List.pairwise_append.mp h.apart).2.2 other (List.mem_filter.mp hother).1 seg hseg).1
    omega

/-- The sealed segments that are purged as a whole go, the active one stays. -/
theorem purge_spec {m : MemLogStore π} {s : RaftLogStore π} {init : List (Segment π)} {act : Segment π}
    (h : Holds z c s init act) (hsame : Same z c m s (init ++ [act])) {logId : LogId}
    (hbase : baseOf s.inner.lastPurged ≤ logId.index + 1) :
    ∃ init', Holds z c (s.purge logId) init' act ∧ Same z c (m.purge logId) (s.purge logId) (init' ++ [act]) := by
  let init' := init.filter (!RaftLogStore.fullyPurged logId.index ·.meta)
  have hsealed : s.inner.segments.dropLast = init.map (·.meta) := by simp [h.segments]
  have hactive : s.inner.segments.getLast?.toList = [act.meta] := by simp [h.segments]
  have hstay : (init.map (·.meta)).filter (!RaftLogStore.fullyPurged logId.index ·) = init'.map (·.meta) := by
    rw [List.filter_map]
    rfl
  have hremoved : ((init.map (·.meta)).filter (RaftLogStore.fullyPurged logId.index)).foldl
      (fun dir seg => dir.removeFile seg.start) s.dir = { s.dir with segs := (init' ++ [act]).map (·.file z c) } := by
    rw [List.filter_map]
    refine (foldl_removeSegments _ s.dir).trans ?_
    exact h.ordered.remove_first h.files (RaftLogStore.fullyPurged logId.index ·.meta)
  have hstore : s.purge logId =
      { dir := { s.dir with
          segs := (init' ++ [act]).map (·.file z c)
          lastPurged := some logId
          committed := s.inner.committed }
        inner := { s.inner with
          lastPurged := some logId
          log := s.inner.log.splitOff (logId.index + 1)
          ramBytes := s.inner.ramBytes -
            (((s.inner.log.below (logId.index + 1)).filter (·.2.entry.isSome)).map (·.2.ramLen)).sum
          segments := (init' ++ [act]).map (·.meta)
          stateDirty := false } } := by
    simp only [RaftLogStore.purge, RaftLogStore.persistState, hsealed, hactive, hremoved, List.map_append, List.map_cons, List.map_nil]
    rw [hstay]
  have hsub : List.Sublist (init' ++ [act]) (init ++ [act]) := List.filter_sublist.append (List.Sublist.refl _)
  have hlive : live z c (logId.index + 1) (init' ++ [act]) =
      (live z c (baseOf s.inner.lastPurged) (init ++ [act])).filter (logId.index + 1 ≤ ·.2.index) := by
    rw [live_live hbase, live_append, live_append,
      live_filter_purged (h.ordered.sublist (List.sublist_append_left _ _))]
  rw [hstore]
  refine ⟨init', ?_, ?_⟩
  · refine ⟨⟨?_, ?_, ?_, ?_, ?_, ?_, ?_, ?_, ?_⟩, ?_⟩
    · rfl
    · rfl
    · exact h.activeFile
    · exact h.activeBytes
    · exact h.ordered.sublist hsub
    · show List.Forall₂ Indexed (s.inner.log.splitOff (logId.index + 1)) (live z c (logId.index + 1) (init' ++ [act]))
      rw [hlive]
      exact List.rel_filter (fun p q hpq => by simp [hpq.1]) h.index
    · rfl
    · exact fun _ => rfl
    · exact h.vote
    · exact h.reached.purged h.ordered hbase
  · constructor
    · show m.log.splitOff (logId.index + 1) = (live z c (logId.index + 1) (init' ++ [act])).map _
      rw [hlive, hsame.log, BTreeMap.splitOff, List.filter_map]
      rfl
    · rfl
    · exact hsame.committed
    · exact hsame.vote

end NanoBpm.Raft.LogStore
