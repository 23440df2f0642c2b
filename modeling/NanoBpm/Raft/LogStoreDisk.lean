import Mathlib.Data.List.Forall2
import NanoBpm.Raft.LogStoreScan

/-!
# What a Raft log store has on disk (`raft_logstore.rs:484-594`, `:1035-1145`)

The segment files hold what was written, in the order of the indices, and the index of the durable store is what of it is not
purged. The in-memory store holds the entries of the index. Then every range reads the same in both stores, whichever entries
the budget has demoted.
-/

namespace NanoBpm.Raft.LogStore

open Seglog (Bytes Deflate)

variable {π : Type} {z : Deflate} {c : EntryCodec π}

namespace BTreeMap

variable {α : Type}

theorem insert_of_lt {m : BTreeMap α} {k : Nat} {v : α} (h : ∀ p ∈ m, p.1 < k) : m.insert k v = m ++ [(k, v)] := by
  induction m with
  | nil => rfl
  | cons p m ih =>
    obtain ⟨k', v'⟩ := p
    have hk : k' < k := h (k', v') List.mem_cons_self
    simp only [insert, if_neg (Nat.lt_asymm hk), if_neg (Nat.ne_of_gt hk), List.cons_append]
    rw [ih fun p hp => h p (List.mem_cons_of_mem _ hp)]

end BTreeMap

/-! ## What is on disk -/

/-- A segment, with what was written to it. -/
structure Segment (π : Type) where
  start : Nat
  written : List (Written π)

namespace Segment

variable (z c) (seg : Segment π)

def file : Nat × Bytes := (seg.start, bytesOf z c seg.written)

def «meta» : SegMeta := ⟨seg.start, seg.written.getLast?.map (·.entry.index)⟩

/-- The records of the segment, with its start. -/
def places : List (Nat × ScannedEntry π) := (spans z c 0 seg.written).map (seg.start, ·)

end Segment

variable (z c) in
def places (segs : List (Segment π)) : List (Nat × ScannedEntry π) := segs.flatMap (·.places z c)

variable (z c) in
/-- The records from an index on. -/
def live (base : Nat) (segs : List (Segment π)) : List (Nat × ScannedEntry π) :=
  (places z c segs).filter (base ≤ ·.2.index)

/-- The first index that is not purged. -/
def baseOf (lastPurged : Option LogId) : Nat := (lastPurged.map (·.index + 1)).getD 0

/-- The segments are in order, and so is what is in them. -/
structure Ordered (segs : List (Segment π)) : Prop where
  apart : segs.Pairwise fun a b => a.start < b.start ∧ ∀ w ∈ a.written, w.entry.index < b.start
  within : ∀ seg ∈ segs, seg.written.Pairwise fun v w => v.entry.index < w.entry.index
  start_le : ∀ seg ∈ segs, ∀ w ∈ seg.written, seg.start ≤ w.entry.index

/-- A segment starts where nothing is missing: at a purged index, or behind a record that is there. -/
def Reached (base : Nat) (segs : List (Segment π)) : Prop :=
  ∀ seg ∈ segs, seg.start ≤ base ∨ ∃ p ∈ segs, ∃ w ∈ p.written, w.entry.index + 1 = seg.start

/-- The index has a record, and its copy if it has one. -/
structure Stored.At (stored : Stored π) (place : Nat × ScannedEntry π) : Prop where
  logId : stored.logId = place.2.logId
  len : stored.len = place.2.len
  segStart : stored.segStart = place.1
  offset : stored.offset = place.2.offset
  entry : stored.entry = none ∨ stored.entry = some place.2.entry

def Indexed (p : Nat × Stored π) (place : Nat × ScannedEntry π) : Prop := p.1 = place.2.index ∧ p.2.At place

variable (z c) in
/-- The store has these segments, of which the last one is appended to. -/
structure Stands (s : RaftLogStore π) (init : List (Segment π)) (act : Segment π) : Prop where
  files : s.dir.segs = (init ++ [act]).map (·.file z c)
  segments : s.inner.segments = (init ++ [act]).map (·.meta)
  activeFile : s.inner.activeFile = act.start
  activeBytes : s.inner.activeBytes = (bytesOf z c act.written).length
  ordered : Ordered (init ++ [act])
  index : List.Forall₂ Indexed s.inner.log (live z c (baseOf s.inner.lastPurged) (init ++ [act]))
  lastPurged : s.dir.lastPurged = s.inner.lastPurged
  committed : s.inner.stateDirty = false → s.dir.committed = s.inner.committed
  vote : s.dir.vote = s.inner.vote

variable (z c) in
/-- And nothing is missing. -/
structure Holds (s : RaftLogStore π) (init : List (Segment π)) (act : Segment π) : Prop extends Stands z c s init act where
  reached : Reached (baseOf s.inner.lastPurged) (init ++ [act])

variable (z c) in
/-- The in-memory store has what the index has. -/
structure Same (m : MemLogStore π) (s : RaftLogStore π) (segs : List (Segment π)) : Prop where
  log : m.log = (live z c (baseOf s.inner.lastPurged) segs).map fun p => (p.2.index, p.2.entry)
  lastPurged : m.lastPurged = s.inner.lastPurged
  committed : m.committed = s.inner.committed
  vote : m.vote = s.inner.vote

/-! ## Places -/

theorem mem_spans {i : Nat} {ws : List (Written π)} {x : ScannedEntry π} (h : x ∈ spans z c i ws) :
    ∃ pre w post, ws = pre ++ w :: post ∧ x = w.scanned z c (i + (bytesOf z c pre).length) := by
  induction ws generalizing i with
  | nil => cases h
  | cons w ws ih =>
    rcases List.mem_cons.mp h with rfl | h
    · exact ⟨[], w, ws, rfl, rfl⟩
    · obtain ⟨pre, v, post, rfl, rfl⟩ := ih h
      exact ⟨w :: pre, v, post, rfl, by simp [Nat.add_assoc]⟩

theorem pairwise_spans {i : Nat} {ws : List (Written π)} (h : ws.Pairwise fun v w => v.entry.index < w.entry.index) :
    (spans z c i ws).Pairwise fun x y => x.index < y.index := by
  induction ws generalizing i with
  | nil => exact .nil
  | cons w ws ih =>
    obtain ⟨hw, hws⟩ := List.pairwise_cons.mp h
    refine List.pairwise_cons.mpr ⟨fun x hx => ?_, ih hws⟩
    obtain ⟨pre, v, post, rfl, rfl⟩ := mem_spans hx
    exact hw v (by simp)

theorem mem_places {segs : List (Segment π)} {place : Nat × ScannedEntry π} (h : place ∈ places z c segs) :
    ∃ seg ∈ segs, ∃ pre w post, seg.written = pre ++ w :: post ∧
      place = (seg.start, w.scanned z c (bytesOf z c pre).length) := by
  obtain ⟨seg, hseg, hplace⟩ := List.mem_flatMap.mp h
  obtain ⟨x, hx, rfl⟩ := List.mem_map.mp hplace
  obtain ⟨pre, w, post, hwritten, rfl⟩ := mem_spans hx
  exact ⟨seg, hseg, pre, w, post, hwritten, by simp⟩

/-- All records are in the order of their indices. -/
theorem Ordered.pairwise_places {segs : List (Segment π)} (h : Ordered segs) :
    (places z c segs).Pairwise fun p q => p.2.index < q.2.index := by
  refine List.pairwise_flatMap.mpr ⟨fun seg hseg => ?_, ?_⟩
  · exact List.pairwise_map.mpr (pairwise_spans (h.within seg hseg))
  · refine h.apart.imp_of_mem fun {a b} ha hb hab p hp q hq => ?_
    obtain ⟨x, hx, rfl⟩ := List.mem_map.mp hp
    obtain ⟨y, hy, rfl⟩ := List.mem_map.mp hq
    obtain ⟨pre, v, post, hv, rfl⟩ := mem_spans hx
    obtain ⟨pre', w, post', hw, rfl⟩ := mem_spans hy
    exact Nat.lt_of_lt_of_le (hab.2 v (by simp [hv])) (h.start_le b hb w (by simp [hw]))

theorem exists_place {log : BTreeMap (Stored π)} {ps : List (Nat × ScannedEntry π)} (h : List.Forall₂ Indexed log ps)
    {p : Nat × Stored π} (hp : p ∈ log) : ∃ place ∈ ps, Indexed p place := by
  induction h with
  | nil => cases hp
  | cons hfirst _ ih =>
    rcases List.mem_cons.mp hp with rfl | hp
    · exact ⟨_, List.mem_cons_self, hfirst⟩
    · obtain ⟨place, hplace, heq⟩ := ih hp
      exact ⟨place, List.mem_cons_of_mem _ hplace, heq⟩

theorem exists_last {log : BTreeMap (Stored π)} {ps : List (Nat × ScannedEntry π)} (h : List.Forall₂ Indexed log ps)
    {place : Nat × ScannedEntry π} (hlast : ps.getLast? = some place) : ∃ p, log.getLast? = some p ∧ Indexed p place := by
  induction h with
  | nil => cases hlast
  | cons hfirst hrest ih =>
    cases hrest with
    | nil =>
      obtain rfl := Option.some.inj hlast
      exact ⟨_, rfl, hfirst⟩
    | cons _ _ =>
      rw [List.getLast?_cons_cons] at hlast ⊢
      exact ih hlast

/-! ## Reading -/

theorem Ordered.lookup_file {segs : List (Segment π)} (h : Ordered segs) {seg : Segment π} (hseg : seg ∈ segs) :
    (segs.map (·.file z c)).lookup seg.start = some (bytesOf z c seg.written) := by
  have hapart := h.apart
  clear h
  induction segs with
  | nil => cases hseg
  | cons a segs ih =>
    obtain ⟨ha, hsegs⟩ := List.pairwise_cons.mp hapart
    rw [List.map_cons, Segment.file, List.lookup_cons]
    rcases List.mem_cons.mp hseg with rfl | hseg
    · simp
    · have hne : (seg.start == a.start) = false := by simpa using Nat.ne_of_gt (ha seg hseg).1
      rw [hne]
      exact ih hseg hsegs

/-- A record is read back from where it stands. -/
theorem readEntryAt_place {s : RaftLogStore π} {segs : List (Segment π)} (hfiles : s.dir.segs = segs.map (·.file z c))
    (hordered : Ordered segs) {place : Nat × ScannedEntry π} (hplace : place ∈ places z c segs) :
    s.readEntryAt z c place.1 place.2.offset place.2.len = .ok place.2.entry := by
  obtain ⟨seg, hseg, pre, w, post, hwritten, rfl⟩ := mem_places hplace
  have hfile : s.dir.file seg.start = some (bytesOf z c pre ++ (w.bytes z c ++ bytesOf z c post)) := by
    rw [LogDir.file, hfiles, hordered.lookup_file hseg, hwritten, bytesOf_append, bytesOf_cons]
  have hdrop : (bytesOf z c pre ++ (w.bytes z c ++ bytesOf z c post)).drop (bytesOf z c pre).length =
      w.bytes z c ++ bytesOf z c post := List.drop_left
  have htake : (w.bytes z c ++ bytesOf z c post).take (w.bytes z c).length = w.bytes z c := List.take_left
  unfold RaftLogStore.readEntryAt
  rw [hfile]
  simp only [Written.scanned, hdrop, htake]
  rw [if_neg (by simp only [List.length_append]; omega)]
  exact entryFromRecord_recordOf z c w.compress w.entry

theorem resolve_indexed {s : RaftLogStore π} {segs : List (Segment π)} (hfiles : s.dir.segs = segs.map (·.file z c))
    (hordered : Ordered segs) {stored : Stored π} {place : Nat × ScannedEntry π} (hplace : place ∈ places z c segs)
    (h : stored.At place) : s.resolve z c stored = .ok place.2.entry := by
  unfold RaftLogStore.resolve
  rcases h.entry with hnone | hsome
  · rw [hnone, h.segStart, h.offset, h.len]
    exact readEntryAt_place hfiles hordered hplace
  · rw [hsome]

theorem mapM_resolve {s : RaftLogStore π} {segs : List (Segment π)} (hfiles : s.dir.segs = segs.map (·.file z c))
    (hordered : Ordered segs) {log : BTreeMap (Stored π)} {ps : List (Nat × ScannedEntry π)}
    (h : List.Forall₂ Indexed log ps) (hps : ∀ p ∈ ps, p ∈ places z c segs) :
    (log.map (·.2)).mapM (s.resolve z c) = .ok (ps.map (·.2.entry)) := by
  induction h with
  | nil => rfl
  | cons hp _ ih =>
    rw [List.map_cons, List.mapM_cons, resolve_indexed hfiles hordered (hps _ List.mem_cons_self) hp.2,
      ih fun p hp => hps p (List.mem_cons_of_mem _ hp)]
    rfl

namespace Same

variable {m : MemLogStore π} {s : RaftLogStore π} {init : List (Segment π)} {act : Segment π}

/-- Every range reads the same, wherever its entries are. -/
theorem tryGetLogEntries (hsame : Same z c m s (init ++ [act])) (h : Stands z c s init act) (start stop : Bound) :
    s.tryGetLogEntries z c start stop = .ok (m.tryGetLogEntries start stop) := by
  unfold RaftLogStore.tryGetLogEntries MemLogStore.tryGetLogEntries
  cases clampLogRange start stop with
  | none => rfl
  | some bounds =>
    obtain ⟨lo, hi⟩ := bounds
    let inRange : Nat × ScannedEntry π → Bool := fun p => lo ≤ p.2.index ∧ p.2.index ≤ hi
    have hrange : List.Forall₂ Indexed (s.inner.log.range lo hi)
        ((live z c (baseOf s.inner.lastPurged) (init ++ [act])).filter inRange) :=
      List.rel_filter (fun p q hpq => by simp [inRange, hpq.1]) h.index
    dsimp only
    rw [mapM_resolve h.files h.ordered hrange fun p hp => (List.mem_filter.mp (List.mem_filter.mp hp).1).1,
      hsame.log, BTreeMap.range, List.filter_map, List.map_map]
    rfl

theorem getLogState (hsame : Same z c m s (init ++ [act])) (h : Stands z c s init act) : s.getLogState = m.getLogState := by
  have hlast : ∀ {log : BTreeMap (Stored π)} {ps : List (Nat × ScannedEntry π)}, List.Forall₂ Indexed log ps →
      log.getLast?.map (·.2.logId) = ps.getLast?.map (·.2.logId) := by
    intro log ps hps
    have hids : log.map (·.2.logId) = ps.map (·.2.logId) := by
      induction hps with
      | nil => rfl
      | cons hp _ ih => rw [List.map_cons, List.map_cons, ih, hp.2.logId]
    rw [← List.getLast?_map, ← List.getLast?_map, hids]
  have hentries : ∀ p ∈ live z c (baseOf s.inner.lastPurged) (init ++ [act]), p.2.entry.logId = p.2.logId := by
    intro p hp
    obtain ⟨seg, -, pre, w, post, -, rfl⟩ := mem_places (List.mem_filter.mp hp).1
    rfl
  unfold RaftLogStore.getLogState MemLogStore.getLogState
  rw [hlast h.index, hsame.log, hsame.lastPurged, List.getLast?_map, Option.map_map]
  congr 2
  cases hp : (live z c (baseOf s.inner.lastPurged) (init ++ [act])).getLast? with
  | none => rfl
  | some p => exact congrArg some (hentries p (List.mem_of_getLast? hp)).symm

end Same

/-! ## Demotion -/

theorem indexed_demote {inner : Inner π} {newest : Option Nat} {ps : List (Nat × ScannedEntry π)} (fuel : Nat)
    {cursor : Nat} {log : BTreeMap (Stored π)} {ramBytes : Nat} (h : List.Forall₂ Indexed log ps) :
    List.Forall₂ Indexed (inner.demote newest fuel cursor log ramBytes).1 ps := by
  induction fuel generalizing cursor log ramBytes with
  | zero => exact h
  | succ fuel ih =>
    unfold Inner.demote
    split
    · exact h
    · split
      · exact h
      · split
        · exact h
        · refine ih (List.forall₂_map_left_iff.mpr (h.imp fun p place hp => ?_))
          split
          · exact ⟨hp.1, hp.2.logId, hp.2.len, hp.2.segStart, hp.2.offset, .inl rfl⟩
          · exact hp

/-- The budget drops copies, and nothing else. -/
theorem enforceRamBudget_eq (inner : Inner π) :
    ∃ log ramBytes cursor, inner.enforceRamBudget = { inner with log, ramBytes, demoteScanFrom := cursor } ∧
      ∀ ps, List.Forall₂ Indexed inner.log ps → List.Forall₂ Indexed log ps := by
  unfold Inner.enforceRamBudget
  split
  · exact ⟨inner.log, inner.ramBytes, inner.demoteScanFrom, rfl, fun _ h => h⟩
  · exact ⟨_, _, _, rfl, fun _ h => indexed_demote _ h⟩

theorem Stands.enforceRamBudget {s : RaftLogStore π} {init : List (Segment π)} {act : Segment π} (h : Stands z c s init act) :
    Stands z c { s with inner := s.inner.enforceRamBudget } init act := by
  obtain ⟨log, ramBytes, cursor, heq, hlog⟩ := enforceRamBudget_eq s.inner
  rw [heq]
  exact { h with index := hlog _ h.index }

theorem Holds.enforceRamBudget {s : RaftLogStore π} {init : List (Segment π)} {act : Segment π} (h : Holds z c s init act) :
    Holds z c { s with inner := s.inner.enforceRamBudget } init act := by
  refine ⟨h.toStands.enforceRamBudget, ?_⟩
  obtain ⟨log, ramBytes, cursor, heq, -⟩ := enforceRamBudget_eq s.inner
  rw [heq]
  exact h.reached

theorem Same.enforceRamBudget {m : MemLogStore π} {s : RaftLogStore π} {segs : List (Segment π)} (h : Same z c m s segs) :
    Same z c m { s with inner := s.inner.enforceRamBudget } segs := by
  obtain ⟨log, ramBytes, cursor, heq, -⟩ := enforceRamBudget_eq s.inner
  rw [heq]
  exact { h with }

end NanoBpm.Raft.LogStore
