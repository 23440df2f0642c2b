import Mathlib.Data.List.Chain
import NanoBpm.Raft.LogReaders

/-!
# What a reader can return

The record that a reader has still to read stays where it was looked up, or its entry leaves the log, through every
step of the writer (`SpanOk`); the one exception is an append over a record that a truncate has taken.
-/

namespace NanoBpm.Raft.LogStore

open Seglog (Bytes Deflate storedDeflate)

variable {π : Type} {z : Deflate} {c : EntryCodec π}

/-! ## The log and its index -/

section

variable {s s' : RaftLogStore π} {m : MemLogStore π} {i : Nat} {st : Stored π}

def Stored.span (i : Nat) (st : Stored π) : Span := ⟨i, st.segStart, st.offset, st.len⟩

/-- An entry of the index, and the entry of the log that it stands for, with its record in its file. -/
structure Backs (z : Deflate) (c : EntryCodec π) (dir : LogDir) (p : Nat × Stored π) (q : Nat × Entry π) : Prop where
  key : p.1 = q.1
  index : q.2.index = p.1
  copy : p.2.entry = none ∨ p.2.entry = some q.2
  start_le : p.2.segStart ≤ p.1
  pos : 0 < p.2.len
  record : ∃ raw, dir.file p.2.segStart = some raw ∧ Yields z c raw (p.2.span p.1) q.2

theorem backs_of_place {segs : List (Segment π)} (hfiles : s.dir.segs = segs.map (·.file z c)) (hordered : Ordered segs)
    {place : Nat × ScannedEntry π} (hplace : place ∈ places z c segs) {p : Nat × Stored π} (hp : Indexed p place) :
    Backs z c s.dir p (place.2.index, place.2.entry) := by
  obtain ⟨hi, hat⟩ := hp
  have hread := readEntryAt_place hfiles hordered hplace
  obtain ⟨seg, hseg, pre, w, post, hwritten, hw⟩ := mem_places hplace
  have hlen : place.2.len = (w.bytes z c).length := by rw [hw]; rfl
  refine ⟨hi, ?_, hat.entry, ?_, ?_, ?_⟩
  · rw [hi, hw]
    rfl
  · have hle := hordered.start_le seg hseg w (by simp [hwritten])
    rw [hat.segStart, hi, hw]
    exact hle
  · rw [hat.len, hlen]
    exact w.length_pos
  · unfold RaftLogStore.readEntryAt at hread
    rw [hat.segStart]
    split at hread
    · cases hread
    · next raw hraw =>
      split at hread
      · cases hread
      · next hend =>
        refine ⟨raw, hraw, ?_, ?_⟩
        · simpa [Stored.span, hat.offset, hat.len] using hend
        · simpa [Stored.span, hat.offset, hat.len] using hread

theorem Refines.backs (h : Refines z c s m) : List.Forall₂ (Backs z c s.dir) s.inner.log m.log := by
  obtain ⟨init, act, h, hsame⟩ := h
  have hall : ∀ {log : BTreeMap (Stored π)} {ps : List (Nat × ScannedEntry π)}, List.Forall₂ Indexed log ps →
      (∀ p ∈ ps, p ∈ places z c (init ++ [act])) →
      List.Forall₂ (Backs z c s.dir) log (ps.map fun p => (p.2.index, p.2.entry)) := by
    intro log ps hps
    induction hps with
    | nil => exact fun _ => .nil
    | cons hp _ ih =>
      intro hmem
      exact .cons (backs_of_place h.files h.ordered (hmem _ List.mem_cons_self) hp)
        (ih fun p hp => hmem p (List.mem_cons_of_mem _ hp))
  rw [hsame.log]
  exact hall h.index fun p hp => (List.mem_filter.mp hp).1

/-- The index has every key once. -/
theorem Refines.unique (h : Refines z c s m) {p q : Nat × Stored π} (hp : p ∈ s.inner.log) (hq : q ∈ s.inner.log)
    (hkey : p.1 = q.1) : p = q := by
  obtain ⟨init, act, h, -⟩ := h
  have hkeys : ∀ {log : BTreeMap (Stored π)} {ps : List (Nat × ScannedEntry π)}, List.Forall₂ Indexed log ps →
      log.map (·.1) = ps.map (·.2.index) := by
    intro log ps hps
    induction hps with
    | nil => rfl
    | cons hp _ ih => rw [List.map_cons, List.map_cons, hp.1, ih]
  have hsorted := (h.ordered.pairwise_places (z := z) (c := c)).filter fun p => baseOf s.inner.lastPurged ≤ p.2.index
  have hnodup : (s.inner.log.map (·.1)).Nodup := by
    rw [hkeys h.index]
    exact (List.pairwise_map.mpr hsorted).imp Nat.ne_of_lt
  exact List.inj_on_of_nodup_map hnodup hp hq hkey

theorem exists_left {α β : Type} {R : α → β → Prop} {xs : List α} {ys : List β} (h : List.Forall₂ R xs ys) {x : α} (hx : x ∈ xs) :
    ∃ y ∈ ys, R x y := by
  induction h with
  | nil => cases hx
  | cons hxy _ ih =>
    rcases List.mem_cons.mp hx with rfl | hx
    · exact ⟨_, List.mem_cons_self, hxy⟩
    · obtain ⟨y, hy, hr⟩ := ih hx
      exact ⟨y, List.mem_cons_of_mem _ hy, hr⟩

/-- Every entry of the index is one of the log. -/
theorem Refines.reads (h : Refines z c s m) (hst : (i, st) ∈ s.inner.log) : ∃ e, (i, e) ∈ m.log ∧ Backs z c s.dir (i, st) (i, e) := by
  obtain ⟨⟨j, e⟩, hmem, hbacks⟩ := exists_left h.backs hst
  obtain rfl : i = j := hbacks.key
  exact ⟨e, hmem, hbacks⟩

/-- Every entry of the log is in the index. -/
theorem Refines.indexed (h : Refines z c s m) {e : Entry π} (he : (i, e) ∈ m.log) : ∃ st, (i, st) ∈ s.inner.log := by
  obtain ⟨⟨j, st⟩, hmem, hbacks⟩ := exists_left h.backs.flip he
  obtain rfl : j = i := hbacks.key
  exact ⟨st, hmem⟩

theorem Refines.base_le (h : Refines z c s m) {e : Entry π} (he : (i, e) ∈ m.log) : baseOf m.lastPurged ≤ i := by
  obtain ⟨init, act, h, hsame⟩ := h
  rw [hsame.log] at he
  obtain ⟨place, hplace, heq⟩ := List.mem_map.mp he
  obtain ⟨rfl, -⟩ := Prod.mk.inj heq
  rw [hsame.lastPurged]
  exact of_decide_eq_true (List.mem_filter.mp hplace).2

theorem Refines.nextIndex (h : Refines z c s m) :
    baseOf m.lastPurged ≤ m.nextIndex ∧ ∀ p ∈ m.log, p.1 < m.nextIndex := by
  obtain ⟨init, act, h, hsame⟩ := h
  obtain ⟨hbase, hwritten, -⟩ := hsame.nextIndex h.ordered
  exact ⟨hsame.lastPurged ▸ hbase, hsame.keys_lt hwritten⟩

theorem BTreeMap.mem_insert {α : Type} {log : BTreeMap α} {k : Nat} {v : α} {p : Nat × α} (h : p ∈ log.insert k v) :
    p = (k, v) ∨ p ∈ log := by
  induction log with
  | nil => exact .inl (List.mem_singleton.mp h)
  | cons q log ih =>
    obtain ⟨k', v'⟩ := q
    unfold BTreeMap.insert at h
    split at h
    · exact List.mem_cons.mp h
    · split at h
      · rcases List.mem_cons.mp h with rfl | h
        · exact .inl rfl
        · exact .inr (List.mem_cons_of_mem _ h)
      · rcases List.mem_cons.mp h with rfl | h
        · exact .inr List.mem_cons_self
        · exact (ih h).imp_right (List.mem_cons_of_mem _)

/-- The budget leaves the places. -/
theorem span_demote {inner : Inner π} {newest : Option Nat} (fuel : Nat) {cursor ramBytes : Nat} {log : BTreeMap (Stored π)}
    (h : (i, st) ∈ (inner.demote newest fuel cursor log ramBytes).1) :
    ∃ st₀, (i, st₀) ∈ log ∧ st₀.span i = st.span i := by
  induction fuel generalizing cursor log ramBytes with
  | zero => exact ⟨st, h, rfl⟩
  | succ fuel ih =>
    unfold Inner.demote at h
    split at h
    · exact ⟨st, h, rfl⟩
    · split at h
      · exact ⟨st, h, rfl⟩
      · split at h
        · exact ⟨st, h, rfl⟩
        · obtain ⟨st₁, hst₁, hspan⟩ := ih h
          obtain ⟨⟨k, st₀⟩, hst₀, heq⟩ := List.mem_map.mp hst₁
          split at heq <;> obtain ⟨rfl, rfl⟩ := Prod.mk.inj heq <;> exact ⟨st₀, hst₀, hspan⟩

theorem span_enforceRamBudget {inner : Inner π} (h : (i, st) ∈ inner.enforceRamBudget.log) :
    ∃ st₀, (i, st₀) ∈ inner.log ∧ st₀.span i = st.span i := by
  unfold Inner.enforceRamBudget at h
  split at h
  · exact ⟨st, h, rfl⟩
  · exact span_demote _ h

/-- An append leaves the places of the entries that are there. -/
theorem span_append {entries : List (Entry π)} {next : Nat} (hentries : Consecutive next entries) (hi : i < next)
    (h : (i, st) ∈ (s.append z c entries).inner.log) : ∃ st₀, (i, st₀) ∈ s.inner.log ∧ st₀.span i = st.span i := by
  have hloop : ∀ (es : List (Entry π)) (next : Nat) (s : RaftLogStore π) (st : Stored π), Consecutive next es → i < next →
      (i, st) ∈ (es.foldl (fun s e => s.appendEntry z c e) s).inner.log → (i, st) ∈ s.inner.log := by
    intro es
    induction es with
    | nil => exact fun _ _ _ _ _ h => h
    | cons e es ih =>
      intro next s st hes hi h
      have hst := ih (next + 1) _ st hes.2 (by omega) h
      obtain ⟨new, hlog⟩ : ∃ new, (s.appendEntry z c e).inner.log = s.inner.log.insert e.index new := by
        unfold RaftLogStore.appendEntry RaftLogStore.writeRecord RaftLogStore.rolled
        dsimp only
        split <;> exact ⟨_, rfl⟩
      dsimp only at hst
      rw [hlog] at hst
      rcases BTreeMap.mem_insert hst with heq | hmem
      · have := (Prod.mk.inj heq).1
        have := hes.1
        omega
      · exact hmem
  obtain ⟨st₀, hst₀, hspan⟩ := span_enforceRamBudget h
  exact ⟨st₀, hloop entries next s st₀ hentries hi hst₀, hspan⟩

/-- The log after an append of what follows it. -/
theorem log_append {entries : List (Entry π)} {next : Nat} (hentries : Consecutive next entries) (hkeys : ∀ p ∈ m.log, p.1 < next) :
    (m.append entries).log = m.log ++ entries.map fun e => (e.index, e) := by
  unfold MemLogStore.append
  dsimp only
  generalize m.log = log at *
  induction entries generalizing next log with
  | nil => simp
  | cons e es ih =>
    rw [List.foldl_cons, BTreeMap.insert_of_lt (hentries.1 ▸ hkeys), ih hentries.2]
    · simp
    · intro p hp
      rcases List.mem_append.mp hp with hp | hp
      · exact Nat.lt_succ_of_lt (hkeys p hp)
      · obtain rfl := List.mem_singleton.mp hp
        have := hentries.1
        show e.index < next + 1
        omega

end

/-! ## The invariant -/

variable (z c) in
/-- The store once the operation that has the lock is done. -/
def World.after (w : World π) : RaftLogStore π :=
  match w.pending with
  | none => w.store
  | some (op, _) =>
    match w.store.step z c op with
    | .ok s => s
    | .error _ => w.store

/-- The first index that the operations begun so far do not purge. -/
def World.base (w : World π) : Nat := baseOf w.mem.lastPurged

/-- What an operation may still do to the files. -/
def StepsOf (base : Nat) (dir : LogDir) (op : LogOp π) (rest : List FileOp) : Prop :=
  match op with
  | .append _ => ∀ f ∈ rest, f.Grows base
  | .truncate _ => ShrinkAll base dir rest
  | .purge _ => ∀ f ∈ rest, ∃ start, f = .unlink start
  | _ => rest = []

variable (z c) in
/-- The writer's side of a world. -/
structure Writes (w : World π) : Prop where
  store : Refines z c (w.after z c) w.mem
  idle : w.pending = none → w.dir = w.store.dir
  busy : ∀ op rest, w.pending = some (op, rest) → w.store.step z c op = .ok (w.after z c) ∧ StepsOf w.base w.dir op rest ∧
    (rest.foldl FileOp.apply w.dir).segs = (w.after z c).dir.segs
  held : ∀ i ∈ w.held, ∃ e, (i, e) ∈ w.mem.log

variable (z c) in
/-- A record that is still to be read, of the entry `e`. -/
structure SpanOk (w : World π) (span : Span) (e : Entry π) : Prop where
  index : e.index = span.index
  start_le : span.segStart ≤ span.index
  pos : 0 < span.len
  place : span ∉ w.cut → ∀ st, (span.index, st) ∈ (w.after z c).inner.log → st.span span.index = span
  known : span ∉ w.cut → (∃ e', (span.index, e') ∈ w.mem.log) ∨ span.index < w.base
  taken : span ∈ w.cut → span.index ∉ w.held
  file : ∀ raw, w.dir.file span.segStart = some raw →
    Yields z c raw span e ∨ raw.length < span.offset + span.len ∧ span ∈ w.cut
  unlinked : w.dir.file span.segStart = none → span ∈ w.cut ∨ span.index < w.base
  kept : ∀ logId rest, w.pending = some (.truncate logId, rest) → span ∉ w.cut → w.dir.reaches span = true →
    (w.after z c).dir.reaches span = true
  uncut : ∀ entries rest, w.pending = some (.append entries, rest) → span ∉ w.cut

section

variable {w w' : World π} {span : Span} {e : Entry π}

/-- An entry that stays has its record in the files the operation leaves. -/
theorem SpanOk.reaches_after (h : SpanOk z c w span e) (hw : Writes z c w) (hcut : span ∉ w.cut)
    (hlog : ∃ e', (span.index, e') ∈ w.mem.log) : (w.after z c).dir.reaches span = true := by
  obtain ⟨e', he'⟩ := hlog
  obtain ⟨st, hst⟩ := hw.store.indexed he'
  obtain ⟨_, -, hbacks⟩ := hw.store.reads hst
  obtain ⟨raw, hraw, hreads⟩ := hbacks.record
  have hspan := h.place hcut st hst
  rw [hspan] at hreads
  refine reaches_iff.mpr ⟨raw, ?_, hreads.1⟩
  rw [← hspan]
  exact hraw

theorem reaches_congr {dir dir' : LogDir} (h : dir.segs = dir'.segs) (span : Span) : dir.reaches span = dir'.reaches span := by
  simp only [LogDir.reaches, LogDir.file, h]

/-- Outside the log, an index was not held. -/
theorem Writes.not_held (hw : Writes z c w) {i : Nat} (hi : i < w.base) : i ∉ w.held := by
  intro hheld
  obtain ⟨e, he⟩ := hw.held i hheld
  exact Nat.not_lt.mpr (hw.store.base_le he) hi

/-! ### The operations begin -/

theorem step_log_sub {s s' : RaftLogStore π} {op : LogOp π} (h : s.step z c op = .ok s') (happend : ∀ es, op ≠ .append es)
    (hopen : ∀ config, op ≠ .reopen config) : ∀ p ∈ s'.inner.log, p ∈ s.inner.log := by
  cases op with
  | append es => exact absurd rfl (happend es)
  | reopen config => exact absurd rfl (hopen config)
  | truncate logId =>
    cases h
    intro p hp
    have hlog : (s.truncate logId).inner.log = s.inner.log.below logId.index := by
      unfold RaftLogStore.truncate RaftLogStore.rewriteAfterTruncate
      dsimp only
      split <;> rfl
    rw [hlog] at hp
    exact (List.mem_filter.mp hp).1
  | purge logId =>
    cases h
    exact fun p hp => (List.mem_filter.mp hp).1
  | saveCommitted committed deferred => cases h; cases deferred <;> exact fun _ hp => hp
  | saveVote vote => cases h; exact fun _ hp => hp
  | flush =>
    cases h
    unfold RaftLogStore.flush
    split <;> exact fun _ hp => hp

theorem mem_step_log {m : MemLogStore π} {op : LogOp π} {p : Nat × Entry π} (hp : p ∈ m.log)
    (hkeys : ∀ p ∈ m.log, p.1 < m.nextIndex) (hlegal : Legal m op) :
    (∃ e, (p.1, e) ∈ (m.step op).log) ∨ (∃ logId, op = .truncate logId ∧ logId.index ≤ p.1) ∨ p.1 < baseOf (m.step op).lastPurged := by
  cases op with
  | append entries =>
    refine .inl ⟨p.2, ?_⟩
    rw [MemLogStore.step, log_append hlegal hkeys]
    exact List.mem_append_left _ hp
  | truncate logId =>
    rcases Nat.lt_or_ge p.1 logId.index with hlt | hge
    · exact .inl ⟨p.2, List.mem_filter.mpr ⟨hp, by simpa using hlt⟩⟩
    · exact .inr (.inl ⟨logId, rfl, hge⟩)
  | purge logId =>
    rcases Nat.lt_or_ge logId.index p.1 with hlt | hge
    · exact .inl ⟨p.2, List.mem_filter.mpr ⟨hp, decide_eq_true hlt⟩⟩
    · refine .inr (.inr ?_)
      show p.1 < logId.index + 1
      omega
  | saveCommitted | saveVote | flush | reopen => exact .inl ⟨p.2, hp⟩

theorem base_step {m : MemLogStore π} {op : LogOp π} (hlegal : Legal m op) : baseOf m.lastPurged ≤ baseOf (m.step op).lastPurged := by
  cases op with
  | purge logId => exact hlegal
  | append | truncate | saveCommitted | saveVote | flush | reopen => exact Nat.le_refl _

variable (z c) in
/-- The world when an operation has just begun. -/
def World.begun (w : World π) (op : LogOp π) : World π :=
  let mem := w.mem.step op
  { w with
    pending := some (op, w.store.fileOps z c op), mem
    cut := match op with
      | .truncate logId => w.cut ++ w.taken logId
      | _ => w.cut
    held := w.held.filter fun i => mem.log.any (·.1 = i) }

theorem turn_begin {op : LogOp π} (h : w.turn z c (.begin op) = some w') :
    w.pending = none ∧ (∀ config, op ≠ .reopen config) ∧ w' = w.begun z c op := by
  simp only [World.turn] at h
  split at h
  · cases h
  · cases h
  · next hnone hre =>
    exact ⟨hnone, fun config hop => hre config hop, (Option.some.inj h).symm⟩

theorem stepsOf_fileOps {s : RaftLogStore π} {m : MemLogStore π} {op : LogOp π} (h : Refines z c s m) (hserved : Served m op)
    (hop : ∀ config, op ≠ .reopen config) : StepsOf (baseOf (m.step op).lastPurged) s.dir op (s.fileOps z c op) := by
  cases op with
  | append entries =>
    intro f hf
    have hgrows := appendFiles_grows hserved.1 s f hf
    cases f with
    | create start => exact Nat.le_trans h.nextIndex.1 hgrows
    | write => trivial
    | createEmpty | rename | unlink => exact hgrows
  | truncate logId => exact truncateFiles_shrink hserved.2 s
  | purge logId =>
    intro f hf
    obtain ⟨seg, -, rfl⟩ := List.mem_map.mp hf
    exact ⟨seg.start, rfl⟩
  | saveCommitted | saveVote | flush => rfl
  | reopen config => exact absurd rfl (hop config)

theorem Writes.begun (hw : Writes z c w) {op : LogOp π} (hidle : w.pending = none) (hop : ∀ config, op ≠ .reopen config)
    (hserved : Served w.mem op) :
    Writes z c (w.begun z c op) ∧ w.store.step z c op = .ok ((w.begun z c op).after z c) ∧ Refines z c w.store w.mem := by
  have hstore : Refines z c w.store w.mem := by
    have := hw.store
    rwa [World.after, hidle] at this
  obtain ⟨s', hstep, hrefines⟩ := step_spec hstore hserved.1
  have hafter : (w.begun z c op).after z c = s' := by simp [World.after, World.begun, hstep]
  refine ⟨⟨by rw [hafter]; exact hrefines, nofun, ?_, ?_⟩, by rw [hafter]; exact hstep, hstore⟩
  · rintro op' rest heq
    obtain ⟨rfl, rfl⟩ := Prod.mk.inj (Option.some.inj heq)
    have hdir : (w.begun z c op).dir = w.store.dir := hw.idle hidle
    refine ⟨by rw [hafter]; exact hstep, ?_, ?_⟩
    · rw [hdir]
      exact stepsOf_fileOps hstore hserved hop
    · rw [hafter, hdir]
      exact foldl_fileOps hstep hop
  · intro i hi
    obtain ⟨p, hp, heq⟩ := List.any_eq_true.mp (List.mem_filter.mp hi).2
    exact ⟨p.2, of_decide_eq_true heq ▸ hp⟩

theorem SpanOk.begun (h : SpanOk z c w span e) (hw : Writes z c w) {op : LogOp π} (hidle : w.pending = none)
    (hop : ∀ config, op ≠ .reopen config) (hserved : Served w.mem op) (hunread : span ∈ w.reader.unread)
    (hclear : w.Clear (.begin op)) : SpanOk z c (w.begun z c op) span e := by
  obtain ⟨hw', hstep, hstore⟩ := hw.begun hidle hop hserved
  have hafter : w.after z c = w.store := by rw [World.after, hidle]
  have hcut : ∀ {sp}, sp ∈ w.cut → sp ∈ (w.begun z c op).cut := by
    intro sp hsp
    unfold World.begun
    dsimp only
    split
    · exact List.mem_append_left _ hsp
    · exact hsp
  have hheld : ∀ {i}, i ∈ (w.begun z c op).held → i ∈ w.held := fun hi => (List.mem_filter.mp hi).1
  have hbase : w.base ≤ (w.begun z c op).base := base_step hserved.1
  have hplace : span ∉ w.cut → ∀ st, (span.index, st) ∈ ((w.begun z c op).after z c).inner.log → st.span span.index = span := by
    intro hncut st hst
    have hold : ∃ st₀, (span.index, st₀) ∈ w.store.inner.log ∧ st₀.span span.index = st.span span.index := by
      by_cases happend : ∃ es, op = .append es
      · obtain ⟨es, rfl⟩ := happend
        have hs' := Except.ok.inj hstep
        rw [← hs'] at hst
        refine span_append hserved.1 ?_ hst
        rcases h.known hncut with ⟨e', he'⟩ | hlt
        · exact hstore.nextIndex.2 _ he'
        · exact Nat.lt_of_lt_of_le hlt hstore.nextIndex.1
      · exact ⟨st, step_log_sub hstep (fun es hes => happend ⟨es, hes⟩) hop _ hst, rfl⟩
    obtain ⟨st₀, hst₀, hspan⟩ := hold
    rw [← hspan]
    exact h.place hncut st₀ (by rw [hafter]; exact hst₀)
  -- what a truncate takes and what it leaves
  have htaken : ∀ {logId}, op = .truncate logId → span ∉ (w.begun z c op).cut →
      span.index < logId.index ∧ (w.dir.reaches span = true → (w.store.truncate logId).dir.reaches span = true) := by
    rintro logId rfl hncut
    have hnot : span ∉ w.taken logId := fun hmem => hncut (List.mem_append_right _ hmem)
    simp only [World.taken, List.mem_filter, hunread, true_and, Bool.or_eq_true, decide_eq_true_eq, Bool.and_eq_true,
      Bool.not_eq_true', not_or, not_and, Bool.not_eq_false, Nat.not_le] at hnot
    exact hnot
  refine ⟨h.index, h.start_le, h.pos, fun hncut => hplace fun hin => hncut (hcut hin), fun hncut => ?known, fun hin => ?taken,
    fun raw hraw => (h.file raw hraw).imp_right fun hshort => ⟨hshort.1, hcut hshort.2⟩,
    fun hnone => (h.unlinked hnone).imp hcut fun hlt => Nat.lt_of_lt_of_le hlt hbase,
    fun logId rest hpending hncut hreaches => ?kept, fun entries rest hpending => ?uncut⟩
  case known =>
    rcases h.known fun hin => hncut (hcut hin) with ⟨e', he'⟩ | hlt
    · rcases mem_step_log he' hstore.nextIndex.2 hserved.1 with hin | ⟨logId, rfl, hge⟩ | hlt
      · exact .inl hin
      · have := (htaken rfl hncut).1
        omega
      · exact .inr hlt
    · exact .inr (Nat.lt_of_lt_of_le hlt hbase)
  case taken =>
    intro hi
    by_cases hold : span ∈ w.cut
    · exact h.taken hold (hheld hi)
    · obtain ⟨logId, rfl⟩ : ∃ logId, op = .truncate logId := by
        by_contra hnone
        unfold World.begun at hin
        dsimp only at hin
        split at hin
        · next logId => exact hnone ⟨logId, rfl⟩
        · exact hold hin
      have hmem : span ∈ w.taken logId := (List.mem_append.mp hin).resolve_left hold
      obtain ⟨e', he'⟩ := hw'.held _ hi
      have hlt : span.index < logId.index := by simpa using (List.mem_filter.mp he').2
      have hgone : (w.store.truncate logId).dir.reaches span = false := by
        have := (List.mem_filter.mp hmem).2
        simp only [Bool.or_eq_true, decide_eq_true_eq, Bool.and_eq_true, Bool.not_eq_true'] at this
        rcases this with hge | hgone
        · omega
        · exact hgone.2
      obtain ⟨st, hst⟩ := hw'.store.indexed he'
      obtain ⟨_, -, hbacks⟩ := hw'.store.reads hst
      obtain ⟨raw, hraw, hreads⟩ := hbacks.record
      have hspan := hplace hold st hst
      rw [hspan] at hreads
      have hreaches : ((w.begun z c (.truncate logId)).after z c).dir.reaches span = true :=
        reaches_iff.mpr ⟨raw, by rw [← hspan]; exact hraw, hreads.1⟩
      rw [← Except.ok.inj hstep, hgone] at hreaches
      cases hreaches
  case kept =>
    obtain ⟨rfl, -⟩ := Prod.mk.inj (Option.some.inj hpending)
    rw [← Except.ok.inj hstep]
    exact (htaken rfl hncut).2 hreaches
  case uncut =>
    obtain ⟨rfl, -⟩ := Prod.mk.inj (Option.some.inj hpending)
    exact hclear span hunread

/-! ### The steps of an operation -/

theorem turn_file (h : w.turn z c .file = some w') : ∃ op f rest, w.pending = some (op, f :: rest) ∧
    w' = { w with dir := f.apply w.dir, reader := w.reader.after w.dir f, pending := some (op, rest) } := by
  simp only [World.turn] at h
  split at h
  · next op f rest hpending => exact ⟨op, f, rest, hpending, (Option.some.inj h).symm⟩
  · cases h

theorem turn_finish (h : w.turn z c .finish = some w') : ∃ op store, w.pending = some (op, []) ∧
    w.store.step z c op = .ok store ∧ w' = { w with store, dir := store.dir, pending := none } := by
  simp only [World.turn] at h
  split at h
  · next op hpending =>
    split at h
    · next store hstep => exact ⟨op, store, hpending, hstep, (Option.some.inj h).symm⟩
    · cases h
  · cases h

theorem unlinks_shrinkAll (base : Nat) {dir : LogDir} {fs : List FileOp} (h : ∀ f ∈ fs, ∃ start, f = .unlink start) :
    ShrinkAll base dir fs := by
  induction fs generalizing dir with
  | nil => trivial
  | cons f fs ih =>
    obtain ⟨start, rfl⟩ := h f List.mem_cons_self
    exact ⟨trivial, ih fun f hf => h f (List.mem_cons_of_mem _ hf)⟩

section

variable {op : LogOp π} {f : FileOp} {rest : List FileOp}

theorem Writes.filed (hw : Writes z c w) (hpending : w.pending = some (op, f :: rest)) (r : Reader π) :
    Writes z c { w with dir := f.apply w.dir, reader := r, pending := some (op, rest) } := by
  obtain ⟨hstep, hsteps, hfold⟩ := hw.busy op _ hpending
  have hafter : World.after z c { w with dir := f.apply w.dir, reader := r, pending := some (op, rest) } = w.after z c := by
    simp [World.after, hpending]
  refine ⟨by rw [hafter]; exact hw.store, nofun, fun op' rest' heq => ?_, hw.held⟩
  obtain ⟨rfl, rfl⟩ := Prod.mk.inj (Option.some.inj heq)
  rw [hafter]
  refine ⟨hstep, ?_, hfold⟩
  cases op with
  | append => exact fun g hg => hsteps g (List.mem_cons_of_mem _ hg)
  | truncate => exact hsteps.2
  | purge => exact fun g hg => hsteps g (List.mem_cons_of_mem _ hg)
  | saveCommitted | saveVote | flush | reopen => cases hsteps

/-- What the files of a record must be for it to be there or known to be gone. -/
theorem SpanOk.filed (h : SpanOk z c w span e) (hw : Writes z c w) (hpending : w.pending = some (op, f :: rest)) (r : Reader π) :
    SpanOk z c { w with dir := f.apply w.dir, reader := r, pending := some (op, rest) } span e := by
  obtain ⟨hstep, hsteps, hfold⟩ := hw.busy op _ hpending
  have hafter : World.after z c { w with dir := f.apply w.dir, reader := r, pending := some (op, rest) } = w.after z c := by
    simp [World.after, hpending]
  have hend : ∀ {fs}, fs = rest → (fs.foldl FileOp.apply (f.apply w.dir)).reaches span = (w.after z c).dir.reaches span := by
    rintro _ rfl
    exact reaches_congr hfold span
  suffices hfiles : (∀ raw, (f.apply w.dir).file span.segStart = some raw →
      Yields z c raw span e ∨ raw.length < span.offset + span.len ∧ span ∈ w.cut) ∧
      ((f.apply w.dir).file span.segStart = none → span ∈ w.cut ∨ span.index < w.base) ∧
      (∀ logId, op = .truncate logId → span ∉ w.cut → (f.apply w.dir).reaches span = true →
        (w.after z c).dir.reaches span = true) by
    obtain ⟨hfile, hunlinked, hkept⟩ := hfiles
    refine ⟨h.index, h.start_le, h.pos, by rw [hafter]; exact h.place, h.known, h.taken, hfile, hunlinked, ?_, ?_⟩
    · rintro logId rest' heq hcut hreaches
      obtain ⟨rfl, -⟩ := Prod.mk.inj (Option.some.inj heq)
      rw [hafter]
      exact hkept logId rfl hcut hreaches
    · rintro entries rest' heq
      obtain ⟨rfl, -⟩ := Prod.mk.inj (Option.some.inj heq)
      exact h.uncut entries _ hpending
  cases op with
  | append entries =>
    have huncut := h.uncut entries _ hpending
    have hgrows := hsteps f List.mem_cons_self
    cases f with
    | createEmpty | rename | unlink => exact hgrows.elim
    | create start =>
      refine ⟨fun raw hraw => .inl ?_, fun hnone => .inr ?_, by rintro _ ⟨⟩⟩
      · rw [FileOp.apply, LogDir.file_openAppend] at hraw
        split at hraw
        · next hk =>
          -- a file of this name would be of an index behind the one to read
          cases hfile : w.dir.file span.segStart with
          | none =>
            have hlt := (h.unlinked hfile).resolve_left huncut
            have := h.start_le
            have hge : w.base ≤ start := hgrows
            omega
          | some raw' =>
            rw [hfile] at hraw
            cases hraw
            exact (h.file _ hfile).resolve_right fun hshort => huncut hshort.2
        · exact (h.file raw hraw).resolve_right fun hshort => huncut hshort.2
      · rw [FileOp.apply, LogDir.file_openAppend] at hnone
        split at hnone
        · cases hnone
        · exact (h.unlinked hnone).resolve_left huncut
    | write start b =>
      refine ⟨fun raw hraw => .inl ?_, fun hnone => .inr ?_, by rintro _ ⟨⟩⟩
      · rw [FileOp.apply, LogDir.file_write] at hraw
        split at hraw
        · obtain ⟨raw', hraw', rfl⟩ := Option.map_eq_some_iff.mp hraw
          exact ((h.file raw' hraw').resolve_right fun hshort => huncut hshort.2).extend (List.prefix_append _ _)
        · exact (h.file raw hraw).resolve_right fun hshort => huncut hshort.2
      · rw [FileOp.apply, LogDir.file_write] at hnone
        split at hnone
        · exact (h.unlinked (Option.map_eq_none_iff.mp hnone)).resolve_left huncut
        · exact (h.unlinked hnone).resolve_left huncut
  | truncate logId =>
    have hgone : span ∉ w.cut → w.dir.reaches span = true → (f.apply w.dir).reaches span = true := by
      intro hcut hreaches
      by_contra hnot
      have hlost := hsteps.2.not_reaches h.pos (Bool.eq_false_iff.mpr hnot)
      rw [hend rfl, h.kept logId _ hpending hcut hreaches] at hlost
      cases hlost
    have hback : (f.apply w.dir).reaches span = true → w.dir.reaches span = true := by
      intro hreaches
      by_contra hnot
      have hone : ShrinkAll w.base w.dir [f] := ⟨hsteps.1, trivial⟩
      have hlost := hone.not_reaches h.pos (Bool.eq_false_iff.mpr hnot)
      rw [List.foldl_cons, List.foldl_nil, hreaches] at hlost
      cases hlost
    refine ⟨fun raw hraw => ?_, fun hnone => ?_, fun _ _ hcut hreaches => h.kept logId _ hpending hcut (hback hreaches)⟩
    · by_cases hlen : span.offset + span.len ≤ raw.length
      · obtain ⟨old, hold, holdlen⟩ := reaches_iff.mp (hback (reaches_iff.mpr ⟨raw, hraw, hlen⟩))
        have hreads := (h.file old hold).resolve_right fun hshort => by omega
        rcases hsteps.1.file span.segStart with hsame | hnone | ⟨bytes, old', hold', hbytes, hpre⟩ | ⟨-, hempty⟩
        · rw [hsame, hold] at hraw
          cases hraw
          exact .inl hreads
        · rw [hnone] at hraw
          cases hraw
        · rw [hbytes] at hraw
          rw [hold] at hold'
          cases hraw
          cases hold'
          exact .inl (hreads.cut hpre hlen)
        · rw [hempty] at hraw
          cases hraw
          have := h.pos
          simp only [List.length_nil] at hlen
          omega
      · refine .inr ⟨by omega, ?_⟩
        by_contra hcut
        cases hold : w.dir.file span.segStart with
        | some old =>
          have hreads := (h.file old hold).resolve_right fun hshort => hcut hshort.2
          obtain ⟨raw', hraw', hlen'⟩ := reaches_iff.mp (hgone hcut (reaches_iff.mpr ⟨old, hold, hreads.1⟩))
          rw [hraw] at hraw'
          cases hraw'
          omega
        | none =>
          rcases hsteps.1.file span.segStart with hsame | hnone | ⟨bytes, old', hold', -, -⟩ | ⟨hge, -⟩
          · rw [hsame, hold] at hraw
            cases hraw
          · rw [hnone] at hraw
            cases hraw
          · rw [hold] at hold'
            cases hold'
          · have hlt := (h.unlinked hold).resolve_left hcut
            have := h.start_le
            omega
    · by_contra hnot
      simp only [not_or] at hnot
      cases hold : w.dir.file span.segStart with
      | none => exact absurd (h.unlinked hold) (by simp [hnot])
      | some old =>
        have hreads := (h.file old hold).resolve_right fun hshort => hnot.1 hshort.2
        obtain ⟨raw', hraw', -⟩ := reaches_iff.mp (hgone hnot.1 (reaches_iff.mpr ⟨old, hold, hreads.1⟩))
        rw [hnone] at hraw'
        cases hraw'
  | purge logId =>
    obtain ⟨start, rfl⟩ := hsteps f List.mem_cons_self
    have hall : ShrinkAll w.base ((FileOp.unlink start).apply w.dir) rest :=
      unlinks_shrinkAll w.base fun g hg => hsteps g (List.mem_cons_of_mem _ hg)
    refine ⟨fun raw hraw => ?_, fun hnone => ?_, by rintro _ ⟨⟩⟩
    · rw [FileOp.apply, LogDir.file_removeFile] at hraw
      split at hraw
      · cases hraw
      · exact h.file raw hraw
    · by_contra hnot
      simp only [not_or] at hnot
      rcases h.known hnot.1 with hlog | hlt
      · have hreaches := h.reaches_after hw hnot.1 hlog
        have hgone : ((FileOp.unlink start).apply w.dir).reaches span = false := Bool.eq_false_iff.mpr fun hreaches' => by
          obtain ⟨raw', hraw', -⟩ := reaches_iff.mp hreaches'
          rw [hnone] at hraw'
          cases hraw'
        have hlost := hall.not_reaches h.pos hgone
        rw [hend rfl, hreaches] at hlost
        cases hlost
      · exact hnot.2 hlt
  | saveCommitted | saveVote | flush | reopen => cases hsteps

theorem Writes.finished (hw : Writes z c w) {store : RaftLogStore π} (hpending : w.pending = some (op, []))
    (hstep : w.store.step z c op = .ok store) : Writes z c { w with store, dir := store.dir, pending := none } where
  store := by
    have h := hw.store
    simpa only [World.after, hpending, hstep] using h
  idle _ := rfl
  busy := nofun
  held := hw.held

theorem SpanOk.finished (h : SpanOk z c w span e) (hw : Writes z c w) {store : RaftLogStore π} (hpending : w.pending = some (op, []))
    (hstep : w.store.step z c op = .ok store) : SpanOk z c { w with store, dir := store.dir, pending := none } span e := by
  have hafter : w.after z c = store := by simp [World.after, hpending, hstep]
  have hsegs : w.dir.segs = store.dir.segs := hafter ▸ (hw.busy op _ hpending).2.2
  have hfile : ∀ k, store.dir.file k = w.dir.file k := fun k => by simp only [LogDir.file, hsegs]
  refine ⟨h.index, h.start_le, h.pos, ?_, h.known, h.taken, ?_, ?_, ?_, ?_⟩
  · have hplace := h.place
    rw [hafter] at hplace
    exact hplace
  · intro raw hraw
    exact h.file raw (by rw [← hfile]; exact hraw)
  · intro hnone
    exact h.unlinked (by rw [← hfile]; exact hnone)
  · rintro _ _ ⟨⟩
  · rintro _ _ ⟨⟩

end

/-! ### The reader -/

variable (z c) in
def ResolvedOk (w : World π) : Resolved π → Entry π → Prop
  | .ram e', e => e' = e
  | .disk span, e => SpanOk z c w span e

variable (z c) in
def HandleOk (w : World π) (span : Span) (e : Entry π) : Handle → Prop
  | .named start => start = span.segStart ∧ (∃ raw, w.dir.file start = some raw) ∧ SpanOk z c w span e
  | .orphan raw =>
    e.index = span.index ∧ (Yields z c raw span e ∨ raw.length < span.offset + span.len ∧ span.index ∉ w.held)

variable (z c) in
/-- The reader is on its way to `entries`, or failed because one of them was not held. -/
def ReaderOk (entries : List (Entry π)) (w : World π) : Reader π → Prop
  | .resolving rest out => ∃ es, entries = out ++ es ∧ List.Forall₂ (ResolvedOk z c w) rest es
  | .opened h span rest out =>
    ∃ e es, entries = out ++ e :: es ∧ HandleOk z c w span e h ∧ List.Forall₂ (ResolvedOk z c w) rest es
  | .done result => result = .ok entries ∨ ∃ err, result = .error err ∧ ∃ e ∈ entries, e.index ∉ w.held

theorem ResolvedOk.mono {rest : List (Resolved π)} {es : List (Entry π)} (h : List.Forall₂ (ResolvedOk z c w) rest es)
    (hspans : ∀ span ∈ Reader.spans rest, ∀ e, SpanOk z c w span e → SpanOk z c w' span e) :
    List.Forall₂ (ResolvedOk z c w') rest es := by
  induction h with
  | nil => exact .nil
  | @cons r e rest es hr _ ih =>
    cases r with
    | ram => exact .cons hr (ih hspans)
    | disk span =>
      exact .cons (hspans span List.mem_cons_self e hr) (ih fun sp hsp => hspans sp (List.mem_cons_of_mem _ hsp))

theorem spans_unread (h : Handle) (span : Span) (rest : List (Resolved π)) (out : List (Entry π)) :
    ∀ sp ∈ Reader.spans rest, sp ∈ (Reader.opened h span rest out).unread := by
  cases h with
  | named => exact fun sp hsp => List.mem_cons_of_mem _ hsp
  | orphan => exact fun sp hsp => hsp

/-- A step that keeps the records and the names of the files keeps the reader. -/
theorem ReaderOk.mono {entries : List (Entry π)} {r : Reader π} (h : ReaderOk z c entries w r)
    (hspans : ∀ span ∈ r.unread, ∀ e, SpanOk z c w span e → SpanOk z c w' span e)
    (hfiles : ∀ k, (∃ raw, w.dir.file k = some raw) → ∃ raw, w'.dir.file k = some raw)
    (hheld : ∀ i ∈ w'.held, i ∈ w.held) : ReaderOk z c entries w' r := by
  cases r with
  | resolving rest out =>
    obtain ⟨es, hes, hrest⟩ := h
    exact ⟨es, hes, ResolvedOk.mono hrest hspans⟩
  | opened hd span rest out =>
    obtain ⟨e, es, hes, hhandle, hrest⟩ := h
    refine ⟨e, es, hes, ?_, ResolvedOk.mono hrest fun sp hsp => hspans sp (spans_unread hd span rest out sp hsp)⟩
    cases hd with
    | named start => exact ⟨hhandle.1, hfiles _ hhandle.2.1, hspans span List.mem_cons_self e hhandle.2.2⟩
    | orphan raw => exact ⟨hhandle.1, hhandle.2.imp_right fun hshort => ⟨hshort.1, fun hin => hshort.2 (hheld _ hin)⟩⟩
  | done result =>
    exact h.imp_right fun ⟨err, herr, e, he, hnot⟩ => ⟨err, herr, e, he, fun hin => hnot (hheld _ hin)⟩

/-- An open file that is replaced or unlinked keeps what it held. -/
theorem HandleOk.orphaned {start : Nat} (h : HandleOk z c w span e (.named start)) :
    HandleOk z c w span e (.orphan ((w.dir.file start).getD [])) := by
  obtain ⟨rfl, ⟨raw, hraw⟩, hspan⟩ := h
  rw [hraw, Option.getD_some]
  exact ⟨hspan.index, (hspan.file raw hraw).imp_right fun hshort => ⟨hshort.1, hspan.taken hshort.2⟩⟩

theorem file_apply {dir : LogDir} {f : FileOp} {k : Nat} (h : ∃ raw, dir.file k = some raw)
    (hrename : ∀ bytes, f ≠ .rename k bytes) (hunlink : f ≠ .unlink k) : ∃ raw, (f.apply dir).file k = some raw := by
  obtain ⟨raw, hraw⟩ := h
  cases f with
  | create start => rw [FileOp.apply, LogDir.file_openAppend]; split <;> simp [hraw]
  | write start b => rw [FileOp.apply, LogDir.file_write]; split <;> simp [hraw]
  | createEmpty start => rw [FileOp.apply, LogDir.file_createEmpty]; split <;> simp [hraw]
  | rename start bytes =>
    have hk : k ≠ start := fun heq => hrename bytes (heq ▸ rfl)
    rw [FileOp.apply, LogDir.file_replace, if_neg hk]
    exact ⟨raw, hraw⟩
  | unlink start =>
    have hk : k ≠ start := fun heq => hunlink (heq ▸ rfl)
    rw [FileOp.apply, LogDir.file_removeFile, if_neg hk]
    exact ⟨raw, hraw⟩

/-- The reader under a step on the files. -/
theorem ReaderOk.filed {entries : List (Entry π)} {op : LogOp π} {f : FileOp} {rest : List FileOp} (hw : Writes z c w)
    (hpending : w.pending = some (op, f :: rest)) (h : ReaderOk z c entries w w.reader) :
    ReaderOk z c entries { w with dir := f.apply w.dir, reader := w.reader.after w.dir f, pending := some (op, rest) }
      (w.reader.after w.dir f) := by
  have hspan : ∀ {sp e}, SpanOk z c w sp e → SpanOk z c
      { w with dir := f.apply w.dir, reader := w.reader.after w.dir f, pending := some (op, rest) } sp e :=
    fun hsp => hsp.filed hw hpending _
  cases hr : w.reader with
  | resolving =>
    rw [hr] at h hspan
    obtain ⟨es, hes, hrest⟩ := h
    exact ⟨es, hes, ResolvedOk.mono hrest fun sp _ e hsp => hspan hsp⟩
  | done result =>
    rw [hr] at h
    exact h
  | opened hd span rest' out =>
    rw [hr] at h hspan
    obtain ⟨e, es, hes, hhandle, hrest⟩ := h
    refine ⟨e, es, hes, ?_, ResolvedOk.mono hrest fun sp _ e hsp => hspan hsp⟩
    cases hd with
    | orphan raw => exact hhandle
    | named start =>
      have hstay : (∀ bytes, f ≠ .rename start bytes) → f ≠ .unlink start → HandleOk z c
          { w with dir := f.apply w.dir, reader := (Reader.opened (.named start) span rest' out).after w.dir f
                   pending := some (op, rest) } span e (.named start) :=
        fun hrename hunlink => ⟨hhandle.1, file_apply hhandle.2.1 hrename hunlink, hspan hhandle.2.2⟩
      cases f with
      | create | write | createEmpty => exact hstay nofun nofun
      | rename start' bytes =>
        by_cases hk : start = start'
        · simp only [Handle.after, if_pos hk]
          exact hhandle.orphaned
        · simp only [Handle.after, if_neg hk] at hstay ⊢
          exact hstay (fun _ heq => hk (by cases heq; rfl)) nofun
      | unlink start' =>
        by_cases hk : start = start'
        · simp only [Handle.after, if_pos hk]
          exact hhandle.orphaned
        · simp only [Handle.after, if_neg hk] at hstay ⊢
          exact hstay nofun fun heq => hk (by cases heq; rfl)

/-- A file that has lost the record of an entry has lost the entry. -/
theorem SpanOk.not_held (h : SpanOk z c w span e) (hw : Writes z c w) (hnone : w.dir.file span.segStart = none) :
    span.index ∉ w.held := by
  rcases h.unlinked hnone with hcut | hlt
  · exact h.taken hcut
  · exact hw.not_held hlt

theorem HandleOk.read {hd : Handle} (h : HandleOk z c w span e hd) :
    readSpan z c (hd.content w.dir) span = .ok e ∨
      readSpan z c (hd.content w.dir) span = .error .unexpectedEof ∧ e.index ∉ w.held := by
  cases hd with
  | named start =>
    have hh := h.orphaned
    exact hh.2.imp Yields.readSpan fun hshort => ⟨readSpan_short hshort.1, by rw [hh.1]; exact hshort.2⟩
  | orphan raw => exact h.2.imp Yields.readSpan fun hshort => ⟨readSpan_short hshort.1, by rw [h.1]; exact hshort.2⟩

/-- A step of the reader itself. -/
theorem ReaderOk.read {entries : List (Entry π)} {r : Reader π} (hw : Writes z c w) (h : ReaderOk z c entries w r) :
    ReaderOk z c entries w (r.step z c w.dir) := by
  cases r with
  | done result => exact h
  | resolving rest out =>
    obtain ⟨es, rfl, hrest⟩ := h
    cases hrest with
    | nil => exact .inl (by rw [List.append_nil])
    | @cons r e rest es hr hrest =>
      cases r with
      | ram e' =>
        obtain rfl : e' = e := hr
        exact ⟨es, by simp, hrest⟩
      | disk span =>
        simp only [Reader.step]
        cases hfile : w.dir.file span.segStart with
        | none => exact .inr ⟨_, rfl, e, by simp, by rw [SpanOk.index hr]; exact SpanOk.not_held hr hw hfile⟩
        | some raw => exact ⟨e, es, rfl, ⟨rfl, ⟨raw, hfile⟩, hr⟩, hrest⟩
  | opened hd span rest out =>
    obtain ⟨e, es, rfl, hhandle, hrest⟩ := h
    simp only [Reader.step]
    rcases hhandle.read with hok | ⟨herr, hnot⟩
    · rw [hok]
      exact ⟨es, by simp, hrest⟩
    · rw [herr]
      exact .inr ⟨_, rfl, e, by simp, hnot⟩

/-! ## Runs -/

variable (z c) in
structure Inv (entries : List (Entry π)) (w : World π) : Prop where
  writes : Writes z c w
  reader : ReaderOk z c entries w w.reader

/-- Every turn keeps the invariant. -/
theorem Inv.turn {entries : List (Entry π)} {t : Turn π} (h : Inv z c entries w) (hserves : w.Serves t) (hclear : w.Clear t)
    (hturn : w.turn z c t = some w') : Inv z c entries w' := by
  cases t with
  | begin op =>
    obtain ⟨hidle, hop, rfl⟩ := turn_begin hturn
    refine ⟨(h.writes.begun hidle hop hserves).1, h.reader.mono (fun span hsp e hspan => ?_) (fun _ hraw => hraw) fun i hi => ?_⟩
    · exact hspan.begun h.writes hidle hop hserves hsp hclear
    · exact (List.mem_filter.mp hi).1
  | file =>
    obtain ⟨op, f, rest, hpending, rfl⟩ := turn_file hturn
    exact ⟨h.writes.filed hpending _, h.reader.filed h.writes hpending⟩
  | finish =>
    obtain ⟨op, store, hpending, hstep, rfl⟩ := turn_finish hturn
    refine ⟨h.writes.finished hpending hstep, h.reader.mono (fun span _ e hspan => hspan.finished h.writes hpending hstep)
      (fun k hraw => ?_) fun i hi => hi⟩
    have hafter : w.after z c = store := by simp [World.after, hpending, hstep]
    have hsegs : w.dir.segs = store.dir.segs := hafter ▸ (h.writes.busy op _ hpending).2.2
    show ∃ raw, store.dir.file k = some raw
    simpa only [LogDir.file, hsegs] using hraw
  | read =>
    obtain rfl := Option.some.inj hturn
    have hsame : ∀ {sp e}, SpanOk z c w sp e → SpanOk z c { w with reader := w.reader.step z c w.dir } sp e :=
      fun hsp => ⟨hsp.index, hsp.start_le, hsp.pos, hsp.place, hsp.known, hsp.taken, hsp.file, hsp.unlinked, hsp.kept, hsp.uncut⟩
    refine ⟨⟨h.writes.store, h.writes.idle, h.writes.busy, h.writes.held⟩, ?_⟩
    exact (h.reader.read h.writes).mono (fun _ _ _ hsp => hsame hsp) (fun _ hraw => hraw) fun _ hi => hi

theorem Inv.run {entries : List (Entry π)} {turns : List (Turn π)} (h : Inv z c entries w)
    (hserves : w.Along z c World.Serves turns) (hclear : w.Along z c World.Clear turns)
    (hrun : w.run z c turns = some w') : Inv z c entries w' := by
  induction turns generalizing w with
  | nil =>
    obtain rfl := Option.some.inj hrun
    exact h
  | cons t ts ih =>
    rw [World.run, List.foldlM_cons] at hrun
    obtain ⟨w₁, hturn, hrest⟩ := Option.bind_eq_some_iff.mp hrun
    exact ih (h.turn hserves.1 hclear.1 hturn) (hserves.2 w₁ hturn) (hclear.2 w₁ hturn) hrest

/-- The lookup finds the entries of the range, each with its copy or with its record in its file. -/
theorem Inv.lookup {s : RaftLogStore π} {m : MemLogStore π} (h : Refines z c s m) (start stop : Bound) :
    Inv z c (m.tryGetLogEntries start stop) (.lookup s m start stop) := by
  have hheld : ∀ i ∈ (m.tryGetLogEntries start stop).map (·.index), ∃ e, (i, e) ∈ m.log := by
    intro i hi
    obtain ⟨e, he, rfl⟩ := List.mem_map.mp hi
    unfold MemLogStore.tryGetLogEntries at he
    split at he
    · cases he
    · obtain ⟨⟨k, e'⟩, hq, rfl⟩ := List.mem_map.mp he
      have hmem := (List.mem_filter.mp hq).1
      obtain ⟨p, -, hbacks⟩ := exists_left h.backs.flip hmem
      exact ⟨e', by rw [hbacks.index, hbacks.key]; exact hmem⟩
  refine ⟨⟨h, fun _ => rfl, nofun, hheld⟩, ?_⟩
  show ReaderOk z c _ _ (Reader.lookup s start stop)
  unfold Reader.lookup MemLogStore.tryGetLogEntries
  cases clampLogRange start stop with
  | none => exact .inl rfl
  | some bounds =>
    obtain ⟨lo, hi⟩ := bounds
    refine ⟨_, rfl, ?_⟩
    rw [List.forall₂_map_left_iff, List.forall₂_map_right_iff]
    have hrange : List.Forall₂ (fun p q => p ∈ s.inner.log ∧ Backs z c s.dir p q) (s.inner.log.range lo hi) (m.log.range lo hi) :=
      List.rel_filter (fun p q hpq => by simp [hpq.2.key]) ((List.forall₂_and_left _ _).mpr ⟨fun _ hp => hp, h.backs⟩)
    refine hrange.imp fun p q ⟨hp, hbacks⟩ => ?_
    unfold Stored.resolved
    rcases hbacks.copy with hnone | hsome
    · rw [hnone]
      obtain ⟨raw, hraw, hreads⟩ := hbacks.record
      obtain ⟨e, he, -⟩ := h.reads hp
      refine ⟨hbacks.index, hbacks.start_le, hbacks.pos, fun _ st hst => ?_, fun _ => .inl ⟨e, he⟩, nofun,
        fun raw' hraw' => .inl ?_, fun hno => ?_, nofun, nofun⟩
      · have heq : p = (p.1, st) := h.unique hp hst rfl
        have hst : st = p.2 := (congrArg Prod.snd heq).symm
        rw [hst]
        rfl
      · have hsame : some raw = some raw' := hraw.symm.trans hraw'
        exact Option.some.inj hsame ▸ hreads
      · have hsame : some raw = none := hraw.symm.trans hno
        cases hsame
    · rw [hsome]
      rfl

end

/-! ## Order -/

/-- The entries stand one behind the other, and their leader terms go up. -/
def Steady (entries : List (Entry π)) : Prop := entries.IsChain fun a b => b.index = a.index + 1 ∧ a.logId.term ≤ b.logId.term

/-- The leader terms of a log go up. -/
def MemLogStore.Rising (m : MemLogStore π) : Prop := m.log.Pairwise fun p q => p.2.logId.term ≤ q.2.logId.term

theorem Ranked.le {term : Nat} {es : List (Entry π)} (h : Ranked term es) : ∀ e ∈ es, term ≤ e.logId.term := by
  induction es generalizing term with
  | nil => simp
  | cons e es ih =>
    intro e' he'
    rcases List.mem_cons.mp he' with rfl | he'
    · exact h.1
    · exact h.1.trans (ih h.2 e' he')

theorem Ranked.pairwise {term : Nat} {es : List (Entry π)} (h : Ranked term es) :
    es.Pairwise fun a b => a.logId.term ≤ b.logId.term := by
  induction es generalizing term with
  | nil => exact .nil
  | cons e es ih => exact .cons h.2.le (ih h.2)

theorem term_le_last {log : BTreeMap (Entry π)} (h : log.Pairwise fun p q => p.2.logId.term ≤ q.2.logId.term) {p : Nat × Entry π}
    (hp : p ∈ log) : p.2.logId.term ≤ (log.getLast?.map (·.2.logId.term)).getD 0 := by
  rcases List.eq_nil_or_concat log with rfl | ⟨log, q, rfl⟩
  · cases hp
  · rw [List.concat_eq_append] at h hp ⊢
    rw [List.getLast?_concat]
    rcases List.mem_append.mp hp with hp | hp
    · exact (List.pairwise_append.mp h).2.2 p hp q (List.mem_singleton_self q)
    · obtain rfl := List.mem_singleton.mp hp
      exact Nat.le_refl _

theorem MemLogStore.Rising.step {m : MemLogStore π} (h : m.Rising) (hdense : Dense m) {op : LogOp π} (hserved : Served m op) :
    (m.step op).Rising := by
  cases op with
  | append entries =>
    have hlog : (m.append entries).log = m.log ++ entries.map fun e => (e.index, e) := (hdense.append hserved.1).2
    have hranked : Ranked ((m.log.getLast?.map (·.2.logId.term)).getD 0) entries := hserved.2
    show (m.append entries).log.Pairwise _
    rw [hlog, List.pairwise_append, List.pairwise_map]
    refine ⟨h, hranked.pairwise, fun p hp q hq => ?_⟩
    obtain ⟨e, he, rfl⟩ := List.mem_map.mp hq
    exact (term_le_last h hp).trans (hranked.le e he)
  | truncate logId | purge logId => exact List.Pairwise.filter _ h
  | saveCommitted | saveVote | flush | reopen => exact h

theorem ServedRun.legal {m : MemLogStore π} {ops : List (LogOp π)} (h : ServedRun m ops) : LegalRun m ops := by
  induction ops generalizing m with
  | nil => trivial
  | cons op ops ih => exact ⟨h.1.1, ih h.2⟩

theorem MemLogStore.Rising.run {m : MemLogStore π} (h : m.Rising) (hdense : Dense m) {ops : List (LogOp π)}
    (hserved : ServedRun m ops) : (m.run ops).Rising := by
  induction ops generalizing m with
  | nil => exact h
  | cons op ops ih => exact ih (h.step hdense hserved.1) (hdense.step hserved.1.1) hserved.2

/-- The entries of a range of the log stand one behind the other. -/
theorem Dense.steady {m : MemLogStore π} (h : Dense m) (hrising : m.Rising) (start stop : Bound) :
    Steady (m.tryGetLogEntries start stop) := by
  have hchain : ∀ {log : BTreeMap (Entry π)} {first : Nat}, log.map (·.1) = List.range' first log.length →
      (log.Pairwise fun p q => p.2.logId.term ≤ q.2.logId.term) →
      log.IsChain fun p q => q.1 = p.1 + 1 ∧ p.2.logId.term ≤ q.2.logId.term := by
    intro log
    induction log with
    | nil => exact fun _ _ => .nil
    | cons p log ih =>
      intro first hkeys hterms
      rw [List.map_cons, List.length_cons, List.range'_succ] at hkeys
      obtain ⟨hp, htail⟩ := List.cons.inj hkeys
      obtain ⟨hle, hrest⟩ := List.pairwise_cons.mp hterms
      cases log with
      | nil => exact .singleton p
      | cons q log =>
        refine .cons_cons ⟨?_, hle q List.mem_cons_self⟩ (ih htail hrest)
        rw [List.map_cons, List.length_cons, List.range'_succ] at htail
        rw [(List.cons.inj htail).1, hp]
  unfold MemLogStore.tryGetLogEntries
  cases clampLogRange start stop with
  | none => exact .nil
  | some bounds =>
    obtain ⟨lo, hi⟩ := bounds
    have hsorted : m.log.Pairwise fun p q => p.1 < q.1 := by
      refine List.pairwise_map.mp ?_
      show (m.log.map (·.1)).Pairwise (· < ·)
      rw [h.consecutive]
      exact List.pairwise_lt_range'
    have hrange : m.log.range lo hi = (m.log.filter (lo ≤ ·.1)).filter (·.1 < hi + 1) := by
      rw [BTreeMap.range, List.filter_filter]
      refine List.filter_congr fun p _ => ?_
      rw [Bool.and_comm, decide_eq_decide.mpr Nat.lt_succ_iff, ← Bool.decide_and]
    have hslice : m.log.filter (·.1 < lo) ++ (m.log.range lo hi ++ (m.log.filter (lo ≤ ·.1)).filter (hi + 1 ≤ ·.1)) = m.log := by
      rw [hrange, split_at (hsorted.filter fun p => lo ≤ p.1) (hi + 1), split_at hsorted lo]
    have hall := hchain h.consecutive hrising
    rw [← hslice] at hall
    have hkeys : ∀ p ∈ m.log.range lo hi, p.1 = p.2.index := fun p hp => h.keys p (List.mem_filter.mp hp).1
    refine (List.isChain_map Prod.snd).mpr (hall.right_of_append.left_of_append.imp_of_mem_imp fun p q hp hq hpq => ?_)
    rw [← hkeys p hp, ← hkeys q hq]
    exact hpq

/-- A call beside the writer returns what the log held at the lookup, or fails because an entry has left the log, if no
append begins while the call has still to read a record that a truncate has taken. -/
theorem read_of_lookup (z : Deflate) (c : EntryCodec π) (config : LogConfig) {ops : List (LogOp π)} (hops : ServedRun {} ops)
    (start stop : Bound) {w₀ w : World π} (hlookup : World.ofLookup z c config ops start stop = .ok w₀) {turns : List (Turn π)}
    (hserves : w₀.Along z c World.Serves turns) (hclear : w₀.Along z c World.Clear turns) (hrun : w₀.run z c turns = some w)
    {result : Except IoError (List (Entry π))} (hresult : w.result = some result) :
    Steady ((({} : MemLogStore π).run ops).tryGetLogEntries start stop) ∧
      (result = .ok ((({} : MemLogStore π).run ops).tryGetLogEntries start stop) ∨
        ∃ err, result = .error err ∧ ∃ e ∈ (({} : MemLogStore π).run ops).tryGetLogEntries start stop, e.index ∉ w.held) := by
  obtain ⟨s₀, hopen, h₀, hlast, hcommitted, hvote⟩ := open_empty (z := z) (c := c) {} rfl config
  obtain ⟨s, hrun', hrefines⟩ := run_spec ⟨[], _, h₀, ⟨rfl, hlast.symm, hcommitted.symm, hvote.symm⟩⟩ hops.legal
  obtain rfl : World.lookup s (({} : MemLogStore π).run ops) start stop = w₀ := by
    simpa [World.ofLookup, hopen, hrun', bind, Except.bind, pure, Except.pure] using hlookup
  have hempty : Dense ({} : MemLogStore π) := ⟨by simp, rfl⟩
  have hrising : ({} : MemLogStore π).Rising := .nil
  refine ⟨(hempty.run hops.legal).steady (hrising.run hempty hops) start stop, ?_⟩
  have hreader := ((Inv.lookup hrefines start stop).run hserves hclear hrun).reader
  obtain hdone : w.reader = .done result := by
    unfold World.result at hresult
    split at hresult
    · next heq => exact heq.trans (congrArg Reader.done (Option.some.inj hresult))
    · cases hresult
  rw [hdone] at hreader
  exact hreader

/-! ### Beside a new leader -/

/-- A log of the first leader; of its entries only the newest is in memory. -/
def restartedLog : List (LogOp Unit) := [.append [entryAt 1 0, entryAt 1 1, entryAt 1 2], .reopen { ramBudget := 1 }]

/-- A new leader replaces the entries from index 1 on; the call has opened its file before. -/
def openedBefore : List (Turn Unit) :=
  [Turn.begin (LogOp.truncate ⟨1, 1, 1⟩), .read, .file, .finish, .begin (.append [entryAt 2 1])] ++ List.replicate 76 Turn.file ++
    [Turn.finish, .read, .read, .read]

/-- The same, and the call opens its file when the new record is in it. -/
def openedAfter : List (Turn Unit) :=
  [Turn.begin (LogOp.truncate ⟨1, 1, 1⟩), .file, .finish, .begin (.append [entryAt 2 1])] ++ List.replicate 76 Turn.file ++
    [Turn.finish, .read, .read, .read, .read]

def blankLookup (start stop : Bound) : Except IoError (World Unit) :=
  World.ofLookup storedDeflate blankCodec {} restartedLog start stop

theorem World.Along.imp {P Q : World π → Turn π → Prop} (h : ∀ w t, P w t → Q w t) {w : World π} {turns : List (Turn π)}
    (hw : w.Along z c P turns) : w.Along z c Q turns := by
  induction turns generalizing w with
  | nil => trivial
  | cons t ts ih => exact ⟨h w t hw.1, fun w' hturn => ih (hw.2 w' hturn)⟩

/-- A run that was computed. -/
theorem exists_run (P : World Unit → Turn Unit → Prop) [∀ w t, Decidable (P w t)] (start stop : Bound) (turns : List (Turn Unit))
    (result : Except IoError (List (Entry Unit)))
    (h : (blankLookup start stop).toOption.any fun w₀ => decide (w₀.Along storedDeflate blankCodec P turns) &&
      decide ((w₀.run storedDeflate blankCodec turns).bind World.result = some result)) :
    ∃ w₀ w, blankLookup start stop = .ok w₀ ∧ w₀.Along storedDeflate blankCodec P turns ∧
      w₀.run storedDeflate blankCodec turns = some w ∧ w.result = some result := by
  cases hlookup : blankLookup start stop with
  | error err =>
    rw [hlookup] at h
    cases h
  | ok w₀ =>
    simp only [hlookup, Except.toOption, Option.any_some, Bool.and_eq_true, decide_eq_true_eq] at h
    obtain ⟨w, hrun, hresult⟩ := Option.bind_eq_some_iff.mp h.2
    exact ⟨w₀, w, rfl, h.1, hrun, hresult⟩

/-- The open file keeps what the truncate takes. -/
theorem read_of_lookup_opened :
    ∃ w₀ w, blankLookup (.included 1) .unbounded = .ok w₀ ∧ w₀.run storedDeflate blankCodec openedBefore = some w ∧
      w.result = some (.ok [entryAt 1 1, entryAt 1 2]) ∧ Steady [entryAt 1 1, entryAt 1 2] := by
  obtain ⟨w₀, w, hlookup, hboth, hrun, hresult⟩ :=
    exists_run (fun w t => w.Serves t ∧ w.Clear t) (.included 1) .unbounded openedBefore (.ok [entryAt 1 1, entryAt 1 2])
      (by decide +kernel)
  have hheld : (({} : MemLogStore Unit).run restartedLog).tryGetLogEntries (.included 1) .unbounded =
      [entryAt 1 1, entryAt 1 2] := by
    decide +kernel
  obtain ⟨hsteady, -⟩ := read_of_lookup storedDeflate blankCodec {} (by decide : ServedRun {} restartedLog) (.included 1)
    .unbounded hlookup (hboth.imp fun _ _ => And.left) (hboth.imp fun _ _ => And.right) hrun hresult
  exact ⟨w₀, w, hlookup, hrun, hresult, hheld ▸ hsteady⟩

/-- The call returns the new leader's entry at index 1 and the old one's behind it. -/
theorem read_across_truncate :
    ServedRun {} restartedLog ∧ ∃ w₀ w es, blankLookup (.included 1) .unbounded = .ok w₀ ∧
      w₀.Along storedDeflate blankCodec World.Serves openedAfter ∧ w₀.run storedDeflate blankCodec openedAfter = some w ∧
      w.result = some (.ok es) ∧ es = [entryAt 2 1, entryAt 1 2] ∧ ¬ Steady es := by
  obtain ⟨w₀, w, hlookup, hserves, hrun, hresult⟩ :=
    exists_run World.Serves (.included 1) .unbounded openedAfter (.ok [entryAt 2 1, entryAt 1 2]) (by decide +kernel)
  refine ⟨by decide, w₀, w, _, hlookup, hserves, hrun, hresult, rfl, fun hsteady => ?_⟩
  have hpair := (List.isChain_cons_cons.mp hsteady).1.2
  exact absurd hpair (by decide)

end NanoBpm.Raft.LogStore
