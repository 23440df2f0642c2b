import Mathlib.Logic.Relation
import NanoBpm.Raft.LogStoreCrash

/-!
# Readers beside the writer (`raft_logstore.rs:1057-1137`)

`try_get_log_entries` looks the places of its entries up under the lock and reads the files after it has released
it, while the log's one writer goes on. Here an operation of the writer changes the directory in small steps, and the
reader opens and reads its files anywhere between them.

Main results: a call returns what the log held at the lookup, or fails because an entry has left the log, as long as
nothing is appended while the call still has to read a record that a truncate has taken (`read_of_lookup`); without
that, what it returns can even go back in term (`read_across_truncate`).
-/

namespace NanoBpm.Raft.LogStore

open Seglog (Bytes Deflate storedDeflate)

variable {π : Type}

/-! ## The writer's steps -/

/-- One change of a segment file that others can see. -/
inductive FileOp where
  /-- `OpenOptions::create(true).append(true)`. -/
  | create (start : Nat)
  | write (start : Nat) (byte : UInt8)
  /-- `OpenOptions::create(true).write(true).truncate(true)`. -/
  | createEmpty (start : Nat)
  /-- The last step of `atomic_write`. -/
  | rename (start : Nat) (bytes : Bytes)
  | unlink (start : Nat)

def FileOp.apply (dir : LogDir) : FileOp → LogDir
  | .create start => dir.openAppend start
  | .write start byte => dir.write start [byte]
  | .createEmpty start => dir.createEmpty start
  | .rename start bytes => dir.replace start bytes
  | .unlink start => dir.removeFile start

variable (z : Deflate) (c : EntryCodec π)

namespace RaftLogStore

/-- The file steps of one turn of the loop of `append`. -/
def appendEntryFiles (s : RaftLogStore π) (e : Entry π) : List FileOp :=
  let line := recordOf z c s.inner.config.compress e
  let rolls := 0 < s.inner.activeBytes ∧ s.inner.config.segMaxBytes < s.inner.activeBytes + line.length
  (if rolls then [.create e.index] else []) ++
    line.map (.write (s.rolled line.length e.index).inner.activeFile)

def appendFiles (s : RaftLogStore π) : List (Entry π) → List FileOp
  | [] => []
  | e :: es => s.appendEntryFiles z c e ++ appendFiles (s.appendEntry z c e) es

/-- The file steps of `rewrite_after_truncate`. -/
def truncateFiles (s : RaftLogStore π) (since : Nat) : List FileOp :=
  let unlinks := (s.inner.segments.filter (since ≤ ·.start)).map fun seg => FileOp.unlink seg.start
  match (s.inner.segments.filter (·.start < since)).getLast? with
  | none => unlinks ++ [.createEmpty since]
  | some active =>
    let survivors := (s.inner.log.below since).filter (active.start ≤ ·.1)
    let cut := (survivors.getLast?.map fun p => p.2.offset + p.2.len).getD 0
    let existing := ((unlinks.foldl FileOp.apply s.dir).file active.start).getD []
    unlinks ++ [.rename active.start (existing.take (min cut existing.length))]

def purgeFiles (s : RaftLogStore π) (upto : Nat) : List FileOp :=
  (s.inner.segments.dropLast.filter (fullyPurged upto)).map fun seg => .unlink seg.start

/-- What an operation does to the segment files, step by step. -/
def fileOps (s : RaftLogStore π) : LogOp π → List FileOp
  | .append entries => s.appendFiles z c entries
  | .truncate logId => s.truncateFiles logId.index
  | .purge logId => s.purgeFiles logId.index
  | .saveCommitted .. | .saveVote _ | .flush | .reopen _ => []

end RaftLogStore

/-! ## The reader's steps -/

/-- The place of a record, as a reader looks it up. -/
structure Span where
  index : Nat
  segStart : Nat
  offset : Nat
  len : Nat
deriving DecidableEq

/-- `Resolved` (raft_logstore.rs:1069). -/
inductive Resolved (π : Type) where
  | ram (e : Entry π)
  | disk (span : Span)

def Stored.resolved (index : Nat) (stored : Stored π) : Resolved π :=
  match stored.entry with
  | some e => .ram e
  | none => .disk ⟨index, stored.segStart, stored.offset, stored.len⟩

/-- An open file: still under its name, or replaced or unlinked since. -/
inductive Handle where
  | named (start : Nat)
  | orphan (raw : Bytes)

/-- The handle after a step of the writer on the directory. -/
def Handle.after (dir : LogDir) : Handle → FileOp → Handle
  | .named start, .rename start' _ | .named start, .unlink start' =>
    if start = start' then .orphan ((dir.file start).getD []) else .named start
  | h, _ => h

def Handle.content (dir : LogDir) : Handle → Bytes
  | .named start => (dir.file start).getD []
  | .orphan raw => raw

/-- `seek`, `read_exact` and `entry_from_record` (raft_logstore.rs:1043). -/
def readSpan (raw : Bytes) (span : Span) : Except IoError (Entry π) :=
  if raw.length < span.offset + span.len then .error .unexpectedEof
  else entryFromRecord z c ((raw.drop span.offset).take span.len)

/-- A call of `try_get_log_entries` after its lookup. -/
inductive Reader (π : Type) where
  | resolving (rest : List (Resolved π)) (out : List (Entry π))
  | opened (h : Handle) (span : Span) (rest : List (Resolved π)) (out : List (Entry π))
  | done (result : Except IoError (List (Entry π)))

namespace Reader

/-- The lookup, under the lock. -/
def lookup (s : RaftLogStore π) (start stop : Bound) : Reader π :=
  match clampLogRange start stop with
  | none => .done (.ok [])
  | some (lo, hi) => .resolving ((s.inner.log.range lo hi).map fun p => p.2.resolved p.1) []

/-- The next step of the loop over the lookup. -/
def step (dir : LogDir) : Reader π → Reader π
  | .resolving [] out => .done (.ok out)
  | .resolving (.ram e :: rest) out => .resolving rest (out ++ [e])
  | .resolving (.disk span :: rest) out =>
    match dir.file span.segStart with
    | none => .done (.error .notFound)
    | some _ => .opened (.named span.segStart) span rest out
  | .opened h span rest out =>
    match readSpan z c (h.content dir) span with
    | .ok e => .resolving rest (out ++ [e])
    | .error err => .done (.error err)
  | .done result => .done result

/-- The reader after a step of the writer. -/
def after (dir : LogDir) (f : FileOp) : Reader π → Reader π
  | .opened h span rest out => .opened (h.after dir f) span rest out
  | r => r

def spans : List (Resolved π) → List Span
  | [] => []
  | .ram _ :: rest => spans rest
  | .disk span :: rest => span :: spans rest

/-- The records that are still to be read from a file that has its name. -/
def unread : Reader π → List Span
  | .resolving rest _ => spans rest
  | .opened (.named _) span rest _ => span :: spans rest
  | .opened (.orphan _) _ rest _ => spans rest
  | .done _ => []

end Reader

/-! ## One call beside the writer -/

/-- The record is there, as far as the length of its file tells. -/
def LogDir.reaches (dir : LogDir) (span : Span) : Bool :=
  (dir.file span.segStart).any fun raw => decide (span.offset + span.len ≤ raw.length)

structure World (π : Type) where
  /-- The store as the last operation that is complete left it. -/
  store : RaftLogStore π
  dir : LogDir
  /-- The operation that has the lock, and what it has still to do to the files. -/
  pending : Option (LogOp π × List FileOp) := none
  reader : Reader π
  /-- History: the log that the operations begun so far make. -/
  mem : MemLogStore π
  /-- History: the records that a truncate has taken before the reader read them. -/
  cut : List Span := []
  /-- History: the indices that the log has held ever since the lookup. -/
  held : List Nat := []

/-- What a truncate takes of the records still to be read: those of removed entries, and those it cuts off. -/
def World.taken (w : World π) (logId : LogId) : List Span :=
  w.reader.unread.filter fun span =>
    logId.index ≤ span.index || (w.dir.reaches span && !(w.store.truncate logId).dir.reaches span)

inductive Turn (π : Type) where
  | begin (op : LogOp π)
  | file
  | finish
  | read

namespace World

/-- A turn; a restart is none. -/
def turn (w : World π) : Turn π → Option (World π)
  | .begin op =>
    match w.pending, op with
    | some _, _ | none, .reopen _ => none
    | none, op =>
      let mem := w.mem.step op
      let cut := match op with
        | .truncate logId => w.cut ++ w.taken logId
        | _ => w.cut
      some { w with
        pending := some (op, w.store.fileOps z c op), mem, cut
        held := w.held.filter fun i => mem.log.any (·.1 = i) }
  | .file =>
    match w.pending with
    | some (op, f :: rest) =>
      some { w with dir := f.apply w.dir, reader := w.reader.after w.dir f, pending := some (op, rest) }
    | _ => none
  | .finish =>
    match w.pending with
    | some (op, []) =>
      match w.store.step z c op with
      -- the markers in `state.json` go with it
      | .ok store => some { w with store, dir := store.dir, pending := none }
      | .error _ => none
    | _ => none
  | .read => some { w with reader := w.reader.step z c w.dir }

def run (w : World π) (turns : List (Turn π)) : Option (World π) := turns.foldlM (turn z c) w

/-- The world right after the lookup of a call. -/
def lookup (s : RaftLogStore π) (m : MemLogStore π) (start stop : Bound) : World π where
  store := s
  dir := s.dir
  reader := .lookup s start stop
  mem := m
  held := (m.tryGetLogEntries start stop).map (·.index)

/-- The world right after the lookup of a call, on a log that was opened empty. -/
def ofLookup (config : LogConfig) (ops : List (LogOp π)) (start stop : Bound) : Except IoError (World π) := do
  let s₀ ← RaftLogStore.open z c config {}
  let s ← s₀.run z c ops
  return .lookup s (({} : MemLogStore π).run ops) start stop

/-- What the call has returned, once it has. -/
def result (w : World π) : Option (Except IoError (List (Entry π))) :=
  match w.reader with
  | .done result => some result
  | _ => none

end World

/-- What holds at every turn of a run. -/
def World.Along (P : World π → Turn π → Prop) (w : World π) : List (Turn π) → Prop
  | [] => True
  | t :: ts => P w t ∧ ∀ w', w.turn z c t = some w' → World.Along P w' ts

instance World.decidableAlong (P : World π → Turn π → Prop) [∀ w t, Decidable (P w t)] :
    (w : World π) → (turns : List (Turn π)) → Decidable (w.Along z c P turns)
  | _, [] => .isTrue trivial
  | w, t :: ts =>
    match h : w.turn z c t with
    | none => decidable_of_iff (P w t) ⟨fun hp => ⟨hp, fun _ h' => nomatch h.symm.trans h'⟩, And.left⟩
    | some w' =>
      have := World.decidableAlong P w' ts
      decidable_of_iff (P w t ∧ w'.Along z c P ts)
        ⟨fun hp => ⟨hp.1, fun _ h' => Option.some.inj (h.symm.trans h') ▸ hp.2⟩, fun hp => ⟨hp.1, hp.2 w' h⟩⟩

/-- The leader terms go up from `term` on. -/
def Ranked (term : Nat) : List (Entry π) → Prop
  | [] => True
  | e :: es => term ≤ e.logId.term ∧ Ranked e.logId.term es

instance decidableRanked : (term : Nat) → (es : List (Entry π)) → Decidable (Ranked term es)
  | _, [] => .isTrue trivial
  | _, e :: es =>
    have := decidableRanked e.logId.term es
    inferInstanceAs (Decidable (_ ∧ _))

instance decidableConsecutive : (next : Nat) → (es : List (Entry π)) → Decidable (Consecutive next es)
  | _, [] => .isTrue trivial
  | next, _ :: es =>
    have := decidableConsecutive (next + 1) es
    inferInstanceAs (Decidable (_ ∧ _))

/-- What `openraft` promises the store: entries follow the log in index and in leader term, purges go forward, and what is
purged is not truncated. -/
def Served (m : MemLogStore π) (op : LogOp π) : Prop :=
  Legal m op ∧
    match op with
    | .append entries => Ranked ((m.log.getLast?.map (·.2.logId.term)).getD 0) entries
    | .truncate logId => baseOf m.lastPurged ≤ logId.index
    | _ => True

instance decidableLegal (m : MemLogStore π) : (op : LogOp π) → Decidable (Legal m op)
  | .append entries => decidableConsecutive m.nextIndex entries
  | .purge _ => Nat.decLe _ _
  | .truncate _ | .saveCommitted .. | .saveVote _ | .flush | .reopen _ => .isTrue trivial

instance decidableServed (m : MemLogStore π) (op : LogOp π) : Decidable (Served m op) :=
  match op with
  | .append _ | .truncate _ => inferInstanceAs (Decidable (_ ∧ _))
  | .purge _ | .saveCommitted .. | .saveVote _ | .flush | .reopen _ => inferInstanceAs (Decidable (_ ∧ True))

def ServedRun (m : MemLogStore π) : List (LogOp π) → Prop
  | [] => True
  | op :: ops => Served m op ∧ ServedRun (m.step op) ops

instance decidableServedRun : (m : MemLogStore π) → (ops : List (LogOp π)) → Decidable (ServedRun m ops)
  | _, [] => .isTrue trivial
  | m, op :: ops =>
    have := decidableServedRun (m.step op) ops
    inferInstanceAs (Decidable (_ ∧ _))

def World.Serves (w : World π) : Turn π → Prop
  | .begin op => Served w.mem op
  | _ => True

instance (w : World π) (t : Turn π) : Decidable (w.Serves t) :=
  match t with
  | .begin op => decidableServed w.mem op
  | .file | .finish | .read => .isTrue trivial

/-- No append begins while the call has still to read a record that a truncate has taken. -/
def World.Clear (w : World π) : Turn π → Prop
  | .begin (.append _) => ∀ span ∈ w.reader.unread, span ∉ w.cut
  | _ => True

instance (w : World π) (t : Turn π) : Decidable (w.Clear t) :=
  match t with
  | .begin (.append _) => inferInstanceAs (Decidable (∀ _ ∈ _, _))
  | .begin (.truncate _) | .begin (.purge _) | .begin (.saveCommitted ..) | .begin (.saveVote _) | .begin .flush
  | .begin (.reopen _) | .file | .finish | .read => .isTrue trivial

/-! ## Without a writer -/

section

variable {z : Deflate} {c : EntryCodec π}

/-- The reader gets somewhere in some steps. -/
def Reader.Leads (z : Deflate) (c : EntryCodec π) (dir : LogDir) (r r' : Reader π) : Prop :=
  Relation.ReflTransGen (fun a b => b = a.step z c dir) r r'

theorem Reader.leads_resolving (s : RaftLogStore π) (log : BTreeMap (Stored π)) (out : List (Entry π)) :
    Reader.Leads z c s.dir (.resolving (log.map fun p => p.2.resolved p.1) out)
      (.done (((log.map (·.2)).mapM (s.resolve z c)).map (out ++ ·))) := by
  induction log generalizing out with
  | nil => exact .single (by simp [Reader.step, Except.map, pure, Except.pure])
  | cons p log ih =>
    obtain ⟨i, st⟩ := p
    have hok : ∀ e, s.resolve z c st = .ok e →
        ((((i, st) :: log).map (·.2)).mapM (s.resolve z c)).map (out ++ ·) =
          ((log.map (·.2)).mapM (s.resolve z c)).map ((out ++ [e]) ++ ·) := by
      intro e he
      rw [List.map_cons, List.mapM_cons, he]
      cases (log.map (·.2)).mapM (s.resolve z c) <;> simp [bind, Except.bind, Except.map, pure, Except.pure]
    have herror : ∀ err, s.resolve z c st = .error err →
        ((((i, st) :: log).map (·.2)).mapM (s.resolve z c)).map (out ++ ·) = .error err := by
      intro err herr
      rw [List.map_cons, List.mapM_cons, herr]
      rfl
    show Reader.Leads z c s.dir (.resolving (st.resolved i :: log.map fun p => p.2.resolved p.1) out) _
    cases hentry : st.entry with
    | some e =>
      have hram : st.resolved i = .ram e := by simp [Stored.resolved, hentry]
      rw [hok e (by simp [RaftLogStore.resolve, hentry]), hram]
      exact .head rfl (ih (out ++ [e]))
    | none =>
      have hdisk : st.resolved i = .disk ⟨i, st.segStart, st.offset, st.len⟩ := by simp [Stored.resolved, hentry]
      have hresolve : s.resolve z c st = s.readEntryAt z c st.segStart st.offset st.len := by simp [RaftLogStore.resolve, hentry]
      rw [hdisk]
      cases hfile : s.dir.file st.segStart with
      | none =>
        rw [herror .notFound (by simp [hresolve, RaftLogStore.readEntryAt, hfile])]
        exact .single (by simp [Reader.step, hfile])
      | some raw =>
        have hstep : ∀ rest, Reader.step z c s.dir (.opened (.named st.segStart) ⟨i, st.segStart, st.offset, st.len⟩ rest out) =
            match s.resolve z c st with
            | .ok e => .resolving rest (out ++ [e])
            | .error err => .done (.error err) := by
          intro rest
          simp only [hresolve, Reader.step, Handle.content, readSpan, RaftLogStore.readEntryAt, hfile, Option.getD_some]
        have hopen : ∀ rest, Reader.step z c s.dir (.resolving (.disk ⟨i, st.segStart, st.offset, st.len⟩ :: rest) out) =
            .opened (.named st.segStart) ⟨i, st.segStart, st.offset, st.len⟩ rest out := by
          intro rest
          simp [Reader.step, hfile]
        refine .head (hopen _).symm (.head (hstep _).symm ?_)
        cases hread : s.resolve z c st with
        | error err =>
          rw [herror err hread]
        | ok e =>
          rw [hok e hread]
          exact ih (out ++ [e])

/-- A call with no operation beside it is `try_get_log_entries`. -/
theorem Reader.leads_lookup (s : RaftLogStore π) (start stop : Bound) :
    Reader.Leads z c s.dir (.lookup s start stop) (.done (s.tryGetLogEntries z c start stop)) := by
  unfold Reader.lookup RaftLogStore.tryGetLogEntries
  cases clampLogRange start stop with
  | none => exact .refl
  | some bounds =>
    have hleads := leads_resolving (z := z) (c := c) s (s.inner.log.range bounds.1 bounds.2) []
    have hid : ∀ r : Except IoError (List (Entry π)), r.map ([] ++ ·) = r := fun r => by cases r <;> rfl
    rw [hid] at hleads
    exact hleads

end

/-! ## Files -/

namespace LogDir

variable (dir : LogDir) (k start : Nat)

theorem lookup_map_snd (f : Nat × Bytes → Bytes) (segs : List (Nat × Bytes)) :
    (segs.map fun p => (p.1, f p)).lookup k = (segs.lookup k).map fun raw => f (k, raw) := by
  induction segs with
  | nil => rfl
  | cons p segs ih =>
    obtain ⟨s, raw⟩ := p
    simp only [List.map_cons, List.lookup_cons]
    by_cases hk : k = s
    · simp [hk]
    · have hne : (k == s) = false := by simpa using hk
      simp only [hne, ih]

theorem file_write (bytes : Bytes) :
    (dir.write start bytes).file k = if k = start then (dir.file k).map (· ++ bytes) else dir.file k := by
  have h : (dir.write start bytes).segs = dir.segs.map fun p => (p.1, if p.1 = start then p.2 ++ bytes else p.2) :=
    List.map_congr_left fun p _ => by by_cases hp : p.1 = start <;> simp [hp]
  rw [file, h, lookup_map_snd k fun p => if p.1 = start then p.2 ++ bytes else p.2]
  by_cases hk : k = start <;> simp [hk, file]

theorem file_replace (bytes : Bytes) :
    (dir.replace start bytes).file k = if k = start then (dir.file k).map fun _ => bytes else dir.file k := by
  have h : (dir.replace start bytes).segs = dir.segs.map fun p => (p.1, if p.1 = start then bytes else p.2) :=
    List.map_congr_left fun p _ => by by_cases hp : p.1 = start <;> simp [hp]
  rw [file, h, lookup_map_snd k fun p => if p.1 = start then bytes else p.2]
  by_cases hk : k = start <;> simp [hk, file]

theorem lookup_filter_of_ne (segs : List (Nat × Bytes)) (h : k ≠ start) :
    (segs.filter (·.1 ≠ start)).lookup k = segs.lookup k := by
  induction segs with
  | nil => rfl
  | cons p segs ih =>
    obtain ⟨s, raw⟩ := p
    by_cases hs : s = start
    · have hk : (k == s) = false := by simpa [hs] using h
      rw [List.filter_cons_of_neg (by simp [hs]), ih, List.lookup_cons, hk]
    · rw [List.filter_cons_of_pos (by simpa using hs), List.lookup_cons, List.lookup_cons, ih]

theorem file_removeFile : (dir.removeFile start).file k = if k = start then none else dir.file k := by
  by_cases hk : k = start
  · rw [if_pos hk, file, List.lookup_eq_none_iff]
    intro p hp
    have hne := (List.mem_filter.mp hp).2
    simp only [decide_eq_true_eq] at hne
    simpa [hk] using fun heq : start = p.1 => hne heq.symm
  · rw [if_neg hk]
    exact lookup_filter_of_ne k start dir.segs hk

theorem lookup_eq_none_of_any {segs : List (Nat × Bytes)} (h : segs.any (·.1 = start) = false) : segs.lookup start = none := by
  rw [List.lookup_eq_none_iff]
  intro p hp
  have := List.any_eq_false.mp h p hp
  simpa using fun heq : start = p.1 => this (by simpa using heq.symm)

theorem file_openAppend :
    (dir.openAppend start).file k = if k = start then some ((dir.file k).getD []) else dir.file k := by
  unfold openAppend
  by_cases hany : dir.segs.any (·.1 = start) = true
  · rw [if_pos hany]
    by_cases hk : k = start
    · subst hk
      rw [if_pos rfl]
      cases hfile : dir.file k with
      | some raw => rfl
      | none =>
        obtain ⟨p, hp, heq⟩ := List.any_eq_true.mp hany
        have := List.lookup_eq_none_iff.mp hfile p hp
        simp_all
    · rw [if_neg hk]
  · rw [if_neg hany]
    have hnone := lookup_eq_none_of_any start (Bool.eq_false_iff.mpr hany)
    simp only [file, List.lookup_append]
    by_cases hk : k = start
    · subst hk
      simp [hnone]
    · have : (k == start) = false := by simpa using hk
      simp [hk, List.lookup_cons, this]

theorem file_createEmpty : (dir.createEmpty start).file k = if k = start then some [] else dir.file k := by
  unfold createEmpty
  rw [file_replace, file_openAppend]
  by_cases hk : k = start <;> simp [hk]

end LogDir

/-! ## What the steps of an operation add up to -/

section

variable {z : Deflate} {c : EntryCodec π}

theorem foldl_write (line : Bytes) (start : Nat) (dir : LogDir) :
    (line.map (FileOp.write start)).foldl FileOp.apply dir = dir.write start line := by
  induction line generalizing dir with
  | nil => simp [LogDir.write]
  | cons b line ih =>
    rw [List.map_cons, List.foldl_cons, ih]
    simp only [FileOp.apply, LogDir.write, List.map_map]
    refine congrArg (fun segs => { dir with segs }) (List.map_congr_left fun p _ => ?_)
    by_cases hp : p.1 = start <;> simp [hp]

theorem foldl_appendEntryFiles (s : RaftLogStore π) (e : Entry π) :
    (s.appendEntryFiles z c e).foldl FileOp.apply s.dir = (s.appendEntry z c e).dir := by
  unfold RaftLogStore.appendEntryFiles RaftLogStore.appendEntry RaftLogStore.writeRecord RaftLogStore.rolled
  dsimp only
  rw [List.foldl_append, foldl_write]
  split <;> rfl

theorem foldl_appendFiles (s : RaftLogStore π) (entries : List (Entry π)) :
    (s.appendFiles z c entries).foldl FileOp.apply s.dir = (s.append z c entries).dir := by
  have h : ∀ s : RaftLogStore π, (s.appendFiles z c entries).foldl FileOp.apply s.dir =
      (entries.foldl (fun s e => s.appendEntry z c e) s).dir := by
    induction entries with
    | nil => intro s; rfl
    | cons e es ih =>
      intro s
      rw [RaftLogStore.appendFiles, List.foldl_append, foldl_appendEntryFiles, ih, List.foldl_cons]
  exact h s

theorem foldl_unlinks (segs : List SegMeta) (dir : LogDir) :
    (segs.map fun seg => FileOp.unlink seg.start).foldl FileOp.apply dir =
      segs.foldl (fun dir seg => dir.removeFile seg.start) dir := by
  rw [List.foldl_map]
  rfl

theorem foldl_truncateFiles (s : RaftLogStore π) (logId : LogId) :
    (s.truncateFiles logId.index).foldl FileOp.apply s.dir = (s.truncate logId).dir := by
  unfold RaftLogStore.truncateFiles RaftLogStore.truncate RaftLogStore.rewriteAfterTruncate
  dsimp only
  cases (s.inner.segments.filter (·.start < logId.index)).getLast? with
  | none =>
    dsimp only
    rw [List.foldl_append, foldl_unlinks]
    rfl
  | some active =>
    dsimp only
    rw [List.foldl_append, foldl_unlinks]
    rfl

theorem segs_flush (s : RaftLogStore π) : s.flush.dir.segs = s.dir.segs := by
  unfold RaftLogStore.flush
  split <;> rfl

/-- The steps of an operation lead to the files it leaves. -/
theorem foldl_fileOps {s s' : RaftLogStore π} {op : LogOp π} (h : s.step z c op = .ok s') (hop : ∀ config, op ≠ .reopen config) :
    ((s.fileOps z c op).foldl FileOp.apply s.dir).segs = s'.dir.segs := by
  cases op with
  | append entries => cases h; exact congrArg LogDir.segs (foldl_appendFiles s entries)
  | truncate logId => cases h; exact congrArg LogDir.segs (foldl_truncateFiles s logId)
  | purge logId =>
    cases h
    rw [RaftLogStore.fileOps, RaftLogStore.purgeFiles, foldl_unlinks]
    rfl
  | saveCommitted committed deferred => cases h; cases deferred <;> rfl
  | saveVote vote => cases h; rfl
  | flush => cases h; exact (segs_flush s).symm
  | reopen config => exact absurd rfl (hop config)

/-! ### Appends only add, the others only take -/

/-- A step of an append; a new file has a name from `next` on. -/
def FileOp.Grows (next : Nat) : FileOp → Prop
  | .create start => next ≤ start
  | .write .. => True
  | _ => False

/-- A step of a truncate or a purge; a new file has a name from `base` on and is empty. -/
def FileOp.Shrinks (base : Nat) (dir : LogDir) : FileOp → Prop
  | .unlink _ => True
  | .createEmpty start => base ≤ start
  | .rename start bytes => ∀ raw, dir.file start = some raw → bytes <+: raw
  | _ => False

def ShrinkAll (base : Nat) (dir : LogDir) : List FileOp → Prop
  | [] => True
  | f :: fs => f.Shrinks base dir ∧ ShrinkAll base (f.apply dir) fs

theorem appendFiles_grows {entries : List (Entry π)} {next : Nat} (h : Consecutive next entries) (s : RaftLogStore π) :
    ∀ f ∈ s.appendFiles z c entries, f.Grows next := by
  induction entries generalizing s next with
  | nil => simp [RaftLogStore.appendFiles]
  | cons e es ih =>
    intro f hf
    rcases List.mem_append.mp hf with hf | hf
    · rcases List.mem_append.mp hf with hf | hf
      · split at hf
        · obtain rfl := List.mem_singleton.mp hf
          exact h.1.ge
        · cases hf
      · obtain ⟨b, -, rfl⟩ := List.mem_map.mp hf
        trivial
    · have hgrows := ih h.2 _ f hf
      cases f with
      | create start => exact Nat.le_of_succ_le hgrows
      | write => trivial
      | createEmpty | rename | unlink => exact hgrows

theorem ShrinkAll.append {base : Nat} {fs gs : List FileOp} {dir : LogDir} (hfs : ShrinkAll base dir fs)
    (hgs : ShrinkAll base (fs.foldl FileOp.apply dir) gs) : ShrinkAll base dir (fs ++ gs) := by
  induction fs generalizing dir with
  | nil => exact hgs
  | cons f fs ih => exact ⟨hfs.1, ih hfs.2 hgs⟩

theorem unlinks_shrink (base : Nat) (segs : List SegMeta) (dir : LogDir) :
    ShrinkAll base dir (segs.map fun seg => .unlink seg.start) := by
  induction segs generalizing dir with
  | nil => trivial
  | cons seg segs ih => exact ⟨trivial, ih _⟩

theorem truncateFiles_shrink {base since : Nat} (h : base ≤ since) (s : RaftLogStore π) :
    ShrinkAll base s.dir (s.truncateFiles since) := by
  unfold RaftLogStore.truncateFiles
  dsimp only
  split
  · exact (unlinks_shrink base _ _).append ⟨h, trivial⟩
  · refine (unlinks_shrink base _ _).append ⟨fun raw hraw => ?_, trivial⟩
    rw [hraw]
    exact List.take_prefix _ _

/-! ## Records under the steps -/

/-- The record of an entry is in the file. -/
def Yields (z : Deflate) (c : EntryCodec π) (raw : Bytes) (span : Span) (e : Entry π) : Prop :=
  span.offset + span.len ≤ raw.length ∧ entryFromRecord z c ((raw.drop span.offset).take span.len) = .ok e

variable {raw : Bytes} {span : Span} {e : Entry π} {dir : LogDir} {base : Nat} {f : FileOp}

theorem Yields.readSpan (h : Yields z c raw span e) : readSpan z c raw span = .ok e := by
  unfold LogStore.readSpan
  rw [if_neg (Nat.not_lt.mpr h.1), h.2]

theorem readSpan_short (h : raw.length < span.offset + span.len) : readSpan z c raw span = .error .unexpectedEof := if_pos h

theorem take_drop_extend {raw raw' : Bytes} {offset len : Nat} (h : raw <+: raw') (hlen : offset + len ≤ raw.length) :
    (raw'.drop offset).take len = (raw.drop offset).take len := by
  obtain ⟨more, rfl⟩ := h
  rw [List.drop_append_of_le_length (by omega), List.take_append_of_le_length (by rw [List.length_drop]; omega)]

theorem Yields.extend {raw' : Bytes} (h : Yields z c raw span e) (hpre : raw <+: raw') : Yields z c raw' span e :=
  ⟨h.1.trans hpre.length_le, by rw [take_drop_extend hpre h.1]; exact h.2⟩

theorem Yields.cut {raw' : Bytes} (h : Yields z c raw span e) (hpre : raw' <+: raw) (hlen : span.offset + span.len ≤ raw'.length) :
    Yields z c raw' span e :=
  ⟨hlen, by rw [← take_drop_extend hpre hlen]; exact h.2⟩

theorem reaches_iff : dir.reaches span = true ↔ ∃ raw, dir.file span.segStart = some raw ∧ span.offset + span.len ≤ raw.length := by
  simp [LogDir.reaches, Option.any_eq_true]

/-- The file of a name after a step of a truncate or a purge: the same, gone, a piece from its start, or empty. -/
theorem FileOp.Shrinks.file (h : f.Shrinks base dir) (k : Nat) :
    (f.apply dir).file k = dir.file k ∨ (f.apply dir).file k = none ∨
      (∃ bytes raw, dir.file k = some raw ∧ (f.apply dir).file k = some bytes ∧ bytes <+: raw) ∨
      (base ≤ k ∧ (f.apply dir).file k = some []) := by
  cases f with
  | create | write => exact h.elim
  | unlink start =>
    rw [FileOp.apply, LogDir.file_removeFile]
    split <;> simp
  | createEmpty start =>
    rw [FileOp.apply, LogDir.file_createEmpty]
    split
    · next hk => exact .inr (.inr (.inr ⟨hk ▸ h, rfl⟩))
    · exact .inl rfl
  | rename start bytes =>
    rw [FileOp.apply, LogDir.file_replace]
    split
    · next hk =>
      cases hfile : dir.file k with
      | none => exact .inl rfl
      | some raw => exact .inr (.inr (.inl ⟨bytes, raw, rfl, rfl, h raw (hk ▸ hfile)⟩))
    · exact .inl rfl

/-- A record that is gone stays gone. -/
theorem ShrinkAll.not_reaches {fs : List FileOp} (h : ShrinkAll base dir fs) (hpos : 0 < span.len)
    (hgone : dir.reaches span = false) : (fs.foldl FileOp.apply dir).reaches span = false := by
  induction fs generalizing dir with
  | nil => exact hgone
  | cons f fs ih =>
    refine ih h.2 (Bool.eq_false_iff.mpr fun hreaches => ?_)
    obtain ⟨raw', hraw', hlen⟩ := reaches_iff.mp hreaches
    rcases h.1.file span.segStart with hsame | hnone | ⟨bytes, raw, hraw, hbytes, hpre⟩ | ⟨-, hempty⟩
    · rw [hsame] at hraw'
      rw [reaches_iff.mpr ⟨raw', hraw', hlen⟩] at hgone
      cases hgone
    · rw [hnone] at hraw'
      cases hraw'
    · rw [hbytes] at hraw'
      cases hraw'
      rw [reaches_iff.mpr ⟨raw, hraw, hlen.trans hpre.length_le⟩] at hgone
      cases hgone
    · rw [hempty] at hraw'
      cases hraw'
      simp only [List.length_nil] at hlen
      omega

end

end NanoBpm.Raft.LogStore
