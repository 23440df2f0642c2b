import Mathlib.Data.List.Sort
import NanoBpm.Seglog.Segment

/-!
# The Raft log stores (`raft_logstore.rs`, `raft.rs:361-453`)

The durable store keeps the log of a partition in segment files, one record an entry: a plaintext JSON line or a compressed
frame. In memory it has an index with the place of every record and a copy of the newer entries. The in-memory store is one
map. A `BTreeMap` is the list of its entries in the order of their keys.
-/

namespace NanoBpm.Raft.LogStore

open Seglog (Bytes Deflate frameMagic frameHeaderLen frameBytes fromLe32 newline splitLine isAsciiWhitespace)

/-! ## Entries -/

structure LogId where
  term : Nat
  nodeId : Nat
  index : Nat
deriving DecidableEq, Inhabited

/-- `openraft`'s `Entry`, with any payload. -/
structure Entry (π : Type) where
  logId : LogId
  payload : π
deriving DecidableEq

def Entry.index {π : Type} (e : Entry π) : Nat := e.logId.index

structure Vote where
  term : Nat
  nodeId : Nat
  committed : Bool
deriving DecidableEq

inductive IoError where
  | truncatedFrameHeader
  | truncatedFrameBody
  | unterminatedLine
  | corruptStream
  | malformedJson
  | unexpectedEof
  | notFound
deriving DecidableEq

/-- `serde_json` on the entries of a log: what is written can be read, is an object and has no control characters. -/
structure EntryCodec (π : Type) where
  toVec : Entry π → Bytes
  fromSlice : Bytes → Except IoError (Entry π)
  fromSlice_toVec : ∀ e, fromSlice (toVec e) = .ok e
  toVec_printable : ∀ e, ∀ b ∈ toVec e, 32 ≤ b
  toVec_head : ∀ e, (toVec e).head? = some 0x7B

/-! ## `BTreeMap` -/

abbrev BTreeMap (α : Type) := List (Nat × α)

namespace BTreeMap

variable {α : Type}

def insert (k : Nat) (v : α) : BTreeMap α → BTreeMap α
  | [] => [(k, v)]
  | (k', v') :: m =>
    if k < k' then (k, v) :: (k', v') :: m else if k = k' then (k, v) :: m else (k', v') :: insert k v m

/-- What `split_off` leaves in the map. -/
def below (m : BTreeMap α) (k : Nat) : BTreeMap α := m.filter (·.1 < k)

/-- What `split_off` returns. -/
def splitOff (m : BTreeMap α) (k : Nat) : BTreeMap α := m.filter (k ≤ ·.1)

def range (m : BTreeMap α) (lo hi : Nat) : BTreeMap α := m.filter fun p => lo ≤ p.1 ∧ p.1 ≤ hi

end BTreeMap

/-! ## Ranges (`raft.rs:342`) -/

inductive Bound where
  | included (i : Nat)
  | excluded (i : Nat)
  | unbounded

/-- `u64::MAX`. -/
def u64Max : Nat := 2 ^ 64 - 1

def clampLogRange (start stop : Bound) : Option (Nat × Nat) := do
  let lo ← match start with
    | .included i => some i
    | .excluded i => if i < u64Max then some (i + 1) else none
    | .unbounded => some 0
  let hi ← match stop with
    | .included i => some i
    | .excluded i => if 0 < i then some (i - 1) else none
    | .unbounded => some u64Max
  if lo ≤ hi then some (lo, hi) else none

structure LogState where
  lastPurgedLogId : Option LogId
  lastLogId : Option LogId
deriving DecidableEq

variable {π : Type}

/-! ## The store in memory (`raft.rs:311-453`) -/

structure MemLogStore (π : Type) where
  log : BTreeMap (Entry π) := []
  lastPurged : Option LogId := none
  committed : Option LogId := none
  vote : Option Vote := none

namespace MemLogStore

def tryGetLogEntries (s : MemLogStore π) (start stop : Bound) : List (Entry π) :=
  match clampLogRange start stop with
  | none => []
  | some (lo, hi) => (s.log.range lo hi).map (·.2)

def getLogState (s : MemLogStore π) : LogState where
  lastPurgedLogId := s.lastPurged
  lastLogId := (s.log.getLast?.map (·.2.logId)).or s.lastPurged

def append (s : MemLogStore π) (entries : List (Entry π)) : MemLogStore π :=
  { s with log := entries.foldl (fun log e => log.insert e.index e) s.log }

def truncate (s : MemLogStore π) (logId : LogId) : MemLogStore π := { s with log := s.log.below logId.index }

def purge (s : MemLogStore π) (logId : LogId) : MemLogStore π :=
  { s with lastPurged := some logId, log := s.log.splitOff (logId.index + 1) }

end MemLogStore

/-! ## Records (`raft_logstore.rs:316-400`) -/

/-- `MIN_COMPRESS_BYTES`. -/
def minCompressBytes : Nat := 1024

variable (z : Deflate) (c : EntryCodec π)

def frameEntry (json : Bytes) : Option Bytes :=
  if json.length < minCompressBytes then none
  else
    let comp := z.compress json
    if json.length < comp.length + frameHeaderLen then none
    -- `u32::try_from`
    else if 2 ^ 32 ≤ json.length ∨ 2 ^ 32 ≤ comp.length then none
    else some (frameBytes json.length comp)

/-- The record `append` writes for an entry. -/
def recordOf (compress : Bool) (e : Entry π) : Bytes :=
  let json := c.toVec e
  if compress then (frameEntry z json).getD (json ++ [newline]) else json ++ [newline]

def entryFromRecord (record : Bytes) : Except IoError (Entry π) :=
  if record.head? = some frameMagic then
    if record.length < frameHeaderLen then .error .truncatedFrameHeader
    else
      let compLen := fromLe32 (record.drop 6)
      if record.length < frameHeaderLen + compLen then .error .truncatedFrameBody
      else
        match z.inflate ((record.drop frameHeaderLen).take compLen) with
        | none => .error .corruptStream
        | some json => c.fromSlice json
  else c.fromSlice (if record.getLast? = some newline then record.dropLast else record)

/-! ## Scanning a segment (`raft_logstore.rs:405-476`) -/

structure ScannedEntry (π : Type) where
  index : Nat
  logId : LogId
  offset : Nat
  len : Nat
  ramLen : Nat
  entry : Entry π

/-- The length of the record at the head, and whether it is a frame. -/
def recordLen (raw : Bytes) : Except IoError (Nat × Bool) :=
  if raw.head? = some frameMagic then
    if raw.length < frameHeaderLen then .error .truncatedFrameHeader
    else
      let len := frameHeaderLen + fromLe32 (raw.drop 6)
      if raw.length < len then .error .truncatedFrameBody else .ok (len, true)
  else
    match splitLine raw with
    | some (line, _) => .ok (line.length, false)
    | none => .error .unterminatedLine

/-- The loop of `scan_segment` from offset `i` on; every turn consumes at least one byte. -/
def scanLoop : Nat → Nat → Bytes → Except IoError (List (ScannedEntry π))
  | 0, _, _ => .ok []
  | fuel + 1, i, raw =>
    if raw.isEmpty then .ok []
    else do
      let (len, isFrame) ← recordLen raw
      let record := raw.take len
      if !isFrame && record.all isAsciiWhitespace then scanLoop fuel (i + len) (raw.drop len)
      else
        let entry ← entryFromRecord z c record
        let ramLen := if isFrame then (c.toVec entry).length + 1 else len
        let rest ← scanLoop fuel (i + len) (raw.drop len)
        return { index := entry.index, logId := entry.logId, offset := i, len, ramLen, entry } :: rest

def scanSegment (raw : Bytes) : Except IoError (List (ScannedEntry π) × Nat) :=
  (·, raw.length) <$> scanLoop z c raw.length 0 raw

/-! ## The directory -/

/-- The segment files by the index in their names, `vote.json`, and the markers in `state.json`. -/
structure LogDir where
  segs : List (Nat × Bytes) := []
  vote : Option Vote := none
  lastPurged : Option LogId := none
  committed : Option LogId := none

namespace LogDir

def file (dir : LogDir) (start : Nat) : Option Bytes := dir.segs.lookup start

/-- `OpenOptions::create(true).append(true)`. -/
def openAppend (dir : LogDir) (start : Nat) : LogDir :=
  if dir.segs.any (·.1 = start) then dir else { dir with segs := dir.segs ++ [(start, [])] }

def write (dir : LogDir) (start : Nat) (bytes : Bytes) : LogDir :=
  { dir with segs := dir.segs.map fun (s, raw) => if s = start then (s, raw ++ bytes) else (s, raw) }

/-- `atomic_write` on a segment. -/
def replace (dir : LogDir) (start : Nat) (bytes : Bytes) : LogDir :=
  { dir with segs := dir.segs.map fun (s, raw) => if s = start then (s, bytes) else (s, raw) }

def removeFile (dir : LogDir) (start : Nat) : LogDir := { dir with segs := dir.segs.filter (·.1 ≠ start) }

/-- `OpenOptions::create(true).write(true).truncate(true)`. -/
def createEmpty (dir : LogDir) (start : Nat) : LogDir := (dir.openAppend start).replace start []

end LogDir

/-! ## The store on disk (`raft_logstore.rs:243-256`, `:484-550`) -/

structure Stored (π : Type) where
  logId : LogId
  len : Nat
  ramLen : Nat
  segStart : Nat
  offset : Nat
  entry : Option (Entry π)

structure SegMeta where
  start : Nat
  last : Option Nat
deriving DecidableEq

/-- What the environment sets, read at `open`. -/
structure LogConfig where
  compress : Bool := false
  segMaxBytes : Nat := 64 * 2 ^ 20
  ramBudget : Nat := 64 * 2 ^ 20

structure Inner (π : Type) where
  /-- The segment that the append handle is open on. -/
  activeFile : Nat
  segments : List SegMeta
  activeBytes : Nat
  log : BTreeMap (Stored π)
  ramBytes : Nat
  demoteScanFrom : Nat
  lastPurged : Option LogId
  committed : Option LogId
  vote : Option Vote
  stateDirty : Bool
  config : LogConfig

/-- A store that is open. -/
structure RaftLogStore (π : Type) where
  dir : LogDir
  inner : Inner π

namespace Inner

variable (inner : Inner π)

/-- The loop of `enforce_ram_budget`; every turn demotes one entry. -/
def demote (newest : Option Nat) : Nat → Nat → BTreeMap (Stored π) → Nat → BTreeMap (Stored π) × Nat × Nat
  | 0, cursor, log, ramBytes => (log, ramBytes, cursor)
  | fuel + 1, cursor, log, ramBytes =>
    if ramBytes ≤ inner.config.ramBudget then (log, ramBytes, cursor)
    else
      match log.find? fun p => cursor ≤ p.1 && p.2.entry.isSome with
      | none => (log, ramBytes, cursor)
      | some (idx, s) =>
        if some idx = newest then (log, ramBytes, cursor)
        else demote newest fuel (idx + 1)
          (log.map fun p => if p.1 = idx then (p.1, { p.2 with entry := none }) else p) (ramBytes - s.ramLen)

def enforceRamBudget : Inner π :=
  if inner.config.ramBudget = 0 ∨ inner.ramBytes ≤ inner.config.ramBudget then inner
  else
    let newest := inner.log.getLast?.map (·.1)
    let (log, ramBytes, cursor) :=
      inner.demote newest inner.log.length inner.demoteScanFrom inner.log inner.ramBytes
    { inner with log, ramBytes, demoteScanFrom := cursor }

end Inner

namespace RaftLogStore

/-! ### Opening (`raft_logstore.rs:805-918`) -/

/-- What the scan of the segments has put together. -/
structure Replayed (π : Type) where
  log : BTreeMap (Stored π) := []
  ramTotal : Nat := 0
  segments : List SegMeta := []
  activeBytes : Nat := 0
  removed : List Nat := []

/-- The records of a segment: all but the purged ones go into the index. -/
def replayRecords (purgedUpto : Option Nat) (start : Nat) (r : Replayed π) (records : List (ScannedEntry π)) :
    Replayed π :=
  records.foldl (fun r x =>
    if purgedUpto.all (· < x.index) then
      { r with
        ramTotal := r.ramTotal + x.ramLen
        log := r.log.insert x.index ⟨x.logId, x.len, x.ramLen, start, x.offset, some x.entry⟩ }
    else r) r

/-- The loop over the segments, in the order of their names. -/
def replaySegments (purgedUpto : Option Nat) : Replayed π → List (Nat × Bytes) → Except IoError (Replayed π)
  | r, [] => .ok r
  | r, (start, raw) :: rest => do
    let (records, segBytes) ← scanSegment z c raw
    let last := records.getLast?.map (·.index)
    let r := replayRecords purgedUpto start r records
    let fullyPurged := last.any fun l => purgedUpto.any (l ≤ ·)
    if fullyPurged && !rest.isEmpty then
      replaySegments purgedUpto { r with removed := r.removed ++ [start] } rest
    else
      let activeBytes := if rest.isEmpty then segBytes else r.activeBytes
      replaySegments purgedUpto { r with activeBytes, segments := r.segments ++ [⟨start, last⟩] } rest

def «open» (config : LogConfig) (dir : LogDir) : Except IoError (RaftLogStore π) := do
  let purgedUpto := dir.lastPurged.map (·.index)
  let r ← replaySegments z c purgedUpto {} (dir.segs.insertionSort fun a b => a.1 ≤ b.1)
  let segments := if r.segments.isEmpty then [⟨0, none⟩] else r.segments
  let activeFile := (segments.getLast?.map (·.start)).getD 0
  let dir := (r.removed.foldl LogDir.removeFile dir).openAppend activeFile
  let inner : Inner π :=
    { activeFile, segments, activeBytes := r.activeBytes, log := r.log, ramBytes := r.ramTotal, demoteScanFrom := 0
      lastPurged := dir.lastPurged, committed := dir.committed, vote := dir.vote, stateDirty := false, config }
  return { dir, inner := inner.enforceRamBudget }

variable (s : RaftLogStore π)

/-! ### Reading (`raft_logstore.rs:1035-1145`) -/

def readEntryAt (segStart offset len : Nat) : Except IoError (Entry π) :=
  match s.dir.file segStart with
  | none => .error .notFound
  | some raw =>
    if raw.length < offset + len then .error .unexpectedEof else entryFromRecord z c ((raw.drop offset).take len)

/-- An entry of the index: its copy, or the record on disk. -/
def resolve (stored : Stored π) : Except IoError (Entry π) :=
  match stored.entry with
  | some e => .ok e
  | none => s.readEntryAt z c stored.segStart stored.offset stored.len

def tryGetLogEntries (start stop : Bound) : Except IoError (List (Entry π)) :=
  match clampLogRange start stop with
  | none => .ok []
  | some (lo, hi) => ((s.inner.log.range lo hi).map (·.2)).mapM (s.resolve z c)

def getLogState : LogState where
  lastPurgedLogId := s.inner.lastPurged
  lastLogId := (s.inner.log.getLast?.map (·.2.logId)).or s.inner.lastPurged

/-! ### Appending (`raft_logstore.rs:1174-1290`) -/

/-- `roll_active`. -/
def rollActive (start : Nat) : RaftLogStore π where
  dir := s.dir.openAppend start
  inner := { s.inner with
    activeFile := start
    activeBytes := 0
    segments := s.inner.segments ++ [⟨start, none⟩] }

/-- `segments.last_mut()`. -/
def setLast (index : Nat) : List SegMeta → List SegMeta
  | [] => []
  | [seg] => [{ seg with last := some index }]
  | seg :: rest => seg :: setLast index rest

/-- The roll in front of a record of `len` bytes. -/
def rolled (len index : Nat) : RaftLogStore π :=
  if 0 < s.inner.activeBytes ∧ s.inner.config.segMaxBytes < s.inner.activeBytes + len then s.rollActive index else s

/-- The record goes to the active segment and into the index. -/
def writeRecord (line : Bytes) (e : Entry π) : RaftLogStore π :=
  let ramLen := (c.toVec e).length + 1
  let segStart := (s.inner.segments.getLast?.map (·.start)).getD e.index
  { dir := s.dir.write s.inner.activeFile line
    inner := { s.inner with
      activeBytes := s.inner.activeBytes + line.length
      segments := setLast e.index s.inner.segments
      log := s.inner.log.insert e.index ⟨e.logId, line.length, ramLen, segStart, s.inner.activeBytes, some e⟩
      ramBytes := s.inner.ramBytes + ramLen } }

/-- One turn of the loop of `append`. -/
def appendEntry (e : Entry π) : RaftLogStore π :=
  let line := recordOf z c s.inner.config.compress e
  (s.rolled line.length e.index).writeRecord c line e

def append (entries : List (Entry π)) : RaftLogStore π :=
  let s := entries.foldl (fun s e => appendEntry z c s e) s
  { s with inner := s.inner.enforceRamBudget }

/-! ### Truncating (`raft_logstore.rs:957-1018`, `:1292-1316`) -/

/-- `rewrite_after_truncate`. -/
def rewriteAfterTruncate (since : Nat) : RaftLogStore π :=
  let kept := s.inner.segments.filter (·.start < since)
  let dir := (s.inner.segments.filter (since ≤ ·.start)).foldl (fun dir seg => dir.removeFile seg.start) s.dir
  match kept.getLast? with
  | none =>
    { dir := dir.createEmpty since
      inner := { s.inner with activeFile := since, activeBytes := 0, segments := [⟨since, none⟩] } }
  | some active =>
    let survivors := s.inner.log.filter (active.start ≤ ·.1)
    let cut := (survivors.getLast?.map fun p => p.2.offset + p.2.len).getD 0
    let existing := (dir.file active.start).getD []
    let cut := min cut existing.length
    { dir := dir.replace active.start (existing.take cut)
      inner := { s.inner with
        activeFile := active.start
        activeBytes := cut
        segments := kept.dropLast ++ [{ active with last := survivors.getLast?.map (·.1) }] } }

def truncate (logId : LogId) : RaftLogStore π :=
  let removed := s.inner.log.splitOff logId.index
  let removedRam := ((removed.filter (·.2.entry.isSome)).map (·.2.ramLen)).sum
  rewriteAfterTruncate
    { s with inner := { s.inner with log := s.inner.log.below logId.index, ramBytes := s.inner.ramBytes - removedRam } }
    logId.index

/-! ### Purging and the markers (`raft_logstore.rs:1318-1405`) -/

def persistState : RaftLogStore π :=
  { s with dir := { s.dir with lastPurged := s.inner.lastPurged, committed := s.inner.committed } }

/-- A sealed segment that the purge takes. -/
def fullyPurged (upto : Nat) (seg : SegMeta) : Bool := seg.last.any (· ≤ upto)

def purge (logId : LogId) : RaftLogStore π :=
  let dropped := s.inner.log.below (logId.index + 1)
  let droppedRam := ((dropped.filter (·.2.entry.isSome)).map (·.2.ramLen)).sum
  let sealedSegs := s.inner.segments.dropLast
  let active := s.inner.segments.getLast?.toList
  let dir := (sealedSegs.filter (fullyPurged logId.index)).foldl (fun dir seg => dir.removeFile seg.start) s.dir
  persistState
    { dir
      inner := { s.inner with
        lastPurged := some logId
        log := s.inner.log.splitOff (logId.index + 1)
        ramBytes := s.inner.ramBytes - droppedRam
        segments := sealedSegs.filter (!fullyPurged logId.index ·) ++ active
        stateDirty := false } }

/-- `deferred`: the durability is asynchronous for now, or the marker is deferred. -/
def saveCommitted (committed : Option LogId) (deferred : Bool) : RaftLogStore π :=
  let s := { s with inner := { s.inner with committed } }
  if deferred then { s with inner := { s.inner with stateDirty := true } } else s.persistState

def saveVote (vote : Vote) : RaftLogStore π :=
  { dir := { s.dir with vote := some vote }, inner := { s.inner with vote := some vote } }

/-- `flush_async`, of the background flusher and of `Drop`: the markers are persisted if they are dirty. -/
def flush : RaftLogStore π :=
  if s.inner.stateDirty then { s.persistState with inner := { s.inner with stateDirty := false } } else s

end RaftLogStore

/-! ## Runs -/

inductive LogOp (π : Type) where
  | append (entries : List (Entry π))
  | truncate (logId : LogId)
  | purge (logId : LogId)
  | saveCommitted (committed : Option LogId) (deferred : Bool)
  | saveVote (vote : Vote)
  /-- A tick of the background flusher. -/
  | flush
  /-- A clean close and an open, with what the environment then says. -/
  | reopen (config : LogConfig)

def MemLogStore.step (s : MemLogStore π) : LogOp π → MemLogStore π
  | .append entries => s.append entries
  | .truncate logId => s.truncate logId
  | .purge logId => s.purge logId
  | .saveCommitted committed _ => { s with committed }
  | .saveVote vote => { s with vote := some vote }
  | .flush => s
  | .reopen _ => s

def RaftLogStore.step (s : RaftLogStore π) : LogOp π → Except IoError (RaftLogStore π)
  | .append entries => .ok (s.append z c entries)
  | .truncate logId => .ok (s.truncate logId)
  | .purge logId => .ok (s.purge logId)
  | .saveCommitted committed deferred => .ok (s.saveCommitted committed deferred)
  | .saveVote vote => .ok (s.saveVote vote)
  | .flush => .ok s.flush
  | .reopen config => RaftLogStore.open z c config s.flush.dir

def MemLogStore.run (s : MemLogStore π) (ops : List (LogOp π)) : MemLogStore π := ops.foldl step s

def RaftLogStore.run (s : RaftLogStore π) (ops : List (LogOp π)) : Except IoError (RaftLogStore π) :=
  ops.foldlM (RaftLogStore.step z c) s

end NanoBpm.Raft.LogStore
