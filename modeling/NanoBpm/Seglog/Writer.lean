import NanoBpm.Event
import NanoBpm.Seglog.Mixed
import NanoBpm.Seglog.Store

/-!
# The group-committing writer (`journal.rs:366-519`, `seglog.rs:406-535`)

One thread owns the active segment. It blocks for the next message, drains what else is queued into a batch,
writes and syncs the batch, acknowledges and exports its requests, seals the segment if it has grown past its
threshold, and answers a rotate last. How the messages fall into batches is up to the scheduler: every cycle
sees as many of the queued messages as its `Cycle` says.

What the thread does that others can see is recorded as a trace of effects. An I/O error aborts the process,
so a cycle that fails is one whose effects stop somewhere, a write possibly half done.
-/

namespace NanoBpm

namespace Seglog

/-! ## Messages -/

/-- What `persist` sends: one newline-terminated line per event. -/
structure WriteRequest where
  records : List LineRecord
  partition : Nat
  /-- The command's events, on the shared multi-partition path only. -/
  eventsArc : Option (List Event)
  /-- The caller's channel. -/
  ack : Nat

def WriteRequest.bytes (r : WriteRequest) : Bytes := r.records.flatMap (·.bytes)

def WriteRequest.events (r : WriteRequest) : Nat := r.records.length

inductive WriterMsg where
  | write (req : WriteRequest)
  | rotate (reply : Nat)

inductive Effect where
  /-- `file.write_all`. -/
  | wrote (bytes : Bytes)
  /-- `file.sync_all`. -/
  | synced
  | acked (ack : Nat)
  | exported (partition : Nat) (events : List Event) (bytes : Nat)
  /-- The rename of a seal. -/
  | renamed (start : Nat)
  | replied (reply : Nat) (info : SealInfo)

structure WriterConfig where
  compress : Bool
  segmentBytes : Nat
  /-- The partitions with a wired exporter, when there is an exporter cell. -/
  exporter : Option (List Nat)

/-- `MAX_GROUP_BATCH`. -/
def maxGroupBatch : Nat := 8192

/-! ## Receiving a batch (`journal.rs:403-447`) -/

/-- The `try_recv` loop: at most `avail` messages are there, and a rotate ends it. -/
def drain : Nat → List WriteRequest → List WriterMsg → List WriteRequest × Option Nat × List WriterMsg
  | 0, batch, queue => (batch, none, queue)
  | avail + 1, batch, queue =>
    if batch.length < maxGroupBatch then
      match queue with
      | .write w :: rest => drain avail (batch ++ [w]) rest
      | .rotate reply :: rest => (batch, some reply, rest)
      | [] => (batch, none, [])
    else (batch, none, queue)

/-- How a cycle falls out. -/
structure Cycle where
  /-- How many messages `try_recv` finds. -/
  avail : Nat
  /-- How many more arrive during the linger, when there is one. -/
  lingerAvail : Nat
  /-- The best-effort writes of the size-based seal and of the rotate's. -/
  sizeSeal : SealWrites
  rotateSeal : SealWrites
  /-- The process ends after that many effects of the cycle, with that many bytes of a next write. -/
  aborts : Option (Nat × Nat)

/-- `none` while the queue is empty: `recv` blocks. -/
def receive (c : Cycle) : List WriterMsg → Option (List WriteRequest × Option Nat × List WriterMsg)
  | [] => none
  | .rotate reply :: rest => some ([], some reply, rest)
  | .write w :: rest =>
    let (batch, pending, rest) := drain c.avail [w] rest
    if pending.isNone && batch.length < maxGroupBatch then some (drain c.lingerAvail batch rest)
    else some (batch, pending, rest)

/-! ## One cycle -/

structure WriterLoop where
  queue : List WriterMsg
  files : Files UInt8
  shared : SegShared
  /-- `ActiveSegment::bytes`. -/
  bytes : Nat
  trace : List Effect := []
  aborted : Bool := false

/-- `deltas`: the events of a batch by partition. -/
def groupDeltas (numPartitions : Nat) (batch : List WriteRequest) : List Nat :=
  batch.foldl (fun deltas r =>
      if numPartitions > 0 ∧ r.partition < numPartitions then deltas.modify r.partition (· + r.events) else deltas)
    (List.replicate numPartitions 0)

/-- The batch as the segment holds it. -/
def groupBatch (compress : Bool) (batch : List WriteRequest) : Batch :=
  { compress, records := batch.flatMap (·.records) }

/-- `forward_shared_export`. -/
def forwardSharedExport (cfg : WriterConfig) (r : WriteRequest) : List Effect :=
  match r.eventsArc with
  | none => []
  | some events =>
    if events.isEmpty then []
    else
      match cfg.exporter with
      | none => []
      | some wired =>
        if r.partition ∈ wired then [.exported r.partition events (min r.bytes.length (2 ^ 32 - 1))] else []

/-- What a request of a durable batch gets. -/
def ackEffects (cfg : WriterConfig) (r : WriteRequest) : List Effect := .acked r.ack :: forwardSharedExport cfg r

def sealEffects (shared : SegShared) : List Effect :=
  .synced :: if shared.totalEvents = shared.activeStart then [] else [.renamed shared.activeStart]

/-- `ActiveSegment::seal`. -/
def WriterLoop.sealActive (s : WriterLoop) (writes : SealWrites) : WriterLoop × SealInfo :=
  let (files, shared, info) := sealSegment writes s.files s.shared
  ({ s with
    files, shared
    bytes := if s.shared.totalEvents = s.shared.activeStart then s.bytes else 0
    trace := s.trace ++ sealEffects s.shared }, info)

/-- `ActiveSegment::maybe_seal`. -/
def WriterLoop.maybeSeal (cfg : WriterConfig) (s : WriterLoop) (writes : SealWrites) : WriterLoop :=
  if s.bytes ≥ cfg.segmentBytes ∧ s.bytes > 0 then (s.sealActive writes).1 else s

/-- Write, sync, acknowledge and export a batch, then seal a segment that has grown too large. -/
def WriterLoop.commit (z : Deflate) (cfg : WriterConfig) (s : WriterLoop) (batch : List WriteRequest)
    (writes : SealWrites) : WriterLoop :=
  if batch.isEmpty then s
  else
    let written := (groupBatch cfg.compress batch).written z
    let events := (batch.map (·.events)).sum
    let s :=
      { s with
        files := s.files.append written
        bytes := s.bytes + written.length
        shared := s.shared.append events (groupDeltas s.shared.perPartitionTotal.length batch)
        trace := s.trace ++ (Effect.wrote written :: Effect.synced :: batch.flatMap (ackEffects cfg)) }
    s.maybeSeal cfg writes

/-- A rotate seals at the exact boundary and reports it. -/
def WriterLoop.answerRotate (s : WriterLoop) (writes : SealWrites) : Option Nat → WriterLoop
  | none => s
  | some reply =>
    let (s, info) := s.sealActive writes
    { s with trace := s.trace ++ [Effect.replied reply info] }

/-- The effects of a process that ends early. -/
def truncateEffects (effects : List Effect) (n torn : Nat) : List Effect :=
  effects.take n ++
    match effects[n]? with
    | some (.wrote b) => [.wrote (b.take torn)]
    | _ => []

/-- One turn of `writer_loop`. -/
def WriterLoop.cycle (z : Deflate) (cfg : WriterConfig) (s : WriterLoop) (c : Cycle) : WriterLoop :=
  if s.aborted then s
  else
    match receive c s.queue with
    | none => s
    | some (batch, pending, rest) =>
      let s' := (({ s with queue := rest } : WriterLoop).commit z cfg batch c.sizeSeal).answerRotate c.rotateSeal pending
      match c.aborts with
      | none => s'
      | some (n, torn) =>
        { s' with
          trace := s.trace ++ truncateEffects (s'.trace.drop s.trace.length) n torn
          aborted := true }

def WriterLoop.run (z : Deflate) (cfg : WriterConfig) (s : WriterLoop) (cycles : List Cycle) : WriterLoop :=
  cycles.foldl (·.cycle z cfg) s

/-! ## What the loop owes its callers -/

def writesOf (msgs : List WriterMsg) : List WriteRequest :=
  msgs.filterMap fun
    | .write r => some r
    | .rotate _ => none

/-- The events of the requests among `msgs`. -/
def eventsIn (msgs : List WriterMsg) : Nat := ((writesOf msgs).map (·.events)).sum

/-- The events partition `p`'s requests among `msgs` carry. -/
def eventsInOf (p : Nat) (msgs : List WriterMsg) : Nat :=
  (((writesOf msgs).filter (·.partition == p)).map (·.events)).sum

/-- The boundary after `before`, for a writer that started with the counters of `shared`. -/
def boundary (shared : SegShared) (before : List WriterMsg) : SealInfo where
  stop := shared.totalEvents + eventsIn before
  perPartitionEnd := shared.perPartitionTotal.zipIdx.map fun (n, p) => n + eventsInOf p before

/-- Every rotate among `msgs` with the messages queued before it, those of `before` included. -/
def rotatesAfter (before : List WriterMsg) : List WriterMsg → List (Nat × List WriterMsg)
  | [] => []
  | .write r :: msgs => rotatesAfter (before ++ [WriterMsg.write r]) msgs
  | .rotate reply :: msgs => (reply, before) :: rotatesAfter (before ++ [WriterMsg.rotate reply]) msgs

/-- The answers the rotates among `msgs` are due. -/
def answersAfter (shared : SegShared) (before msgs : List WriterMsg) : List (Nat × SealInfo) :=
  (rotatesAfter before msgs).map fun (reply, before) => (reply, boundary shared before)

/-! ## Reading a trace -/

def acksOf (trace : List Effect) : List Nat :=
  trace.filterMap fun
    | .acked ack => some ack
    | _ => none

def exportsOf (trace : List Effect) : List (Nat × List Event × Nat) :=
  trace.filterMap fun
    | .exported partition events bytes => some (partition, events, bytes)
    | _ => none

def repliesOf (trace : List Effect) : List (Nat × SealInfo) :=
  trace.filterMap fun
    | .replied reply info => some (reply, info)
    | _ => none

def diskStep (disk : Bytes × Bytes) : Effect → Bytes × Bytes
  | .wrote b => (disk.1 ++ b, disk.2)
  | .synced => (disk.1, disk.1)
  | _ => disk

/-- The bytes the loop has appended, and those of them that are synced. -/
def diskOf (trace : List Effect) : Bytes × Bytes := trace.foldl diskStep ([], [])

/-- What holds of a trace at any time. The acknowledged requests are the first of the queue, and they are among
those whose batches are synced and read back as sent; the exports follow the acknowledgements; the bytes written
are the batches of the first requests of the queue, the last one possibly cut; the rotates are answered in order,
each with its exact boundary. -/
structure Orderly (z : Deflate) (cfg : WriterConfig) (shared : SegShared) (queue : List WriterMsg)
    (trace : List Effect) : Prop where
  durable : ∃ groups : List (List WriteRequest), ∃ acked exported : List WriteRequest,
    exported <+: acked ∧ acked <+: groups.flatten ∧ groups.flatten <+: writesOf queue ∧
    (diskOf trace).2 = fileBytes z (groups.map (groupBatch cfg.compress)) ∧
    decodeSegmentBytes z (diskOf trace).2 = .ok (groups.flatten.flatMap (·.bytes)) ∧
    acksOf trace = acked.map (·.ack) ∧
    exportsOf trace = exportsOf (exported.flatMap (forwardSharedExport cfg))
  written : ∃ groups : List (List WriteRequest), groups.flatten <+: writesOf queue ∧
    (diskOf trace).1 <+: fileBytes z (groups.map (groupBatch cfg.compress))
  replies : repliesOf trace <+: answersAfter shared [] queue

/-! ## One effect at a time -/

theorem diskOf_concat (trace : List Effect) (e : Effect) : diskOf (trace ++ [e]) = diskStep (diskOf trace) e := by
  rw [diskOf, List.foldl_append]
  rfl

@[simp] theorem acksOf_append (s t : List Effect) : acksOf (s ++ t) = acksOf s ++ acksOf t := List.filterMap_append

@[simp] theorem exportsOf_append (s t : List Effect) : exportsOf (s ++ t) = exportsOf s ++ exportsOf t :=
  List.filterMap_append

@[simp] theorem repliesOf_append (s t : List Effect) : repliesOf (s ++ t) = repliesOf s ++ repliesOf t :=
  List.filterMap_append

@[simp] theorem writesOf_append (s t : List WriterMsg) : writesOf (s ++ t) = writesOf s ++ writesOf t :=
  List.filterMap_append

@[simp] theorem writesOf_map_write (batch : List WriteRequest) : writesOf (batch.map .write) = batch := by
  induction batch with
  | nil => rfl
  | cons request rest ih => exact congrArg (request :: ·) ih

theorem prefix_concat {α : Type} {pre t : List α} {e : α} (h : pre <+: t ++ [e]) : pre <+: t ∨ pre = t ++ [e] :=
  (List.prefix_concat_iff.1 h).symm

section

variable (z : Deflate) (cfg : WriterConfig) (shared : SegShared) (queue : List WriterMsg)

/-- A trace in which `written` are the batches written, `synced` those synced, and so on. -/
structure Progress (trace : List Effect) (written synced : List (List WriteRequest))
    (acked exported : List WriteRequest) (answers : List (Nat × SealInfo)) : Prop where
  disk : diskOf trace = (fileBytes z (written.map (groupBatch cfg.compress)),
    fileBytes z (synced.map (groupBatch cfg.compress)))
  acks : acksOf trace = acked.map (·.ack)
  exports : exportsOf trace = exportsOf (exported.flatMap (forwardSharedExport cfg))
  replies : repliesOf trace = answers
  exported_acked : exported <+: acked
  acked_synced : acked <+: synced.flatten
  synced_queue : synced.flatten <+: writesOf queue
  written_queue : written.flatten <+: writesOf queue
  answers_due : answers <+: answersAfter shared [] queue
  /-- And so it was at every earlier time. -/
  past : ∀ pre, pre <+: trace → Orderly z cfg shared queue pre

variable {z cfg shared queue}
variable {trace : List Effect} {written synced : List (List WriteRequest)} {acked exported : List WriteRequest}
  {answers : List (Nat × SealInfo)}

theorem decode_groups (z : Deflate) (compress : Bool) (groups : List (List WriteRequest)) :
    decodeSegmentBytes z (fileBytes z (groups.map (groupBatch compress))) =
      .ok (groups.flatten.flatMap (·.bytes)) := by
  rw [(decode_fileBytes z _)]
  congr 1
  induction groups with
  | nil => rfl
  | cons g gs ih =>
    rw [List.map_cons, List.flatMap_cons, List.flatMap_append, ih, List.flatten_cons, List.flatMap_append]
    congr 1
    simp only [groupBatch, List.flatMap_assoc]
    rfl

/-- The next trace is in order when its own account is right and the past was. -/
theorem Progress.of_concat {e : Effect} (hpast : ∀ pre, pre <+: trace → Orderly z cfg shared queue pre)
    (hdisk : diskOf (trace ++ [e]) = (fileBytes z (written.map (groupBatch cfg.compress)),
      fileBytes z (synced.map (groupBatch cfg.compress))))
    (hacks : acksOf (trace ++ [e]) = acked.map (·.ack))
    (hexports : exportsOf (trace ++ [e]) = exportsOf (exported.flatMap (forwardSharedExport cfg)))
    (hreplies : repliesOf (trace ++ [e]) = answers)
    (hexported : exported <+: acked) (hacked : acked <+: synced.flatten)
    (hsynced : synced.flatten <+: writesOf queue) (hwritten : written.flatten <+: writesOf queue)
    (hanswers : answers <+: answersAfter shared [] queue) :
    Progress z cfg shared queue (trace ++ [e]) written synced acked exported answers := by
  refine ⟨hdisk, hacks, hexports, hreplies, hexported, hacked, hsynced, hwritten, hanswers, ?_⟩
  intro pre hpre
  rcases prefix_concat hpre with hpre | rfl
  · exact hpast pre hpre
  · refine ⟨⟨synced, acked, exported, hexported, hacked, hsynced, ?_, ?_, hacks, hexports⟩,
      ⟨written, hwritten, ?_⟩, hreplies ▸ hanswers⟩
    · rw [hdisk]
    · rw [hdisk]
      exact decode_groups z cfg.compress synced
    · exact ⟨[], by rw [hdisk, List.append_nil]⟩

theorem Progress.write (h : Progress z cfg shared queue trace written synced acked exported answers)
    {batch : List WriteRequest} (hq : (written ++ [batch]).flatten <+: writesOf queue) :
    Progress z cfg shared queue (trace ++ [Effect.wrote ((groupBatch cfg.compress batch).written z)]) (written ++ [batch])
      synced acked exported answers := by
  refine .of_concat h.past ?_ ?_ ?_ ?_ h.exported_acked h.acked_synced h.synced_queue hq h.answers_due
  · rw [diskOf_concat, h.disk]
    simp [diskStep, fileBytes]
  · rw [acksOf_append, h.acks]
    simp [acksOf]
  · rw [exportsOf_append, h.exports]
    simp [exportsOf]
  · rw [repliesOf_append, h.replies]
    simp [repliesOf]

theorem Progress.sync (h : Progress z cfg shared queue trace written synced acked exported answers)
    (hle : synced.flatten <+: written.flatten) :
    Progress z cfg shared queue (trace ++ [Effect.synced]) written written acked exported answers := by
  refine .of_concat h.past ?_ ?_ ?_ ?_ h.exported_acked (h.acked_synced.trans hle) h.written_queue h.written_queue
    h.answers_due
  · rw [diskOf_concat, h.disk]
    rfl
  · rw [acksOf_append, h.acks]
    simp [acksOf]
  · rw [exportsOf_append, h.exports]
    simp [exportsOf]
  · rw [repliesOf_append, h.replies]
    simp [repliesOf]

theorem Progress.rename (h : Progress z cfg shared queue trace written synced acked exported answers)
    (start : Nat) :
    Progress z cfg shared queue (trace ++ [Effect.renamed start]) written synced acked exported answers := by
  refine .of_concat h.past ?_ ?_ ?_ ?_ h.exported_acked h.acked_synced h.synced_queue h.written_queue h.answers_due
  · rw [diskOf_concat, h.disk]
    rfl
  · rw [acksOf_append, h.acks]
    simp [acksOf]
  · rw [exportsOf_append, h.exports]
    simp [exportsOf]
  · rw [repliesOf_append, h.replies]
    simp [repliesOf]

theorem Progress.reply (h : Progress z cfg shared queue trace written synced acked exported answers)
    {reply : Nat} {info : SealInfo} (hdue : answers ++ [(reply, info)] <+: answersAfter shared [] queue) :
    Progress z cfg shared queue (trace ++ [Effect.replied reply info]) written synced acked exported
      (answers ++ [(reply, info)]) := by
  refine .of_concat h.past ?_ ?_ ?_ ?_ h.exported_acked h.acked_synced h.synced_queue h.written_queue hdue
  · rw [diskOf_concat, h.disk]
    rfl
  · rw [acksOf_append, h.acks]
    simp [acksOf]
  · rw [exportsOf_append, h.exports]
    simp [exportsOf]
  · rw [repliesOf_append, h.replies]
    simp [repliesOf]

/-- A request of a synced batch is acknowledged and then forwarded. -/
theorem Progress.ack (h : Progress z cfg shared queue trace written synced acked acked answers)
    {r : WriteRequest} (hr : acked ++ [r] <+: synced.flatten) :
    Progress z cfg shared queue (trace ++ ackEffects cfg r) written synced (acked ++ [r]) (acked ++ [r]) answers := by
  have hack : Progress z cfg shared queue (trace ++ [Effect.acked r.ack]) written synced (acked ++ [r]) acked answers := by
    refine .of_concat h.past ?_ ?_ ?_ ?_ (List.prefix_append _ _) hr h.synced_queue h.written_queue h.answers_due
    · rw [diskOf_concat, h.disk]
      rfl
    · rw [acksOf_append, h.acks]
      simp [acksOf]
    · rw [exportsOf_append, h.exports]
      simp [exportsOf]
    · rw [repliesOf_append, h.replies]
      simp [repliesOf]
  -- the account of the exports moves on even when there is nothing to forward
  have hnone : forwardSharedExport cfg r = [] → Progress z cfg shared queue (trace ++ [Effect.acked r.ack]) written synced
      (acked ++ [r]) (acked ++ [r]) answers := by
    intro hnil
    refine { hack with exports := ?_, exported_acked := List.prefix_rfl }
    rw [hack.exports, List.flatMap_append, List.flatMap_singleton, hnil, List.append_nil]
  unfold ackEffects
  cases hfwd : forwardSharedExport cfg r with
  | nil => exact hnone hfwd
  | cons e es =>
    obtain ⟨partition, events, bytes, rfl, rfl⟩ : ∃ partition events bytes, e = .exported partition events bytes ∧
        es = [] := by
      unfold forwardSharedExport at hfwd
      split at hfwd
      · cases hfwd
      · split at hfwd
        · cases hfwd
        · split at hfwd
          · cases hfwd
          · split at hfwd
            · cases hfwd
              exact ⟨_, _, _, rfl, rfl⟩
            · cases hfwd
    rw [show trace ++ [Effect.acked r.ack, .exported partition events bytes] =
      (trace ++ [Effect.acked r.ack]) ++ [Effect.exported partition events bytes] by simp]
    refine .of_concat hack.past ?_ ?_ ?_ ?_ List.prefix_rfl hr h.synced_queue h.written_queue h.answers_due
    · rw [diskOf_concat, hack.disk]
      rfl
    · rw [acksOf_append, hack.acks]
      simp [acksOf]
    · rw [exportsOf_append, hack.exports, List.flatMap_append, exportsOf_append, List.flatMap_singleton, hfwd]
    · rw [repliesOf_append, hack.replies]
      simp [repliesOf]

/-- A whole batch is acknowledged in order. -/
theorem Progress.ackBatch (batch : List WriteRequest)
    (h : Progress z cfg shared queue trace written synced acked acked answers)
    (hbatch : acked ++ batch <+: synced.flatten) :
    Progress z cfg shared queue (trace ++ batch.flatMap (ackEffects cfg)) written synced (acked ++ batch)
      (acked ++ batch) answers := by
  induction batch generalizing trace acked with
  | nil => simpa using h
  | cons r rs ih =>
    have hr : acked ++ [r] <+: synced.flatten :=
      List.IsPrefix.trans ⟨rs, by simp⟩ hbatch
    have := ih (h.ack hr) (by simpa using hbatch)
    simpa [List.append_assoc] using this

theorem Progress.sealing (h : Progress z cfg shared queue trace written written acked exported answers)
    (w : SegShared) :
    Progress z cfg shared queue (trace ++ sealEffects w) written written acked exported answers := by
  have hsync := h.sync List.prefix_rfl
  unfold sealEffects
  split
  · exact hsync
  · rw [show trace ++ [Effect.synced, .renamed w.activeStart] = (trace ++ [Effect.synced]) ++ [Effect.renamed w.activeStart] by
      simp]
    exact hsync.rename w.activeStart

end

/-! ## Batches and counters -/

theorem drain_eq {avail : Nat} {batch batch' : List WriteRequest} {queue rest : List WriterMsg} {pending : Option Nat}
    (h : drain avail batch queue = (batch', pending, rest)) :
    batch.map .write ++ queue = batch'.map .write ++ (pending.toList.map .rotate ++ rest) := by
  induction avail generalizing batch queue with
  | zero =>
    cases h
    rfl
  | succ avail ih =>
    unfold drain at h
    split at h
    · split at h
      · rw [← ih h]
        simp
      · cases h
        rfl
      · cases h
        rfl
    · cases h
      rfl

/-- A cycle takes some writes off the front of the queue, and a rotate behind them if it meets one. -/
theorem receive_eq {c : Cycle} {queue rest : List WriterMsg} {batch : List WriteRequest} {pending : Option Nat}
    (h : receive c queue = some (batch, pending, rest)) :
    queue = batch.map .write ++ (pending.toList.map .rotate ++ rest) := by
  cases queue with
  | nil => cases h
  | cons m ms =>
    cases m with
    | rotate reply =>
      cases h
      rfl
    | write w =>
      unfold receive at h
      rcases hd : drain c.avail [w] ms with ⟨batch₁, pending₁, rest₁⟩
      have hfirst := drain_eq hd
      dsimp only at h
      rw [hd] at h
      dsimp only at h
      split at h
      · rename_i hmore
        obtain rfl : pending₁ = none := by
          rw [Bool.and_eq_true] at hmore
          exact Option.isNone_iff_eq_none.1 hmore.1
        rw [← drain_eq (Option.some.inj h)]
        exact hfirst
      · cases h
        exact hfirst

theorem drain_length_le {avail : Nat} {batch batch' : List WriteRequest} {queue rest : List WriterMsg}
    {pending : Option Nat} (h : drain avail batch queue = (batch', pending, rest)) : rest.length ≤ queue.length := by
  induction avail generalizing batch queue with
  | zero =>
    cases h
    exact Nat.le_refl _
  | succ avail ih =>
    unfold drain at h
    split at h
    · split at h
      · exact Nat.le_succ_of_le (ih h)
      · cases h
        exact Nat.le_succ _
      · cases h
        exact Nat.le_refl _
    · cases h
      exact Nat.le_refl _

theorem receive_shorter {c : Cycle} {queue rest : List WriterMsg} {batch : List WriteRequest} {pending : Option Nat}
    (h : receive c queue = some (batch, pending, rest)) : rest.length < queue.length := by
  cases queue with
  | nil => cases h
  | cons m ms =>
    cases m with
    | rotate reply =>
      cases h
      exact Nat.lt_succ_self _
    | write w =>
      unfold receive at h
      rcases hd : drain c.avail [w] ms with ⟨batch₁, pending₁, rest₁⟩
      have hfirst := drain_length_le hd
      dsimp only at h
      rw [hd] at h
      dsimp only at h
      split at h
      · exact Nat.lt_succ_of_le (Nat.le_trans (drain_length_le (Option.some.inj h)) hfirst)
      · cases h
        exact Nat.lt_succ_of_le hfirst

theorem groupDeltas_getD (n : Nat) (batch : List WriteRequest) {p : Nat} (hp : p < n) :
    (groupDeltas n batch).getD p 0 = ((batch.filter (·.partition == p)).map (·.events)).sum := by
  have hfold : ∀ deltas : List Nat, deltas.length = n → (batch.foldl (fun deltas r =>
      if n > 0 ∧ r.partition < n then deltas.modify r.partition (· + r.events) else deltas) deltas).getD p 0 =
        deltas.getD p 0 + ((batch.filter (·.partition == p)).map (·.events)).sum := by
    induction batch with
    | nil => simp
    | cons r rs ih =>
      intro deltas hlen
      rw [List.foldl_cons]
      by_cases hr : r.partition = p
      · subst hr
        rw [if_pos ⟨by omega, hp⟩, ih _ (by rw [List.length_modify, hlen]), List.filter_cons_of_pos (by simp)]
        have hget : (deltas.modify r.partition (· + r.events)).getD r.partition 0 =
            deltas.getD r.partition 0 + r.events := by
          simp [List.getD_eq_getElem?_getD, hlen, hp]
        rw [hget, List.map_cons, List.sum_cons]
        omega
      · rw [List.filter_cons_of_neg (by simpa using hr)]
        split
        · rw [ih _ (by rw [List.length_modify, hlen])]
          congr 1
          simp [List.getD_eq_getElem?_getD, hr]
        · exact ih _ hlen
  unfold groupDeltas
  rw [hfold _ (List.length_replicate), List.getD_eq_getElem?_getD, List.getElem?_replicate, if_pos hp]
  exact Nat.zero_add _

theorem eventsIn_append (s t : List WriterMsg) : eventsIn (s ++ t) = eventsIn s + eventsIn t := by
  simp [eventsIn]

theorem eventsInOf_append (p : Nat) (s t : List WriterMsg) :
    eventsInOf p (s ++ t) = eventsInOf p s + eventsInOf p t := by
  simp [eventsInOf]

/-- The counters after a batch are the boundary behind it. -/
theorem append_boundary {w shared : SegShared} {before : List WriterMsg} (batch : List WriteRequest)
    (htotal : w.totalEvents = (boundary shared before).stop)
    (hcounts : w.perPartitionTotal = (boundary shared before).perPartitionEnd) :
    (w.append (batch.map (·.events)).sum (groupDeltas w.perPartitionTotal.length batch)).totalEvents =
        (boundary shared (before ++ batch.map .write)).stop ∧
      (w.append (batch.map (·.events)).sum (groupDeltas w.perPartitionTotal.length batch)).perPartitionTotal =
        (boundary shared (before ++ batch.map .write)).perPartitionEnd := by
  constructor
  · simp only [SegShared.append, htotal, boundary, eventsIn_append]
    rw [eventsIn, eventsIn, writesOf_map_write]
    omega
  · simp only [SegShared.append, addPartitionEvents, hcounts, boundary]
    apply List.ext_getElem
    · simp
    · intro p hp hp'
      have hlt : p < shared.perPartitionTotal.length := by simpa using hp'
      have hdelta := groupDeltas_getD shared.perPartitionTotal.length batch hlt
      simp only [List.length_map, List.length_zipIdx, List.getElem_map, List.getElem_zipIdx, Nat.zero_add]
      rw [hdelta, eventsInOf_append]
      simp only [eventsInOf, writesOf_map_write]
      omega

theorem rotatesAfter_append (before s t : List WriterMsg) :
    rotatesAfter before (s ++ t) = rotatesAfter before s ++ rotatesAfter (before ++ s) t := by
  induction s generalizing before with
  | nil => simp [rotatesAfter]
  | cons m ms ih =>
    cases m with
    | write r => simp [rotatesAfter, ih]
    | rotate reply => simp [rotatesAfter, ih]

theorem answersAfter_append (shared : SegShared) (before s t : List WriterMsg) :
    answersAfter shared before (s ++ t) = answersAfter shared before s ++ answersAfter shared (before ++ s) t := by
  simp [answersAfter, rotatesAfter_append]

@[simp] theorem answersAfter_writes (shared : SegShared) (before : List WriterMsg) (batch : List WriteRequest) :
    answersAfter shared before (batch.map .write) = [] := by
  induction batch generalizing before with
  | nil => rfl
  | cons r rs ih => exact ih (before ++ [WriterMsg.write r])

/-! ## Cycles and runs -/

section

variable (z : Deflate) (cfg : WriterConfig) (shared : SegShared) (queue : List WriterMsg)

/-- Between two cycles: the messages of `done` are dealt with, and nothing of the rest has begun. -/
structure WriterLoop.Inv (done : List WriterMsg) (s : WriterLoop) : Prop where
  split : queue = done ++ s.queue
  total : s.shared.totalEvents = (boundary shared done).stop
  counts : s.shared.perPartitionTotal = (boundary shared done).perPartitionEnd
  alive : s.aborted = false
  progress : ∃ groups : List (List WriteRequest), groups.flatten = writesOf done ∧
    Progress z cfg shared queue s.trace groups groups (writesOf done) (writesOf done) (answersAfter shared [] done)

variable {z cfg shared queue}

/-- A seal syncs, changes no count, and reports the counts. -/
theorem WriterLoop.Inv.sealActive {s : WriterLoop} {done : List WriterMsg} (h : s.Inv z cfg shared queue done)
    (writes : SealWrites) :
    (s.sealActive writes).1.Inv z cfg shared queue done ∧ (s.sealActive writes).2 = boundary shared done := by
  have hcounts : (sealSegment writes s.files s.shared).2.1.totalEvents = s.shared.totalEvents ∧
      (sealSegment writes s.files s.shared).2.1.perPartitionTotal = s.shared.perPartitionTotal ∧
      (sealSegment writes s.files s.shared).2.2 = ⟨s.shared.totalEvents, s.shared.perPartitionTotal⟩ := by
    unfold sealSegment
    dsimp only
    split <;> exact ⟨rfl, rfl, rfl⟩
  obtain ⟨groups, hgroups, hp⟩ := h.progress
  refine ⟨⟨h.split, hcounts.1.trans h.total, hcounts.2.1.trans h.counts, h.alive, groups, hgroups, hp.sealing _⟩, ?_⟩
  show (sealSegment writes s.files s.shared).2.2 = _
  rw [hcounts.2.2, h.total, h.counts]

theorem WriterLoop.Inv.maybeSeal {s : WriterLoop} {done : List WriterMsg} (h : s.Inv z cfg shared queue done)
    (writes : SealWrites) : (s.maybeSeal cfg writes).Inv z cfg shared queue done := by
  unfold WriterLoop.maybeSeal
  split
  · exact (h.sealActive writes).1
  · exact h

theorem WriterLoop.Inv.commit {s : WriterLoop} {done rest : List WriterMsg} {batch : List WriteRequest}
    (h : s.Inv z cfg shared queue done) (hq : s.queue = batch.map .write ++ rest) (writes : SealWrites) :
    (({ s with queue := rest } : WriterLoop).commit z cfg batch writes).Inv z cfg shared queue
      (done ++ batch.map .write) := by
  have hsplit : queue = (done ++ batch.map .write) ++ rest := by rw [h.split, hq, List.append_assoc]
  unfold WriterLoop.commit
  cases batch with
  | nil =>
    simp only [List.isEmpty_nil, if_true, List.map_nil, List.append_nil] at hsplit ⊢
    exact ⟨hsplit, h.total, h.counts, h.alive, h.progress⟩
  | cons r rs =>
    rw [if_neg (by simp)]
    apply WriterLoop.Inv.maybeSeal
    obtain ⟨groups, hgroups, hp⟩ := h.progress
    obtain ⟨htotal, hcounts⟩ := append_boundary (r :: rs) h.total h.counts
    have hwrites : writesOf (done ++ (r :: rs).map .write) = writesOf done ++ (r :: rs) := by
      rw [writesOf_append, writesOf_map_write]
    have hflat : (groups ++ [r :: rs]).flatten = writesOf done ++ (r :: rs) := by
      rw [List.flatten_append, hgroups, List.flatten_singleton]
    have hqueue : (groups ++ [r :: rs]).flatten <+: writesOf queue := by
      rw [hflat, ← hwrites, hsplit, writesOf_append _ rest]
      exact List.prefix_append _ _
    refine ⟨hsplit, htotal, hcounts, h.alive, groups ++ [r :: rs], by rw [hflat, hwrites], ?_⟩
    -- write, sync, then the acknowledgements
    have hwrote := hp.write hqueue
    have hsync := hwrote.sync (by rw [hflat, hgroups]; exact List.prefix_append _ _)
    have hack := hsync.ackBatch (r :: rs) ⟨[], by rw [hflat, List.append_nil]⟩
    rw [hwrites, answersAfter_append, answersAfter_writes, List.append_nil]
    simpa [List.append_assoc] using hack

theorem WriterLoop.Inv.answerRotate {s : WriterLoop} {done rest : List WriterMsg} {pending : Option Nat}
    (h : s.Inv z cfg shared queue done) (hq : queue = done ++ (pending.toList.map .rotate ++ rest))
    (writes : SealWrites) :
    (({ s with queue := rest } : WriterLoop).answerRotate writes pending).Inv z cfg shared queue
      (done ++ pending.toList.map .rotate) := by
  cases pending with
  | none =>
    simp only [Option.toList_none, List.map_nil, List.nil_append, List.append_nil] at hq ⊢
    exact ⟨hq, h.total, h.counts, h.alive, h.progress⟩
  | some reply =>
    obtain ⟨hs, hinfo⟩ := h.sealActive writes
    obtain ⟨groups, hgroups, hp⟩ := hs.progress
    have hwrites : writesOf (done ++ [WriterMsg.rotate reply]) = writesOf done := by
      rw [writesOf_append]
      exact List.append_nil _
    have hanswers : answersAfter shared [] (done ++ [WriterMsg.rotate reply]) =
        answersAfter shared [] done ++ [(reply, boundary shared done)] := answersAfter_append shared [] done _
    refine ⟨hq.trans (List.append_assoc _ _ _).symm, ?_, ?_, hs.alive, groups, hgroups.trans hwrites.symm, ?_⟩
    · refine hs.total.trans ?_
      simp only [boundary, eventsIn, Option.toList_some, List.map_cons, List.map_nil, hwrites]
    · refine hs.counts.trans ?_
      simp only [boundary, eventsInOf, Option.toList_some, List.map_cons, List.map_nil, hwrites]
    · simp only [Option.toList_some, List.map_cons, List.map_nil]
      rw [hwrites, hanswers]
      show Progress z cfg shared queue ((s.sealActive writes).1.trace ++ [Effect.replied reply (s.sealActive writes).2]) _ _ _ _ _
      rw [hinfo]
      refine hp.reply ?_
      rw [← hanswers, hq, Option.toList_some, List.map_cons, List.map_nil, ← List.append_assoc,
        answersAfter_append _ _ _ rest]
      exact List.prefix_append _ _

/-- The effects of a cycle are appended to the trace. -/
theorem WriterLoop.Inv.cycle {s : WriterLoop} {done rest : List WriterMsg} {batch : List WriteRequest}
    {pending : Option Nat} {c : Cycle} (h : s.Inv z cfg shared queue done)
    (hr : receive c s.queue = some (batch, pending, rest)) :
    ((({ s with queue := rest } : WriterLoop).commit z cfg batch c.sizeSeal).answerRotate c.rotateSeal pending).Inv
      z cfg shared queue (done ++ batch.map .write ++ pending.toList.map .rotate) := by
  have hq := receive_eq hr
  have hc := h.commit hq c.sizeSeal
  have hsplit := h.split
  rw [hq, ← List.append_assoc] at hsplit
  have hrest : ({ s with queue := rest } : WriterLoop).commit z cfg batch c.sizeSeal =
      { ({ s with queue := pending.toList.map .rotate ++ rest } : WriterLoop).commit z cfg batch c.sizeSeal with
        queue := rest } := by
    unfold WriterLoop.commit WriterLoop.maybeSeal WriterLoop.sealActive
    split
    · rfl
    · dsimp only
      split <;> rfl
  rw [hrest]
  exact hc.answerRotate hsplit c.rotateSeal

/-- A write that is cut short leaves everything in order. -/
theorem Orderly.cut {trace : List Effect} {b : Bytes} (h : Orderly z cfg shared queue (trace ++ [Effect.wrote b]))
    (torn : Nat) : Orderly z cfg shared queue (trace ++ [Effect.wrote (b.take torn)]) := by
  have hsynced : (diskOf (trace ++ [Effect.wrote (b.take torn)])).2 = (diskOf (trace ++ [Effect.wrote b])).2 := by
    rw [diskOf_concat, diskOf_concat]
    rfl
  obtain ⟨hdurable, ⟨groups, hq, hwritten⟩, hreplies⟩ := h
  refine ⟨?_, ⟨groups, hq, ?_⟩, ?_⟩
  · rw [hsynced]
    simpa [acksOf, exportsOf] using hdurable
  · rw [diskOf_concat] at hwritten ⊢
    exact List.IsPrefix.trans ((List.prefix_append_right_inj _).2 (List.take_prefix _ _)) hwritten
  · simpa [repliesOf] using hreplies

/-- A process that ends inside a cycle leaves a trace in order. -/
theorem orderly_truncated {trace effects : List Effect} (n torn : Nat)
    (h : ∀ pre, pre <+: trace ++ effects → Orderly z cfg shared queue pre) :
    ∀ pre, pre <+: trace ++ truncateEffects effects n torn → Orderly z cfg shared queue pre := by
  have hpast : ∀ pre, pre <+: trace ++ effects.take n → Orderly z cfg shared queue pre := fun pre hpre =>
    h pre (hpre.trans ((List.prefix_append_right_inj _).2 (List.take_prefix _ _)))
  intro pre hpre
  unfold truncateEffects at hpre
  split at hpre
  · rename_i b hb
    rw [← List.append_assoc] at hpre
    rcases prefix_concat hpre with hpre | rfl
    · exact hpast pre hpre
    · refine Orderly.cut (h _ ?_) torn
      rw [List.append_assoc]
      refine (List.prefix_append_right_inj _).2 ?_
      obtain ⟨hlt, hget⟩ := List.getElem?_eq_some_iff.1 hb
      rw [← hget, ← List.take_succ_eq_append_getElem hlt]
      exact List.take_prefix _ _
  · rw [List.append_nil] at hpre
    exact hpast pre hpre

/-- The loop between two cycles, or after it ended. -/
def WriterLoop.Ok (z : Deflate) (cfg : WriterConfig) (shared : SegShared) (queue : List WriterMsg)
    (s : WriterLoop) : Prop :=
  (∃ done, s.Inv z cfg shared queue done) ∨
    s.aborted = true ∧ ∀ pre, pre <+: s.trace → Orderly z cfg shared queue pre

theorem WriterLoop.Ok.orderly {s : WriterLoop} (h : s.Ok z cfg shared queue) :
    ∀ pre, pre <+: s.trace → Orderly z cfg shared queue pre := by
  rcases h with ⟨done, h⟩ | ⟨-, h⟩
  · obtain ⟨_, -, hp⟩ := h.progress
    exact hp.past
  · exact h

theorem WriterLoop.trace_prefix (z : Deflate) (cfg : WriterConfig) (s : WriterLoop) (batch : List WriteRequest) (rest : List WriterMsg)
    (pending : Option Nat) (sizeSeal rotateSeal : SealWrites) :
    s.trace <+: ((({ s with queue := rest } : WriterLoop).commit z cfg batch sizeSeal).answerRotate rotateSeal
      pending).trace := by
  have hseal : ∀ (s : WriterLoop) (w : SealWrites), s.trace <+: (s.sealActive w).1.trace :=
    fun s w => List.prefix_append _ _
  have hcommit : s.trace <+: (({ s with queue := rest } : WriterLoop).commit z cfg batch sizeSeal).trace := by
    unfold WriterLoop.commit WriterLoop.maybeSeal
    split
    · exact List.prefix_rfl
    · dsimp only
      split
      · refine List.IsPrefix.trans ?_ (hseal _ _)
        exact List.prefix_append _ _
      · exact List.prefix_append _ _
  cases pending with
  | none => exact hcommit
  | some reply => exact (hcommit.trans (hseal _ _)).trans (List.prefix_append _ _)

theorem WriterLoop.Ok.cycle {s : WriterLoop} (h : s.Ok z cfg shared queue) (c : Cycle) :
    (s.cycle z cfg c).Ok z cfg shared queue := by
  unfold WriterLoop.cycle
  split
  · exact h
  · rename_i halive
    rcases h with ⟨done, h⟩ | ⟨hdead, -⟩
    · split
      · exact Or.inl ⟨done, h⟩
      · rename_i batch pending rest hr
        have hnext := h.cycle hr
        dsimp only
        split
        · exact Or.inl ⟨_, hnext⟩
        · rename_i n torn _
          refine Or.inr ⟨rfl, ?_⟩
          obtain ⟨effects, heffects⟩ := s.trace_prefix z cfg batch rest pending c.sizeSeal c.rotateSeal
          dsimp only
          rw [← heffects, List.drop_left]
          apply orderly_truncated
          rw [heffects]
          exact WriterLoop.Ok.orderly (Or.inl ⟨_, hnext⟩)
    · exact absurd hdead halive

theorem WriterLoop.Ok.run {s : WriterLoop} (h : s.Ok z cfg shared queue) (cycles : List Cycle) :
    (s.run z cfg cycles).Ok z cfg shared queue := by
  induction cycles generalizing s with
  | nil => exact h
  | cons c cs ih => exact ih (h.cycle c)

/-- The writer as it is opened, with everything still queued. -/
theorem WriterLoop.Inv.start (files : Files UInt8) (bytes : Nat) :
    ({ queue, files, shared, bytes } : WriterLoop).Inv z cfg shared queue [] := by
  have hcounts : shared.perPartitionTotal = (boundary shared []).perPartitionEnd := by
    apply List.ext_getElem
    · simp [boundary]
    · intro p hp hp'
      simp [boundary, eventsInOf, writesOf]
  refine ⟨rfl, rfl, hcounts, rfl, [], rfl, rfl, rfl, rfl, rfl, List.prefix_rfl, List.prefix_rfl, List.nil_prefix,
    List.nil_prefix, List.nil_prefix, ?_⟩
  intro pre hpre
  obtain rfl := List.prefix_nil.1 hpre
  exact ⟨⟨[], [], [], List.prefix_rfl, List.prefix_rfl, List.nil_prefix, rfl, rfl, rfl, rfl⟩,
    ⟨[], List.nil_prefix, List.prefix_rfl⟩, List.nil_prefix⟩

theorem receive_isSome (c : Cycle) {queue : List WriterMsg} (h : queue ≠ []) : ∃ r, receive c queue = some r := by
  unfold receive
  split
  · exact absurd rfl h
  · exact ⟨_, rfl⟩
  · dsimp only
    split <;> exact ⟨_, rfl⟩

/-- Without an abort every cycle takes at least one message. -/
theorem WriterLoop.Inv.run {s : WriterLoop} {done : List WriterMsg} (h : s.Inv z cfg shared queue done)
    (cycles : List Cycle) (hok : ∀ c ∈ cycles, c.aborts = none) (hlen : s.queue.length ≤ cycles.length) :
    (s.run z cfg cycles).Inv z cfg shared queue queue := by
  induction cycles generalizing s done with
  | nil =>
    have hnil : s.queue = [] := List.length_eq_zero_iff.1 (Nat.le_zero.1 hlen)
    have hdone : done = queue := by rw [h.split, hnil, List.append_nil]
    exact hdone ▸ h
  | cons c cs ih =>
    obtain ⟨hc, hcs⟩ := List.forall_mem_cons.1 hok
    show ((s.cycle z cfg c).run z cfg cs).Inv z cfg shared queue queue
    by_cases hq : s.queue = []
    · have hstay : s.cycle z cfg c = s := by
        unfold WriterLoop.cycle
        rw [h.alive, hq]
        rfl
      rw [hstay]
      exact ih h hcs (by rw [hq]; exact Nat.zero_le _)
    · obtain ⟨⟨batch, pending, rest⟩, hr⟩ := receive_isSome c hq
      have hnext := h.cycle hr
      have hcycle : s.cycle z cfg c =
          (({ s with queue := rest } : WriterLoop).commit z cfg batch c.sizeSeal).answerRotate c.rotateSeal
            pending := by
        unfold WriterLoop.cycle
        rw [h.alive, hr, hc]
        rfl
      rw [hcycle]
      refine ih hnext hcs ?_
      -- the rest is shorter: the messages of the cycle are not empty
      have hshort := receive_shorter hr
      have hrest : ((({ s with queue := rest } : WriterLoop).commit z cfg batch c.sizeSeal).answerRotate c.rotateSeal
          pending).queue = rest := by
        have hsplit := hnext.split
        rw [h.split, receive_eq hr, ← List.append_assoc, ← List.append_assoc] at hsplit
        exact (List.append_cancel_left hsplit).symm
      rw [hrest]
      simp only [List.length_cons] at hlen
      omega

end

/-! ## The boundaries add up -/

/-- Every event is counted under exactly one partition. -/
theorem sum_eventsInOf (n : Nat) (before : List WriterMsg) (h : ∀ r ∈ writesOf before, r.partition < n) :
    ((List.range n).map fun p => eventsInOf p before).sum = eventsIn before := by
  unfold eventsInOf eventsIn
  generalize writesOf before = writes at h
  induction writes with
  | nil =>
    show ((List.range n).map fun _ => 0).sum = 0
    generalize List.range n = l
    induction l with
    | nil => rfl
    | cons x xs ih => exact (Nat.zero_add _).trans ih
  | cons r rs ih =>
    obtain ⟨hr, hrs⟩ := List.forall_mem_cons.1 h
    have hsplit : ∀ p, (((r :: rs).filter (·.partition == p)).map (·.events)).sum =
        (if p = r.partition then r.events else 0) + ((rs.filter (·.partition == p)).map (·.events)).sum := by
      intro p
      by_cases hp : p = r.partition
      · rw [List.filter_cons_of_pos (by simp [hp]), if_pos hp]
        rfl
      · rw [List.filter_cons_of_neg (by simpa using Ne.symm hp), if_neg hp, Nat.zero_add]
    have hone : ∀ m, ((List.range m).map fun p => if p = r.partition then r.events else 0).sum =
        if r.partition < m then r.events else 0 := by
      intro m
      induction m with
      | zero => rfl
      | succ m ihm =>
        rw [List.range_succ, List.map_append, List.sum_append, ihm]
        simp only [List.map_cons, List.map_nil, List.sum_cons, List.sum_nil, Nat.add_zero]
        by_cases hm : m = r.partition
        · rw [if_neg (by omega), if_pos hm, if_pos (by omega), Nat.zero_add]
        · have hiff : r.partition < m ↔ r.partition < m + 1 := by omega
          rw [if_neg hm, Nat.add_zero]
          simp only [hiff]
    have hadd : ∀ (f g : Nat → Nat) (l : List Nat), (l.map fun p => f p + g p).sum = (l.map f).sum + (l.map g).sum := by
      intro f g l
      induction l with
      | nil => rfl
      | cons x xs ihx =>
        simp only [List.map_cons, List.sum_cons, ihx]
        omega
    simp only [hsplit]
    rw [hadd, hone, if_pos hr, ih hrs]
    rfl

/-- A boundary's per-partition counts sum to its total, if the counters the writer started with did and every
request names a partition the writer tracks. -/
theorem sum_boundary (shared : SegShared) (before : List WriterMsg)
    (hstart : shared.perPartitionTotal.sum = shared.totalEvents)
    (h : ∀ r ∈ writesOf before, r.partition < shared.perPartitionTotal.length) :
    (boundary shared before).perPartitionEnd.sum = (boundary shared before).stop := by
  have hzip : ∀ (counts : List Nat) (k : Nat), ((counts.zipIdx k).map fun (n, p) => n + eventsInOf p before).sum =
      counts.sum + ((List.range' k counts.length).map fun p => eventsInOf p before).sum := by
    intro counts
    induction counts with
    | nil => exact fun _ => rfl
    | cons c cs ih =>
      intro k
      simp only [List.zipIdx_cons, List.map_cons, List.sum_cons, ih, List.length_cons, List.range'_succ]
      omega
  show (shared.perPartitionTotal.zipIdx.map _).sum = shared.totalEvents + eventsIn before
  rw [hzip, ← List.range_eq_range', sum_eventsInOf _ _ h, hstart]

theorem rotatesAfter_prefix (before msgs : List WriterMsg) :
    ∀ a ∈ rotatesAfter before msgs, a.2 <+: before ++ msgs := by
  induction msgs generalizing before with
  | nil => exact fun _ h => nomatch h
  | cons m ms ih =>
    cases m with
    | write r =>
      intro a ha
      have := ih (before ++ [WriterMsg.write r]) a ha
      rwa [List.append_assoc, List.singleton_append] at this
    | rotate reply =>
      intro a ha
      rcases List.mem_cons.1 ha with rfl | ha
      · exact List.prefix_append _ _
      · have := ih (before ++ [WriterMsg.rotate reply]) a ha
        rwa [List.append_assoc, List.singleton_append] at this

theorem writesOf_subset {before msgs : List WriterMsg} (h : before <+: msgs) :
    ∀ r ∈ writesOf before, r ∈ writesOf msgs := by
  obtain ⟨rest, rfl⟩ := h
  intro r hr
  rw [writesOf_append]
  exact List.mem_append_left _ hr

/-- **The synchronous writer.** For every queue of writes and rotates, however its messages fall into batches,
whichever segments are sealed on the way and wherever the process ends. At every time the acknowledged requests
are the first ones of the queue, and all of them are synced and read back; requests are written and exported in
queue order; each rotate is answered in turn with exactly the events of the requests before it, in total and for
each partition the writer tracks. If it does not end early, everything queued is acknowledged and answered. On
the multi-partition path a reported boundary's counts sum to its total; on the single-partition path there are
none. -/
theorem writer_loop_spec (z : Deflate) (cfg : WriterConfig) (files : Files UInt8) (shared : SegShared) (bytes : Nat)
    (queue : List WriterMsg) (cycles : List Cycle) :
    let s := ({ queue, files, shared, bytes } : WriterLoop).run z cfg cycles
    (∀ pre, pre <+: s.trace → Orderly z cfg shared queue pre) ∧
    ((∀ c ∈ cycles, c.aborts = none) → queue.length ≤ cycles.length →
      acksOf s.trace = (writesOf queue).map (·.ack) ∧
      exportsOf s.trace = exportsOf ((writesOf queue).flatMap (forwardSharedExport cfg)) ∧
      repliesOf s.trace = answersAfter shared [] queue) ∧
    (shared.perPartitionTotal.sum = shared.totalEvents →
      (∀ r ∈ writesOf queue, r.partition < shared.perPartitionTotal.length) →
      ∀ answer ∈ repliesOf s.trace, answer.2.perPartitionEnd.sum = answer.2.stop) ∧
    (shared.perPartitionTotal = [] → ∀ answer ∈ repliesOf s.trace, answer.2.perPartitionEnd = []) := by
  have hstart : ({ queue, files, shared, bytes } : WriterLoop).Inv z cfg shared queue [] := .start files bytes
  have horderly := (WriterLoop.Ok.run (Or.inl ⟨_, hstart⟩) cycles).orderly
  -- every answer is the boundary behind some prefix of the queue
  have hanswer : ∀ answer ∈ repliesOf (({ queue, files, shared, bytes } : WriterLoop).run z cfg cycles).trace,
      ∃ before, before <+: queue ∧ answer.2 = boundary shared before := by
    intro answer ha
    have hmem := (horderly _ List.prefix_rfl).replies.subset ha
    obtain ⟨a, harot, rfl⟩ := List.mem_map.1 hmem
    exact ⟨a.2, rotatesAfter_prefix [] queue a harot, rfl⟩
  refine ⟨horderly, ?_, ?_, ?_⟩
  · intro hok hlen
    obtain ⟨groups, -, hp⟩ := (hstart.run cycles hok hlen).progress
    exact ⟨hp.acks, hp.exports, hp.replies⟩
  · intro hsum hpart answer ha
    obtain ⟨before, hpre, heq⟩ := hanswer answer ha
    rw [heq]
    exact sum_boundary shared before hsum fun r hr => hpart r (writesOf_subset hpre r hr)
  · intro hnil answer ha
    obtain ⟨before, -, heq⟩ := hanswer answer ha
    rw [heq]
    simp [boundary, hnil]

/-- The single-partition writer tracks no partition: the boundary it reports behind one event has no counts. -/
theorem single_partition_counts_do_not_sum :
    ¬ ∀ (z : Deflate) (cfg : WriterConfig) (queue : List WriterMsg) (cycles : List Cycle),
        ∀ answer ∈ repliesOf (({ queue, files := {}, shared := {}, bytes := 0 } : WriterLoop).run z cfg cycles).trace,
          answer.2.perPartitionEnd.sum = answer.2.stop := by
  intro h
  have hline : newline ∉ deploymentCreatedLine ∧ deploymentCreatedLine.head? ≠ some frameMagic := by decide
  have hsum := h storedDeflate ⟨false, 2 ^ 20, none⟩
    [.write ⟨[⟨deploymentCreatedLine, hline.1, hline.2⟩], 0, none, 0⟩, .rotate 1]
    [⟨1, 0, ⟨true, true, true⟩, ⟨true, true, true⟩, none⟩] (1, ⟨1, []⟩) (List.mem_singleton.2 rfl)
  exact absurd hsum (by decide)

end Seglog

end NanoBpm
