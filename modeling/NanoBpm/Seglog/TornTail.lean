import NanoBpm.Seglog.Segment

/-!
# Appending after a torn tail

Recovery drops a torn tail from what it reads, but not from the file: the next append is written
behind the fragment. A complete record decodes to its plaintext whatever follows it, so a file without
a fragment keeps every later append; a fragment of any length and either format swallows the append
that follows it.
-/

namespace NanoBpm

namespace Seglog

variable {α : Type}

/-! ## Little-endian lengths -/

theorem fromLe32_le32 {n : Nat} (h : n < 2 ^ 32) : fromLe32 (le32 n) = n := by
  simp only [le32, fromLe32, UInt8.toNat_ofNat']
  omega

/-! ## One turn of the loop -/

theorem splitLine_line {t : Bytes} (h : newline ∉ t) (rest : Bytes) :
    splitLine (t ++ newline :: rest) = some (t ++ [newline], rest) := by
  induction t with
  | nil => simp [splitLine]
  | cons b t ih =>
    have hb : ¬ b = newline := fun e => h (e ▸ List.mem_cons_self)
    have ht : newline ∉ t := fun hm => h (List.mem_cons_of_mem _ hm)
    simp [splitLine, hb, ih ht]

theorem splitLine_rest_lt {raw line rest : Bytes} (h : splitLine raw = some (line, rest)) :
    rest.length < raw.length := by
  induction raw generalizing line with
  | nil => cases h
  | cons b raw ih =>
    unfold splitLine at h
    split at h
    · obtain ⟨-, rfl⟩ := Prod.mk.inj (Option.some.inj h)
      exact Nat.lt_succ_self _
    · obtain ⟨⟨l, r⟩, hr, he⟩ := Option.map_eq_some_iff.1 h
      obtain ⟨-, rfl⟩ := Prod.mk.inj he
      exact Nat.lt_succ_of_lt (ih hr)

theorem scanFrame_rest_le {z : Deflate} {codec : UInt8} {rawLen compLen : Nat} {body plain rest : Bytes}
    (h : scanFrame z codec rawLen compLen body = .record plain rest) : rest.length ≤ body.length := by
  have hdrop : (body.drop compLen).length ≤ body.length := by rw [List.length_drop]; omega
  unfold scanFrame at h
  split at h
  · cases h
  · dsimp only at h
    split at h
    · cases h
      exact hdrop
    · split at h
      · split at h
        · cases h
        · split at h
          · cases h
            exact hdrop
          · cases h
      · cases h

theorem scanHead_rest_lt {z : Deflate} {raw plain rest : Bytes} (h : scanHead z raw = .record plain rest) :
    rest.length < raw.length := by
  unfold scanHead at h
  split at h
  · cases h
  · split at h
    · split at h
      · have := scanFrame_rest_le h
        simp only [List.length_cons]
        omega
      · cases h
    · split at h
      · next hs =>
        cases h
        exact splitLine_rest_lt hs
      · cases h

/-- Fuel beyond the length of the input changes nothing. -/
theorem decodeLoop_fuel (z : Deflate) (fuel : Nat) (raw : Bytes) (h : raw.length ≤ fuel) :
    decodeLoop z fuel raw = decodeSegmentBytes z raw := by
  have key : ∀ (n m : Nat) (raw : Bytes), raw.length ≤ n → raw.length ≤ m →
      decodeLoop z n raw = decodeLoop z m raw := by
    intro n
    induction n with
    | zero =>
      intro m raw hn _
      obtain rfl := List.length_eq_zero_iff.1 (Nat.le_zero.1 hn)
      cases m <;> rfl
    | succ n ih =>
      intro m raw hn hm
      cases m with
      | zero =>
        obtain rfl := List.length_eq_zero_iff.1 (Nat.le_zero.1 hm)
        rfl
      | succ m =>
        simp only [decodeLoop]
        cases hs : scanHead z raw with
        | done => rfl
        | torn => rfl
        | fail e => rfl
        | record plain rest =>
          have hlt := scanHead_rest_lt hs
          dsimp only
          rw [ih m rest (by omega) (by omega)]
  exact key fuel raw.length raw h (Nat.le_refl _)

theorem decode_record {z : Deflate} {raw plain rest : Bytes} (h : scanHead z raw = .record plain rest) :
    decodeSegmentBytes z raw = (plain ++ ·) <$> decodeSegmentBytes z rest := by
  have hlt := scanHead_rest_lt h
  rw [← decodeLoop_fuel z (raw.length + 1) raw (Nat.le_succ _), decodeLoop, h]
  dsimp only
  rw [decodeLoop_fuel z raw.length rest (Nat.le_of_lt hlt)]

theorem decode_torn {z : Deflate} {raw : Bytes} (h : scanHead z raw = .torn) : decodeSegmentBytes z raw = .ok [] := by
  rw [← decodeLoop_fuel z (raw.length + 1) raw (Nat.le_succ _), decodeLoop, h]

theorem decode_fail {z : Deflate} {raw : Bytes} {e : IoError} (h : scanHead z raw = .fail e) :
    decodeSegmentBytes z raw = .error e := by
  rw [← decodeLoop_fuel z (raw.length + 1) raw (Nat.le_succ _), decodeLoop, h]

/-! ## Complete records -/

theorem newline_notMem_encode (c : EventCodec α) (e : α) : newline ∉ c.encode e := by
  intro h
  have := c.encode_printable e newline h
  revert this
  decide

theorem encode_ne_magic (c : EventCodec α) (e : α) : ∃ bs, c.encode e = 0x7B :: bs := by
  have h := c.encode_head e
  cases hc : c.encode e with
  | nil => rw [hc] at h; cases h
  | cons b bs =>
    rw [hc] at h
    exact ⟨bs, by rw [Option.some.inj h]⟩

/-- A plaintext line is one record. -/
theorem scanHead_line (z : Deflate) (c : EventCodec α) (e : α) (rest : Bytes) :
    scanHead z (c.encode e ++ newline :: rest) = .record (c.encode e ++ [newline]) rest := by
  have hs := splitLine_line (newline_notMem_encode c e) rest
  obtain ⟨bs, hb⟩ := encode_ne_magic c e
  rw [hb, List.cons_append] at hs ⊢
  simp only [scanHead, hs]
  rfl

theorem decode_plainBytes (z : Deflate) (c : EventCodec α) (events : List α) (rest : Bytes) :
    decodeSegmentBytes z (plainBytes c events ++ rest) = (plainBytes c events ++ ·) <$> decodeSegmentBytes z rest := by
  induction events with
  | nil =>
    change decodeSegmentBytes z rest = _
    cases decodeSegmentBytes z rest <;> rfl
  | cons e es ih =>
    have hsplit : plainBytes c (e :: es) ++ rest = c.encode e ++ newline :: (plainBytes c es ++ rest) := by
      simp [plainBytes]
    rw [hsplit, decode_record (scanHead_line z c e _), ih]
    cases decodeSegmentBytes z rest with
    | error err => rfl
    | ok out => exact congrArg Except.ok (by simp [plainBytes])

/-- What `frame_compress` returns, when it returns a frame. -/
theorem frameCompress_eq_some {z : Deflate} {buf frame : Bytes} {events : Nat}
    (h : frameCompress z buf events = some frame) :
    frame = frameBytes buf.length (z.compress buf) ∧ minFrameBytes ≤ buf.length ∧ buf.length < 2 ^ 32 ∧
      (z.compress buf).length < 2 ^ 32 := by
  unfold frameCompress at h
  split at h
  · cases h
  · split at h
    · cases h
    · dsimp only at h
      split at h
      · cases h
      · split at h
        · cases h
        · exact ⟨(Option.some.inj h).symm, by omega, by omega, by omega⟩

/-- A complete frame is one record: the batch it was made from. -/
theorem scanHead_frame (z : Deflate) (buf rest : Bytes) (hbuf : buf.length < 2 ^ 32)
    (hcomp : (z.compress buf).length < 2 ^ 32) :
    scanHead z (frameBytes buf.length (z.compress buf) ++ rest) = .record buf rest := by
  have hraw := fromLe32_le32 hbuf
  have hlen := fromLe32_le32 hcomp
  simp only [le32] at hraw hlen
  simp only [frameBytes, le32, List.cons_append, List.nil_append, scanHead, if_true, hraw, hlen, scanFrame,
    List.take_left, List.drop_left]
  rw [if_neg (by simp)]
  simp [codecRaw, codecDeflate, z.inflate_compress]

/-- Whatever `write_all` appends decodes to the batch. -/
theorem decode_writeAll (z : Deflate) (c : EventCodec α) (compress : Bool) (events : List α) (rest : Bytes) :
    decodeSegmentBytes z (writeAll z c compress events ++ rest) =
      (plainBytes c events ++ ·) <$> decodeSegmentBytes z rest := by
  cases compress with
  | false => exact decode_plainBytes z c events rest
  | true =>
    cases hf : frameCompress z (plainBytes c events) events.length with
    | none =>
      simp only [writeAll, hf, if_true, Option.getD_none]
      exact decode_plainBytes z c events rest
    | some frame =>
      obtain ⟨rfl, -, hbuf, hcomp⟩ := frameCompress_eq_some hf
      simp only [writeAll, hf, if_true, Option.getD_some]
      exact decode_record (scanHead_frame z _ rest hbuf hcomp)

/-! ## The content of a segment -/

/-- A complete record on disk: a plaintext line, or the frame of a batch. -/
inductive DiskRecord (z : Deflate) (c : EventCodec α) where
  | line (e : α)
  | frame (events : List α) (bytes : Bytes)
      (framed : frameCompress z (plainBytes c events) events.length = some bytes)

namespace DiskRecord

variable {z : Deflate} {c : EventCodec α}

def bytes : DiskRecord z c → Bytes
  | line e => c.encode e ++ [newline]
  | frame _ bytes _ => bytes

def events : DiskRecord z c → List α
  | line e => [e]
  | frame events _ _ => events

theorem decode_bytes (r : DiskRecord z c) (rest : Bytes) :
    decodeSegmentBytes z (r.bytes ++ rest) = (plainBytes c r.events ++ ·) <$> decodeSegmentBytes z rest := by
  cases r with
  | line e =>
    have := decode_plainBytes z c [e] rest
    simpa [plainBytes, bytes, events] using this
  | frame events bytes framed =>
    obtain ⟨rfl, -, hbuf, hcomp⟩ := frameCompress_eq_some framed
    exact decode_record (scanHead_frame z _ rest hbuf hcomp)

end DiskRecord

/-- `torn` is what a crash leaves of one more record: a proper prefix of it, possibly nothing. -/
def IsTorn (z : Deflate) (c : EventCodec α) (torn : Bytes) : Prop :=
  ∃ r : DiskRecord z c, torn <+: r.bytes ∧ torn ≠ r.bytes

/-- The bytes of a segment's complete records. -/
def diskBytes {z : Deflate} {c : EventCodec α} (recs : List (DiskRecord z c)) : Bytes := recs.flatMap (·.bytes)

/-- The events of a segment's complete records. -/
def diskEvents {z : Deflate} {c : EventCodec α} (recs : List (DiskRecord z c)) : List α := recs.flatMap (·.events)

theorem plainBytes_append (c : EventCodec α) (xs ys : List α) :
    plainBytes c (xs ++ ys) = plainBytes c xs ++ plainBytes c ys := by
  simp [plainBytes]

theorem map_append_append (x y : Bytes) (r : Except IoError Bytes) :
    (x ++ ·) <$> ((y ++ ·) <$> r) = ((x ++ y) ++ ·) <$> r := by
  cases r with
  | error e => rfl
  | ok out => exact congrArg Except.ok (List.append_assoc x y out).symm

theorem length_le_of_map_append {x y : Bytes} {r : Except IoError Bytes} (h : (x ++ ·) <$> r = .ok y) :
    x.length ≤ y.length := by
  cases r with
  | error e => cases h
  | ok out =>
    obtain rfl := Except.ok.inj h
    rw [List.length_append]
    omega

theorem decode_diskBytes {z : Deflate} {c : EventCodec α} (recs : List (DiskRecord z c)) (rest : Bytes) :
    decodeSegmentBytes z (diskBytes recs ++ rest) =
      (plainBytes c (diskEvents recs) ++ ·) <$> decodeSegmentBytes z rest := by
  induction recs with
  | nil =>
    change decodeSegmentBytes z rest = _
    cases decodeSegmentBytes z rest <;> rfl
  | cons r recs ih =>
    have hb : diskBytes (r :: recs) ++ rest = r.bytes ++ (diskBytes recs ++ rest) := by
      simp [diskBytes]
    rw [hb, r.decode_bytes, ih, map_append_append, ← plainBytes_append]
    rfl

/-- A sequence of batches as `write_all` puts it on disk, each under its own compression setting. -/
def appendBytes (z : Deflate) (c : EventCodec α) (batches : List (Bool × List α)) : Bytes :=
  batches.flatMap fun b => writeAll z c b.1 b.2

def batchEvents (batches : List (Bool × List α)) : List α := batches.flatMap (·.2)

theorem decode_appendBytes (z : Deflate) (c : EventCodec α) (batches : List (Bool × List α)) :
    decodeSegmentBytes z (appendBytes z c batches) = .ok (plainBytes c (batchEvents batches)) := by
  induction batches with
  | nil => rfl
  | cons b bs ih =>
    have hb : appendBytes z c (b :: bs) = writeAll z c b.1 b.2 ++ appendBytes z c bs := by simp [appendBytes]
    rw [hb, decode_writeAll, ih]
    exact congrArg Except.ok (plainBytes_append c b.2 (batchEvents bs)).symm

/-! ## Reading back -/

theorem splitLines_line {t : Bytes} (h : newline ∉ t) (rest : Bytes) :
    splitLines (t ++ newline :: rest) = t :: splitLines rest := by
  induction t with
  | nil => simp [splitLines]
  | cons b t ih =>
    have hb : ¬ b = newline := fun e => h (e ▸ List.mem_cons_self)
    have ht : newline ∉ t := fun hm => h (List.mem_cons_of_mem _ hm)
    simp [splitLines, hb, ih ht]

theorem splitLines_plainBytes (c : EventCodec α) (events : List α) :
    splitLines (plainBytes c events) = events.map c.encode ++ [[]] := by
  induction events with
  | nil => rfl
  | cons e es ih =>
    have hb : plainBytes c (e :: es) = c.encode e ++ newline :: plainBytes c es := by simp [plainBytes]
    rw [hb, splitLines_line (newline_notMem_encode c e), ih]
    rfl

theorem readLines_encoded (c : EventCodec α) (last : Option Nat) (events : List α) (idx : Nat) :
    readLines c last idx (events.map c.encode ++ [[]]) = .ok events := by
  induction events generalizing idx with
  | nil => simp [readLines, c.decode_blank]
  | cons e es ih =>
    simp only [List.map_cons, List.cons_append, readLines, c.decode_encode, ih]
    rfl

/-- A file whose plaintext is that of a list of events reads as that list. -/
theorem readSegmentEvents_of_decode {z : Deflate} {c : EventCodec α} {file : Bytes} {events : List α}
    (h : decodeSegmentBytes z file = .ok (plainBytes c events)) : readSegmentEvents z c file = .ok events := by
  have hb : readSegmentEvents z c file =
      readLines c (lastContentLine (splitLines (plainBytes c events))) 0 (splitLines (plainBytes c events)) := by
    simp only [readSegmentEvents, h]
    rfl
  rw [hb, splitLines_plainBytes, readLines_encoded]

/-! ## Fragments -/

theorem splitLine_none {t : Bytes} (h : newline ∉ t) : splitLine t = none := by
  induction t with
  | nil => rfl
  | cons b t ih =>
    have hb : ¬ b = newline := fun e => h (e ▸ List.mem_cons_self)
    have ht : newline ∉ t := fun hm => h (List.mem_cons_of_mem _ hm)
    simp [splitLine, hb, ih ht]

/-- A nonempty fragment of a line: it starts as the line does and has no newline. -/
theorem torn_line_shape {c : EventCodec α} {e : α} {torn : Bytes} (hne : torn ≠ [])
    (hpre : torn <+: c.encode e ++ [newline]) (hproper : torn ≠ c.encode e ++ [newline]) :
    newline ∉ torn ∧ ∃ bs, torn = 0x7B :: bs := by
  have hsub : torn <+: c.encode e := by
    rcases List.prefix_concat_iff.1 hpre with h | h
    · exact absurd h hproper
    · exact h
  refine ⟨fun h => newline_notMem_encode c e (hsub.subset h), ?_⟩
  obtain ⟨bs, hb⟩ := encode_ne_magic c e
  cases torn with
  | nil => exact absurd rfl hne
  | cons b t =>
    rw [hb, List.cons_prefix_cons] at hsub
    exact ⟨t, by rw [hsub.1]⟩

/-- A header that is cut short, or whose last length byte is not zero while the file is small, is a
torn frame. -/
theorem scanHead_cut_header (z : Deflate) (q : Bytes)
    (h : q.length < 9 ∨ ∃ b, q[8]? = some b ∧ b ≠ 0 ∧ q.length < 2 ^ 24) : scanHead z (frameMagic :: q) = .torn := by
  simp only [scanHead, if_true]
  split
  · next codec r0 r1 r2 r3 c0 c1 c2 c3 body =>
    rcases h with h | ⟨b, hb, hnz, hlen⟩
    · simp only [List.length_cons] at h
      omega
    · have hc : c3 = b := by simpa using hb
      subst hc
      have hpos : 0 < c3.toNat := by
        refine Nat.pos_of_ne_zero fun h0 => hnz ?_
        exact UInt8.toNat_inj.1 (by simpa using h0)
      simp only [List.length_cons] at hlen
      unfold scanFrame
      rw [if_pos]
      simp only [fromLe32]
      omega
  · rfl

/-- A proper prefix of a frame: either its header is cut short, or its body is. -/
theorem torn_frame_shape {rawLen : Nat} {body torn : Bytes} (hne : torn ≠ []) (hpre : torn <+: frameBytes rawLen body)
    (hproper : torn ≠ frameBytes rawLen body) :
    (∃ q, torn = frameMagic :: q ∧ q.length < 9) ∨
      ∃ part, torn = (frameBytes rawLen body).take (frameHeaderLen + part) ∧ part < body.length := by
  obtain ⟨rest, hrest⟩ := hpre
  have hlen : (frameBytes rawLen body).length = frameHeaderLen + body.length := by
    simp [frameBytes, le32, frameHeaderLen]
    omega
  have htake : torn = (frameBytes rawLen body).take torn.length := by
    rw [← hrest, List.take_left]
  have hlt : torn.length < frameHeaderLen + body.length := by
    rw [← hlen, ← hrest, List.length_append]
    have : rest ≠ [] := by
      rintro rfl
      exact hproper (by rw [← hrest, List.append_nil])
    have := List.length_pos_iff.2 this
    omega
  by_cases hk : torn.length < frameHeaderLen
  · left
    cases torn with
    | nil => exact absurd rfl hne
    | cons b q =>
      have hb : b = frameMagic := by
        rw [frameBytes, List.cons_append] at hrest
        exact (List.cons.inj hrest).1
      refine ⟨q, by rw [hb], ?_⟩
      simp only [List.length_cons, frameHeaderLen] at hk
      omega
  · right
    refine ⟨torn.length - frameHeaderLen, ?_, by omega⟩
    rw [show frameHeaderLen + (torn.length - frameHeaderLen) = torn.length by omega]
    exact htake

theorem scanHead_cut_body (z : Deflate) (rawLen part : Nat) (body tail : Bytes) (hraw : rawLen < 2 ^ 32)
    (hbody : body.length < 2 ^ 32) :
    scanHead z ((frameBytes rawLen body).take (frameHeaderLen + part) ++ tail) =
      scanFrame z codecDeflate rawLen body.length (body.take part ++ tail) := by
  have h₁ := fromLe32_le32 hraw
  have h₂ := fromLe32_le32 hbody
  simp only [le32] at h₁ h₂
  have hten : frameHeaderLen + part = part + 10 := Nat.add_comm _ _
  simp only [frameBytes, le32, hten, List.cons_append, List.nil_append, List.take_succ_cons, scanHead, if_true, h₁, h₂]

/-- The append that follows a nonempty fragment is not read back. -/
theorem decode_append_after_fragment {z : Deflate} {c : EventCodec α} {torn : Bytes} (h : IsTorn z c torn)
    (hne : torn ≠ []) : decodeSegmentBytes z (torn ++ plainBytes c [c.small]) ≠ .ok (plainBytes c [c.small]) := by
  have hr : plainBytes c [c.small] = c.encode c.small ++ [newline] := by simp [plainBytes]
  have hrlen : (plainBytes c [c.small]).length < minFrameBytes := by
    have := c.small_short
    rw [hr, List.length_append, List.length_singleton]
    unfold minFrameBytes
    omega
  have hrne : plainBytes c [c.small] ≠ [] := by rw [hr]; simp
  have hnz : ∀ b ∈ plainBytes c [c.small], b ≠ 0 := by
    rw [hr]
    intro b hb h0
    rcases List.mem_append.1 hb with hb | hb
    · have := c.encode_printable _ b hb
      rw [h0] at this
      revert this
      decide
    · rw [List.mem_singleton.1 hb] at h0
      revert h0
      decide
  have htornNe : ∀ {q : Bytes}, scanHead z q = .torn → decodeSegmentBytes z q ≠ .ok (plainBytes c [c.small]) := by
    intro q hq heq
    rw [decode_torn hq] at heq
    exact hrne (Except.ok.inj heq).symm
  obtain ⟨r, hpre, hproper⟩ := h
  cases r with
  | line e =>
    -- the fragment and the appended line read as one line
    obtain ⟨hnl, bs, rfl⟩ := torn_line_shape hne hpre hproper
    have hglued : newline ∉ (0x7B :: bs) ++ c.encode c.small := by
      intro hm
      rcases List.mem_append.1 hm with hm | hm
      · exact hnl hm
      · exact newline_notMem_encode c _ hm
    have hs : scanHead z ((0x7B :: bs) ++ plainBytes c [c.small]) =
        .record ((0x7B :: bs) ++ c.encode c.small ++ [newline]) [] := by
      have := splitLine_line hglued []
      rw [hr, ← List.append_assoc]
      simp only [List.cons_append, scanHead] at this ⊢
      simp only [this]
      rfl
    rw [decode_record hs]
    intro heq
    have hlen := congrArg List.length (Except.ok.inj heq)
    rw [hr] at hlen
    simp only [List.length_append, List.length_cons, List.length_nil] at hlen
    omega
  | frame events bytes framed =>
    obtain ⟨rfl, hmin, hbuf, hcomp⟩ := frameCompress_eq_some framed
    rcases torn_frame_shape hne hpre hproper with ⟨q, rfl, hq⟩ | ⟨part, rfl, hpart⟩
    · -- the last byte of the frame's length is taken from the appended text, so the body never ends
      refine htornNe (scanHead_cut_header z (q ++ plainBytes c [c.small]) ?_)
      by_cases hshort : (q ++ plainBytes c [c.small]).length < 9
      · exact Or.inl hshort
      · refine Or.inr ?_
        have hidx : (q ++ plainBytes c [c.small])[8]? = (plainBytes c [c.small])[8 - q.length]? := by
          rw [List.getElem?_append_right (by omega)]
        have hin : 8 - q.length < (plainBytes c [c.small]).length := by
          rw [List.length_append] at hshort
          omega
        refine ⟨_, hidx.trans (List.getElem?_eq_getElem hin), hnz _ (List.getElem_mem hin), ?_⟩
        rw [List.length_append]
        unfold minFrameBytes at hrlen
        omega
    · -- the appended text completes the frame: the record it would give is longer than the append
      have hs := scanHead_cut_body z _ part (z.compress (plainBytes c events)) (plainBytes c [c.small]) hbuf hcomp
      unfold scanFrame at hs
      split at hs
      · exact htornNe hs
      · dsimp only at hs
        rw [if_neg (by decide), if_pos rfl] at hs
        split at hs
        · rw [decode_fail hs]
          exact fun e => by cases e
        · next out hout =>
          split at hs
          · next hlen =>
            rw [decode_record hs]
            intro heq
            have hl := length_le_of_map_append heq
            omega
          · rw [decode_fail hs]
            exact fun e => by cases e

/-! ## The statement -/

/-- Recovering a segment with this content, appending any batches and recovering again gives the
surviving records followed by every appended one. -/
def SurvivesAppends (z : Deflate) (c : EventCodec α) (recs : List (DiskRecord z c)) (torn : Bytes) : Prop :=
  ∀ batches : List (Bool × List α),
    readSegmentEvents z c (diskBytes recs ++ torn) = .ok (diskEvents recs) ∧
    decodeSegmentBytes z (diskBytes recs ++ torn ++ appendBytes z c batches) =
      .ok (plainBytes c (diskEvents recs ++ batchEvents batches)) ∧
    readSegmentEvents z c (diskBytes recs ++ torn ++ appendBytes z c batches) =
      .ok (diskEvents recs ++ batchEvents batches)

/-- Later appends survive exactly when the crash left no fragment. -/
theorem survivesAppends_iff_no_fragment (z : Deflate) (c : EventCodec α) (recs : List (DiskRecord z c))
    (torn : Bytes) (htorn : IsTorn z c torn) : SurvivesAppends z c recs torn ↔ torn = [] := by
  constructor
  · intro h
    refine Classical.byContradiction fun hne => ?_
    obtain ⟨-, hdec, -⟩ := h [(false, [c.small])]
    have hbytes : appendBytes z c [(false, [c.small])] = plainBytes c [c.small] := by simp [appendBytes, writeAll]
    have hevents : batchEvents [(false, [c.small])] = [c.small] := by simp [batchEvents]
    rw [hbytes, hevents, List.append_assoc, decode_diskBytes, plainBytes_append] at hdec
    cases hd : decodeSegmentBytes z (torn ++ plainBytes c [c.small]) with
    | error e => rw [hd] at hdec; cases hdec
    | ok out =>
      rw [hd] at hdec
      have hout := List.append_cancel_left (Except.ok.inj hdec)
      exact decode_append_after_fragment htorn hne (hd.trans (congrArg Except.ok hout))
  · rintro rfl batches
    have hfirst : decodeSegmentBytes z (diskBytes recs ++ []) = .ok (plainBytes c (diskEvents recs)) := by
      rw [decode_diskBytes]
      exact congrArg Except.ok (List.append_nil _)
    have hsecond : decodeSegmentBytes z (diskBytes recs ++ [] ++ appendBytes z c batches) =
        .ok (plainBytes c (diskEvents recs ++ batchEvents batches)) := by
      rw [List.append_nil, decode_diskBytes, decode_appendBytes, plainBytes_append]
      rfl
    exact ⟨readSegmentEvents_of_decode hfirst, hsecond, readSegmentEvents_of_decode hsecond⟩

/-! ## A journal of one event kind -/

/-- `{"DeploymentCreated":{"deployment_key":7}}`. -/
def deploymentCreatedLine : Bytes :=
  [123, 34, 68, 101, 112, 108, 111, 121, 109, 101, 110, 116, 67, 114, 101, 97, 116, 101, 100, 34, 58, 123, 34, 100, 101,
    112, 108, 111, 121, 109, 101, 110, 116, 95, 107, 101, 121, 34, 58, 55, 125, 125]

/-- The codec restricted to the one event `DeploymentCreated`. -/
def deploymentCodec : EventCodec Unit where
  encode _ := deploymentCreatedLine
  decodeLine line :=
    if line = [] then .ok none else if line = deploymentCreatedLine then .ok (some ()) else .error .malformed
  decode_encode _ := rfl
  encode_printable _ := by decide +kernel
  encode_head _ := rfl
  decode_blank := rfl
  small := ()
  small_short := by decide

/-- A deflate that stores its input. -/
def storedDeflate : Deflate where
  compress := id
  inflate := some
  inflate_compress _ := rfl

/-- One line on disk, no fragment, two batches appended. -/
theorem survivesAppends_after_clean_crash :
    IsTorn storedDeflate deploymentCodec [] ∧
      readSegmentEvents storedDeflate deploymentCodec
        (diskBytes (z := storedDeflate) (c := deploymentCodec) [.line ()] ++ [] ++
          appendBytes storedDeflate deploymentCodec [(false, [()]), (true, [(), ()])]) = .ok [(), (), (), ()] := by
  have htorn : IsTorn storedDeflate deploymentCodec [] := ⟨.line (), List.nil_prefix, by decide⟩
  have h := (survivesAppends_iff_no_fragment storedDeflate deploymentCodec [.line ()] [] htorn).2 rfl
  exact ⟨htorn, (h [(false, [()]), (true, [(), ()])]).2.2⟩

/-- A crash leaves the opening brace of a record: the next append is glued to it and then dropped. -/
theorem append_lost_after_torn_brace :
    IsTorn storedDeflate deploymentCodec [123] ∧
      readSegmentEvents storedDeflate deploymentCodec ([123] ++
        appendBytes storedDeflate deploymentCodec [(false, [()])]) = .ok [] ∧
      ¬ SurvivesAppends storedDeflate deploymentCodec [] [123] := by
  have htorn : IsTorn storedDeflate deploymentCodec [123] := ⟨.line (), by decide, by decide⟩
  have hread : readSegmentEvents storedDeflate deploymentCodec ([123] ++
      appendBytes storedDeflate deploymentCodec [(false, [()])]) = .ok [] := rfl
  refine ⟨htorn, hread, fun h => ?_⟩
  have hboth : Except.ok [] = Except.ok [()] := hread.symm.trans (h [(false, [()])]).2.2
  cases hboth

end Seglog

end NanoBpm
