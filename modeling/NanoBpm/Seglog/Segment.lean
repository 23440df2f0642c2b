import Mathlib.Algebra.Order.Ring.Nat

/-!
# Segment files (`nano-server-storage/src/seglog.rs:97-217`, `:406-448`, `:888-938`)

A segment is a sequence of records: plaintext lines (`<event json>\n`) and compressed frames
(`magic | codec | raw_len | comp_len | body`). `decodeSegmentBytes` walks it and drops a torn tail;
`ActiveSegment::open` then appends at the physical end of the file. `flate2` and `serde_json` are
parameters; what the code relies on is a field of their structure.
-/

namespace NanoBpm

namespace Seglog

abbrev Bytes := List UInt8

/-- `flate2`'s raw deflate: the encoder, and the decoder (`none` on a corrupt stream). -/
structure Deflate where
  compress : Bytes → Bytes
  inflate : Bytes → Option Bytes
  inflate_compress : ∀ buf, inflate (compress buf) = some buf

inductive IoError where
  | corruptStream
  | unexpectedLength
  | unknownCodec (codec : UInt8)
  | notUtf8
  | malformed
  | unknownVariant
deriving DecidableEq, Inhabited

/-! ## Frames -/

/-- `FRAME_MAGIC`. -/
def frameMagic : UInt8 := 0x1E

/-- `CODEC_RAW`. -/
def codecRaw : UInt8 := 0

/-- `CODEC_DEFLATE`. -/
def codecDeflate : UInt8 := 1

/-- `FRAME_HEADER_LEN`. -/
def frameHeaderLen : Nat := 10

/-- `MIN_FRAME_BYTES`. -/
def minFrameBytes : Nat := 16 * 1024

/-- `MIN_AVG_EVENT_BYTES`. -/
def minAvgEventBytes : Nat := 1024

/-- The newline that ends a plaintext record. -/
def newline : UInt8 := 10

/-- `u32::to_le_bytes`. -/
def le32 (n : Nat) : Bytes :=
  [UInt8.ofNat n, UInt8.ofNat (n / 256), UInt8.ofNat (n / 65536), UInt8.ofNat (n / 16777216)]

/-- `u32::from_le_bytes` on the first four bytes. -/
def fromLe32 : Bytes → Nat
  | a :: b :: c :: d :: _ => a.toNat + 256 * b.toNat + 65536 * c.toNat + 16777216 * d.toNat
  | _ => 0

/-- The frame of a deflated batch. -/
def frameBytes (rawLen : Nat) (body : Bytes) : Bytes :=
  frameMagic :: codecDeflate :: (le32 rawLen ++ le32 body.length ++ body)

/-- `frame_compress` (`seglog.rs:122`). -/
def frameCompress (z : Deflate) (buf : Bytes) (events : Nat) : Option Bytes :=
  if buf.length < minFrameBytes then none
  else if buf.length / max events 1 < minAvgEventBytes then none
  else
    let comp := z.compress buf
    if buf.length ≤ comp.length + frameHeaderLen then none
    -- `u32::try_from`
    else if 2 ^ 32 ≤ buf.length ∨ 2 ^ 32 ≤ comp.length then none
    else some (frameBytes buf.length comp)

/-! ## Decoding (`seglog.rs:159`) -/

/-- What stands at the head of the remaining bytes. -/
inductive Scan where
  | done
  | torn
  | fail (e : IoError)
  | record (plain rest : Bytes)
deriving DecidableEq

/-- `raw[i..].iter().position(|b| b == '\n')`: the line with its newline, and the rest. -/
def splitLine : Bytes → Option (Bytes × Bytes)
  | [] => none
  | b :: bs => if b = newline then some ([b], bs) else (splitLine bs).map fun (l, r) => (b :: l, r)

/-- The body of a frame whose header is complete. -/
def scanFrame (z : Deflate) (codec : UInt8) (rawLen compLen : Nat) (body : Bytes) : Scan :=
  if body.length < compLen then .torn
  else
    let payload := body.take compLen
    let rest := body.drop compLen
    if codec = codecRaw then .record payload rest
    else if codec = codecDeflate then
      match z.inflate payload with
      | none => .fail .corruptStream
      | some out => if out.length = rawLen then .record out rest else .fail .unexpectedLength
    else .fail (.unknownCodec codec)

def scanHead (z : Deflate) : Bytes → Scan
  | [] => .done
  | b :: bs =>
    if b = frameMagic then
      match bs with
      | codec :: r0 :: r1 :: r2 :: r3 :: c0 :: c1 :: c2 :: c3 :: body =>
        scanFrame z codec (fromLe32 [r0, r1, r2, r3]) (fromLe32 [c0, c1, c2, c3]) body
      | _ => .torn
    else
      match splitLine (b :: bs) with
      | some (line, rest) => .record line rest
      | none => .torn

/-- The loop of `decode_segment_bytes`; every turn consumes at least one byte. -/
def decodeLoop (z : Deflate) : Nat → Bytes → Except IoError Bytes
  | 0, _ => .ok []
  | fuel + 1, raw =>
    match scanHead z raw with
    | .done => .ok []
    | .torn => .ok []
    | .fail e => .error e
    | .record plain rest => (plain ++ ·) <$> decodeLoop z fuel rest

def decodeSegmentBytes (z : Deflate) (raw : Bytes) : Except IoError Bytes := decodeLoop z raw.length raw

/-! ## Reading events (`seglog.rs:888-938`) -/

/-- `decoded.split(|b| b == '\n')`. -/
def splitLines : Bytes → List Bytes
  | [] => [[]]
  | b :: bs =>
    if b = newline then [] :: splitLines bs
    else
      match splitLines bs with
      | [] => [[b]]
      | l :: ls => (b :: l) :: ls

/-- `u8::is_ascii_whitespace`. -/
def isAsciiWhitespace (b : UInt8) : Bool := b == 32 || b == 9 || b == 10 || b == 12 || b == 13

def hasContent (line : Bytes) : Bool := line.any fun b => b != 0 && !isAsciiWhitespace b

/-- `last_content_line`. -/
def lastContentLine (lines : List Bytes) : Option Nat :=
  ((lines.zipIdx.filter fun (l, _) => hasContent l).getLast?).map (·.2)

/-- `serde_json` with `from_utf8` and the blank test in front of it: how a line is read
(`none` for a blank one), and how an event is written. -/
structure EventCodec (α : Type) where
  encode : α → Bytes
  decodeLine : Bytes → Except IoError (Option α)
  decode_encode : ∀ e, decodeLine (encode e) = .ok (some e)
  /-- Compact JSON escapes every control character. -/
  encode_printable : ∀ e, ∀ b ∈ encode e, 32 ≤ b
  /-- A record is a JSON object: it starts with an opening brace. -/
  encode_head : ∀ e, (encode e).head? = some 0x7B
  decode_blank : decodeLine [] = .ok none
  /-- Some event is written in less than a frame's worth of bytes. -/
  small : α
  small_short : (encode small).length < 1024

variable {α : Type}

/-- The line loop of `read_segment_events`: a torn last line is dropped, any other bad line is fatal. -/
def readLines (c : EventCodec α) (last : Option Nat) : Nat → List Bytes → Except IoError (List α)
  | _, [] => .ok []
  | idx, line :: lines =>
    match c.decodeLine line with
    | .ok none => readLines c last (idx + 1) lines
    | .ok (some e) => (e :: ·) <$> readLines c last (idx + 1) lines
    | .error .unknownVariant => .error .unknownVariant
    | .error err => if some idx = last then .ok [] else .error err

/-- `read_segment_events` on an existing file. -/
def readSegmentEvents (z : Deflate) (c : EventCodec α) (file : Bytes) : Except IoError (List α) := do
  let decoded ← decodeSegmentBytes z file
  let lines := splitLines decoded
  readLines c (lastContentLine lines) 0 lines

/-! ## Writing (`journal.rs:1783`, `seglog.rs:429`) -/

/-- The serialised batch: one newline-terminated line per event. -/
def plainBytes (c : EventCodec α) (events : List α) : Bytes := events.flatMap fun e => c.encode e ++ [newline]

/-- What `ActiveSegment::write_all` appends for a batch. -/
def writeAll (z : Deflate) (c : EventCodec α) (compress : Bool) (events : List α) : Bytes :=
  let buf := plainBytes c events
  if compress then (frameCompress z buf events.length).getD buf else buf

end Seglog

end NanoBpm
