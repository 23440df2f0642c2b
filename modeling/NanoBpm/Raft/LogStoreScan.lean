import NanoBpm.Raft.LogStore
import NanoBpm.Seglog.TornTail

/-!
# Scanning Raft log segments (`raft_logstore.rs:352-476`)

A segment that was written record by record is scanned back record by record, whichever of them are frames, and each of them
can be read alone where it stands. A segment that ends in a part of a record is refused.
-/

namespace NanoBpm.Raft.LogStore

open Seglog (Bytes Deflate frameMagic frameHeaderLen frameBytes codecDeflate fromLe32 le32 newline splitLine
  isAsciiWhitespace)

variable {π : Type} {z : Deflate} {c : EntryCodec π}

/-! ## One record -/

theorem frameEntry_eq_some {json frame : Bytes} (h : frameEntry z json = some frame) :
    frame = frameBytes json.length (z.compress json) ∧ (z.compress json).length < 2 ^ 32 := by
  unfold frameEntry at h
  split at h
  · cases h
  · dsimp only at h
    split at h
    · cases h
    · split at h
      · cases h
      · exact ⟨(Option.some.inj h).symm, by omega⟩

/-- A record is a line or a frame. -/
theorem recordOf_cases (z : Deflate) (c : EntryCodec π) (compress : Bool) (e : Entry π) :
    recordOf z c compress e = c.toVec e ++ [newline] ∨
      recordOf z c compress e = frameBytes (c.toVec e).length (z.compress (c.toVec e)) ∧
        (z.compress (c.toVec e)).length < 2 ^ 32 := by
  unfold recordOf
  dsimp only
  split
  · cases hframe : frameEntry z (c.toVec e) with
    | none => exact .inl rfl
    | some frame =>
      obtain ⟨rfl, hlen⟩ := frameEntry_eq_some hframe
      exact .inr ⟨rfl, hlen⟩
  · exact .inl rfl

theorem toVec_eq_cons (c : EntryCodec π) (e : Entry π) : ∃ bs, c.toVec e = 0x7B :: bs := by
  have h := c.toVec_head e
  cases hvec : c.toVec e with
  | nil =>
    rw [hvec] at h
    cases h
  | cons b bs =>
    rw [hvec] at h
    exact ⟨bs, by rw [Option.some.inj h]⟩

theorem newline_notMem_toVec (c : EntryCodec π) (e : Entry π) : newline ∉ c.toVec e := by
  intro h
  exact absurd (c.toVec_printable e newline h) (by decide)

theorem frameBytes_length (rawLen : Nat) (body : Bytes) : (frameBytes rawLen body).length = frameHeaderLen + body.length := by
  simp only [frameBytes, le32, frameHeaderLen, List.length_cons, List.length_append, List.length_nil]
  omega

/-- The body's length stands in the header. -/
theorem fromLe32_frameBytes {rawLen : Nat} {body : Bytes} (h : body.length < 2 ^ 32) (rest : Bytes) :
    fromLe32 ((frameBytes rawLen body ++ rest).drop 6) = body.length := by
  have hlen := Seglog.fromLe32_le32 h
  simpa [frameBytes, le32, fromLe32] using hlen

theorem recordOf_ne_nil (z : Deflate) (c : EntryCodec π) (compress : Bool) (e : Entry π) :
    recordOf z c compress e ≠ [] := by
  rcases recordOf_cases z c compress e with h | ⟨h, -⟩ <;> rw [h]
  · simp
  · simp [frameBytes]

/-- A line starts with the brace of its object. -/
theorem head?_line (c : EntryCodec π) (e : Entry π) (rest : Bytes) :
    (c.toVec e ++ newline :: rest).head? = some 0x7B := by
  obtain ⟨bs, hbs⟩ := toVec_eq_cons c e
  rw [hbs]
  rfl

/-- The scan finds the end of a record. -/
theorem recordLen_recordOf (z : Deflate) (c : EntryCodec π) (compress : Bool) (e : Entry π) (rest : Bytes) :
    ∃ isFrame, recordLen (recordOf z c compress e ++ rest) = .ok ((recordOf z c compress e).length, isFrame) ∧
      (isFrame = false → recordOf z c compress e = c.toVec e ++ [newline]) := by
  rcases recordOf_cases z c compress e with h | ⟨h, hlen⟩
  · refine ⟨false, ?_, fun _ => h⟩
    rw [h, List.append_assoc, List.singleton_append]
    have hsplit := Seglog.splitLine_line (newline_notMem_toVec c e) rest
    unfold recordLen
    rw [if_neg (by rw [head?_line]; decide), hsplit]
  · refine ⟨true, ?_, nofun⟩
    rw [h]
    have htotal := frameBytes_length (c.toVec e).length (z.compress (c.toVec e))
    unfold recordLen
    rw [if_pos (by simp [frameBytes]), if_neg (by simp only [List.length_append, htotal]; omega)]
    simp only [fromLe32_frameBytes hlen, List.length_append, htotal]
    rw [if_neg (by omega)]

/-- A record alone is read as its entry. -/
theorem entryFromRecord_recordOf (z : Deflate) (c : EntryCodec π) (compress : Bool) (e : Entry π) :
    entryFromRecord z c (recordOf z c compress e) = .ok e := by
  rcases recordOf_cases z c compress e with h | ⟨h, hlen⟩ <;> rw [h]
  · have hhead := head?_line c e []
    unfold entryFromRecord
    rw [if_neg (by rw [hhead]; decide)]
    simp [c.fromSlice_toVec]
  · have htotal := frameBytes_length (c.toVec e).length (z.compress (c.toVec e))
    have hcomp : fromLe32 ((frameBytes (c.toVec e).length (z.compress (c.toVec e)) ++ []).drop 6) = _ :=
      fromLe32_frameBytes hlen []
    rw [List.append_nil] at hcomp
    unfold entryFromRecord
    rw [if_pos (by simp [frameBytes]), if_neg (by omega)]
    simp only [hcomp]
    rw [if_neg (by omega)]
    have hbody : ((frameBytes (c.toVec e).length (z.compress (c.toVec e))).drop frameHeaderLen).take
        (z.compress (c.toVec e)).length = z.compress (c.toVec e) := by
      simp [frameBytes, le32, frameHeaderLen]
    rw [hbody, z.inflate_compress]
    exact c.fromSlice_toVec e

theorem not_blank (c : EntryCodec π) (e : Entry π) : (c.toVec e ++ [newline]).all isAsciiWhitespace = false := by
  obtain ⟨bs, hbs⟩ := toVec_eq_cons c e
  rw [hbs]
  rfl

/-! ## Many records -/

/-- An entry as it was written, with or without compression. -/
structure Written (π : Type) where
  compress : Bool
  entry : Entry π

def Written.bytes (z : Deflate) (c : EntryCodec π) (w : Written π) : Bytes := recordOf z c w.compress w.entry

def bytesOf (z : Deflate) (c : EntryCodec π) (ws : List (Written π)) : Bytes := ws.flatMap (·.bytes z c)

@[simp] theorem bytesOf_nil : bytesOf z c ([] : List (Written π)) = [] := rfl

@[simp] theorem bytesOf_cons (w : Written π) (ws : List (Written π)) :
    bytesOf z c (w :: ws) = w.bytes z c ++ bytesOf z c ws := rfl

@[simp] theorem bytesOf_append (ws vs : List (Written π)) : bytesOf z c (ws ++ vs) = bytesOf z c ws ++ bytesOf z c vs :=
  List.flatMap_append

/-- The record that stands at an offset. -/
def Written.scanned (z : Deflate) (c : EntryCodec π) (w : Written π) (offset : Nat) : ScannedEntry π where
  index := w.entry.index
  logId := w.entry.logId
  offset
  len := (w.bytes z c).length
  ramLen := (c.toVec w.entry).length + 1
  entry := w.entry

/-- The records from an offset on. -/
def spans (z : Deflate) (c : EntryCodec π) : Nat → List (Written π) → List (ScannedEntry π)
  | _, [] => []
  | i, w :: ws => w.scanned z c i :: spans z c (i + (w.bytes z c).length) ws

theorem spans_append (i : Nat) (ws vs : List (Written π)) :
    spans z c i (ws ++ vs) = spans z c i ws ++ spans z c (i + (bytesOf z c ws).length) vs := by
  induction ws generalizing i with
  | nil => simp [spans]
  | cons w ws ih => simp [spans, ih, Nat.add_assoc]

theorem Written.length_pos (w : Written π) : 0 < (w.bytes z c).length :=
  List.length_pos_iff.mpr (recordOf_ne_nil z c w.compress w.entry)

/-- The scan of whole records, with anything behind them. -/
theorem scanLoop_bytesOf (ws : List (Written π)) (rest : Bytes) {fuel : Nat} (i : Nat)
    (hfuel : (bytesOf z c ws ++ rest).length ≤ fuel) :
    ∃ fuel', rest.length ≤ fuel' ∧ scanLoop z c fuel i (bytesOf z c ws ++ rest) =
      (spans z c i ws ++ ·) <$> scanLoop z c fuel' (i + (bytesOf z c ws).length) rest := by
  induction ws generalizing fuel i with
  | nil =>
    refine ⟨fuel, hfuel, ?_⟩
    simp only [bytesOf_nil, List.nil_append, List.length_nil, Nat.add_zero, spans]
    cases scanLoop z c fuel i rest <;> rfl
  | cons w ws ih =>
    have hpos := w.length_pos (z := z) (c := c)
    simp only [bytesOf_cons, List.append_assoc, List.length_append] at hfuel ⊢
    obtain ⟨fuel, rfl⟩ : ∃ n, fuel = n + 1 := ⟨fuel - 1, by omega⟩
    have hrestlen : (bytesOf z c ws ++ rest).length ≤ fuel := by
      rw [List.length_append]
      omega
    obtain ⟨fuel', hfuel', hrest⟩ := ih (i + (w.bytes z c).length) hrestlen
    refine ⟨fuel', hfuel', ?_⟩
    obtain ⟨isFrame, hlen, hline⟩ := recordLen_recordOf z c w.compress w.entry (bytesOf z c ws ++ rest)
    have hne : (w.bytes z c ++ (bytesOf z c ws ++ rest)).isEmpty = false := by
      cases hw : w.bytes z c with
      | nil => exact absurd hw (recordOf_ne_nil z c w.compress w.entry)
      | cons _ _ => rfl
    have hblank : (!isFrame && (w.bytes z c).all isAsciiWhitespace) = false := by
      cases isFrame with
      | true => rfl
      | false =>
        rw [Written.bytes, hline rfl, not_blank]
        rfl
    have hram : (if isFrame = true then (c.toVec w.entry).length + 1 else (w.bytes z c).length) =
        (c.toVec w.entry).length + 1 := by
      cases isFrame with
      | true => rfl
      | false => rw [Written.bytes, hline rfl]; simp
    have htake : (w.bytes z c ++ (bytesOf z c ws ++ rest)).take (w.bytes z c).length = w.bytes z c := List.take_left
    have hdrop : (w.bytes z c ++ (bytesOf z c ws ++ rest)).drop (w.bytes z c).length = bytesOf z c ws ++ rest :=
      List.drop_left
    have hentry : entryFromRecord z c (w.bytes z c) = .ok w.entry := entryFromRecord_recordOf z c w.compress w.entry
    change recordLen (w.bytes z c ++ (bytesOf z c ws ++ rest)) = .ok ((w.bytes z c).length, isFrame) at hlen
    conv_lhs => unfold scanLoop
    simp only [hne, Bool.false_eq_true, if_false, hlen, bind, Except.bind, htake, hblank, hdrop, hentry, hrest, hram]
    rw [← Nat.add_assoc]
    cases scanLoop z c fuel' (i + (w.bytes z c).length + (bytesOf z c ws).length) rest <;> rfl

/-- A segment of whole records. -/
theorem scanSegment_bytesOf (ws : List (Written π)) :
    scanSegment z c (bytesOf z c ws) = .ok (spans z c 0 ws, (bytesOf z c ws).length) := by
  obtain ⟨fuel, -, hscan⟩ := scanLoop_bytesOf (z := z) (c := c) ws [] 0 (Nat.le_refl _)
  have hnil : ∀ fuel i, scanLoop z c fuel i [] = .ok [] := by
    intro fuel i
    cases fuel <;> rfl
  rw [List.append_nil] at hscan
  rw [scanSegment, hscan, hnil]
  simp [Functor.map, Except.map]

/-! ## A log of blank entries -/

def digit (d : Nat) : UInt8 := UInt8.ofNat (48 + d)

def isDigit (b : UInt8) : Bool := 48 ≤ b && b ≤ 57

/-- `itoa`. -/
def decimal (n : Nat) : Bytes := if n < 10 then [digit n] else decimal (n / 10) ++ [digit (n % 10)]

/-- `{"log_id":{"leader_id":{"term":1,"node_id":1},"index":0},"payload":"Blank"}`. -/
def blankLine (e : Entry Unit) : Bytes :=
  [123, 34, 108, 111, 103, 95, 105, 100, 34, 58, 123, 34, 108, 101, 97, 100, 101, 114, 95, 105, 100, 34, 58, 123, 34, 116, 101,
    114, 109, 34, 58] ++ decimal e.logId.term ++
  [44, 34, 110, 111, 100, 101, 95, 105, 100, 34, 58] ++ decimal e.logId.nodeId ++
  [125, 44, 34, 105, 110, 100, 101, 120, 34, 58] ++ decimal e.logId.index ++
  [125, 44, 34, 112, 97, 121, 108, 111, 97, 100, 34, 58, 34, 66, 108, 97, 110, 107, 34, 125]

/-- The numbers of a line. -/
def numbers : Option Nat → Bytes → List Nat
  | acc, [] => acc.toList
  | acc, b :: bs => if isDigit b then numbers (some (10 * acc.getD 0 + (b.toNat - 48))) bs else acc.toList ++ numbers none bs

def blankFromSlice (line : Bytes) : Except IoError (Entry Unit) :=
  match numbers none line with
  | [term, nodeId, index] =>
    let e : Entry Unit := ⟨⟨term, nodeId, index⟩, ()⟩
    if blankLine e = line then .ok e else .error .malformedJson
  | _ => .error .malformedJson

theorem digit_spec {d : Nat} (h : d < 10) : isDigit (digit d) = true ∧ (digit d).toNat - 48 = d ∧ 32 ≤ digit d := by
  have hall : ∀ d < 10, isDigit (digit d) = true ∧ (digit d).toNat - 48 = d ∧ 32 ≤ digit d := by decide
  exact hall d h

theorem numbers_decimal (n : Nat) (rest : Bytes) : numbers none (decimal n ++ rest) = numbers (some n) rest := by
  induction n using Nat.strongRecOn generalizing rest with
  | _ n ih =>
    unfold decimal
    split
    · next hn =>
      obtain ⟨hdigit, hval, -⟩ := digit_spec hn
      simp [numbers, hdigit, hval]
    · next hn =>
      obtain ⟨hdigit, hval, -⟩ := digit_spec (Nat.mod_lt n (by decide : 0 < 10))
      rw [List.append_assoc, ih (n / 10) (by omega)]
      simp only [List.singleton_append, numbers, hdigit, if_true, hval, Option.getD_some]
      rw [Nat.div_add_mod]

/-- Text without digits. -/
theorem numbers_text {text : Bytes} (h : text.all (!isDigit ·) = true) (hne : text ≠ []) (acc : Option Nat) (rest : Bytes) :
    numbers acc (text ++ rest) = acc.toList ++ numbers none rest := by
  induction text generalizing acc with
  | nil => exact absurd rfl hne
  | cons b text ih =>
    obtain ⟨hb, htext⟩ : isDigit b = false ∧ text.all (!isDigit ·) = true := by simpa using h
    simp only [List.cons_append, numbers, hb, Bool.false_eq_true, if_false]
    cases htext' : text with
    | nil => rfl
    | cons b' text' =>
      rw [← htext', ih htext (by simp [htext']) none]
      rfl

theorem decimal_printable (n : Nat) : ∀ b ∈ decimal n, 32 ≤ b := by
  induction n using Nat.strongRecOn with
  | _ n ih =>
    intro b hb
    unfold decimal at hb
    split at hb
    · next hn =>
      obtain rfl := List.mem_singleton.mp hb
      exact (digit_spec hn).2.2
    · next hn =>
      rcases List.mem_append.mp hb with hb | hb
      · exact ih (n / 10) (by omega) b hb
      · obtain rfl := List.mem_singleton.mp hb
        exact (digit_spec (Nat.mod_lt n (by decide : 0 < 10))).2.2

/-- The codec restricted to blank entries. -/
def blankCodec : EntryCodec Unit where
  toVec := blankLine
  fromSlice := blankFromSlice
  fromSlice_toVec e := by
    have hnumbers : numbers none (blankLine e) = [e.logId.term, e.logId.nodeId, e.logId.index] := by
      simp only [blankLine, List.append_assoc]
      rw [numbers_text (by decide) (by decide), numbers_decimal, numbers_text (by decide) (by decide), numbers_decimal,
        numbers_text (by decide) (by decide), numbers_decimal]
      rfl
    simp [blankFromSlice, hnumbers]
  toVec_printable e := by
    simp only [blankLine, List.forall_mem_append]
    refine ⟨⟨⟨⟨⟨⟨?_, decimal_printable _⟩, ?_⟩, decimal_printable _⟩, ?_⟩, decimal_printable _⟩, ?_⟩ <;> decide +kernel
  toVec_head _ := rfl

/-- A blank entry of node 1. -/
def entryAt (term index : Nat) : Entry Unit := ⟨⟨term, 1, index⟩, ()⟩

end NanoBpm.Raft.LogStore
