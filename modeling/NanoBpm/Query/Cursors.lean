import NanoBpm.Lib.Base64
import NanoBpm.Lib.Utf8Scan

/-!
# Cursors of pages (src/server/src/query.rs)

A cursor is an entity key in base64. The leading zeros of a composite key are checked when it is decoded, the one of a single key is not.
-/

namespace NanoBpm.Query

/-- `to_be_bytes`, of so many bytes. -/
def beBytes : Nat → Nat → List UInt8
  | 0, _ => []
  | n + 1, k => .ofNat (k / 256 ^ n) :: beBytes n k

/-- `from_be_bytes`. -/
def fromBeBytes (bytes : List UInt8) : Nat := bytes.foldl (fun n b => n * 256 + b.toNat) 0

/-- `base64_encode` (query.rs:1154). -/
def base64Encode (input : List UInt8) : String := String.ofList (Base64.encode input)

/-- `base64_decode` (query.rs:1176). -/
def base64Decode (input : String) : Option (List UInt8) := Base64.decode (Utf8.bytes input.toList)

/-- `encode_cursor`. -/
def encodeCursor (key : UInt64) : String := base64Encode (0 :: beBytes 8 key.toNat)

/-- `decode_cursor`. -/
def decodeCursor (cursor : String) : Option UInt64 := do
  let bytes ← base64Decode cursor
  if bytes.length = 9 then some (.ofNat (fromBeBytes (bytes.drop 1))) else none

/-- `CursorKey::encode` of a composite key. -/
def encodePair (key : UInt64 × UInt64) : String := base64Encode (0 :: 0 :: (beBytes 8 key.1.toNat ++ beBytes 8 key.2.toNat))

/-- `CursorKey::decode` of a composite key. -/
def decodePair (cursor : String) : Option (UInt64 × UInt64) := do
  let bytes ← base64Decode cursor
  if bytes.length = 18 ∧ bytes.take 2 = [0, 0] then
    some (.ofNat (fromBeBytes ((bytes.drop 2).take 8)), .ofNat (fromBeBytes (bytes.drop 10)))
  else none

/-! ## Bytes of a key -/

variable {bs : List UInt8} {s : String} {n k : Nat}

@[simp]
theorem length_beBytes (n k : Nat) : (beBytes n k).length = n := by
  induction n with
  | zero => rfl
  | succ n ih => rw [beBytes, List.length_cons, ih]

theorem foldl_be (bs : List UInt8) (n : Nat) :
    bs.foldl (fun n b => n * 256 + b.toNat) n = n * 256 ^ bs.length + fromBeBytes bs := by
  unfold fromBeBytes
  induction bs generalizing n with
  | nil => simp
  | cons b bs ih =>
    rw [List.foldl_cons, List.foldl_cons, ih, ih (0 * 256 + b.toNat), List.length_cons, Nat.pow_succ]
    ring

theorem fromBeBytes_cons (b : UInt8) (bs : List UInt8) : fromBeBytes (b :: bs) = b.toNat * 256 ^ bs.length + fromBeBytes bs := by
  rw [fromBeBytes, List.foldl_cons, foldl_be]
  simp

theorem fromBeBytes_lt (bs : List UInt8) : fromBeBytes bs < 256 ^ bs.length := by
  induction bs with
  | nil => decide
  | cons b bs ih =>
    have hb : b.toNat + 1 ≤ 256 := b.toNat_lt
    have hle := Nat.mul_le_mul_right (256 ^ bs.length) hb
    rw [fromBeBytes_cons, List.length_cons, Nat.pow_succ, Nat.mul_comm (256 ^ bs.length)]
    rw [Nat.add_mul] at hle
    omega

theorem fromBeBytes_beBytes (n k : Nat) : fromBeBytes (beBytes n k) = k % 256 ^ n := by
  induction n with
  | zero => simp [beBytes, fromBeBytes, Nat.mod_one]
  | succ n ih =>
    have hpow : 256 ^ (n + 1) = 256 ^ n * 256 := Nat.pow_succ 256 n
    rw [beBytes, fromBeBytes_cons, length_beBytes, ih, UInt8.toNat_ofNat', hpow, Nat.mod_mul, Nat.add_comm, Nat.mul_comm]

theorem beBytes_congr {k k' : Nat} (h : k % 256 ^ n = k' % 256 ^ n) : beBytes n k = beBytes n k' := by
  induction n with
  | zero => rfl
  | succ n ih =>
    rw [Nat.pow_succ] at h
    have hhigh : k / 256 ^ n % 256 = k' / 256 ^ n % 256 := by
      rw [← Nat.mod_mul_right_div_self, ← Nat.mod_mul_right_div_self, h]
    have hlow : k % 256 ^ n = k' % 256 ^ n := by
      rw [← Nat.mod_mul_right_mod k (256 ^ n) 256, h, Nat.mod_mul_right_mod]
    rw [beBytes, beBytes, ih hlow]
    congr 1
    rw [← UInt8.toNat_inj, UInt8.toNat_ofNat', UInt8.toNat_ofNat']
    exact hhigh

theorem beBytes_fromBeBytes (bs : List UInt8) : beBytes bs.length (fromBeBytes bs) = bs := by
  induction bs with
  | nil => rfl
  | cons b bs ih =>
    have hlt := fromBeBytes_lt bs
    have hpos : 0 < 256 ^ bs.length := Nat.pow_pos (by decide)
    rw [List.length_cons, beBytes, fromBeBytes_cons]
    have hdiv : (b.toNat * 256 ^ bs.length + fromBeBytes bs) / 256 ^ bs.length = b.toNat := by
      rw [Nat.add_comm, Nat.add_mul_div_right _ _ hpos, Nat.div_eq_of_lt hlt, Nat.zero_add]
    have hmod : (b.toNat * 256 ^ bs.length + fromBeBytes bs) % 256 ^ bs.length = fromBeBytes bs % 256 ^ bs.length := by
      rw [Nat.add_comm, Nat.add_mul_mod_self_right]
    rw [hdiv, beBytes_congr hmod, ih]
    simp

theorem fromBeBytes_key (key : UInt64) : UInt64.ofNat (fromBeBytes (beBytes 8 key.toNat)) = key := by
  have hlt : key.toNat < 256 ^ 8 := key.toNat_lt
  rw [fromBeBytes_beBytes, Nat.mod_eq_of_lt hlt]
  simp

theorem beBytes_key (h : bs.length = 8) : beBytes 8 (UInt64.ofNat (fromBeBytes bs)).toNat = bs := by
  have hlt : fromBeBytes bs < 256 ^ 8 := h ▸ fromBeBytes_lt bs
  have hkey : (UInt64.ofNat (fromBeBytes bs)).toNat = fromBeBytes bs := by
    rw [UInt64.toNat_ofNat']
    exact Nat.mod_eq_of_lt hlt
  rw [hkey, ← h, beBytes_fromBeBytes]

/-! ## Texts -/

/-- A text of ASCII characters is known from its bytes. -/
theorem eq_of_bytes {s t : List Char} (ht : ∀ c ∈ t, c.toNat < 128) (h : Utf8.bytes s = t.map Char.toUInt8) : s = t := by
  induction t generalizing s with
  | nil =>
    rw [List.map_nil, ← List.length_eq_zero_iff, Utf8.length_bytes] at h
    by_contra hne
    have := Utf8.size_pos hne
    omega
  | cons d t ih =>
    have hd := ht d List.mem_cons_self
    cases s with
    | nil => cases h
    | cons c s =>
      have hbyte := Utf8.toNat_toUInt8 hd
      have hc : c.toNat < 128 := by
        by_contra hwide
        rw [Utf8.bytes_cons, List.map_cons] at h
        obtain ⟨x, xs, hx⟩ : ∃ x xs, String.utf8EncodeChar c = x :: xs := List.exists_cons_of_ne_nil fun hnil => by
          have hpos := c.utf8Size_pos
          rw [← String.length_utf8EncodeChar, hnil] at hpos
          exact absurd hpos (by decide)
        have hle := Utf8.le_of_mem_utf8EncodeChar (show 128 ≤ c.toNat by omega) (hx ▸ List.mem_cons_self)
        rw [hx, List.cons_append, List.cons.injEq] at h
        rw [h.1] at hle
        omega
      rw [Utf8.bytes_ascii_cons hc, List.map_cons, List.cons.injEq, ← UInt8.toNat_inj, Utf8.toNat_toUInt8 hc, hbyte, Char.toNat_inj] at h
      rw [h.1, ih (fun e he => ht e (List.mem_cons_of_mem _ he)) h.2]

theorem bytes_ascii {t : List Char} (ht : ∀ c ∈ t, c.toNat < 128) : Utf8.bytes t = t.map Char.toUInt8 := by
  induction t with
  | nil => rfl
  | cons c t ih =>
    rw [Utf8.bytes_ascii_cons (ht c List.mem_cons_self), List.map_cons, ih fun d hd => ht d (List.mem_cons_of_mem _ hd)]

/-- Bytes in threes are decoded from one text only. -/
theorem base64Decode_eq_some (h : 3 ∣ bs.length) : base64Decode s = some bs ↔ s = base64Encode bs := by
  have hascii := Base64.encode_ascii bs
  unfold base64Decode base64Encode
  constructor
  · intro hs
    have hchars := eq_of_bytes hascii (Base64.encode_decode _ hs h)
    rw [← hchars, String.ofList_toList]
  · rintro rfl
    rw [String.toList_ofList, bytes_ascii hascii]
    exact Base64.decode_encode bs h

/-! ## Keys -/

theorem decodeCursor_eq_some (key : UInt64) : decodeCursor s = some key ↔ ∃ b, s = base64Encode (b :: beBytes 8 key.toNat) := by
  unfold decodeCursor
  constructor
  · intro h
    obtain ⟨bs, hbs, h⟩ := Option.bind_eq_some_iff.mp h
    split at h
    · next hlen =>
      obtain ⟨b, rest, rfl⟩ := List.exists_cons_of_length_pos (show 0 < bs.length by omega)
      obtain rfl := Option.some.inj h
      refine ⟨b, ?_⟩
      rw [List.drop_one, List.tail_cons, beBytes_key (by simpa using hlen)]
      exact (base64Decode_eq_some (by rw [hlen]; decide)).mp hbs
    · cases h
  · rintro ⟨b, rfl⟩
    refine Option.bind_eq_some_iff.mpr ⟨_, (base64Decode_eq_some (by simp)).mpr rfl, ?_⟩
    rw [if_pos (by simp), List.drop_one, List.tail_cons, fromBeBytes_key]

theorem decode_encodeCursor (key : UInt64) : decodeCursor (encodeCursor key) = some key :=
  (decodeCursor_eq_some key).mpr ⟨0, rfl⟩

/-- A cursor is that of its key unless its first byte is not zero. -/
theorem decodeCursor_right_iff (s : String) : (∀ key, decodeCursor s = some key ↔ s = encodeCursor key) ↔
    ∀ bs, base64Decode s = some bs → bs.length = 9 → bs.head? = some 0 := by
  constructor
  · intro h bs hbs hlen
    obtain ⟨b, rest, rfl⟩ := List.exists_cons_of_length_pos (show 0 < bs.length by omega)
    have hs := (base64Decode_eq_some (by rw [hlen]; decide)).mp hbs
    have hkey : decodeCursor s = some (.ofNat (fromBeBytes rest)) := by
      rw [decodeCursor_eq_some]
      exact ⟨b, by rw [hs, beBytes_key (by simpa using hlen)]⟩
    have hencoded := (base64Decode_eq_some (by simp)).mpr ((h _).mp hkey)
    rw [hbs, Option.some.injEq] at hencoded
    rw [(List.cons.inj hencoded).1]
    rfl
  · intro h key
    refine ⟨fun hkey => ?_, fun hs => hs ▸ decode_encodeCursor key⟩
    obtain ⟨b, hs⟩ := (decodeCursor_eq_some key).mp hkey
    have hhead := h _ ((base64Decode_eq_some (by simp)).mpr hs) (by simp)
    obtain rfl := Option.some.inj hhead
    exact hs

theorem decodePair_eq_some (key : UInt64 × UInt64) : decodePair s = some key ↔ s = encodePair key := by
  unfold decodePair encodePair
  constructor
  · intro h
    obtain ⟨bs, hbs, h⟩ := Option.bind_eq_some_iff.mp h
    split at h
    · next hcond =>
      obtain ⟨hlen, hzeros⟩ := hcond
      obtain rfl := Option.some.inj h
      have hcut : bs = 0 :: 0 :: (((bs.drop 2).take 8) ++ bs.drop 10) := by
        have hdrop : bs.drop 10 = (bs.drop 2).drop 8 := by rw [List.drop_drop]
        rw [hdrop, List.take_append_drop, ← List.take_append_drop 2 bs, hzeros]
        rfl
      rw [beBytes_key (by simp [hlen]), beBytes_key (by simp [hlen]), ← hcut]
      exact (base64Decode_eq_some (by rw [hlen]; decide)).mp hbs
    · cases h
  · rintro rfl
    refine Option.bind_eq_some_iff.mpr ⟨_, (base64Decode_eq_some (by simp)).mpr rfl, ?_⟩
    rw [if_pos (by simp)]
    have hfirst : ((0 :: 0 :: (beBytes 8 key.1.toNat ++ beBytes 8 key.2.toNat)).drop 2).take 8 = beBytes 8 key.1.toNat := by
      simp
    have hsecond : (0 :: 0 :: (beBytes 8 key.1.toNat ++ beBytes 8 key.2.toNat)).drop 10 = beBytes 8 key.2.toNat := by
      rw [show 10 = 2 + 8 from rfl, ← List.drop_drop]
      simp
    rw [hfirst, hsecond, fromBeBytes_key, fromBeBytes_key]

/-- An entity key that comes back from its cursor. -/
class CursorKey (K : Type) where
  encode : K → String
  decode : String → Option K
  decode_encode : ∀ k, decode (encode k) = some k

instance : CursorKey UInt64 := ⟨encodeCursor, decodeCursor, decode_encodeCursor⟩

instance : CursorKey (UInt64 × UInt64) := ⟨encodePair, decodePair, fun key => (decodePair_eq_some key).mpr rfl⟩

end NanoBpm.Query
