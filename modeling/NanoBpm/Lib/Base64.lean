import Mathlib.Tactic.Ring
import Mathlib.Data.List.Basic

/-!
# Base64 without padding

Three bytes are four characters of the alphabet. A text whose bytes are a multiple of three is the only one of its bytes.
-/

namespace Base64

def alphabet : List Char := "ABCDEFGHIJKLMNOPQRSTUVWXYZabcdefghijklmnopqrstuvwxyz0123456789+/".toList

def symbol (v : Nat) : Char := alphabet.getD v 'A'

/-- What a character stands for. -/
def value (c : UInt8) : Option Nat :=
  if 65 ≤ c.toNat ∧ c.toNat ≤ 90 then some (c.toNat - 65)
  else if 97 ≤ c.toNat ∧ c.toNat ≤ 122 then some (c.toNat - 97 + 26)
  else if 48 ≤ c.toNat ∧ c.toNat ≤ 57 then some (c.toNat - 48 + 52)
  else if c.toNat = 43 then some 62
  else if c.toNat = 47 then some 63
  else none

def encode : List UInt8 → List Char
  | a :: b :: c :: rest =>
    let n := a.toNat * 65536 + b.toNat * 256 + c.toNat
    symbol (n / 2 ^ 18 % 64) :: symbol (n / 2 ^ 12 % 64) :: symbol (n / 2 ^ 6 % 64) :: symbol (n % 64) :: encode rest
  | [a, b] =>
    let n := a.toNat * 65536 + b.toNat * 256
    [symbol (n / 2 ^ 18 % 64), symbol (n / 2 ^ 12 % 64), symbol (n / 2 ^ 6 % 64)]
  | [a] =>
    let n := a.toNat * 65536
    [symbol (n / 2 ^ 18 % 64), symbol (n / 2 ^ 12 % 64)]
  | [] => []

/-- The bits of a few characters. -/
def number (cs : List UInt8) : Option Nat := cs.foldlM (fun n c => (value c).map (n * 64 + ·)) 0

/-- `n as u8`. -/
def byte (n : Nat) : UInt8 := .ofNat n

def decode : List UInt8 → Option (List UInt8)
  | a :: b :: c :: d :: rest => do
    let n ← number [a, b, c, d]
    let out ← decode rest
    return byte (n / 2 ^ 16) :: byte (n / 2 ^ 8) :: byte n :: out
  | [a, b, c] => do
    let n ← number [a, b, c]
    return [byte (n * 64 / 2 ^ 16), byte (n * 64 / 2 ^ 8)]
  | [a, b] => do
    let n ← number [a, b]
    return [byte (n * 4096 / 2 ^ 16)]
  | [_] => none
  | [] => some []

/-! ## Characters -/

theorem value_symbol : ∀ v < 64, value (symbol v).toUInt8 = some v := by decide +kernel

theorem symbol_ascii : ∀ v < 64, (symbol v).toNat < 128 := by decide +kernel

theorem symbol_value : ∀ n < 256, ∀ v ∈ value (UInt8.ofNat n), v < 64 ∧ UInt8.ofNat n = (symbol v).toUInt8 := by decide +kernel

variable {a b c d : UInt8} {bs cs xs out : List UInt8} {n v : Nat}

theorem value_eq_some (h : value c = some v) : v < 64 ∧ c = (symbol v).toUInt8 := by
  have hc : UInt8.ofNat c.toNat = c := by simp
  have hsymbol := symbol_value c.toNat c.toNat_lt v
  rw [hc] at hsymbol
  exact hsymbol h

theorem number_eq_some (h : number [a, b, c, d] = some n) : ∃ v w x y, v < 64 ∧ w < 64 ∧ x < 64 ∧ y < 64 ∧
    [a, b, c, d] = [symbol v, symbol w, symbol x, symbol y].map Char.toUInt8 ∧ n = ((v * 64 + w) * 64 + x) * 64 + y := by
  unfold number at h
  simp only [List.foldlM_cons, List.foldlM_nil, Option.bind_eq_bind, Option.bind_eq_some_iff, Option.map_eq_some_iff,
    Option.pure_def, Option.some.injEq] at h
  obtain ⟨_, ⟨v, hv, rfl⟩, _, ⟨w, hw, rfl⟩, _, ⟨x, hx, rfl⟩, _, ⟨y, hy, rfl⟩, rfl⟩ := h
  obtain ⟨hv', rfl⟩ := value_eq_some hv
  obtain ⟨hw', rfl⟩ := value_eq_some hw
  obtain ⟨hx', rfl⟩ := value_eq_some hx
  obtain ⟨hy', rfl⟩ := value_eq_some hy
  exact ⟨v, w, x, y, hv', hw', hx', hy', rfl, by omega⟩

theorem number_symbols {v w x y : Nat} (hv : v < 64) (hw : w < 64) (hx : x < 64) (hy : y < 64) :
    number ([symbol v, symbol w, symbol x, symbol y].map Char.toUInt8) = some (((v * 64 + w) * 64 + x) * 64 + y) := by
  simp [number, value_symbol, hv, hw, hx, hy]

theorem toNat_byte (n : Nat) : (byte n).toNat = n % 256 := UInt8.toNat_ofNat'

theorem byte_eq (h : n % 256 = a.toNat) : byte n = a := by
  rw [← UInt8.toNat_inj, toNat_byte, h]

/-! ## Round trips -/

theorem encode_three (a b c : UInt8) (rest : List UInt8) : ∃ v w x y, v < 64 ∧ w < 64 ∧ x < 64 ∧ y < 64 ∧
    encode (a :: b :: c :: rest) = symbol v :: symbol w :: symbol x :: symbol y :: encode rest ∧
    ((v * 64 + w) * 64 + x) * 64 + y = a.toNat * 65536 + b.toNat * 256 + c.toNat := by
  have ha := a.toNat_lt
  have hb := b.toNat_lt
  have hc := c.toNat_lt
  refine ⟨_, _, _, _, Nat.mod_lt _ (by decide), Nat.mod_lt _ (by decide), Nat.mod_lt _ (by decide), Nat.mod_lt _ (by decide), rfl, ?_⟩
  omega

theorem encode_ascii (bs : List UInt8) : ∀ c ∈ encode bs, c.toNat < 128 := by
  have hsymbol (n : Nat) : (symbol (n % 64)).toNat < 128 := symbol_ascii _ (Nat.mod_lt _ (by decide))
  fun_induction encode bs with
  | case1 a b c rest n ih => simpa [hsymbol] using ih
  | case2 a b n => simp [hsymbol]
  | case3 a n => simp [hsymbol]
  | case4 => simp

/-- Bytes come back from what they are encoded to. -/
theorem decode_encode (bs : List UInt8) (h : 3 ∣ bs.length) : decode ((encode bs).map Char.toUInt8) = some bs := by
  match bs, h with
  | [], _ => rfl
  | [_], h => exact absurd h (by simp)
  | [_, _], h => exact absurd h (by simp)
  | a :: b :: c :: rest, h =>
    obtain ⟨v, w, x, y, hv, hw, hx, hy, hcode, hsum⟩ := encode_three a b c rest
    have ha := a.toNat_lt
    have hb := b.toNat_lt
    have hc := c.toNat_lt
    have hnumber := number_symbols hv hw hx hy
    simp only [List.map_cons, List.map_nil] at hnumber
    rw [hcode]
    simp only [List.map_cons]
    rw [decode, hnumber, hsum, decode_encode rest (by simpa [Nat.dvd_add_self_right] using h)]
    simp only [Option.bind_eq_bind, Option.bind_some, Option.pure_def]
    rw [byte_eq (show _ = a.toNat by omega), byte_eq (show _ = b.toNat by omega), byte_eq (show _ = c.toNat by omega)]

/-- Bytes in threes are decoded from their encoding only. -/
theorem encode_decode (xs : List UInt8) {bs : List UInt8} (h : decode xs = some bs) (hlen : 3 ∣ bs.length) :
    xs = (encode bs).map Char.toUInt8 := by
  match xs, h with
  | [], h =>
    obtain rfl := Option.some.inj h
    rfl
  | [_], h => cases h
  | [a, b], h =>
    obtain ⟨n, -, heq⟩ := Option.bind_eq_some_iff.mp h
    obtain rfl := Option.some.inj heq
    exact absurd hlen (by simp)
  | [a, b, c], h =>
    obtain ⟨n, -, heq⟩ := Option.bind_eq_some_iff.mp h
    obtain rfl := Option.some.inj heq
    exact absurd hlen (by simp)
  | a :: b :: c :: d :: rest, h =>
    obtain ⟨n, hn, h⟩ := Option.bind_eq_some_iff.mp h
    obtain ⟨out, hout, heq⟩ := Option.bind_eq_some_iff.mp h
    obtain rfl := Option.some.inj heq
    obtain ⟨v, w, x, y, hv, hw, hx, hy, hchars, rfl⟩ := number_eq_some hn
    have hrest := encode_decode rest hout (by simpa [Nat.dvd_add_self_right] using hlen)
    obtain ⟨v', w', x', y', hv', hw', hx', hy', hcode, hsum⟩ := encode_three (byte ((((v * 64 + w) * 64 + x) * 64 + y) / 2 ^ 16))
      (byte ((((v * 64 + w) * 64 + x) * 64 + y) / 2 ^ 8)) (byte (((v * 64 + w) * 64 + x) * 64 + y)) out
    rw [toNat_byte, toNat_byte, toNat_byte] at hsum
    obtain rfl : v' = v := by omega
    obtain rfl : w' = w := by omega
    obtain rfl : x' = x := by omega
    obtain rfl : y' = y := by omega
    rw [hcode, List.map_cons, List.map_cons, List.map_cons, List.map_cons, ← hrest]
    simp only [List.map_cons, List.map_nil, List.cons.injEq, and_true] at hchars
    obtain ⟨rfl, rfl, rfl, rfl⟩ := hchars
    rfl

end Base64
