import Mathlib.Data.List.Induction
import Mathlib.Tactic.Ring

/-!
# Numbers in decimal

A list of digits as a number: how it is cut and padded, and what is left of a fraction that is rounded half up at a place.
-/

namespace Decimal

/-- The number that digits write. -/
def value (ds : List Char) : Nat := Nat.ofDigitChars 10 ds 0

def AllDigits (ds : List Char) : Prop := ∀ c ∈ ds, c.isDigit

def Number (ds : List Char) : Prop := ds ≠ [] ∧ AllDigits ds

instance (ds : List Char) : Decidable (AllDigits ds) := inferInstanceAs (Decidable (∀ c ∈ ds, c.isDigit = true))

instance (ds : List Char) : Decidable (Number ds) := inferInstanceAs (Decidable (_ ∧ _))

variable {xs ys ds : List Char} {c : Char} {n k : Nat}

@[simp]
theorem value_nil : value [] = 0 := rfl

@[simp]
theorem value_append (xs ys : List Char) : value (xs ++ ys) = 10 ^ ys.length * value xs + value ys := by
  unfold value
  rw [Nat.ofDigitChars_append, Nat.ofDigitChars_eq_ofDigitChars_zero]

theorem value_concat (xs : List Char) (c : Char) : value (xs ++ [c]) = value xs * 10 + (c.toNat - 48) := by
  unfold value
  rw [Nat.ofDigitChars_append, Nat.ofDigitChars_cons, Nat.ofDigitChars_nil, Nat.mul_comm]
  rfl

theorem value_cons (c : Char) (ds : List Char) : value (c :: ds) = 10 ^ ds.length * (c.toNat - 48) + value ds := by
  have hone : value [c] = c.toNat - 48 := by simp [value, Nat.ofDigitChars_cons]
  rw [← hone, ← value_append]
  rfl

@[simp]
theorem value_zeros (k : Nat) : value (List.replicate k '0') = 0 := by
  simp [value]

@[simp]
theorem value_toDigits (n : Nat) : value (Nat.toDigits 10 n) = n := Nat.ofDigitChars_ten_toDigits

@[simp]
theorem allDigits_nil : AllDigits [] := fun _ h => absurd h List.not_mem_nil

@[simp]
theorem allDigits_append : AllDigits (xs ++ ys) ↔ AllDigits xs ∧ AllDigits ys := List.forall_mem_append

@[simp]
theorem allDigits_cons : AllDigits (c :: ds) ↔ c.isDigit ∧ AllDigits ds := List.forall_mem_cons

theorem AllDigits.mono (h : AllDigits ys) (hsub : ∀ c ∈ xs, c ∈ ys) : AllDigits xs := fun c hc => h c (hsub c hc)

theorem digit_le (hc : c.isDigit) : c.toNat - 48 ≤ 9 := by
  have h := Char.isDigit_iff_toNat.mp hc
  have hnine : '9'.toNat = 57 := rfl
  omega

theorem value_lt (h : AllDigits ds) : value ds < 10 ^ ds.length := by
  induction ds using List.reverseRecOn with
  | nil => decide
  | append_singleton ds c ih =>
    obtain ⟨hds, hc⟩ := allDigits_append.mp h
    have hlt := ih hds
    have hdigit := digit_le (hc c List.mem_cons_self)
    rw [value_concat, List.length_append, List.length_singleton, Nat.pow_succ]
    omega

/-! ## Fractions rounded at a place -/

/-- The first places of a fraction, missing ones zero. -/
def places (k : Nat) (ds : List Char) : Nat := value (ds.take k ++ List.replicate (k - ds.length) '0')

/-- A fraction in units of the last place, rounded half up: `⌊0.ds * 10 ^ k + 1 / 2⌋`. -/
def rounded (k : Nat) (ds : List Char) : Nat := (2 * (value ds * 10 ^ k) + 10 ^ ds.length) / (2 * 10 ^ ds.length)

theorem places_of_le (h : ds.length ≤ k) : places k ds = value ds * 10 ^ (k - ds.length) := by
  rw [places, List.take_of_length_le h, value_append, value_zeros, List.length_replicate, Nat.add_zero, Nat.mul_comm]

theorem places_of_ge (h : k ≤ ds.length) : places k ds = value (ds.take k) := by
  rw [places, Nat.sub_eq_zero_of_le h, List.replicate_zero, List.append_nil]

theorem places_succ (k : Nat) (ds : List Char) :
    places (k + 1) ds = places k ds * 10 + match ds[k]? with
      | some c => c.toNat - 48
      | none => 0 := by
  rcases Nat.lt_or_ge k ds.length with hk | hk
  · rw [places_of_ge hk.le, places_of_ge hk, List.take_add_one, List.getElem?_eq_getElem hk]
    exact value_concat _ _
  · rw [places_of_le hk, places_of_le (by omega), List.getElem?_eq_none hk, Nat.succ_sub hk, Nat.pow_succ]
    ring

@[simp]
theorem rounded_nil (k : Nat) : rounded k [] = 0 := by
  simp [rounded]

/-- Half a unit is added before the rest is cut off. -/
theorem half_up {a b r : Nat} (hb : 0 < b) (hr : r < b) : (2 * (a * b + r) + b) / (2 * b) = a + if b ≤ 2 * r then 1 else 0 := by
  rw [show 2 * (a * b + r) + b = (2 * r + b) + a * (2 * b) by ring, Nat.add_mul_div_right _ _ (by omega), Nat.add_comm]
  congr 1
  split
  · exact Nat.div_eq_of_lt_le (by omega) (by omega)
  · exact Nat.div_eq_of_lt (by omega)

/-- Digits of which the first is at least 5 are half a unit or more. -/
theorem le_two_mul_value (hds : AllDigits ds) (c : Char) : 10 ^ (ds.length + 1) ≤ 2 * value (c :: ds) ↔ 5 ≤ c.toNat - 48 := by
  have hlt := value_lt hds
  rw [value_cons, Nat.pow_succ]
  obtain ⟨p, hp⟩ : ∃ p, p = 10 ^ ds.length := ⟨_, rfl⟩
  rw [← hp] at hlt ⊢
  constructor
  · intro h
    by_contra hsmall
    have hle : p * (c.toNat - 48) ≤ p * 4 := Nat.mul_le_mul_left p (by omega)
    omega
  · intro h
    have hle : p * 5 ≤ p * (c.toNat - 48) := Nat.mul_le_mul_left p h
    omega

/-- A fraction is rounded by its next place. -/
theorem rounded_eq (h : AllDigits ds) (k : Nat) :
    rounded k ds = places k ds + match ds[k]? with
      | some c => if 5 ≤ c.toNat - 48 then 1 else 0
      | none => 0 := by
  rcases Nat.lt_or_ge k ds.length with hk | hk
  · have hpos : 0 < 10 ^ ds.length := Nat.pow_pos (by decide)
    obtain ⟨c, hc⟩ : ∃ c, ds[k]? = some c := ⟨_, List.getElem?_eq_getElem hk⟩
    have hrest : ds.drop k = c :: ds.drop (k + 1) := by
      rw [List.drop_eq_getElem_cons hk]
      rw [List.getElem?_eq_getElem hk] at hc
      rw [Option.some.inj hc]
    have hcut : value ds = value (ds.take k) * 10 ^ (ds.length - k) + value (ds.drop k) := by
      rw [← List.length_drop, Nat.mul_comm, ← value_append, List.take_append_drop]
    have hrestLt : value (ds.drop k) < 10 ^ (ds.length - k) := by
      rw [← List.length_drop]
      exact value_lt (h.mono fun _ => List.mem_of_mem_drop)
    have hround : 10 ^ (ds.length - k) ≤ 2 * value (ds.drop k) ↔ 5 ≤ c.toNat - 48 := by
      have hlen : ds.length - k = (ds.drop (k + 1)).length + 1 := by rw [List.length_drop]; omega
      rw [hlen, hrest]
      exact le_two_mul_value (h.mono fun _ => List.mem_of_mem_drop) c
    have hscale : 10 ^ ds.length = 10 ^ (ds.length - k) * 10 ^ k := by
      rw [← Nat.pow_add, Nat.sub_add_cancel hk.le]
    have hk' : 0 < 10 ^ k := Nat.pow_pos (by decide)
    have hunit : 0 < 10 ^ (ds.length - k) := Nat.pow_pos (by decide)
    rw [rounded, hscale, show 2 * (value ds * 10 ^ k) + 10 ^ (ds.length - k) * 10 ^ k =
      (2 * value ds + 10 ^ (ds.length - k)) * 10 ^ k by ring, ← Nat.mul_assoc, Nat.mul_div_mul_right _ _ hk', hcut,
      half_up hunit hrestLt, places_of_ge hk.le, hc]
    simp only [hround]
  · have hone : 0 < 10 ^ ds.length := Nat.pow_pos (by decide)
    have hnone : ds[k]? = none := List.getElem?_eq_none hk
    have hscale : 10 ^ k = 10 ^ (k - ds.length) * 10 ^ ds.length := by
      rw [← Nat.pow_add, Nat.sub_add_cancel hk]
    have hhalf := half_up (a := value ds * 10 ^ (k - ds.length)) (r := 0) hone hone
    rw [Nat.add_zero, if_neg (by omega)] at hhalf
    rw [rounded, hscale, hnone, places_of_le hk, ← hhalf, Nat.mul_assoc (value ds)]

end Decimal
