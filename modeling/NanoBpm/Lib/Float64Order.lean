import NanoBpm.Lib.Float64
import Mathlib.Tactic.Linarith
import Mathlib.Tactic.Ring

/-!
# The order of floating point numbers

Numbers are in the order of their bits below the sign (`cmp_eq`), and rounding keeps the order (`nearestBits_mono`). So two
integers compare as their nearest numbers do, unless these are the same (`cmp_ofInt`).
-/

namespace F64

/-! ## Numbers as their bits are -/

/-- The bits below the sign. -/
def low (b : UInt64) : Nat := b.toNat % 2 ^ 63

/-- The magnitude that the bits below the sign stand for, in units. -/
def magnitudeOf (m : Nat) : Nat := if m / 2 ^ 52 = 0 then m % 2 ^ 52 else (2 ^ 52 + m % 2 ^ 52) * 2 ^ (m / 2 ^ 52 - 1)

/-- Where a number is among the others. -/
def place (b : UInt64) : Int := if negative b then -(low b : Int) else low b

theorem exponent_eq (b : UInt64) : exponent b = low b / 2 ^ 52 := by
  unfold exponent low
  omega

theorem fraction_eq (b : UInt64) : fraction b = low b % 2 ^ 52 := by
  unfold fraction low
  omega

theorem magnitude_eq (b : UInt64) : magnitude b = magnitudeOf (low b) := by
  rw [magnitude, magnitudeOf, exponent_eq, fraction_eq]

theorem magnitudeOf_lt {m n : Nat} (h : m < n) : magnitudeOf m < magnitudeOf n := by
  unfold magnitudeOf
  rcases Nat.lt_or_ge (m / 2 ^ 52) (n / 2 ^ 52) with hexp | hexp
  · rw [if_neg (by omega : ¬n / 2 ^ 52 = 0)]
    have hlow : (2 ^ 52 + m % 2 ^ 52) < 2 ^ 53 := by omega
    by_cases hm : m / 2 ^ 52 = 0
    · rw [if_pos hm]
      calc m % 2 ^ 52 < (2 ^ 52 + n % 2 ^ 52) * 1 := by omega
        _ ≤ (2 ^ 52 + n % 2 ^ 52) * 2 ^ (n / 2 ^ 52 - 1) := Nat.mul_le_mul_left _ Nat.one_le_two_pow
    · rw [if_neg hm]
      calc (2 ^ 52 + m % 2 ^ 52) * 2 ^ (m / 2 ^ 52 - 1) < 2 ^ 53 * 2 ^ (m / 2 ^ 52 - 1) :=
            Nat.mul_lt_mul_of_pos_right hlow (Nat.two_pow_pos _)
        _ = 2 ^ 52 * 2 ^ (m / 2 ^ 52 - 1 + 1) := by ring
        _ ≤ 2 ^ 52 * 2 ^ (n / 2 ^ 52 - 1) := Nat.mul_le_mul_left _ (Nat.pow_le_pow_right (by decide) (by omega))
        _ ≤ (2 ^ 52 + n % 2 ^ 52) * 2 ^ (n / 2 ^ 52 - 1) := Nat.mul_le_mul_right _ (by omega)
  · have hsame : m / 2 ^ 52 = n / 2 ^ 52 := by omega
    rw [hsame]
    split
    · omega
    · exact Nat.mul_lt_mul_of_pos_right (by omega) (Nat.two_pow_pos _)

theorem magnitudeOf_lt_iff {m n : Nat} : magnitudeOf m < magnitudeOf n ↔ m < n := by
  refine ⟨fun h => ?_, magnitudeOf_lt⟩
  by_contra hle
  rcases (Nat.le_of_not_lt hle).lt_or_eq with hlt | rfl
  · have := magnitudeOf_lt hlt
    omega
  · omega

theorem magnitudeOf_zero : magnitudeOf 0 = 0 := rfl

/-- Numbers that are some, and not infinite, are ordered as their places. -/
theorem compare_units (a b : UInt64) : compare (units a) (units b) = compare (place a) (place b) := by
  have hlt := magnitudeOf_lt_iff (m := low a) (n := low b)
  have hgt := magnitudeOf_lt_iff (m := low b) (n := low a)
  have hza := magnitudeOf_lt_iff (m := 0) (n := low a)
  have hzb := magnitudeOf_lt_iff (m := 0) (n := low b)
  rw [magnitudeOf_zero] at hza hzb
  unfold units place
  rw [magnitude_eq, magnitude_eq]
  generalize magnitudeOf (low a) = x at *
  generalize magnitudeOf (low b) = y at *
  rcases lt_trichotomy (if negative a then -(low a : Int) else low a) (if negative b then -(low b : Int) else low b)
    with h | h | h
  · rw [compare_lt_iff_lt.mpr h, compare_lt_iff_lt]
    split at h <;> split at h <;> simp [*] <;> omega
  · rw [compare_eq_iff_eq.mpr h, compare_eq_iff_eq]
    split at h <;> split at h <;> simp [*] <;> omega
  · rw [compare_gt_iff_gt.mpr h, compare_gt_iff_gt]
    split at h <;> split at h <;> simp [*] <;> omega

theorem place_lt_infinity {a : UInt64} (hnan : isNaN a = false) : low a ≤ 2047 * 2 ^ 52 := by
  have hlow : low a < 2 ^ 63 := Nat.mod_lt _ (by decide)
  simp only [isNaN, exponent_eq, fraction_eq, Bool.and_eq_false_iff, beq_eq_false_iff_ne, bne_eq_false_iff_eq] at hnan
  omega

theorem isInfinite_iff {a : UInt64} (hnan : isNaN a = false) : isInfinite a = true ↔ low a = 2047 * 2 ^ 52 := by
  have hle := place_lt_infinity hnan
  simp only [isInfinite, exponent_eq, fraction_eq, Bool.and_eq_true, beq_iff_eq]
  omega

/-- The bits are the sign and those below it. -/
theorem eq_of_low {a b : UInt64} (hsign : negative a = negative b) (hlow : low a = low b) : a = b := by
  have ha : a.toNat < 2 ^ 64 := a.toNat_lt
  have hb : b.toNat < 2 ^ 64 := b.toNat_lt
  unfold negative at hsign
  unfold low at hlow
  rw [Bool.eq_iff_iff] at hsign
  simp only [beq_iff_eq] at hsign
  rw [← UInt64.toNat_inj]
  omega

/-- Numbers, also infinite ones, are ordered as their places. -/
theorem cmp_eq {a b : UInt64} (ha : isNaN a = false) (hb : isNaN b = false) :
    cmp a b = some (compare (place a) (place b)) := by
  have hinfA := isInfinite_iff ha
  have hinfB := isInfinite_iff hb
  have hleA := place_lt_infinity ha
  have hleB := place_lt_infinity hb
  unfold cmp
  rw [ha, hb, Bool.or_false, if_neg (by decide)]
  by_cases heq : a = b
  · rw [if_pos heq, heq]
    simp
  · rw [if_neg heq]
    have hdiffer : negative a = negative b → low a ≠ low b := fun hs hl => heq (eq_of_low hs hl)
    by_cases hia : isInfinite a = true
    · have hlow := hinfA.mp hia
      rw [if_pos hia, Option.some.injEq, eq_comm]
      unfold place
      cases hna : negative a <;> cases hnb : negative b <;>
        simp only [hna, hnb, if_true, if_false, Bool.false_eq_true, reduceCtorEq, forall_const, false_implies] at * <;>
        first
          | exact compare_lt_iff_lt.mpr (by omega)
          | exact compare_gt_iff_gt.mpr (by omega)
    · rw [if_neg hia]
      by_cases hib : isInfinite b = true
      · have hlow := hinfB.mp hib
        rw [if_pos hib, Option.some.injEq, eq_comm]
        unfold place
        cases hna : negative a <;> cases hnb : negative b <;>
          simp only [hna, hnb, if_true, if_false, Bool.false_eq_true, reduceCtorEq, forall_const, false_implies] at * <;>
          first
            | exact compare_lt_iff_lt.mpr (by omega)
            | exact compare_gt_iff_gt.mpr (by omega)
      · rw [if_neg hib, compare_units]

/-! ## Rounding -/

/-- The whole number nearest to `num / unit`, the even one of two. -/
def nearest (num unit : Nat) : Nat :=
  if 2 * (num % unit) > unit || (2 * (num % unit) == unit && num / unit % 2 == 1) then num / unit + 1 else num / unit

/-- The bits below the sign of the number nearest to `num / den` units. -/
def nearestBits (num den : Nat) : Nat :=
  Min.min (((num / den).log2 - 52) * 2 ^ 52 + nearest num (den * 2 ^ ((num / den).log2 - 52))) (2047 * 2 ^ 52)

theorem round_eq (negative : Bool) (num den : Nat) :
    round negative num den = .ofNat (signBit negative + nearestBits num den) := rfl

theorem nearest_bounds (num unit : Nat) : num / unit ≤ nearest num unit ∧ nearest num unit ≤ num / unit + 1 := by
  unfold nearest
  split <;> omega

theorem nearest_mono {a b : Nat} (unit : Nat) (h : a ≤ b) : nearest a unit ≤ nearest b unit := by
  have hq := Nat.div_le_div_right (c := unit) h
  rcases hq.lt_or_eq with hlt | heq
  · have := (nearest_bounds a unit).2
    have := (nearest_bounds b unit).1
    omega
  · -- With the same quotient the remainders are ordered, and with them whether they are rounded up.
    have hdivA := Nat.div_add_mod a unit
    have hdivB := Nat.div_add_mod b unit
    rw [heq] at hdivA
    have hrem : a % unit ≤ b % unit := by omega
    unfold nearest
    rw [heq]
    simp only [Bool.or_eq_true, Bool.and_eq_true, decide_eq_true_eq, beq_iff_eq]
    split <;> split <;> omega

theorem log2_mono {x y : Nat} (h : x ≤ y) : x.log2 ≤ y.log2 := by
  rcases Nat.eq_zero_or_pos x with rfl | hx
  · exact Nat.zero_le _
  · exact (Nat.le_log2 (by omega)).mpr ((Nat.log2_self_le hx.ne').trans h)

/-- Rounding keeps the order: one power of two further up, the bits continue. -/
theorem nearestBits_mono {a b : Nat} (den : Nat) (h : a ≤ b) : nearestBits a den ≤ nearestBits b den := by
  have hxy := Nat.div_le_div_right (c := den) h
  have hlog := log2_mono hxy
  have hsucc := Nat.lt_log2_self (n := a / den)
  have hself : b / den ≠ 0 → 2 ^ (b / den).log2 ≤ b / den := Nat.log2_self_le
  unfold nearestBits
  refine le_min ((Nat.min_le_left _ _).trans ?_) (Nat.min_le_right _ _)
  obtain ⟨s, hs⟩ : ∃ s, s = (a / den).log2 - 52 := ⟨_, rfl⟩
  obtain ⟨t, ht⟩ : ∃ t, t = (b / den).log2 - 52 := ⟨_, rfl⟩
  rw [← hs, ← ht]
  rcases (show s ≤ t by omega).lt_or_eq with hst | rfl
  · have hbelow : a / den / 2 ^ s < 2 ^ 53 := by
      rw [Nat.div_lt_iff_lt_mul (Nat.two_pow_pos s), ← Nat.pow_add]
      exact hsucc.trans_le (Nat.pow_le_pow_right (by decide) (by omega))
    have habove : 2 ^ 52 ≤ b / den / 2 ^ t := by
      rw [Nat.le_div_iff_mul_le (Nat.two_pow_pos t), ← Nat.pow_add]
      have hb : b / den ≠ 0 := by
        intro hzero
        rw [hzero, Nat.log2_zero] at ht
        omega
      exact (Nat.pow_le_pow_right (by decide) (by omega)).trans (hself hb)
    have hupper := (nearest_bounds a (den * 2 ^ s)).2
    have hlower := (nearest_bounds b (den * 2 ^ t)).1
    rw [← Nat.div_div_eq_div_mul] at hupper hlower
    omega
  · exact Nat.add_le_add_left (nearest_mono _ h) _

theorem nearestBits_pos {num : Nat} (h : 0 < num) : 0 < nearestBits num 1 := by
  unfold nearestBits
  rw [Nat.div_one, one_mul]
  have hself := Nat.log2_self_le h.ne'
  have hq : 1 ≤ num / 2 ^ (num.log2 - 52) := by
    rw [Nat.le_div_iff_mul_le (Nat.two_pow_pos _), one_mul]
    exact (Nat.pow_le_pow_right (by decide) (Nat.sub_le _ _)).trans hself
  have := (nearest_bounds num (2 ^ (num.log2 - 52))).1
  omega

section Round

variable (negative : Bool) (num den : Nat)

theorem nearestBits_le : nearestBits num den ≤ 2047 * 2 ^ 52 := Nat.min_le_right _ _

theorem toNat_round : (round negative num den).toNat = signBit negative + nearestBits num den := by
  have := nearestBits_le num den
  rw [round_eq, UInt64.toNat_ofNat']
  refine Nat.mod_eq_of_lt ?_
  cases negative <;> simp only [signBit, if_true, Bool.false_eq_true, if_false] <;> omega

theorem low_round : low (round negative num den) = nearestBits num den := by
  have := nearestBits_le num den
  rw [low, toNat_round]
  cases negative <;> simp only [signBit, if_true, Bool.false_eq_true, if_false] <;> omega

theorem negative_round : F64.negative (round negative num den) = negative := by
  have := nearestBits_le num den
  rw [F64.negative, toNat_round, Bool.eq_iff_iff, beq_iff_eq]
  cases negative <;> simp only [signBit, if_true, Bool.false_eq_true, if_false, iff_true, iff_false] <;> omega

theorem not_isNaN_round : isNaN (round negative num den) = false := by
  have := nearestBits_le num den
  rw [isNaN, exponent_eq, fraction_eq, low_round, Bool.and_eq_false_iff, beq_eq_false_iff_ne, bne_eq_false_iff_eq]
  omega

end Round

/-! ## Integers -/

theorem one_pos : 0 < one := by
  unfold one
  apply Nat.two_pow_pos

theorem mul_one_neg_iff (i : Int) : i * (one : Int) < 0 ↔ i < 0 := by
  have hone : (0 : Int) < one := by exact_mod_cast one_pos
  constructor
  · intro h
    by_contra hge
    exact absurd (mul_nonneg (not_lt.mp hge) hone.le) (not_le.mpr h)
  · exact fun h => mul_neg_of_neg_of_pos h hone

theorem low_ofInt (i : Int) : low (ofInt i) = nearestBits (i.natAbs * one) 1 := by
  rw [ofInt, ofUnits, low_round, Int.natAbs_mul, Int.natAbs_natCast]

theorem negative_ofInt (i : Int) : negative (ofInt i) = decide (i < 0) := by
  rw [ofInt, ofUnits, negative_round, decide_eq_decide]
  exact mul_one_neg_iff i

theorem not_isNaN_ofInt (i : Int) : isNaN (ofInt i) = false := not_isNaN_round _ _ _

theorem place_ofInt (i : Int) :
    place (ofInt i) = if i < 0 then -(nearestBits (i.natAbs * one) 1 : Int) else nearestBits (i.natAbs * one) 1 := by
  rw [place, negative_ofInt, low_ofInt]
  simp only [decide_eq_true_eq]

theorem place_ofInt_mono {i j : Int} (h : i ≤ j) : place (ofInt i) ≤ place (ofInt j) := by
  rw [place_ofInt, place_ofInt]
  have hpos : ∀ n : Nat, (0 : Int) ≤ nearestBits n 1 := fun n => Int.natCast_nonneg _
  split
  · split
    · have hle : nearestBits (j.natAbs * one) 1 ≤ nearestBits (i.natAbs * one) 1 :=
        nearestBits_mono 1 (Nat.mul_le_mul_right _ (by omega))
      omega
    · have := hpos (i.natAbs * one)
      have := hpos (j.natAbs * one)
      omega
  · rw [if_neg (by omega)]
    have hle : nearestBits (i.natAbs * one) 1 ≤ nearestBits (j.natAbs * one) 1 :=
      nearestBits_mono 1 (Nat.mul_le_mul_right _ (by omega))
    omega

theorem place_ofInt_neg_iff (i : Int) : place (ofInt i) < 0 ↔ i < 0 := by
  rw [place_ofInt]
  split
  · have := nearestBits_pos (Nat.mul_pos (show 0 < i.natAbs by omega) one_pos)
    omega
  · omega

theorem place_ofInt_inj {i j : Int} (h : place (ofInt i) = place (ofInt j)) : ofInt i = ofInt j := by
  have hi := place_ofInt_neg_iff i
  have hj := place_ofInt_neg_iff j
  have hsign : negative (ofInt i) = negative (ofInt j) := by
    rw [negative_ofInt, negative_ofInt, decide_eq_decide, ← hi, ← hj, h]
  refine eq_of_low hsign ?_
  unfold place at h
  rw [hsign] at h
  split at h <;> omega

/-- Integers compare as their nearest numbers do, unless these are the same. -/
theorem cmp_ofInt {i j : Int} (h : i = j ∨ ofInt i ≠ ofInt j) : cmp (ofInt i) (ofInt j) = some (compare i j) := by
  rw [cmp_eq (not_isNaN_ofInt i) (not_isNaN_ofInt j)]
  rcases h with rfl | hne
  · simp
  · have hplace := mt place_ofInt_inj hne
    rcases lt_trichotomy i j with hlt | rfl | hgt
    · have := place_ofInt_mono hlt.le
      rw [compare_lt_iff_lt.mpr hlt, compare_lt_iff_lt.mpr (by omega)]
    · exact absurd rfl hne
    · have := place_ofInt_mono hgt.le
      rw [compare_gt_iff_gt.mpr hgt, compare_gt_iff_gt.mpr (by omega)]

end F64
