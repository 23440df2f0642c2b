import NanoBpm.Lib.Float64Order

/-!
# Integers that floating point numbers hold

An integer of at most 53 bits is its own nearest number, and sums and comparisons of such integers are exact.
-/

namespace F64

/-! ## Rounding what needs no rounding -/

theorem magnitudeOf_normal {shift q : Nat} (hlow : 2 ^ 52 ≤ q) (hhigh : q < 2 ^ 53) :
    magnitudeOf (shift * 2 ^ 52 + q) = q * 2 ^ shift := by
  have hexp : (shift * 2 ^ 52 + q) / 2 ^ 52 = shift + 1 := by omega
  have hfrac : 2 ^ 52 + (shift * 2 ^ 52 + q) % 2 ^ 52 = q := by omega
  rw [magnitudeOf, hexp, hfrac, if_neg (by omega), Nat.add_sub_cancel]

theorem nearest_of_dvd {num unit : Nat} (hunit : 0 < unit) (h : unit ∣ num) : nearest num unit = num / unit := by
  rw [nearest, Nat.mod_eq_zero_of_dvd h, if_neg (by simp; omega)]

/-- A number with enough zeros at its end is not rounded. -/
theorem magnitudeOf_nearestBits {num : Nat} (hpos : 0 < num) (hdvd : 2 ^ (num.log2 - 52) ∣ num) (hlog : 52 ≤ num.log2)
    (hmax : num.log2 < 2098) : magnitudeOf (nearestBits num 1) = num := by
  have hself := Nat.log2_self_le hpos.ne'
  have hlt := Nat.lt_log2_self (n := num)
  obtain ⟨q, hq⟩ := hdvd
  have hpow := Nat.two_pow_pos (num.log2 - 52)
  have hdiv : num / 2 ^ (num.log2 - 52) = q := Nat.div_eq_of_eq_mul_right hpow hq
  have hlow : 2 ^ 52 ≤ q := by
    rw [← hdiv, Nat.le_div_iff_mul_le hpow, ← Nat.pow_add]
    exact (Nat.pow_le_pow_right (by decide) (by omega)).trans hself
  have hhigh : q < 2 ^ 53 := by
    rw [← hdiv, Nat.div_lt_iff_lt_mul hpow, ← Nat.pow_add]
    exact hlt.trans_le (Nat.pow_le_pow_right (by decide) (by omega))
  have hbits : nearestBits num 1 = (num.log2 - 52) * 2 ^ 52 + q := by
    unfold nearestBits
    rw [Nat.div_one, one_mul, nearest_of_dvd hpow ⟨q, hq⟩, hdiv]
    omega
  rw [hbits, magnitudeOf_normal hlow hhigh, Nat.mul_comm, ← hq]

/-! ## Integers of 53 bits -/

theorem log2_mul_two_pow {n : Nat} (h : 0 < n) (k : Nat) : (n * 2 ^ k).log2 = n.log2 + k := by
  induction k with
  | zero => rw [Nat.pow_zero, Nat.mul_one, Nat.add_zero]
  | succ k ih =>
    have hpos : n * 2 ^ k ≠ 0 := (Nat.mul_pos h (Nat.two_pow_pos k)).ne'
    rw [Nat.pow_succ, ← Nat.mul_assoc, Nat.mul_comm, Nat.log2_two_mul hpos, ih, Nat.add_assoc]

theorem log2_mul_one {n : Nat} (h : 0 < n) : (n * one).log2 = n.log2 + 1074 := by
  rw [one.eq_1, log2_mul_two_pow h]

theorem magnitudeOf_ofNat {n : Nat} (h : n ≤ 2 ^ 53) : magnitudeOf (nearestBits (n * one) 1) = n * one := by
  rcases Nat.eq_zero_or_pos n with rfl | hpos
  · rw [Nat.zero_mul]
    decide
  · have hself := Nat.log2_self_le hpos.ne'
    have hlog := log2_mul_one hpos
    have hle : n.log2 ≤ 53 := (Nat.pow_le_pow_iff_right (by decide)).mp (hself.trans h)
    refine magnitudeOf_nearestBits (Nat.mul_pos hpos one_pos) ?_ (by omega) (by omega)
    rw [hlog, one.eq_1]
    rcases hle.lt_or_eq with hlt | heq
    · have hbits : n.log2 + 1074 - 52 ≤ 1074 := by omega
      exact (pow_dvd_pow 2 hbits).mul_left n
    · have hn : n = 2 ^ 53 := h.antisymm (heq ▸ hself)
      have hbits : 53 + 1074 - 52 ≤ 53 + 1074 := Nat.sub_le _ _
      rw [heq, hn, ← pow_add]
      exact pow_dvd_pow 2 hbits

theorem units_ofInt {i : Int} (h : i.natAbs ≤ 2 ^ 53) : units (ofInt i) = i * one := by
  rw [units, magnitude_eq, low_ofInt, magnitudeOf_ofNat h, negative_ofInt]
  by_cases hi : i < 0
  · simp only [hi, decide_true, if_true]
    push_cast
    rw [abs_of_neg hi, neg_mul, neg_neg]
  · simp only [hi, decide_false, Bool.false_eq_true, if_false]
    push_cast
    rw [abs_of_nonneg (by omega)]

theorem ofInt_inj {i j : Int} (hi : i.natAbs ≤ 2 ^ 53) (hj : j.natAbs ≤ 2 ^ 53) (h : ofInt i = ofInt j) : i = j := by
  have hunits := congrArg units h
  rw [units_ofInt hi, units_ofInt hj] at hunits
  have hone : (one : Int) ≠ 0 := by exact_mod_cast one_pos.ne'
  exact mul_right_cancel₀ hone hunits

theorem cmp_ofInt_exact {i j : Int} (hi : i.natAbs ≤ 2 ^ 53) (hj : j.natAbs ≤ 2 ^ 53) :
    cmp (ofInt i) (ofInt j) = some (compare i j) := by
  refine cmp_ofInt ?_
  by_cases h : i = j
  · exact .inl h
  · exact .inr (mt (ofInt_inj hi hj) h)

theorem low_ofInt_le {i : Int} (h : i.natAbs ≤ 2 ^ 53) : low (ofInt i) ≤ low (ofInt (2 ^ 53)) := by
  rw [low_ofInt, low_ofInt]
  exact nearestBits_mono 1 (Nat.mul_le_mul_right _ h)

theorem low_two_pow : low (ofInt (2 ^ 53)) = 1076 * 2 ^ 52 := by decide +kernel

theorem isInfinite_ofInt {i : Int} (h : i.natAbs ≤ 2 ^ 53) : isInfinite (ofInt i) = false := by
  have hlow := low_ofInt_le h
  rw [low_two_pow] at hlow
  rw [isInfinite, exponent_eq, Bool.and_eq_false_iff]
  left
  rw [beq_eq_false_iff_ne]
  omega

theorem isFinite_ofInt {i : Int} (h : i.natAbs ≤ 2 ^ 53) : isFinite (ofInt i) = true := by
  have hlow := low_ofInt_le h
  rw [low_two_pow] at hlow
  rw [isFinite, exponent_eq, bne_iff_ne]
  omega

theorem trunc_ofInt {i : Int} (h : i.natAbs ≤ 2 ^ 53) : trunc (ofInt i) = i := by
  have hone : (one : Int) ≠ 0 := by exact_mod_cast one_pos.ne'
  rw [trunc, units_ofInt h, Int.mul_tdiv_cancel _ hone]

theorem isWhole_ofInt {i : Int} (h : i.natAbs ≤ 2 ^ 53) : isWhole (ofInt i) = true := by
  rw [isWhole, isFinite_ofInt h, magnitude_eq, low_ofInt, magnitudeOf_ofNat h, Nat.mul_mod_left]
  rfl

theorem toNat_abs (a : UInt64) : (abs a).toNat = low a := by
  rw [abs, UInt64.toNat_ofNat', low]
  omega

theorem abs_lt_two_pow {i : Int} (h : i.natAbs ≤ 2 ^ 53) : lt (abs (ofInt i)) (ofInt (2 ^ 63)) = true := by
  have hlow := low_ofInt_le h
  rw [low_two_pow] at hlow
  have habs := toNat_abs (ofInt i)
  have hlowAbs : low (abs (ofInt i)) = low (ofInt i) := by
    rw [low, habs]
    omega
  have hsign : negative (abs (ofInt i)) = false := by
    rw [negative, habs, beq_eq_false_iff_ne]
    omega
  have hnan : isNaN (abs (ofInt i)) = false := by
    rw [isNaN, exponent_eq, hlowAbs, Bool.and_eq_false_iff, beq_eq_false_iff_ne]
    omega
  have hplace : place (ofInt (2 ^ 63)) = 1086 * 2 ^ 52 := by decide +kernel
  rw [lt, cmp_eq hnan (not_isNaN_ofInt _), hplace, place, hsign, hlowAbs, beq_iff_eq, Option.some.injEq, compare_lt_iff_lt]
  simp only [Bool.false_eq_true, if_false]
  omega

/-! ## Operations -/

theorem add_ofInt {i j : Int} (hi : i.natAbs ≤ 2 ^ 53) (hj : j.natAbs ≤ 2 ^ 53) : add (ofInt i) (ofInt j) = ofInt (i + j) := by
  rw [add, not_isNaN_ofInt, not_isNaN_ofInt, isInfinite_ofInt hi, isInfinite_ofInt hj, units_ofInt hi, units_ofInt hj]
  simp only [Bool.or_self, Bool.false_eq_true, if_false]
  rw [← add_mul]
  split
  · next hzero =>
    have hsum : i + j = 0 := by
      have hone : (one : Int) ≠ 0 := by exact_mod_cast one_pos.ne'
      exact (mul_eq_zero.mp hzero).resolve_right hone
    have hsign : (negative (ofInt i) && negative (ofInt j)) = false := by
      rw [negative_ofInt, negative_ofInt, ← Bool.not_eq_true, Bool.and_eq_true, decide_eq_true_eq, decide_eq_true_eq]
      omega
    rw [hsign, hsum]
    decide +kernel
  · rfl

theorem infinity_spec : ∀ sign, isNaN (infinity sign) = false ∧ isInfinite (infinity sign) = true ∧
    negative (infinity sign) = sign ∧ low (infinity sign) = 2047 * 2 ^ 52 ∧
    min (infinity false) (infinity sign) = infinity sign ∧ max (infinity true) (infinity sign) = infinity sign := by
  decide +kernel

theorem isNaN_infinity (sign : Bool) : isNaN (infinity sign) = false := (infinity_spec sign).1

theorem isInfinite_infinity (sign : Bool) : isInfinite (infinity sign) = true := (infinity_spec sign).2.1

theorem negative_infinity (sign : Bool) : negative (infinity sign) = sign := (infinity_spec sign).2.2.1

theorem ne_infinity {a : UInt64} (hinf : isInfinite a = false) (sign : Bool) : a ≠ infinity sign := by
  rintro rfl
  rw [isInfinite_infinity] at hinf
  cases hinf

theorem cmp_infinity {a : UInt64} (hnan : isNaN a = false) (hinf : isInfinite a = false) (sign : Bool) :
    cmp a (infinity sign) = some (if sign then .gt else .lt) := by
  rw [cmp, hnan, isNaN_infinity, if_neg (by decide), if_neg (ne_infinity hinf sign), hinf, isInfinite_infinity,
    negative_infinity]
  rfl

theorem infinity_of_isInfinite {a : UInt64} (h : isInfinite a = true) : a = infinity (negative a) := by
  obtain ⟨-, -, hsign, hlow, -, -⟩ := infinity_spec (negative a)
  have hnan : isNaN a = false := by
    rw [isInfinite, Bool.and_eq_true, beq_iff_eq, beq_iff_eq] at h
    rw [isNaN, h.2]
    simp
  exact eq_of_low hsign.symm (((isInfinite_iff hnan).mp h).trans hlow.symm)

theorem min_infinity {a : UInt64} (hnan : isNaN a = false) : min (infinity false) a = a := by
  cases hinf : isInfinite a with
  | false =>
    rw [min, isNaN_infinity, hnan, lt, cmp_infinity hnan hinf]
    rfl
  | true =>
    rw [infinity_of_isInfinite hinf]
    exact (infinity_spec _).2.2.2.2.1

theorem max_infinity {a : UInt64} (hnan : isNaN a = false) : max (infinity true) a = a := by
  cases hinf : isInfinite a with
  | false =>
    have hcmp : cmp (infinity true) a = some .lt := by
      rw [cmp, hnan, isNaN_infinity, if_neg (by decide), if_neg (ne_infinity hinf true).symm, isInfinite_infinity,
        negative_infinity]
      rfl
    rw [max, isNaN_infinity, hnan, lt, hcmp]
    rfl
  | true =>
    rw [infinity_of_isInfinite hinf]
    exact (infinity_spec _).2.2.2.2.2

theorem lt_iff_place {a b : UInt64} (ha : isNaN a = false) (hb : isNaN b = false) : lt a b = true ↔ place a < place b := by
  rw [lt, cmp_eq ha hb, beq_iff_eq, Option.some.injEq, compare_lt_iff_lt]

theorem le_of_place_ofInt {i j : Int} (hi : i.natAbs ≤ 2 ^ 53) (hj : j.natAbs ≤ 2 ^ 53)
    (h : place (ofInt i) ≤ place (ofInt j)) : i ≤ j := by
  by_contra hlt
  have hcmp := cmp_ofInt_exact hj hi
  rw [cmp_eq (not_isNaN_ofInt j) (not_isNaN_ofInt i), compare_lt_iff_lt.mpr (not_le.mp hlt), Option.some.injEq,
    compare_lt_iff_lt] at hcmp
  exact absurd h (not_le.mpr hcmp)

/-! ## The least and the greatest of some numbers -/

theorem foldl_min_spec {nums : List UInt64} {a : UInt64} (h : ∀ n ∈ a :: nums, isNaN n = false) :
    nums.foldl min a ∈ a :: nums ∧ ∀ k ∈ a :: nums, place (nums.foldl min a) ≤ place k := by
  induction nums generalizing a with
  | nil => simp
  | cons n nums ih =>
    obtain ⟨ha, hn, hnums⟩ : isNaN a = false ∧ isNaN n = false ∧ ∀ k ∈ nums, isNaN k = false := by simpa using h
    have hmin : min a n = if lt n a then n else a := by rw [min, ha, hn]; rfl
    rw [List.foldl_cons, hmin]
    have hlt := lt_iff_place hn ha
    split
    · next hna =>
      obtain ⟨hmem, hle⟩ := ih (List.forall_mem_cons.mpr ⟨hn, hnums⟩)
      refine ⟨List.mem_cons_of_mem _ hmem, List.forall_mem_cons.mpr ⟨?_, hle⟩⟩
      exact (hle n List.mem_cons_self).trans (hlt.mp hna).le
    · next hna =>
      obtain ⟨hmem, hle⟩ := ih (List.forall_mem_cons.mpr ⟨ha, hnums⟩)
      obtain ⟨hlea, hlenums⟩ := List.forall_mem_cons.mp hle
      refine ⟨?_, List.forall_mem_cons.mpr ⟨hlea, List.forall_mem_cons.mpr ⟨?_, hlenums⟩⟩⟩
      · rcases List.mem_cons.mp hmem with heq | hmem
        · rw [heq]
          exact List.mem_cons_self
        · exact List.mem_cons_of_mem _ (List.mem_cons_of_mem _ hmem)
      · exact hlea.trans (not_lt.mp (mt hlt.mpr hna))

theorem foldl_max_spec {nums : List UInt64} {a : UInt64} (h : ∀ n ∈ a :: nums, isNaN n = false) :
    nums.foldl max a ∈ a :: nums ∧ ∀ k ∈ a :: nums, place k ≤ place (nums.foldl max a) := by
  induction nums generalizing a with
  | nil => simp
  | cons n nums ih =>
    obtain ⟨ha, hn, hnums⟩ : isNaN a = false ∧ isNaN n = false ∧ ∀ k ∈ nums, isNaN k = false := by simpa using h
    have hmax : max a n = if lt a n then n else a := by rw [max, ha, hn]; rfl
    rw [List.foldl_cons, hmax]
    have hlt := lt_iff_place ha hn
    split
    · next han =>
      obtain ⟨hmem, hle⟩ := ih (List.forall_mem_cons.mpr ⟨hn, hnums⟩)
      refine ⟨List.mem_cons_of_mem _ hmem, List.forall_mem_cons.mpr ⟨?_, hle⟩⟩
      exact (hlt.mp han).le.trans (hle n List.mem_cons_self)
    · next han =>
      obtain ⟨hmem, hle⟩ := ih (List.forall_mem_cons.mpr ⟨ha, hnums⟩)
      obtain ⟨hlea, hlenums⟩ := List.forall_mem_cons.mp hle
      refine ⟨?_, List.forall_mem_cons.mpr ⟨hlea, List.forall_mem_cons.mpr ⟨?_, hlenums⟩⟩⟩
      · rcases List.mem_cons.mp hmem with heq | hmem
        · rw [heq]
          exact List.mem_cons_self
        · exact List.mem_cons_of_mem _ (List.mem_cons_of_mem _ hmem)
      · exact (not_lt.mp (mt hlt.mpr han)).trans hlea

/-! ## Sums -/

section

variable {is : List Int}

/-- The sums of the first elements fit. -/
def SumsFit (is : List Int) : Prop := ∀ n, (is.take n).sum.natAbs ≤ 2 ^ 53

theorem foldl_add_ofInt {k : Int} (h : ∀ i ∈ is, i.natAbs ≤ 2 ^ 53) (hsums : ∀ n, (k + (is.take n).sum).natAbs ≤ 2 ^ 53) :
    (is.map ofInt).foldl add (ofInt k) = ofInt (k + is.sum) := by
  induction is generalizing k with
  | nil => simp
  | cons i is ih =>
    obtain ⟨hi, his⟩ := List.forall_mem_cons.mp h
    have hk : k.natAbs ≤ 2 ^ 53 := by simpa using hsums 0
    rw [List.map_cons, List.foldl_cons, add_ofInt hk hi, List.sum_cons, ← add_assoc]
    refine ih his fun n => ?_
    have := hsums (n + 1)
    rwa [List.take_succ_cons, List.sum_cons, ← add_assoc] at this

end

end F64
