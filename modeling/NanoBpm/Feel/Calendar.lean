import NanoBpm.Feel.Temporal
import NanoBpm.Lib.Gregorian
import Mathlib.Tactic.Linarith

/-!
# The calendar of the temporal values

Day numbers and dates are converted with the year begun in March, in eras of 400 years. For the years that
`Date::parse` reads, this is the Gregorian calendar, counted from 1 January 1970.
-/

namespace NanoBpm.FeelExpr

open Gregorian (IsDate Leap yearLength monthLength daysBeforeYear daysBeforeMonth)

/-- The day of the common era that day 0 is. -/
def epochNumber : Int := 719163

/-! ## From a date to its day -/

theorem isLeap_iff (y : Int) : isLeap y = true ↔ Leap y := by
  simp only [isLeap, Leap, Bool.or_eq_true, Bool.and_eq_true, beq_iff_eq, bne_iff_ne, ne_eq]
  have h4 : y.tmod 4 = 0 ↔ y % 4 = 0 := by rw [← Int.dvd_iff_tmod_eq_zero, Int.dvd_iff_emod_eq_zero]
  have h100 : y.tmod 100 = 0 ↔ y % 100 = 0 := by rw [← Int.dvd_iff_tmod_eq_zero, Int.dvd_iff_emod_eq_zero]
  have h400 : y.tmod 400 = 0 ↔ y % 400 = 0 := by rw [← Int.dvd_iff_tmod_eq_zero, Int.dvd_iff_emod_eq_zero]
  rw [h4, h100, h400]

theorem daysInMonth_eq (y : Int) {m : Nat} (hpos : 1 ≤ m) (hle : m ≤ 12) : daysInMonth y m = monthLength y m := by
  have hleap := isLeap_iff y
  interval_cases m <;> simp [daysInMonth, monthLength, hleap]

/-- A quotient that is rounded towards zero, of a number that is moved down first where it is negative, is the floor. -/
theorem tdiv_floor (n : Int) {k j : Int} (hk : 0 < k) (hj : j = k - 1) :
    (if n ≥ 0 then n else n - j).tdiv k = n / k := by
  by_cases hn : n ≥ 0
  · rw [if_pos hn, Int.tdiv_eq_ediv_of_nonneg hn]
  · rw [if_neg hn, show n - j = -(k - 1 - n) by omega, Int.neg_tdiv, Int.tdiv_eq_ediv_of_nonneg (by omega)]
    have hsplit : k - 1 - n = k - 1 - n % k + (-(n / k)) * k := by
      have := Int.mul_ediv_add_emod n k
      linarith
    have hlt := Int.emod_lt_of_pos n hk
    have hge := Int.emod_nonneg n hk.ne'
    rw [hsplit, Int.add_mul_ediv_right _ _ hk.ne', Int.ediv_eq_zero_of_lt (by omega) (by omega)]
    omega

/-- The years for which a day can be counted from their March: those that `Date::parse` reads. -/
def SupportedYear (y : Int) : Prop := i32Min < y ∧ y ≤ i32Max

theorem wrapI32_of_mem {n : Int} (hmin : i32Min ≤ n) (hmax : n ≤ i32Max) : wrapI32 n = n := by
  unfold i32Min at hmin
  unfold i32Max at hmax
  unfold wrapI32
  omega

theorem wrapI64_of_mem {n : Int} (hmin : -9223372036854775808 ≤ n) (hmax : n ≤ 9223372036854775807) : wrapI64 n = n := by
  unfold wrapI64
  omega

/-- The days before the year that begins in March of `y`, from the day after 29 February of year 0 on. -/
def daysBeforeMarch (y : Int) : Int := 365 * y + y / 4 - y / 100 + y / 400

theorem daysBeforeMarch_eq (y : Int) :
    y / 400 * 146097 + ((y - y / 400 * 400) * 365 + (y - y / 400 * 400).tdiv 4 - (y - y / 400 * 400).tdiv 100) =
      daysBeforeMarch y := by
  have hyoe : 0 ≤ y - y / 400 * 400 := by omega
  rw [Int.tdiv_eq_ediv_of_nonneg hyoe, Int.tdiv_eq_ediv_of_nonneg hyoe, daysBeforeMarch]
  omega

/-- The days between 1 March and the first of a month. -/
def daysFromMarch (m : Nat) : Int := (153 * (if m > 2 then (m : Int) - 3 else m + 9) + 2) / 5

/-- As long as the year before a date in January or February is not cut. -/
theorem daysFromCivil_march {y : Int} {m d : Nat} (hwrap : m ≤ 2 → wrapI32 (y - 1) = y - 1) :
    daysFromCivil y m d = daysBeforeMarch (if m ≤ 2 then y - 1 else y) + daysFromMarch m + d - 1 - 719468 := by
  have hmarch : 0 ≤ 153 * (if (m : Int) > 2 then (m : Int) - 3 else m + 9) + 2 := by split <;> omega
  have hyear : (if m ≤ 2 then wrapI32 (y - 1) else y) = if m ≤ 2 then y - 1 else y := by
    split
    · next hm => exact hwrap hm
    · rfl
  simp only [daysFromCivil, hyear, tdiv_floor _ (k := 400) (j := 399) (by decide) rfl]
  generalize hshift : (if m ≤ 2 then y - 1 else y) = s
  rw [Int.tdiv_eq_ediv_of_nonneg hmarch, ← daysBeforeMarch_eq s]
  simp only [daysFromMarch, gt_iff_lt, Nat.ofNat_lt_cast]
  omega

theorem number_march (y : Int) {m : Nat} (d : Nat) (hpos : 1 ≤ m) (hle : m ≤ 12) :
    Gregorian.number y m d =
      daysBeforeMarch (if m ≤ 2 then y - 1 else y) + daysFromMarch m + d - 1 - 719468 + epochNumber := by
  have hyear := Gregorian.daysBeforeYear_succ y
  unfold daysBeforeYear yearLength at hyear
  unfold Gregorian.number Gregorian.ordinal epochNumber daysBeforeMarch daysFromMarch
  by_cases hleap : Leap y
  · rw [if_pos hleap] at hyear
    interval_cases m <;> simp [daysBeforeMonth, monthLength, hleap, daysBeforeYear] <;> omega
  · rw [if_neg hleap] at hyear
    interval_cases m <;> simp [daysBeforeMonth, monthLength, hleap, daysBeforeYear] <;> omega

theorem daysFromCivil_number {y : Int} {m d : Nat} (hwrap : m ≤ 2 → wrapI32 (y - 1) = y - 1) (hpos : 1 ≤ m) (hle : m ≤ 12) :
    daysFromCivil y m d = Gregorian.number y m d - epochNumber := by
  rw [daysFromCivil_march hwrap, number_march y d hpos hle]
  omega

theorem daysFromCivil_eq {y : Int} {m d : Nat} (hy : SupportedYear y) (hpos : 1 ≤ m) (hle : m ≤ 12) :
    daysFromCivil y m d = Gregorian.number y m d - epochNumber := by
  obtain ⟨hmin, hmax⟩ := hy
  exact daysFromCivil_number (fun _ => wrapI32_of_mem (by omega) (by omega)) hpos hle

/-! ## From a day to its date -/

/-- The year of the era, by the days of the era: too many are taken for years of 365 days, one a leap year. -/
def yearOfEra (doe : Int) : Int := (doe - doe / 1460 + doe / 36524 - doe / 146096) / 365

/-- `c` centuries, `q` cycles of four years and `i` years are before the year. -/
theorem yearOfEra_eq {c q i r doe : Int} (hc : 0 ≤ c ∧ c ≤ 3) (hq : 0 ≤ q ∧ q ≤ 24) (hi : 0 ≤ i ∧ i ≤ 3)
    (hr : 365 * i ≤ r ∧ (r < 365 * (i + 1) ∨ i = 3 ∧ r = 1460)) (hdoe : doe = 36524 * c + 1461 * q + r)
    (hcentury : doe < 36524 * (c + 1)) : yearOfEra doe = 100 * c + 4 * q + i := by
  have hcenturies : doe / 36524 = c := by omega
  have hera : doe / 146096 = 0 := by omega
  have hcycles : doe / 1460 = 25 * c + q + (24 * c + q + r) / 1460 := by omega
  rw [yearOfEra, hcenturies, hera, hcycles]
  omega

theorem daysBeforeMarch_cycles {c q i : Int} (hc : 0 ≤ c ∧ c ≤ 3) (hq : 0 ≤ q ∧ q ≤ 24) (hi : 0 ≤ i ∧ i ≤ 3) :
    daysBeforeMarch (100 * c + 4 * q + i) = 36524 * c + 1461 * q + 365 * i := by
  have h4 : (100 * c + 4 * q + i) / 4 = 25 * c + q := by omega
  have h100 : (100 * c + 4 * q + i) / 100 = c := by omega
  have h400 : (100 * c + 4 * q + i) / 400 = 0 := by omega
  rw [daysBeforeMarch, h4, h100, h400]
  omega

/-- The last year of a cycle has a day more, and that of a century has not, but for the last one. -/
theorem daysBeforeMarch_succ_cycles {c q i : Int} (hc : 0 ≤ c ∧ c ≤ 3) (hq : 0 ≤ q ∧ q ≤ 24) (hi : 0 ≤ i ∧ i ≤ 3) :
    daysBeforeMarch (100 * c + 4 * q + i + 1) = 36524 * c + 1461 * q + 365 * (i + 1) +
      (if i = 3 ∧ (q ≠ 24 ∨ c = 3) then 1 else 0) := by
  have h4 : (100 * c + 4 * q + i + 1) / 4 = 25 * c + q + (if i = 3 then 1 else 0) := by split <;> omega
  have h100 : (100 * c + 4 * q + i + 1) / 100 = c + (if i = 3 ∧ q = 24 then 1 else 0) := by split <;> omega
  have h400 : (100 * c + 4 * q + i + 1) / 400 = if i = 3 ∧ q = 24 ∧ c = 3 then 1 else 0 := by split <;> omega
  rw [daysBeforeMarch, h4, h100, h400]
  by_cases hlast : i = 3
  · by_cases hcycle : q = 24 <;> by_cases hcentury : c = 3 <;> simp [hlast, hcycle, hcentury] <;> omega
  · simp only [hlast, false_and, if_false]
    omega

theorem yearOfEra_bounds {doe : Int} (hpos : 0 ≤ doe) (hlt : doe < 146097) :
    0 ≤ yearOfEra doe ∧ yearOfEra doe < 400 ∧ daysBeforeMarch (yearOfEra doe) ≤ doe ∧
      doe < daysBeforeMarch (yearOfEra doe + 1) := by
  by_cases hlast : doe = 146096
  · subst hlast
    decide
  · have hc : 0 ≤ doe / 36524 ∧ doe / 36524 ≤ 3 := by omega
    have hq : 0 ≤ doe % 36524 / 1461 ∧ doe % 36524 / 1461 ≤ 24 := by omega
    obtain ⟨i, hi, hri⟩ : ∃ i, (0 ≤ i ∧ i ≤ 3) ∧ 365 * i ≤ doe % 36524 % 1461 ∧
        (doe % 36524 % 1461 < 365 * (i + 1) ∨ i = 3 ∧ doe % 36524 % 1461 = 1460) :=
      ⟨min (doe % 36524 % 1461 / 365) 3, by omega, by omega⟩
    rw [yearOfEra_eq hc hq hi hri (by omega) (by omega), daysBeforeMarch_cycles hc hq hi,
      daysBeforeMarch_succ_cycles hc hq hi]
    refine ⟨by omega, by omega, by omega, ?_⟩
    split <;> omega

/-- The month and the day of a day of the year that begins in March. -/
def monthOfYear (doy : Int) : Nat × Nat :=
  let mp := (5 * doy + 2) / 153
  ((if mp < 10 then mp + 3 else mp - 9).toNat, (doy - (153 * mp + 2) / 5 + 1).toNat)

theorem monthOfYear_spec {doy : Int} (hpos : 0 ≤ doy) (hle : doy ≤ 365) :
    ∃ m d, monthOfYear doy = (m, d) ∧ 1 ≤ m ∧ m ≤ 12 ∧ 1 ≤ d ∧ daysFromMarch m + d - 1 = doy ∧
      (∀ y, d ≤ monthLength y m ∨ m = 2) ∧ (m = 2 → doy = 336 + d) ∧ (m ≤ 2 ↔ 306 ≤ doy) := by
  obtain ⟨mp, hmp⟩ : ∃ mp, mp = (5 * doy + 2) / 153 := ⟨_, rfl⟩
  have hmonth : 0 ≤ mp ∧ mp ≤ 11 := by omega
  obtain ⟨d, hd⟩ : ∃ d : Nat, (d : Int) = doy - (153 * mp + 2) / 5 + 1 := ⟨(doy - (153 * mp + 2) / 5 + 1).toNat, by omega⟩
  refine ⟨(if mp < 10 then mp + 3 else mp - 9).toNat, d, ?_, ?_⟩
  · rw [monthOfYear, ← hmp, ← hd, Int.toNat_natCast]
  · obtain ⟨hmin, hmax⟩ := hmonth
    interval_cases mp <;> simp [daysFromMarch, monthLength] <;> omega

theorem daysBeforeMarch_era (era y : Int) : daysBeforeMarch (y + era * 400) = era * 146097 + daysBeforeMarch y := by
  unfold daysBeforeMarch
  omega

theorem civilFromDays_eq {n era doe yoe doy : Int} (hmin : -10 ^ 18 ≤ n) (hmax : n ≤ 10 ^ 18) (hera : era = (n + 719468) / 146097)
    (hdoe : doe = n + 719468 - era * 146097) (hyoe : yoe = yearOfEra doe) (hyear : 0 ≤ yoe ∧ yoe < 400)
    (hdoy : doy = doe - daysBeforeMarch yoe) (hday : 0 ≤ doy) :
    civilFromDays n =
      (wrapI32 (if (monthOfYear doy).1 ≤ 2 then yoe + era * 400 + 1 else yoe + era * 400), monthOfYear doy) := by
  have hpos : 0 ≤ doe := by omega
  have hnum : 0 ≤ doe - doe / 1460 + doe / 36524 - doe / 146096 := by omega
  have hbefore : 365 * yoe + yoe / 4 - yoe / 100 = daysBeforeMarch yoe := by unfold daysBeforeMarch; omega
  have hmp : 0 ≤ 153 * ((5 * doy + 2) / 153) + 2 := by omega
  have hz : wrapI64 (n + 719468) = n + 719468 := wrapI64_of_mem (by omega) (by omega)
  have hdown : wrapI64 (n + 719468 - 146096) = n + 719468 - 146096 := wrapI64_of_mem (by omega) (by omega)
  have hrest : wrapI64 doe = doe := wrapI64_of_mem (by omega) (by omega)
  have hm : ((if (5 * doy + 2) / 153 < 10 then (5 * doy + 2) / 153 + 3 else (5 * doy + 2) / 153 - 9) ≤ 2) ↔
      (monthOfYear doy).1 ≤ 2 := by
    unfold monthOfYear
    dsimp only
    split <;> omega
  simp only [civilFromDays, hz, hdown, tdiv_floor _ (k := 146097) (j := 146096) (by decide) rfl, ← hera, ← hdoe, hrest,
    Int.tdiv_eq_ediv_of_nonneg hpos, Int.tdiv_eq_ediv_of_nonneg hnum]
  rw [← yearOfEra, ← hyoe]
  simp only [Int.tdiv_eq_ediv_of_nonneg hyear.1, hbefore, ← hdoy, Int.tdiv_eq_ediv_of_nonneg hmp,
    Int.tdiv_eq_ediv_of_nonneg (show 0 ≤ 5 * doy + 2 by omega), hm]
  rfl

/-- The date of a day, before its year is cut to 32 bits. -/
theorem civilFromDays_number {n : Int} (hsmall : -10 ^ 18 ≤ n) (hlarge : n ≤ 10 ^ 18) :
    ∃ y m d, IsDate y m d ∧ Gregorian.number y m d = n + epochNumber ∧ civilFromDays n = (wrapI32 y, m, d) := by
  obtain ⟨era, hera⟩ : ∃ era, era = (n + 719468) / 146097 := ⟨_, rfl⟩
  obtain ⟨doe, hdoe⟩ : ∃ doe, doe = n + 719468 - era * 146097 := ⟨_, rfl⟩
  obtain ⟨yoe, hyoe⟩ : ∃ yoe, yoe = yearOfEra doe := ⟨_, rfl⟩
  obtain ⟨hmin, hmax, hle, hlt⟩ := @yearOfEra_bounds doe (by omega) (by omega)
  rw [← hyoe] at hmin hmax hle hlt
  have hsucc : daysBeforeMarch (yoe + 1) = daysBeforeMarch yoe + yearLength (yoe + era * 400 + 1) := by
    have := Gregorian.daysBeforeYear_succ (yoe + era * 400 + 1)
    unfold daysBeforeYear at this
    unfold daysBeforeMarch
    omega
  have hlength : yearLength (yoe + era * 400 + 1) ≤ 366 := by unfold yearLength; split <;> omega
  obtain ⟨m, d, hmd, hm, hm12, hd, hmarch, hshort, hfeb, hjan⟩ :=
    @monthOfYear_spec (doe - daysBeforeMarch yoe) (by omega) (by omega)
  have hcivil := civilFromDays_eq hsmall hlarge hera hdoe hyoe ⟨hmin, hmax⟩ rfl (by omega)
  rw [hmd] at hcivil
  refine ⟨_, m, d, ⟨hm, hm12, hd, ?_⟩, ?_, hcivil⟩
  · rcases hshort (if m ≤ 2 then yoe + era * 400 + 1 else yoe + era * 400) with hshort | rfl
    · exact hshort
    · have hday := hfeb rfl
      rw [if_pos le_rfl, monthLength]
      by_cases hleap : Leap (yoe + era * 400 + 1)
      · rw [yearLength, if_pos hleap] at hsucc
        rw [if_pos hleap]
        omega
      · rw [yearLength, if_neg hleap] at hsucc
        rw [if_neg hleap]
        omega
  · have hshift : (if m ≤ 2 then (if m ≤ 2 then yoe + era * 400 + 1 else yoe + era * 400) - 1
        else if m ≤ 2 then yoe + era * 400 + 1 else yoe + era * 400) = yoe + era * 400 := by
      split <;> omega
    rw [number_march _ _ hm hm12, hshift, daysBeforeMarch_era]
    omega

/-! ## Dates of the supported years -/

/-- What `Date::parse` makes. -/
structure Date.Supported (d : Date) : Prop where
  year : SupportedYear d.year
  valid : Date.new d.year d.month d.day = some d

namespace Date

variable {a b : Date}

theorem Supported.isDate (h : a.Supported) : IsDate a.year a.month a.day := by
  have hvalid := h.valid
  unfold Date.new at hvalid
  split at hvalid
  · cases hvalid
  · rename_i hbounds
    simp only [Bool.or_eq_true, Bool.not_eq_true', Bool.and_eq_false_iff, decide_eq_false_iff_not,
      decide_eq_true_eq, not_or, not_lt, not_not, and_assoc] at hbounds
    obtain ⟨hpos, hle, hday, hlast⟩ := hbounds
    rw [daysInMonth_eq _ hpos hle] at hlast
    exact ⟨hpos, hle, hday, hlast⟩

theorem supported_of_isDate (hyear : SupportedYear a.year) (h : IsDate a.year a.month a.day) : a.Supported := by
  refine ⟨hyear, ?_⟩
  have hlast := h.day_le
  rw [← daysInMonth_eq _ h.month_pos h.month_le] at hlast
  have hpos := h.day_pos
  unfold Date.new
  rw [if_neg]
  simp only [Bool.or_eq_true, Bool.not_eq_true', Bool.and_eq_false_iff, decide_eq_false_iff_not, decide_eq_true_eq]
  have := h.month_pos
  have := h.month_le
  omega

theorem Supported.epochDay_eq (h : a.Supported) :
    a.epochDay = Gregorian.number a.year a.month a.day - epochNumber :=
  daysFromCivil_eq h.year h.isDate.month_pos h.isDate.month_le

/-- The next date. -/
def next (d : Date) : Date :=
  let (year, month, day) := Gregorian.next d.year d.month d.day
  { year, month, day }

/-- The order of the fields. -/
def lexCmp (a b : Date) : Ordering :=
  (compare a.year b.year).then ((compare a.month b.month).then (compare a.day b.day))

def lastOfMonth (d : Date) : Date := { d with day := daysInMonth d.year d.month }

theorem Supported.epochDay_lt_iff (ha : a.Supported) (hb : b.Supported) :
    a.epochDay < b.epochDay ↔ a.year < b.year ∨ a.year = b.year ∧ (a.month < b.month ∨ a.month = b.month ∧ a.day < b.day) := by
  rw [ha.epochDay_eq, hb.epochDay_eq, ← Gregorian.number_lt_iff ha.isDate hb.isDate]
  omega

theorem Supported.ext_of_epochDay (ha : a.Supported) (hb : b.Supported) (h : a.epochDay = b.epochDay) : a = b := by
  rw [ha.epochDay_eq, hb.epochDay_eq] at h
  obtain ⟨hy, hm, hd⟩ := Gregorian.number_inj ha.isDate hb.isDate (by omega)
  cases a
  cases b
  simp_all

theorem Supported.cmp_eq (ha : a.Supported) (hb : b.Supported) : a.cmp b = a.lexCmp b := by
  have hlt := ha.epochDay_lt_iff hb
  have hgt := hb.epochDay_lt_iff ha
  unfold cmp lexCmp
  symm
  rcases lt_trichotomy a.epochDay b.epochDay with h | h | h
  · rw [compare_lt_iff_lt.mpr h]
    simpa only [Ordering.then_eq_lt, compare_lt_iff_lt, compare_eq_iff_eq] using hlt.mp h
  · rw [ha.ext_of_epochDay hb h]
    simp
  · rw [compare_gt_iff_gt.mpr h]
    have := hgt.mp h
    simp only [Ordering.then_eq_gt, compare_gt_iff_gt, compare_eq_iff_eq]
    omega

/-- Days of the supported years are far within an `i64`. -/
theorem Supported.epochDay_bounds (h : a.Supported) : -784353734789 ≤ a.epochDay ∧ a.epochDay ≤ 784351576776 := by
  have hmin := h.year.1
  have hmax := h.year.2
  have hlt := h.isDate.lt_number
  have hle := h.isDate.number_le
  unfold i32Min at hmin
  unfold i32Max at hmax
  unfold daysBeforeYear at hlt hle
  rw [h.epochDay_eq]
  unfold epochNumber
  omega

/-- A day between two dates has a date. -/
theorem fromEpochDay_supported (ha : a.Supported) (hb : b.Supported) {n : Int} (hmin : a.epochDay ≤ n)
    (hmax : n ≤ b.epochDay) : (fromEpochDay n).Supported ∧ (fromEpochDay n).epochDay = n := by
  have hfirstDay := ha.epochDay_bounds.1
  have hlastDay := hb.epochDay_bounds.2
  obtain ⟨y, m, d, hdate, hnum, hcivil⟩ := @civilFromDays_number n (by omega) (by omega)
  rw [ha.epochDay_eq] at hmin
  rw [hb.epochDay_eq] at hmax
  have hfirst : a.year ≤ y := by
    by_contra hlt
    have := Gregorian.number_lt_of_lex hdate ha.isDate (.inl (by omega))
    omega
  have hlast : y ≤ b.year := by
    by_contra hlt
    have := Gregorian.number_lt_of_lex hb.isDate hdate (.inl (by omega))
    omega
  have hyear : SupportedYear y := ⟨ha.year.1.trans_le hfirst, hlast.trans hb.year.2⟩
  have hdef : fromEpochDay n = { year := y, month := m, day := d } := by
    rw [fromEpochDay, hcivil, wrapI32_of_mem hyear.1.le hyear.2]
  have hsupported : (fromEpochDay n).Supported := by
    rw [hdef]
    exact supported_of_isDate hyear hdate
  refine ⟨hsupported, ?_⟩
  rw [hsupported.epochDay_eq, hdef]
  dsimp only
  omega

theorem Supported.fromEpochDay (ha : a.Supported) : fromEpochDay a.epochDay = a := by
  obtain ⟨hsupported, hday⟩ := fromEpochDay_supported ha ha le_rfl le_rfl
  exact hsupported.ext_of_epochDay ha hday

theorem Supported.next_iff (ha : a.Supported) (hb : b.Supported) : b.epochDay = a.epochDay + 1 ↔ b = a.next := by
  have hnext := Gregorian.number_next ha.isDate
  have hdate := Gregorian.isDate_next ha.isDate
  rw [ha.epochDay_eq, hb.epochDay_eq]
  constructor
  · intro h
    obtain ⟨hy, hm, hd⟩ := Gregorian.number_inj hb.isDate hdate (by omega)
    cases b
    simp_all [next]
  · rintro rfl
    have hnumber : Gregorian.number a.next.year a.next.month a.next.day = _ := hnext
    omega

/-! ## Weekdays, days of the year, weeks and months -/

theorem tmod_add_emod (n : Int) : (n.tmod 7 + 3) % 7 = (n + 3) % 7 := by
  rw [Int.tmod_eq_emod]
  split
  · omega
  · simp only [Int.reduceAbs]
    omega

theorem Supported.weekday_eq (ha : a.Supported) :
    a.weekday = Gregorian.weekday (Gregorian.number a.year a.month a.day) := by
  unfold weekday Gregorian.weekday
  rw [tmod_add_emod, ha.epochDay_eq]
  unfold epochNumber
  omega

theorem Supported.dayOfYear_eq (ha : a.Supported) : a.dayOfYear = Gregorian.ordinal a.year a.month a.day := by
  unfold dayOfYear
  rw [ha.epochDay_eq, daysFromCivil_eq ha.year (by decide) (by decide)]
  simp only [Gregorian.number, Gregorian.ordinal, daysBeforeMonth]
  omega

/-- The year after the last one wraps, and wraps back where its first day is counted from the year before. -/
theorem daysFromCivil_newYear {y : Int} (hmin : i32Min < y) (hmax : y ≤ i32Max + 1) :
    daysFromCivil (wrapI32 y) 1 1 = daysBeforeYear y + 1 - epochNumber := by
  by_cases hy : y = i32Max + 1
  · subst hy
    decide
  · rw [wrapI32_of_mem (by omega) (by omega), daysFromCivil_eq ⟨hmin, by omega⟩ (by decide) (by decide)]
    rfl

/-- The first of the supported days is a Thursday: no Thursday before it is asked for. -/
theorem Supported.thursday_bounds (ha : a.Supported) {n : Int} (hn : n = Gregorian.number a.year a.month a.day) :
    daysBeforeYear (i32Min + 1) < n - (n - 1) % 7 + 3 ∧ n - (n - 1) % 7 + 3 ≤ daysBeforeYear (i32Max + 2) := by
  have hfirst : daysBeforeYear (i32Min + 1) < n := by
    rw [hn]
    exact (Gregorian.daysBeforeYear_mono ha.year.1).trans_lt ha.isDate.lt_number
  have hlast : n ≤ daysBeforeYear (i32Max + 1) := by
    rw [hn]
    exact ha.isDate.number_le.trans (Gregorian.daysBeforeYear_mono (by have := ha.year.2; omega))
  have hmin : daysBeforeYear (i32Min + 1) = -784352296305 := by decide
  have hmax : daysBeforeYear (i32Max + 1) = 784352295939 := by decide
  have hnext : daysBeforeYear (i32Max + 2) = 784352296305 := by decide
  omega

/-- The ISO week: that of the week's Thursday in its year, which is the year the week belongs to. -/
theorem Supported.weekOfYear_eq (ha : a.Supported) :
    ∃ y, Gregorian.weekOne y ≤ Gregorian.number a.year a.month a.day ∧
      Gregorian.number a.year a.month a.day < Gregorian.weekOne (y + 1) ∧
      (a.weekOfYear : Int) = (Gregorian.number a.year a.month a.day - Gregorian.weekOne y) / 7 + 1 := by
  obtain ⟨n, hn⟩ : ∃ n, n = Gregorian.number a.year a.month a.day := ⟨_, rfl⟩
  obtain ⟨hfirst, hlast⟩ := ha.thursday_bounds hn
  have hthursday : a.epochDay - ((a.weekday : Int) - 1) + 3 = n - (n - 1) % 7 + 3 - epochNumber := by
    rw [ha.epochDay_eq, ha.weekday_eq, ← hn, Gregorian.weekday]
    omega
  have hday := ha.epochDay_bounds
  rw [ha.epochDay_eq, ← hn] at hday
  obtain ⟨y, m, d, hdate, hnumber, hcivil⟩ :=
    @civilFromDays_number (n - (n - 1) % 7 + 3 - epochNumber) (by omega) (by omega)
  rw [sub_add_cancel] at hnumber
  have hlt : daysBeforeYear y < n - (n - 1) % 7 + 3 := hnumber ▸ hdate.lt_number
  have hle : n - (n - 1) % 7 + 3 ≤ daysBeforeYear (y + 1) := hnumber ▸ hdate.number_le
  have hmin := Gregorian.daysBeforeYear_mono.reflect_lt (hfirst.trans_le hle)
  have hmax := Gregorian.daysBeforeYear_mono.reflect_lt (hlt.trans_le hlast)
  have hweek : a.weekOfYear = ((n - (n - 1) % 7 + 3 - (daysBeforeYear y + 1)) / 7 + 1).toNat := by
    unfold weekOfYear
    dsimp only
    rw [hthursday, hcivil, daysFromCivil_newYear (by omega) (by omega), Int.tdiv_eq_ediv_of_nonneg (by omega)]
    congr 3
    omega
  obtain ⟨hone, hnext⟩ := Gregorian.weekOne_bounds hlt hle
  rw [← hn]
  refine ⟨y, hone, hnext, ?_⟩
  rw [hweek, Gregorian.week_eq]
  omega

theorem Supported.lastOfMonth (ha : a.Supported) : a.lastOfMonth.Supported := by
  have hlast := daysInMonth_eq a.year ha.isDate.month_pos ha.isDate.month_le
  refine supported_of_isDate ha.year ⟨ha.isDate.month_pos, ha.isDate.month_le, ?_, hlast.le⟩
  exact (Gregorian.monthLength_pos _ _).trans hlast.ge

/-- A month begins on the day after the last one of a month. -/
theorem Supported.next_lastOfMonth (ha : a.Supported) : a.lastOfMonth.next.day = 1 := by
  have hlast := daysInMonth_eq a.year ha.isDate.month_pos ha.isDate.month_le
  simp only [Date.next, Date.lastOfMonth, Gregorian.next, hlast, lt_irrefl, if_false]
  split <;> rfl

theorem Supported.le_lastOfMonth (ha : a.Supported) (hb : b.Supported) (hyear : b.year = a.year)
    (hmonth : b.month = a.month) : b.epochDay ≤ a.lastOfMonth.epochDay := by
  have hlast := daysInMonth_eq a.year ha.isDate.month_pos ha.isDate.month_le
  have hday := hb.isDate.day_le
  rw [hyear, hmonth, ← hlast] at hday
  have hlt := ha.lastOfMonth.epochDay_lt_iff hb
  unfold Date.lastOfMonth at hlt ⊢
  by_contra hgt
  have := hlt.mp (by omega)
  dsimp only at this
  omega

end Date

/-- The conversions agree with the calendar in both directions; days follow each other, and are ordered, as dates; and
the weekday, the day of the year, the week and the end of the month are those of the day. -/
theorem civil_calendar {a b : Date} (ha : a.Supported) (hb : b.Supported) :
    a.epochDay + epochNumber = Gregorian.number a.year a.month a.day ∧
      civilFromDays (daysFromCivil a.year a.month a.day) = (a.year, a.month, a.day) ∧
      (∀ n, a.epochDay ≤ n → n ≤ b.epochDay →
        (Date.fromEpochDay n).Supported ∧ (Date.fromEpochDay n).epochDay = n) ∧
      (b.epochDay = a.epochDay + 1 ↔ b = a.next) ∧
      a.cmp b = a.lexCmp b ∧
      a.weekday = Gregorian.weekday (a.epochDay + epochNumber) ∧
      daysBeforeYear a.year + a.dayOfYear = a.epochDay + epochNumber ∧
      (∃ y, Gregorian.weekOne y ≤ a.epochDay + epochNumber ∧ a.epochDay + epochNumber < Gregorian.weekOne (y + 1) ∧
        (a.weekOfYear : Int) = (a.epochDay + epochNumber - Gregorian.weekOne y) / 7 + 1) ∧
      a.lastOfMonth.Supported ∧ a.lastOfMonth.next.day = 1 ∧
      (b.year = a.year → b.month = a.month → b.epochDay ≤ a.lastOfMonth.epochDay) := by
  have hnumber : a.epochDay + epochNumber = Gregorian.number a.year a.month a.day := by
    rw [ha.epochDay_eq, sub_add_cancel]
  refine ⟨hnumber, ?_, fun n => Date.fromEpochDay_supported ha hb, ha.next_iff hb, ha.cmp_eq hb, ?_, ?_, ?_,
    ha.lastOfMonth, ha.next_lastOfMonth, ha.le_lastOfMonth hb⟩
  · have hday := ha.fromEpochDay
    unfold Date.fromEpochDay Date.epochDay at hday
    rw [Date.ext_iff] at hday
    exact Prod.ext hday.1 (Prod.ext hday.2.1 hday.2.2)
  · rw [hnumber, ha.weekday_eq]
  · rw [hnumber, ha.dayOfYear_eq, Gregorian.number]
  · rw [hnumber]
    exact ha.weekOfYear_eq

theorem civil_calendar_newYear :
    (Date.mk 2023 12 31).next = Date.mk 2024 1 1 ∧
      civilFromDays (daysFromCivil 2023 12 31) = (2023, 12, 31) ∧ (Date.mk 2023 12 31).cmp (Date.mk 2024 1 1) = .lt := by
  have hold : (Date.mk 2023 12 31).Supported := ⟨⟨by decide, by decide⟩, by decide⟩
  have hnew : (Date.mk 2024 1 1).Supported := ⟨⟨by decide, by decide⟩, by decide⟩
  obtain ⟨_, hround, _, hnext, hcmp, _⟩ := civil_calendar hold hnew
  exact ⟨(hnext.mp (by decide)).symm, hround, hcmp.trans (by decide)⟩

end NanoBpm.FeelExpr
