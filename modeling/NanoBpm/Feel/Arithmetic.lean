import NanoBpm.Feel.Calendar
import NanoBpm.Feel.Durations
import NanoBpm.Feel.Eval

/-!
# Adding and subtracting temporal values (`eval.rs:523-602`, `:663-678`, `temporal.rs:54-80`, `:131-138`, `:255-264`)

The machine's arithmetic against the calendar's. A date or a date-time is a day of the Gregorian calendar and a time of that
day, a time is a nanosecond of the day, so that a sum of times is taken modulo a day, and a date and a duration give the day
the sum falls on. The results are exact as long as they fit their types; where they do not, a build without overflow checks
wraps or cuts them, and one with checks panics where the overflow is not in a cast.
-/

namespace NanoBpm.FeelExpr

open Gregorian (IsDate monthLength daysBeforeYear)

/-! ## Machine integers -/

theorem inI32_wrapI32 (n : Int) : InI32 (wrapI32 n) := by
  unfold InI32 i32Min i32Max wrapI32
  omega

theorem inI64_wrapI64 (n : Int) : InI64 (wrapI64 n) := by
  unfold InI64 wrapI64
  omega

theorem inI128_wrapI128 (n : Int) : InI128 (wrapI128 n) := by
  unfold InI128 wrapI128
  omega

theorem wrapI32_of_in {n : Int} (h : InI32 n) : wrapI32 n = n := wrapI32_of_mem h.1 h.2

theorem wrapI64_of_in {n : Int} (h : InI64 n) : wrapI64 n = n := wrapI64_of_mem h.1 h.2

theorem wrapI128_of_in {n : Int} (h : InI128 n) : wrapI128 n = n := by
  unfold InI128 at h
  unfold wrapI128
  omega

/-- `86_400 * NANOS_PER_SEC`. -/
def dayNanos : Int := secsPerDay * nanosPerSec

/-! ## The values -/

/-- What `Time::parse` makes: also the end of the day, and a leap second. -/
structure Time.Ranged (t : Time) : Prop where
  hour_le : t.hour ≤ 24
  minute_le : t.minute ≤ 59
  second_le : t.second ≤ 60
  nano_lt : t.nano < 1000000000
  offset : ∀ o, t.offsetSeconds = some o → InI32 o

/-- The temporal values: dates of the years that can be read, and all that the types of times and durations hold. -/
inductive FeelVal.Made : FeelVal → Prop
  | date {d : Date} (hd : d.Supported) : Made (.date d)
  | time {t : Time} (ht : t.Ranged) : Made (.time t)
  | dateTime {d : DateTime} (hd : d.date.Supported) (ht : d.time.Ranged) : Made (.dateTime d)
  | ymDur {y : YmDuration} (hy : InI64 y.months) : Made (.ymDur y)
  | dtDur {t : DtDuration} (ht : InI128 t.nanos) : Made (.dtDur t)

/-! ## Exact results -/

/-- The day of the common era. -/
def Date.number (d : Date) : Int := Gregorian.number d.year d.month d.day

/-- A time of the day that is not the end of the day or a leap second. -/
structure Time.Clock (t : Time) : Prop where
  hour_lt : t.hour < 24
  minute_lt : t.minute < 60
  second_lt : t.second < 60
  nano_lt : t.nano < 1000000000

/-- The nanosecond that a date-time is on its own clock. -/
def DateTime.localNanos (d : DateTime) : Int := d.date.number * dayNanos + d.time.nanoOfDay

def DateTime.instant (d : DateTime) : Int := d.localNanos - d.time.offsetSeconds.getD 0 * nanosPerSec

/-- The date that many months later, its day cut to the month. -/
structure MonthsLater (d : Date) (months : Int) (v : Date) : Prop where
  month_pos : 1 ≤ v.month
  month_le : v.month ≤ 12
  total : v.year * 12 + ((v.month : Int) - 1) = d.year * 12 + ((d.month : Int) - 1) + months
  day : v.day = min d.day (monthLength v.year v.month)

/-- The date of the day that the sum of midnight and the duration falls on. -/
structure DaysLater (d : Date) (nanos : Int) (v : Date) : Prop where
  isDate : IsDate v.year v.month v.day
  number : v.number = d.number + nanos / dayNanos

/-- The date-time that many nanoseconds later on the same clock. -/
structure NanosLater (d : DateTime) (nanos : Int) (v : DateTime) : Prop where
  isDate : IsDate v.date.year v.date.month v.date.day
  clock : v.time.Clock
  localNanos : v.localNanos = d.localNanos + nanos
  offset : v.time.offsetSeconds = d.time.offsetSeconds
  zone : v.time.zone = d.time.zone

/-- The time that many nanoseconds later, on whatever day. -/
structure ClockLater (t : Time) (nanos : Int) (v : Time) : Prop where
  clock : v.Clock
  nanoOfDay : v.nanoOfDay = (t.nanoOfDay + nanos) % dayNanos
  offset : v.offsetSeconds = t.offsetSeconds
  zone : v.zone = t.zone

def ExactSum : FeelVal → FeelVal → FeelVal → Prop
  | .date d, .ymDur y, .date v | .ymDur y, .date d, .date v => MonthsLater d y.months v
  | .date d, .dtDur t, .date v | .dtDur t, .date d, .date v => DaysLater d t.nanos v
  | .dateTime d, .ymDur y, .dateTime v | .ymDur y, .dateTime d, .dateTime v =>
    MonthsLater d.date y.months v.date ∧ v.time = d.time
  | .dateTime d, .dtDur t, .dateTime v | .dtDur t, .dateTime d, .dateTime v => NanosLater d t.nanos v
  | .time t, .dtDur d, .time v | .dtDur d, .time t, .time v => ClockLater t d.nanos v
  | .ymDur a, .ymDur b, .ymDur v => v.months = a.months + b.months
  | .dtDur a, .dtDur b, .dtDur v => v.nanos = a.nanos + b.nanos
  | _, _, _ => False

def ExactDifference : FeelVal → FeelVal → FeelVal → Prop
  | .date a, .date b, .dtDur v => v.nanos = (a.number - b.number) * dayNanos
  | .dateTime a, .dateTime b, .dtDur v => v.nanos = a.instant - b.instant
  -- a time with an offset is that time in UTC
  | .time a, .time b, .dtDur v => v.nanos = a.utcNanos - b.utcNanos
  | .date d, .ymDur y, .date v => MonthsLater d (-y.months) v
  | .date d, .dtDur t, .date v => DaysLater d (-t.nanos) v
  | .dateTime d, .ymDur y, .dateTime v => MonthsLater d.date (-y.months) v.date ∧ v.time = d.time
  | .dateTime d, .dtDur t, .dateTime v => NanosLater d (-t.nanos) v
  | .time t, .dtDur d, .time v => ClockLater t (-d.nanos) v
  | .ymDur a, .ymDur b, .ymDur v => v.months = a.months - b.months
  | .dtDur a, .dtDur b, .dtDur v => v.nanos = a.nanos - b.nanos
  | _, _, _ => False

/-! ## Overflows, where a build with overflow checks panics -/

/-- `y - 1` of `days_from_civil`. -/
def Date.EpochDayOverflows (d : Date) : Prop := d.month ≤ 2 ∧ ¬ InI32 (d.year - 1)

def Date.AddMonthsOverflows (d : Date) (months : Int) : Prop := ¬ InI64 (d.year * 12 + ((d.month : Int) - 1) + months)

/-- `z + 719468` and `z - 146096` of `civil_from_days`. -/
def CivilFromDaysOverflows (days : Int) : Prop :=
  ¬ InI64 (days + 719468) ∨ days + 719468 < 0 ∧ ¬ InI64 (days + 719468 - 146096)

def DateTime.AddDtOverflows (d : DateTime) (nanos : Int) : Prop :=
  let total := d.date.epochDay * dayNanos + d.time.nanoOfDay + nanos
  d.date.EpochDayOverflows ∨ ¬ InI128 total ∨ CivilFromDaysOverflows (wrapI64 (total / dayNanos))

def AddOverflows : FeelVal → FeelVal → Prop
  | .date d, .ymDur y | .ymDur y, .date d => d.AddMonthsOverflows y.months
  | .date d, .dtDur t | .dtDur t, .date d => DateTime.AddDtOverflows ⟨d, Builtins.midnight⟩ t.nanos
  | .dateTime d, .ymDur y | .ymDur y, .dateTime d => d.date.AddMonthsOverflows y.months
  | .dateTime d, .dtDur t | .dtDur t, .dateTime d => d.AddDtOverflows t.nanos
  | .time t, .dtDur d | .dtDur d, .time t => ¬ InI128 (t.nanoOfDay + d.nanos)
  | .ymDur a, .ymDur b => ¬ InI64 (a.months + b.months)
  | .dtDur a, .dtDur b => ¬ InI128 (a.nanos + b.nanos)
  | _, _ => False

def SubOverflows : FeelVal → FeelVal → Prop
  | .date a, .date b =>
    a.EpochDayOverflows ∨ b.EpochDayOverflows ∨ ¬ InI64 (a.epochDay - b.epochDay) ∨ ¬ InI64 ((a.epochDay - b.epochDay) * 86400)
  | .dateTime a, .dateTime b => a.date.EpochDayOverflows ∨ b.date.EpochDayOverflows
  | .date d, .ymDur y => ¬ InI64 (-y.months) ∨ d.AddMonthsOverflows (wrapI64 (-y.months))
  | .date d, .dtDur t => ¬ InI128 (-t.nanos) ∨ DateTime.AddDtOverflows ⟨d, Builtins.midnight⟩ (wrapI128 (-t.nanos))
  | .dateTime d, .ymDur y => ¬ InI64 (-y.months) ∨ d.date.AddMonthsOverflows (wrapI64 (-y.months))
  | .dateTime d, .dtDur t => ¬ InI128 (-t.nanos) ∨ d.AddDtOverflows (wrapI128 (-t.nanos))
  | .time t, .dtDur d => ¬ InI128 (t.nanoOfDay - d.nanos)
  | .ymDur a, .ymDur b => ¬ InI64 (a.months - b.months)
  | .dtDur a, .dtDur b => ¬ InI128 (a.nanos - b.nanos)
  | _, _ => False

/-- In a build with overflow checks or one without: no panic, and an exact result, an error or null. -/
structure AddExact (checks : Bool) (l r : FeelVal) : Prop where
  no_panic : checks → ¬ AddOverflows l r
  exact : ∀ v, add l r = .ok v → v = .null ∨ ExactSum l r v

structure SubExact (checks : Bool) (l r : FeelVal) : Prop where
  no_panic : checks → ¬ SubOverflows l r
  exact : ∀ v, sub l r = .ok v → v = .null ∨ ExactDifference l r v

/-! ## When the results fit -/

/-- The day is one of the years of an `i32`. -/
def HasDate (n : Int) : Prop := daysBeforeYear i32Min < n ∧ n ≤ daysBeforeYear (i32Max + 1)

/-- The year that many months later. -/
def Date.yearAfter (d : Date) (months : Int) : Int := (d.year * 12 + ((d.month : Int) - 1) + months) / 12

def AddFits : FeelVal → FeelVal → Prop
  | .date d, .ymDur y | .ymDur y, .date d => InI32 (d.yearAfter y.months)
  | .date d, .dtDur t | .dtDur t, .date d => HasDate (d.number + t.nanos / dayNanos)
  | .dateTime d, .ymDur y | .ymDur y, .dateTime d => InI32 (d.date.yearAfter y.months)
  | .dateTime d, .dtDur t | .dtDur t, .dateTime d => HasDate ((d.localNanos + t.nanos) / dayNanos)
  | .time t, .dtDur d | .dtDur d, .time t => InI128 (t.nanoOfDay + d.nanos)
  | .ymDur a, .ymDur b => InI64 (a.months + b.months)
  | .dtDur a, .dtDur b => InI128 (a.nanos + b.nanos)
  | _, _ => True

def SubFits : FeelVal → FeelVal → Prop
  -- the difference of times leaves their offsets out
  | .time a, .time b => a.offsetSeconds.getD 0 = b.offsetSeconds.getD 0
  | .date d, .ymDur y => InI32 (d.yearAfter (-y.months))
  | .date d, .dtDur t => HasDate (d.number + -t.nanos / dayNanos)
  | .dateTime d, .ymDur y => InI32 (d.date.yearAfter (-y.months))
  | .dateTime d, .dtDur t => HasDate ((d.localNanos + -t.nanos) / dayNanos)
  | .time t, .dtDur d => InI128 (t.nanoOfDay - d.nanos)
  | .ymDur a, .ymDur b => InI64 (a.months - b.months)
  | .dtDur a, .dtDur b => InI128 (a.nanos - b.nanos)
  | _, _ => True

/-! ## Months -/

namespace Date

variable {d : Date}

theorem addMonths_year (d : Date) (months : Int) : InI32 (d.addMonths months).year := inI32_wrapI32 _

/-- Months are added exactly when the year fits. -/
theorem monthsLater_iff (hd : d.Supported) {n n' : Int} (hn : InI32 (d.yearAfter n) → n' = n) :
    MonthsLater d n (d.addMonths n') ↔ InI32 (d.yearAfter n) := by
  constructor
  · intro h
    have hyear : d.yearAfter n = (d.addMonths n').year := by
      have htotal := h.total
      have hpos := h.month_pos
      have hle := h.month_le
      unfold yearAfter
      omega
    rw [hyear]
    exact addMonths_year d n'
  · intro hfits
    obtain rfl := hn hfits
    have hmin := hd.year.1
    have hmax := hd.year.2
    have hmonth := hd.isDate.month_le
    have htotal : InI64 (d.year * 12 + ((d.month : Int) - 1) + n') := by
      unfold InI32 yearAfter i32Min i32Max at hfits
      unfold InI64
      omega
    have hyear : (d.addMonths n').year = (d.year * 12 + ((d.month : Int) - 1) + n') / 12 := by
      unfold addMonths
      dsimp only
      rw [wrapI64_of_in htotal]
      exact wrapI32_of_in hfits
    have hmonth' : (d.addMonths n').month = ((d.year * 12 + ((d.month : Int) - 1) + n') % 12).toNat + 1 := by
      unfold addMonths
      dsimp only
      rw [wrapI64_of_in htotal]
    have hpos : 1 ≤ (d.addMonths n').month := by omega
    have hle : (d.addMonths n').month ≤ 12 := by omega
    refine ⟨hpos, hle, by omega, ?_⟩
    rw [← daysInMonth_eq _ hpos hle]
    rfl

theorem yearAfter_bounds (hd : d.Supported) {n : Int} (hfits : InI32 (d.yearAfter n)) :
    -100000000000 ≤ n ∧ n ≤ 100000000000 := by
  have hmin := hd.year.1
  have hmax := hd.year.2
  have hmonth := hd.isDate.month_le
  have hpos := hd.isDate.month_pos
  unfold i32Min at hmin
  unfold i32Max at hmax
  unfold InI32 yearAfter i32Min i32Max at hfits
  omega

theorem not_addMonthsOverflows (hd : d.Supported) {n : Int} (hfits : InI32 (d.yearAfter n)) :
    ¬ d.AddMonthsOverflows n := by
  have hmin := hd.year.1
  have hmax := hd.year.2
  have hmonth := hd.isDate.month_le
  have hn := yearAfter_bounds hd hfits
  unfold i32Min at hmin
  unfold i32Max at hmax
  unfold AddMonthsOverflows InI64
  omega

theorem not_epochDayOverflows (hd : d.Supported) : ¬ d.EpochDayOverflows := by
  rintro ⟨-, hyear⟩
  have hmin := hd.year.1
  have hmax := hd.year.2
  unfold InI32 at hyear
  omega

end Date

/-! ## Times of the day -/

namespace Time

theorem Ranged.nanoOfDay_bounds {t : Time} (ht : t.Ranged) : 0 ≤ t.nanoOfDay ∧ t.nanoOfDay < 2 * dayNanos := by
  obtain ⟨hhour, hminute, hsecond, hnano, -⟩ := ht
  unfold nanoOfDay dayNanos secsPerDay nanosPerSec
  omega

theorem Clock.nanoOfDay_bounds {t : Time} (ht : t.Clock) : 0 ≤ t.nanoOfDay ∧ t.nanoOfDay < dayNanos := by
  obtain ⟨hhour, hminute, hsecond, hnano⟩ := ht
  unfold nanoOfDay dayNanos secsPerDay nanosPerSec
  omega

variable (n : Int) (offset : Option Int) (zone : Option String)

theorem clock_fromNanoOfDay : (fromNanoOfDay n offset zone).Clock := by
  have hmod : 0 ≤ n % (secsPerDay * nanosPerSec) := Int.emod_nonneg _ (by decide)
  unfold fromNanoOfDay nanosPerSec
  constructor <;> dsimp only <;> omega

theorem nanoOfDay_fromNanoOfDay : (fromNanoOfDay n offset zone).nanoOfDay = n % dayNanos := by
  have hmod : 0 ≤ n % dayNanos := Int.emod_nonneg _ (by decide)
  have hlt : n % dayNanos < 86400000000000 := Int.emod_lt_of_pos _ (by decide)
  unfold nanoOfDay fromNanoOfDay
  rw [← dayNanos]
  unfold nanosPerSec
  dsimp only
  omega

theorem emod_wrapI128 {n : Int} (hmin : -(2 ^ 128) ≤ n) (hmax : n ≤ 2 ^ 128) :
    wrapI128 n % dayNanos = n % dayNanos ↔ InI128 n := by
  constructor
  · intro h
    rw [Int.emod_eq_emod_iff_emod_sub_eq_zero] at h
    by_contra hout
    obtain hoff | hoff : wrapI128 n - n = 2 ^ 128 ∨ wrapI128 n - n = -(2 ^ 128) := by
      unfold wrapI128
      unfold InI128 at hout
      omega
    all_goals
      rw [hoff] at h
      exact absurd h (by decide)
  · intro h
    rw [wrapI128_of_in h]

/-- A sum that wraps is not the time, as what is cut off is not a number of days. -/
theorem clockLater_iff {t : Time} (ht : t.Ranged) {n : Int} (hmin : -(2 ^ 127) ≤ n) (hmax : n ≤ 2 ^ 127) :
    ClockLater t n (shiftTime t (wrapI128 (t.nanoOfDay + n))) ↔ InI128 (t.nanoOfDay + n) := by
  have hday := ht.nanoOfDay_bounds
  unfold dayNanos secsPerDay nanosPerSec at hday
  rw [← emod_wrapI128 (by omega) (by omega)]
  unfold shiftTime
  constructor
  · intro h
    rw [← h.nanoOfDay, nanoOfDay_fromNanoOfDay]
  · intro h
    exact ⟨clock_fromNanoOfDay .., (nanoOfDay_fromNanoOfDay ..).trans h, rfl, rfl⟩

end Time

/-! ## Days and nanoseconds -/

theorem daysBeforeYear_i32Min : daysBeforeYear i32Min = -784352296671 := by decide

theorem daysBeforeYear_i32Max : daysBeforeYear (i32Max + 1) = 784352295939 := by decide

theorem hasDate_iff {y : Int} {m d : Nat} (h : IsDate y m d) : HasDate (Gregorian.number y m d) ↔ InI32 y := by
  have hlt := h.lt_number
  have hle := h.number_le
  constructor
  · rintro ⟨hmin, hmax⟩
    have hfirst := Gregorian.daysBeforeYear_mono.reflect_lt (hmin.trans_le hle)
    have hlast := Gregorian.daysBeforeYear_mono.reflect_lt (hlt.trans_le hmax)
    unfold InI32
    omega
  · rintro ⟨hmin, hmax⟩
    exact ⟨(Gregorian.daysBeforeYear_mono hmin).trans_lt hlt, hle.trans (Gregorian.daysBeforeYear_mono (by omega))⟩

theorem NanosLater.number {t v : DateTime} {n : Int} (h : NanosLater t n v) :
    v.date.number = (t.localNanos + n) / dayNanos := by
  have hlocal := h.localNanos
  have hclock := h.clock.nanoOfDay_bounds
  unfold DateTime.localNanos at hlocal
  unfold DateTime.localNanos
  unfold dayNanos secsPerDay nanosPerSec at *
  omega

namespace DateTime

variable {d : DateTime}

/-- The total of `add_dt`. -/
def total (d : DateTime) (n : Int) : Int := d.date.epochDay * dayNanos + d.time.nanoOfDay + n

theorem total_eq (hd : d.date.Supported) (n : Int) : d.total n = d.localNanos + n - epochNumber * dayNanos := by
  unfold total localNanos Date.number
  rw [hd.epochDay_eq]
  unfold dayNanos secsPerDay nanosPerSec
  omega

theorem total_div (hd : d.date.Supported) (n : Int) : d.total n / dayNanos = (d.localNanos + n) / dayNanos - epochNumber := by
  rw [total_eq hd]
  unfold dayNanos secsPerDay nanosPerSec
  omega

/-- What fits does not overflow on the way. -/
theorem total_bounds (hd : d.date.Supported) {n : Int} (h : HasDate ((d.localNanos + n) / dayNanos)) :
    InI128 (d.total n) ∧ -10 ^ 12 ≤ d.total n / dayNanos ∧ d.total n / dayNanos ≤ 10 ^ 12 := by
  rw [total_div hd, total_eq hd]
  unfold HasDate at h
  rw [daysBeforeYear_i32Min, daysBeforeYear_i32Max] at h
  unfold InI128 epochNumber
  unfold dayNanos secsPerDay nanosPerSec at h ⊢
  omega

theorem addDt_date (hd : d.date.Supported) {n : Int} (h : HasDate ((d.localNanos + n) / dayNanos)) :
    IsDate (d.addDt ⟨n⟩).date.year (d.addDt ⟨n⟩).date.month (d.addDt ⟨n⟩).date.day ∧
      (d.addDt ⟨n⟩).date.number = (d.localNanos + n) / dayNanos := by
  obtain ⟨htotal, hmin, hmax⟩ := total_bounds hd h
  obtain ⟨y, m, day, hdate, hnumber, hcivil⟩ := @civilFromDays_number (d.total n / dayNanos) (by omega) (by omega)
  rw [total_div hd, Int.sub_add_cancel] at hnumber
  have hyear : InI32 y := by
    rw [← hasDate_iff hdate, hnumber]
    exact h
  have hday : (d.addDt ⟨n⟩).date = ⟨y, m, day⟩ := by
    have hwrap : wrapI64 (d.total n / dayNanos) = d.total n / dayNanos := wrapI64_of_mem (by omega) (by omega)
    unfold addDt
    dsimp only
    rw [← dayNanos, ← total, wrapI128_of_in htotal, hwrap, Date.fromEpochDay, hcivil, wrapI32_of_in hyear]
  rw [hday]
  exact ⟨hdate, hnumber⟩

theorem addDt_time (hd : d.date.Supported) {n : Int} (h : HasDate ((d.localNanos + n) / dayNanos)) :
    (d.addDt ⟨n⟩).time = .fromNanoOfDay (d.localNanos + n) d.time.offsetSeconds d.time.zone := by
  obtain ⟨htotal, -, -⟩ := total_bounds hd h
  have hmod : d.total n % dayNanos % dayNanos = (d.localNanos + n) % dayNanos := by
    rw [total_eq hd]
    unfold dayNanos secsPerDay nanosPerSec
    omega
  unfold addDt
  dsimp only
  rw [← dayNanos, ← total, wrapI128_of_in htotal]
  unfold Time.fromNanoOfDay
  rw [← dayNanos, hmod]

theorem addDt_year (d : DateTime) (dur : DtDuration) : InI32 (d.addDt dur).date.year := inI32_wrapI32 _

/-- Nanoseconds are added exactly when the day has a date. -/
theorem nanosLater_iff (hd : d.date.Supported) {n n' : Int} (hn : HasDate ((d.localNanos + n) / dayNanos) → n' = n) :
    NanosLater d n (d.addDt ⟨n'⟩) ↔ HasDate ((d.localNanos + n) / dayNanos) := by
  constructor
  · intro h
    rw [← h.number]
    exact (hasDate_iff h.isDate).mpr (addDt_year d ⟨n'⟩)
  · intro h
    obtain rfl := hn h
    obtain ⟨hdate, hnumber⟩ := addDt_date hd h
    have htime := addDt_time hd h
    refine ⟨hdate, ?_, ?_, ?_, ?_⟩
    · rw [htime]
      exact Time.clock_fromNanoOfDay ..
    · rw [localNanos, hnumber, htime, Time.nanoOfDay_fromNanoOfDay]
      exact Int.ediv_mul_add_emod _ _
    · rw [htime]
      rfl
    · rw [htime]
      rfl

theorem localNanos_midnight (d : Date) (n : Int) :
    (localNanos ⟨d, Builtins.midnight⟩ + n) / dayNanos = d.number + n / dayNanos := by
  have hzero : Builtins.midnight.nanoOfDay = 0 := by decide
  unfold localNanos
  dsimp only
  rw [hzero]
  unfold dayNanos secsPerDay nanosPerSec
  omega

theorem daysLater_iff {d : Date} (hd : d.Supported) {n n' : Int} (hn : HasDate (d.number + n / dayNanos) → n' = n) :
    DaysLater d n (addDate d ⟨n'⟩) ↔ HasDate (d.number + n / dayNanos) := by
  unfold addDate
  constructor
  · intro h
    rw [← h.number]
    exact (hasDate_iff h.isDate).mpr (addDt_year _ ⟨n'⟩)
  · intro h
    obtain rfl := hn h
    rw [← localNanos_midnight] at h
    obtain ⟨hdate, hnumber⟩ := addDt_date (d := ⟨d, Builtins.midnight⟩) hd h
    exact ⟨hdate, hnumber.trans (localNanos_midnight d n')⟩

theorem not_addDtOverflows (hd : d.date.Supported) {n : Int} (h : HasDate ((d.localNanos + n) / dayNanos)) :
    ¬ d.AddDtOverflows n := by
  obtain ⟨htotal, hmin, hmax⟩ := total_bounds hd h
  have hwrap : wrapI64 (d.total n / dayNanos) = d.total n / dayNanos := wrapI64_of_mem (by omega) (by omega)
  unfold AddDtOverflows
  dsimp only
  rw [← total, hwrap]
  rintro (hyear | hout | hout)
  · exact Date.not_epochDayOverflows hd hyear
  · exact hout htotal
  · unfold CivilFromDaysOverflows InI64 at hout
    omega

/-- A duration with a date at the end of it is negated without an overflow. -/
theorem hasDate_bounds (hd : d.date.Supported) (ht : d.time.Ranged) {n : Int} (h : HasDate ((d.localNanos + n) / dayNanos)) :
    -(2 ^ 120) ≤ n ∧ n ≤ 2 ^ 120 := by
  have hday := ht.nanoOfDay_bounds
  have hnumber := hd.epochDay_bounds
  rw [hd.epochDay_eq] at hnumber
  unfold HasDate at h
  rw [daysBeforeYear_i32Min, daysBeforeYear_i32Max] at h
  unfold localNanos Date.number at h
  unfold epochNumber at hnumber
  unfold dayNanos secsPerDay nanosPerSec at h hday
  omega

end DateTime

/-! ## Sums and differences -/

variable {checks : Bool} {l r v : FeelVal}

theorem addExact_iff (h : add l r = .ok v) (hnull : v ≠ .null) :
    AddExact checks l r ↔ (checks → ¬ AddOverflows l r) ∧ ExactSum l r v := by
  constructor
  · intro hexact
    exact ⟨hexact.no_panic, (hexact.exact v h).resolve_left hnull⟩
  · rintro ⟨hpanic, hsum⟩
    refine ⟨hpanic, fun v' hv' => .inr ?_⟩
    rw [h] at hv'
    exact Except.ok.inj hv' ▸ hsum

theorem subExact_iff (h : sub l r = .ok v) (hnull : v ≠ .null) :
    SubExact checks l r ↔ (checks → ¬ SubOverflows l r) ∧ ExactDifference l r v := by
  constructor
  · intro hexact
    exact ⟨hexact.no_panic, (hexact.exact v h).resolve_left hnull⟩
  · rintro ⟨hpanic, hdiff⟩
    refine ⟨hpanic, fun v' hv' => .inr ?_⟩
    rw [h] at hv'
    exact Except.ok.inj hv' ▸ hdiff

/-- What decides exactness also keeps a build with overflow checks from panicking. -/
theorem and_iff_of {p q f : Prop} (hexact : q ↔ f) (hpanic : f → ¬ p) : (checks → ¬ p) ∧ q ↔ f :=
  ⟨fun h => hexact.mp h.2, fun h => ⟨fun _ => hpanic h, hexact.mpr h⟩⟩

theorem wrapI64_eq_iff (n : Int) : wrapI64 n = n ↔ InI64 n :=
  ⟨fun h => h ▸ inI64_wrapI64 n, wrapI64_of_in⟩

theorem wrapI128_eq_iff (n : Int) : wrapI128 n = n ↔ InI128 n :=
  ⟨fun h => h ▸ inI128_wrapI128 n, wrapI128_of_in⟩

theorem wrapsI64_iff (n : Int) : (checks → ¬ ¬ InI64 n) ∧ wrapI64 n = n ↔ InI64 n :=
  and_iff_of (wrapI64_eq_iff n) not_not.mpr

theorem wrapsI128_iff (n : Int) : (checks → ¬ ¬ InI128 n) ∧ wrapI128 n = n ↔ InI128 n :=
  and_iff_of (wrapI128_eq_iff n) not_not.mpr

theorem neg_months {d : Date} (hd : d.Supported) {n : Int} (h : InI32 (d.yearAfter (-n))) : InI64 (-n) := by
  have hn := Date.yearAfter_bounds hd h
  unfold InI64
  omega

theorem neg_nanos {d : DateTime} (hd : d.date.Supported) (ht : d.time.Ranged) {n : Int}
    (h : HasDate ((d.localNanos + -n) / dayNanos)) : InI128 (-n) := by
  have hn := DateTime.hasDate_bounds hd ht h
  unfold InI128
  omega

theorem ranged_midnight : Builtins.midnight.Ranged := ⟨by decide, by decide, by decide, by decide, nofun⟩

theorem neg_nanos_date {d : Date} (hd : d.Supported) {n : Int} (h : HasDate (d.number + -n / dayNanos)) : InI128 (-n) := by
  rw [← DateTime.localNanos_midnight] at h
  exact neg_nanos (d := ⟨d, Builtins.midnight⟩) hd ranged_midnight h

theorem addExact_months {d : Date} (hd : d.Supported) (n : Int) :
    (checks → ¬ d.AddMonthsOverflows n) ∧ MonthsLater d n (d.addMonths n) ↔ InI32 (d.yearAfter n) :=
  and_iff_of (Date.monthsLater_iff hd fun _ => rfl) (Date.not_addMonthsOverflows hd)

theorem addExact_monthsAt {d : DateTime} (hd : d.date.Supported) (n : Int) :
    (checks → ¬ d.date.AddMonthsOverflows n) ∧ MonthsLater d.date n (d.date.addMonths n) ∧ d.time = d.time ↔
      InI32 (d.date.yearAfter n) :=
  and_iff_of ((and_iff_left rfl).trans (Date.monthsLater_iff hd fun _ => rfl)) (Date.not_addMonthsOverflows hd)

theorem addExact_days {d : Date} (hd : d.Supported) (n : Int) :
    (checks → ¬ DateTime.AddDtOverflows ⟨d, Builtins.midnight⟩ n) ∧ DaysLater d n (addDate d ⟨n⟩) ↔
      HasDate (d.number + n / dayNanos) := by
  refine and_iff_of (DateTime.daysLater_iff hd fun _ => rfl) fun h => ?_
  rw [← DateTime.localNanos_midnight] at h
  exact DateTime.not_addDtOverflows (d := ⟨d, Builtins.midnight⟩) hd h

theorem addExact_nanos {d : DateTime} (hd : d.date.Supported) (n : Int) :
    (checks → ¬ d.AddDtOverflows n) ∧ NanosLater d n (d.addDt ⟨n⟩) ↔ HasDate ((d.localNanos + n) / dayNanos) :=
  and_iff_of (DateTime.nanosLater_iff hd fun _ => rfl) (DateTime.not_addDtOverflows hd)

theorem inI128_bounds {n : Int} (h : InI128 n) : -(2 ^ 127) ≤ n ∧ n ≤ 2 ^ 127 - 1 := by
  unfold InI128 at h
  omega

theorem addExact_clock {t : Time} (ht : t.Ranged) {n : Int} (hn : InI128 n) :
    (checks → ¬ ¬ InI128 (t.nanoOfDay + n)) ∧ ClockLater t n (shiftTime t (wrapI128 (t.nanoOfDay + n))) ↔
      InI128 (t.nanoOfDay + n) := by
  have hbounds := inI128_bounds hn
  exact and_iff_of (Time.clockLater_iff ht (by omega) (by omega)) not_not.mpr

/-- A sum is exact exactly when it fits. -/
theorem add_exact_iff (hl : l.Made) (hr : r.Made) : AddExact checks l r ↔ AddFits l r := by
  cases hl with
  | date hd =>
    cases hr with
    | ymDur hy => exact (addExact_iff rfl (by nofun)).trans (addExact_months hd _)
    | dtDur ht => exact (addExact_iff rfl (by nofun)).trans (addExact_days hd _)
    | _ => exact ⟨fun _ => trivial, fun _ => ⟨fun _ => not_false, nofun⟩⟩
  | time ht =>
    cases hr with
    | dtDur hn => exact (addExact_iff rfl (by nofun)).trans (addExact_clock ht hn)
    | _ => exact ⟨fun _ => trivial, fun _ => ⟨fun _ => not_false, nofun⟩⟩
  | dateTime hd ht =>
    cases hr with
    | ymDur hy => exact (addExact_iff rfl (by nofun)).trans (addExact_monthsAt hd _)
    | dtDur hn => exact (addExact_iff rfl (by nofun)).trans (addExact_nanos hd _)
    | _ => exact ⟨fun _ => trivial, fun _ => ⟨fun _ => not_false, nofun⟩⟩
  | ymDur hy =>
    cases hr with
    | date hd => exact (addExact_iff rfl (by nofun)).trans (addExact_months hd _)
    | dateTime hd ht => exact (addExact_iff rfl (by nofun)).trans (addExact_monthsAt hd _)
    | ymDur hy' => exact (addExact_iff rfl (by nofun)).trans (wrapsI64_iff _)
    | _ => exact ⟨fun _ => trivial, fun _ => ⟨fun _ => not_false, nofun⟩⟩
  | dtDur hn =>
    cases hr with
    | date hd => exact (addExact_iff rfl (by nofun)).trans (addExact_days hd _)
    | time ht => exact (addExact_iff rfl (by nofun)).trans (addExact_clock ht hn)
    | dateTime hd ht => exact (addExact_iff rfl (by nofun)).trans (addExact_nanos hd _)
    | dtDur hn' => exact (addExact_iff rfl (by nofun)).trans (wrapsI128_iff _)
    | _ => exact ⟨fun _ => trivial, fun _ => ⟨fun _ => not_false, nofun⟩⟩

theorem subExact_months {d : Date} (hd : d.Supported) (n : Int) :
    (checks → ¬ (¬ InI64 (-n) ∨ d.AddMonthsOverflows (wrapI64 (-n)))) ∧ MonthsLater d (-n) (d.addMonths (wrapI64 (-n))) ↔
      InI32 (d.yearAfter (-n)) := by
  refine and_iff_of (Date.monthsLater_iff hd fun h => wrapI64_of_in (neg_months hd h)) fun h => ?_
  rw [wrapI64_of_in (neg_months hd h)]
  rintro (hneg | hover)
  · exact hneg (neg_months hd h)
  · exact Date.not_addMonthsOverflows hd h hover

theorem subExact_monthsAt {d : DateTime} (hd : d.date.Supported) (n : Int) :
    (checks → ¬ (¬ InI64 (-n) ∨ d.date.AddMonthsOverflows (wrapI64 (-n)))) ∧
        MonthsLater d.date (-n) (d.date.addMonths (wrapI64 (-n))) ∧ d.time = d.time ↔ InI32 (d.date.yearAfter (-n)) :=
  (and_congr_right' (and_iff_left rfl)).trans (subExact_months hd n)

theorem subExact_days {d : Date} (hd : d.Supported) (n : Int) :
    (checks → ¬ (¬ InI128 (-n) ∨ DateTime.AddDtOverflows ⟨d, Builtins.midnight⟩ (wrapI128 (-n)))) ∧
        DaysLater d (-n) (addDate d ⟨wrapI128 (-n)⟩) ↔ HasDate (d.number + -n / dayNanos) := by
  refine and_iff_of (DateTime.daysLater_iff hd fun h => wrapI128_of_in (neg_nanos_date hd h)) fun h => ?_
  rw [wrapI128_of_in (neg_nanos_date hd h)]
  rintro (hneg | hover)
  · exact hneg (neg_nanos_date hd h)
  · rw [← DateTime.localNanos_midnight] at h
    exact DateTime.not_addDtOverflows (d := ⟨d, Builtins.midnight⟩) hd h hover

theorem subExact_nanos {d : DateTime} (hd : d.date.Supported) (ht : d.time.Ranged) (n : Int) :
    (checks → ¬ (¬ InI128 (-n) ∨ d.AddDtOverflows (wrapI128 (-n)))) ∧ NanosLater d (-n) (d.addDt ⟨wrapI128 (-n)⟩) ↔
      HasDate ((d.localNanos + -n) / dayNanos) := by
  refine and_iff_of (DateTime.nanosLater_iff hd fun h => wrapI128_of_in (neg_nanos hd ht h)) fun h => ?_
  rw [wrapI128_of_in (neg_nanos hd ht h)]
  rintro (hneg | hover)
  · exact hneg (neg_nanos hd ht h)
  · exact DateTime.not_addDtOverflows hd h hover

theorem subExact_clock {t : Time} (ht : t.Ranged) {n : Int} (hn : InI128 n) :
    (checks → ¬ ¬ InI128 (t.nanoOfDay - n)) ∧ ClockLater t (-n) (shiftTime t (wrapI128 (t.nanoOfDay - n))) ↔
      InI128 (t.nanoOfDay - n) := by
  have hbounds := inI128_bounds hn
  rw [Int.sub_eq_add_neg]
  exact and_iff_of (Time.clockLater_iff ht (by omega) (by omega)) not_not.mpr

/-- Dates are always subtracted exactly: their days are far within an `i64`. -/
theorem subExact_dates {a b : Date} (ha : a.Supported) (hb : b.Supported) : SubExact checks (.date a) (.date b) := by
  have hda := ha.epochDay_bounds
  have hdb := hb.epochDay_bounds
  rw [subExact_iff rfl (by nofun)]
  refine ⟨fun _ => ?_, ?_⟩
  · rintro (hover | hover | hover | hover)
    · exact Date.not_epochDayOverflows ha hover
    · exact Date.not_epochDayOverflows hb hover
    all_goals
      unfold InI64 at hover
      omega
  · show (a.epochDay - b.epochDay) * 86400 * nanosPerSec = (a.number - b.number) * dayNanos
    rw [ha.epochDay_eq, hb.epochDay_eq]
    unfold Date.number dayNanos secsPerDay nanosPerSec
    omega

theorem DateTime.epochNanos_instant (d : DateTime) :
    d.epochNanos = d.instant + (d.date.epochDay - d.date.number) * dayNanos := by
  unfold epochNanos instant localNanos dayNanos secsPerDay nanosPerSec
  omega

theorem DateTime.epochNanos_eq {d : DateTime} (h : d.date.epochDay = d.date.number - epochNumber) :
    d.epochNanos = d.instant - epochNumber * dayNanos := by
  rw [epochNanos_instant, h]
  unfold dayNanos secsPerDay nanosPerSec
  omega

theorem subExact_dateTimes {a b : DateTime} (ha : a.date.Supported) (hb : b.date.Supported) :
    SubExact checks (.dateTime a) (.dateTime b) := by
  rw [subExact_iff rfl (by nofun)]
  refine ⟨fun _ => ?_, ?_⟩
  · rintro (hover | hover)
    · exact Date.not_epochDayOverflows ha hover
    · exact Date.not_epochDayOverflows hb hover
  · show a.epochNanos - b.epochNanos = a.instant - b.instant
    rw [DateTime.epochNanos_eq ha.epochDay_eq, DateTime.epochNanos_eq hb.epochDay_eq]
    omega

/-- The difference of times leaves their offsets out. -/
theorem subExact_times (a b : Time) :
    SubExact checks (.time a) (.time b) ↔ a.offsetSeconds.getD 0 = b.offsetSeconds.getD 0 := by
  have hoffsets : a.nanoOfDay - b.nanoOfDay = a.utcNanos - b.utcNanos ↔ a.offsetSeconds.getD 0 = b.offsetSeconds.getD 0 := by
    unfold Time.utcNanos nanosPerSec
    omega
  rw [subExact_iff rfl (by nofun), ← hoffsets]
  exact and_iff_right fun _ => not_false

/-- A difference is exact exactly when it fits, and the offsets of times agree. -/
theorem sub_exact_iff (hl : l.Made) (hr : r.Made) : SubExact checks l r ↔ SubFits l r := by
  cases hl with
  | date hd =>
    cases hr with
    | date hd' => exact iff_of_true (subExact_dates hd hd') trivial
    | ymDur hy => exact (subExact_iff rfl (by nofun)).trans (subExact_months hd _)
    | dtDur hn => exact (subExact_iff rfl (by nofun)).trans (subExact_days hd _)
    | _ => exact ⟨fun _ => trivial, fun _ => ⟨fun _ => not_false, nofun⟩⟩
  | time ht =>
    cases hr with
    | time ht' => exact subExact_times _ _
    | dtDur hn => exact (subExact_iff rfl (by nofun)).trans (subExact_clock ht hn)
    | _ => exact ⟨fun _ => trivial, fun _ => ⟨fun _ => not_false, nofun⟩⟩
  | dateTime hd ht =>
    cases hr with
    | dateTime hd' ht' => exact iff_of_true (subExact_dateTimes hd hd') trivial
    | ymDur hy => exact (subExact_iff rfl (by nofun)).trans (subExact_monthsAt hd _)
    | dtDur hn => exact (subExact_iff rfl (by nofun)).trans (subExact_nanos hd ht _)
    | _ => exact ⟨fun _ => trivial, fun _ => ⟨fun _ => not_false, nofun⟩⟩
  | ymDur hy =>
    cases hr with
    | ymDur hy' => exact (subExact_iff rfl (by nofun)).trans (wrapsI64_iff _)
    | _ => exact ⟨fun _ => trivial, fun _ => ⟨fun _ => not_false, nofun⟩⟩
  | dtDur hn =>
    cases hr with
    | dtDur hn' => exact (subExact_iff rfl (by nofun)).trans (wrapsI128_iff _)
    | _ => exact ⟨fun _ => trivial, fun _ => ⟨fun _ => not_false, nofun⟩⟩

/-! ## Durations after a date-time -/

/-- The first of March of the first year: from there on the days of dates are counted without an overflow. -/
def firstMarch : Int := Gregorian.number i32Min 3 1

theorem firstMarch_eq : firstMarch = -784352296610 := by decide

theorem isDate_firstMarch : IsDate i32Min 3 1 := ⟨by decide, by decide, by decide, by decide⟩

namespace Date

variable {d : Date}

theorem epochDay_of_march (hdate : IsDate d.year d.month d.day) (hyear : InI32 d.year) (hmarch : firstMarch ≤ d.number) :
    d.epochDay = d.number - epochNumber ∧ ¬ d.EpochDayOverflows := by
  have hearly : d.month ≤ 2 → i32Min < d.year := by
    intro hm
    by_contra hfirst
    have hmin : d.year = i32Min := by
      have := hyear.1
      omega
    have hlt := Gregorian.number_lt_of_lex hdate isDate_firstMarch (.inr ⟨hmin, .inl (by omega)⟩)
    unfold number firstMarch at hmarch
    omega
  have hmax := hyear.2
  have hwrap : d.month ≤ 2 → InI32 (d.year - 1) := by
    intro hm
    have hlt := hearly hm
    exact ⟨by omega, by omega⟩
  refine ⟨daysFromCivil_number (fun hm => wrapI32_of_in (hwrap hm)) hdate.month_pos hdate.month_le, ?_⟩
  rintro ⟨hm, hout⟩
  exact hout (hwrap hm)

/-- In the first two months of the first year, days are counted from the end of the last year. -/
theorem epochDay_early (hdate : IsDate d.year d.month d.day) (hyear : InI32 d.year) (hmarch : d.number < firstMarch) :
    d.epochDay ≠ d.number - epochNumber ∧ d.EpochDayOverflows := by
  have hmin : d.year = i32Min := by
    have hfirst := hyear.1
    by_contra hlater
    have hlt := Gregorian.number_lt_of_lex isDate_firstMarch hdate (.inl (by omega))
    unfold number firstMarch at hmarch
    omega
  have hmonth : d.month ≤ 2 := by
    by_contra hlater
    rcases Nat.lt_or_ge 3 d.month with hm | hm
    · have hlt := Gregorian.number_lt_of_lex isDate_firstMarch hdate (.inr ⟨hmin.symm, .inl hm⟩)
      unfold number firstMarch at hmarch
      omega
    · have hday := hdate.day_pos
      have hle : firstMarch ≤ d.number := by
        unfold firstMarch number Gregorian.number Gregorian.ordinal
        rw [hmin, show d.month = 3 by omega]
        omega
      omega
  have hpos := hdate.month_pos
  refine ⟨?_, hmonth, by rw [hmin]; decide⟩
  have hlast : 0 ≤ d.epochDay := by
    unfold epochDay
    rw [hmin]
    obtain hm | hm : d.month = 1 ∨ d.month = 2 := by omega
    all_goals
      rw [hm]
      have hday := hdate.day_pos
      simp [daysFromCivil, wrapI32, i32Min]
      omega
  have hnumber : d.number - epochNumber < 0 := by
    rw [firstMarch_eq] at hmarch
    unfold epochNumber
    omega
  omega

end Date

/-- Sums with two durations are exact, the difference takes the first one back, and the larger one is later: in a build
with overflow checks or one without. -/
structure Lawful (checks : Bool) (t : DateTime) (d d' : DtDuration) : Prop where
  sum : AddExact checks (.dateTime t) (.dtDur d)
  larger : AddExact checks (.dateTime t) (.dtDur d')
  no_panic : checks → ∀ s, add (.dateTime t) (.dtDur d) = .ok s → ¬ SubOverflows s (.dateTime t)
  difference : ∀ s, add (.dateTime t) (.dtDur d) = .ok s → sub s (.dateTime t) = .ok (.dtDur d)
  later : ∀ s s', add (.dateTime t) (.dtDur d) = .ok s → add (.dateTime t) (.dtDur d') = .ok s' →
    compareVals s s' = some .lt

/-- The sums are dates that `i32` years can count from the March before them. -/
def LawFits (t : DateTime) (d d' : DtDuration) : Prop :=
  firstMarch ≤ (t.localNanos + d.nanos) / dayNanos ∧ (t.localNanos + d'.nanos) / dayNanos ≤ daysBeforeYear (i32Max + 1)

theorem NanosLater.instant {t v : DateTime} {n : Int} (h : NanosLater t n v) : v.instant = t.instant + n := by
  unfold DateTime.instant
  rw [h.localNanos, h.offset]
  omega

theorem lawful_iff {t : DateTime} (hd : t.date.Supported) (ht : t.time.Ranged) {d d' : DtDuration} (hn : InI128 d.nanos)
    (hn' : InI128 d'.nanos) (hlt : d.nanos < d'.nanos) : Lawful checks t d d' ↔ LawFits t d d' := by
  have hdays : (t.localNanos + d.nanos) / dayNanos ≤ (t.localNanos + d'.nanos) / dayNanos :=
    Int.ediv_le_ediv (by decide) (by omega)
  constructor
  · intro h
    have hfits := (add_exact_iff (.dateTime hd ht) (.dtDur hn)).mp h.sum
    have hfits' := (add_exact_iff (.dateTime hd ht) (.dtDur hn')).mp h.larger
    refine ⟨?_, hfits'.2⟩
    by_contra hearly
    have hlater : NanosLater t d.nanos (t.addDt d) := (DateTime.nanosLater_iff hd fun _ => rfl).mpr hfits
    have hday := Date.epochDay_early hlater.isDate (DateTime.addDt_year t d) (hlater.number ▸ Int.not_le.mp hearly)
    have hdiff := h.difference _ rfl
    have hnanos : (t.addDt d).epochNanos - t.epochNanos = d.nanos :=
      congrArg DtDuration.nanos (FeelVal.dtDur.inj (Except.ok.inj hdiff))
    have hinstant := hlater.instant
    rw [DateTime.epochNanos_instant, DateTime.epochNanos_eq hd.epochDay_eq] at hnanos
    apply hday.1
    unfold dayNanos secsPerDay nanosPerSec at hnanos
    omega
  · rintro ⟨hmarch, hlast⟩
    have hfirst : daysBeforeYear i32Min < firstMarch := by decide
    have hfits : HasDate ((t.localNanos + d.nanos) / dayNanos) := ⟨hfirst.trans_le hmarch, hdays.trans hlast⟩
    have hfits' : HasDate ((t.localNanos + d'.nanos) / dayNanos) := ⟨hfirst.trans_le (hmarch.trans hdays), hlast⟩
    have hlater : NanosLater t d.nanos (t.addDt d) := (DateTime.nanosLater_iff hd fun _ => rfl).mpr hfits
    have hlater' : NanosLater t d'.nanos (t.addDt d') := (DateTime.nanosLater_iff hd fun _ => rfl).mpr hfits'
    obtain ⟨hday, hpanic⟩ := Date.epochDay_of_march hlater.isDate (DateTime.addDt_year t d) (hlater.number ▸ hmarch)
    obtain ⟨hday', -⟩ :=
      Date.epochDay_of_march hlater'.isDate (DateTime.addDt_year t d') (hlater'.number ▸ hmarch.trans hdays)
    have hepoch : (t.addDt d).epochNanos = t.epochNanos + d.nanos := by
      rw [DateTime.epochNanos_eq hday, DateTime.epochNanos_eq hd.epochDay_eq, hlater.instant]
      omega
    have hepoch' : (t.addDt d').epochNanos = t.epochNanos + d'.nanos := by
      rw [DateTime.epochNanos_eq hday', DateTime.epochNanos_eq hd.epochDay_eq, hlater'.instant]
      omega
    refine ⟨(add_exact_iff (.dateTime hd ht) (.dtDur hn)).mpr hfits, (add_exact_iff (.dateTime hd ht) (.dtDur hn')).mpr hfits',
      ?_, ?_, ?_⟩
    · rintro - _ ⟨⟩ (hover | hover)
      · exact hpanic hover
      · exact Date.not_epochDayOverflows hd hover
    · rintro _ ⟨⟩
      show Except.ok (FeelVal.dtDur ⟨(t.addDt d).epochNanos - t.epochNanos⟩) = _
      rw [hepoch, add_sub_cancel_left]
    · rintro _ _ ⟨⟩ ⟨⟩
      show some ((t.addDt d).cmp (t.addDt d')) = _
      unfold DateTime.cmp
      rw [hepoch, hepoch']
      exact congrArg some (compare_lt_iff_lt.mpr (by omega))

end NanoBpm.FeelExpr
