import NanoBpm.Planner.Resolve

/-!
# Dates, times and durations (`engine-core/src/feel/temporal.rs`)

Arithmetic on the proleptic Gregorian calendar. How these values are written as text is a parameter of the
values (`Texts`).
-/

namespace NanoBpm.FeelExpr

@[ext]
structure Date where
  year : Int
  month : Nat
  day : Nat
deriving DecidableEq

structure Time where
  hour : Nat
  minute : Nat
  second : Nat
  nano : Nat
  offsetSeconds : Option Int := none
  zone : Option String := none
deriving DecidableEq

structure DateTime where
  date : Date
  time : Time
deriving DecidableEq

structure YmDuration where
  months : Int
deriving DecidableEq

structure DtDuration where
  nanos : Int
deriving DecidableEq

def InI32 (n : Int) : Prop := i32Min ≤ n ∧ n ≤ i32Max

instance (n : Int) : Decidable (InI32 n) := inferInstanceAs (Decidable (_ ∧ _))

def InI64 (n : Int) : Prop := -9223372036854775808 ≤ n ∧ n ≤ 9223372036854775807

instance (n : Int) : Decidable (InI64 n) := inferInstanceAs (Decidable (_ ∧ _))

/-- A number cut to an `i64`. -/
def wrapI64 (i : Int) : Int := (i + 9223372036854775808) % 18446744073709551616 - 9223372036854775808

/-- A number cut to an `i128`. -/
def wrapI128 (i : Int) : Int :=
  (i + 170141183460469231731687303715884105728) % 340282366920938463463374607431768211456 -
    170141183460469231731687303715884105728

def nanosPerSec : Int := 1000000000

def secsPerDay : Int := 86400

/-! ## Day numbers -/

/-- `days_from_civil`; a Rust quotient is truncated. -/
def daysFromCivil (year : Int) (month day : Nat) : Int :=
  let y := if month ≤ 2 then wrapI32 (year - 1) else year
  let era := (if y ≥ 0 then y else y - 399).tdiv 400
  let yoe := y - era * 400
  let m : Int := month
  let doy := (153 * (if m > 2 then m - 3 else m + 9) + 2).tdiv 5 + day - 1
  let doe := yoe * 365 + yoe.tdiv 4 - yoe.tdiv 100 + doy
  era * 146097 + doe - 719468

/-- `civil_from_days`. -/
def civilFromDays (days : Int) : Int × Nat × Nat :=
  let z := wrapI64 (days + 719468)
  let era := (if z ≥ 0 then z else wrapI64 (z - 146096)).tdiv 146097
  let doe := wrapI64 (z - era * 146097)
  let yoe := (doe - doe.tdiv 1460 + doe.tdiv 36524 - doe.tdiv 146096).tdiv 365
  let y := yoe + era * 400
  let doy := doe - (365 * yoe + yoe.tdiv 4 - yoe.tdiv 100)
  let mp := (5 * doy + 2).tdiv 153
  let d := doy - (153 * mp + 2).tdiv 5 + 1
  let m := if mp < 10 then mp + 3 else mp - 9
  (wrapI32 (if m ≤ 2 then y + 1 else y), m.toNat, d.toNat)

def isLeap (y : Int) : Bool := (y.tmod 4 == 0 && y.tmod 100 != 0) || y.tmod 400 == 0

/-- `days_in_month`, and `days_in` of the builtins. -/
def daysInMonth (y : Int) (m : Nat) : Nat :=
  if [1, 3, 5, 7, 8, 10, 12].contains m then 31
  else if [4, 6, 9, 11].contains m then 30
  else if m = 2 then if isLeap y then 29 else 28
  else 30

namespace Date

/-- `Date::new`. -/
def new (year : Int) (month day : Nat) : Option Date :=
  if !(1 ≤ month && month ≤ 12) || day < 1 || day > daysInMonth year month then none else some { year, month, day }

def epochDay (d : Date) : Int := daysFromCivil d.year d.month d.day

def fromEpochDay (days : Int) : Date :=
  let (year, month, day) := civilFromDays days
  { year, month, day }

/-- `add_months`: the day is cut to the month. -/
def addMonths (d : Date) (months : Int) : Date :=
  let total := wrapI64 (d.year * 12 + ((d.month : Int) - 1) + months)
  let year := wrapI32 (total / 12)
  let month := (total % 12).toNat + 1
  { year, month, day := min d.day (daysInMonth year month) }

/-- Monday is 1. -/
def weekday (d : Date) : Nat := ((d.epochDay.tmod 7 + 3) % 7).toNat + 1

def dayOfYear (d : Date) : Nat := (d.epochDay - daysFromCivil d.year 1 1 + 1).toNat

def weekOfYear (d : Date) : Nat :=
  let thursday := d.epochDay - ((d.weekday : Int) - 1) + 3
  let jan1 := daysFromCivil (civilFromDays thursday).1 1 1
  ((thursday - jan1).tdiv 7 + 1).toNat

def cmp (a b : Date) : Ordering := compare a.epochDay b.epochDay

end Date

namespace Time

def nanoOfDay (t : Time) : Int := (((t.hour : Int) * 60 + t.minute) * 60 + t.second) * nanosPerSec + t.nano

/-- `from_nano_of_day`, and `time_from_nanos` of the evaluator. -/
def fromNanoOfDay (nanos : Int) (offsetSeconds : Option Int) (zone : Option String) : Time :=
  let n := nanos % (secsPerDay * nanosPerSec)
  let secs := n / nanosPerSec
  { hour := (secs / 3600 % 24).toNat, minute := (secs / 60 % 60).toNat, second := (secs % 60).toNat,
    nano := (n % nanosPerSec).toNat, offsetSeconds, zone }

/-- The nanoseconds since midnight in UTC, which order times. -/
def utcNanos (t : Time) : Int := t.nanoOfDay - t.offsetSeconds.getD 0 * nanosPerSec

def cmp (a b : Time) : Ordering := compare a.utcNanos b.utcNanos

end Time

namespace DateTime

def epochNanos (d : DateTime) : Int :=
  d.date.epochDay * secsPerDay * nanosPerSec + d.time.nanoOfDay - d.time.offsetSeconds.getD 0 * nanosPerSec

/-- `add_dt`. -/
def addDt (d : DateTime) (dur : DtDuration) : DateTime :=
  let day := secsPerDay * nanosPerSec
  let total := wrapI128 (d.date.epochDay * day + d.time.nanoOfDay + dur.nanos)
  { date := .fromEpochDay (wrapI64 (total / day)), time := .fromNanoOfDay (total % day) d.time.offsetSeconds d.time.zone }

def cmp (a b : DateTime) : Ordering := compare a.epochNanos b.epochNanos

end DateTime

end NanoBpm.FeelExpr
