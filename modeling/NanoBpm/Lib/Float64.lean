import Mathlib.Algebra.Order.Ring.Nat
import Mathlib.Data.Nat.Log

/-!
# Binary floating point numbers of 64 bits

A number is given by its bits. Every finite one is a whole number of units of `2 ^ -1074`, so the
operations are exact on integers and round once, to the nearest number with ties to even.
-/

namespace F64

def negative (b : UInt64) : Bool := b.toNat / 2 ^ 63 == 1
def exponent (b : UInt64) : Nat := b.toNat / 2 ^ 52 % 2 ^ 11
def fraction (b : UInt64) : Nat := b.toNat % 2 ^ 52

def isFinite (b : UInt64) : Bool := exponent b != 2047
def isNaN (b : UInt64) : Bool := exponent b == 2047 && fraction b != 0
def isInfinite (b : UInt64) : Bool := exponent b == 2047 && fraction b == 0

/-- Units in one. -/
def one : Nat := 2 ^ 1074

/-- The magnitude of a finite number, in units. -/
def magnitude (b : UInt64) : Nat :=
  if exponent b = 0 then fraction b else (2 ^ 52 + fraction b) * 2 ^ (exponent b - 1)

/-- A finite number, in units. -/
def units (b : UInt64) : Int := if negative b then -(magnitude b : Int) else magnitude b

def signBit (negative : Bool) : Nat := if negative then 2 ^ 63 else 0

def infinity (negative : Bool) : UInt64 := .ofNat (signBit negative + 2047 * 2 ^ 52)
def nan : UInt64 := .ofNat (2047 * 2 ^ 52 + 2 ^ 51)
def zero (negative : Bool) : UInt64 := .ofNat (signBit negative)

/-- The number nearest to `num / den` units: `52` bits below the leading one are kept. -/
def round (negative : Bool) (num den : Nat) : UInt64 :=
  let shift := (num / den).log2 - 52
  let unit := den * 2 ^ shift
  let q := num / unit
  let r := num % unit
  let n := if 2 * r > unit || (2 * r == unit && q % 2 == 1) then q + 1 else q
  .ofNat (signBit negative + min (shift * 2 ^ 52 + n) (2047 * 2 ^ 52))

/-- A whole number of units; zero is positive. -/
def ofUnits (u : Int) : UInt64 := round (u < 0) u.natAbs 1

/-- `i as f64`. -/
def ofInt (i : Int) : UInt64 := ofUnits (i * one)

/-- `n / 10 ^ places`, as a decimal text is read. -/
def ofDecimal (n places : Nat) : UInt64 := round false (n * one) (10 ^ places)

def neg (a : UInt64) : UInt64 := .ofNat (signBit (!negative a) + a.toNat % 2 ^ 63)
def abs (a : UInt64) : UInt64 := .ofNat (a.toNat % 2 ^ 63)

def add (a b : UInt64) : UInt64 :=
  if isNaN a || isNaN b then nan
  else if isInfinite a then if isInfinite b && negative a != negative b then nan else a
  else if isInfinite b then b
  else if units a + units b = 0 then zero (negative a && negative b)
  else ofUnits (units a + units b)

def sub (a b : UInt64) : UInt64 := add a (neg b)

def mul (a b : UInt64) : UInt64 :=
  let sign := negative a != negative b
  if isNaN a || isNaN b then nan
  else if isInfinite a || isInfinite b then if a.toNat % 2 ^ 63 = 0 || b.toNat % 2 ^ 63 = 0 then nan else infinity sign
  else round sign (magnitude a * magnitude b) one

def div (a b : UInt64) : UInt64 :=
  let sign := negative a != negative b
  if isNaN a || isNaN b then nan
  else if isInfinite a then if isInfinite b then nan else infinity sign
  else if isInfinite b then zero sign
  else if magnitude b = 0 then if magnitude a = 0 then nan else infinity sign
  else round sign (magnitude a * one) (magnitude b)

/-- `partial_cmp`: a NaN is not ordered. -/
def cmp (a b : UInt64) : Option Ordering :=
  if isNaN a || isNaN b then none
  else if a = b then some .eq
  else if isInfinite a then some (if negative a then .lt else .gt)
  else if isInfinite b then some (if negative b then .gt else .lt)
  else some (compare (units a) (units b))

def beq (a b : UInt64) : Bool := cmp a b == some .eq
def lt (a b : UInt64) : Bool := cmp a b == some .lt

/-- `f64::min`: the other number where one is none. -/
def min (a b : UInt64) : UInt64 := if isNaN a then b else if isNaN b then a else if lt b a then b else a

/-- `f64::max`. -/
def max (a b : UInt64) : UInt64 := if isNaN a then b else if isNaN b then a else if lt a b then b else a

/-- `fract() == 0.0` of a finite number. -/
def isWhole (a : UInt64) : Bool := isFinite a && magnitude a % one == 0

/-- Towards zero, of a finite number. -/
def trunc (a : UInt64) : Int := (units a).tdiv one

/-- `a as` an integer type with these bounds: truncated and saturated, `0` for a NaN. -/
def toInt (lo hi : Int) (a : UInt64) : Int :=
  if isNaN a then 0
  else if isInfinite a then if negative a then lo else hi
  else Max.max lo (Min.min hi (trunc a))

/-- `round()`: to the nearest whole number, ties away from zero. -/
def roundHalfAway (a : UInt64) : Int :=
  let n : Int := (2 * magnitude a + one) / (2 * one)
  if negative a then -n else n

/-- The whole number `n` that is taken from `a`; zero has the sign of `a`. -/
def ofWhole (a : UInt64) (n : Int) : UInt64 := if !isFinite a then a else if n = 0 then zero (negative a) else ofInt n

def floor (a : UInt64) : UInt64 := ofWhole a (units a / one)
def ceil (a : UInt64) : UInt64 := ofWhole a (-(-units a / one))
def truncated (a : UInt64) : UInt64 := ofWhole a (trunc a)
def rounded (a : UInt64) : UInt64 := ofWhole a (roundHalfAway a)

def signum (a : UInt64) : UInt64 := if isNaN a then a else if negative a then neg (ofInt 1) else ofInt 1

end F64
