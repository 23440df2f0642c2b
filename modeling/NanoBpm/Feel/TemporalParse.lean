import NanoBpm.Feel.Durations
import NanoBpm.Feel.Value

/-!
# Temporal values from text (`feel/temporal.rs`, `builtins.rs:1029-1054`)

A parser gives a value, refuses the text, or panics: where arithmetic overflows in a build with overflow checks, and where a
fraction of a second is cut inside a character.
-/

namespace NanoBpm.FeelExpr

/-- Where the evaluator panics. -/
inductive Panic where
  | overflow
  | slice
  | charBoundary
deriving DecidableEq

/-- What a parser returns, if it returns. -/
inductive Parsed (α : Type) where
  | value (a : α)
  | refused
  | panicked (p : Panic)
deriving DecidableEq

namespace Parsed

variable {α β : Type}

def ofOption : Option α → Parsed α
  | some a => .value a
  | none => .refused

def andThen : Parsed α → (α → Parsed β) → Parsed β
  | .value a, f => f a
  | .refused, _ => .refused
  | .panicked p, _ => .panicked p

instance : Monad Parsed where
  pure := .value
  bind := andThen

/-- `None` where the condition does not hold. -/
def require (b : Bool) : Parsed Unit := if b then .value () else .refused

@[simp]
theorem pure_eq (a : α) : (pure a : Parsed α) = .value a := rfl

@[simp]
theorem value_bind (a : α) (f : α → Parsed β) : (Parsed.value a >>= f) = f a := rfl

@[simp]
theorem refused_bind (f : α → Parsed β) : (Parsed.refused >>= f) = .refused := rfl

@[simp]
theorem panicked_bind (p : Panic) (f : α → Parsed β) : (Parsed.panicked p >>= f) = .panicked p := rfl

theorem bind_eq_value {x : Parsed α} {f : α → Parsed β} {b : β} : (x >>= f) = .value b ↔ ∃ a, x = .value a ∧ f a = .value b := by
  cases x <;> simp

theorem map_eq_panicked {x : Parsed α} {f : α → β} {p : Panic} : (x >>= fun a => pure (f a)) = .panicked p ↔ x = .panicked p := by
  cases x <;> simp

@[simp]
theorem ofOption_eq_value {o : Option α} {a : α} : ofOption o = .value a ↔ o = some a := by
  cases o <;> simp [ofOption]

@[simp]
theorem require_eq_value {b : Bool} {u : Unit} : require b = .value u ↔ b := by
  cases b <;> simp [require]

end Parsed

/-! ## Numbers -/

def parseI32 : List Char → Option Int := parseInt fun n => InI32 n

def parseI64 : List Char → Option Int := parseInt fun n => InI64 n

/-- `str::parse::<u32>`. -/
def parseU32 (s : List Char) : Option Nat :=
  let value := match s with
    | '+' :: digits => parseDecimal digits
    | digits => parseDecimal digits
  value.filter fun n => n < 4294967296

/-- Arithmetic on an `i32`. -/
def i32 (checks : Bool) (n : Int) : Parsed Int := if checks ∧ ¬ InI32 n then .panicked .overflow else .value (wrapI32 n)

def i64 (checks : Bool) (n : Int) : Parsed Int := if checks ∧ ¬ InI64 n then .panicked .overflow else .value (wrapI64 n)

/-! ## Parsers -/

/-- `Date::parse`. -/
def Date.parse (s : List Char) : Option Date :=
  let (neg, rest) := match s with
    | '-' :: rest => (true, rest)
    | s => (false, s)
  match rest.splitOnP (· == '-') with
  | [y, m, d] => do
    let y ← parseI32 y
    Date.new (if neg then -y else y) (← parseU32 m) (← parseU32 d)
  | _ => none

/-- The sign of an offset, which is not optional. -/
def offsetSign : List Char → Parsed (Bool × List Char)
  | '-' :: rest => .value (true, rest)
  | '+' :: rest => .value (false, rest)
  | _ => .refused

def parseOffset (checks : Bool) (s : List Char) : Parsed Int := do
  let (neg, rest) ← offsetSign s
  match rest.splitOnP (· == ':') with
  | h :: rest =>
    let h ← .ofOption (parseI32 h)
    let m ← .ofOption (parseI32 (rest.headD ['0']))
    let secs ← i32 checks ((← i32 checks (h * 3600)) + (← i32 checks (m * 60)))
    if neg then i32 checks (-secs) else return secs
  | [] => .refused

/-- The first `+` or `-` after the first character that begins an offset. -/
def findOffset (checks : Bool) (before : List Char) : List Char → Parsed (List Char × Option Int)
  | [] => .value (before, none)
  | c :: rest =>
    if (c = '+' ∨ c = '-') ∧ before ≠ [] then
      match parseOffset checks (c :: rest) with
      | .value seconds => .value (before, some seconds)
      | .refused => findOffset checks (before ++ [c]) rest
      | .panicked p => .panicked p
    else findOffset checks (before ++ [c]) rest

def splitOffset (checks : Bool) (clock : List Char) : Parsed (List Char × Option Int) :=
  if clock.getLast? = some 'Z' ∨ clock.getLast? = some 'z' then .value (clock.dropLast, some 0)
  else findOffset checks [] clock

def utf8Len (s : List Char) : Nat := (s.map Char.utf8Size).sum

/-- `String::truncate`: the new length is to be between two characters. -/
def truncate : Nat → List Char → Parsed (List Char)
  | _, [] => .value []
  | len, c :: cs =>
    if len = 0 then .value []
    else if c.utf8Size ≤ len then do return c :: (← truncate (len - c.utf8Size) cs)
    else .panicked .charBoundary

def parseSeconds (s : List Char) : Parsed (Nat × Nat) :=
  match splitOnce '.' s with
  | some (sec, frac) => do
    let second ← .ofOption (parseU32 sec)
    let nano ← .ofOption (parseU32 (← truncate 9 (frac ++ List.replicate (9 - utf8Len frac) '0')))
    return (second, nano)
  | none => do return (← .ofOption (parseU32 s), 0)

/-- `Time::parse`. -/
def Time.parse (checks : Bool) (s : List Char) : Parsed Time := do
  let (body, zone) := match splitOnce '@' s with
    | some (body, zone) => (body, some (String.ofList zone))
    | none => (s, none)
  let (clock, offsetSeconds) ← splitOffset checks body
  match clock.splitOnP (· == ':') with
  | h :: m :: rest =>
    let hour ← .ofOption (parseU32 h)
    let minute ← .ofOption (parseU32 m)
    Parsed.require (rest.length ≤ 1)
    let (second, nano) ← parseSeconds (rest.headD ['0'])
    Parsed.require (hour ≤ 24 ∧ minute ≤ 59 ∧ second ≤ 60)
    return { hour, minute, second, nano, offsetSeconds, zone }
  | _ => .refused

/-- `DateTime::parse`. -/
def DateTime.parse (checks : Bool) (s : List Char) : Parsed DateTime := do
  let (date, time) ← .ofOption ((splitOnce 'T' s).or (splitOnce 't' s))
  let date ← .ofOption (Date.parse date)
  let time ← Time.parse checks time
  return { date, time }

/-- What the loop of `YmDuration::parse` keeps. -/
structure YmScan where
  months : Int := 0
  num : List Char := []
  saw : Bool := false

def YmScan.step (checks : Bool) (s : YmScan) (c : Char) : Parsed YmScan :=
  if c.isDigit then .value { s with num := s.num ++ [c] }
  else if c = 'Y' then do
    let n ← .ofOption (parseI64 s.num)
    let months ← i64 checks (s.months + (← i64 checks (n * 12)))
    return { months, saw := true }
  else if c = 'M' then do
    let n ← .ofOption (parseI64 s.num)
    let months ← i64 checks (s.months + n)
    return { months, saw := true }
  else .refused

/-- The sign is applied last. -/
def YmScan.signed (checks : Bool) (s : YmScan) (neg : Bool) : Parsed Int :=
  if neg then i64 checks (-s.months) else .value s.months

/-- `YmDuration::parse`. -/
def YmDuration.parse (checks : Bool) (s : List Char) : Parsed YmDuration := do
  let (neg, body) := stripSign s
  let body ← .ofOption (stripP body)
  Parsed.require (!body.contains 'T' && !body.isEmpty)
  let s ← body.foldlM (YmScan.step checks) {}
  Parsed.require (s.num.isEmpty && s.saw)
  return { months := ← s.signed checks neg }

/-- `DtDuration::parse`. -/
def DtDuration.parse (s : List Char) : Option DtDuration := (parseDurationNanos s .feelDaytime).map fun nanos => { nanos }

/-- `parse_duration`. -/
def parseDuration (checks : Bool) (s : List Char) : Parsed Plain :=
  let dayTime := Parsed.ofOption ((DtDuration.parse s).map .dtDur)
  match YmDuration.parse checks s with
  | .value d => if s.contains 'Y' || (s.contains 'M' && !s.contains 'T' && !s.contains 'D') then .value (.ymDur d) else dayTime
  | .refused => dayTime
  | .panicked p => .panicked p

/-- `parse_temporal`. -/
def parseTemporal (checks : Bool) (s : List Char) : Parsed Plain :=
  if ['P'].isPrefixOf s || ['-', 'P'].isPrefixOf s || ['+', 'P'].isPrefixOf s then parseDuration checks s
  else if s.contains 'T' || s.contains 't' then do return .dateTime (← DateTime.parse checks s)
  else if s.contains ':' then do return .time (← Time.parse checks s)
  else do return .date (← .ofOption (Date.parse s))

end NanoBpm.FeelExpr
