import Mathlib.Data.List.TakeWhile
import NanoBpm.Lib.Decimal
import NanoBpm.Planner.Resolve

/-!
# Durations as text (`engine-core/src/temporal.rs`)

`parse_duration_nanos` scans the date part and the time part of an ISO 8601 duration, each with one loop over its characters
that adds a unit when it meets the letter of the unit. The loops ask neither for the order of the units, nor that a unit
appears once, nor for a unit after the `T`.
-/

namespace NanoBpm

/-! ## Numbers -/

def InI128 (n : Int) : Prop :=
  -170141183460469231731687303715884105728 ≤ n ∧ n ≤ 170141183460469231731687303715884105727

instance (n : Int) : Decidable (InI128 n) := inferInstanceAs (Decidable (_ ∧ _))

/-- A number in its type, or `None`. -/
def checkedI128 (n : Int) : Option Int := if InI128 n then some n else none

/-- `str::parse` of a signed integer type. -/
def parseInt (fits : Int → Bool) (s : List Char) : Option Int :=
  let value : Option Int :=
    match s with
    | '-' :: digits => (parseDecimal digits).map fun n : Nat => -(n : Int)
    | '+' :: digits => (parseDecimal digits).map fun n : Nat => (n : Int)
    | digits => (parseDecimal digits).map fun n : Nat => (n : Int)
  value.filter fits

def parseI128 : List Char → Option Int := parseInt fun n => InI128 n

/-- `split_once`. -/
def splitOnce (sep : Char) (s : List Char) : Option (List Char × List Char) :=
  match s.dropWhile (· != sep) with
  | [] => none
  | _ :: rest => some (s.takeWhile (· != sep), rest)

/-! ## The parser -/

structure DurationForm where
  allowSign : Bool
  allowWeeks : Bool
  allowFraction : Bool

/-- `BPMN_TIMER`. -/
def DurationForm.bpmnTimer : DurationForm := { allowSign := false, allowWeeks := true, allowFraction := false }

/-- `FEEL_DAYTIME`. -/
def DurationForm.feelDaytime : DurationForm := { allowSign := true, allowWeeks := false, allowFraction := true }

def nanosPerSecond : Int := 1000000000

/-- `strip_sign`. -/
def stripSign : List Char → Bool × List Char
  | '-' :: rest => (true, rest)
  | '+' :: rest => (false, rest)
  | s => (false, s)

/-- `add_unit`. -/
def addUnit (nanos : Int) (num : List Char) (factor : Int) : Option Int := do
  if num.isEmpty then none
  let value ← parseI128 num
  checkedI128 (nanos + (← checkedI128 (value * factor)))

/-- A digit after the point, or a zero. -/
def fracDigit (frac : List Char) (i : Nat) : Int :=
  match frac[i]? with
  | some c => (c.toNat - 48 : Nat)
  | none => 0

def intSecs (intStr : List Char) : Option Int := if intStr.isEmpty then some 0 else parseI128 intStr

/-- `parse_decimal_seconds_nanos`. -/
def parseDecimalSecondsNanos (num : List Char) : Option Int := do
  let (intStr, fracStr) := (splitOnce '.' num).getD (num, [])
  if fracStr.contains '.' || !intStr.all (·.isDigit) || !fracStr.all (·.isDigit) || (intStr.isEmpty && fracStr.isEmpty) then none
  let total ← checkedI128 ((← intSecs intStr) * nanosPerSecond)
  if fracStr.isEmpty then return total
  let nanosFrac := (List.range 9).foldl (fun acc i => acc * 10 + fracDigit fracStr i) 0
  -- the tenth digit rounds
  checkedI128 (total + (nanosFrac + if 5 ≤ fracDigit fracStr 9 then 1 else 0))

/-- `add_seconds`. -/
def addSeconds (nanos : Int) (num : List Char) (allowFraction : Bool) : Option Int := do
  if num.isEmpty then none
  if allowFraction then checkedI128 (nanos + (← parseDecimalSecondsNanos num))
  else
    let value ← parseI128 num
    checkedI128 (nanos + (← checkedI128 (value * nanosPerSecond)))

/-- What the loops of `parse_duration_nanos` keep. -/
structure Scan where
  nanos : Int := 0
  sawUnit : Bool := false
  num : List Char := []

def Scan.push (s : Scan) (c : Char) : Scan := { s with num := s.num ++ [c] }

/-- A unit has been added. -/
def Scan.unit (nanos : Int) : Scan := { nanos, sawUnit := true }

/-- A character of the date part. -/
def Scan.date (form : DurationForm) (s : Scan) (c : Char) : Option Scan :=
  if c.isDigit then some (s.push c)
  else if c = 'W' ∧ form.allowWeeks then (addUnit s.nanos s.num (7 * 86400 * nanosPerSecond)).map .unit
  else if c = 'D' then (addUnit s.nanos s.num (86400 * nanosPerSecond)).map .unit
  else none

/-- A character of the time part. -/
def Scan.time (form : DurationForm) (s : Scan) (c : Char) : Option Scan :=
  if c.isDigit ∨ c = '.' ∧ form.allowFraction then some (s.push c)
  else if c = 'H' then (addUnit s.nanos s.num (3600 * nanosPerSecond)).map .unit
  else if c = 'M' then (addUnit s.nanos s.num (60 * nanosPerSecond)).map .unit
  else if c = 'S' then (addSeconds s.nanos s.num form.allowFraction).map .unit
  else none

def stripP : List Char → Option (List Char)
  | 'P' :: body => some body
  | _ => none

/-- The two loops, and what is asked of their state after each. -/
def scanParts (form : DurationForm) (datePart timePart : List Char) : Option Int := do
  let s ← datePart.foldlM (Scan.date form) {}
  guard s.num.isEmpty
  let s ← timePart.foldlM (Scan.time form) s
  guard (s.num.isEmpty && s.sawUnit)
  return s.nanos

def parseDurationNanos (raw : List Char) (form : DurationForm) : Option Int := do
  let (neg, body) := if form.allowSign then stripSign raw else (false, raw)
  let body ← stripP body
  guard !body.isEmpty
  let (datePart, timePart) := (splitOnce 'T' body).getD (body, [])
  let nanos ← scanParts form datePart timePart
  return if neg then -nanos else nanos

/-- `str::trim`. -/
def trimmed (s : List Char) : List Char := ((s.dropWhile isWhiteSpace).reverse.dropWhile isWhiteSpace).reverse

/-- `u64::try_from`. -/
def tryU64 (n : Int) : Option Nat := if 0 ≤ n ∧ n < 18446744073709551616 then some n.toNat else none

def parseDurationMillis (raw : List Char) : Option Nat := do
  tryU64 ((← parseDurationNanos (trimmed raw) .bpmnTimer).tdiv 1000000)

def parseCycleMillis (raw : List Char) : Option Nat :=
  let s := trimmed raw
  match splitOnce '/' s with
  | some (rep, interval) => if rep.head? = some 'R' then parseDurationMillis interval else none
  | none => parseDurationMillis s

/-! ## Reading numbers -/

open Decimal (value rounded Number AllDigits)

variable {cs ds num raw : List Char} {n n' k : Int} {form : DurationForm}

theorem decimalDigit_eq (c : Char) : decimalDigit c = if c.isDigit then some (c.toNat - 48) else none := by
  unfold decimalDigit
  simp only [Char.isDigit, Bool.and_eq_true, decide_eq_true_eq]
  rfl

theorem parseDecimal_eq (ds : List Char) : parseDecimal ds = if Number ds then some (value ds) else none := by
  have hfold : ds.foldl (fun acc c => acc.bind fun n => (decimalDigit c).map (n * 10 + ·)) (some 0) =
      if AllDigits ds then some (value ds) else none := by
    induction ds using List.reverseRecOn with
    | nil => simp
    | append_singleton ds c ih =>
      rw [List.foldl_append, ih, List.foldl_cons, List.foldl_nil, decimalDigit_eq, Decimal.value_concat]
      by_cases hds : AllDigits ds <;> by_cases hc : c.isDigit <;> simp [hds, hc]
  unfold parseDecimal
  rw [hfold]
  by_cases hnil : ds = []
  · simp [hnil, Number]
  · simp [hnil, Number]

/-- A character of the numbers that the loops collect. -/
def isNumeral (c : Char) : Bool := c.isDigit || c == '.'

def AllNumerals (num : List Char) : Prop := ∀ c ∈ num, isNumeral c

theorem AllDigits.allNumerals (h : AllDigits num) : AllNumerals num := fun c hc => by simp [isNumeral, h c hc]

theorem parseI128_iff (hnum : AllNumerals num) : parseI128 num = some n ↔ Number num ∧ n = value num ∧ InI128 n := by
  have hdigits : parseI128 num = ((parseDecimal num).map fun n : Nat => (n : Int)).filter fun n => InI128 n := by
    unfold parseI128 parseInt
    split
    · exact absurd (hnum _ List.mem_cons_self) (by decide)
    · exact absurd (hnum _ List.mem_cons_self) (by decide)
    · rfl
  rw [hdigits, parseDecimal_eq]
  split
  · next hnumber =>
    rw [Option.map_some, Option.filter_eq_some_iff]
    simp only [Option.some.injEq, decide_eq_true_eq]
    constructor
    · rintro ⟨rfl, hin⟩
      exact ⟨hnumber, rfl, hin⟩
    · rintro ⟨-, rfl, hin⟩
      exact ⟨rfl, hin⟩
  · next hnumber => simp [hnumber]

def i128Max : Int := 170141183460469231731687303715884105727

theorem checkedI128_iff (hpos : 0 ≤ k) : checkedI128 k = some n ↔ n = k ∧ k ≤ i128Max := by
  have hin : InI128 k ↔ k ≤ i128Max := by
    unfold InI128 i128Max
    omega
  unfold checkedI128
  split
  · next h =>
    rw [Option.some.injEq]
    exact ⟨fun heq => ⟨heq.symm, hin.mp h⟩, fun heq => heq.1.symm⟩
  · next h => exact ⟨nofun, fun heq => absurd (hin.mpr heq.2) h⟩

theorem addUnit_iff (hnum : AllNumerals num) (hn : 0 ≤ n) (hk : 0 < k) :
    addUnit n num k = some n' ↔ Number num ∧ n' = n + value num * k ∧ n' ≤ i128Max := by
  unfold addUnit
  have hprod : 0 ≤ (value num : Int) * k := Int.mul_nonneg (by omega) hk.le
  constructor
  · intro h
    by_cases hempty : num.isEmpty
    · simp [hempty] at h
    · simp only [hempty, Option.bind_eq_bind, Bool.false_eq_true, if_false, Option.bind_eq_some_iff] at h
      obtain ⟨v, hv, p, hp, hsum⟩ := h
      obtain ⟨hnumber, rfl, -⟩ := (parseI128_iff hnum).mp hv
      obtain ⟨rfl, -⟩ := (checkedI128_iff hprod).mp hp
      obtain ⟨rfl, hle⟩ := (checkedI128_iff (by omega)).mp hsum
      exact ⟨hnumber, rfl, hle⟩
  · rintro ⟨hnumber, rfl, hle⟩
    have hvalue : (value num : Int) ≤ value num * k := by
      have := Int.mul_le_mul_of_nonneg_left (show (1 : Int) ≤ k by omega) (show (0 : Int) ≤ value num by omega)
      omega
    have hin : InI128 (value num) := by
      unfold i128Max at hle
      unfold InI128
      omega
    have hempty : num.isEmpty = false := List.isEmpty_eq_false_iff.mpr hnumber.1
    simp only [hempty, Option.bind_eq_bind, Bool.false_eq_true, if_false, (parseI128_iff hnum).mpr ⟨hnumber, rfl, hin⟩,
      Option.bind_some, (checkedI128_iff hprod).mpr ⟨rfl, by omega⟩]
    exact (checkedI128_iff (by omega)).mpr ⟨rfl, hle⟩

/-! ## Seconds -/

theorem splitOnce_eq_some {sep : Char} {s a b : List Char} : splitOnce sep s = some (a, b) ↔ s = a ++ sep :: b ∧ sep ∉ a := by
  unfold splitOnce
  constructor
  · intro h
    split at h
    · cases h
    · next c rest hdrop =>
      obtain ⟨rfl, rfl⟩ := Prod.mk.inj (Option.some.inj h)
      have hc : c = sep := by
        have := List.head?_dropWhile_not (· != sep) s
        rw [hdrop] at this
        simpa using this
      refine ⟨?_, fun hmem => ?_⟩
      · rw [← hc, ← hdrop, hc, List.takeWhile_append_dropWhile]
      · exact absurd (List.mem_takeWhile_imp hmem) (by simp)
  · rintro ⟨rfl, ha⟩
    have hall : ∀ c ∈ a, (c != sep) = true := fun c hc => bne_iff_ne.mpr fun heq => ha (heq ▸ hc)
    rw [List.dropWhile_append_of_pos hall, List.takeWhile_append_of_pos hall]
    simp

theorem splitOnce_eq_none {sep : Char} {s : List Char} : splitOnce sep s = none ↔ sep ∉ s := by
  constructor
  · intro h hmem
    obtain ⟨a, b, rfl, ha⟩ := List.eq_append_cons_of_mem hmem
    rw [splitOnce_eq_some.mpr ⟨rfl, ha⟩] at h
    cases h
  · intro h
    cases hsplit : splitOnce sep s with
    | none => rfl
    | some p => exact absurd ((splitOnce_eq_some.mp hsplit).1 ▸ List.mem_append_right _ List.mem_cons_self) h

/-- Digits with a point in them, where a fraction is allowed. -/
def SecondsText (allowFraction : Bool) (num : List Char) : Prop :=
  Number num ∨ allowFraction ∧ ∃ i f, num = i ++ '.' :: f ∧ AllDigits i ∧ AllDigits f ∧ (i ≠ [] ∨ f ≠ [])

/-- The nanoseconds of such a number, rounded half up. -/
def secondsNanos (num : List Char) : Nat :=
  match splitOnce '.' num with
  | some (i, f) => value i * 1000000000 + rounded 9 f
  | none => value num * 1000000000

theorem AllDigits.not_point (h : AllDigits num) : '.' ∉ num := fun hmem => absurd (h _ hmem) (by decide)

theorem AllDigits.all_isDigit : num.all (·.isDigit) = true ↔ AllDigits num := List.all_eq_true

/-- The whole seconds, none where there is no digit before the point. -/
theorem intSecs_iff (hi : AllDigits num) : intSecs num = some n ↔ n = value num ∧ InI128 n := by
  unfold intSecs
  by_cases hnil : num = []
  · subst hnil
    simp only [List.isEmpty_nil, if_true, Option.some.injEq, Decimal.value_nil]
    constructor
    · rintro rfl
      exact ⟨rfl, by decide⟩
    · rintro ⟨rfl, -⟩
      rfl
  · rw [if_neg (by simpa using hnil), parseI128_iff (AllDigits.allNumerals hi)]
    exact and_iff_right ⟨hnil, hi⟩

theorem nanosFrac_eq (f : List Char) (k : Nat) :
    (List.range k).foldl (fun acc i => acc * 10 + fracDigit f i) 0 = Decimal.places k f := by
  induction k with
  | zero => simp [Decimal.places]
  | succ k ih =>
    rw [List.range_succ, List.foldl_append, ih, List.foldl_cons, List.foldl_nil, Decimal.places_succ, fracDigit]
    cases f[k]? <;> simp

theorem nanosFrac_rounded {f : List Char} (hf : AllDigits f) :
    (List.range 9).foldl (fun acc i => acc * 10 + fracDigit f i) 0 + (if 5 ≤ fracDigit f 9 then 1 else 0) =
      rounded 9 f := by
  rw [nanosFrac_eq, Decimal.rounded_eq hf, fracDigit]
  cases f[9]? with
  | none => simp
  | some c =>
    by_cases hfive : 5 ≤ c.toNat - 48
    · simp only [hfive, Nat.cast_add, if_true, Nat.cast_one]
      rw [if_pos (by omega)]
    · simp only [hfive, Nat.cast_add, if_false, Nat.cast_zero]
      rw [if_neg (by omega)]

theorem parseDecimalSecondsNanos_iff :
    parseDecimalSecondsNanos num = some n ↔ SecondsText true num ∧ n = secondsNanos num ∧ n ≤ i128Max := by
  obtain ⟨i, f, hparts⟩ : ∃ i f, (splitOnce '.' num).getD (num, []) = (i, f) := ⟨_, _, rfl⟩
  have htext : SecondsText true num ↔ AllDigits i ∧ AllDigits f ∧ (i ≠ [] ∨ f ≠ []) := by
    cases hsplit : splitOnce '.' num with
    | none =>
      rw [hsplit, Option.getD_none, Prod.mk.injEq] at hparts
      obtain ⟨rfl, rfl⟩ := hparts
      have hpoint := splitOnce_eq_none.mp hsplit
      constructor
      · rintro (⟨hnil, hdigits⟩ | ⟨-, i, f, rfl, -⟩)
        · exact ⟨hdigits, Decimal.allDigits_nil, .inl hnil⟩
        · exact absurd (List.mem_append_right _ List.mem_cons_self) hpoint
      · rintro ⟨hdigits, -, hnil⟩
        exact .inl ⟨hnil.resolve_right (· rfl), hdigits⟩
    | some p =>
      rw [hsplit, Option.getD_some] at hparts
      rw [hparts] at hsplit
      obtain ⟨rfl, hi⟩ := splitOnce_eq_some.mp hsplit
      constructor
      · rintro (⟨-, hdigits⟩ | ⟨-, i', f', heq, hi', hf', hne⟩)
        · exact absurd (List.mem_append_right _ List.mem_cons_self) (AllDigits.not_point hdigits)
        · rw [splitOnce_eq_some.mpr ⟨heq, AllDigits.not_point hi'⟩] at hsplit
          obtain ⟨rfl, rfl⟩ := Prod.mk.inj (Option.some.inj hsplit)
          exact ⟨hi', hf', hne⟩
      · rintro ⟨hi', hf, hne⟩
        exact .inr ⟨rfl, i, f, rfl, hi', hf, hne⟩
  have hseconds : (secondsNanos num : Int) = value i * nanosPerSecond + rounded 9 f := by
    unfold secondsNanos nanosPerSecond
    cases hsplit : splitOnce '.' num with
    | none =>
      rw [hsplit, Option.getD_none, Prod.mk.injEq] at hparts
      obtain ⟨rfl, rfl⟩ := hparts
      simp
    | some p =>
      rw [hsplit, Option.getD_some] at hparts
      rw [hparts]
      simp
  have hgood : (f.contains '.' || !i.all (·.isDigit) || !f.all (·.isDigit) || (i.isEmpty && f.isEmpty)) = false ↔
      AllDigits i ∧ AllDigits f ∧ (i ≠ [] ∨ f ≠ []) := by
    simp only [Bool.or_eq_false_iff, Bool.not_eq_false', AllDigits.all_isDigit, Bool.and_eq_false_iff, List.isEmpty_eq_false_iff,
      and_assoc]
    refine and_iff_right_of_imp fun ⟨_, hf, _⟩ => ?_
    simpa using AllDigits.not_point hf
  rw [htext, hseconds, ← hgood]
  unfold parseDecimalSecondsNanos
  rw [hparts]
  cases hbad : (f.contains '.' || !i.all (·.isDigit) || !f.all (·.isDigit) || (i.isEmpty && f.isEmpty)) with
  | true => simp only [hbad, if_true, Option.bind_eq_bind, Option.bind_none, reduceCtorEq, Bool.true_eq_false, false_and]
  | false =>
    obtain ⟨hi, hf, -⟩ := hgood.mp hbad
    have hwhole : (0 : Int) ≤ value i * nanosPerSecond := Int.mul_nonneg (by omega) (by decide)
    simp only [hbad, Bool.false_eq_true, if_false, Option.bind_eq_bind, Option.pure_def]
    constructor
    · intro h
      obtain ⟨v, hv, h⟩ := Option.bind_eq_some_iff.mp h
      obtain ⟨rfl, -⟩ := (intSecs_iff hi).mp hv
      obtain ⟨t, ht, h⟩ := Option.bind_eq_some_iff.mp h
      obtain ⟨rfl, hle⟩ := (checkedI128_iff hwhole).mp ht
      split at h
      · next hempty =>
        obtain rfl := Option.some.inj h
        rw [List.isEmpty_iff.mp hempty, Decimal.rounded_nil]
        exact ⟨trivial, (Int.add_zero _).symm, by omega⟩
      · rw [nanosFrac_rounded hf] at h
        obtain ⟨rfl, hsum⟩ := (checkedI128_iff (by omega)).mp h
        exact ⟨trivial, rfl, hsum⟩
    · rintro ⟨-, rfl, hle⟩
      have hin : InI128 (value i) := by
        unfold i128Max nanosPerSecond at hle
        unfold InI128
        omega
      rw [(intSecs_iff hi).mpr ⟨rfl, hin⟩, Option.bind_some, (checkedI128_iff hwhole).mpr ⟨rfl, by omega⟩, Option.bind_some]
      split
      · next hempty =>
        rw [List.isEmpty_iff.mp hempty, Decimal.rounded_nil]
        exact congrArg some (Int.add_zero _).symm
      · rw [nanosFrac_rounded hf]
        exact (checkedI128_iff (by omega)).mpr ⟨rfl, hle⟩

theorem addSeconds_iff {allowFraction : Bool} (hnum : AllNumerals num) (hn : 0 ≤ n) :
    addSeconds n num allowFraction = some n' ↔
      SecondsText allowFraction num ∧ n' = n + secondsNanos num ∧ n' ≤ i128Max := by
  have hne : SecondsText allowFraction num → num.isEmpty = false := by
    rintro (⟨hnil, -⟩ | ⟨-, i, f, rfl, -⟩)
    · exact List.isEmpty_eq_false_iff.mpr hnil
    · simp
  unfold addSeconds
  cases hempty : num.isEmpty with
  | true =>
    simp only [if_true, Option.bind_eq_bind, Option.bind_none, reduceCtorEq, false_iff]
    rintro ⟨htext, -⟩
    rw [hne htext] at hempty
    cases hempty
  | false =>
    cases allowFraction with
    | true =>
      simp only [Bool.false_eq_true, if_false, Option.bind_eq_bind, if_true]
      constructor
      · intro h
        obtain ⟨k, hk, h⟩ := Option.bind_eq_some_iff.mp h
        obtain ⟨htext, rfl, -⟩ := parseDecimalSecondsNanos_iff.mp hk
        obtain ⟨rfl, hle⟩ := (checkedI128_iff (by omega)).mp h
        exact ⟨htext, rfl, hle⟩
      · rintro ⟨htext, rfl, hle⟩
        rw [parseDecimalSecondsNanos_iff.mpr ⟨htext, rfl, by omega⟩]
        exact (checkedI128_iff (by omega)).mpr ⟨rfl, hle⟩
    | false =>
      have hdigits : SecondsText false num ↔ Number num := by simp [SecondsText]
      have hvalue : Number num → (secondsNanos num : Int) = value num * nanosPerSecond := by
        rintro ⟨-, hall⟩
        rw [secondsNanos, splitOnce_eq_none.mpr (AllDigits.not_point hall)]
        rfl
      have hunit : addUnit n num nanosPerSecond = some n' ↔ _ := addUnit_iff hnum hn (by decide)
      unfold addUnit at hunit
      simp only [hempty, Bool.false_eq_true, if_false, Option.bind_eq_bind] at hunit ⊢
      rw [hunit, hdigits]
      refine and_congr_right fun hnumber => ?_
      rw [hvalue hnumber]

/-! ## What the loops read -/

/-- A number and the letter of its unit. -/
structure DurationField where
  num : List Char
  letter : Char

namespace DurationField

def text (f : DurationField) : List Char := f.num ++ [f.letter]

def unitNanos (letter : Char) : Nat :=
  if letter = 'W' then 7 * 86400 * 1000000000
  else if letter = 'D' then 86400 * 1000000000
  else if letter = 'H' then 3600 * 1000000000
  else 60 * 1000000000

def nanos (f : DurationField) : Nat := if f.letter = 'S' then secondsNanos f.num else value f.num * unitNanos f.letter

def texts (fs : List DurationField) : List Char := fs.flatMap text

def total (fs : List DurationField) : Nat := (fs.map nanos).sum

/-- A field of the date part. -/
def Date (form : DurationForm) (f : DurationField) : Prop :=
  Number f.num ∧ (f.letter = 'W' ∧ form.allowWeeks ∨ f.letter = 'D')

/-- A field of the time part. -/
def Time (form : DurationForm) (f : DurationField) : Prop :=
  Number f.num ∧ (f.letter = 'H' ∨ f.letter = 'M') ∨ SecondsText form.allowFraction f.num ∧ f.letter = 'S'

end DurationField

open DurationField (texts total)

/-- A loop that collects a number up to a letter and adds the field. -/
structure ReadsFields (step : Scan → Char → Option Scan) (digit : Char → Bool) (valid : DurationField → Prop) : Prop where
  letter : ∀ f, valid f → digit f.letter = false
  num : ∀ f, valid f → ∀ c ∈ f.num, digit c
  step_iff : ∀ {s : Scan} {s'} (c : Char), (∀ d ∈ s.num, digit d) → 0 ≤ s.nanos →
    (step s c = some s' ↔ digit c ∧ s' = s.push c ∨
      valid ⟨s.num, c⟩ ∧ s' = .unit (s.nanos + DurationField.nanos ⟨s.num, c⟩) ∧ s'.nanos ≤ i128Max)

/-- A number ends at the first character that is not of it. -/
theorem cut_inj {p : Char → Bool} {xs xs' ys ys' : List Char} {a b : Char} (hxs : ∀ c ∈ xs, p c) (hxs' : ∀ c ∈ xs', p c)
    (ha : p a = false) (hb : p b = false) (h : xs ++ a :: ys = xs' ++ b :: ys') : xs = xs' ∧ a = b ∧ ys = ys' := by
  induction xs generalizing xs' with
  | nil =>
    cases xs' with
    | nil => exact ⟨rfl, List.cons.inj h⟩
    | cons x xs' =>
      obtain ⟨rfl, -⟩ := List.cons.inj h
      rw [hxs' a List.mem_cons_self] at ha
      cases ha
  | cons x xs ih =>
    cases xs' with
    | nil =>
      obtain ⟨rfl, -⟩ := List.cons.inj h
      rw [hxs x List.mem_cons_self] at hb
      cases hb
    | cons x' xs' =>
      obtain ⟨rfl, htail⟩ := List.cons.inj h
      obtain ⟨rfl, rest⟩ :=
        ih (fun c hc => hxs c (List.mem_cons_of_mem _ hc)) (fun c hc => hxs' c (List.mem_cons_of_mem _ hc)) htail
      exact ⟨rfl, rest⟩

theorem Scan.push_digits {digit : Char → Bool} {s : Scan} {c : Char} (hnum : ∀ d ∈ s.num, digit d) (hc : digit c) :
    ∀ d ∈ (s.push c).num, digit d :=
  List.forall_mem_append.mpr ⟨hnum, List.forall_mem_singleton.mpr hc⟩

theorem ReadsFields.foldlM_iff {step : Scan → Char → Option Scan} {digit : Char → Bool} {valid : DurationField → Prop}
    (h : ReadsFields step digit valid) {s s' : Scan} (hnum : ∀ c ∈ s.num, digit c) (hpos : 0 ≤ s.nanos) :
    cs.foldlM step s = some s' ↔ ∃ fs tail, s.num ++ cs = texts fs ++ tail ∧ (∀ f ∈ fs, valid f) ∧ (∀ c ∈ tail, digit c) ∧
      s' = ⟨s.nanos + total fs, s.sawUnit || !fs.isEmpty, tail⟩ ∧ (fs ≠ [] → s.nanos + total fs ≤ i128Max) := by
  induction cs generalizing s with
  | nil =>
    constructor
    · intro hs
      obtain rfl := Option.some.inj hs
      exact ⟨[], s.num, by simp [texts], by simp, hnum, by simp [total], by simp⟩
    · rintro ⟨fs, tail, htext, hfs, -, rfl, -⟩
      cases fs with
      | nil =>
        have htail : s.num = tail := (List.append_nil _).symm.trans htext
        simp [← htail, total]
      | cons f fs =>
        have hmem : f.letter ∈ s.num := by
          rw [← List.append_nil s.num, htext]
          simp [texts, DurationField.text]
        have := h.letter f (hfs f List.mem_cons_self)
        rw [hnum _ hmem] at this
        cases this
  | cons c cs ih =>
    rw [List.foldlM_cons]
    constructor
    · intro hs
      obtain ⟨t, ht, hs⟩ := Option.bind_eq_some_iff.mp hs
      rcases (h.step_iff c hnum hpos).mp ht with ⟨hc, rfl⟩ | ⟨hvalid, rfl, hle⟩
      · obtain ⟨fs, tail, htext, hfs⟩ := (ih (s := s.push c) (Scan.push_digits hnum hc) hpos).mp hs
        exact ⟨fs, tail, by rw [← htext]; simp [Scan.push], hfs⟩
      · obtain ⟨fs, tail, htext, hfs, htail, rfl, hsum⟩ := (ih (by simp [Scan.unit]) (by simp [Scan.unit]; omega)).mp hs
        refine ⟨⟨s.num, c⟩ :: fs, tail, ?_, List.forall_mem_cons.mpr ⟨hvalid, hfs⟩, htail, ?_, fun _ => ?_⟩
        · have hcs : cs = texts fs ++ tail := htext
          simp [hcs, texts, DurationField.text]
        · simp [Scan.unit, total, Int.add_assoc]
        · cases fs with
          | nil => simpa [total, Scan.unit] using hle
          | cons f fs => simpa [Scan.unit, total, Int.add_assoc] using hsum (by simp)
    · rintro ⟨fs, tail, htext, hfs, htail, rfl, hsum⟩
      cases hc : digit c with
      | true =>
        refine Option.bind_eq_some_iff.mpr ⟨_, (h.step_iff c hnum hpos).mpr (.inl ⟨hc, rfl⟩), ?_⟩
        exact (ih (s := s.push c) (Scan.push_digits hnum hc) hpos).mpr
          ⟨fs, tail, by rw [← htext]; simp [Scan.push], hfs, htail, rfl, hsum⟩
      | false =>
        cases fs with
        | nil =>
          have hmem : c ∈ tail := by
            have : c ∈ s.num ++ c :: cs := List.mem_append_right _ List.mem_cons_self
            rw [htext] at this
            exact this
          rw [htail c hmem] at hc
          cases hc
        | cons f fs =>
          obtain ⟨hvalid, hfs⟩ := List.forall_mem_cons.mp hfs
          obtain ⟨rest, rfl, hcs⟩ := cut_inj hnum (h.num f hvalid) hc (h.letter f hvalid)
            (show s.num ++ c :: cs = f.num ++ f.letter :: (texts fs ++ tail) by
              rw [htext]
              simp [texts, DurationField.text])
          have hsum := hsum (by simp)
          have hfield : (⟨s.num, f.letter⟩ : DurationField) = f := by rw [rest]
          have hle : s.nanos + f.nanos ≤ i128Max := by
            simp only [total, List.map_cons, List.sum_cons] at hsum
            omega
          refine Option.bind_eq_some_iff.mpr ⟨.unit (s.nanos + f.nanos), (h.step_iff _ hnum hpos).mpr (.inr ?_), ?_⟩
          · rw [hfield]
            exact ⟨hvalid, rfl, hle⟩
          · refine (ih (by simp [Scan.unit]) (by simp [Scan.unit]; omega)).mpr ⟨fs, tail, hcs, hfs, htail, ?_, fun _ => ?_⟩
            · simp [Scan.unit, total, Int.add_assoc]
            · simpa [Scan.unit, total, Int.add_assoc] using hsum

theorem unit_eq_iff {o : Option Int} {s' : Scan} : o.map Scan.unit = some s' ↔ ∃ n, o = some n ∧ s' = .unit n := by
  rw [Option.map_eq_some_iff]
  simp only [eq_comm]

theorem addUnit_map_iff {k : Nat} {s' : Scan} (hnum : AllNumerals num) (hn : 0 ≤ n) (hk : 0 < k) :
    (addUnit n num k).map .unit = some s' ↔
      Number num ∧ s' = .unit (n + (value num * k : Nat)) ∧ s'.nanos ≤ i128Max := by
  rw [unit_eq_iff]
  constructor
  · rintro ⟨v, hv, rfl⟩
    obtain ⟨hnumber, rfl, hle⟩ := (addUnit_iff hnum hn (by omega)).mp hv
    exact ⟨hnumber, by rw [Nat.cast_mul], hle⟩
  · rintro ⟨hnumber, rfl, hle⟩
    exact ⟨n + (value num * k : Nat), (addUnit_iff hnum hn (by omega)).mpr ⟨hnumber, by rw [Nat.cast_mul], hle⟩, rfl⟩

theorem reads_date (form : DurationForm) : ReadsFields (Scan.date form) Char.isDigit (DurationField.Date form) := by
  refine ⟨?_, fun f hf => hf.1.2, ?_⟩
  · rintro f ⟨-, ⟨hw, -⟩ | hd⟩
    · rw [hw]
      rfl
    · rw [hd]
      rfl
  · intro s s' c hnum hpos
    have hnumerals : AllNumerals s.num := AllDigits.allNumerals hnum
    unfold Scan.date
    by_cases hc : c.isDigit = true
    · have hfield : ¬ DurationField.Date form ⟨s.num, c⟩ := by
        rintro ⟨-, ⟨rfl, -⟩ | rfl⟩ <;> cases hc
      simp only [hc, if_true, Option.some.injEq, true_and, hfield, false_and, or_false]
      exact eq_comm
    · rw [if_neg hc]
      by_cases hw : c = 'W' ∧ form.allowWeeks
      · obtain ⟨rfl, hallow⟩ := hw
        rw [if_pos ⟨rfl, hallow⟩]
        refine (addUnit_map_iff hnumerals hpos (k := 7 * 86400 * 1000000000) (by decide)).trans ?_
        simp [DurationField.Date, hallow, DurationField.nanos, DurationField.unitNanos]
      · rw [if_neg hw]
        by_cases hd : c = 'D'
        · subst hd
          rw [if_pos rfl]
          refine (addUnit_map_iff hnumerals hpos (k := 86400 * 1000000000) (by decide)).trans ?_
          simp [DurationField.Date, DurationField.nanos, DurationField.unitNanos]
        · rw [if_neg hd]
          simp [hc, hd, DurationField.Date, hw]

def timeDigit (form : DurationForm) (c : Char) : Bool := c.isDigit || (c == '.' && form.allowFraction)

theorem SecondsText.digits (h : SecondsText form.allowFraction num) : ∀ c ∈ num, timeDigit form c := by
  rcases h with ⟨-, hall⟩ | ⟨hallow, i, f, rfl, hi, hf, -⟩
  · exact fun c hc => by simp [timeDigit, hall c hc]
  · refine List.forall_mem_append.mpr ⟨fun c hc => by simp [timeDigit, hi c hc], List.forall_mem_cons.mpr ⟨?_, ?_⟩⟩
    · simp [timeDigit, hallow]
    · exact fun c hc => by simp [timeDigit, hf c hc]

theorem reads_time (form : DurationForm) : ReadsFields (Scan.time form) (timeDigit form) (DurationField.Time form) := by
  refine ⟨?_, ?_, ?_⟩
  · rintro f (⟨-, hl | hl⟩ | ⟨-, hl⟩) <;> rw [hl] <;> rfl
  · rintro f (⟨hnumber, -⟩ | ⟨hseconds, -⟩)
    · exact fun c hc => by simp [timeDigit, hnumber.2 c hc]
    · exact hseconds.digits
  · intro s s' c hnum hpos
    have hnumerals : AllNumerals s.num := by
      intro c hc
      have := hnum c hc
      simp only [timeDigit, Bool.or_eq_true, Bool.and_eq_true] at this
      simp only [isNumeral, Bool.or_eq_true]
      exact this.imp_right And.left
    have hdigit : (c.isDigit = true ∨ c = '.' ∧ form.allowFraction = true) ↔ timeDigit form c = true := by
      simp [timeDigit]
    unfold Scan.time
    rw [if_congr hdigit rfl rfl]
    by_cases hc : timeDigit form c = true
    · have hfield : ¬ DurationField.Time form ⟨s.num, c⟩ := by
        rintro (⟨-, rfl | rfl⟩ | ⟨-, rfl⟩) <;> cases hc
      simp only [hc, if_true, Option.some.injEq, true_and, hfield, false_and, or_false]
      exact eq_comm
    · rw [if_neg hc]
      by_cases hh : c = 'H'
      · subst hh
        rw [if_pos rfl]
        refine (addUnit_map_iff hnumerals hpos (k := 3600 * 1000000000) (by decide)).trans ?_
        simp [hc, DurationField.Time, DurationField.nanos, DurationField.unitNanos]
      · rw [if_neg hh]
        by_cases hm : c = 'M'
        · subst hm
          rw [if_pos rfl]
          refine (addUnit_map_iff hnumerals hpos (k := 60 * 1000000000) (by decide)).trans ?_
          simp [hc, DurationField.Time, DurationField.nanos, DurationField.unitNanos]
        · rw [if_neg hm]
          by_cases hs : c = 'S'
          · subst hs
            rw [if_pos rfl, unit_eq_iff]
            have hseconds : DurationField.Time form ⟨s.num, 'S'⟩ ↔ SecondsText form.allowFraction s.num := by
              simp [DurationField.Time]
            have hnanos : DurationField.nanos ⟨s.num, 'S'⟩ = secondsNanos s.num := by
              simp [DurationField.nanos]
            rw [hseconds, hnanos, or_iff_right fun h => hc h.1]
            constructor
            · rintro ⟨v, hv, rfl⟩
              obtain ⟨htext, rfl, hle⟩ := (addSeconds_iff hnumerals hpos).mp hv
              exact ⟨htext, rfl, hle⟩
            · rintro ⟨htext, rfl, hle⟩
              exact ⟨_, (addSeconds_iff hnumerals hpos).mpr ⟨htext, rfl, hle⟩, rfl⟩
          · rw [if_neg hs]
            simp [hc, hh, hm, hs, DurationField.Time]

end NanoBpm
