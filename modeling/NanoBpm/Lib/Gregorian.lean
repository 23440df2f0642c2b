import Mathlib.Algebra.Order.Ring.Nat
import Mathlib.Data.Int.ConditionallyCompleteOrder
import Mathlib.Order.Interval.Set.OrdConnected
import Mathlib.Order.SuccPred.IntervalSucc
import Mathlib.Tactic.IntervalCases

/-!
# The proleptic Gregorian calendar

Days are numbered from 1 January of year 1, which is day 1 and a Monday. A date is a year, a month and a day of the
month; every day has one date (`number_lt_iff`), the next day has the next date (`number_next`), and the weeks are those
of the ISO calendar: week 1 of a year is the one with 4 January in it.
-/

namespace Gregorian

def Leap (y : Int) : Prop := (y % 4 = 0 ∧ y % 100 ≠ 0) ∨ y % 400 = 0

instance (y : Int) : Decidable (Leap y) := inferInstanceAs (Decidable (_ ∨ _))

def yearLength (y : Int) : Nat := if Leap y then 366 else 365

def monthLength (y : Int) : Nat → Nat
  | 2 => if Leap y then 29 else 28
  | 4 | 6 | 9 | 11 => 30
  | _ => 31

/-- The days of the years from 1 on that are before `y`; negative before year 1. -/
def daysBeforeYear (y : Int) : Int := 365 * (y - 1) + (y - 1) / 4 - (y - 1) / 100 + (y - 1) / 400

def daysBeforeMonth (y : Int) : Nat → Nat
  | 0 | 1 => 0
  | m + 1 => daysBeforeMonth y m + monthLength y m

structure IsDate (y : Int) (m d : Nat) : Prop where
  month_pos : 1 ≤ m
  month_le : m ≤ 12
  day_pos : 1 ≤ d
  day_le : d ≤ monthLength y m

/-- The day of the year. -/
def ordinal (y : Int) (m d : Nat) : Nat := daysBeforeMonth y m + d

def number (y : Int) (m d : Nat) : Int := daysBeforeYear y + ordinal y m d

/-- The next date. -/
def next (y : Int) (m d : Nat) : Int × Nat × Nat :=
  if d < monthLength y m then (y, m, d + 1) else if m < 12 then (y, m + 1, 1) else (y + 1, 1, 1)

/-- Monday is 1. -/
def weekday (n : Int) : Nat := ((n - 1) % 7).toNat + 1

/-- The Monday of the week that 4 January is in. -/
def weekOne (y : Int) : Int := daysBeforeYear y + 4 - (daysBeforeYear y + 3) % 7

/-! ## Years and months -/

theorem daysBeforeYear_succ (y : Int) : daysBeforeYear (y + 1) = daysBeforeYear y + yearLength y := by
  by_cases hy : Leap y
  · rw [yearLength, if_pos hy]
    unfold Leap at hy
    unfold daysBeforeYear
    omega
  · rw [yearLength, if_neg hy]
    unfold Leap at hy
    unfold daysBeforeYear
    omega

theorem daysBeforeYear_mono : Monotone daysBeforeYear :=
  monotone_int_of_le_succ fun y => by rw [daysBeforeYear_succ]; omega

theorem daysBeforeMonth_succ {y : Int} {m : Nat} (hm : 1 ≤ m) :
    daysBeforeMonth y (m + 1) = daysBeforeMonth y m + monthLength y m := by
  obtain ⟨k, rfl⟩ := Nat.exists_eq_add_of_le' hm
  rfl

theorem daysBeforeMonth_mono {y : Int} {m m' : Nat} (h : m ≤ m') : daysBeforeMonth y m ≤ daysBeforeMonth y m' := by
  induction h with
  | refl => exact le_rfl
  | @step k _ ih =>
    rcases Nat.eq_zero_or_pos k with rfl | hk
    · exact ih
    · rw [daysBeforeMonth_succ hk]
      omega

theorem daysBeforeMonth_last (y : Int) : daysBeforeMonth y 13 = yearLength y := by
  by_cases hy : Leap y <;> simp [daysBeforeMonth, monthLength, yearLength, hy]

theorem monthLength_pos (y : Int) (m : Nat) : 1 ≤ monthLength y m := by
  unfold monthLength
  split
  · split <;> omega
  all_goals omega

/-! ## Dates in their order -/

section Dates

variable {y y' : Int} {m m' d d' : Nat}

theorem IsDate.ordinal_pos (h : IsDate y m d) : 1 ≤ ordinal y m d := Nat.le_add_left_of_le h.day_pos

theorem IsDate.ordinal_le_month (h : IsDate y m d) : ordinal y m d ≤ daysBeforeMonth y (m + 1) := by
  rw [daysBeforeMonth_succ h.month_pos]
  exact Nat.add_le_add_left h.day_le _

theorem IsDate.ordinal_le (h : IsDate y m d) : ordinal y m d ≤ yearLength y := by
  rw [← daysBeforeMonth_last]
  exact h.ordinal_le_month.trans (daysBeforeMonth_mono (Nat.succ_le_succ h.month_le))

theorem IsDate.lt_number (h : IsDate y m d) : daysBeforeYear y < number y m d := by
  have := h.ordinal_pos
  unfold number
  omega

theorem IsDate.number_le (h : IsDate y m d) : number y m d ≤ daysBeforeYear (y + 1) := by
  have := h.ordinal_le
  rw [daysBeforeYear_succ]
  unfold number
  omega

theorem isDate_next (h : IsDate y m d) : IsDate (next y m d).1 (next y m d).2.1 (next y m d).2.2 := by
  unfold next
  by_cases hd : d < monthLength y m
  · rw [if_pos hd]
    exact ⟨h.month_pos, h.month_le, Nat.succ_pos d, hd⟩
  · rw [if_neg hd]
    by_cases hm : m < 12
    · rw [if_pos hm]
      exact ⟨Nat.succ_pos m, hm, le_rfl, monthLength_pos _ _⟩
    · rw [if_neg hm]
      exact ⟨le_rfl, by simp, le_rfl, monthLength_pos _ _⟩

theorem number_next (h : IsDate y m d) :
    number (next y m d).1 (next y m d).2.1 (next y m d).2.2 = number y m d + 1 := by
  have hday := h.day_le
  unfold next number ordinal
  split
  · dsimp only
    omega
  · have hd : d = monthLength y m := by omega
    split
    · dsimp only
      rw [daysBeforeMonth_succ h.month_pos]
      omega
    · have hm : m = 12 := by have := h.month_le; omega
      have hlast := daysBeforeMonth_last y
      rw [daysBeforeMonth_succ (by decide), ← hm] at hlast
      dsimp only
      rw [daysBeforeYear_succ]
      simp only [daysBeforeMonth]
      omega

/-- Dates are in the order of their fields. -/
theorem number_lt_of_lex (h : IsDate y m d) (h' : IsDate y' m' d')
    (hlex : y < y' ∨ y = y' ∧ (m < m' ∨ m = m' ∧ d < d')) : number y m d < number y' m' d' := by
  rcases hlex with hy | ⟨rfl, hm | ⟨rfl, hd⟩⟩
  · calc number y m d ≤ daysBeforeYear (y + 1) := h.number_le
      _ ≤ daysBeforeYear y' := daysBeforeYear_mono hy
      _ < number y' m' d' := h'.lt_number
  · have hle : ordinal y m d ≤ daysBeforeMonth y m' := h.ordinal_le_month.trans (daysBeforeMonth_mono hm)
    have hpos := h'.day_pos
    unfold number
    unfold ordinal at hle ⊢
    omega
  · unfold number ordinal
    omega

theorem number_lt_iff (h : IsDate y m d) (h' : IsDate y' m' d') :
    number y m d < number y' m' d' ↔ y < y' ∨ y = y' ∧ (m < m' ∨ m = m' ∧ d < d') := by
  refine ⟨fun hlt => ?_, number_lt_of_lex h h'⟩
  by_contra hlex
  rcases eq_or_ne (y, m, d) (y', m', d') with heq | hne
  · cases heq
    exact lt_irrefl _ hlt
  · have hne' : ¬(y = y' ∧ m = m' ∧ d = d') := by simpa using hne
    have := number_lt_of_lex h' h (by omega)
    omega

theorem number_inj (h : IsDate y m d) (h' : IsDate y' m' d') (heq : number y m d = number y' m' d') :
    y = y' ∧ m = m' ∧ d = d' := by
  have hlt := mt (number_lt_of_lex h h')
  have hgt := mt (number_lt_of_lex h' h)
  have := hlt (by omega)
  have := hgt (by omega)
  omega

end Dates

/-! ## Weeks -/

/-- The week of a day is counted in the year of the week's Thursday. -/
theorem weekOne_bounds {y n : Int} (hlt : daysBeforeYear y < n - (n - 1) % 7 + 3)
    (hle : n - (n - 1) % 7 + 3 ≤ daysBeforeYear (y + 1)) : weekOne y ≤ n ∧ n < weekOne (y + 1) := by
  unfold weekOne
  omega

theorem week_eq (y n : Int) :
    (n - (n - 1) % 7 + 3 - (daysBeforeYear y + 1)) / 7 = (n - weekOne y) / 7 := by
  unfold weekOne
  omega

end Gregorian
