import Mathlib.Algebra.Order.Ring.Nat
import Mathlib.Data.List.Induction
import Mathlib.Tactic.Common

/-!
# Numbers to a radix

Numbers as they are read from texts, and the characters that they stand for.
-/

namespace Radix

/-- `char::to_digit`. -/
def toDigit (radix : Nat) (c : Char) : Option Nat :=
  let digit :=
    if '0' ≤ c ∧ c ≤ '9' then some (c.toNat - '0'.toNat)
    else if 'a' ≤ c ∧ c ≤ 'z' then some (c.toNat - 'a'.toNat + 10)
    else if 'A' ≤ c ∧ c ≤ 'Z' then some (c.toNat - 'A'.toNat + 10)
    else none
  digit.filter (· < radix)

/-- One digit more, in a `u32`. -/
def pushDigit (radix n : Nat) (c : Char) : Option Nat := do
  let n := n * radix + (← toDigit radix c)
  if n < 2 ^ 32 then some n else none

def digitsOf : List Char → List Char
  | '+' :: digits => digits
  | digits => digits

/-- `u32::from_str_radix`. -/
def fromStrRadix (radix : Nat) (s : List Char) : Option Nat :=
  if (digitsOf s).isEmpty then none else (digitsOf s).foldlM (pushDigit radix) 0

/-- `char::from_u32`. -/
def charOf (n : Nat) : Option Char := if h : n.isValidChar then some (Char.ofNatAux n h) else none

variable {radix n : Nat} {c : Char} {ds : List Char}

/-- The number that digits write. -/
inductive Numeral (radix : Nat) : List Char → Nat → Prop
  | nil : Numeral radix [] 0
  | snoc {ds : List Char} {n d : Nat} {c : Char} : Numeral radix ds n → toDigit radix c = some d → Numeral radix (ds ++ [c]) (n * radix + d)

theorem charOf_toNat (c : Char) : charOf c.toNat = some c := by
  have hvalid : c.toNat.isValidChar := c.valid
  rw [charOf, dif_pos hvalid]
  exact congrArg some (Char.ext rfl)

theorem toDigit_cases {radix : Nat} {d : Nat} (h : toDigit radix c = some d) :
    ('0' ≤ c ∧ c ≤ '9') ∨ ('a' ≤ c ∧ c ≤ 'z') ∨ ('A' ≤ c ∧ c ≤ 'Z') := by
  unfold toDigit at h
  obtain ⟨h, -⟩ := Option.filter_eq_some_iff.mp h
  split at h
  · exact .inl ‹_›
  · split at h
    · exact .inr (.inl ‹_›)
    · split at h
      · exact .inr (.inr ‹_›)
      · cases h

theorem le_nine_of_toDigit (h : toDigit 10 c = some n) : c ≤ '9' := by
  unfold toDigit at h
  obtain ⟨h, hlt⟩ := Option.filter_eq_some_iff.mp h
  have hten := of_decide_eq_true hlt
  split at h
  · next hc => exact hc.2
  · split at h
    · have := Option.some.inj h
      omega
    · split at h
      · have := Option.some.inj h
        omega
      · cases h

namespace Numeral

theorem digits (h : Numeral radix ds n) : ∀ c ∈ ds, ∃ d, toDigit radix c = some d := by
  induction h with
  | nil => exact fun _ h => absurd h List.not_mem_nil
  | snoc _ hd ih =>
    intro c hc
    rcases List.mem_append.mp hc with hc | hc
    · exact ih c hc
    · rw [List.mem_singleton.mp hc]
      exact ⟨_, hd⟩

theorem push (hradix : 1 ≤ radix) (h : Numeral radix ds n) (hlt : n < 2 ^ 32) : ds.foldlM (pushDigit radix) 0 = some n := by
  induction h with
  | nil => rfl
  | @snoc ds n d c _ hd ih =>
    have hle : n ≤ n * radix := Nat.le_mul_of_pos_right n hradix
    rw [List.foldlM_append, ih (by omega)]
    simp only [List.foldlM_cons, List.foldlM_nil, Option.bind_eq_bind, Option.bind_some, pushDigit, hd, if_pos hlt]
    rfl

theorem digitsOf (h : Numeral radix ds n) : Radix.digitsOf ds = ds := by
  unfold Radix.digitsOf
  split
  · obtain ⟨d, hd⟩ := h.digits '+' List.mem_cons_self
    exact absurd (toDigit_cases hd) (by decide)
  · rfl

theorem fromStrRadix (hradix : 1 ≤ radix) (hne : ds ≠ []) (h : Numeral radix ds n) (hlt : n < 2 ^ 32) :
    fromStrRadix radix ds = some n := by
  rw [Radix.fromStrRadix, h.digitsOf, List.isEmpty_eq_false_iff.mpr hne, if_neg Bool.false_ne_true]
  exact h.push hradix hlt

end Numeral

theorem toNat_lt (c : Char) : c.toNat < 2 ^ 32 := c.val.toNat_lt

end Radix
