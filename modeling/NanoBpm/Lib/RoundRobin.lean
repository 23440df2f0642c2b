import Mathlib.Data.Int.CardIntervalMod

/-!
# Round robin

Numbers dealt out in turn: `lanes` lanes get every number by its remainder, and the numbers of one lane are dealt again, by their
place in the lane, over `slots` slots. The slots of a lane get as many numbers as each other, to one.
-/

namespace RoundRobin

variable {lanes slots lane j k p : Nat}

/-- The numbers of lane `lane` that slot `j` gets are those with one remainder. -/
theorem dealt_iff (hlanes : 0 < lanes) (hlane : lane < lanes) (hj : j < slots) :
    (p % lanes = lane ∧ p / lanes % slots = j) ↔ p ≡ lane + lanes * j [MOD lanes * slots] := by
  have hsmall : lane + lanes * j < lanes * slots := by
    have hle : lanes * (j + 1) ≤ lanes * slots := Nat.mul_le_mul_left _ hj
    rw [Nat.mul_add, Nat.mul_one] at hle
    omega
  rw [Nat.ModEq, Nat.mod_eq_of_lt hsmall, Nat.mod_mul]
  constructor
  · rintro ⟨rfl, rfl⟩
    rfl
  · intro h
    have hmod := congrArg (· % lanes) h
    have hdiv := congrArg (· / lanes) h
    simp only [Nat.add_mul_mod_self_left, Nat.mod_mod, Nat.mod_eq_of_lt hlane] at hmod
    simp only [Nat.add_mul_div_left _ _ hlanes, Nat.div_eq_of_lt hlane, Nat.div_eq_of_lt (Nat.mod_lt p hlanes), Nat.zero_add] at hdiv
    exact ⟨hmod, hdiv⟩

/-- No remainder comes twice more often than another. -/
theorem count_le (hr : 0 < slots) (u v b : Nat) : b.count (· ≡ u [MOD slots]) ≤ b.count (· ≡ v [MOD slots]) + 1 := by
  rw [Nat.count_modEq_card b hr, Nat.count_modEq_card b hr]
  split <;> omega

theorem count_dealt_le (hlanes : 0 < lanes) (hlane : lane < lanes) (hj : j < slots) (hk : k < slots) (b : Nat) :
    b.count (fun p => p % lanes = lane ∧ p / lanes % slots = j) ≤ b.count (fun p => p % lanes = lane ∧ p / lanes % slots = k) + 1 := by
  simp only [dealt_iff hlanes hlane hj, dealt_iff hlanes hlane hk]
  exact count_le (Nat.mul_pos hlanes (Nat.zero_lt_of_lt hj)) _ _ b

/-- As many consecutive numbers as there are lanes, at most, are in lanes of their own. -/
theorem nodup_window (first : Nat) (hk : k ≤ lanes) : ((List.range k).map fun i => (first + i) % lanes).Nodup := by
  refine List.Nodup.map_on (fun i hi j hj heq => ?_) List.nodup_range
  have hij : i ≡ j [MOD lanes] := Nat.ModEq.add_left_cancel' first heq
  exact hij.eq_of_lt_of_lt ((List.mem_range.mp hi).trans_le hk) ((List.mem_range.mp hj).trans_le hk)

end RoundRobin
