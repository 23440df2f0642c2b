import Mathlib.Algebra.BigOperators.Group.Finset.Basic
import Mathlib.Algebra.BigOperators.Ring.Finset
import Mathlib.Algebra.Order.BigOperators.Group.Finset
import Mathlib.Algebra.GCDMonoid.Finset
import Mathlib.Data.Int.GCD
import Mathlib.Tactic.Linarith
import Mathlib.Tactic.Ring

/-!
# Smooth weighted round robin

Every slot has a credit. In a round each slot is credited its weight, and the slot with the greatest credit of those that
have a weight pays for all of them. Credits sum to zero and stay within a bound, whatever the weights of the rounds are
(`Run.bounded`); so over any rounds a slot pays for what it was credited, up to the bound (`Run.drift`), and with fixed
weights it is picked in exact proportion (`Run.period`).
-/

namespace Smooth

variable {ι : Type} [DecidableEq ι]

/-- One round, in which `b` is picked, if a slot has a weight. -/
inductive Round (s : Finset ι) (w : ι → ℕ) (c : ι → ℤ) : Option ι → (ι → ℤ) → Prop
  | idle {c' : ι → ℤ} (hw : ∀ i ∈ s, w i = 0) (hc : ∀ i ∈ s, c' i = c i) : Round s w c none c'
  | pick {b : ι} {c' : ι → ℤ} (mem : b ∈ s) (pos : 0 < w b) (greatest : ∀ i ∈ s, 0 < w i → c i + w i ≤ c b + w b)
      (hc : ∀ i ∈ s, c' i = c i + w i - if i = b then ((∑ j ∈ s, w j : ℕ) : ℤ) else 0) : Round s w c (some b) c'

/-- Rounds one after the other, each with its weights and the slot that is picked. -/
inductive Run (s : Finset ι) : (ι → ℤ) → List ((ι → ℕ) × Option ι) → (ι → ℤ) → Prop
  | nil {c : ι → ℤ} : Run s c [] c
  | cons {c c' c'' : ι → ℤ} {w : ι → ℕ} {b : Option ι} {rounds : List ((ι → ℕ) × Option ι)}
      (round : Round s w c b c') (run : Run s c' rounds c'') : Run s c ((w, b) :: rounds) c''

/-- Any slots together have at most so much credit. -/
structure Bounded (s : Finset ι) (W : ℕ) (c : ι → ℤ) : Prop where
  sum : ∑ i ∈ s, c i = 0
  le : ∀ t ⊆ s, ∑ i ∈ t, c i ≤ W * (t.card * (s.card - t.card))

omit [DecidableEq ι] in
theorem Bounded.zero (s : Finset ι) (W : ℕ) : Bounded s W fun _ => 0 := by
  refine ⟨by simp, fun t ht => ?_⟩
  have hcard : (t.card : ℤ) ≤ s.card := by exact_mod_cast Finset.card_le_card ht
  have : (0 : ℤ) ≤ W * (t.card * (s.card - t.card)) :=
    mul_nonneg (by positivity) (mul_nonneg (by positivity) (by omega))
  simpa using this

section Credits

variable {s : Finset ι} {W : ℕ} {c c' : ι → ℤ} {w : ι → ℕ} {b : Option ι}

omit [DecidableEq ι] in
theorem Bounded.congr (h : Bounded s W c) (hc : ∀ i ∈ s, c' i = c i) : Bounded s W c' := by
  refine ⟨(Finset.sum_congr rfl hc).trans h.sum, fun t ht => ?_⟩
  rw [Finset.sum_congr rfl fun i hi => hc i (ht hi)]
  exact h.le t ht

/-- A credit is within the bound, and so is a debt, which the others have as credit. -/
theorem Bounded.credit_le (h : Bounded s W c) {i : ι} (hi : i ∈ s) : |c i| ≤ W * (s.card - 1) := by
  have hone := h.le {i} (Finset.singleton_subset_iff.mpr hi)
  have hrest := h.le (s.erase i) (Finset.erase_subset i s)
  have hcard := Finset.card_erase_add_one hi
  have hsum := Finset.sum_erase_add s c hi
  rw [Finset.sum_singleton, Finset.card_singleton] at hone
  rw [h.sum] at hsum
  have hsize : ((s.erase i).card : ℤ) = s.card - 1 := by omega
  rw [hsize] at hrest
  rw [abs_le]
  constructor <;> push_cast at * <;> linarith

/-- Slots of which none is picked, some with a weight and some without: the one that is picked has no less credit than
each of the former. Their sum is between those of the latter alone and of all with the one that is picked. -/
theorem Bounded.le_of_not_picked (h : Bounded s W c) (hw : ∀ i ∈ s, w i ≤ W) {b : ι} (hb : b ∈ s)
    (hgreatest : ∀ i ∈ s, 0 < w i → c i + w i ≤ c b + w b) {t : Finset ι} (ht : t ⊆ s) (hbt : b ∉ t) :
    ∑ i ∈ t, (c i + w i) ≤ W * (t.card * (s.card - t.card)) := by
  have hsplit := Finset.sum_filter_add_sum_filter_not t (fun i => 0 < w i) fun i => c i + (w i : ℤ)
  have hcard := Finset.card_filter_add_card_filter_not (s := t) fun i => 0 < w i
  have hrest : ∑ i ∈ t with ¬0 < w i, (c i + (w i : ℤ)) = ∑ i ∈ t with ¬0 < w i, c i :=
    Finset.sum_congr rfl fun i hi => by
      have := (Finset.mem_filter.mp hi).2
      rw [show w i = 0 by omega]
      simp
  have hidle := h.le (t.filter fun i => ¬0 < w i) ((Finset.filter_subset _ t).trans ht)
  have hall := h.le (insert b t) (Finset.insert_subset hb ht)
  rw [Finset.sum_insert hbt, Finset.card_insert_of_notMem hbt,
    ← Finset.sum_filter_add_sum_filter_not t (fun i => 0 < w i) c] at hall
  have hreceived : ∑ i ∈ t with 0 < w i, (c i + (w i : ℤ)) ≤ (t.filter fun i => 0 < w i).card * (c b + w b) := by
    rw [← nsmul_eq_mul]
    exact Finset.sum_le_card_nsmul _ _ _ fun i hi =>
      hgreatest i (ht (Finset.mem_filter.mp hi).1) (Finset.mem_filter.mp hi).2
  have hweights : ∑ i ∈ t with 0 < w i, (w i : ℤ) ≤ (t.filter fun i => 0 < w i).card * W := by
    rw [← nsmul_eq_mul]
    exact Finset.sum_le_card_nsmul _ _ _ fun i hi => by
      exact_mod_cast hw i (ht (Finset.mem_filter.mp hi).1)
  have hwb : (w b : ℤ) ≤ W := by exact_mod_cast hw b hb
  rw [Finset.sum_add_distrib] at hreceived hsplit
  rw [hrest] at hsplit
  rw [← hsplit]
  generalize (t.filter fun i => 0 < w i).card = r at *
  generalize (t.filter fun i => ¬0 < w i).card = k at *
  generalize ∑ i ∈ t with 0 < w i, c i = cr at *
  generalize ∑ i ∈ t with ¬0 < w i, c i = ck at *
  generalize ∑ i ∈ t with 0 < w i, (w i : ℤ) = wr at *
  rw [← hcard] at hall ⊢
  generalize (s.card : ℤ) = n at *
  push_cast at *
  have hr : (0 : ℤ) ≤ r := Int.natCast_nonneg r
  have hscaled : ((r : ℤ) + 1) * (cr + wr + ck) ≤ (r + 1) * (W * ((r + k) * (n - (r + k)))) :=
    calc ((r : ℤ) + 1) * (cr + wr + ck) ≤ ck + r * (c b + (cr + ck)) + r * (wr + w b) := by linarith
      _ ≤ W * (k * (n - k)) + r * (W * ((r + k + 1) * (n - (r + k + 1)))) + r * (r * W + W) := by
        have := mul_le_mul_of_nonneg_left hall hr
        have := mul_le_mul_of_nonneg_left (add_le_add hweights hwb) hr
        linarith
      _ = (r + 1) * (W * ((r + k) * (n - (r + k)))) := by ring
  exact le_of_mul_le_mul_left hscaled (by omega)

/-- Whatever the weights are, a round keeps the credits within their bound. -/
theorem Round.bounded (h : Bounded s W c) (hw : ∀ i ∈ s, w i ≤ W) (hr : Round s w c b c') : Bounded s W c' := by
  cases hr with
  | idle _ hc => exact h.congr hc
  | @pick b _ mem _ greatest hc =>
    have hpaid : ∀ t ⊆ s, ∑ i ∈ t, c' i = ∑ i ∈ t, (c i + (w i : ℤ)) - if b ∈ t then ((∑ j ∈ s, w j : ℕ) : ℤ) else 0 := by
      intro t ht
      rw [Finset.sum_congr rfl fun i hi => hc i (ht hi), Finset.sum_sub_distrib, Finset.sum_ite_eq']
    refine ⟨?_, fun t ht => ?_⟩
    · rw [hpaid s subset_rfl, if_pos mem, Finset.sum_add_distrib, h.sum]
      push_cast
      ring
    · rw [hpaid t ht]
      by_cases hb : b ∈ t
      · rw [if_pos hb, Finset.sum_add_distrib]
        have hle : ∑ i ∈ t, w i ≤ ∑ i ∈ s, w i := Finset.sum_le_sum_of_subset ht
        have := h.le t ht
        push_cast
        have : (∑ i ∈ t, (w i : ℤ)) ≤ ∑ i ∈ s, (w i : ℤ) := by exact_mod_cast hle
        linarith
      · rw [if_neg hb, sub_zero]
        exact h.le_of_not_picked hw mem greatest ht hb

end Credits

/-! ## Runs -/

variable {s : Finset ι} {W : ℕ} {c c' : ι → ℤ} {rounds : List ((ι → ℕ) × Option ι)}

theorem Run.bounded (h : Bounded s W c) (hw : ∀ r ∈ rounds, ∀ i ∈ s, r.1 i ≤ W) (hrun : Run s c rounds c') :
    Bounded s W c' := by
  induction hrun with
  | nil => exact h
  | cons round _ ih =>
    exact ih (round.bounded h (hw _ List.mem_cons_self)) fun r hr => hw r (List.mem_cons_of_mem _ hr)

/-- What a slot pays in a round. -/
def paid (s : Finset ι) (i : ι) (r : (ι → ℕ) × Option ι) : ℕ := if r.2 = some i then ∑ j ∈ s, r.1 j else 0

theorem Round.credit {w : ι → ℕ} {b : Option ι} (h : Round s w c b c') {i : ι} (hi : i ∈ s) :
    c' i = c i + w i - paid s i (w, b) := by
  cases h with
  | idle hw hc => simp [paid, hc i hi, hw i hi]
  | @pick b _ _ _ _ hc =>
    rw [hc i hi]
    by_cases hib : i = b
    · simp [paid, hib]
    · simp [paid, hib, Ne.symm hib]

theorem Run.credit (h : Run s c rounds c') {i : ι} (hi : i ∈ s) :
    c' i = c i + (rounds.map fun r => r.1 i).sum - (rounds.map (paid s i)).sum := by
  induction h with
  | nil => simp
  | cons round _ ih =>
    rw [ih, round.credit hi]
    simp only [List.map_cons, List.sum_cons]
    push_cast
    ring

/-- A slot pays for what it is credited, up to the bound. -/
theorem Run.drift (h : Bounded s W c) (hw : ∀ r ∈ rounds, ∀ i ∈ s, r.1 i ≤ W) (hrun : Run s c rounds c') {i : ι}
    (hi : i ∈ s) :
    |(((rounds.map fun r => r.1 i).sum : ℕ) : ℤ) - (rounds.map (paid s i)).sum| ≤ 2 * (W * (s.card - 1)) := by
  have hbefore := abs_le.mp (h.credit_le hi)
  have hafter := abs_le.mp ((hrun.bounded h hw).credit_le hi)
  have hcredit := hrun.credit hi
  rw [abs_le]
  constructor <;> linarith

/-- A slot with a weight is picked before long. -/
theorem Run.length_le_of_not_picked (h : Bounded s W c) (hw : ∀ r ∈ rounds, ∀ i ∈ s, r.1 i ≤ W)
    (hrun : Run s c rounds c') {i : ι} (hi : i ∈ s) (hpos : ∀ r ∈ rounds, 0 < r.1 i)
    (hnot : ∀ r ∈ rounds, r.2 ≠ some i) : (rounds.length : ℤ) ≤ 2 * (W * (s.card - 1)) := by
  have hdrift := abs_le.mp (hrun.drift h hw hi)
  have hpaid : (rounds.map (paid s i)).sum = 0 :=
    List.sum_eq_zero fun x hx => by
      obtain ⟨r, hr, rfl⟩ := List.mem_map.mp hx
      exact if_neg (hnot r hr)
  have hlength := List.card_nsmul_le_sum (rounds.map fun r => r.1 i) 1 fun x hx => by
    obtain ⟨r, hr, rfl⟩ := List.mem_map.mp hx
    exact hpos r hr
  rw [hpaid] at hdrift
  simp only [List.length_map, nsmul_eq_mul, Nat.cast_id, mul_one] at hlength
  omega

/-- A slot is not picked for long while another one has a weight. -/
theorem Run.length_le_of_picked (h : Bounded s W c) (hw : ∀ r ∈ rounds, ∀ i ∈ s, r.1 i ≤ W)
    (hrun : Run s c rounds c') {i : ι} (hi : i ∈ s) (hother : ∀ r ∈ rounds, ∃ j ∈ s, j ≠ i ∧ 0 < r.1 j)
    (hpicked : ∀ r ∈ rounds, r.2 = some i) : (rounds.length : ℤ) ≤ 2 * (W * (s.card - 1)) := by
  have hdrift := abs_le.mp (hrun.drift h hw hi)
  have hlength : (rounds.map fun r => r.1 i).sum + rounds.length ≤ (rounds.map (paid s i)).sum := by
    clear hdrift hrun hw
    induction rounds with
    | nil => simp
    | cons r rest ih =>
      obtain ⟨j, hj, hji, hpos⟩ := hother r List.mem_cons_self
      have hrest := ih (fun r hr => hother r (List.mem_cons_of_mem _ hr)) fun r hr =>
        hpicked r (List.mem_cons_of_mem _ hr)
      have hpair : r.1 i + r.1 j ≤ ∑ k ∈ s, r.1 k := by
        rw [← Finset.sum_pair hji.symm]
        exact Finset.sum_le_sum_of_subset (Finset.insert_subset hi (Finset.singleton_subset_iff.mpr hj))
      have hpaid : paid s i r = ∑ k ∈ s, r.1 k := if_pos (hpicked r List.mem_cons_self)
      simp only [List.map_cons, List.sum_cons, List.length_cons]
      omega
  omega

/-! ## Fixed weights -/

section Fixed

variable {w : ι → ℕ}

/-- With weights that do not change, a slot without one has no credit, and no slot owes a whole round. -/
structure Level (s : Finset ι) (w : ι → ℕ) (c : ι → ℤ) : Prop where
  sum : ∑ i ∈ s, c i = 0
  idle : ∀ i ∈ s, w i = 0 → c i = 0
  lt : ∀ i ∈ s, -((∑ j ∈ s, w j : ℕ) : ℤ) < c i

omit [DecidableEq ι] in
theorem Level.zero (hpos : 0 < ∑ j ∈ s, w j) : Level s w fun _ => 0 :=
  ⟨by simp, fun _ _ _ => rfl, fun _ _ => by omega⟩

omit [DecidableEq ι] in
/-- The credits of the slots with a weight sum up to the total after they are credited, so the greatest is positive. -/
theorem Level.greatest_pos (h : Level s w c) {b : ι} (hb : b ∈ s) (hpos : 0 < w b)
    (hgreatest : ∀ i ∈ s, 0 < w i → c i + w i ≤ c b + w b) : 0 < c b + w b := by
  by_contra hle
  have hnonpos : ∑ i ∈ s, (c i + (w i : ℤ)) ≤ 0 := Finset.sum_nonpos fun i hi => by
    rcases Nat.eq_zero_or_pos (w i) with hw | hw
    · simp [h.idle i hi hw, hw]
    · exact (hgreatest i hi hw).trans (not_lt.mp hle)
  have hle := Finset.single_le_sum (f := w) (fun i _ => Nat.zero_le (w i)) hb
  rw [Finset.sum_add_distrib, h.sum] at hnonpos
  have : (w b : ℤ) ≤ ∑ i ∈ s, (w i : ℤ) := by exact_mod_cast hle
  omega

theorem Round.level (h : Level s w c) {b : Option ι} (hround : Round s w c b c') : Level s w c' := by
  cases hround with
  | idle _ hc =>
    refine ⟨(Finset.sum_congr rfl hc).trans h.sum, fun i hi hw => ?_, fun i hi => ?_⟩
    · rw [hc i hi, h.idle i hi hw]
    · rw [hc i hi]
      exact h.lt i hi
  | @pick b _ mem pos greatest hc =>
    refine ⟨?_, fun i hi hw => ?_, fun i hi => ?_⟩
    · rw [Finset.sum_congr rfl hc, Finset.sum_sub_distrib, Finset.sum_ite_eq', if_pos mem, Finset.sum_add_distrib, h.sum]
      push_cast
      ring
    · have hib : i ≠ b := by
        rintro rfl
        omega
      rw [hc i hi, if_neg hib, h.idle i hi hw, hw]
      simp
    · have hlt := h.lt i hi
      have hpositive := h.greatest_pos mem pos greatest
      rw [hc i hi]
      by_cases hib : i = b
      · rw [if_pos hib, hib]
        omega
      · rw [if_neg hib]
        omega

theorem Run.level (h : Level s w c) (hfixed : ∀ r ∈ rounds, r.1 = w) (hrun : Run s c rounds c') : Level s w c' := by
  induction hrun with
  | nil => exact h
  | @cons _ _ _ v _ _ round _ ih =>
    have hv : v = w := hfixed _ List.mem_cons_self
    exact ih (Round.level h (hv ▸ round)) fun r hr => hfixed r (List.mem_cons_of_mem _ hr)

theorem Run.credit_fixed (hfixed : ∀ r ∈ rounds, r.1 = w) (hrun : Run s c rounds c') {i : ι} (hi : i ∈ s) :
    c' i = c i + rounds.length * w i - (∑ j ∈ s, w j : ℕ) * rounds.countP fun r => r.2 = some i := by
  rw [hrun.credit hi]
  clear hrun
  induction rounds with
  | nil => simp
  | cons r rest ih =>
    have hrest := ih fun r hr => hfixed r (List.mem_cons_of_mem _ hr)
    have hr := hfixed r List.mem_cons_self
    by_cases hpicked : r.2 = some i
    · simp [paid, hpicked, hr] at *
      linarith
    · simp [paid, hpicked, hr] at *
      linarith

/-- After rounds that together are a multiple of every slot's weight, no slot has credit. -/
theorem Run.period (hfixed : ∀ r ∈ rounds, r.1 = w) (hrun : Run s (fun _ => 0) rounds c') (htotal : 0 < ∑ j ∈ s, w j)
    {g : ℕ} (hdvd : ∀ i ∈ s, g ∣ w i) (hlength : rounds.length * g = ∑ j ∈ s, w j) : ∀ i ∈ s, c' i = 0 := by
  have hlevel := hrun.level (Level.zero htotal) hfixed
  have hg : 0 < g := Nat.pos_of_ne_zero fun h => by simp [h] at hlength; omega
  have hnonneg : ∀ i ∈ s, 0 ≤ c' i := by
    intro i hi
    have hlt := hlevel.lt i hi
    obtain ⟨q, hq⟩ := hdvd i hi
    have hcredit := hrun.credit_fixed hfixed hi
    rw [hq, ← hlength] at hcredit
    rw [← hlength] at hlt
    generalize rounds.countP (fun r => r.2 = some i) = n at hcredit
    -- The credit is a multiple of a whole round's, so it is not negative when it is more than one debt.
    have hmul : c' i = rounds.length * g * ((q : ℤ) - n) := by
      rw [hcredit]
      push_cast
      ring
    have hround : (0 : ℤ) < rounds.length * g := by exact_mod_cast hlength ▸ htotal
    have hdiff : -1 < (q : ℤ) - n := by
      rw [hmul] at hlt
      push_cast at hlt
      nlinarith
    rw [hmul]
    exact mul_nonneg hround.le (by omega)
  exact (Finset.sum_eq_zero_iff_of_nonneg hnonneg).mp hlevel.sum

/-- Over rounds after which the credits are what they were, every slot is picked in proportion to its weight. -/
theorem Run.count_of_period (hfixed : ∀ r ∈ rounds, r.1 = w) (hrun : Run s c rounds c') (htotal : 0 < ∑ j ∈ s, w j)
    {g : ℕ} (hdvd : ∀ i ∈ s, g ∣ w i) (hlength : rounds.length * g = ∑ j ∈ s, w j) {i : ι} (hi : i ∈ s)
    (hsame : c' i = c i) : rounds.countP (fun r => r.2 = some i) = w i / g := by
  have hg : 0 < g := Nat.pos_of_ne_zero fun h => by simp [h] at hlength; omega
  have hcredit := hrun.credit_fixed hfixed hi
  obtain ⟨q, hq⟩ := hdvd i hi
  have hcount : rounds.length * g * q = rounds.length * g * rounds.countP fun r => r.2 = some i := by
    rw [hsame, hq, ← hlength] at hcredit
    have : (rounds.length : ℤ) * (g * q) = rounds.length * g * rounds.countP fun r => r.2 = some i := by
      push_cast at hcredit
      linarith
    rw [Nat.mul_assoc]
    exact_mod_cast this
  rw [hq, Nat.mul_div_cancel_left q hg]
  exact (Nat.eq_of_mul_eq_mul_left (by omega) hcount).symm

end Fixed

end Smooth
