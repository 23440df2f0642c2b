import NanoBpm.Lib.Smooth
import Mathlib.Algebra.BigOperators.Fin

/-!
# Placement of creates (`nano-server-runtime/src/placement.rs`)

Where an instance is created is decided by smooth weighted round robin over the owners, whose weights are what they have
left to take. The credits are kept from one decision to the next; the weights may be others each time.
-/

namespace NanoBpm

/-- `SHED_LOAD`: the owner takes nothing now. -/
def shedLoad : Int := 4611686018427387903

def weightScale : Nat := 1000000

/-- `placement_weight`. -/
def placementWeight (load : Int) : Nat :=
  if load ≥ shedLoad then 0 else weightScale / ((max load 0).toNat + 1)

/-- What 128 bits hold of a number. -/
def wrapI128 (i : Int) : Int :=
  (i + 170141183460469231731687303715884105728) % 340282366920938463463374607431768211456 -
    170141183460469231731687303715884105728

/-- `current[i] += weights[i] as i128`. -/
def credited (w : Nat) (c : Int) : Int := wrapI128 (c + wrapI128 w)

/-- The loop of `swrr_pick`, from slot `i` on: the credits, and the best slot so far with its credit. -/
def swrrScan (i : Nat) (best : Option (Nat × Int)) : List Nat → List Int → List Int × Option (Nat × Int)
  | w :: weights, c :: current =>
    let c := credited w c
    let best := if 0 < w && best.all (fun b => c > b.2) then some (i, c) else best
    let (current, best) := swrrScan (i + 1) best weights current
    (c :: current, best)
  | _, current => (current, best)

/-- `swrr_pick`. -/
def swrrPick (weights : List Nat) (current : List Int) : Option Nat × List Int :=
  let total := wrapI128 (weights.map fun w : Nat => wrapI128 w).sum
  if total = 0 then (none, current)
  else
    match swrrScan 0 none weights current with
    | (current, none) => (none, current)
    | (current, some (b, _)) => (some b, current.modify b fun c => wrapI128 (c - total))

/-- One pick after the other, each with the weights of its time. -/
def swrrRun (current : List Int) : List (List Nat) → List (Option Nat) × List Int
  | [] => ([], current)
  | weights :: rest =>
    let (b, current) := swrrPick weights current
    let (picks, last) := swrrRun current rest
    (b :: picks, last)

/-! ## The loop -/

theorem wrapI128_of_abs_lt {i : Int} (h : |i| < 170141183460469231731687303715884105728) : wrapI128 i = i := by
  rw [abs_lt] at h
  unfold wrapI128
  omega

theorem swrrScan_credits (weights : List Nat) (current : List Int) (i : Nat) (best : Option (Nat × Int))
    (hlength : weights.length = current.length) :
    (swrrScan i best weights current).1 = weights.zipWith credited current := by
  induction weights generalizing current i best with
  | nil =>
    cases current with
    | nil => rfl
    | cons _ _ => cases hlength
  | cons w weights ih =>
    cases current with
    | nil => cases hlength
    | cons c current =>
      simp only [swrrScan, List.zipWith_cons_cons]
      rw [ih _ _ _ (by simpa using hlength)]

/-- Slot `b` is the first of those with a weight that have the greatest credit, `g`, after they are credited. -/
structure FirstGreatest (weights : List Nat) (current : List Int) (b : Nat) (g : Int) : Prop where
  picked : ∃ w c, weights[b]? = some w ∧ current[b]? = some c ∧ 0 < w ∧ credited w c = g
  greatest : ∀ (k w : Nat) (c : Int), weights[k]? = some w → current[k]? = some c → 0 < w → credited w c ≤ g
  first : ∀ (k w : Nat) (c : Int), k < b → weights[k]? = some w → current[k]? = some c → 0 < w → credited w c < g

theorem FirstGreatest.cons {w : Nat} {c : Int} {weights : List Nat} {current : List Int} {b : Nat} {g : Int}
    (h : FirstGreatest weights current b g) (hlt : 0 < w → credited w c < g) :
    FirstGreatest (w :: weights) (c :: current) (b + 1) g := by
  refine ⟨by simpa using h.picked, fun k v d hv hd hpos => ?_, fun k v d hk hv hd hpos => ?_⟩
  · cases k with
    | zero =>
      simp only [List.getElem?_cons_zero, Option.some.injEq] at hv hd
      exact (hv ▸ hd ▸ hlt (hv ▸ hpos)).le
    | succ k => exact h.greatest k v d (by simpa using hv) (by simpa using hd) hpos
  · cases k with
    | zero =>
      simp only [List.getElem?_cons_zero, Option.some.injEq] at hv hd
      exact hv ▸ hd ▸ hlt (hv ▸ hpos)
    | succ k => exact h.first k v d (by omega) (by simpa using hv) (by simpa using hd) hpos

theorem FirstGreatest.head {w : Nat} {c : Int} {weights : List Nat} {current : List Int} (hw : 0 < w)
    (h : ∀ (k v : Nat) (d : Int), weights[k]? = some v → current[k]? = some d → 0 < v → credited v d ≤ credited w c) :
    FirstGreatest (w :: weights) (c :: current) 0 (credited w c) := by
  refine ⟨⟨w, c, rfl, rfl, hw, rfl⟩, fun k v d hv hd hpos => ?_, fun k _ _ hk => by omega⟩
  cases k with
  | zero =>
    simp only [List.getElem?_cons_zero, Option.some.injEq] at hv hd
    rw [hv, hd]
  | succ k => exact h k v d (by simpa using hv) (by simpa using hd) hpos

/-- What the loop makes of a best slot: it stays if no later one has more credit. -/
theorem swrrScan_some (weights : List Nat) (current : List Int) (i b₀ : Nat) (g₀ : Int)
    (hlength : weights.length = current.length) :
    (swrrScan i (some (b₀, g₀)) weights current).2 = some (b₀, g₀) ∧
        (∀ (k w : Nat) (c : Int), weights[k]? = some w → current[k]? = some c → 0 < w → credited w c ≤ g₀) ∨
      ∃ b g, (swrrScan i (some (b₀, g₀)) weights current).2 = some (i + b, g) ∧ g₀ < g ∧
        FirstGreatest weights current b g := by
  induction weights generalizing current i b₀ g₀ with
  | nil =>
    cases current with
    | nil => exact .inl ⟨rfl, by simp⟩
    | cons _ _ => cases hlength
  | cons w weights ih =>
    cases current with
    | nil => cases hlength
    | cons c current =>
      simp only [swrrScan, Option.all_some]
      by_cases hbest : 0 < w ∧ credited w c > g₀
      · rw [if_pos (by simpa using hbest)]
        right
        obtain ⟨hstays, hle⟩ | ⟨b, g, hsome, hlt, hfirst⟩ := ih current (i + 1) i (credited w c) (by simpa using hlength)
        · exact ⟨0, credited w c, hstays, hbest.2, .head hbest.1 hle⟩
        · exact ⟨b + 1, g, by rw [hsome, Nat.add_right_comm, Nat.add_assoc], hbest.2.trans hlt, hfirst.cons fun _ => hlt⟩
      · rw [if_neg (by simpa using hbest)]
        have hle : 0 < w → credited w c ≤ g₀ := fun hw => not_lt.mp fun h => hbest ⟨hw, h⟩
        obtain ⟨hstays, hrest⟩ | ⟨b, g, hsome, hlt, hfirst⟩ := ih current (i + 1) b₀ g₀ (by simpa using hlength)
        · refine .inl ⟨hstays, fun k v d hv hd hpos => ?_⟩
          cases k with
          | zero =>
            simp only [List.getElem?_cons_zero, Option.some.injEq] at hv hd
            exact hv ▸ hd ▸ hle (hv ▸ hpos)
          | succ k => exact hrest k v d (by simpa using hv) (by simpa using hd) hpos
        · exact .inr ⟨b + 1, g, by rw [hsome, Nat.add_right_comm, Nat.add_assoc], hlt,
            hfirst.cons fun hw => (hle hw).trans_lt hlt⟩

theorem swrrScan_none (weights : List Nat) (current : List Int) (i : Nat) (hlength : weights.length = current.length) :
    (swrrScan i none weights current).2 = none ∧ (∀ w ∈ weights, w = 0) ∨
      ∃ b g, (swrrScan i none weights current).2 = some (i + b, g) ∧ FirstGreatest weights current b g := by
  induction weights generalizing current i with
  | nil =>
    cases current with
    | nil => exact .inl ⟨rfl, by simp⟩
    | cons _ _ => cases hlength
  | cons w weights ih =>
    cases current with
    | nil => cases hlength
    | cons c current =>
      simp only [swrrScan, Option.all_none, Bool.and_true]
      by_cases hw : 0 < w
      · rw [if_pos (by simpa using hw)]
        right
        obtain ⟨hstays, hle⟩ | ⟨b, g, hsome, hlt, hfirst⟩ :=
          swrrScan_some weights current (i + 1) i (credited w c) (by simpa using hlength)
        · exact ⟨0, credited w c, hstays, .head hw hle⟩
        · exact ⟨b + 1, g, by rw [hsome, Nat.add_right_comm, Nat.add_assoc], hfirst.cons fun _ => hlt⟩
      · rw [if_neg (by simpa using hw)]
        obtain ⟨hnone, hzero⟩ | ⟨b, g, hsome, hfirst⟩ := ih current (i + 1) (by simpa using hlength)
        · refine .inl ⟨hnone, fun v hv => ?_⟩
          rcases List.mem_cons.mp hv with rfl | hv
          · omega
          · exact hzero v hv
        · exact .inr ⟨b + 1, g, by rw [hsome, Nat.add_right_comm, Nat.add_assoc],
            hfirst.cons fun hpos => absurd hpos hw⟩

/-! ## The rounds -/

/-- The weight of a slot. -/
def weightAt (weights : List Nat) (i : Nat) : Nat := weights.getD i 0

/-- The credit of a slot. -/
def creditAt (current : List Int) (i : Nat) : Int := current.getD i 0

/-- Weights of the slots, which 128 bits hold the sums of. -/
structure Fits (n W : Nat) (weights : List Nat) : Prop where
  length : weights.length = n
  le : ∀ w ∈ weights, w ≤ W
  sums : n * W < 170141183460469231731687303715884105728

section Pick

variable {n W : Nat} {weights : List Nat} {current : List Int}

theorem Fits.weightAt_le (h : Fits n W weights) (i : Nat) : weightAt weights i ≤ W := by
  unfold weightAt
  rw [List.getD_eq_getElem?_getD]
  cases hw : weights[i]? with
  | none => exact Nat.zero_le W
  | some w => exact h.le w (List.mem_of_getElem? hw)

theorem getElem?_weightAt {i : Nat} (hi : i < weights.length) : weights[i]? = some (weightAt weights i) := by
  simp [weightAt, hi]

theorem getElem?_creditAt {i : Nat} (hi : i < current.length) : current[i]? = some (creditAt current i) := by
  simp [creditAt, hi]

theorem Fits.sum_eq (h : Fits n W weights) : ∑ i ∈ Finset.range n, weightAt weights i = weights.sum := by
  rw [← h.length, Finset.sum_range]
  simp [weightAt, Fin.sum_univ_getElem]

theorem Fits.sum_le (h : Fits n W weights) : weights.sum ≤ n * W := by
  have := List.sum_le_card_nsmul weights W h.le
  rwa [h.length, nsmul_eq_mul, Nat.cast_id] at this

theorem Fits.total_eq (h : Fits n W weights) : wrapI128 (weights.map fun w : Nat => wrapI128 w).sum = weights.sum := by
  have heach : (weights.map fun w : Nat => wrapI128 w) = weights.map fun w : Nat => (w : Int) :=
    List.map_congr_left fun w hw => wrapI128_of_abs_lt (by
      have := List.single_le_sum (fun _ _ => Nat.zero_le _) w hw
      have := h.sum_le
      have := h.sums
      rw [abs_lt]
      omega)
  have hcast : (weights.map fun w : Nat => (w : Int)).sum = weights.sum := by simp
  rw [heach, hcast]
  refine wrapI128_of_abs_lt ?_
  have := h.sum_le
  have := h.sums
  rw [abs_lt]
  omega

/-- Within the bound on credits nothing wraps. -/
theorem abs_lt_of_bounded (h : Fits n W weights) {c : Nat → Int} (hbounded : Smooth.Bounded (Finset.range n) W c) {i : Nat}
    (hi : i < n) : |c i| + W < 170141183460469231731687303715884105728 := by
  have hle := hbounded.credit_le (Finset.mem_range.mpr hi)
  have hsums := h.sums
  rw [Finset.card_range] at hle
  have hexpand : (W : Int) * (n - 1) = ((n * W : Nat) : Int) - W := by
    push_cast
    ring
  omega

theorem Fits.credited_eq (h : Fits n W weights) (hbounded : Smooth.Bounded (Finset.range n) W (creditAt current))
    {i : Nat} (hi : i < n) :
    credited (weightAt weights i) (creditAt current i) = creditAt current i + weightAt weights i := by
  have hlt := abs_lt_of_bounded h hbounded hi
  have hw := h.weightAt_le i
  have hcredit := abs_lt.mp (show |creditAt current i| < 170141183460469231731687303715884105728 - W by omega)
  have hweight : wrapI128 (weightAt weights i) = weightAt weights i := wrapI128_of_abs_lt (by
    rw [abs_lt]
    omega)
  rw [credited, hweight]
  refine wrapI128_of_abs_lt ?_
  rw [abs_lt]
  omega

theorem weightAt_eq_zero (hzero : ∀ w ∈ weights, w = 0) (i : Nat) : weightAt weights i = 0 := by
  unfold weightAt
  rw [List.getD_eq_getElem?_getD]
  cases hw : weights[i]? with
  | none => rfl
  | some w => exact hzero w (List.mem_of_getElem? hw)

theorem FirstGreatest.greatest_exact (h : Fits n W weights) (hlength : current.length = n)
    (hbounded : Smooth.Bounded (Finset.range n) W (creditAt current)) {b : Nat} {g : Int}
    (hfirst : FirstGreatest weights current b g) :
    b < n ∧ 0 < weightAt weights b ∧ g = creditAt current b + weightAt weights b ∧
      ∀ i < n, 0 < weightAt weights i → creditAt current i + weightAt weights i ≤ g := by
  obtain ⟨w, c, hw, hc, hpos, hg⟩ := hfirst.picked
  have hb : b < n := by
    have := (List.getElem?_eq_some_iff.mp hw).1
    rwa [h.length] at this
  have hwb : weightAt weights b = w := by simp [weightAt, hw]
  have hcb : creditAt current b = c := by simp [creditAt, hc]
  refine ⟨hb, hwb ▸ hpos, ?_, fun i hi hwi => ?_⟩
  · rw [← h.credited_eq hbounded hb, hwb, hcb, hg]
  · rw [← h.credited_eq hbounded hi]
    exact hfirst.greatest i _ _ (getElem?_weightAt (h.length ▸ hi)) (getElem?_creditAt (hlength ▸ hi)) hwi

/-- What a pick does when there is a weight. -/
theorem swrrPick_some (h : Fits n W weights) (hlength : current.length = n) (hpos : weights.sum ≠ 0) :
    ∃ b g, FirstGreatest weights current b g ∧ swrrPick weights current =
      (some b, (weights.zipWith credited current).modify b fun c => wrapI128 (c - weights.sum)) := by
  have hlengths : weights.length = current.length := h.length.trans hlength.symm
  have hcredits := swrrScan_credits weights current 0 none hlengths
  unfold swrrPick
  simp only [h.total_eq]
  rw [if_neg (by exact_mod_cast hpos)]
  obtain ⟨_, hzero⟩ | ⟨b, g, hsome, hfirst⟩ := swrrScan_none weights current 0 hlengths
  · exact absurd (List.sum_eq_zero hzero) hpos
  · refine ⟨b, g, hfirst, ?_⟩
    generalize swrrScan 0 none weights current = scan at hsome hcredits
    obtain ⟨credits, best⟩ := scan
    dsimp only at hsome hcredits
    rw [hsome, hcredits, Nat.zero_add]

theorem swrrPick_none (h : Fits n W weights) (hzero : weights.sum = 0) : swrrPick weights current = (none, current) := by
  unfold swrrPick
  rw [h.total_eq, hzero]
  rfl

/-- A pick is a round. -/
theorem swrrPick_round (h : Fits n W weights) (hlength : current.length = n)
    (hbounded : Smooth.Bounded (Finset.range n) W (creditAt current)) :
    Smooth.Round (Finset.range n) (weightAt weights) (creditAt current) (swrrPick weights current).1
      (creditAt (swrrPick weights current).2) ∧ (swrrPick weights current).2.length = n := by
  by_cases hzero : weights.sum = 0
  · rw [swrrPick_none h hzero]
    have heach : ∀ w ∈ weights, w = 0 := List.sum_eq_zero_iff.mp hzero
    exact ⟨.idle (fun i _ => weightAt_eq_zero heach i) fun i _ => rfl, hlength⟩
  · obtain ⟨b, g, hfirst, hpick⟩ := swrrPick_some h hlength hzero
    obtain ⟨hb, hwb, hg, hgreatest⟩ := hfirst.greatest_exact h hlength hbounded
    have hexact : Smooth.Round (Finset.range n) (weightAt weights) (creditAt current) (some b) fun i =>
        creditAt current i + weightAt weights i -
          if i = b then ((∑ j ∈ Finset.range n, weightAt weights j : ℕ) : ℤ) else 0 :=
      .pick (Finset.mem_range.mpr hb) hwb (fun i hi hwi => hg ▸ hgreatest i (Finset.mem_range.mp hi) hwi) fun _ _ => rfl
    have hlt := abs_lt_of_bounded h (hexact.bounded hbounded fun i _ => h.weightAt_le i) hb
    rw [hpick]
    refine ⟨.pick (Finset.mem_range.mpr hb) hwb (fun i hi hwi => hg ▸ hgreatest i (Finset.mem_range.mp hi) hwi) ?_, ?_⟩
    · intro i hi
      have hin := Finset.mem_range.mp hi
      have hcredited : (weights.zipWith credited current)[i]? = some (creditAt current i + weightAt weights i) := by
        rw [List.getElem?_zipWith, getElem?_weightAt (h.length ▸ hin), getElem?_creditAt (hlength ▸ hin)]
        exact congrArg some (h.credited_eq hbounded hin)
      rw [creditAt, List.getD_eq_getElem?_getD, List.getElem?_modify, hcredited]
      by_cases hib : i = b
      · subst hib
        rw [if_pos rfl, h.sum_eq] at hlt ⊢
        have hwrap : wrapI128 (creditAt current i + weightAt weights i - weights.sum) = _ :=
          wrapI128_of_abs_lt (by omega)
        simpa only [if_true, Option.map_eq_map, Option.map_some, Option.getD_some] using hwrap
      · simp [hib, Ne.symm hib]
    · simp [h.length, hlength]

theorem placementWeight_le (load : Int) : placementWeight load ≤ weightScale := by
  unfold placementWeight
  split
  · exact Nat.zero_le _
  · exact Nat.div_le_self _ _

/-- The weights of a cluster's loads fit. -/
theorem fits_placementWeight {loads : List Int} (h : loads.length * weightScale < 170141183460469231731687303715884105728) :
    Fits loads.length weightScale (loads.map placementWeight) where
  length := List.length_map ..
  le w hw := by
    obtain ⟨load, -, rfl⟩ := List.mem_map.mp hw
    exact placementWeight_le load
  sums := h

end Pick

/-! ## Runs -/

section Runs

variable {n W : Nat} {current : List Int} {rounds : List (List Nat)}

@[simp] theorem swrrRun_length (current : List Int) (rounds : List (List Nat)) :
    (swrrRun current rounds).1.length = rounds.length := by
  induction rounds generalizing current with
  | nil => rfl
  | cons weights rest ih => simp [swrrRun, ih]

theorem swrrRun_append (current : List Int) (first rest : List (List Nat)) :
    swrrRun current (first ++ rest) =
      ((swrrRun current first).1 ++ (swrrRun (swrrRun current first).2 rest).1,
        (swrrRun (swrrRun current first).2 rest).2) := by
  induction first generalizing current with
  | nil => rfl
  | cons weights first ih => simp [swrrRun, ih]

/-- The credits of the slots, which sum to zero and are within the bound. -/
structure Credits (n W : Nat) (current : List Int) : Prop where
  length : current.length = n
  bounded : Smooth.Bounded (Finset.range n) W (creditAt current)

theorem creditAt_zeros (n : Nat) : creditAt (List.replicate n 0) = fun _ => 0 := by
  ext i
  simp only [creditAt, List.getD_eq_getElem?_getD, List.getElem?_replicate]
  split <;> rfl

theorem Credits.zeros (n W : Nat) : Credits n W (List.replicate n 0) :=
  ⟨List.length_replicate, by rw [creditAt_zeros]; exact .zero _ W⟩

theorem Credits.pick {weights : List Nat} (hfits : Fits n W weights) (h : Credits n W current) :
    Credits n W (swrrPick weights current).2 := by
  obtain ⟨hround, hlength⟩ := swrrPick_round hfits h.length h.bounded
  exact ⟨hlength, hround.bounded h.bounded fun i _ => hfits.weightAt_le i⟩

theorem Credits.run (hfits : ∀ r ∈ rounds, Fits n W r) (h : Credits n W current) :
    Credits n W (swrrRun current rounds).2 := by
  induction rounds generalizing current with
  | nil => exact h
  | cons weights rest ih =>
    exact ih (fun r hr => hfits r (List.mem_cons_of_mem _ hr)) (h.pick (hfits _ List.mem_cons_self))

/-- Picks are rounds. -/
theorem swrrRun_run (hfits : ∀ r ∈ rounds, Fits n W r) (h : Credits n W current) :
    Smooth.Run (Finset.range n) (creditAt current) ((rounds.map weightAt).zip (swrrRun current rounds).1)
      (creditAt (swrrRun current rounds).2) := by
  induction rounds generalizing current with
  | nil => exact .nil
  | cons weights rest ih =>
    have hweights := hfits _ List.mem_cons_self
    exact .cons (swrrPick_round hweights h.length h.bounded).1
      (ih (fun r hr => hfits r (List.mem_cons_of_mem _ hr)) (h.pick hweights))

theorem Credits.sum (h : Credits n W current) : current.sum = 0 := by
  rw [← h.bounded.sum, ← h.length, Finset.sum_range]
  simp [creditAt, Fin.sum_univ_getElem]

/-! ## Fixed weights -/

variable {weights : List Nat}

theorem fits_replicate {k : Nat} (h : Fits n W weights) : ∀ r ∈ List.replicate k weights, Fits n W r := fun r hr => by
  rw [List.eq_of_mem_replicate hr]
  exact h

theorem fixed_rounds {k : Nat} {picks : List (Option Nat)} :
    ∀ r ∈ ((List.replicate k weights).map weightAt).zip picks, r.1 = weightAt weights := fun r hr => by
  have := (List.of_mem_zip hr).1
  rw [List.map_replicate] at this
  exact List.eq_of_mem_replicate this

theorem countP_rounds {ws : List (Nat → Nat)} {picks : List (Option Nat)} (hlength : ws.length = picks.length) (i : Nat) :
    (ws.zip picks).countP (fun r => r.2 = some i) = picks.count (some i) := by
  have hmap : (ws.zip picks).map Prod.snd = picks := List.map_snd_zip hlength.ge
  conv_rhs => rw [← hmap]
  rw [List.count, List.countP_map]
  exact List.countP_congr fun r _ => by simp

/-- After a period nothing is left of it. -/
theorem swrrRun_period (h : Fits n W weights) (hpos : 0 < weights.sum) {g period : Nat}
    (hdvd : ∀ i < n, g ∣ weightAt weights i) (hperiod : period * g = weights.sum) :
    (swrrRun (List.replicate n 0) (List.replicate period weights)).2 = List.replicate n 0 := by
  have hrun := swrrRun_run (fits_replicate (k := period) h) (Credits.zeros n W)
  have hlast := Credits.run (fits_replicate (k := period) h) (Credits.zeros n W)
  rw [creditAt_zeros] at hrun
  have hzero := hrun.period fixed_rounds (by rwa [h.sum_eq]) (fun i hi => hdvd i (Finset.mem_range.mp hi))
    (by simp [h.sum_eq, hperiod])
  refine List.ext_getElem? fun i => ?_
  by_cases hi : i < n
  · rw [getElem?_creditAt (hi.trans_eq hlast.length.symm), hzero i (Finset.mem_range.mpr hi)]
    simp [hi]
  · rw [List.getElem?_eq_none (by rw [hlast.length]; omega), List.getElem?_eq_none (by simpa using hi)]

theorem swrr_window (h : Fits n W weights) (hpos : 0 < weights.sum) {g period : Nat}
    (hdvd : ∀ i < n, g ∣ weightAt weights i) (hperiod : period * g = weights.sum) (start : Nat) {i : Nat} (hi : i < n) :
    ((swrrRun (List.replicate n 0) (List.replicate (start + period) weights)).1.drop start).count (some i) =
      weightAt weights i / g := by
  have hstart := Credits.run (fits_replicate (k := start) h) (Credits.zeros n W)
  have hrun := swrrRun_run (fits_replicate (k := period) h) hstart
  have hsame : (swrrRun (swrrRun (List.replicate n 0) (List.replicate start weights)).2
      (List.replicate period weights)).2 = (swrrRun (List.replicate n 0) (List.replicate start weights)).2 := by
    have hafter := swrrRun_append (List.replicate n 0) (List.replicate start weights) (List.replicate period weights)
    have hbefore := swrrRun_append (List.replicate n 0) (List.replicate period weights) (List.replicate start weights)
    rw [List.replicate_append_replicate] at hafter hbefore
    rw [Nat.add_comm, hafter, swrrRun_period h hpos hdvd hperiod] at hbefore
    exact (Prod.ext_iff.mp hbefore).2
  have hcount := hrun.count_of_period fixed_rounds (by rwa [h.sum_eq]) (fun i hi => hdvd i (Finset.mem_range.mp hi))
    (by simp [h.sum_eq, hperiod]) (Finset.mem_range.mpr hi) (by rw [hsame])
  rw [countP_rounds (by simp)] at hcount
  rw [← List.replicate_append_replicate, swrrRun_append, List.drop_left' (by simp), hcount]

/-- The credits of slots of one weight `w` in round `r` of a rotation: the slots before `r` have paid. -/
def rotated (n w r : Nat) : List Int := (List.range n).map fun i => (r : Int) * w - if i < r then (n * w : Nat) else 0

theorem creditAt_rotated {w r i : Nat} (hi : i < n) :
    creditAt (rotated n w r) i = (r : Int) * w - if i < r then (n * w : Nat) else 0 := by
  simp [creditAt, rotated, hi]

theorem weightAt_replicate {w i : Nat} (hi : i < n) : weightAt (List.replicate n w) i = w := by
  simp [weightAt, hi]

theorem rotated_self (n w : Nat) : rotated n w n = List.replicate n 0 := by
  refine List.ext_getElem (by simp [rotated]) fun i hi _ => ?_
  have hin : i < n := by simpa [rotated] using hi
  simp [rotated, hin]

theorem swrrPick_rotated {w r : Nat} (hw : 0 < w) (hfits : Fits n W (List.replicate n w)) (hr : r < n)
    (h : Credits n W (rotated n w r)) :
    swrrPick (List.replicate n w) (rotated n w r) = (some r, rotated n w (r + 1)) := by
  have hsum : (List.replicate n w).sum = n * w := by simp
  have hpos : 0 < n * w := Nat.mul_pos (by omega) hw
  obtain ⟨b, g, hfirst, hpick⟩ := swrrPick_some hfits h.length (by omega)
  obtain ⟨hb, _, hg, hgreatest⟩ := hfirst.greatest_exact hfits h.length h.bounded
  have hbest := hgreatest r hr (by rwa [weightAt_replicate hr])
  rw [creditAt_rotated hr, weightAt_replicate hr, if_neg (lt_irrefl r)] at hbest
  rw [creditAt_rotated hb, weightAt_replicate hb] at hg
  -- Those before `r` have less credit, and those after it as much as it has.
  have hbr : b = r := by
    rcases lt_trichotomy b r with hlt | heq | hgt
    · rw [if_pos hlt] at hg
      omega
    · exact heq
    · have := hfirst.first r _ _ hgt (getElem?_weightAt (hr.trans_eq hfits.length.symm))
        (getElem?_creditAt (hr.trans_eq h.length.symm))
        (by rwa [weightAt_replicate hr])
      rw [hfits.credited_eq h.bounded hr, creditAt_rotated hr, weightAt_replicate hr, if_neg (lt_irrefl r)] at this
      rw [if_neg (by omega)] at hg
      omega
  subst hbr
  obtain ⟨hround, hlength⟩ := swrrPick_round hfits h.length h.bounded
  rw [hpick] at hround hlength ⊢
  generalize List.modify _ _ _ = last at hround hlength ⊢
  refine Prod.ext rfl (List.ext_getElem? fun i => ?_)
  dsimp only at hround hlength ⊢
  by_cases hi : i < n
  · have hcredit := hround.credit (Finset.mem_range.mpr hi)
    rw [creditAt_rotated hi, weightAt_replicate hi, Smooth.paid, hfits.sum_eq, hsum] at hcredit
    rw [getElem?_creditAt (hi.trans_eq hlength.symm), hcredit, getElem?_creditAt (by simpa [rotated] using hi),
      creditAt_rotated hi]
    by_cases hib : b = i
    · subst hib
      simp
      ring
    · have hlt : i < b + 1 ↔ i < b := by omega
      simp only [hlt, Option.some.injEq, hib, if_false]
      push_cast
      ring
  · rw [List.getElem?_eq_none (by rw [hlength]; omega), List.getElem?_eq_none (by simpa [rotated] using hi)]

/-- Equal weights give a rotation. -/
theorem swrrRun_rotation {w : Nat} (hw : 0 < w) (hfits : Fits n W (List.replicate n w)) (hn : 0 < n) (k : Nat) :
    swrrRun (List.replicate n 0) (List.replicate k (List.replicate n w)) =
      ((List.range k).map fun t => some (t % n), rotated n w (k % n)) := by
  induction k with
  | zero => simp [swrrRun, rotated]
  | succ k ih =>
    have hcredits := Credits.run (fits_replicate (k := k) hfits) (Credits.zeros n W)
    rw [List.replicate_succ', swrrRun_append, ih]
    rw [ih] at hcredits
    have hr := Nat.mod_lt k hn
    simp only [swrrRun, swrrPick_rotated hw hfits hr hcredits, List.range_succ, List.map_append, List.map_cons,
      List.map_nil]
    rcases Nat.lt_or_ge (k % n + 1) n with hlt | hge
    · rw [Nat.add_mod, Nat.mod_eq_of_lt (show 1 < n by omega), Nat.mod_eq_of_lt hlt]
    · have hlast : k % n + 1 = n := by omega
      have hnext : (k + 1) % n = 0 := by
        rw [← Nat.mod_add_mod, hlast, Nat.mod_self]
      rw [hlast, hnext, rotated_self]
      simp [rotated]

/-! ## The results -/

theorem swrrPick_weight {weights : List Nat} (h : Fits n W weights) (hcredits : Credits n W current)
    (hpos : ∃ w ∈ weights, 0 < w) :
    ∃ b < n, (swrrPick weights current).1 = some b ∧ 0 < weightAt weights b := by
  obtain ⟨w, hw, hwpos⟩ := hpos
  have hsum : weights.sum ≠ 0 := fun hzero => by
    have := List.sum_eq_zero_iff.mp hzero w hw
    omega
  obtain ⟨b, g, hfirst, hpick⟩ := swrrPick_some h hcredits.length hsum
  obtain ⟨hb, hwb, _⟩ := hfirst.greatest_exact h hcredits.length hcredits.bounded
  exact ⟨b, hb, by rw [hpick], hwb⟩

theorem mem_rounds {picks : List (Option Nat)} {r : (Nat → Nat) × Option Nat}
    (hr : r ∈ (rounds.map weightAt).zip picks) : (∃ weights ∈ rounds, weightAt weights = r.1) ∧ r.2 ∈ picks :=
  ⟨List.mem_map.mp (List.of_mem_zip hr).1, (List.of_mem_zip hr).2⟩

/-- What a slot pays for in some rounds: the totals of those that pick it. -/
def paidBy (i : Nat) (rounds : List (List Nat)) (picks : List (Option Nat)) : Nat :=
  ((rounds.zip picks).map fun r => if r.2 = some i then r.1.sum else 0).sum

theorem sum_paid (hfits : ∀ r ∈ rounds, Fits n W r) (picks : List (Option Nat)) (i : Nat) :
    (((rounds.map weightAt).zip picks).map (Smooth.paid (Finset.range n) i)).sum = paidBy i rounds picks := by
  rw [paidBy, List.zip_map_left, List.map_map]
  congr 1
  refine List.map_congr_left fun r hr => ?_
  simp [Smooth.paid, (hfits r.1 (List.of_mem_zip hr).1).sum_eq]

/-- The credits of any picks sum to zero and are bounded; a slot without a weight is not picked; and in whatever rounds
come later a slot pays for what it is credited, up to the bound: it is not passed over, nor picked alone, for longer. With
fixed weights every window has the exact proportions, and equal weights make a rotation. -/
theorem swrr_fair {later : List (List Nat)} (hrounds : ∀ r ∈ rounds, Fits n W r) (hlater : ∀ r ∈ later, Fits n W r) :
    let current := (swrrRun (List.replicate n 0) rounds).2
    let picks := (swrrRun current later).1
    current.sum = 0 ∧ (∀ i < n, |creditAt current i| ≤ W * (n - 1)) ∧
      (∀ weights, Fits n W weights → (∃ w ∈ weights, 0 < w) →
        ∃ b < n, (swrrPick weights current).1 = some b ∧ 0 < weightAt weights b) ∧
      (∀ i < n, |(((later.map fun r => weightAt r i).sum : ℕ) : ℤ) - paidBy i later picks| ≤ 2 * (W * (n - 1))) ∧
      (∀ i < n, (∀ r ∈ later, 0 < weightAt r i) → some i ∉ picks → (later.length : ℤ) ≤ 2 * (W * (n - 1))) ∧
      (∀ i < n, (∀ r ∈ later, ∃ j < n, j ≠ i ∧ 0 < weightAt r j) → (∀ b ∈ picks, b = some i) →
        (later.length : ℤ) ≤ 2 * (W * (n - 1))) ∧
      (∀ weights, Fits n W weights → 0 < weights.sum → ∀ start, ∀ i < n,
        let g := (Finset.range n).gcd (weightAt weights)
        ((swrrRun (List.replicate n 0) (List.replicate (start + weights.sum / g) weights)).1.drop start).count (some i) =
          weightAt weights i / g) ∧
      (∀ w, 0 < w → Fits n W (List.replicate n w) → 0 < n → ∀ k,
        (swrrRun (List.replicate n 0) (List.replicate k (List.replicate n w))).1 =
          (List.range k).map fun t => some (t % n)) := by
  intro current picks
  have hcredits : Credits n W current := Credits.run hrounds (Credits.zeros n W)
  have hrun := swrrRun_run hlater hcredits
  have hle : ∀ r ∈ (later.map weightAt).zip picks, ∀ i ∈ Finset.range n, r.1 i ≤ W := fun r hr i _ => by
    obtain ⟨⟨weights, hmem, hw⟩, _⟩ := mem_rounds hr
    exact hw ▸ (hlater weights hmem).weightAt_le i
  have hlength : ((later.map weightAt).zip picks).length = later.length := by simp [picks]
  have hcard : ((Finset.range n).card : ℤ) = n := by rw [Finset.card_range]
  refine ⟨hcredits.sum, fun i hi => ?_, fun weights hfits hpos => swrrPick_weight hfits hcredits hpos, fun i hi => ?_,
    fun i hi hpos hnot => ?_, fun i hi hother hall => ?_, fun weights hfits hpos start i hi => ?_,
    fun w hw hfits hn k => ?_⟩
  · rw [← hcard]
    exact hcredits.bounded.credit_le (Finset.mem_range.mpr hi)
  · have hdrift := hrun.drift hcredits.bounded hle (Finset.mem_range.mpr hi)
    have hcredited : ((later.map weightAt).zip picks).map (fun r => r.1 i) = later.map fun r => weightAt r i := by
      have hfst : ((later.map weightAt).zip picks).map Prod.fst = later.map weightAt :=
        List.map_fst_zip (by simp [picks])
      rw [← Function.comp_def (fun w : Nat → Nat => w i) Prod.fst, ← List.map_map, hfst, List.map_map]
      rfl
    rwa [sum_paid hlater, hcredited, hcard] at hdrift
  · rw [← hlength, ← hcard]
    refine hrun.length_le_of_not_picked hcredits.bounded hle (Finset.mem_range.mpr hi) (fun r hr => ?_) fun r hr hpick => ?_
    · obtain ⟨⟨weights, hmem, hw⟩, _⟩ := mem_rounds hr
      exact hw ▸ hpos weights hmem
    · exact hnot (hpick ▸ (mem_rounds hr).2)
  · rw [← hlength, ← hcard]
    refine hrun.length_le_of_picked hcredits.bounded hle (Finset.mem_range.mpr hi) (fun r hr => ?_) fun r hr =>
      hall _ (mem_rounds hr).2
    obtain ⟨⟨weights, hmem, hw⟩, _⟩ := mem_rounds hr
    obtain ⟨j, hj, hji, hpos⟩ := hother weights hmem
    exact ⟨j, Finset.mem_range.mpr hj, hji, hw ▸ hpos⟩
  · have hdvd : ∀ j < n, (Finset.range n).gcd (weightAt weights) ∣ weightAt weights j := fun j hj =>
      Finset.gcd_dvd (Finset.mem_range.mpr hj)
    have hsum : (Finset.range n).gcd (weightAt weights) ∣ weights.sum := by
      rw [← hfits.sum_eq]
      exact Finset.dvd_sum fun j hj => hdvd j (Finset.mem_range.mp hj)
    exact swrr_window hfits hpos hdvd (Nat.div_mul_cancel hsum) start hi
  · rw [swrrRun_rotation hw hfits hn k]

/-- An idle owner, one with one create in flight, and one that sheds. -/
theorem swrr_fair_two_to_one :
    ((swrrRun [0, 0, 0] (List.replicate (2 + 3) ([0, 1, shedLoad].map placementWeight))).1.drop 2).count (some 0) = 2 := by
  have hloads : [0, 1, shedLoad].length * weightScale < 170141183460469231731687303715884105728 := by decide
  have hfits : Fits 3 weightScale ([0, 1, shedLoad].map placementWeight) := fits_placementWeight hloads
  have hrounds : ∀ r ∈ [[0, 1, shedLoad].map placementWeight], Fits 3 weightScale r := fun r hr => by
    rw [List.mem_singleton.mp hr]
    exact hfits
  obtain ⟨_, _, _, _, _, _, hwindow, _⟩ := swrr_fair hrounds hrounds
  have hg : (Finset.range 3).gcd (weightAt ([0, 1, shedLoad].map placementWeight)) = 500000 := by decide
  have hcount := hwindow _ hfits (by decide) 2 0 (by decide)
  rw [hg] at hcount
  exact hcount

/-- Weights whose sum wraps around to zero: no slot is picked, in no window. -/
theorem swrr_stalls_where_sums_wrap : ¬ ∀ weights : List Nat, (∀ w ∈ weights, w < 2 ^ 128) → 0 < weights.sum →
    ∀ start, ∀ i < weights.length,
      let g := (Finset.range weights.length).gcd (weightAt weights)
      ((swrrRun (List.replicate weights.length 0) (List.replicate (start + weights.sum / g) weights)).1.drop start).count (some i) =
        weightAt weights i / g := by
  intro h
  have hcount := h [2 ^ 127, 2 ^ 127] (by decide) (by decide) 0 0 (by decide)
  have hg : (Finset.range [2 ^ 127, 2 ^ 127].length).gcd (weightAt [2 ^ 127, 2 ^ 127]) = 2 ^ 127 := by decide
  rw [hg] at hcount
  revert hcount
  decide

end Runs

end NanoBpm
