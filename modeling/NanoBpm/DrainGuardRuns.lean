import NanoBpm.DrainGuard
import Mathlib.Tactic.Ring

/-!
# Runs of the drain-stall guard

`Level` says what the log makes of the bucket, and that no call can break it from where it is. `Paid` counts the completions that may
still mint. `Carried` follows the accumulator through a stretch in which one ratio is added.
-/

namespace NanoBpm

namespace Drain

open FeelExpr (wrapI64)
open Interleaving

/-! ## What the log says -/

def Effect.credits : Effect → Int
  | .granted credits => credits
  | _ => 0

def Effect.isAccumulated : Effect → Bool
  | .accumulated _ => true
  | _ => false

def granted (log : List Effect) : Int := (log.map Effect.credits).sum

/-- How many completions have added to the accumulator. -/
def accumulations (log : List Effect) : Nat := log.countP Effect.isAccumulated

theorem accumulations_append (log effects : List Effect) :
    accumulations (log ++ effects) = accumulations log + accumulations effects := List.countP_append

/-- The level of the bucket after an effect. -/
def settle (cap level : Int) : Effect → Int
  | .minted => level + 1
  | .granted credits => level - credits
  | .refilled => cap
  | _ => level

theorem settle_since {cap level : Int} {log : List Effect} (h : .refilled ∉ log) :
    log.foldl (settle cap) level = level + log.count .minted - granted log := by
  induction log generalizing level with
  | nil => simp [granted]
  | cons e log ih =>
    rw [List.foldl_cons, ih fun hmem => h (List.mem_cons_of_mem _ hmem)]
    cases e with
    | refilled => exact absurd List.mem_cons_self h
    | minted =>
      simp [settle, granted, Effect.credits]
      omega
    | granted credits =>
      simp [settle, granted, Effect.credits]
      omega
    | noted => simp [settle, granted, Effect.credits]
    | accumulated => simp [settle, granted, Effect.credits]
    | attempted => simp [settle, granted, Effect.credits]

/-! ## The level of the bucket -/

/-- What a call has read allows what it goes on to write. -/
def Point.Sound (cap : Int) : Point → Prop
  | .mintExchange cur => cur < cap
  | .takeExchange want cur => 0 < want ∧ 0 < cur
  | _ => True

structure Level (cap : Int) (g : DrainGuard) (log : List Effect) (_ : Nat) : Prop where
  capacity : g.capacity = cap
  budget : g.budget = log.foldl (settle cap) cap
  nonneg : 0 ≤ g.budget
  le : g.budget ≤ cap

variable {cap : Int} {g g' : DrainGuard} {log effects : List Effect} {p p' : Point} {spurious : Bool} {k k' : Nat}

theorem sound_mintLoop (cap cur : Int) : (mintLoop cap cur).Sound cap := by
  unfold mintLoop
  split
  · assumption
  · trivial

theorem sound_takeLoop {want : Int} (hwant : 0 < want) (cap cur : Int) : (takeLoop want cur).Sound cap := by
  unfold takeLoop
  split
  · trivial
  · next hcur => exact ⟨hwant, not_le.mp hcur⟩

/-- Effects that leave the bucket alone. -/
theorem Level.same (h : Level cap g log k) (hcap : g'.capacity = g.capacity) (hbudget : g'.budget = g.budget)
    (heffects : ∀ level, effects.foldl (settle cap) level = level) : Level cap g' (log ++ effects) k' := by
  refine ⟨hcap.trans h.capacity, ?_, hbudget ▸ h.nonneg, hbudget ▸ h.le⟩
  rw [hbudget, h.budget, List.foldl_append, heffects]

theorem level_advance (hadv : advance spurious g p = (g', p', effects)) (hsound : p.Sound cap) (h : Level cap g log k) :
    p'.Sound cap ∧ Level cap g' (log ++ effects) k' := by
  cases p with
  | count =>
    cases hadv
    exact ⟨trivial, h.same rfl rfl fun _ => rfl⟩
  | ratio =>
    simp only [advance] at hadv
    split at hadv
    · cases hadv
      exact ⟨trivial, h.same rfl rfl fun _ => rfl⟩
    · split at hadv
      · cases hadv
        exact ⟨trivial, h.same rfl rfl fun _ => rfl⟩
      · cases hadv
        exact ⟨trivial, h.same rfl rfl fun _ => rfl⟩
  | accumulate permille =>
    simp only [advance] at hadv
    split at hadv
    · cases hadv
      exact ⟨trivial, h.same rfl rfl fun _ => rfl⟩
    · cases hadv
      exact ⟨trivial, h.same rfl rfl fun _ => rfl⟩
  | mint =>
    cases hadv
    exact ⟨h.capacity ▸ sound_mintLoop _ _, h.same rfl rfl fun _ => rfl⟩
  | mintExchange cur =>
    simp only [advance] at hadv
    split at hadv
    · next hexchange =>
      obtain rfl := hexchange.1
      cases hadv
      have hlt : g.budget < cap := hsound
      have hnonneg := h.nonneg
      refine ⟨trivial, h.capacity, ?_, ?_, ?_⟩
      · rw [List.foldl_append, ← h.budget]
        rfl
      · change 0 ≤ g.budget + 1
        omega
      · exact hlt
    · cases hadv
      exact ⟨h.capacity ▸ sound_mintLoop _ _, h.same rfl rfl fun _ => rfl⟩
  | take want =>
    simp only [advance] at hadv
    split at hadv
    · cases hadv
      exact ⟨trivial, h.same rfl rfl fun _ => rfl⟩
    · next hwant =>
      cases hadv
      exact ⟨sound_takeLoop (not_le.mp hwant) _ _, h.same rfl rfl fun _ => rfl⟩
  | takeExchange want cur =>
    obtain ⟨hwant, hcur⟩ := hsound
    simp only [advance] at hadv
    split at hadv
    · next hexchange =>
      obtain rfl := hexchange.1
      cases hadv
      have hle := h.le
      refine ⟨trivial, h.capacity, ?_, ?_, ?_⟩
      · rw [List.foldl_append, ← h.budget]
        rfl
      · change 0 ≤ g.budget - min want g.budget
        omega
      · change g.budget - min want g.budget ≤ cap
        omega
    · cases hadv
      exact ⟨sound_takeLoop hwant _ _, h.same rfl rfl fun _ => rfl⟩
  | store permille =>
    cases hadv
    exact ⟨trivial, h.same rfl rfl fun _ => rfl⟩
  | refill =>
    cases hadv
    refine ⟨trivial, h.capacity, ?_, ?_, ?_⟩
    · rw [List.foldl_append]
      exact h.capacity
    · exact h.capacity ▸ h.nonneg.trans h.le
    · exact h.capacity.le
  | returned credits =>
    cases hadv
    exact ⟨trivial, h.same rfl rfl fun _ => rfl⟩

theorem sound_entry (cap : Int) (r : Request) : r.entry.Sound cap := by cases r <;> trivial

/-- The bucket is where the log says, and never empty below nothing nor fuller than full. -/
theorem level_run (cfg : DrainGuardCfg) (actions : List (Action Request Bool)) :
    Level cfg.burst (bucket.run (World.new cfg) actions).shared (bucket.run (World.new cfg) actions).log 0 := by
  have hinv : (World.new cfg).Inv (Point.Sound cfg.burst) (fun _ => 0) (Level cfg.burst) :=
    ⟨fun c hc => absurd hc List.not_mem_nil, rfl, rfl, cfg.burst_pos.le, le_rfl⟩
  have hrun := run_inv (P := bucket) (sound_entry cfg.burst) (fun _ _ _ _ h => ⟨h.capacity, h.budget, h.nonneg, h.le⟩)
    (fun _ _ _ _ _ _ _ _ hadv hsound h => level_advance hadv hsound h) hinv actions
  exact ⟨hrun.shared.capacity, hrun.shared.budget, hrun.shared.nonneg, hrun.shared.le⟩

/-- Credits granted since the bucket was full. -/
theorem granted_since {before after : List Effect} (h : Level cap g (before ++ after) k)
    (hfull : before = [] ∨ before.getLast? = some .refilled) (hsince : .refilled ∉ after) :
    granted after ≤ cap + after.count .minted := by
  have hbefore : before.foldl (settle cap) cap = cap := by
    rcases hfull with rfl | hlast
    · rfl
    · obtain ⟨init, rfl⟩ := List.getLast?_eq_some_iff.mp hlast
      rw [List.foldl_append]
      rfl
  have hbudget := h.budget
  have hnonneg := h.nonneg
  rw [List.foldl_append, hbefore, settle_since hsince] at hbudget
  omega

/-! ## Minting and completions -/

/-- A completion that has been noted and may still mint. -/
def Point.pending : Point → Nat
  | .ratio | .accumulate _ | .mint | .mintExchange _ => 1
  | _ => 0

/-- Each minted token and each completion that may still mint one is a completion of its own. -/
def Paid (_ : DrainGuard) (log : List Effect) (pending : Nat) : Prop := log.count .minted + pending ≤ log.count .noted

theorem pending_mintLoop_le (cap cur : Int) : (mintLoop cap cur).pending ≤ 1 := by
  unfold mintLoop
  split
  · exact Nat.le_refl 1
  · exact Nat.zero_le 1

theorem pending_takeLoop (want cur : Int) : (takeLoop want cur).pending = 0 := by
  unfold takeLoop
  split <;> rfl

theorem paid_append {log effects : List Effect} {k k' : Nat} (h : Paid g log k)
    (heffects : effects.count .minted + k' ≤ effects.count .noted + k) : Paid g' (log ++ effects) k' := by
  unfold Paid at *
  rw [List.count_append, List.count_append]
  omega

theorem paid_advance (hadv : advance spurious g p = (g', p', effects)) (h : Paid g log (k + p.pending)) :
    Paid g' (log ++ effects) (k + p'.pending) := by
  cases p with
  | count =>
    cases hadv
    exact paid_append h (by simp [Point.pending, Nat.add_comm 1 k])
  | ratio =>
    simp only [advance] at hadv
    split at hadv
    · cases hadv
      exact paid_append h (by simp [Point.pending])
    · split at hadv
      · cases hadv
        exact paid_append h (by simp [Point.pending])
      · cases hadv
        exact paid_append h (by simp [Point.pending])
  | accumulate permille =>
    simp only [advance] at hadv
    split at hadv
    · cases hadv
      exact paid_append h (by simp [Point.pending])
    · cases hadv
      exact paid_append h (by simp [Point.pending])
  | mint =>
    cases hadv
    exact paid_append h (by simpa [Point.pending] using pending_mintLoop_le _ _)
  | mintExchange cur =>
    simp only [advance] at hadv
    split at hadv
    · cases hadv
      exact paid_append h (by simp [Point.pending]; omega)
    · cases hadv
      exact paid_append h (by simpa [Point.pending] using pending_mintLoop_le _ _)
  | take want =>
    simp only [advance] at hadv
    split at hadv
    · cases hadv
      exact paid_append h (by simp [Point.pending])
    · cases hadv
      exact paid_append h (by simp [pending_takeLoop])
  | takeExchange want cur =>
    simp only [advance] at hadv
    split at hadv
    · cases hadv
      exact paid_append h (by simp [Point.pending])
    · cases hadv
      exact paid_append h (by simp [pending_takeLoop])
  | store permille =>
    cases hadv
    exact paid_append h (by simp [Point.pending])
  | refill =>
    cases hadv
    exact paid_append h (by simp [Point.pending])
  | returned credits =>
    cases hadv
    exact paid_append h (by simp)

theorem pending_entry (r : Request) : r.entry.pending = 0 := by cases r <;> rfl

theorem minted_le_noted (cfg : DrainGuardCfg) (actions : List (Action Request Bool)) :
    (bucket.run (World.new cfg) actions).log.count .minted ≤ (bucket.run (World.new cfg) actions).log.count .noted := by
  have hinv : (World.new cfg).Inv (fun _ => True) Point.pending Paid := ⟨fun _ _ => trivial, Nat.le_refl 0⟩
  have hcall : ∀ (r : Request) g log k, Paid g log k → Paid g log (k + (bucket.entry r).pending) := fun r g log k h => by
    rw [show (bucket.entry r).pending = 0 from pending_entry r]
    exact h
  have hrun := run_inv (P := bucket) (fun _ => trivial) hcall
    (fun _ _ _ _ _ _ _ _ hadv _ h => ⟨trivial, paid_advance hadv h⟩) hinv actions
  exact (Nat.le_add_right _ _).trans hrun.shared

/-! ## The accumulator -/

/-- The stored ratio is `r`, and a completion that adds to the accumulator has read it and does not pass the bound of an `i64`. -/
structure Held (r : Int) (w : World) (a : Action Request Bool) : Prop where
  ratio : w.shared.mintPermille = r
  read : ∀ i spurious permille, a = .advance i spurious → w.calls[i]? = some (.accumulate permille) →
    permille = r ∧ 0 ≤ w.shared.mintAcc ∧ w.shared.mintAcc + permille < 2 ^ 63

/-- What has been added since `start`, and the boundaries that it has crossed. -/
structure Carried (r : Int) (start w : World) : Prop where
  added : w.shared.mintAcc = start.shared.mintAcc + r * (accumulations w.log - accumulations start.log)
  crossed : (w.log.count .attempted : Int) - start.log.count .attempted = w.shared.mintAcc / 1000 - start.shared.mintAcc / 1000

/-- One addition crosses the boundary that the quotients say. -/
theorem carried_accumulate {r before : Int} (hpos : 0 < r) (hlt : r < 1000) (hbefore : 0 ≤ before) (hbound : before + r < 2 ^ 63) :
    wrapI64 (before + r) = before + r ∧
      (if (before + r).tdiv 1000 > before.tdiv 1000 then 1 else 0 : Int) = (before + r) / 1000 - before / 1000 := by
  have hwrap : wrapI64 (before + r) = before + r := by
    unfold wrapI64
    omega
  refine ⟨hwrap, ?_⟩
  rw [Int.tdiv_eq_ediv_of_nonneg hbefore, Int.tdiv_eq_ediv_of_nonneg (show 0 ≤ before + r by omega)]
  split <;> omega

theorem carried_advance {r : Int} (hpos : 0 < r) (hlt : r < 1000) (hratio : g.mintPermille = r)
    (hread : ∀ permille, p = .accumulate permille → permille = r ∧ 0 ≤ g.mintAcc ∧ g.mintAcc + permille < 2 ^ 63)
    (hadv : advance spurious g p = (g', p', effects)) :
    g'.mintAcc = g.mintAcc + r * accumulations effects ∧ (effects.count .attempted : Int) = g'.mintAcc / 1000 - g.mintAcc / 1000 := by
  have hquiet : g'.mintAcc = g.mintAcc → accumulations effects = 0 → effects.count .attempted = 0 →
      g'.mintAcc = g.mintAcc + r * accumulations effects ∧
        (effects.count .attempted : Int) = g'.mintAcc / 1000 - g.mintAcc / 1000 := by
    intro hacc haccumulations hattempts
    rw [hacc, haccumulations, hattempts]
    simp
  cases p with
  | count =>
    cases hadv
    exact hquiet rfl rfl rfl
  | ratio =>
    simp only [advance] at hadv
    rw [if_neg (by omega), if_neg (by omega)] at hadv
    cases hadv
    exact hquiet rfl rfl rfl
  | accumulate permille =>
    obtain ⟨rfl, hnonneg, hbound⟩ := hread permille rfl
    obtain ⟨hwrap, hcrossed⟩ := carried_accumulate hpos hlt hnonneg hbound
    simp only [advance, hwrap] at hadv
    split at hadv
    · next hcross =>
      rw [if_pos hcross] at hcrossed
      cases hadv
      have hone : accumulations [.accumulated permille, .attempted] = 1 := rfl
      exact ⟨by simp [hone], by simpa using hcrossed⟩
    · next hcross =>
      rw [if_neg hcross] at hcrossed
      cases hadv
      have hone : accumulations [.accumulated permille] = 1 := rfl
      exact ⟨by simp [hone], by simpa using hcrossed⟩
  | mint =>
    cases hadv
    exact hquiet rfl rfl rfl
  | mintExchange cur =>
    simp only [advance] at hadv
    split at hadv <;> cases hadv <;> exact hquiet rfl rfl rfl
  | take want =>
    simp only [advance] at hadv
    split at hadv <;> cases hadv <;> exact hquiet rfl rfl rfl
  | takeExchange want cur =>
    simp only [advance] at hadv
    split at hadv <;> cases hadv <;> exact hquiet rfl rfl rfl
  | store permille =>
    cases hadv
    exact hquiet rfl rfl rfl
  | refill =>
    cases hadv
    exact hquiet rfl rfl rfl
  | returned credits =>
    cases hadv
    exact hquiet rfl rfl rfl

theorem Carried.step {r : Int} (hpos : 0 < r) (hlt : r < 1000) {start w : World} {a : Action Request Bool} (hheld : Held r w a)
    (h : Carried r start w) : Carried r start (bucket.step w a) := by
  cases a with
  | call c => exact ⟨h.added, h.crossed⟩
  | advance i spurious =>
    cases hp : w.calls[i]? with
    | none => rwa [step_idle hp]
    | some p =>
      obtain ⟨g', p', effects, hadv⟩ : ∃ g' p' effects, advance spurious w.shared p = (g', p', effects) := ⟨_, _, _, rfl⟩
      obtain ⟨hadded, hcrossed⟩ := carried_advance hpos hlt hheld.ratio (fun permille hperm => hheld.read i spurious permille rfl (hperm ▸ hp)) hadv
      rw [step_advance hp hadv]
      constructor
      · change g'.mintAcc = _ + r * ((accumulations (w.log ++ effects) : Nat) - _)
        rw [hadded, h.added, accumulations_append]
        push_cast
        ring
      · have hold := h.crossed
        change ((w.log ++ effects).count .attempted : Int) - _ = g'.mintAcc / 1000 - _
        rw [List.count_append]
        push_cast
        omega

/-- Between two worlds, the attempts to mint are what the ratio makes of `n` completions, to less than one. -/
def Metered (r n : Int) (w w' : World) : Prop :=
  |1000 * ((w'.log.count .attempted : Int) - w.log.count .attempted) - r * n| < 1000

theorem metered_of_held {r : Int} (hpos : 0 < r) (hlt : r < 1000) {w : World} {actions : List (Action Request Bool)}
    (h : bucket.Throughout (Held r) w actions) :
    Metered r (accumulations (bucket.run w actions).log - accumulations w.log) w (bucket.run w actions) := by
  have hcarried : Carried r w (bucket.run w actions) :=
    throughout_run (fun w' a hheld hcarried => hcarried.step hpos hlt hheld) h ⟨by simp, by simp⟩
  have hadded := hcarried.added
  have hcrossed := hcarried.crossed
  rw [Metered, abs_lt]
  omega

/-! ## The decisions -/

theorem observe_halted {m m' : DrainStateMachine} {s : DrainSample} {d : DrainDecision} (h : m.observe s = some (m', d))
    (hhalted : d.halted = true) : d.metering = true ∧ d.mintPermille = 0 := by
  unfold DrainStateMachine.observe at h
  split at h
  · cases h
    cases hhalted
  · obtain ⟨permille, hpermille, heq⟩ := Option.map_eq_some_iff.mp h
    cases heq
    have hnext : ∀ (m : DrainStateMachine) stalled recovered, (m.valve stalled recovered).halted = true →
        (m.valve stalled recovered).metering = true := by
      intro m stalled recovered hhalted
      change (m.metering || (m.valve stalled recovered).halted) = true
      rw [hhalted, Bool.or_true]
    rw [if_pos hhalted] at hpermille
    exact ⟨hnext _ _ _ hhalted, (Option.some.inj hpermille).symm⟩

theorem decisions_halted {m : DrainStateMachine} {samples : List DrainSample} {d : DrainDecision} (hd : d ∈ m.decisions samples)
    (hhalted : d.halted = true) : d.metering = true ∧ d.mintPermille = 0 := by
  induction samples generalizing m with
  | nil => cases hd
  | cons s samples ih =>
    unfold DrainStateMachine.decisions at hd
    split at hd
    · cases hd
    · next m' d' hobserve =>
      rcases List.mem_cons.mp hd with rfl | hd
      · exact observe_halted hobserve hhalted
      · exact ih hd

/-- In every interleaving of calls on a guard: the bucket is between empty and full, the credits granted since it was full are at most
what it holds and what has been minted since, no more tokens are minted than completions noted, and the attempts to mint follow a ratio
that is held. The valve is never reported without metering, and nothing is minted under it. -/
theorem bucket_right (cfg : DrainGuardCfg) (actions : List (Action Request Bool)) :
    let w := bucket.run (World.new cfg) actions
    (0 ≤ w.shared.budget ∧ w.shared.budget ≤ cfg.burst) ∧
      (∀ before after, w.log = before ++ after → (before = [] ∨ before.getLast? = some .refilled) → .refilled ∉ after →
        granted after ≤ cfg.burst + after.count .minted) ∧
      w.log.count .minted ≤ w.log.count .noted ∧
      (∀ r more, 0 < r → r < 1000 → bucket.Throughout (Held r) w more →
        Metered r (accumulations (bucket.run w more).log - accumulations w.log) w (bucket.run w more)) ∧
      ∀ samples, ∀ d ∈ (DrainStateMachine.mk cfg false false 0 0 0 0).decisions samples, d.halted = true →
        d.metering = true ∧ d.mintPermille = 0 := by
  have hlevel := level_run cfg actions
  refine ⟨⟨hlevel.nonneg, hlevel.le⟩, ?_, minted_le_noted cfg actions, ?_, ?_⟩
  · intro before after hlog hfull hsince
    rw [hlog] at hlevel
    exact granted_since hlevel hfull hsince
  · exact fun r more hpos hlt hheld => metered_of_held hpos hlt hheld
  · exact fun samples d hd hhalted => decisions_halted hd hhalted

/-! ## Completions that do not add the ratio -/

/-- A completion from its call to its addition. -/
def completion (i : Nat) : List (Action Request Bool) := [.call .noteCompletion, .advance i false, .advance i false, .advance i false]

def completions (i : Nat) : Nat → List (Action Request Bool)
  | 0 => []
  | n + 1 => completions i n ++ completion (i + n)

/-- The ratio is stored, and completions add it. -/
def Read (r : Int) (w : World) (a : Action Request Bool) : Prop :=
  w.shared.mintPermille = r ∧
    ∀ i spurious permille, a = .advance i spurious → w.calls[i]? = some (.accumulate permille) → permille = r

theorem getElem?_concat_length {α : Type} (l : List α) (a : α) : (l ++ [a])[l.length]? = some a := by simp

theorem set_concat_length {α : Type} (l : List α) (a b : α) : (l ++ [a]).set l.length b = l ++ [b] := by simp

/-- A completion that meets no other. -/
theorem run_completion {w : World} (hpos : 0 < w.shared.mintPermille) (hlt : w.shared.mintPermille < 1000) :
    bucket.Throughout (Read w.shared.mintPermille) w (completion w.calls.length) ∧
    ∃ p, bucket.run w (completion w.calls.length) =
      ⟨{ w.shared with
          completions := (w.shared.completions + 1) % 2 ^ 64
          mintAcc := wrapI64 (w.shared.mintAcc + w.shared.mintPermille) },
        w.calls ++ [p],
        w.log ++ [Effect.noted] ++ (Effect.accumulated w.shared.mintPermille ::
          if (wrapI64 (w.shared.mintAcc + w.shared.mintPermille)).tdiv 1000 > w.shared.mintAcc.tdiv 1000 then [Effect.attempted] else [])⟩ := by
  obtain ⟨g, calls, log⟩ := w
  have hratio : ∀ completions, advance false { g with completions := completions } .ratio =
      ({ g with completions := completions }, .accumulate g.mintPermille, []) := by
    intro completions
    simp only [advance]
    rw [if_neg (by simpa using hlt), if_neg (by simpa using hpos)]
  have h₁ : bucket.step ⟨g, calls, log⟩ (.call .noteCompletion) = ⟨g, calls ++ [Point.count], log⟩ := rfl
  have h₂ : bucket.step ⟨g, calls ++ [Point.count], log⟩ (.advance calls.length false) =
      ⟨{ g with completions := (g.completions + 1) % 2 ^ 64 }, calls ++ [Point.ratio], log ++ [Effect.noted]⟩ := by
    rw [step_advance (getElem?_concat_length _ _) rfl, set_concat_length]
    rfl
  have h₃ : bucket.step ⟨{ g with completions := (g.completions + 1) % 2 ^ 64 }, calls ++ [Point.ratio], log ++ [Effect.noted]⟩
      (.advance calls.length false) =
      ⟨{ g with completions := (g.completions + 1) % 2 ^ 64 }, calls ++ [Point.accumulate g.mintPermille], log ++ [Effect.noted]⟩ := by
    rw [step_advance (getElem?_concat_length _ _) (hratio _), set_concat_length, List.append_nil]
  constructor
  · refine ⟨⟨rfl, fun i spurious permille ha => nomatch ha⟩, ?_⟩
    rw [h₁]
    refine ⟨⟨rfl, fun i spurious permille ha hp => ?_⟩, ?_⟩
    · cases ha
      rw [getElem?_concat_length] at hp
      cases hp
    rw [h₂]
    refine ⟨⟨rfl, fun i spurious permille ha hp => ?_⟩, ?_⟩
    · cases ha
      rw [getElem?_concat_length] at hp
      cases hp
    rw [h₃]
    refine ⟨⟨rfl, fun i spurious permille ha hp => ?_⟩, trivial⟩
    cases ha
    rw [getElem?_concat_length] at hp
    cases hp
    rfl
  · dsimp only [completion]
    rw [run_cons, h₁, run_cons, h₂, run_cons, h₃, run_cons, run_nil]
    split
    · next hcross =>
      refine ⟨.mint, ?_⟩
      have hadv : ∀ completions, advance false { g with completions := completions } (.accumulate g.mintPermille) =
          ({ g with completions := completions, mintAcc := wrapI64 (g.mintAcc + g.mintPermille) }, .mint,
            [.accumulated g.mintPermille, .attempted]) := fun _ => if_pos hcross
      rw [step_advance (getElem?_concat_length _ _) (hadv _), set_concat_length]
    · next hcross =>
      refine ⟨.returned 0, ?_⟩
      have hadv : ∀ completions, advance false { g with completions := completions } (.accumulate g.mintPermille) =
          ({ g with completions := completions, mintAcc := wrapI64 (g.mintAcc + g.mintPermille) }, .returned 0,
            [.accumulated g.mintPermille]) := fun _ => if_neg hcross
      rw [step_advance (getElem?_concat_length _ _) (hadv _), set_concat_length]

/-- What 2^60 and some completions do at a ratio of 8: with the last of 2^60 the accumulator wraps around. -/
structure Wrapping (n : Nat) (w : World) : Prop where
  length : w.calls.length = n + 1
  ratio : w.shared.mintPermille = 8
  count : accumulations w.log = n
  below : n < 2 ^ 60 → w.shared.mintAcc = 8 * n ∧ w.log.count .attempted = 8 * n / 1000
  above : 2 ^ 60 ≤ n → n ≤ 2 ^ 60 + 100 → w.shared.mintAcc = 8 * n - 2 ^ 64 ∧ w.log.count .attempted = 9223372036854775

theorem Wrapping.step {n : Nat} {w : World} (h : Wrapping n w) :
    bucket.Throughout (Read 8) w (completion (1 + n)) ∧ Wrapping (n + 1) (bucket.run w (completion (1 + n))) := by
  have hratio := h.ratio
  obtain ⟨hread, p, hrun⟩ := run_completion (w := w) (by omega) (by omega)
  rw [h.length, h.ratio, Nat.add_comm n 1] at hread hrun
  refine ⟨hread, ?_⟩
  have hbelow := h.below
  have habove := h.above
  have hcount := h.count
  generalize hattempts : List.count Effect.attempted w.log = attempts at hbelow habove
  rw [hrun]
  constructor
  · simp [h.length]
  · exact h.ratio
  · simp only
    rw [accumulations_append, accumulations_append, hcount]
    split <;> rfl
  · intro hn
    obtain ⟨hacc, hatt⟩ := hbelow (by omega)
    have hwrap : wrapI64 (8 * n + 8) = 8 * n + 8 := by
      unfold wrapI64
      omega
    simp only [hacc, hwrap]
    refine ⟨by push_cast; ring, ?_⟩
    rw [List.count_append, List.count_append, hattempts, Int.tdiv_eq_ediv_of_nonneg (by omega), Int.tdiv_eq_ediv_of_nonneg (by omega)]
    split
    · simp
      omega
    · simp
      omega
  · intro hfrom hupto
    -- the sum is below nothing, and stays within one boundary
    have hafter : (8 * (n + 1 : Int) - 2 ^ 64).tdiv 1000 = -9223372036854775 := by
      rw [show 8 * (n + 1 : Int) - 2 ^ 64 = -(2 ^ 64 - 8 * (n + 1)) by ring, Int.neg_tdiv, Int.tdiv_eq_ediv_of_nonneg (by omega)]
      omega
    have hbefore : wrapI64 (w.shared.mintAcc + 8) = 8 * (n + 1) - 2 ^ 64 ∧ -9223372036854775 ≤ w.shared.mintAcc.tdiv 1000 ∧
        attempts = 9223372036854775 := by
      by_cases hn : n < 2 ^ 60
      · obtain ⟨hacc, hatt⟩ := hbelow hn
        rw [hacc, Int.tdiv_eq_ediv_of_nonneg (by omega), wrapI64]
        exact ⟨by omega, by omega, by omega⟩
      · obtain ⟨hacc, hatt⟩ := habove (by omega) (by omega)
        rw [hacc, show 8 * (n : Int) - 2 ^ 64 = -(2 ^ 64 - 8 * n) by ring, Int.neg_tdiv, Int.tdiv_eq_ediv_of_nonneg (by omega),
          wrapI64]
        exact ⟨by omega, by omega, hatt⟩
    obtain ⟨hwrap, hquotient, hatt⟩ := hbefore
    simp only [hwrap, hafter]
    refine ⟨by push_cast; ring, ?_⟩
    rw [if_neg (not_lt.mpr hquotient), List.count_append, List.count_append, hattempts, hatt]
    simp

theorem wrapping_run {w : World} (h : Wrapping 0 w) (n : Nat) :
    bucket.Throughout (Read 8) w (completions 1 n) ∧ Wrapping n (bucket.run w (completions 1 n)) := by
  induction n with
  | zero => exact ⟨trivial, h⟩
  | succ n ih =>
    obtain ⟨hread, hnext⟩ := ih.2.step
    exact ⟨(throughout_append _ _ _).mpr ⟨ih.1, hread⟩, by rw [completions, run_append]; exact hnext⟩

/-- The ratio is 999 when completions 1 to 3 read it, and then 1. -/
def changed : List (Action Request Bool) :=
  [Action.call (Request.setMintPermille 999), .advance 0 false] ++
    [1, 2, 3].flatMap (fun i => [Action.call Request.noteCompletion, .advance i false, .advance i false]) ++
    [Action.call (Request.setMintPermille 1), .advance 4 false]

/-- Completions 5 to 7 are noted and read 1. They add it in turn with completions 1 to 3. -/
def stale : List (Action Request Bool) :=
  [5, 6, 7].flatMap (fun i => [Action.call Request.noteCompletion, .advance i false, .advance i false]) ++
    [1, 2, 3].flatMap fun i => [Action.advance i false, .advance (i + 4) false]

/-- With the ratio held at 1, three completions mint three times, since others add an older ratio; and at 8 the attempts fall behind
where the accumulator wraps around. -/
theorem ratio_missed :
    (let w := bucket.run (World.new {}) changed
     bucket.Throughout (fun w _ => w.shared.mintPermille = 1) w stale ∧
        ((bucket.run w stale).log.count .noted : Int) - w.log.count .noted = 3 ∧ ¬ Metered 1 3 w (bucket.run w stale) ∧
        ¬ Metered 1 (accumulations (bucket.run w stale).log - accumulations w.log) w (bucket.run w stale)) ∧
      ∃ actions more, bucket.Throughout (Read 8) (bucket.run (World.new {}) actions) more ∧
        let w := bucket.run (World.new {}) actions
        ¬ Metered 8 (accumulations (bucket.run w more).log - accumulations w.log) w (bucket.run w more) := by
  constructor
  · have hstretch : bucket.Throughout (fun w _ => w.shared.mintPermille = 1) (bucket.run (World.new {}) changed) stale := by
      decide +kernel
    have hcounts : let w := bucket.run (World.new {}) changed
        w.log.count .noted = 3 ∧ w.log.count .attempted = 0 ∧ accumulations w.log = 0 ∧ (bucket.run w stale).log.count .noted = 6 ∧
          (bucket.run w stale).log.count .attempted = 3 ∧ accumulations (bucket.run w stale).log = 6 := by
      decide +kernel
    obtain ⟨hnoted, hattempted, hadded, hnoted', hattempted', hadded'⟩ := hcounts
    intro w
    refine ⟨hstretch, ?_, ?_, ?_⟩
    · rw [hnoted, hnoted']
      rfl
    · rw [Metered, hattempted, hattempted']
      decide
    · rw [Metered, hattempted, hattempted', hadded, hadded']
      decide
  · have hstart : Wrapping 0 (bucket.run (World.new {}) [.call (.setMintPermille 8), .advance 0 false]) :=
      ⟨rfl, rfl, rfl, fun _ => ⟨rfl, rfl⟩, fun h => absurd h (by decide)⟩
    obtain ⟨n, hn⟩ : ∃ n, n = 2 ^ 60 + 100 := ⟨_, rfl⟩
    obtain ⟨hread, hend⟩ := wrapping_run hstart n
    refine ⟨_, _, hread, ?_⟩
    intro w hmetered
    have hattempts := (hend.above (by omega) (by omega)).2
    have hzero : w.log.count .attempted = 0 := rfl
    rw [Metered, hend.count, hattempts, hstart.count, hzero, abs_lt] at hmetered
    omega

end Drain

end NanoBpm
