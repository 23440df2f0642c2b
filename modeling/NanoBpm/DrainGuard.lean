import NanoBpm.Lib.Interleaving
import NanoBpm.Lib.Float64
import NanoBpm.Feel.Temporal

/-!
# The drain-stall guard (`nano-server-runtime/src/drain_guard.rs`)

| here | there |
| --- | --- |
| `DrainGuard` | the atomics of the token bucket (`drain_guard.rs:218`) |
| `Point`, `bucket` | `note_completion`, `take_credits`, `set_mint_permille` and `refill_full`, one atomic operation a step |
| `Effect` | what a step does to the bucket: the log that the results are about |
| `DrainStateMachine.observe` | `observe` (`drain_guard.rs:483`) |

`compare_exchange_weak` may fail for no reason: that is the choice a step has. `fetch_add` wraps around, and so does a sum in the
release build.
-/

namespace NanoBpm

namespace Drain

open FeelExpr (wrapI64)
open Interleaving

/-- `DrainGuardCfg`, as `from_env` resolves it: it takes a burst only if it is positive. -/
structure DrainGuardCfg where
  enabled : Bool := true
  meterEngageBacklog : Int := 5000
  meterReleaseBacklog : Int := 2000
  meterEngageTicks : Nat := 2
  meterReleaseTicks : Nat := 3
  meterEngageFracPct : Nat := 75
  meterReleaseFracPct : Nat := 50
  burst : Int := 4000
  burst_pos : 0 < burst := by decide
  drainMintFloorPermille : Int := 50
  haltCompletesFloor : UInt64 := F64.ofInt 1
  recoverCompletesRate : UInt64 := F64.ofInt 10
  haltMinBacklog : Int := 2000
  haltArmMultPct : Nat := 400
  haltEngageTicks : Nat := 3
  haltReleaseTicks : Nat := 2

/-! ## The token bucket -/

structure DrainGuard where
  completions : Nat
  budget : Int
  mintPermille : Int
  mintAcc : Int
  capacity : Int
deriving DecidableEq, Repr

/-- `DrainGuard::new`. -/
def DrainGuard.new (cfg : DrainGuardCfg) : DrainGuard where
  completions := 0
  budget := cfg.burst
  mintPermille := 1000
  mintAcc := 0
  capacity := cfg.burst

/-- The calls on a guard. -/
inductive Request where
  | noteCompletion
  | takeCredits (want : Int)
  | setMintPermille (permille : Int)
  | refillFull
deriving DecidableEq, Repr

/-- Where a call is: the atomic operation it does next, with the values it has read. -/
inductive Point where
  /-- `completions.fetch_add` -/
  | count
  /-- `mint_permille.load` -/
  | ratio
  /-- `mint_acc.fetch_add` -/
  | accumulate (permille : Int)
  /-- `budget.load` of `mint_one` -/
  | mint
  /-- `compare_exchange_weak` of `mint_one` -/
  | mintExchange (cur : Int)
  /-- `budget.load` of `take_credits` -/
  | take (want : Int)
  /-- `compare_exchange_weak` of `take_credits` -/
  | takeExchange (want cur : Int)
  | store (permille : Int)
  | refill
  | returned (credits : Int)
deriving DecidableEq, Repr

inductive Effect where
  /-- A completion has been noted. -/
  | noted
  /-- A completion has added what it read of the ratio. -/
  | accumulated (permille : Int)
  /-- `mint_one` is called. -/
  | attempted
  | minted
  | granted (credits : Int)
  | refilled
deriving DecidableEq, Repr

def Request.entry : Request → Point
  | .noteCompletion => .count
  | .takeCredits want => .take want
  | .setMintPermille permille => .store permille
  | .refillFull => .refill

/-- The head of the loop of `mint_one`. -/
def mintLoop (cap cur : Int) : Point := if cur < cap then .mintExchange cur else .returned 0

/-- The head of the loop of `take_credits`. -/
def takeLoop (want cur : Int) : Point := if cur ≤ 0 then .returned 0 else .takeExchange want cur

/-- One atomic operation of a call, and what it computes until the next. -/
def advance (spurious : Bool) (g : DrainGuard) : Point → DrainGuard × Point × List Effect
  | .count => ({ g with completions := (g.completions + 1) % 2 ^ 64 }, .ratio, [.noted])
  | .ratio =>
    if g.mintPermille ≥ 1000 then (g, .mint, [.attempted])
    else if g.mintPermille ≤ 0 then (g, .returned 0, [])
    else (g, .accumulate g.mintPermille, [])
  | .accumulate permille =>
    let before := g.mintAcc
    let after := wrapI64 (before + permille)
    if after.tdiv 1000 > before.tdiv 1000 then ({ g with mintAcc := after }, .mint, [.accumulated permille, .attempted])
    else ({ g with mintAcc := after }, .returned 0, [.accumulated permille])
  | .mint => (g, mintLoop g.capacity g.budget, [])
  | .mintExchange cur =>
    if g.budget = cur ∧ !spurious then ({ g with budget := cur + 1 }, .returned 0, [.minted])
    else (g, mintLoop g.capacity g.budget, [])
  | .take want => if want ≤ 0 then (g, .returned 0, []) else (g, takeLoop want g.budget, [])
  | .takeExchange want cur =>
    let grant := min want cur
    if g.budget = cur ∧ !spurious then ({ g with budget := cur - grant }, .returned grant, [.granted grant])
    else (g, takeLoop want g.budget, [])
  | .store permille => ({ g with mintPermille := max 0 (min permille 1000) }, .returned 0, [])
  | .refill => ({ g with budget := g.capacity }, .returned 0, [.refilled])
  | .returned credits => (g, .returned credits, [])

/-- Calls on a guard, interleaved. -/
def bucket : Program DrainGuard Point Effect Bool Request where
  entry := Request.entry
  advance := advance

abbrev World := Interleaving.World DrainGuard Point Effect

def World.new (cfg : DrainGuardCfg) : World := { shared := DrainGuard.new cfg }

/-! ## The decisions -/

/-- `DrainSample`. -/
structure DrainSample where
  completesPerSec : UInt64
  backlog : Int
  backlogCap : Int
  actorAlive : Bool
deriving DecidableEq, Repr

/-- `DrainDecision`. -/
structure DrainDecision where
  metering : Bool
  halted : Bool
  mintPermille : Int
deriving DecidableEq, Repr

/-- `DrainStateMachine`. -/
structure DrainStateMachine where
  cfg : DrainGuardCfg
  metering : Bool := false
  halted : Bool := false
  meterEngageTicks : Nat := 0
  meterReleaseTicks : Nat := 0
  haltStallTicks : Nat := 0
  haltRecoverTicks : Nat := 0

/-- `saturating_add(1)` on a `u32`. -/
def tick (n : Nat) : Nat := min (n + 1) 4294967295

/-- `cap * pct / 100`, cut to an `i64`. -/
def percentOf (cap : Int) (pct : Nat) : Int := wrapI64 ((cap * pct).tdiv 100)

/-- `a <= b` on `f64`. -/
def leF64 (a b : UInt64) : Bool := (F64.cmp a b).any (· != .gt)

namespace DrainStateMachine

/-- The levels at which the servo engages and releases and from which the valve may arm. -/
def levels (cfg : DrainGuardCfg) (backlogCap : Int) : Int × Int × Int :=
  if backlogCap > 0 then
    (percentOf backlogCap cfg.meterEngageFracPct, percentOf backlogCap cfg.meterReleaseFracPct,
      max (percentOf backlogCap cfg.haltArmMultPct) cfg.haltMinBacklog)
  else (cfg.meterEngageBacklog, cfg.meterReleaseBacklog, cfg.haltMinBacklog)

/-- The soft throttle. -/
def throttle (m : DrainStateMachine) (backlog engageLevel releaseLevel : Int) : DrainStateMachine :=
  if !m.metering then
    let engage := if backlog ≥ engageLevel then tick m.meterEngageTicks else 0
    if engage ≥ m.cfg.meterEngageTicks then { m with meterEngageTicks := engage, metering := true, meterReleaseTicks := 0 }
    else { m with meterEngageTicks := engage }
  else
    let release := if backlog ≤ releaseLevel then tick m.meterReleaseTicks else 0
    if release ≥ m.cfg.meterReleaseTicks then { m with meterReleaseTicks := release, metering := false, meterEngageTicks := 0 }
    else { m with meterReleaseTicks := release }

/-- The hard valve: it asserts metering. -/
def valve (m : DrainStateMachine) (stalled recovered : Bool) : DrainStateMachine :=
  let stall := if stalled then tick m.haltStallTicks else 0
  let recover := if recovered then tick m.haltRecoverTicks else 0
  let halted := if !m.halted then stall ≥ m.cfg.haltEngageTicks else !(recover ≥ m.cfg.haltReleaseTicks)
  { m with haltStallTicks := stall, haltRecoverTicks := recover, halted := halted, metering := m.metering || halted }

/-- `ratio.clamp(floor, 1000)` panics for a floor above 1000. -/
def drainDown (floor backlogCap backlog : Int) : Option Int :=
  if floor > 1000 then none else some (max floor (min (wrapI64 ((backlogCap * 1000).tdiv backlog)) 1000))

/-- `observe`. -/
def observe (m : DrainStateMachine) (s : DrainSample) : Option (DrainStateMachine × DrainDecision) :=
  if !m.cfg.enabled then some (m, ⟨false, false, 1000⟩)
  else
    let (engageLevel, releaseLevel, haltMin) := levels m.cfg s.backlogCap
    let throttled := m.throttle s.backlog engageLevel releaseLevel
    let stalled := leF64 s.completesPerSec m.cfg.haltCompletesFloor && s.actorAlive && s.backlog ≥ haltMin
    let recovered := leF64 m.cfg.recoverCompletesRate s.completesPerSec
    let next := throttled.valve stalled recovered
    let mintPermille :=
      if next.halted then some 0
      else if next.metering && s.backlogCap > 0 && s.backlog > s.backlogCap then
        drainDown m.cfg.drainMintFloorPermille s.backlogCap s.backlog
      else some 1000
    mintPermille.map fun permille => (next, ⟨next.metering, next.halted, permille⟩)

/-- The decisions on a sequence of samples, up to one that panics. -/
def decisions (m : DrainStateMachine) : List DrainSample → List DrainDecision
  | [] => []
  | s :: samples =>
    match m.observe s with
    | none => []
    | some (m, d) => d :: m.decisions samples

end DrainStateMachine

end Drain

end NanoBpm
