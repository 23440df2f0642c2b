import NanoBpm.Event

/-!
# Read-model catch-up at boot (`seglog.rs:2253-2458`, `read-model/src/store.rs:1846-2118`)

A read-model shard holds rows and an absolute cursor, the number of journal events it has projected. At boot
the cursor is compared with the surviving window `[floor, floor + surviving)` of the journal: inside it the
projection resumes, ahead of it the shard is rebuilt from what survives, below it the missing events were
compacted away and the shard is reprojected from the engine's state, or boot is refused.

The rows and what SQL writes into them are a parameter. A result for every `Projection` says which events are
projected, how often and in which order: the list of projected events is itself one.
-/

namespace NanoBpm

namespace Seglog

variable {Rows : Type}

/-- What the read model writes (`project`, `project_engine_state`, `replay_terminal_archive`). -/
structure Projection (Rows : Type) where
  /-- The tables of a fresh schema. -/
  empty : Rows
  project : Rows → Event → Rows
  projectEngineState : Rows → State → Rows
  /-- Best effort: where the archive cannot be read, the identity. -/
  replayTerminalArchive : Rows → Rows

structure ReadStore (Rows : Type) where
  rows : Rows
  exportedPosition : Nat
deriving DecidableEq

namespace ReadStore

/-- `export`: one transaction over a batch of consecutive events. -/
def exportEvents (R : Projection Rows) (events : List Event) (s : ReadStore Rows) : ReadStore Rows :=
  { rows := events.foldl R.project s.rows, exportedPosition := s.exportedPosition + events.length }

def advanceExported (n : Nat) (s : ReadStore Rows) : ReadStore Rows :=
  { s with exportedPosition := s.exportedPosition + n }

/-- `reset`: every table is dropped and the cursor is 0 again. -/
def reset (R : Projection Rows) : ReadStore Rows := { rows := R.empty, exportedPosition := 0 }

def seedFromEngineState (R : Projection Rows) (state : State) (s : ReadStore Rows) : ReadStore Rows :=
  { s with rows := R.projectEngineState s.rows state }

end ReadStore

/-! ## The plan -/

inductive CatchUpPlan where
  | resume (skip : Nat)
  | rebuildFromSurviving
  | compactedGap (missing : Nat)
deriving DecidableEq

/-- `plan_catch_up`. Positions are event counts, far from the bound of `saturating_add`. -/
def planCatchUp (exported floor surviving : Nat) : CatchUpPlan :=
  if exported < floor then .compactedGap (floor - exported)
  else if exported > floor + surviving then .rebuildFromSurviving
  else .resume (exported - floor)

/-- At the end of the log the plan is to resume with nothing left to project. -/
@[simp] theorem planCatchUp_end (floor surviving : Nat) :
    planCatchUp (floor + surviving) floor surviving = .resume surviving := by
  unfold planCatchUp
  rw [if_neg (by omega), if_neg (by omega), Nat.add_sub_cancel_left]

/-! ## Catch-up -/

/-- `rebuild_from_surviving_tail`: the cursor is planted at the floor before the tail is projected. -/
def rebuildFromSurvivingTail (R : Projection Rows) (floor : Nat) (surviving : List Event) : ReadStore Rows :=
  let shard := ReadStore.reset R
  let shard := if floor > 0 then shard.advanceExported floor else shard
  if surviving.isEmpty then shard else shard.exportEvents R surviving

/-- `reseed_from_engine_state`. -/
def reseedFromEngineState (R : Projection Rows) (total : Nat) (state : State) : ReadStore Rows :=
  let shard := (ReadStore.reset R).seedFromEngineState R state
  let shard := { shard with rows := R.replayTerminalArchive shard.rows }
  if total > 0 then shard.advanceExported total else shard

/-- The panic of a boot below the floor with nothing to reproject from. -/
structure BelowFloor where
  exported : Nat
  floor : Nat
  missing : Nat
deriving DecidableEq

/-- `catch_up_shard`. `lossy`: `NANOBPMN_READ_MODEL_LOSSY_REBUILD` is set. -/
def catchUpShard (R : Projection Rows) (lossy : Bool) (shard : ReadStore Rows) (floor : Nat)
    (surviving : List Event) (reseedState : Option State) : Except BelowFloor (ReadStore Rows) :=
  match planCatchUp shard.exportedPosition floor surviving.length with
  | .resume skip =>
    if skip < surviving.length then .ok (shard.exportEvents R (surviving.drop skip)) else .ok shard
  | .rebuildFromSurviving => .ok (rebuildFromSurvivingTail R floor surviving)
  | .compactedGap missing =>
    match reseedState with
    | some state => .ok (reseedFromEngineState R (floor + surviving.length) state)
    | none =>
      if lossy then .ok (rebuildFromSurvivingTail R floor surviving)
      else .error ⟨shard.exportedPosition, floor, missing⟩

theorem rebuildFromSurvivingTail_eq (R : Projection Rows) (floor : Nat) (surviving : List Event) :
    rebuildFromSurvivingTail R floor surviving =
      ⟨surviving.foldl R.project R.empty, floor + surviving.length⟩ := by
  have hfloor : (if floor > 0 then (ReadStore.reset R).advanceExported floor else ReadStore.reset R) =
      ⟨R.empty, floor⟩ := by
    split
    · simp [ReadStore.reset, ReadStore.advanceExported]
    · obtain rfl : floor = 0 := by omega
      rfl
  unfold rebuildFromSurvivingTail
  dsimp only
  rw [hfloor]
  cases surviving with
  | nil => rfl
  | cons e es => rfl

theorem reseedFromEngineState_eq (R : Projection Rows) (total : Nat) (state : State) :
    reseedFromEngineState R total state =
      ⟨R.replayTerminalArchive (R.projectEngineState R.empty state), total⟩ := by
  unfold reseedFromEngineState
  dsimp only
  split
  · simp [ReadStore.reset, ReadStore.seedFromEngineState, ReadStore.advanceExported]
  · obtain rfl : total = 0 := by omega
    rfl

/-- A resumed shard projects exactly the events from its cursor on. -/
theorem catchUpShard_resume (R : Projection Rows) (lossy : Bool) {shard : ReadStore Rows} {floor : Nat}
    {surviving : List Event} (reseedState : Option State) (hfloor : floor ≤ shard.exportedPosition)
    (hend : shard.exportedPosition ≤ floor + surviving.length) :
    catchUpShard R lossy shard floor surviving reseedState =
      .ok ⟨(surviving.drop (shard.exportedPosition - floor)).foldl R.project shard.rows,
        floor + surviving.length⟩ := by
  have hplan : planCatchUp shard.exportedPosition floor surviving.length =
      .resume (shard.exportedPosition - floor) := by
    unfold planCatchUp
    rw [if_neg (by omega), if_neg (by omega)]
  simp only [catchUpShard, hplan]
  split
  · have hlen : shard.exportedPosition + (surviving.drop (shard.exportedPosition - floor)).length =
        floor + surviving.length := by
      rw [List.length_drop]
      omega
    rw [ReadStore.exportEvents, hlen]
  · have hall : shard.exportedPosition = floor + surviving.length := by omega
    rw [List.drop_of_length_le (by omega), List.foldl_nil, ← hall]

theorem catchUpShard_ahead (R : Projection Rows) (lossy : Bool) {shard : ReadStore Rows} {floor : Nat}
    {surviving : List Event} (reseedState : Option State) (h : floor + surviving.length < shard.exportedPosition) :
    catchUpShard R lossy shard floor surviving reseedState =
      .ok ⟨surviving.foldl R.project R.empty, floor + surviving.length⟩ := by
  have hplan : planCatchUp shard.exportedPosition floor surviving.length = .rebuildFromSurviving := by
    unfold planCatchUp
    rw [if_neg (by omega), if_pos h]
  simp only [catchUpShard, hplan, rebuildFromSurvivingTail_eq]

theorem catchUpShard_below (R : Projection Rows) (lossy : Bool) {shard : ReadStore Rows} {floor : Nat}
    {surviving : List Event} (reseedState : Option State) (h : shard.exportedPosition < floor) :
    catchUpShard R lossy shard floor surviving reseedState =
      match reseedState with
      | some state =>
        .ok ⟨R.replayTerminalArchive (R.projectEngineState R.empty state), floor + surviving.length⟩
      | none =>
        if lossy then .ok ⟨surviving.foldl R.project R.empty, floor + surviving.length⟩
        else .error ⟨shard.exportedPosition, floor, floor - shard.exportedPosition⟩ := by
  have hplan : planCatchUp shard.exportedPosition floor surviving.length =
      .compactedGap (floor - shard.exportedPosition) := by
    unfold planCatchUp
    rw [if_pos h]
  simp only [catchUpShard, hplan, rebuildFromSurvivingTail_eq, reseedFromEngineState_eq]

/-! ## What a boot leaves behind -/

/-- A boot that projects each surviving event from the cursor on once and in order onto the shard's rows, and
stops at the end of the log. -/
def CatchesUp (R : Projection Rows) (lossy : Bool) (shard : ReadStore Rows) (floor : Nat)
    (surviving : List Event) (reseedState : Option State) : Prop :=
  catchUpShard R lossy shard floor surviving reseedState =
    .ok ⟨(surviving.drop (shard.exportedPosition - floor)).foldl R.project shard.rows, floor + surviving.length⟩

/-- The shard's rows are the projection of the log up to its cursor. -/
def ReadStore.Reflects (R : Projection Rows) (log : List Event) (s : ReadStore Rows) : Prop :=
  s.exportedPosition ≤ log.length ∧ s.rows = (log.take s.exportedPosition).foldl R.project R.empty

/-- The next boot over the same journal resumes with nothing to do. -/
def Settled (R : Projection Rows) (lossy : Bool) (floor : Nat) (surviving : List Event)
    (reseedState : Option State) (s : ReadStore Rows) : Prop :=
  s.exportedPosition = floor + surviving.length ∧
    planCatchUp s.exportedPosition floor surviving.length = .resume surviving.length ∧
    catchUpShard R lossy s floor surviving reseedState = .ok s

theorem settled_end (R : Projection Rows) (lossy : Bool) (floor : Nat) (surviving : List Event)
    (reseedState : Option State) (rows : Rows) :
    Settled R lossy floor surviving reseedState ⟨rows, floor + surviving.length⟩ := by
  refine ⟨rfl, planCatchUp_end floor surviving.length, ?_⟩
  rw [catchUpShard_resume R lossy reseedState (Nat.le_add_right _ _) (Nat.le_refl _)]
  simp

/-- Whatever boot returns stands at the end of the surviving log. -/
theorem catchUpShard_settled {R : Projection Rows} {lossy : Bool} {shard shard' : ReadStore Rows} {floor : Nat}
    {surviving : List Event} {reseedState : Option State}
    (h : catchUpShard R lossy shard floor surviving reseedState = .ok shard') :
    Settled R lossy floor surviving reseedState shard' := by
  by_cases hbelow : shard.exportedPosition < floor
  · rw [catchUpShard_below R lossy reseedState hbelow] at h
    cases reseedState with
    | some state =>
      cases h
      exact settled_end ..
    | none =>
      dsimp only at h
      split at h
      · cases h
        exact settled_end ..
      · cases h
  · by_cases hahead : floor + surviving.length < shard.exportedPosition
    · rw [catchUpShard_ahead R lossy reseedState hahead] at h
      cases h
      exact settled_end ..
    · rw [catchUpShard_resume R lossy reseedState (by omega) (by omega)] at h
      cases h
      exact settled_end ..

/-- A resumed shard that reflects the log up to its cursor reflects all of it: nothing is projected twice. -/
theorem reflects_of_resume (R : Projection Rows) {log : List Event} {floor : Nat} {shard : ReadStore Rows}
    (hlog : floor ≤ log.length) (hfloor : floor ≤ shard.exportedPosition) (hs : shard.Reflects R log) :
    ReadStore.Reflects R log
      ⟨((log.drop floor).drop (shard.exportedPosition - floor)).foldl R.project shard.rows,
        floor + (log.drop floor).length⟩ := by
  obtain ⟨hle, hrows⟩ := hs
  have hend : floor + (log.drop floor).length = log.length := by
    rw [List.length_drop]
    omega
  have hdrop : (log.drop floor).drop (shard.exportedPosition - floor) = log.drop shard.exportedPosition := by
    rw [List.drop_drop]
    congr 1
    omega
  refine ⟨Nat.le_of_eq hend, ?_⟩
  dsimp only
  rw [hend, hdrop, hrows, ← List.foldl_append, List.take_append_drop, List.take_length]

/-- **Catch-up at boot.** For every cursor, floor and surviving tail. Inside the surviving window each event
from the cursor on is projected once and in order, and a shard that reflected the log up to its cursor reflects
all of it. Ahead of the window the shard is emptied and each surviving event projected once. Below the floor it
is emptied and reprojected from the engine's state at the end of the log; without a state it is rebuilt from
the tail when the lossy rebuild is enabled, and otherwise boot is refused. Whatever is returned stands at the
end of the surviving log, and the next boot resumes with nothing to project. -/
theorem catchUpShard_spec (R : Projection Rows) (lossy : Bool) (shard : ReadStore Rows) (floor : Nat)
    (surviving : List Event) (reseedState : Option State) :
    (floor ≤ shard.exportedPosition → shard.exportedPosition ≤ floor + surviving.length →
      CatchesUp R lossy shard floor surviving reseedState ∧
        ∀ log : List Event, floor ≤ log.length → surviving = log.drop floor → shard.Reflects R log →
          ∃ shard', catchUpShard R lossy shard floor surviving reseedState = .ok shard' ∧
            shard'.Reflects R log ∧ shard'.exportedPosition = log.length) ∧
    (floor + surviving.length < shard.exportedPosition →
      catchUpShard R lossy shard floor surviving reseedState =
        .ok ⟨surviving.foldl R.project R.empty, floor + surviving.length⟩) ∧
    (shard.exportedPosition < floor →
      catchUpShard R lossy shard floor surviving reseedState =
        match reseedState with
        | some state =>
          .ok ⟨R.replayTerminalArchive (R.projectEngineState R.empty state), floor + surviving.length⟩
        | none =>
          if lossy then .ok ⟨surviving.foldl R.project R.empty, floor + surviving.length⟩
          else .error ⟨shard.exportedPosition, floor, floor - shard.exportedPosition⟩) ∧
    ∀ shard', catchUpShard R lossy shard floor surviving reseedState = .ok shard' →
      Settled R lossy floor surviving reseedState shard' := by
  refine ⟨fun hfloor hend => ?_, catchUpShard_ahead R lossy reseedState, catchUpShard_below R lossy reseedState,
    fun shard' => catchUpShard_settled⟩
  have hresume := catchUpShard_resume R lossy reseedState hfloor hend
  refine ⟨hresume, ?_⟩
  rintro log hlog rfl hs
  refine ⟨_, hresume, reflects_of_resume R hlog hfloor hs, ?_⟩
  dsimp only
  rw [List.length_drop]
  omega

/-- The projection that records what it is given. -/
def recording : Projection (List Event) where
  empty := []
  project rows e := rows ++ [e]
  projectEngineState rows _ := rows
  replayTerminalArchive rows := rows

/-- A wiped shard over a compacted journal does not project the surviving event: it is reprojected from the
engine's state. -/
theorem wiped_shard_is_not_caught_up_by_projection :
    ¬ ∀ (lossy : Bool) (shard : ReadStore (List Event)) (floor : Nat) (surviving : List Event)
        (reseedState : Option State), CatchesUp recording lossy shard floor surviving reseedState := by
  intro h
  have hrows := congrArg (fun r => r.toOption.map (·.rows.length))
    (h false ⟨[], 0⟩ 1 [.deploymentCreated 7] (some {}))
  exact absurd hrows (by decide)

end Seglog

end NanoBpm
