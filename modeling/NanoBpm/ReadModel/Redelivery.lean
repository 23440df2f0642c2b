import NanoBpm.ReadModel.Project
import NanoBpm.Planner.Command
import NanoBpm.Lib.Counted
import NanoBpm.Lib.Overwrite

/-!
# Delivering a run of events again (`read-model/src/store.rs:1914-1973`)

An exporter hands the tables a batch. One that lost track of its position delivers the last events once more. The in-flight
gauge and the keys reported terminal are guarded by the state column, so they are right however often an event comes, and
nearly every table keeps its rows. The position of the store is not guarded: it counts deliveries.
-/

namespace NanoBpm.ReadModel

/-! ## Batches -/

/-- The keys of the instances that a batch took out of play, and what it adds to the gauge. -/
structure ExportOutcome where
  terminalKeys : List Key := []
  inflightDelta : Int := 0

/-- One turn of the loop of `export`: only a genuine terminal transition is reported. -/
def exportEvent (now : Nat) (acc : Tables × ExportOutcome) (e : Event) : Except String (Tables × ExportOutcome) := do
  let (t, d) ← project acc.1 now e
  let terminal := if d < 0 then e.terminalInstanceKey.toList else []
  return (t, { terminalKeys := acc.2.terminalKeys ++ terminal, inflightDelta := acc.2.inflightDelta + d })

/-- `export`: a failed batch leaves the tables as they were. -/
def exportBatch (t : Tables) (now : Nat) (events : List Event) : Except String (Tables × ExportOutcome) := do
  let (t', outcome) ← events.foldlM (exportEvent now) (t, {})
  return ({ t' with exportedPosition := t'.exportedPosition + events.length }, outcome)

/-! ## The gauge -/

namespace Tables

/-- Base state Active. -/
def activeCount (t : Tables) : Nat := t.processInstances.vals.countP (·.state == 0)

/-- An instance whose row has left the active state. -/
def Finished (t : Tables) (instanceKey : Key) : Prop :=
  ∃ r, t.processInstances[instanceKey]? = some r ∧ r.state ≠ 0

/-- The state column, where there is a row. -/
def stateOf (t : Tables) (instanceKey : Key) : Option Nat := t.processInstances[instanceKey]?.map ProcessInstanceRow.state

end Tables

/-- What an event does to the states of the instances: nothing, a new active row, or a terminal transition. -/
inductive Moved (e : Event) (t t' : Tables) : Int → Prop where
  | still (h : ∀ k, t'.stateOf k = t.stateOf k) : Moved e t t' 0
  | created {k : Key} {r : ProcessInstanceRow} (hkey : e.createdInstance = some k) (hnew : t.processInstances[k]? = none) (hactive : r.state = 0)
      (h : t'.processInstances = t.processInstances.insert k r) : Moved e t t' 1
  | ended {k : Key} {r : ProcessInstanceRow} {f : ProcessInstanceRow → ProcessInstanceRow}
      (hkey : e.terminalInstanceKey = some k) (hrow : t.processInstances[k]? = some r) (hactive : r.state = 0)
      (hdone : (f r).state ≠ 0) (h : t'.processInstances = t.processInstances.modify k f) : Moved e t t' (-1)

section Gauge

variable {t t' : Tables} {now : Nat} {e : Event} {d : Int}

/-- A modification of one row that leaves its state. -/
theorem Moved.of_modify {i : Key} {f : ProcessInstanceRow → ProcessInstanceRow}
    (h : t'.processInstances = t.processInstances.modify i f) (hf : ∀ r, (f r).state = r.state) : Moved e t t' 0 := by
  refine .still fun k => ?_
  rw [Tables.stateOf, Tables.stateOf, h, Std.ExtTreeMap.getElem?_modify]
  split
  · next hk =>
    rw [← Std.LawfulEqCmp.eq_of_compare hk, Option.map_map]
    exact congrArg (Option.map · _) (funext hf)
  · rfl

theorem Moved.of_eq (h : t'.processInstances = t.processInstances) : Moved e t t' 0 :=
  .still fun k => by rw [Tables.stateOf, h, Tables.stateOf]

/-- A terminal update is guarded by the state. -/
theorem Moved.of_terminal {i : Key} {f : ProcessInstanceRow → ProcessInstanceRow}
    (hkey : e.terminalInstanceKey = some i) (hdone : ∀ r, (f r).state ≠ 0)
    (h : t'.processInstances = updateKey t.processInstances i (·.state == 0) f) :
    Moved e t t' (terminalDelta t i) := by
  unfold terminalDelta
  cases hrow : t.processInstances[i]? with
  | none =>
    refine .of_eq ?_
    rw [h, updateKey, Std.ExtTreeMap.modify_of_getElem?_eq_none hrow]
  | some r =>
    by_cases hactive : r.state = 0
    · simp only [Option.any_some, hactive, beq_self_eq_true, if_true]
      refine .ended hkey hrow hactive ?_ h
      simp [hactive, hdone r]
    · have hfalse : (r.state == 0) = false := by simpa using hactive
      simp only [Option.any_some, hfalse, Bool.false_eq_true, if_false]
      refine .still fun k => ?_
      rw [Tables.stateOf, Tables.stateOf, h, getElem?_updateKey]
      split
      · next hk =>
        subst hk
        rw [hrow, Option.map_some, hfalse]
        rfl
      · rfl

theorem instances_resolveMigration {i : Key} {processId : String} {key : Key} {version : Int} {target : ElementId}
    (h : resolveMigration i processId key version t target = .ok t') : t'.processInstances = t.processInstances := by
  unfold resolveMigration at h
  split at h <;> cases h
  rfl

/-- **One event moves the gauge by what it does to the states.** -/
theorem project_moved (h : project t now e = .ok (t', d)) : Moved e t t' d := by
  cases e
  case processDeployed =>
    obtain ⟨t₁, h₁, hend⟩ := Except.bind_eq_ok.mp h
    cases hend
    unfold projectProcessDeployed at h₁
    split at h₁
    · cases h₁
    · cases h₁
      exact .of_eq rfl
  case processInstanceMigrated i processId key mappings =>
    obtain ⟨t₁, h₁, hend⟩ := Except.bind_eq_ok.mp h
    cases hend
    obtain ⟨_, resolved, -, rfl, hkeep⟩ := projectMigrated_keeps Tables.processInstances
      (fun _ _ => rfl) (fun _ _ _ _ hs => instances_resolveMigration hs) h₁
    exact .of_modify hkeep fun _ => rfl
  case processInstanceCreated i processId vars createdAt tags businessId definitionKey version parent parentElement =>
    simp only [project, Except.ok.injEq, projectCreated] at h
    split at h
    · cases h
      exact .of_eq rfl
    · next hnew =>
      cases h
      exact .created rfl (by simpa using hnew) rfl rfl
  case processInstanceCompleted =>
    cases h
    exact .of_terminal rfl (fun _ => Nat.succ_ne_zero 0) rfl
  case processInstanceTerminated =>
    cases h
    exact .of_terminal rfl (fun _ => Nat.succ_ne_zero 1) rfl
  case processInstanceSuspended =>
    cases h
    refine .of_modify rfl fun r => ?_
    split <;> rfl
  case processInstanceResumed | incidentRaised | incidentResolved =>
    cases h
    exact .of_modify rfl fun _ => rfl
  case messageSubscriptionCreated =>
    simp only [project, Except.ok.injEq, projectMessageSubscription] at h
    split at h <;> cases h <;> exact .of_eq rfl
  case messageCorrelated | remoteMessageCorrelation =>
    simp only [project, Except.ok.injEq, projectCorrelated] at h
    repeat' split at h
    all_goals cases h; exact .of_eq rfl
  all_goals
    cases h
    exact .of_eq rfl

/-! ### Runs of events -/

def ExportOutcome.add (o o' : ExportOutcome) : ExportOutcome where
  terminalKeys := o.terminalKeys ++ o'.terminalKeys
  inflightDelta := o.inflightDelta + o'.inflightDelta

/-- What one event adds to the outcome of a batch. -/
def eventOutcome (e : Event) (d : Int) : ExportOutcome where
  terminalKeys := if d < 0 then e.terminalInstanceKey.toList else []
  inflightDelta := d

theorem ExportOutcome.add_assoc (a b c : ExportOutcome) : (a.add b).add c = a.add (b.add c) := by
  simp only [add, List.append_assoc, Int.add_assoc]

@[simp] theorem ExportOutcome.add_empty (o : ExportOutcome) : o.add {} = o := by
  simp only [add, List.append_nil, Int.add_zero]

@[simp] theorem ExportOutcome.empty_add (o : ExportOutcome) : ExportOutcome.add {} o = o := by
  simp only [add, List.nil_append, Int.zero_add]

/-- The loop of `export` over a run of events. -/
inductive Projected (now : Nat) : Tables → List Event → Tables → ExportOutcome → Prop where
  | nil (t : Tables) : Projected now t [] t {}
  | cons {t t₁ t' : Tables} {e : Event} {events : List Event} {d : Int} {o : ExportOutcome}
      (head : project t now e = .ok (t₁, d)) (tail : Projected now t₁ events t' o) :
      Projected now t (e :: events) t' ((eventOutcome e d).add o)

variable {events before after : List Event} {o : ExportOutcome}

theorem projected_of_foldlM {o₀ o' : ExportOutcome} (h : events.foldlM (exportEvent now) (t, o₀) = .ok (t', o')) :
    ∃ o, Projected now t events t' o ∧ o' = o₀.add o := by
  induction events generalizing t o₀ with
  | nil =>
    cases h
    exact ⟨{}, .nil _, by simp⟩
  | cons e events ih =>
    rw [List.foldlM_cons] at h
    obtain ⟨acc, hhead, htail⟩ := Except.bind_eq_ok.mp h
    obtain ⟨⟨t₁, d⟩, hd, hacc⟩ := Except.bind_eq_ok.mp hhead
    cases hacc
    obtain ⟨o, ho, rfl⟩ := ih htail
    exact ⟨_, .cons hd ho, ExportOutcome.add_assoc o₀ (eventOutcome e d) o⟩

theorem projected_of_export (h : exportBatch t now events = .ok (t', o)) :
    ∃ t₁, Projected now t events t₁ o ∧ t' = { t₁ with exportedPosition := t₁.exportedPosition + events.length } := by
  obtain ⟨⟨t₁, o'⟩, hloop, hend⟩ := Except.bind_eq_ok.mp h
  cases hend
  obtain ⟨o, ho, hsum⟩ := projected_of_foldlM hloop
  rw [ExportOutcome.empty_add] at hsum
  exact ⟨t₁, hsum ▸ ho, rfl⟩

theorem Projected.split (h : Projected now t (before ++ after) t' o) :
    ∃ t₁ o₁ o₂, Projected now t before t₁ o₁ ∧ Projected now t₁ after t' o₂ ∧ o = o₁.add o₂ := by
  induction before generalizing t o with
  | nil => exact ⟨t, {}, o, .nil t, h, by simp⟩
  | cons e before ih =>
    cases h with
    | cons head tail =>
      obtain ⟨t₁, o₁, o₂, h₁, h₂, rfl⟩ := ih tail
      exact ⟨t₁, _, o₂, .cons head h₁, h₂, (ExportOutcome.add_assoc _ o₁ o₂).symm⟩

/-- The gauge counts the active rows, and a reported key had an active row that is finished from then on. -/
structure Gauged (t t' : Tables) (o : ExportOutcome) : Prop where
  count : (t'.activeCount : Int) = t.activeCount + o.inflightDelta
  nodup : o.terminalKeys.Nodup
  reported : ∀ k ∈ o.terminalKeys, ¬ t.Finished k ∧ t'.Finished k
  keeps : ∀ k, t.Finished k → t'.Finished k

theorem Gauged.refl (t : Tables) : Gauged t t {} where
  count := by simp
  nodup := List.nodup_nil
  reported k hk := by cases hk
  keeps _ h := h

theorem Gauged.trans {t'' : Tables} {o' : ExportOutcome} (h : Gauged t t' o) (h' : Gauged t' t'' o') :
    Gauged t t'' (o.add o') where
  count := by
    have h₁ := h.count
    have h₂ := h'.count
    simp only [ExportOutcome.add]
    omega
  nodup := by
    refine List.nodup_append'.mpr ⟨h.nodup, h'.nodup, fun k hk hk' => ?_⟩
    exact (h'.reported k hk').1 (h.reported k hk).2
  reported k hk := by
    rcases List.mem_append.mp hk with hk | hk
    · exact ⟨(h.reported k hk).1, h'.keeps k (h.reported k hk).2⟩
    · exact ⟨fun hdone => (h'.reported k hk).1 (h.keeps k hdone), (h'.reported k hk).2⟩
  keeps k hdone := h'.keeps k (h.keeps k hdone)

theorem finished_iff (t : Tables) (k : Key) : t.Finished k ↔ ∃ n, t.stateOf k = some n ∧ n ≠ 0 := by
  simp [Tables.Finished, Tables.stateOf]

theorem Moved.gauged (h : Moved e t t' d) : Gauged t t' (eventOutcome e d) := by
  cases h with
  | still h =>
    have hcount : t'.activeCount = t.activeCount :=
      Std.ExtTreeMap.countP_vals_congr (g := ProcessInstanceRow.state) h (· == 0)
    refine ⟨by simp [eventOutcome, hcount], List.nodup_nil, fun k hk => (List.not_mem_nil hk).elim, fun k => ?_⟩
    rw [finished_iff, finished_iff, h k]
    exact id
  | created hkey hnew hactive h =>
    refine ⟨?_, List.nodup_nil, fun k hk => (List.not_mem_nil hk).elim, fun k hdone => ?_⟩
    · simp [Tables.activeCount, h, Std.ExtTreeMap.countP_vals_insert_new hnew, hactive, eventOutcome]
    · obtain ⟨r, hr, hstate⟩ := hdone
      refine ⟨r, ?_, hstate⟩
      rw [h, Std.ExtTreeMap.getElem?_insert]
      split
      · next hk =>
        rw [← Std.LawfulEqCmp.eq_of_compare hk, hnew] at hr
        cases hr
      · exact hr
  | @ended k r f hkey hrow hactive hdone h =>
    have hkeys : (eventOutcome e (-1)).terminalKeys = [k] := by simp [eventOutcome, hkey]
    have hkeep : ∀ j, j ≠ k → t'.processInstances[j]? = t.processInstances[j]? := by
      intro j hj
      rw [h, Std.ExtTreeMap.getElem?_modify, if_neg fun heq => hj (Std.LawfulEqCmp.eq_of_compare heq).symm]
    have hend : t'.Finished k := by
      refine ⟨f r, ?_, hdone⟩
      rw [h, Std.ExtTreeMap.getElem?_modify, if_pos Std.ReflCmp.compare_self, hrow]
      rfl
    refine ⟨?_, ?_, ?_, ?_⟩
    · have hbefore := Std.ExtTreeMap.countP_vals_of_getElem? hrow (fun r => r.state == 0)
      have hafter := Std.ExtTreeMap.countP_vals_modify hrow f (fun r => r.state == 0)
      simp only [hactive, beq_self_eq_true, if_true] at hbefore
      simp only [beq_iff_eq, hdone, if_false] at hafter
      simp only [Tables.activeCount, h, hafter, hbefore, eventOutcome]
      omega
    · rw [hkeys]
      exact List.nodup_singleton k
    · intro j hj
      rw [hkeys] at hj
      rw [List.mem_singleton.mp hj]
      refine ⟨?_, hend⟩
      rintro ⟨r', hr', hstate⟩
      rw [hrow] at hr'
      exact hstate (Option.some.inj hr' ▸ hactive)
    · intro j hj
      by_cases hjk : j = k
      · exact hjk ▸ hend
      · obtain ⟨r', hr', hstate⟩ := hj
        exact ⟨r', (hkeep j hjk).trans hr', hstate⟩

/-- **A run of events keeps the gauge, whatever events it has.** -/
theorem Projected.gauged (h : Projected now t events t' o) : Gauged t t' o := by
  induction h with
  | nil t => exact .refl t
  | cons head _ ih => exact (project_moved head).gauged.trans ih

/-! ### Events the states already show -/

/-- The instance the event creates has a row, and the one it ends is not active. -/
def Spent (t : Tables) (e : Event) : Prop :=
  (∀ i, e.createdInstance = some i → t.stateOf i ≠ none) ∧ ∀ i, e.terminalInstanceKey = some i → t.stateOf i ≠ some 0

/-- No instance is created once it has ended. -/
def Ordered (log : List Event) : Prop :=
  log.Pairwise fun e e' => ∀ i, e.terminalInstanceKey = some i → e'.createdInstance ≠ some i

/-- What is projected is spent. -/
theorem spent_project (h : project t now e = .ok (t', d)) : Spent t' e := by
  refine ⟨fun i hi => ?_, fun i hi => ?_⟩
  · cases e
    case processInstanceCreated k processId vars createdAt tags businessId definitionKey version parent element =>
      obtain rfl : k = i := Option.some.inj hi
      simp only [project, Except.ok.injEq, projectCreated] at h
      split at h
      · next hrow =>
        cases h
        rw [Tables.stateOf, Ne, Option.map_eq_none_iff]
        rw [Std.ExtTreeMap.contains_eq_isSome_getElem?, Option.isSome_iff_ne_none] at hrow
        exact hrow
      · cases h
        have hnew : ∀ r, (t.processInstances.insert k r)[k]?.map ProcessInstanceRow.state ≠ none := by simp
        exact hnew _
    all_goals cases hi
  · have hguard : ∀ {f : ProcessInstanceRow → ProcessInstanceRow}, (∀ r, (f r).state ≠ 0) →
        t'.processInstances = updateKey t.processInstances i (·.state == 0) f → t'.stateOf i ≠ some 0 := by
      intro f hf hrows
      rw [Tables.stateOf, hrows, getElem?_updateKey, if_pos rfl]
      cases t.processInstances[i]? with
      | none => simp
      | some r =>
        by_cases hr : r.state = 0
        · simp [hr, hf r]
        · simp [hr]
    cases e <;> simp only [Event.terminalInstanceKey, reduceCtorEq, Option.some.injEq] at hi
    · subst hi
      cases h
      exact hguard (fun _ => Nat.succ_ne_zero 0) rfl
    · subst hi
      cases h
      exact hguard (fun _ => Nat.succ_ne_zero 1) rfl

/-- A spent event moves nothing. -/
theorem Moved.of_spent (h : Moved e t t' d) (hspent : Spent t e) : d = 0 ∧ ∀ k, t'.stateOf k = t.stateOf k := by
  cases h with
  | still h => exact ⟨rfl, h⟩
  | created hkey hnew _ _ => exact (hspent.1 _ hkey (by simp [Tables.stateOf, hnew])).elim
  | ended hkey hrow hactive _ _ => exact (hspent.2 _ hkey (by simp [Tables.stateOf, hrow, hactive])).elim

theorem Spent.congr {e' : Event} (hspent : Spent t e') (h : ∀ k, t'.stateOf k = t.stateOf k) : Spent t' e' := by
  refine ⟨fun i hi => ?_, fun i hi => ?_⟩
  · rw [h i]
    exact hspent.1 i hi
  · rw [h i]
    exact hspent.2 i hi

/-- A spent event stays so, unless the instance it ended is created. -/
theorem Spent.moved {e' : Event} (hspent : Spent t e') (h : Moved e t t' d)
    (horder : ∀ i, e'.terminalInstanceKey = some i → e.createdInstance ≠ some i) : Spent t' e' := by
  cases h with
  | still h => exact hspent.congr h
  | @created k r hkey hnew hactive h =>
    have hother : ∀ i, i ≠ k → t'.stateOf i = t.stateOf i := by
      intro i hi
      rw [Tables.stateOf, h, Std.ExtTreeMap.getElem?_insert,
        if_neg fun heq => hi (Std.LawfulEqCmp.eq_of_compare heq).symm, Tables.stateOf]
    refine ⟨fun i hi => ?_, fun i hi => ?_⟩
    · by_cases hik : i = k
      · exact (hspent.1 i hi (by simp [Tables.stateOf, hik, hnew])).elim
      · rw [hother i hik]
        exact hspent.1 i hi
    · by_cases hik : i = k
      · exact (horder i hi (hik ▸ hkey)).elim
      · rw [hother i hik]
        exact hspent.2 i hi
  | @ended k r f hkey hrow hactive hdone h =>
    have hother : ∀ i, i ≠ k → t'.stateOf i = t.stateOf i := by
      intro i hi
      rw [Tables.stateOf, h, Std.ExtTreeMap.getElem?_modify,
        if_neg fun heq => hi (Std.LawfulEqCmp.eq_of_compare heq).symm, Tables.stateOf]
    have hend : t'.stateOf k = some (f r).state := by
      rw [Tables.stateOf, h, Std.ExtTreeMap.getElem?_modify, if_pos Std.ReflCmp.compare_self, hrow]
      rfl
    refine ⟨fun i hi => ?_, fun i hi => ?_⟩
    · by_cases hik : i = k
      · rw [hik, hend]
        exact Option.some_ne_none _
      · rw [hother i hik]
        exact hspent.1 i hi
    · by_cases hik : i = k
      · rw [hik, hend]
        simpa using hdone
      · rw [hother i hik]
        exact hspent.2 i hi

/-- **Spent events contribute nothing, and what was spent stays so.** -/
theorem Projected.of_spent (h : Projected now t events t' o) (hspent : ∀ e ∈ events, Spent t e) :
    o = {} ∧ ∀ k, t'.stateOf k = t.stateOf k := by
  induction h with
  | nil t => exact ⟨rfl, fun _ => rfl⟩
  | cons head _ ih =>
    obtain ⟨hhead, htail⟩ := List.forall_mem_cons.mp hspent
    obtain ⟨rfl, hsame⟩ := (project_moved head).of_spent hhead
    obtain ⟨rfl, hrest⟩ := ih fun e he => (htail e he).congr hsame
    exact ⟨by simp [eventOutcome], fun k => (hrest k).trans (hsame k)⟩

/-- New events of an ordered log leave all of it spent. -/
theorem Projected.spent {log : List Event} (h : Projected now t events t' o) (horder : Ordered (log ++ events))
    (hspent : ∀ e ∈ log, Spent t e) : ∀ e ∈ log ++ events, Spent t' e := by
  induction h generalizing log with
  | nil t => simpa using hspent
  | @cons t t₁ t' e events d o head tail ih =>
    have hlog : log ++ e :: events = (log ++ [e]) ++ events := by simp
    rw [hlog] at horder ⊢
    refine ih horder fun e' he' => ?_
    rcases List.mem_append.mp he' with he' | he'
    · refine (hspent e' he').moved (project_moved head) ?_
      exact (List.pairwise_append.mp (List.pairwise_append.mp horder).1).2.2 e' he' e List.mem_cons_self
    · rw [List.mem_singleton.mp he']
      exact spent_project head

/-! ## Rows that stay -/

/-- A row of a table that no event deletes from. -/
inductive RowName where
  | processDefinition (key : Key)
  | processInstance (key : Key)
  | job (key : Key)
  | incident (key : Key)
  | userTask (key : Key)
  | elementInstance (key : Key)
  | decisionRequirements (drgId : String)
  | decisionDefinition (decisionId : String)
  | form (key : Key)
  | resource (key : Key)
  | agentInstance (key : Key)
  | agentTurn (key : Key)
deriving DecidableEq

def Tables.Has (t : Tables) : RowName → Prop
  | .processDefinition k => k ∈ t.processDefinitions
  | .processInstance k => k ∈ t.processInstances
  | .job k => k ∈ t.jobs
  | .incident k => k ∈ t.incidents
  | .userTask k => k ∈ t.userTasks
  | .elementInstance k => k ∈ t.elementInstances
  | .decisionRequirements id => id ∈ t.decisionRequirements
  | .decisionDefinition id => id ∈ t.decisionDefinitions
  | .form k => k ∈ t.forms
  | .resource k => k ∈ t.resources
  | .agentInstance k => k ∈ t.agentInstances
  | .agentTurn k => k ∈ t.agentHistory

/-- The row an event brings. -/
def rowOf : Event → Option RowName
  | .processDeployed _ definitionKey .. => some (.processDefinition definitionKey)
  | .processInstanceCreated i .. => some (.processInstance i)
  | .elementActivating _ eik _ | .elementActivated _ eik .. => some (.elementInstance eik)
  | .jobCreated j .. | .executionListenerJobCreated j .. => some (.job j)
  | .userTaskCreated u .. => some (.userTask u)
  | .incidentRaised k .. => some (.incident k)
  | .decisionRequirementsDeployed _ _ _ drg => some (.decisionRequirements drg.id)
  | .decisionDeployed _ _ _ decisionId .. => some (.decisionDefinition decisionId)
  | .formDeployed _ formKey .. => some (.form formKey)
  | .genericResourceDeployed _ resourceKey .. => some (.resource resourceKey)
  | .agentInstanceCreated _ ai | .agentInstanceUpdated _ ai | .agentInstanceCompleted _ ai =>
    some (.agentInstance ai.agentInstanceKey)
  | .agentHistoryCreated _ r => some (.agentTurn r.agentHistoryKey)
  | _ => none

section Keys

variable {ρ : Type} {m : KeyMap ρ} {k j : Key}

@[simp] theorem mem_updateKey {p : ρ → Bool} {f : ρ → ρ} : j ∈ updateKey m k p f ↔ j ∈ m := by
  rw [updateKey, Std.ExtTreeMap.mem_modify]

@[simp] theorem mem_updateWhere {p : ρ → Bool} {f : ρ → ρ} : j ∈ updateWhere m p f ↔ j ∈ m := by
  rw [updateWhere, Std.ExtTreeMap.mem_map]

@[simp] theorem mem_upsertRow {r : ρ} {f : ρ → ρ} : j ∈ upsertRow m k r f ↔ k = j ∨ j ∈ m := by
  unfold upsertRow
  split <;> simp [Std.ExtTreeMap.mem_insert]

end Keys

theorem has_resolveMigration {i : Key} {processId : String} {key : Key} {version : Int} {target : ElementId}
    (h : resolveMigration i processId key version t target = .ok t') (n : RowName) : t'.Has n = t.Has n := by
  unfold resolveMigration at h
  split at h <;> cases h
  cases n <;> simp [Tables.Has]

/-- **An event adds the row it brings, and takes none.** -/
theorem has_project (h : project t now e = .ok (t', d)) (n : RowName) : t'.Has n ↔ rowOf e = some n ∨ t.Has n := by
  cases e
  case processDeployed =>
    obtain ⟨t₁, h₁, hend⟩ := Except.bind_eq_ok.mp h
    cases hend
    unfold projectProcessDeployed at h₁
    split at h₁ <;> cases h₁
    cases n <;> simp [Tables.Has, rowOf, Std.ExtTreeMap.mem_insert]
  case processInstanceMigrated i processId key mappings =>
    obtain ⟨t₁, h₁, hend⟩ := Except.bind_eq_ok.mp h
    cases hend
    obtain ⟨_, resolved, -, rfl, hkeep⟩ := projectMigrated_keeps (fun s => s.Has n)
      (fun s m => by cases n <;> simp [Tables.Has, stampMigration]) (fun _ _ _ _ hs => has_resolveMigration hs n) h₁
    have hsame : (rehomeVariables resolved i processId key).Has n = t.Has n := by
      refine Eq.trans (by cases n <;> rfl) (hkeep.trans ?_)
      cases n <;> simp [Tables.Has, repointInstance, Std.ExtTreeMap.mem_modify]
    simp [hsame, rowOf]
  case processInstanceCreated i processId vars createdAt tags businessId definitionKey version parent element =>
    simp only [project, Except.ok.injEq, projectCreated] at h
    split at h
    · next hrow =>
      cases h
      have hmem : i ∈ t.processInstances := hrow
      cases n <;> simp [Tables.Has, rowOf]
      rintro rfl
      exact hmem
    · cases h
      cases n <;> simp [Tables.Has, rowOf, upsertVariables, Std.ExtTreeMap.mem_insert]
  case messageSubscriptionCreated =>
    simp only [project, Except.ok.injEq, projectMessageSubscription] at h
    split at h <;> cases h <;> cases n <;> simp [Tables.Has, rowOf]
  case messageCorrelated | remoteMessageCorrelation =>
    simp only [project, Except.ok.injEq, projectCorrelated] at h
    repeat' split at h
    all_goals cases h; cases n <;> simp [Tables.Has, rowOf, dropMessageSubscription]
  case elementActivating | elementActivated =>
    cases h
    cases n <;> simp [Tables.Has, rowOf, upsertElementInstance]
  case jobCreated | executionListenerJobCreated =>
    cases h
    cases n <;> simp [Tables.Has, rowOf, projectJobCreated]
  case processInstanceCompleted | processInstanceTerminated | processInstanceSuspended =>
    cases h
    cases n <;> simp [Tables.Has, rowOf, updateActiveInstance, dropMessageSubscriptions]
  case jobActivated | jobFailed | jobErrorThrown | jobCompleted | jobCanceled | jobRetriesUpdated |
      jobTimeoutUpdated =>
    cases h
    cases n <;> simp [Tables.Has, rowOf, updateJob, Std.ExtTreeMap.mem_modify]
  case userTaskAssigned | userTaskUpdated | userTaskCompleted | userTaskCanceled =>
    cases h
    cases n <;> simp [Tables.Has, rowOf, updateUserTask, Std.ExtTreeMap.mem_modify]
  case userTaskCreated =>
    cases h
    cases n <;> simp [Tables.Has, rowOf, projectUserTaskCreated]
  case incidentRaised =>
    cases h
    cases n <;> simp [Tables.Has, rowOf, projectIncidentRaised, Std.ExtTreeMap.mem_modify]
  case incidentResolved k i jobKey elementId createdAt =>
    cases h
    cases jobKey <;> cases n <;> simp [Tables.Has, rowOf, projectIncidentResolved, Std.ExtTreeMap.mem_modify]
  case agentInstanceCreated | agentInstanceUpdated | agentInstanceCompleted | agentHistoryCreated |
      agentHistoryCommitted | agentHistoryDiscarded =>
    cases h
    cases n <;> simp [Tables.Has, rowOf, projectAgentInstance, projectAgentHistoryRecord, transitionAgentHistory]
  case decisionRequirementsDeployed | decisionDeployed =>
    cases h
    cases n <;> simp [Tables.Has, rowOf, projectDecisionRequirements, projectDecisionDeployed,
      Std.ExtTreeMap.mem_insert]
  case processInstanceResumed | elementCompleted | jobLockExpired | formDeployed | genericResourceDeployed |
      messageSubscriptionCanceled | variablesUpdated | scopedVariablesUpdated | decisionEvaluated |
      decisionInstanceDeleted =>
    cases h
    cases n <;> simp [Tables.Has, rowOf, Std.ExtTreeMap.mem_insert, Std.ExtTreeMap.mem_modify,
      dropMessageSubscription, upsertVariables, projectDecisionEvaluated, projectDecisionDeleted]
  all_goals
    cases h
    simp [rowOf]

theorem Projected.has (h : Projected now t events t' o) (n : RowName) :
    t'.Has n ↔ (∃ e ∈ events, rowOf e = some n) ∨ t.Has n := by
  induction h with
  | nil t => simp
  | cons head _ ih =>
    rw [ih, has_project head n]
    simp only [List.mem_cons, exists_eq_or_imp, or_left_comm, or_assoc]

/-! ## Deployed resources -/

def formEntry : Event → Option (Key × FormRow)
  | .formDeployed _ formKey version formId resourceName schema =>
    some (formKey, { formKey, formId, version, schema, resourceName })
  | _ => none

def resourceEntry : Event → Option (Key × ResourceRow)
  | .genericResourceDeployed _ resourceKey version resourceId resourceName content =>
    some (resourceKey, { resourceKey, resourceId, resourceName, version, content })
  | _ => none

def drgEntry : Event → Option (String × DecisionRequirementsRow)
  | .decisionRequirementsDeployed _ drgKey version drg =>
    some (drg.id, { drgId := drg.id, drgKey, name := drg.name, version, resourceName := s!"{drg.id}.dmn",
                    xml := drg.xml })
  | _ => none

def definitionEntry : Event → Option (Key × ProcessDefinitionRow)
  | .processDeployed _ definitionKey version process =>
    some (definitionKey, { key := definitionKey, processId := process.id, version, name := process.name,
                           xml := process.xml, startFormId := process.startFormId })
  | _ => none

/-- What was deployed to a shard, each row under the key of its version. -/
structure Shelf where
  definitions : KeyMap ProcessDefinitionRow
  requirements : StrMap DecisionRequirementsRow
  forms : KeyMap FormRow
  resources : KeyMap ResourceRow

def Tables.shelf (t : Tables) : Shelf := ⟨t.processDefinitions, t.decisionRequirements, t.forms, t.resources⟩

open Overwrite in
def Shelf.step (e : Event) (s : Shelf) : Shelf where
  definitions := putEntry definitionEntry e s.definitions
  requirements := putEntry drgEntry e s.requirements
  forms := putEntry formEntry e s.forms
  resources := putEntry resourceEntry e s.resources

theorem shelf_resolveMigration {i : Key} {processId : String} {key : Key} {version : Int} {target : ElementId}
    (h : resolveMigration i processId key version t target = .ok t') :
    (t'.shelf, t'.exportedPosition) = (t.shelf, t.exportedPosition) := by
  unfold resolveMigration at h
  split at h <;> cases h
  rfl

/-- A deployment writes whole rows; nothing else writes these tables, and no event moves the position. -/
theorem shelf_project (h : project t now e = .ok (t', d)) :
    t'.shelf = Shelf.step e t.shelf ∧ t'.exportedPosition = t.exportedPosition := by
  cases e
  case processDeployed =>
    obtain ⟨t₁, h₁, hend⟩ := Except.bind_eq_ok.mp h
    cases hend
    unfold projectProcessDeployed at h₁
    split at h₁ <;> cases h₁
    exact ⟨rfl, rfl⟩
  case processInstanceMigrated i processId key mappings =>
    obtain ⟨t₁, h₁, hend⟩ := Except.bind_eq_ok.mp h
    cases hend
    obtain ⟨_, resolved, -, rfl, hkeep⟩ :=
      projectMigrated_keeps (fun s => (s.shelf, s.exportedPosition)) (fun _ _ => rfl)
        (fun _ _ _ _ hs => shelf_resolveMigration hs) h₁
    exact Prod.mk.inj hkeep
  case processInstanceCreated =>
    simp only [project, Except.ok.injEq, projectCreated] at h
    split at h <;> cases h <;> exact ⟨rfl, rfl⟩
  case messageSubscriptionCreated =>
    simp only [project, Except.ok.injEq, projectMessageSubscription] at h
    split at h <;> cases h <;> exact ⟨rfl, rfl⟩
  case messageCorrelated | remoteMessageCorrelation =>
    simp only [project, Except.ok.injEq, projectCorrelated] at h
    repeat' split at h
    all_goals cases h; exact ⟨rfl, rfl⟩
  all_goals
    cases h
    exact ⟨rfl, rfl⟩

theorem overwrites_shelf : Overwrite.Overwrites Shelf.step where
  idem e s := by
    simp only [Shelf.step, (Overwrite.overwrites_putEntry _).idem]
  hides e f a b h := by
    simp only [Shelf.step, Shelf.mk.injEq] at h ⊢
    exact ⟨(Overwrite.overwrites_putEntry _).hides e f _ _ h.1, (Overwrite.overwrites_putEntry _).hides e f _ _ h.2.1,
      (Overwrite.overwrites_putEntry _).hides e f _ _ h.2.2.1, (Overwrite.overwrites_putEntry _).hides e f _ _ h.2.2.2⟩

theorem Projected.shelf (h : Projected now t events t' o) :
    t'.shelf = Overwrite.run Shelf.step events t.shelf ∧ t'.exportedPosition = t.exportedPosition := by
  induction h with
  | nil t => exact ⟨rfl, rfl⟩
  | cons head _ ih =>
    obtain ⟨hshelf, hposition⟩ := shelf_project head
    exact ⟨by rw [ih.1, hshelf, Overwrite.run_cons], ih.2.trans hposition⟩

end Gauge

/-! ## Histories of deliveries -/

/-- One call of `export`: the last events once more, then new ones. -/
structure Batch where
  now : Nat
  again : List Event := []
  fresh : List Event := []

/-- A shard, the events it was delivered, each once, and what its batches reported. -/
structure Exporter where
  tables : Tables := {}
  log : List Event := []
  outcome : ExportOutcome := {}

namespace Exporter

/-- A batch that fails is rolled back. -/
def deliver (x : Exporter) (b : Batch) : Exporter :=
  match exportBatch x.tables b.now (b.again ++ b.fresh) with
  | .ok (t, o) => { tables := t, log := x.log ++ b.fresh, outcome := x.outcome.add o }
  | .error _ => x

def deliverAll (x : Exporter) (batches : List Batch) : Exporter := batches.foldl deliver x

/-- What is delivered again are events that end at the current position. -/
def Redelivers : Exporter → List Batch → Prop
  | _, [] => True
  | x, b :: batches => b.again <:+ x.log ∧ (x.deliver b).Redelivers batches

theorem Redelivers.again {x : Exporter} {batches before after : List Batch} {b : Batch} (h : x.Redelivers batches)
    (hb : batches = before ++ b :: after) : b.again <:+ (x.deliverAll before).log := by
  subst hb
  induction before generalizing x with
  | nil => exact h.1
  | cons b' before ih => exact ih h.2

/-- What the store keeps, whatever is delivered. -/
structure Sound (x : Exporter) : Prop where
  gauged : Gauged {} x.tables x.outcome
  rows : ∀ n, x.tables.Has n ↔ ∃ e ∈ x.log, rowOf e = some n
  shelf : x.tables.shelf = Overwrite.run Shelf.step x.log (Tables.shelf {})
  spent : Ordered x.log → ∀ e ∈ x.log, Spent x.tables e

theorem Sound.fresh : Sound {} where
  gauged := .refl {}
  rows n := by cases n <;> simp [Tables.Has]
  shelf := rfl
  spent _ e he := (List.not_mem_nil he).elim

section Deliveries

variable {x : Exporter} {b : Batch} {now : Nat} {t : Tables} {o : ExportOutcome} {run : List Event}

/-- **A run that is delivered again finds its rows, its deployments and its transitions.** -/
theorem Sound.again (hx : x.Sound) (hsub : run <:+ x.log) (h : Projected now x.tables run t o) :
    (∀ n, t.Has n ↔ x.tables.Has n) ∧ t.shelf = x.tables.shelf ∧
      (Ordered x.log → o = {} ∧ ∀ k, t.stateOf k = x.tables.stateOf k) := by
  obtain ⟨before, hlog⟩ := hsub
  refine ⟨fun n => ?_, ?_, fun horder => ?_⟩
  · rw [h.has n, hx.rows n]
    refine ⟨?_, .inr⟩
    rintro (⟨e, he, hrow⟩ | hrow)
    · exact ⟨e, hlog ▸ List.mem_append_right _ he, hrow⟩
    · exact hrow
  · rw [h.shelf.1, hx.shelf, ← hlog, overwrites_shelf.run_again]
  · exact h.of_spent fun e he => hx.spent horder e (hlog ▸ List.mem_append_right _ he)

theorem Sound.deliver (hx : x.Sound) (hsub : b.again <:+ x.log) : (x.deliver b).Sound := by
  unfold Exporter.deliver
  cases hexport : exportBatch x.tables b.now (b.again ++ b.fresh) with
  | error err => exact hx
  | ok p =>
    obtain ⟨t, o⟩ := p
    obtain ⟨t', hrun, rfl⟩ := projected_of_export hexport
    obtain ⟨t₁, o₁, o₂, hagain, hfresh, rfl⟩ := hrun.split
    obtain ⟨hrows, hshelf, hspent⟩ := hx.again hsub hagain
    have hgauged := hx.gauged.trans hrun.gauged
    refine ⟨⟨hgauged.count, hgauged.nodup, hgauged.reported, hgauged.keeps⟩, fun n => ?_, ?_, fun horder => ?_⟩
    · have hn : t'.Has n ↔ (∃ e ∈ b.fresh, rowOf e = some n) ∨ t₁.Has n := hfresh.has n
      have hlog : (∃ e ∈ x.log ++ b.fresh, rowOf e = some n) ↔
          (∃ e ∈ x.log, rowOf e = some n) ∨ ∃ e ∈ b.fresh, rowOf e = some n := by
        simp only [List.mem_append, or_and_right, exists_or]
      rw [hlog, ← hx.rows n, or_comm, ← hrows n]
      exact Iff.trans (by cases n <;> exact Iff.rfl) hn
    · rw [Overwrite.run_append, ← hx.shelf, ← hshelf]
      exact hfresh.shelf.1
    · have hlog := (List.pairwise_append.mp horder).1
      obtain ⟨-, hsame⟩ := hspent hlog
      have hall := hfresh.spent horder fun e he => (hx.spent hlog e he).congr hsame
      exact fun e he => hall e he

theorem Sound.deliverAll (hx : x.Sound) {batches : List Batch} (h : x.Redelivers batches) :
    (x.deliverAll batches).Sound := by
  induction batches generalizing x with
  | nil => exact hx
  | cons b batches ih => exact ih (hx.deliver h.1) h.2

theorem Redelivers.take {batches before : List Batch} (h : x.Redelivers batches) (hb : before <+: batches) :
    x.Redelivers before := by
  obtain ⟨after, rfl⟩ := hb
  induction before generalizing x with
  | nil => trivial
  | cons b before ih => exact ⟨h.1, ih h.2⟩

end Deliveries

end Exporter

/-- Whatever is delivered again, the gauge counts the active rows and no key is reported twice; a run that is delivered
again adds and removes no row and restores what was deployed, and it contributes nothing where no instance is created after
its end. -/
theorem redelivery_keeps (batches : List Batch) (h : Exporter.Redelivers {} batches) :
    (∀ before, before <+: batches →
      (Exporter.deliverAll {} before).outcome.terminalKeys.Nodup ∧
        (Exporter.deliverAll {} before).outcome.inflightDelta = (Exporter.deliverAll {} before).tables.activeCount) ∧
      ∀ before b after, batches = before ++ b :: after → ∀ t o,
        exportBatch (Exporter.deliverAll {} before).tables b.now b.again = .ok (t, o) →
          (∀ n, t.Has n ↔ (Exporter.deliverAll {} before).tables.Has n) ∧
            t.shelf = (Exporter.deliverAll {} before).tables.shelf ∧
              (Ordered (Exporter.deliverAll {} before).log → o = {}) := by
  have hsound : ∀ before, before <+: batches → (Exporter.deliverAll {} before).Sound :=
    fun before hb => Exporter.Sound.fresh.deliverAll (h.take hb)
  refine ⟨fun before hb => ?_, fun before b after hb t o hexport => ?_⟩
  · have hx := (hsound before hb).gauged
    refine ⟨hx.nodup, ?_⟩
    have hcount := hx.count
    have hzero : Tables.activeCount {} = 0 := rfl
    omega
  · obtain ⟨t', hrun, rfl⟩ := projected_of_export hexport
    have hx := hsound before (hb ▸ List.prefix_append _ _)
    obtain ⟨hrows, hshelf, hspent⟩ := hx.again (h.again hb) hrun
    exact ⟨fun n => Iff.trans (by cases n <;> exact Iff.rfl) (hrows n), hshelf, fun horder => (hspent horder).1⟩

end NanoBpm.ReadModel
