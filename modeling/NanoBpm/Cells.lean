import NanoBpm.JobIndex

/-!
# What an event does to an instance's variables

All that matters of an instance for its row in the variable store, and for its place in the instance table, is its
`VarCell`: whether it has ended, its root variables and whether they are spilled. `VarCell.step` is the whole of what an
event does to a cell; `cellOf_apply` reads it off the appliers.
-/

namespace NanoBpm

structure VarCell where
  ended : Bool
  vars : Vars
  spilled : Bool

def ProcessInstance.cell (i : ProcessInstance) : VarCell := ⟨i.isTerminal, i.vars, i.variablesSpilled⟩

def State.cellOf (s : State) (k : Key) : Option VarCell := s.instances[k]?.map (·.cell)

/-- What an event is to the variables of one instance. -/
inductive VarKind where
  | create (vars : Vars)
  | update (vars : Vars)
  /-- A `ScopedVariablesUpdated` that names the root scope: the one write `emit` does not track. -/
  | scopedUpdate (vars : Vars)
  | finish
  /-- The instance is (again) in a state that is not terminal. -/
  | revive
  | other

def Event.varKind (k : Key) : Event → VarKind
  | .processInstanceCreated i _ vars .. => if i = k then .create vars else .other
  | .variablesUpdated i vars => if i = k then .update vars else .other
  | .scopedVariablesUpdated i scope vars => if i = k ∧ (scope = 0 ∨ scope = i) then .scopedUpdate vars else .other
  | .processInstanceCompleted i | .processInstanceTerminated i => if i = k then .finish else .other
  | .processInstanceTerminating i | .processInstanceSuspended i _ | .processInstanceResumed i =>
    if i = k then .revive else .other
  | _ => .other

def VarKind.run : VarKind → Option VarCell → Option VarCell
  | create vars, _ => some ⟨false, vars, false⟩
  | update vars, c | scopedUpdate vars, c => c.map fun c => { c with vars := c.vars.extend vars }
  | finish, c => c.map fun _ => ⟨true, ∅, false⟩
  | revive, c => c.map fun c => { c with ended := false }
  | other, c => c

/-- What an event does to the cell of instance `k`. -/
def VarCell.step (k : Key) (e : Event) (c : Option VarCell) : Option VarCell := (e.varKind k).run c

theorem VarCell.step_eq (k : Key) (e : Event) (c : Option VarCell) : VarCell.step k e c = (e.varKind k).run c := rfl

/-! ## The appliers -/

theorem cellOf_modifyInstance_same {s : State} {key : Key} {f : ProcessInstance → ProcessInstance}
    (hf : ∀ i, (f i).cell = i.cell) (k : Key) : (s.modifyInstance key f).cellOf k = s.cellOf k := by
  unfold State.cellOf State.modifyInstance
  rw [Std.ExtTreeMap.getElem?_modify]
  by_cases h : key = k
  · subst h
    simp [hf, Function.comp_def]
  · simp [h]

theorem cellOf_eq_of_instances {s s' : State} (h : s'.instances = s.instances) (k : Key) : s'.cellOf k = s.cellOf k := by
  unfold State.cellOf
  rw [h]

theorem cellOf_applyElement (s : State) (e : Event) (k : Key) : (applyElement s e).cellOf k = s.cellOf k := by
  cases e <;> try rfl
  case parallelJoinTokenArrived =>
    refine cellOf_modifyInstance_same (fun i => ?_) k
    split <;> rfl
  case compensationHandlerCompleted =>
    refine cellOf_modifyInstance_same (fun i => ?_) k
    split
    · rfl
    · dsimp only
      split <;> rfl
  all_goals
    refine cellOf_modifyInstance_same ?_ k
    intro i
    rfl

theorem instances_resyncJobIndex (s : State) (k : Key) : (s.resyncJobIndex k).instances = s.instances := by
  unfold State.resyncJobIndex
  split <;> rfl

theorem cellOf_applyJob (s : State) (e : Event) (k : Key) : (applyJob s e).cellOf k = s.cellOf k := by
  cases e <;> try rfl
  case incidentRaised =>
    refine cellOf_modifyInstance_same (s := { s with incidents := _ }) ?_ k
    intro i
    rfl
  case incidentResolved incidentKey instanceKey jobKey resolvedAt reference =>
    have hinc : (State.modifyInstance
        { s with incidents := s.incidents.modify incidentKey fun i =>
          { i with state := .resolved, resolvedAt := some resolvedAt, operationReference := reference } }
        instanceKey fun i => { i with incidents := i.incidents.filter (· ≠ incidentKey) }).cellOf k = s.cellOf k := by
      refine cellOf_modifyInstance_same (s := { s with incidents := _ }) ?_ k
      intro i
      rfl
    cases jobKey with
    | none => exact hinc
    | some jobKey =>
      unfold applyJob
      dsimp only
      split
      · rw [cellOf_eq_of_instances (instances_resyncJobIndex _ _)]
        exact hinc
      · exact hinc
  all_goals exact cellOf_eq_of_instances (instances_resyncJobIndex _ _) k

/-- An applier that changes one instance, read as a kind. -/
theorem cellOf_modifyInstance_kind {s : State} {key : Key} {f : ProcessInstance → ProcessInstance} {kind : VarKind}
    (hnone : kind.run none = none) (hsome : ∀ i : ProcessInstance, kind.run (some i.cell) = some (f i).cell) (k : Key) :
    (s.modifyInstance key f).cellOf k = (if key = k then kind else .other).run (s.cellOf k) := by
  unfold State.cellOf State.modifyInstance
  rw [Std.ExtTreeMap.getElem?_modify]
  by_cases h : key = k
  · subst h
    cases hi : s.instances[key]? with
    | none => simp [hnone]
    | some i => simp [hsome]
  · simp [h, VarKind.run]

theorem cellOf_applyInstance (s : State) (e : Event) (k : Key) :
    (applyInstance s e).cellOf k = VarCell.step k e (s.cellOf k) := by
  have decr : ∀ (s' : State) (p : Option String), (decrementInflightByProcess s' p).cellOf k = s'.cellOf k :=
    fun s' p => cellOf_eq_of_instances (instances_decrementInflightByProcess s' p) k
  cases e <;> try rfl
  case processInstanceCreated =>
    simp only [applyInstance, State.cellOf, VarCell.step, Event.varKind, Std.ExtTreeMap.getElem?_insert,
      Std.LawfulEqCmp.compare_eq_iff_eq]
    split <;> rfl
  case scopedVariablesUpdated instanceKey scopeKey vars =>
    unfold applyInstance VarCell.step Event.varKind
    by_cases hroot : scopeKey = 0 ∨ scopeKey = instanceKey
    · simp only [hroot, if_true, and_true]
      refine cellOf_modifyInstance_kind ?_ ?_ k <;> intros <;> rfl
    · simp only [hroot, if_false, and_false]
      refine cellOf_modifyInstance_same ?_ k
      intro i
      rfl
  case processInstanceCompleted =>
    refine (decr _ _).trans (cellOf_modifyInstance_kind ?_ ?_ k) <;> intros <;> rfl
  case processInstanceTerminated =>
    refine (decr _ _).trans
      (cellOf_modifyInstance_kind (s := { s with incidents := _ }) ?_ ?_ k) <;> intros <;> rfl
  case processInstanceMigrated instanceKey targetProcessId targetKey mappings =>
    have hmig : (s.modifyInstance instanceKey
        (·.migrate targetProcessId targetKey (remapId mappings))).cellOf k = s.cellOf k := by
      refine cellOf_modifyInstance_same ?_ k
      intro i
      rfl
    unfold applyInstance
    dsimp only
    split
    · exact hmig
    · exact (decr _ _).trans hmig
  all_goals first
    | (refine cellOf_modifyInstance_kind ?_ ?_ k <;> intros <;> rfl)
    | (refine cellOf_modifyInstance_same ?_ k; intro i; rfl)

theorem instances_applyProcess (s : State) (e : Event) : (applyProcess s e).instances = s.instances := by
  unfold applyProcess
  split <;> rfl

theorem instances_applyResource (s : State) (e : Event) : (applyResource s e).instances = s.instances := by
  unfold applyResource
  split <;> try rfl
  split <;> rfl

theorem instances_applyUserTask (s : State) (e : Event) : (applyUserTask s e).instances = s.instances := by
  unfold applyUserTask
  split <;> rfl

theorem instances_applyTimer (s : State) (e : Event) : (applyTimer s e).instances = s.instances := by
  unfold applyTimer
  split <;> rfl

theorem instances_applySubscription (s : State) (e : Event) : (applySubscription s e).instances = s.instances := by
  unfold applySubscription
  split <;> rfl

/-- The cell after an event is a function of the cell before it. -/
theorem cellOf_apply (s : State) (e : Event) (k : Key) : (apply s e).cellOf k = VarCell.step k e (s.cellOf k) := by
  cases e <;> simp only [apply] <;> first
    | rw [cellOf_applyInstance]
    | rw [cellOf_applyElement]; rfl
    | rw [cellOf_applyJob]; rfl
    | rw [cellOf_eq_of_instances (instances_applyProcess _ _)]; rfl
    | rw [cellOf_eq_of_instances (instances_applyResource _ _)]; rfl
    | rw [cellOf_eq_of_instances (instances_applyUserTask _ _)]; rfl
    | rw [cellOf_eq_of_instances (instances_applyTimer _ _)]; rfl
    | rw [cellOf_eq_of_instances (instances_applySubscription _ _)]; rfl

/-! ## The variables -/

theorem Vars.getElem?_extend (vars updates : Vars) (x : String) :
    (vars.extend updates)[x]? = (updates[x]?).or vars[x]? := by
  unfold Vars.extend
  rw [Std.ExtTreeMap.foldl_eq_foldl_toList,
    Std.ExtTreeMap.getElem?_foldl_insert (fun k => updates[k]?) updates.toList vars]
  · rw [Std.ExtTreeMap.map_fst_toList_eq_keys]
    by_cases hx : x ∈ updates.keys
    · rw [if_pos hx]
      obtain ⟨v, hv⟩ := Std.ExtTreeMap.mem_iff_isSome_getElem?.1 (Std.ExtTreeMap.mem_keys.1 hx) |> Option.isSome_iff_exists.1
      simp [hv]
    · have hnone : updates[x]? = none := Std.ExtTreeMap.getElem?_eq_none (mt Std.ExtTreeMap.mem_keys.2 hx)
      rw [if_neg hx, hnone, Option.none_or]
  · rintro ⟨k, v⟩ he
    exact Std.ExtTreeMap.mem_toList_iff_getElem?_eq_some.1 he

end NanoBpm
