import NanoBpm.Planner.Flow

/-!
# Call activities: spawning the child (`engine-core/src/engine/call_activity.rs:25-398`)

A call activity parks its token on a process instance of its own; the child carries the keys of the parent and of
the parked element instance. How a finished child releases the token is in `Complete`.
-/

namespace NanoBpm

/-- The parent chain of `call_activity_depth`, cut off at the maximum. -/
def State.depthFrom (s : State) : Nat → Option Key → Nat
  | 0, _ => 0
  | _ + 1, none => 0
  | fuel + 1, some parent => 1 + s.depthFrom fuel (s.instances[parent]?.bind (·.parentProcessInstanceKey))

def State.callActivityDepth (s : State) (instanceKey : Key) : Nat :=
  s.depthFrom maxCallActivityDepth (s.instances[instanceKey]?.bind (·.parentProcessInstanceKey))

/-- `call_activity_completion_step`: captured while the child still holds its variables. -/
def State.callActivityCompletionStep (s : State) (childInstanceKey : Key) : Option Step := do
  let child ← s.instances[childInstanceKey]?
  let parent ← child.parentProcessInstanceKey
  let callEik ← child.parentElementInstanceKey
  let elementId ← (← s.instances[parent]?).active[callEik]?
  return .completeCallActivity parent callEik elementId child.vars

namespace Engine

variable [Feel]

/-- `spawn_call_activity_instance`: an unresolvable callee or too deep a chain parks the token on an incident. -/
def spawnCallActivityInstance (e : Engine) (parentInstance callEik : Key) (elementId : ElementId)
    (calledProcessId : String) (evalView childSeed : Vars) (adhocInputProjection : Option Vars) : StepM Outcome := do
  let redrive := match adhocInputProjection with
    | some projection => IoMappingRedrive.adHocCallActivitySpawn projection
    | none => .callActivitySpawn
  let trimmed := trim calledProcessId
  match if hasMarker trimmed then Feel.evalString trimmed evalView else .ok calledProcessId with
  | .error err =>
    e.park parentInstance callEik elementId .expressionEvaluation (some redrive)
      ("call activity '" ++ elementId ++ "' could not evaluate calledElement expression '" ++ calledProcessId ++
        "': " ++ err)
  | .ok called =>
    if e.state.callActivityDepth parentInstance ≥ maxCallActivityDepth then
      e.park parentInstance callEik elementId .calledElementError (some redrive)
        ("call activity '" ++ elementId ++ "' exceeded the maximum child-instance depth of " ++
          toString maxCallActivityDepth ++ " calling '" ++ called ++ "' (possible unbounded recursion)")
    else
      match e.state.processes[called]? with
      | none =>
        e.park parentInstance callEik elementId .calledElementError (some redrive)
          ("call activity '" ++ elementId ++ "' references unknown called process '" ++ called ++ "'")
      | some d =>
        let childKey ← StepM.mintKey
        return ([.processInstanceCreated childKey called childSeed e.now [] none d.key d.version
            (some parentInstance) (some callEik)],
          [.activate childKey d.definition.startEvent 0 none])

/-- `spawn_call_activity_child`: the seed is the input mappings, over the whole view when it is propagated. -/
def spawnCallActivityChild (e : Engine) (parentInstance callEik : Key) (elementId : ElementId)
    (calledProcessId : String) (propagateAllParent : Bool) (elementVars : Vars) : StepM Outcome := do
  match evalIoMappingsIn elementVars (e.state.ioInputs parentInstance elementId) with
  | .error failure => e.parkIoMapping parentInstance callEik elementId failure .callActivitySpawn
  | .ok inputResults =>
    let childVars := if propagateAllParent then elementVars.extend inputResults else inputResults
    e.spawnCallActivityInstance parentInstance callEik elementId calledProcessId elementVars childVars none

end Engine

end NanoBpm
