import NanoBpm.Planner.Monad

/-!
# Expressions, mappings and variable scopes (`engine-core/src/engine/resolve.rs`)

The evaluators of FEEL, DMN and ISO 8601 texts are parameters (`Feel`): planning only depends on the value or
the error they return, so what is proved about it holds for any of them.
-/

namespace NanoBpm

/-- `dmn::EvaluationFailure`. -/
structure EvaluationFailure where
  message : String
  failedDecisionId : String
deriving DecidableEq, Inhabited

/-- `dmn::DecisionEvaluationResult` (`dmn/model.rs:193`). -/
structure DecisionEvaluationResult where
  decisionOutput : Value
  evaluatedDecisions : List EvaluatedDecision
  failure : Option EvaluationFailure

/-- The evaluators (`feel/mod.rs`, `temporal.rs`, `dmn/mod.rs`). An error is its message. -/
class Feel where
  /-- `feel::eval`. -/
  eval : String → Vars → Except String Value
  /-- `feel::eval_string`. -/
  evalString : String → Vars → Except String String
  /-- `feel::eval_bool`. -/
  evalBool : String → Vars → Except String Bool
  /-- `feel::referenced_variables`. -/
  referencedVariables : String → List String
  /-- `temporal::parse_duration_millis`. -/
  parseDurationMillis : String → Option Nat
  /-- `temporal::parse_cycle_millis`. -/
  parseCycleMillis : String → Option Nat
  /-- `feel::temporal::DateTime::parse`, as `epoch_nanos`. -/
  parseEpochNanos : String → Option Int
  /-- `dmn::evaluate`. -/
  evaluateDecision : DecisionRequirementsGraph → String → Vars → DecisionEvaluationResult

/-- Evaluators that refuse every text: all that a process without expressions needs. -/
@[reducible] def Feel.refusing : Feel where
  eval _ _ := .error "unsupported"
  evalString _ _ := .error "unsupported"
  evalBool _ _ := .error "unsupported"
  referencedVariables _ := []
  parseDurationMillis _ := none
  parseCycleMillis _ := none
  parseEpochNanos _ := none
  evaluateDecision _ decisionId _ := ⟨.null, [], some ⟨"unsupported", decisionId⟩⟩

/-! ## Strings and numbers as Rust reads them -/

/-- `char::is_whitespace`: the Unicode property `White_Space`. -/
def isWhiteSpace (c : Char) : Bool :=
  let n := c.toNat
  (9 ≤ n && n ≤ 13) || n == 0x20 || n == 0x85 || n == 0xA0 || n == 0x1680 || (0x2000 ≤ n && n ≤ 0x200A) ||
    n == 0x2028 || n == 0x2029 || n == 0x202F || n == 0x205F || n == 0x3000

/-- `str::trim_start`. -/
def trimStart (s : String) : String := String.ofList (s.toList.dropWhile isWhiteSpace)

/-- `str::trim`. -/
def trim (s : String) : String :=
  String.ofList ((s.toList.dropWhile isWhiteSpace).reverse.dropWhile isWhiteSpace).reverse

/-- `strip_prefix('=')`. -/
def stripMarker (s : String) : Option String :=
  match s.toList with
  | '=' :: rest => some (String.ofList rest)
  | _ => none

/-- `starts_with('=')`. -/
def hasMarker (s : String) : Bool := (stripMarker s).isSome

/-- `str::split(sep)`. -/
def splitOnChar (sep : Char) (s : String) : List String :=
  (s.toList.splitOnP (· == sep)).map String.ofList

def i32Max : Int := 2147483647
def i32Min : Int := -2147483648

/-- `i as i32` on an `i64`: the low 32 bits. -/
def wrapI32 (i : Int) : Int := (i + 2147483648) % 4294967296 - 2147483648

/-- `d as i32` or `d as i64` on an `f64` given by its bits: truncation towards zero, saturating at the bounds,
`0` for a NaN. -/
def truncF64 (lo hi : Int) (bits : UInt64) : Int :=
  let n := bits.toNat
  let negative := n / 2 ^ 63 % 2 == 1
  let exponent := n / 2 ^ 52 % 2 ^ 11
  let fraction := n % 2 ^ 52
  if exponent == 2047 && fraction ≠ 0 then 0
  else if exponent < 1023 then 0
  else if exponent > 1023 + 64 then if negative then lo else hi
  else
    let magnitude : Nat := (2 ^ 52 + fraction) * 2 ^ (exponent - 1023) / 2 ^ 52
    max lo (min hi (if negative then -(magnitude : Int) else magnitude))

/-- The magnitude of `i as f64`: the nearest number of 53 significant bits, ties to even. -/
def roundF64 (n : Nat) : Nat :=
  if n < 2 ^ 53 then n
  else
    let unit := 2 ^ (n.log2 - 52)
    let q := n / unit
    let r := n % unit
    (if 2 * r > unit || (2 * r == unit && q % 2 == 1) then q + 1 else q) * unit

/-- `value.as_f64()` followed by `as i64`. -/
def Value.asF64AsI64 : Value → Option Int
  | .int i => some (max (-(2 ^ 63)) (min (2 ^ 63 - 1) (i.sign * roundF64 i.natAbs)))
  | .double bits => some (truncF64 (-(2 ^ 63)) (2 ^ 63 - 1) bits)
  | _ => none

def decimalDigit (c : Char) : Option Nat := if '0' ≤ c ∧ c ≤ '9' then some (c.toNat - 48) else none

/-- The digits of a non-empty decimal number. -/
def parseDecimal (digits : List Char) : Option Nat :=
  if digits.isEmpty then none
  else digits.foldl (fun acc c => acc.bind fun n => (decimalDigit c).map (n * 10 + ·)) (some 0)

/-- `str::parse::<i32>`. -/
def parseI32 (s : String) : Option Int :=
  let value : Option Int :=
    match s.toList with
    | '-' :: digits => (parseDecimal digits).map fun n => -(n : Int)
    | '+' :: digits => (parseDecimal digits).map fun n => (n : Int)
    | digits => (parseDecimal digits).map fun n => (n : Int)
  value.filter fun i => i32Min ≤ i ∧ i ≤ i32Max

variable [Feel]

/-! ## Single values -/

def resolveCorrelationValueChecked (vars : Vars) (correlationKey : String) : Except String String :=
  if (trim correlationKey).isEmpty then .ok ""
  else
    (Feel.evalString correlationKey vars).mapError fun err =>
      "failed to evaluate correlation key expression '" ++ correlationKey ++ "': " ++ err

def resolveCorrelationValue (vars : Vars) (correlationKey : String) : String :=
  (resolveCorrelationValueChecked vars correlationKey).toOption.getD ""

/-- `resolve_event_name` and `resolve_job_type` have one body: a text without marker is itself, an expression
that fails to evaluate falls back to its text. -/
def resolveText (vars : Vars) (raw : String) : String :=
  if !hasMarker (trim raw) then raw else (Feel.evalString (trim raw) vars).toOption.getD raw

def resolveEventName (vars : Vars) (raw : String) : String := resolveText vars raw

def resolveJobType (vars : Vars) (jobType : String) : String := resolveText vars jobType

/-- The number a retries or priority declaration stands for. -/
def resolveInt (vars : Vars) (raw : String) : Option Int :=
  match stripMarker (trim raw) with
  | some expr =>
    match Feel.eval expr vars with
    | .ok (.int i) => some (wrapI32 i)
    | .ok (.double d) => some (truncF64 i32Min i32Max d)
    | _ => none
  | none => parseI32 (trim raw)

def resolveRetries (vars : Vars) (raw : Option String) : Int :=
  match raw.bind (resolveInt vars) with
  | some value => max value 0
  | none => defaultJobRetries

def resolvePriority (vars : Vars) (raw : Option String) : Int :=
  match raw.bind (resolveInt vars) with
  | some value => max 0 (min 100 value)
  | none => 50

def resolveUserTaskString (vars : Vars) (raw : Option String) : Option String :=
  raw.bind fun raw => if !hasMarker (trim raw) then some raw else (Feel.evalString (trim raw) vars).toOption

/-- The `split` closure of `resolve_user_task_list`. -/
def splitList (s : String) : List String := ((splitOnChar ',' s).map trim).filter (! ·.isEmpty)

def resolveUserTaskList (vars : Vars) (raw : Option String) : List String :=
  match raw with
  | none => []
  | some raw =>
    if !hasMarker (trim raw) then splitList raw
    else
      match Feel.eval (trim raw) vars with
      | .ok (.list items) =>
        (items.filterMap fun v =>
          match v with
          | .str s => some s
          | .int i => some (toString i)
          | _ => none).filter (! ·.isEmpty)
      | .ok (.str s) => splitList s
      | _ => []

/-- `resolve_user_task_form_linkage`: an external reference suppresses the form key. -/
def State.resolveUserTaskFormLinkage (s : State) (props : UserTaskProps) : Option Key × Option String :=
  let formKey := if props.externalFormReference.isSome then none
    else (props.formId.bind fun id => s.forms[id]?).map (·.key)
  (formKey, props.externalFormReference)

/-- `resolve_timer`: the due time and the interval of a repeating timer. -/
def resolveTimer (vars : Vars) (timer : Option TimerDef) (baseNow fallbackMillis : Nat) : Nat × Nat :=
  let default := (satAdd baseNow fallbackMillis, fallbackMillis)
  match timer with
  | none => default
  | some timer =>
    let evaluated := if hasMarker (trimStart timer.expr) then (Feel.evalString timer.expr vars).toOption
      else some timer.expr
    match evaluated with
    | none => default
    | some text =>
      match timer.kind with
      | .duration => ((Feel.parseDurationMillis (trim text)).map fun ms => (satAdd baseNow ms, ms)).getD default
      | .cycle => ((Feel.parseCycleMillis (trim text)).map fun ms => (satAdd baseNow ms, ms)).getD default
      | .date =>
        ((Feel.parseEpochNanos (trim text)).map fun nanos =>
          ((max (nanos.tdiv 1000000) 0).toNat % 2 ^ 64, 0)).getD default

/-! ## Input and output mappings -/

/-- `IoMappingFailure`. -/
structure IoMappingFailure where
  reason : String
deriving DecidableEq, Inhabited

/-- `set_io_path`: intermediate nodes become maps. -/
def setIoPath (node : Value) : List String → Value → Value
  | [], value => value
  | head :: tail, value =>
    let entries := match node with
      | .map entries => entries
      | _ => []
    let inner := ((entries.find? (·.1 == head)).map (·.2)).getD (.map [])
    .map (insertEntry head (setIoPath inner tail value) entries)
where
  /-- `BTreeMap::insert` on the entries in key order. -/
  insertEntry (key : String) (value : Value) : List (String × Value) → List (String × Value)
    | [] => [(key, value)]
    | (k, v) :: rest =>
      if key < k then (key, value) :: (k, v) :: rest
      else if key = k then (key, value) :: rest
      else (k, v) :: insertEntry key value rest

def assignIoTarget (result vars : Vars) (target : String) (value : Value) : Vars :=
  match (splitOnChar '.' target).filter (! ·.isEmpty) with
  | [] => result
  | [single] => result.insert single value
  | top :: rest =>
    let root := (result[top]? <|> vars[top]?).getD (.map [])
    result.insert top (setIoPath root rest value)

/-- `eval_io_mapping_source`: a text without marker is a literal. -/
def evalIoMappingSource (source : String) (vars : Vars) : Except String Value :=
  if hasMarker (trimStart source) then Feel.eval (trim source) vars else .ok (.str source)

def ioMappingFailure (m : Mapping) (err : String) : IoMappingFailure where
  reason := "failed to evaluate io mapping source '" ++ trim m.source ++ "' for target '" ++ m.target ++ "': " ++ err

/-- `eval_io_mappings_tolerating`: a failing source that reads a tolerated name is skipped. -/
def evalIoMappingsTolerating (vars : Vars) (mappings : List Mapping) (tolerated : List String) :
    Except IoMappingFailure Vars :=
  mappings.foldlM (fun result m =>
    match evalIoMappingSource m.source vars with
    | .ok value => .ok (assignIoTarget result vars m.target value)
    | .error err =>
      if (Feel.referencedVariables (trim m.source)).any tolerated.contains then .ok result
      else .error (ioMappingFailure m err)) ∅

def evalIoMappingsIn (vars : Vars) (mappings : List Mapping) : Except IoMappingFailure Vars :=
  mappings.foldlM (fun result m =>
    match evalIoMappingSource m.source vars with
    | .ok value => .ok (assignIoTarget result vars m.target value)
    | .error err => .error (ioMappingFailure m err)) ∅

/-! ## Element lookups -/

namespace State

def retriesOf (s : State) (instanceKey : Key) (elementId : ElementId) : Option String :=
  (s.element instanceKey elementId).bind (·.retries)

def listenersOf (s : State) (instanceKey : Key) (elementId : ElementId) (eventType : ListenerEventType) :
    List ExecutionListener :=
  ((s.element instanceKey elementId).map fun el =>
    match eventType with
    | .start => el.startListeners
    | .end => el.endListeners).getD []

def taskListenersOf (s : State) (instanceKey : Key) (elementId : ElementId) (eventType : TaskListenerEventType) :
    List TaskListener :=
  ((s.element instanceKey elementId).map fun el => el.taskListeners.filter (·.eventType == eventType)).getD []

def outgoing (s : State) (instanceKey : Key) (elementId : ElementId) : List SequenceFlow :=
  ((s.element instanceKey elementId).map (·.outgoing)).getD []

def timerDefOf (s : State) (instanceKey : Key) (elementId : ElementId) : Option TimerDef :=
  (s.element instanceKey elementId).bind (·.timer)

def ioInputs (s : State) (instanceKey : Key) (elementId : ElementId) : List Mapping :=
  ((s.element instanceKey elementId).map (·.io.inputs)).getD []

def ioOutputs (s : State) (instanceKey : Key) (elementId : ElementId) : List Mapping :=
  ((s.element instanceKey elementId).map (·.io.outputs)).getD []

def joinEik (s : State) (instanceKey : Key) (elementId : ElementId) : Option Key :=
  s.instances[instanceKey]?.bind (·.joinInstances[elementId]?)

def resolveScope (s : State) (scopeKey : Key) : Option Key :=
  if s.instances.contains scopeKey then some scopeKey
  else (s.instances.vals.find? (·.active.contains scopeKey)).map (·.key)

end State

/-! ## Variable scopes -/

namespace ProcessInstance

def variableScopeOf (i : ProcessInstance) (key : Key) : Key :=
  if key = 0 ∨ key = i.key then i.key
  else if i.scopeParents.contains key then key
  else
    match i.scopes[key]? with
    | some enclosing => if i.scopeParents.contains enclosing then enclosing else i.key
    | none => i.key

/-- The scope chain of the loop in `visible_variables`, leaf first. Every turn moves to the parent of a
registered scope, so as many turns as there are scopes reach the end of any chain without a cycle. -/
def scopeChainFrom (i : ProcessInstance) : Nat → Key → List Key
  | 0, scope => [scope]
  | fuel + 1, scope =>
    match i.scopeParents[scope]? with
    | some parent => if parent ≠ scope then scope :: i.scopeChainFrom fuel parent else [scope]
    | none => [scope]

def scopeChain (i : ProcessInstance) (scope : Key) : List Key := i.scopeChainFrom i.scopeParents.size scope

/-- `scope_defining`: the walk stops at the root. -/
def scopeDefining (i : ProcessInstance) (scope : Key) (name : String) : Option Key :=
  let upTo := (i.scopeChain scope).takeWhile (· != i.key)
  let candidates := if (i.scopeChain scope).contains i.key then upTo ++ [i.key] else upTo
  candidates.find? fun scope =>
    if scope = i.key then i.vars.contains name else i.scopeVariables[scope]?.any (·.contains name)

end ProcessInstance

namespace Engine

def overlayClusterVariables (e : Engine) (base : Vars) : Vars := e.clusterVariables.extend base

def variablesOf (e : Engine) (instanceKey : Key) : Vars :=
  e.overlayClusterVariables ((e.state.instances[instanceKey]?.map (·.vars)).getD ∅)

def visibleVariables (e : Engine) (i : ProcessInstance) (scopeKey : Key) : Vars :=
  if (scopeKey = 0 ∨ scopeKey = i.key) ∨ i.scopeVariables.isEmpty then e.overlayClusterVariables i.vars
  else
    e.overlayClusterVariables <| (i.scopeChain scopeKey).reverse.foldl (fun merged scope =>
      match i.scopeVariables[scope]? with
      | some own => merged.extend own
      | none => merged) i.vars

def variablesForElement (e : Engine) (instanceKey elementInstanceKey : Key) : Vars :=
  match e.state.instances[instanceKey]? with
  | none => ∅
  | some i => e.visibleVariables i (i.variableScopeOf elementInstanceKey)

/-- `propagate_variables`: each name goes to the nearest scope that defines it, else to the root. -/
def propagateVariables (e : Engine) (instanceKey targetScope : Key) (vars : Vars) (isLocal : Bool) :
    List (Key × Vars) :=
  if vars.isEmpty then []
  else
    match e.state.instances[instanceKey]? with
    | none => [(instanceKey, vars)]
    | some i =>
      let target := i.variableScopeOf targetScope
      if isLocal then [(target, vars)]
      else if i.scopeVariables.isEmpty ∧ i.scopeParents.isEmpty then [(i.key, vars)]
      else
        let byScope : KeyMap Vars := vars.foldl (fun acc name value =>
          let dest := (i.scopeDefining target name).getD i.key
          acc.insert dest ((acc[dest]?.getD ∅).insert name value)) ∅
        byScope.toList

def propagatedUpdates (e : Engine) (instanceKey scope : Key) (vars : Vars) (isLocal : Bool) : List Event :=
  ((sortByKey (·.1) (e.propagateVariables instanceKey scope vars isLocal)).filter (! ·.2.isEmpty)).map
    fun (dest, vars) =>
      if dest = 0 ∨ dest = instanceKey then .variablesUpdated instanceKey vars
      else .scopedVariablesUpdated instanceKey dest vars

end Engine

end NanoBpm
