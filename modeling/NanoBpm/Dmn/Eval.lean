import NanoBpm.Planner.Resolve
import NanoBpm.Lib.Float64
import Mathlib.Data.List.Sort

/-!
# Decisions (`engine-core/src/dmn/eval.rs`)

`evaluate` walks the requirements of a decision depth first. All decisions of one evaluation read
and write one context. FEEL is the parameter `Feel`, and so is the `Debug` rendering of a value in
one message (`DebugText`).
-/

namespace NanoBpm

/-- `format!("{v:?}")`. -/
class DebugText where
  debug : Value → String

mutual

/-- `PartialEq` of `Value` (`model.rs:35`): numbers in `f64` compare as such. -/
def Value.beq : Value → Value → Bool
  | .null, .null => true
  | .bool a, .bool b => a == b
  | .int a, .int b => a == b
  | .double a, .double b => F64.beq a b
  | .str a, .str b => a == b
  | .list a, .list b => Value.beqItems a b
  | .map a, .map b => Value.beqEntries a b
  | _, _ => false

def Value.beqItems : List Value → List Value → Bool
  | [], [] => true
  | v :: vs, w :: ws => Value.beq v w && Value.beqItems vs ws
  | _, _ => false

def Value.beqEntries : List (String × Value) → List (String × Value) → Bool
  | [], [] => true
  | (k, v) :: vs, (l, w) :: ws => k == l && Value.beq v w && Value.beqEntries vs ws
  | _, _ => false

end

/-- `Value::as_f64` (`model.rs:58`). -/
def Value.asF64 : Value → Option UInt64
  | .int i => some (F64.ofInt i)
  | .double d => some d
  | _ => none

/-- `BTreeMap::insert` on entries in the order of their keys. -/
def insertEntry (key : String) (value : Value) : List (String × Value) → List (String × Value)
  | [] => [(key, value)]
  | (k, v) :: rest =>
    if key < k then (key, value) :: (k, v) :: rest
    else if key = k then (key, value) :: rest
    else (k, v) :: insertEntry key value rest

/-- `Decision::result_name` (`dmn/model.rs:56`). -/
def Decision.resultName (d : Decision) : String := d.variableName.getD d.id

/-- `DecisionRequirementsGraph::decision` (`dmn/model.rs:33`). -/
def DecisionRequirementsGraph.decision (drg : DecisionRequirementsGraph) (id : String) : Option Decision :=
  drg.decisions.find? (·.id == id)

namespace Dmn

/-- How an evaluation stops early: with a failure, or in a panic. `fuel` is the model's own; `evaluate` never
runs out of it (`evalDecision_fuel`). -/
inductive Stop where
  | failure (f : EvaluationFailure)
  | panic
  | fuel

/-- `INPUT_VAR` (eval.rs:28). -/
def inputVar : String := "__dmn_input__"

/-! ## Unary tests -/

/-- `strip_prefix`. -/
def stripStart (start s : String) : Option String :=
  if start.toList.isPrefixOf s.toList then some (String.ofList (s.toList.drop start.length)) else none

/-- `strip_suffix` of one character. -/
def stripLast (c : Char) (s : String) : Option String :=
  if s.toList.getLast? = some c then some (String.ofList s.toList.dropLast) else none

/-- The loop of `split_top_level_commas` (dmn/parser.rs:176); `item` is the text since the last split, reversed. -/
def splitFrom (depth : Int) (inStr : Bool) (item : List Char) : List Char → List String
  | [] => [trim (String.ofList item.reverse)].filter (!·.isEmpty)
  | c :: rest =>
    if inStr then splitFrom depth (c != '"') (c :: item) rest
    else if c = '"' then splitFrom depth true (c :: item) rest
    else if c = '(' ∨ c = '[' ∨ c = '{' then splitFrom (depth + 1) false (c :: item) rest
    else if c = ')' ∨ c = ']' ∨ c = '}' then splitFrom (depth - 1) false (c :: item) rest
    else if c = ',' ∧ depth = 0 then
      [trim (String.ofList item.reverse)].filter (!·.isEmpty) ++ splitFrom depth false [] rest
    else splitFrom depth false (c :: item) rest

def splitTopLevelCommas (s : String) : List String := splitFrom 0 false [] s.toList

/-- `strip_not` (eval.rs:523). -/
def stripNot (t : String) : Option String := do
  let rest := trimStart (← stripStart "not" t)
  stripLast ')' (← stripStart "(" rest)

/-- `find("..")`: the texts before and after. -/
def splitDots : List Char → Option (List Char × List Char)
  | [] => none
  | '.' :: '.' :: rest => some ([], rest)
  | c :: rest => (splitDots rest).map fun (before, after) => (c :: before, after)

/-- `parse_interval` (eval.rs:531): `(low, low_inclusive, high, high_inclusive)`. The slice `t[1..len - 1]` of a
text of one character panics. -/
def parseInterval (t : String) : Except Stop (Option (String × Bool × String × Bool)) :=
  match t.toList with
  | [] => .ok none
  | first :: tail =>
    let last := tail.getLast?.getD first
    if first ≠ '[' ∧ first ≠ '(' ∧ first ≠ ']' then .ok none
    else if last ≠ ']' ∧ last ≠ ')' ∧ last ≠ '[' then .ok none
    else if tail.isEmpty then .error .panic
    else
      match splitDots tail.dropLast with
      | none => .ok none
      | some (lo, hi) =>
        let lo := trim (String.ofList lo)
        let hi := trim (String.ofList hi)
        if lo.isEmpty || hi.isEmpty then .ok none else .ok (some (lo, first == '[', hi, last == ']'))

/-- `contains_input_marker` (eval.rs:556). -/
def containsInputMarker (inStr : Bool) : List Char → Bool
  | [] => false
  | c :: rest =>
    if c = '"' then containsInputMarker (!inStr) rest
    else (c == '?' && !inStr) || containsInputMarker inStr rest

/-- `substitute_input_marker` (eval.rs:569). -/
def substituteInputMarker (inStr : Bool) : List Char → List Char
  | [] => []
  | c :: rest =>
    if c = '"' then c :: substituteInputMarker (!inStr) rest
    else if c = '?' ∧ inStr = false then inputVar.toList ++ substituteInputMarker inStr rest
    else c :: substituteInputMarker inStr rest

/-- `values_equal` (eval.rs:587). -/
def valuesEqual (a b : Value) : Bool :=
  match a.asF64, b.asF64 with
  | some x, some y => F64.beq x y
  | _, _ => a.beq b

/-- `number_value` (eval.rs:604). -/
def numberValue (n : UInt64) : Value :=
  if F64.isWhole n && F64.lt (F64.abs n) (F64.ofInt (2 ^ 63)) then .int (F64.trunc n) else .double n

/-- `usize::MAX`. -/
def usizeMax : Nat := 2 ^ 64 - 1

section Feel

variable [Feel]

/-- The text of an error, before `fail` names the decision it is about. -/
abbrev Told := Except (Stop ⊕ String)

/-- `eval_bool_with_input` (eval.rs:511). -/
def evalBoolWithInput (expr : String) (input : Value) (ctx : Vars) : Told Bool :=
  (Feel.evalBool expr (ctx.insert inputVar input)).mapError .inr

/-- The comparison that a test starts with (eval.rs:485). -/
def comparison (t : String) : Option (String × String) :=
  ["<=", ">=", "<", ">"].findSome? fun op => (stripStart op t).map (op, ·)

/-- `subtest_matches` (eval.rs:468). -/
def subtestMatches (test : String) (input : Value) (ctx : Vars) : Told Bool :=
  let t := trim test
  if t.isEmpty then .ok true
  else if containsInputMarker false t.toList then
    evalBoolWithInput (String.ofList (substituteInputMarker false t.toList)) input ctx
  else
    match comparison t with
    | some (op, rest) => evalBoolWithInput s!"{inputVar} {op} ({trim rest})" input ctx
    | none => do
      match ← (parseInterval t).mapError .inl with
      | some (lo, loInc, hi, hiInc) =>
        let loOp := if loInc then ">=" else ">"
        let hiOp := if hiInc then "<=" else "<"
        evalBoolWithInput s!"{inputVar} {loOp} ({lo}) and {inputVar} {hiOp} ({hi})" input ctx
      | none => return valuesEqual input (← (Feel.eval t ctx).mapError .inr)

/-- Whether one of the tests matches: the tests after it are not evaluated. -/
def anyMatches (input : Value) (ctx : Vars) : List String → Told Bool
  | [] => .ok false
  | test :: tests => do
    if ← subtestMatches test input ctx then return true
    anyMatches input ctx tests

/-- `positive_list_matches` (eval.rs:455). -/
def positiveListMatches (list : String) (input : Value) (ctx : Vars) : Told Bool :=
  anyMatches input ctx (splitTopLevelCommas list)

/-- `unary_test_matches` (eval.rs:434). -/
def unaryTestMatches (entry : String) (input : Value) (ctx : Vars) : Told Bool :=
  let t := trim entry
  if t.isEmpty || t == "-" then .ok true
  else
    match stripNot t with
    | some inner => (positiveListMatches inner input ctx).map (!·)
    | none => positiveListMatches t input ctx

end Feel

/-! ## Hit policies -/

/-- `RuleMatch` (eval.rs:263). -/
structure RuleMatch where
  ruleId : String
  ruleIndex : Nat
  rowOutput : Value
  perOutput : List Value
  evaluatedOutputs : List EvaluatedOutput

/-- `row_value` (eval.rs:277). -/
def rowValue (outputs : List OutputClause) (perOutput : List Value) : Value :=
  if outputs.length = 1 then perOutput.head?.getD .null
  else .map ((outputs.zip perOutput).foldl (fun m (o, v) => insertEntry (o.name.getD o.id) v m) [])

/-- `priority_key` (eval.rs:417). -/
def priorityKey (perOutput : List Value) (priorities : List (List Value)) : List Nat :=
  perOutput.zipIdx.map fun (value, col) =>
    ((priorities[col]?).bind (List.findIdx? (valuesEqual · value))).getD usizeMax

/-- The first of the least elements, as `min_by` finds it, by the position in `matched`. -/
def firstLeast (keys : List (List Nat)) : Option Nat :=
  (keys.zipIdx.foldl (fun best (key, i) =>
    match best with
    | some (least, j) => if key < least then some (key, i) else some (least, j)
    | none => some (key, i)) none).map (·.2)

section Feel

variable [Feel]

/-- `output_priorities` (eval.rs:403). -/
def outputPriorities (outputs : List OutputClause) : List (List Value) :=
  outputs.map fun o => o.outputValues.map fun t => (Feel.eval t ∅).toOption.getD .null

variable [DebugText]

/-- The numbers to aggregate (eval.rs:378). -/
def numbersOf (decisionId : String) : List RuleMatch → Except Stop (List UInt64)
  | [] => .ok []
  | m :: ms =>
    let v := m.perOutput.head?.getD .null
    match v.asF64 with
    | some n => do return n :: (← numbersOf decisionId ms)
    | none =>
      .error (.failure ⟨s!"COLLECT aggregation requires numeric outputs, got {DebugText.debug v}", decisionId⟩)

/-- `aggregate` (eval.rs:364). -/
def aggregate (decisionId : String) (agg : Aggregation) (matched : List RuleMatch) : Except Stop Value :=
  if agg = .count then .ok (.int matched.length)
  else if matched.isEmpty then .ok .null
  else do
    let nums ← numbersOf decisionId matched
    return numberValue <|
      match agg with
      | .min => nums.foldl F64.min (F64.infinity false)
      | .max => nums.foldl F64.max (F64.infinity true)
      | _ => nums.foldl F64.add (F64.zero false)

/-- `apply_hit_policy` (eval.rs:290). -/
def applyHitPolicy (decisionId : String) (table : DecisionTable) (matched : List RuleMatch) :
    Except Stop (Value × List Nat) :=
  let all := List.range matched.length
  let rows := matched.map (·.rowOutput)
  match table.hitPolicy with
  | .unique =>
    if matched.length > 1 then
      .error (.failure ⟨s!"hit policy UNIQUE requires at most one matching rule, but {matched.length} rules matched",
        decisionId⟩)
    else .ok (rows.head?.getD .null, all)
  | .first => .ok (rows.head?.getD .null, if matched.isEmpty then [] else [0])
  | .any =>
    match rows with
    | [] => .ok (.null, [])
    | first :: others =>
      if others.any (!·.beq first) then
        .error (.failure ⟨"hit policy ANY requires all matching rules to produce the same output, but outputs differ",
          decisionId⟩)
      else .ok (first, [0])
  | .priority =>
    let priorities := outputPriorities table.outputs
    match firstLeast (matched.map fun m => priorityKey m.perOutput priorities) with
    | some i => .ok (rows.getD i .null, [i])
    | none => .ok (.null, [])
  | .collect =>
    match table.aggregation with
    | none => .ok (.list rows, all)
    | some agg => do return (← aggregate decisionId agg matched, all)
  | .ruleOrder => .ok (.list rows, all)
  | .outputOrder =>
    let priorities := outputPriorities table.outputs
    let keys := matched.map fun m => priorityKey m.perOutput priorities
    let order := all.insertionSort fun a b => ¬ keys.getD b [] < keys.getD a []
    .ok (.list (order.map (rows.getD · .null)), order)

/-! ## The logic of a decision -/

/-- The value of an input expression or an output entry; a blank one is null. -/
def evalText (decisionId : String) (kind text : String) (ctx : Vars) : Except Stop Value :=
  if (trim text).isEmpty then .ok .null
  else (Feel.eval text ctx).mapError fun e =>
    .failure ⟨s!"failed to evaluate {kind} '{text}' of decision '{decisionId}': {e}", decisionId⟩

/-- The input expressions of a table (eval.rs:172). -/
def evalInputs (decisionId : String) (ctx : Vars) : List InputClause → Except Stop (List EvaluatedInput)
  | [] => .ok []
  | input :: inputs => do
    let value ← evalText decisionId "input expression" input.expression ctx
    return ⟨input.id, input.label, value⟩ :: (← evalInputs decisionId ctx inputs)

/-- Whether every entry of a rule matches; the entries after one that does not are not evaluated. -/
def allMatch (decisionId : String) (ctx : Vars) (inputs : List Value) : Nat → List String → Except Stop Bool
  | _, [] => .ok true
  | col, entry :: entries => do
    let matches_ ← (unaryTestMatches entry (inputs.getD col .null) ctx).mapError fun
      | .inl stop => stop
      | .inr e => .failure ⟨s!"in decision '{decisionId}': {e}", decisionId⟩
    if matches_ then allMatch decisionId ctx inputs (col + 1) entries else return false

/-- The output entries of a rule, one per output column (eval.rs:213). -/
def evalOutputs (decisionId : String) (ctx : Vars) (entries : List String) :
    Nat → List OutputClause → Except Stop (List EvaluatedOutput)
  | _, [] => .ok []
  | i, output :: outputs => do
    let value ← evalText decisionId "output entry" (entries.getD i "") ctx
    return ⟨output.id, output.name, value⟩ :: (← evalOutputs decisionId ctx entries (i + 1) outputs)

/-- The rules that match (eval.rs:193). -/
def matchRules (decisionId : String) (table : DecisionTable) (ctx : Vars) (inputs : List Value) :
    Nat → List DecisionRule → Except Stop (List RuleMatch)
  | _, [] => .ok []
  | index, rule :: rules => do
    if ← allMatch decisionId ctx inputs 0 rule.inputEntries then
      let evaluatedOutputs ← evalOutputs decisionId ctx rule.outputEntries 0 table.outputs
      let perOutput := evaluatedOutputs.map (·.outputValue)
      return ⟨rule.id, index, rowValue table.outputs perOutput, perOutput, evaluatedOutputs⟩ ::
        (← matchRules decisionId table ctx inputs (index + 1) rules)
    else matchRules decisionId table ctx inputs (index + 1) rules

/-- `eval_table` (eval.rs:160). -/
def evalTable (decision : Decision) (table : DecisionTable) (ctx : Vars) : Except Stop EvaluatedDecision := do
  let evaluatedInputs ← evalInputs decision.id ctx table.inputs
  let matched ← matchRules decision.id table ctx (evaluatedInputs.map (·.inputValue)) 0 table.rules
  let (output, selected) ← applyHitPolicy decision.id table matched
  return {
    decisionId := decision.id, decisionName := decision.name, decisionType := .decisionTable
    decisionOutput := output, evaluatedInputs
    matchedRules := selected.filterMap fun i =>
      matched[i]?.map fun m => ⟨m.ruleId, m.ruleIndex + 1, m.evaluatedOutputs⟩ }

/-- `eval_logic` (eval.rs:119). The record is what the source pushes right before it returns its output. -/
def evalLogic (decision : Decision) (ctx : Vars) : Except Stop EvaluatedDecision :=
  match decision.logic with
  | .literalExpression text => do
    let output ← (Feel.eval text ctx).mapError fun e => .failure
      ⟨s!"failed to evaluate literal expression of decision '{decision.id}': {e}", decision.id⟩
    return {
      decisionId := decision.id, decisionName := decision.name, decisionType := .literalExpression
      decisionOutput := output, evaluatedInputs := [], matchedRules := [] }
  | .decisionTable table => evalTable decision table ctx
  | .unsupported what =>
    .error (.failure ⟨s!"decision '{decision.id}' has an unsupported decision type '{what}'", decision.id⟩)

/-! ## The walk -/

/-- What the recursion shares: the context, the records, and the decisions done and in progress. -/
structure Walk where
  ctx : Vars
  evaluated : List EvaluatedDecision := []
  done : List String := []
  onStack : List String := []

/-- `for required in &decision.required_decisions`: the first error ends it. -/
def evalRequired (evalDecision : String → Walk → Except Stop Value × Walk) :
    List String → Walk → Except Stop Unit × Walk
  | [], w => (.ok (), w)
  | required :: rest, w =>
    match evalDecision required w with
    | (.ok _, w) => evalRequired evalDecision rest w
    | (.error stop, w) => (.error stop, w)

/-- `eval_decision` (eval.rs:72). -/
def evalDecision (drg : DecisionRequirementsGraph) : Nat → String → Walk → Except Stop Value × Walk
  | 0, _, w => (.error .fuel, w)
  | fuel + 1, decisionId, w =>
    match drg.decision decisionId with
    | none => (.error (.failure ⟨s!"no decision found with id '{decisionId}'", decisionId⟩), w)
    | some decision =>
      if decisionId ∈ w.done then (.ok (w.ctx.getD decision.resultName .null), w)
      else if decisionId ∈ w.onStack then
        (.error (.failure ⟨s!"the decision requirements graph has a cycle involving decision '{decisionId}'",
          decisionId⟩), w)
      else
        match evalRequired (evalDecision drg fuel) decision.requiredDecisions
            { w with onStack := decisionId :: w.onStack } with
        | (.error stop, w) => (.error stop, w)
        | (.ok (), w) =>
          let left := { w with onStack := w.onStack.erase decisionId }
          match evalLogic decision w.ctx with
          | .error stop => (.error stop, left)
          | .ok record =>
            (.ok record.decisionOutput,
              { left with
                evaluated := w.evaluated ++ [record]
                ctx := w.ctx.insert decision.resultName record.decisionOutput
                done := decisionId :: w.done })

/-- `evaluate` (eval.rs:35); `none` is a panic. -/
def evaluate (drg : DecisionRequirementsGraph) (decisionId : String) (input : Vars) : Option DecisionEvaluationResult :=
  match evalDecision drg (drg.decisions.length + 1) decisionId { ctx := input } with
  | (.ok output, w) => some ⟨output, w.evaluated, none⟩
  | (.error (.failure f), w) => some ⟨.null, w.evaluated, some f⟩
  | (.error _, _) => none

end Feel

end Dmn

end NanoBpm
