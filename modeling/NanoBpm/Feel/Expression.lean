import NanoBpm.Feel.Parser
import NanoBpm.Feel.References

/-!
# FEEL expressions (`engine-core/src/feel/mod.rs`)

An expression is a text; it is evaluated against the variables, with at most so many calls open at once.
-/

namespace NanoBpm.FeelExpr

/-- `strip_marker`: one leading `=` marks an expression, but `==` is an operator. -/
def stripMarker (expr : String) : String :=
  let trimmed := trim expr
  if "==".isPrefixOf trimmed then trimmed else (NanoBpm.stripMarker trimmed).getD trimmed

variable [Texts] [Unicode]

/-- What `evaluate` and `referenced_variables` read a text as. -/
def nodeOf (expr : String) : Except FeelError Node := do parse (← tokenize (stripMarker expr))

/-- `referenced_variables`. -/
def referencedVariables (expr : String) : List String :=
  match nodeOf expr with
  | .ok node => node.collectVars
  | .error _ => []

/-- `evaluate`, of a text. -/
def evaluateText (ctx : Vars) (outside : Nat → Draw) (depth : Nat) (expr : String) : Option Result :=
  match nodeOf expr with
  | .ok node => resultAt ctx outside depth node
  | .error err => some (.error err)

/-- `eval`. -/
def eval (ctx : Vars) (outside : Nat → Draw) (depth : Nat) (expr : String) : Option (Except FeelError Value) :=
  (evaluateText ctx outside depth expr).map fun r => do return (← r).intoValue

/-- `eval_string`. -/
def evalString (ctx : Vars) (outside : Nat → Draw) (depth : Nat) (expr : String) : Option (Except FeelError String) :=
  (evaluateText ctx outside depth expr).map fun r => do
    match ← r with
    | .null => .error "expected a string-like result, got null"
    | v =>
      match v.toFeelString with
      | some s => return s
      | none => .error ("expected a string-like result, got " ++ v.typeName)

/-- `eval_bool`. -/
def evalBool (ctx : Vars) (outside : Nat → Draw) (depth : Nat) (expr : String) : Option (Except FeelError Bool) :=
  (evaluateText ctx outside depth expr).map fun r => do
    match ← r with
    | .bool b => return b
    | other => .error ("expected a boolean result, got " ++ other.typeName)

/-- The evaluation calls the clock, `uuid` or `random number`. -/
def ReadsOutside (ctx : Vars) (outside : Nat → Draw) (expr : String) : Prop :=
  ∃ node, nodeOf expr = .ok node ∧ Calls.Draws (body ctx) outside (evaluate ctx node) 0

variable {ctx ctx' : Vars} {outside outside' : Nat → Draw} {expr : String}

theorem evaluateText_eq (hagree : AgreeOn (· ∈ referencedVariables expr) ctx ctx')
    (hreads : ¬ ReadsOutside ctx outside expr) (depth : Nat) :
    evaluateText ctx' outside' depth expr = evaluateText ctx outside depth expr := by
  unfold evaluateText
  cases hnode : nodeOf expr with
  | error err => rfl
  | ok node =>
    have hbase : AgreeOn (· ∈ node.collectVars) ctx ctx' := by
      simpa only [referencedVariables, hnode] using hagree
    have hdraws : ¬ Calls.Draws (body ctx) outside (evaluate ctx node) 0 := fun h => hreads ⟨node, hnode, h⟩
    have hrun := run_evaluate_eq hbase outside' depth
    rw [Calls.run_eq_of_not_draws hdraws] at hrun
    show Option.map _ _ = Option.map _ _
    rw [hrun]

/-- Whatever is read outside, contexts that agree on the referenced variables of an expression that reads nothing there
give it the same result. -/
theorem referencedVariables_determine (hagree : ∀ name ∈ referencedVariables expr, ctx[name]? = ctx'[name]?)
    (hreads : ¬ ReadsOutside ctx outside expr) (depth : Nat) :
    evaluateText ctx' outside' depth expr = evaluateText ctx outside depth expr ∧
      eval ctx' outside' depth expr = eval ctx outside depth expr ∧
      evalString ctx' outside' depth expr = evalString ctx outside depth expr ∧
      evalBool ctx' outside' depth expr = evalBool ctx outside depth expr := by
  have htext : evaluateText ctx' outside' depth expr = evaluateText ctx outside depth expr :=
    evaluateText_eq hagree hreads depth
  refine ⟨htext, ?_, ?_, ?_⟩
  · rw [eval, eval, htext]
  · rw [evalString, evalString, htext]
  · rw [evalBool, evalBool, htext]

/-- The root and the name of a path. -/
def Node.path? : Node → Option (String × String)
  | .member (.var root) name => some (root, name)
  | _ => none

omit [Texts] [Unicode] in
theorem Node.eq_of_path? {node : Node} {root name : String} (h : node.path? = some (root, name)) :
    node = .member (.var root) name := by
  unfold Node.path? at h
  split at h
  · cases h
    rfl
  · cases h

omit [Texts] [Unicode] in
theorem referencedVariables_determine_path :
    @evaluateText Texts.plain Unicode.ascii ((∅ : Vars).insert "order" (.map [("total", .int 5)]) |>.insert "other" .null)
        (fun _ => ⟨none, "", 0⟩) 3 "=order.total" =
      @evaluateText Texts.plain Unicode.ascii ((∅ : Vars).insert "order" (.map [("total", .int 5)]))
        (fun _ => ⟨none, "", 0⟩) 3 "=order.total" := by
  let formats := Texts.plain
  let chars := Unicode.ascii
  refine (referencedVariables_determine ?_ ?_ 3).1
  · have hnames : referencedVariables "=order.total" = ["order"] := by decide +kernel
    intro name hname
    rw [hnames, List.mem_singleton] at hname
    rw [hname]
    simp [Std.ExtTreeMap.getElem_insert]
  · rintro ⟨node, hnode, hdraws⟩
    have hpath : (nodeOf "=order.total").toOption.bind Node.path? = some ("order", "total") := by decide +kernel
    rw [hnode] at hpath
    obtain rfl := Node.eq_of_path? hpath
    cases hdraws

end NanoBpm.FeelExpr
