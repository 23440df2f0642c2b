import NanoBpm.Feel.Rules

/-!
# Referenced variables (`feel/mod.rs:88-174`)

An evaluation reads a context only at names of the node's variables: the functions it makes have bodies that are parts of
the node, so the calls that it makes do the same.
-/

namespace NanoBpm.FeelExpr

open EvalM

/-- The functions in a value name only variables of `S`. -/
inductive FeelVal.Within (S : String → Prop) : FeelVal → Prop
  | scalar (v : FeelVal) (h : v.IsScalar) : Within S v
  | list (items : List FeelVal) (h : ∀ v ∈ items, Within S v) : Within S (.list items)
  | context (entries : Frame) (h : ∀ e ∈ entries, Within S e.2) : Within S (.context entries)
  | range (start : Option FeelVal) (startInclusive : Bool) (stop : Option FeelVal) (endInclusive : Bool)
      (hstart : ∀ v ∈ start, Within S v) (hstop : ∀ v ∈ stop, Within S v) :
      Within S (.range start startInclusive stop endInclusive)
  | builtin (name : String) : Within S (.builtin name)
  | lambda (params : List String) (body : Node) (closure : Frame) (hbody : ∀ name ∈ body.collectVars, S name)
      (hclosure : ∀ e ∈ closure, Within S e.2) : Within S (.lambda params body closure)

variable {S : String → Prop}

theorem within_structural : Structural (FeelVal.Within S) where
  scalar := .scalar
  list items := by
    constructor
    · intro h
      cases h with
      | scalar _ h => cases h
      | list _ h => exact h
    · exact .list items
  context entries := by
    constructor
    · intro h
      cases h with
      | scalar _ h => cases h
      | context _ h => exact h
    · exact .context entries
  range start si stop ei := by
    constructor
    · intro h
      cases h with
      | scalar _ h => cases h
      | range _ _ _ _ hstart hstop => exact ⟨hstart, hstop⟩
    · rintro ⟨hstart, hstop⟩
      exact .range start si stop ei hstart hstop

/-- Nothing that is passed names another variable; nor does what is returned. -/
def Promised (S : String → Prop) (c : Call) (R : Result → Prop) : Prop :=
  c.func.toVal.Within S ∧ (∀ v ∈ c.args, v.Within S) ∧ R = Returns (FeelVal.Within S)

/-- Computations over scopes that name only variables of `S`. -/
abbrev Likewise {α : Type} (S : String → Prop) (Q : α → Prop) (m m' : EvalM α) : Prop :=
  Agree (Frame.All (FeelVal.Within S)) (Promised S) Q m m'

theorem apply_likewise {func : Func} (hfunc : func.toVal.Within S) {args : List FeelVal}
    (hargs : ∀ v ∈ args, v.Within S) :
    Likewise S (FeelVal.Within S) (EvalM.apply func args) (EvalM.apply func args) :=
  .apply ⟨hfunc, hargs, rfl⟩

/-! ## Nodes -/

/-- The contexts agree on the variables of `S`. -/
def AgreeOn (S : String → Prop) (base base' : Vars) : Prop := ∀ name, S name → base[name]? = base'[name]?

variable {base base' : Vars}

theorem parts_of_append {xs ys : List String} (h : ∀ name ∈ xs ++ ys, S name) :
    (∀ name ∈ xs, S name) ∧ ∀ name ∈ ys, S name :=
  List.forall_mem_append.mp h

variable [Texts]

mutual

/-- Contexts that agree on the variables of a node let it run alike. -/
theorem evalNode_alike (hbase : AgreeOn S base base') : ∀ node : Node, (∀ name ∈ node.collectVars, S name) →
    Likewise S (FeelVal.Within S) (evalNode base node) (evalNode base' node)
  | .null, _ => .pure (within_structural.null)
  | .boolLit b, _ => .pure (within_structural.bool b)
  | .numLit v isInteger, _ => by
    refine .pure ?_
    split
    · exact within_structural.int _
    · exact within_structural.num v
  | .strLit s, _ => .pure (within_structural.str s)
  | .atLit s, _ => by
    unfold evalNode
    split
    · next p _ => exact .pure (within_structural.plain p)
    · exact .fail _
    · refine apply_likewise (.builtin _) fun v hv => ?_
      obtain rfl := List.mem_singleton.mp hv
      exact within_structural.str s
  | .var name, h => by
    have hname : S name := h name (List.mem_singleton.mpr rfl)
    refine (lookup_agree within_structural (hbase name hname) fun _ _ hframe hget => hframe.get hget).bind
      fun v hv => .pure ?_
    cases v with
    | some w => exact hv w rfl
    | none =>
      show FeelVal.Within S (if Builtins.isBuiltin name then .builtin name else .null)
      split
      · exact .builtin name
      · exact within_structural.null
  | .member obj name, h => (evalNode_alike hbase obj h).bind fun v hv => .pure (within_structural.member v name hv)
  | .index obj idx, h =>
    have ⟨hobj, hidx⟩ := parts_of_append h
    evalIndex_agree within_structural (fun _ hv => within_structural.itemFrame hv) (evalNode_alike hbase obj hobj)
      ((evalNode_alike hbase idx hidx).mono fun _ _ => trivial)
  | .neg inner, h => (evalNode_alike hbase inner h).bind fun v _ =>
    .ofExcept fun w hw => within_structural.scalar w (negate_returns v w hw)
  | .not inner, h => (evalNode_alike hbase inner h).bind fun v _ =>
    .ofExcept fun w hw => within_structural.scalar w (complement_returns v w hw)
  | .bin op lhs rhs, h => by
    obtain ⟨hlhs, hrhs⟩ := parts_of_append h
    refine (evalNode_alike hbase lhs hlhs).bind fun l _ => ?_
    split
    · exact .pure (within_structural.bool false)
    · split
      · exact .pure (within_structural.bool true)
      · refine (evalNode_alike hbase rhs hrhs).bind fun r _ => .ofExcept fun w hw => ?_
        exact within_structural.scalar w (operate_returns op l r w hw)
  | .list items, h => by
    refine (evalItems_agree fun i n hn => items_alike hbase items h n (List.mem_of_getElem? hn)).bind fun vs hvs => ?_
    refine .pure (.list vs fun v hv => ?_)
    obtain ⟨i, hi⟩ := List.getElem?_of_mem hv
    exact hvs i v hi
  | .context entries, h => by
    refine (Agree.push .nil).bind fun _ _ => ?_
    refine (evalEntries_agree (entries_alike hbase entries h) (fun _ _ _ _ hv hframe => hframe.insert _ hv)
      (fun _ _ _ hv => hv) .nil).bind fun map hmap => ?_
    exact Agree.pop.bind fun _ _ => .pure (.context map hmap)
  | .ifThenElse cond then' else', h => by
    obtain ⟨h, helse⟩ := parts_of_append h
    obtain ⟨hcond, hthen⟩ := parts_of_append h
    refine (evalNode_alike hbase cond hcond).bind fun v _ => ?_
    split
    · exact evalNode_alike hbase then' hthen
    · exact evalNode_alike hbase else' helse
    · exact .pure within_structural.null
  | .forIn clauses body, h => by
    obtain ⟨hclauses, hbody⟩ := parts_of_append h
    refine (evalFor_agree (entries_alike hbase clauses hclauses) (fun _ _ v hv item hitem _ hframe =>
      hframe.insert _ (within_structural.iterable hv item hitem)) (fun name _ hframe => hframe.remove name)
      (evalNode_alike hbase body hbody) .nil).bind fun r hr => ?_
    exact .pure (.list r.1 hr.1)
  | .quant q clauses body, h => by
    obtain ⟨hclauses, hbody⟩ := parts_of_append h
    refine (evalFor_agree (entries_alike hbase clauses hclauses) (fun _ _ v hv item hitem _ hframe =>
      hframe.insert _ (within_structural.iterable hv item hitem)) (fun name _ hframe => hframe.remove name)
      (evalNode_alike hbase body hbody) .nil).bind fun r _ => ?_
    exact .pure (within_structural.bool _)
  | .between x lo hi, h => by
    obtain ⟨h, hhi⟩ := parts_of_append h
    obtain ⟨hx, hlo⟩ := parts_of_append h
    refine (evalNode_alike hbase x hx).bind fun xv _ => ?_
    refine (evalNode_alike hbase lo hlo).bind fun lov _ => ?_
    exact (evalNode_alike hbase hi hhi).bind fun hiv _ => .pure (within_structural.bool _)
  | .isIn x rhs, h => by
    obtain ⟨hx, hrhs⟩ := parts_of_append h
    refine (evalNode_alike hbase x hx).bind fun xv _ => ?_
    exact (evalNode_alike hbase rhs hrhs).bind fun r _ => .pure (within_structural.bool _)
  | .instanceOf x ty, h => (evalNode_alike hbase x h).bind fun v _ => .pure (within_structural.bool _)
  | .funcDef params body, h => Agree.getScopes.bind fun scopes hscopes =>
    .pure (.lambda params body _ h (closure_of_scopes (W := Frame.All (FeelVal.Within S)) .nil
      (fun _ _ hframe hupdates => hframe.extend hupdates) hscopes))
  | .range si start stop ei, h => by
    obtain ⟨hstart, hstop⟩ := parts_of_append h
    refine (evalBound_agree (bound_alike hbase start hstart)).bind fun s hs => ?_
    exact (evalBound_agree (bound_alike hbase stop hstop)).bind fun e he => .pure (.range s si e ei hs he)
  | .callPositional callee args, h => by
    obtain ⟨hcallee, hargs⟩ := parts_of_append h
    refine (evalNode_alike hbase callee hcallee).bind fun v hv => ?_
    split
    · exact .fail _
    · next func hfunc =>
      rw [← FeelVal.toVal_of_asFunc hfunc] at hv
      refine (evalItems_agree fun i n hn => items_alike hbase args hargs n (List.mem_of_getElem? hn)).bind
        fun vs hvs => apply_likewise hv fun w hw => ?_
      obtain ⟨i, hi⟩ := List.getElem?_of_mem hw
      exact hvs i w hi
  | .callNamed callee args, h => by
    obtain ⟨hcallee, hargs⟩ := parts_of_append h
    refine (evalNode_alike hbase callee hcallee).bind fun v hv => ?_
    have hslots (params : List String) : ∀ w ∈ params.map fun _ => FeelVal.null, FeelVal.Within S w := by
      intro w hw
      obtain ⟨_, -, rfl⟩ := List.mem_map.mp hw
      exact within_structural.null
    have hnamed := entries_alike hbase args hargs
    split
    · exact .fail _
    · split
      · exact .fail _
      · next params _ =>
        exact (evalNamed_agree params _ hnamed (hslots params)).bind fun vs hvs => apply_likewise (.builtin _) hvs
    · next params body closure hfunc =>
      rw [← FeelVal.toVal_of_asFunc hfunc] at hv
      exact (evalNamed_agree params _ hnamed (hslots params)).bind fun vs hvs => apply_likewise hv hvs

theorem items_alike (hbase : AgreeOn S base base') : ∀ items : List Node,
    (∀ name ∈ Node.collectItems items, S name) →
    ∀ n ∈ items, Likewise S (FeelVal.Within S) (evalNode base n) (evalNode base' n)
  | [], _, _, hn => by cases hn
  | n :: rest, h, m, hm => by
    obtain ⟨hn, hrest⟩ := parts_of_append h
    rcases List.mem_cons.mp hm with heq | hm
    · rw [heq]
      exact evalNode_alike hbase n hn
    · exact items_alike hbase rest hrest m hm

theorem entries_alike (hbase : AgreeOn S base base') : ∀ entries : List (String × Node),
    (∀ name ∈ Node.collectEntries entries, S name) →
    ∀ e ∈ entries, Likewise S (FeelVal.Within S) (evalNode base e.2) (evalNode base' e.2)
  | [], _, _, he => by cases he
  | (_, n) :: rest, h, e, he => by
    obtain ⟨hn, hrest⟩ := parts_of_append h
    rcases List.mem_cons.mp he with heq | he
    · rw [heq]
      exact evalNode_alike hbase n hn
    · exact entries_alike hbase rest hrest e he

theorem bound_alike (hbase : AgreeOn S base base') : ∀ bound : Option Node,
    (∀ name ∈ Node.collectBound bound, S name) →
    ∀ n ∈ bound, Likewise S (FeelVal.Within S) (evalNode base n) (evalNode base' n)
  | none, _, _, hn => by cases hn
  | some n, h, m, hn => by
    rw [← Option.some.inj hn]
    exact evalNode_alike hbase n h

end

/-! ## Calls -/

/-- A body that is called with what names variables of `S` does not tell contexts apart that agree on them. -/
theorem body_alike (hbase : AgreeOn S base base') {c : Call} {R : Result → Prop} (hc : Promised S c R) :
    Calls.Alike (Promised S) R (body base c) (body base' c) := by
  obtain ⟨func, args, fuel⟩ := c
  obtain ⟨hfunc, hargs, rfl⟩ := hc
  cases func with
  | builtin name =>
    show Calls.Alike _ _ (callBuiltin name args fuel) (callBuiltin name args fuel)
    rcases eq_or_ne name "sort" with rfl | hname
    · refine sort_alike within_structural (within_structural.arg hargs 0) fun func hsome a b ha hb => ?_
      obtain ⟨v, hv, hasFunc⟩ := Option.bind_eq_some_iff.mp hsome
      refine ⟨_, ?_, ?_, rfl⟩
      · rw [FeelVal.toVal_of_asFunc hasFunc]
        exact hargs v (List.mem_of_getElem? hv)
      · simp [ha, hb]
    · exact callBuiltin_alike within_structural hname hargs fun _ => ⟨hfunc, hargs, rfl⟩
  | lambda params node closure =>
    cases hfunc with
    | scalar _ h => cases h
    | lambda _ _ _ hbody hclosure =>
      have hscopes : ∀ frame ∈ [argFrame params args, closure], Frame.All (FeelVal.Within S) frame := by
        intro frame hframe
        simp only [List.mem_cons, List.not_mem_nil, or_false] at hframe
        rcases hframe with rfl | rfl
        · exact within_structural.argFrame hargs params
        · exact hclosure
      exact (evalNode_alike hbase node hbody _ hscopes).bind fun r hr => .pure hr.1

/-- Contexts that agree on the variables of a node do not tell it apart, whatever is read from outside. -/
theorem run_evaluate_eq {node : Node} (hbase : AgreeOn (· ∈ node.collectVars) base base') (outside : Nat → Draw)
    (depth : Nat) :
    Calls.run (body base) outside depth (evaluate base node) 0 =
      Calls.run (body base') outside depth (evaluate base' node) 0 := by
  have hnode : Calls.Alike (Promised (· ∈ node.collectVars)) (Returns (FeelVal.Within (· ∈ node.collectVars)))
      (evaluate base node) (evaluate base' node) :=
    (evalNode_alike hbase node (fun _ h => h) [] fun _ h => by cases h).bind fun r hr => .pure hr.1
  exact hnode.run_eq (fun _ _ hc => body_alike hbase hc) depth 0

end NanoBpm.FeelExpr
