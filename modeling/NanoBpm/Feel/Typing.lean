import NanoBpm.Feel.Rules

/-!
# Simply typed FEEL expressions

The evaluator has no types and no bound on its calls. An expression to whose functions types can be given has one: a type
says what the functions in a value take and return, and a value of a type is one whose functions end on arguments of
their types (`Red`).
-/

namespace NanoBpm.FeelExpr

/-- What the functions in a value take, by position, and return; `data` holds none. -/
inductive Ty where
  | data
  | fn (params : Nat → Ty) (result : Ty)

/-- What holds values of one type may be used for what holds values of the other. -/
def Ty.Fits (σ τ : Ty) : Prop := σ = .data ∨ σ = τ

/-- Every function in a value; what a function has captured is not looked at. -/
inductive FeelVal.Funcs (P : Func → Prop) : FeelVal → Prop
  | scalar (v : FeelVal) (h : v.IsScalar) : Funcs P v
  | list (items : List FeelVal) (h : ∀ v ∈ items, Funcs P v) : Funcs P (.list items)
  | context (entries : Frame) (h : ∀ e ∈ entries, Funcs P e.2) : Funcs P (.context entries)
  | range (start : Option FeelVal) (startInclusive : Bool) (stop : Option FeelVal) (endInclusive : Bool)
      (hstart : ∀ v ∈ start, Funcs P v) (hstop : ∀ v ∈ stop, Funcs P v) :
      Funcs P (.range start startInclusive stop endInclusive)
  | builtin (name : String) (h : P (.builtin name)) : Funcs P (.builtin name)
  | lambda (params : List String) (body : Node) (closure : Frame) (h : P (.lambda params body closure)) :
      Funcs P (.lambda params body closure)

theorem funcs_structural {P : Func → Prop} : Structural (FeelVal.Funcs P) where
  scalar := .scalar
  list items := by
    constructor
    · intro h
      cases h with
      | scalar _ h => cases h
      | list _ h => exact h
    · exact .list items
  context entries := by
    constructor
    · intro h
      cases h with
      | scalar _ h => cases h
      | context _ h => exact h
    · exact .context entries
  range start si stop ei := by
    constructor
    · intro h
      cases h with
      | scalar _ h => cases h
      | range _ _ _ _ hstart hstop => exact ⟨hstart, hstop⟩
    · rintro ⟨hstart, hstop⟩
      exact .range start si stop ei hstart hstop

theorem FeelVal.Funcs.mono {P P' : Func → Prop} (hP : ∀ f, P f → P' f) {v : FeelVal} (h : v.Funcs P) : v.Funcs P' := by
  induction h with
  | scalar v h => exact .scalar v h
  | list items _ ih => exact .list items ih
  | context entries _ ih => exact .context entries ih
  | range start si stop ei _ _ hstart hstop => exact .range start si stop ei hstart hstop
  | builtin name h => exact .builtin name (hP _ h)
  | lambda params body closure h => exact .lambda params body closure (hP _ h)

theorem FeelVal.Funcs.of_asFunc {P : Func → Prop} {v : FeelVal} (h : v.Funcs P) {func : Func}
    (hfunc : v.asFunc = some func) : P func := by
  cases h with
  | scalar v h =>
    cases v
    case builtin | lambda => cases h
    all_goals cases hfunc
  | builtin name h =>
    cases hfunc
    exact h
  | lambda params body closure h =>
    cases hfunc
    exact h
  | _ => cases hfunc

section

variable [Texts]

/-- The calls of builtins that return nothing. -/
def Call.Stuck (c : Call) : Prop := ∃ name, c.func = .builtin name ∧ ∀ fuel, Builtins.callWithin fuel name c.args = none

open Classical in
/-- The bodies of the calls, with an error for those that return nothing. -/
noncomputable def settled (base : Vars) (c : Call) : Steps Result := if c.Stuck then return .error "" else body base c

theorem settled_of_not_stuck {base : Vars} {c : Call} (h : ¬ c.Stuck) : settled base c = body base c := if_neg h

theorem not_stuck_lambda {params : List String} {node : Node} {closure : Frame} {args : List FeelVal} {fuel : Nat} :
    ¬ Call.Stuck ⟨.lambda params node closure, args, fuel⟩ := by
  rintro ⟨name, hname, -⟩
  cases hname

theorem not_stuck_sort {args : List FeelVal} {fuel : Nat} : ¬ Call.Stuck ⟨.builtin "sort", args, fuel⟩ := by
  rintro ⟨name, hname, hnone⟩
  cases hname
  have hsome : Builtins.callWithin 0 "sort" args = some (.error "unknown function 'sort'") := rfl
  rw [hnone 0] at hsome
  cases hsome

variable (base : Vars) (outside : Nat → Draw)

/-- The values of a type. -/
def Red : Ty → FeelVal → Prop
  | .data => FeelVal.Funcs fun _ => False
  | .fn σ τ => FeelVal.Funcs fun func => ∀ args : List FeelVal, (∀ i v, args[i]? = some v → Red (σ i) v) →
      Calls.Total (settled base) outside (Returns (Red τ)) (settled base ⟨func, args, 0⟩)

variable {base outside}

theorem red_structural (τ : Ty) : Structural (Red base outside τ) := by
  cases τ with
  | data => exact funcs_structural
  | fn σ τ => exact funcs_structural

theorem Red.fits {σ τ : Ty} (h : σ.Fits τ) {v : FeelVal} (hv : Red base outside σ v) : Red base outside τ v := by
  rcases h with rfl | rfl
  · cases τ with
    | data => exact hv
    | fn σ τ => exact FeelVal.Funcs.mono (fun _ h => h.elim) hv
  · exact hv

theorem Red.total {σ : Nat → Ty} {τ : Ty} {v : FeelVal} (h : Red base outside (.fn σ τ) v) {func : Func}
    (hfunc : v.asFunc = some func) {args : List FeelVal}
    (hargs : ∀ i w, args[i]? = some w → Red base outside (σ i) w) :
    Calls.Total (settled base) outside (Returns (Red base outside τ)) (settled base ⟨func, args, 0⟩) :=
  FeelVal.Funcs.of_asFunc h hfunc args hargs

/-! ## Expressions -/

/-- `G` types the names that an expression binds, wherever it binds them. -/
inductive HasType (G : String → Ty) : Node → Ty → Prop
  | fits {n : Node} {σ τ : Ty} (h : HasType G n σ) (hfits : σ.Fits τ) : HasType G n τ
  | null : HasType G .null .data
  | boolLit (b : Bool) : HasType G (.boolLit b) .data
  | numLit (v : UInt64) (isInteger : Bool) : HasType G (.numLit v isInteger) .data
  | strLit (s : String) : HasType G (.strLit s) .data
  | atLit (s : String) : HasType G (.atLit s) .data
  | var (name : String) (h : Builtins.isBuiltin name = false) : HasType G (.var name) (G name)
  /-- A builtin other than `sort` returns what is in its arguments. -/
  | builtin (name : String) (τ : Ty) (hG : (G name).Fits (.fn (fun _ => τ) τ)) (hname : name ≠ "sort" ∨ τ = .data) :
      HasType G (.var name) (.fn (fun _ => τ) τ)
  | member {obj : Node} {τ : Ty} (name : String) (h : HasType G obj τ) : HasType G (.member obj name) τ
  /-- A filter binds the names of the items' entries. -/
  | index {obj idx : Node} {ρ : Ty} (hobj : HasType G obj .data) (hidx : HasType G idx ρ) :
      HasType G (.index obj idx) .data
  | neg {inner : Node} {ρ : Ty} (h : HasType G inner ρ) : HasType G (.neg inner) .data
  | not {inner : Node} {ρ : Ty} (h : HasType G inner ρ) : HasType G (.not inner) .data
  | bin {lhs rhs : Node} {ρ ρ' : Ty} (op : BinOp) (hlhs : HasType G lhs ρ) (hrhs : HasType G rhs ρ') :
      HasType G (.bin op lhs rhs) .data
  | list {items : List Node} {τ : Ty} (h : ∀ n ∈ items, HasType G n τ) : HasType G (.list items) τ
  | context {entries : List (String × Node)} {τ : Ty} (ρ : String × Node → Ty) (h : ∀ e ∈ entries, HasType G e.2 (ρ e))
      (hname : ∀ e ∈ entries, (ρ e).Fits (G e.1)) (hall : ∀ e ∈ entries, (ρ e).Fits τ) : HasType G (.context entries) τ
  | ifThenElse {cond then' else' : Node} {ρ τ : Ty} (hcond : HasType G cond ρ) (hthen : HasType G then' τ)
      (helse : HasType G else' τ) : HasType G (.ifThenElse cond then' else') τ
  | forIn {clauses : List (String × Node)} {body : Node} {τ : Ty} (hclauses : ∀ c ∈ clauses, HasType G c.2 (G c.1))
      (hbody : HasType G body τ) : HasType G (.forIn clauses body) τ
  | quant {clauses : List (String × Node)} {body : Node} {ρ : Ty} (q : Quantifier)
      (hclauses : ∀ c ∈ clauses, HasType G c.2 (G c.1)) (hbody : HasType G body ρ) :
      HasType G (.quant q clauses body) .data
  | between {x lo hi : Node} {ρ ρ' ρ'' : Ty} (hx : HasType G x ρ) (hlo : HasType G lo ρ') (hhi : HasType G hi ρ'') :
      HasType G (.between x lo hi) .data
  | isIn {x rhs : Node} {ρ ρ' : Ty} (hx : HasType G x ρ) (hrhs : HasType G rhs ρ') : HasType G (.isIn x rhs) .data
  | instanceOf {x : Node} {ρ : Ty} (ty : String) (hx : HasType G x ρ) : HasType G (.instanceOf x ty) .data
  | funcDef {params : List String} {body : Node} {σ : Nat → Ty} {τ : Ty}
      (hparams : ∀ i p, params[i]? = some p → (σ i).Fits (G p)) (hbody : HasType G body τ) :
      HasType G (.funcDef params body) (.fn σ τ)
  | range {start stop : Option Node} {τ : Ty} (startInclusive endInclusive : Bool) (hstart : ∀ n ∈ start, HasType G n τ)
      (hstop : ∀ n ∈ stop, HasType G n τ) : HasType G (.range startInclusive start stop endInclusive) τ
  | callPositional {callee : Node} {args : List Node} {σ : Nat → Ty} {τ : Ty} (hcallee : HasType G callee (.fn σ τ))
      (hargs : ∀ i n, args[i]? = some n → HasType G n (σ i)) : HasType G (.callPositional callee args) τ
  /-- `sort` calls the function on two items of the list. -/
  | sort {list func : Node} {σ : Nat → Ty} {τ ρ : Ty} (hG : G "sort" = .data) (hlist : HasType G list τ)
      (hfunc : HasType G func (.fn σ ρ)) (hfirst : τ.Fits (σ 0)) (hsecond : τ.Fits (σ 1)) :
      HasType G (.callPositional (.var "sort") [list, func]) τ
  | callNamed {callee : Node} {args : List (String × Node)} {σ τ : Ty} (hcallee : HasType G callee (.fn (fun _ => σ) τ))
      (hargs : ∀ a ∈ args, HasType G a.2 σ) : HasType G (.callNamed callee args) τ

/-! ## Typed expressions end -/

/-- Every name has a value of its type. -/
def Typed (base : Vars) (outside : Nat → Draw) (G : String → Ty) (frame : Frame) : Prop :=
  ∀ e ∈ frame, Red base outside (G e.1) e.2

variable {G : String → Ty} {frame : Frame}

theorem Typed.nil : Typed base outside G [] := fun _ h => by cases h

theorem Typed.get (h : Typed base outside G frame) {name : String} {v : FeelVal} (hget : frame.get name = some v) :
    Red base outside (G name) v :=
  h (name, v) (Frame.mem_of_get hget)

theorem Typed.insert (h : Typed base outside G frame) {name : String} {v : FeelVal} (hv : Red base outside (G name) v) :
    Typed base outside G (frame.insert name v) := by
  intro e he
  rcases Frame.mem_insert he with rfl | he
  · exact hv
  · exact h e he

theorem Typed.remove (h : Typed base outside G frame) (name : String) : Typed base outside G (frame.remove name) :=
  fun e he => h e (Frame.mem_of_remove he)

theorem Typed.extend (h : Typed base outside G frame) {updates : Frame} (hupdates : Typed base outside G updates) :
    Typed base outside G (frame.extend updates) := by
  intro e he
  rcases Frame.mem_extend he with he | he
  · exact hupdates e he
  · exact h e he

/-- Data may have any name. -/
theorem Typed.of_data (h : frame.All (Red base outside .data)) : Typed base outside G frame :=
  fun e he => Red.fits (.inl rfl) (h e he)

theorem typed_argFrame {params : List String} {σ : Nat → Ty} (hparams : ∀ i p, params[i]? = some p → (σ i).Fits (G p))
    {args : List FeelVal} (hargs : ∀ i v, args[i]? = some v → Red base outside (σ i) v) :
    Typed base outside G (argFrame params args) := by
  have hfold : ∀ (pairs : List (String × Nat)) (frame : Frame), (∀ pair ∈ pairs, params[pair.2]? = some pair.1) →
      Typed base outside G frame →
      Typed base outside G (pairs.foldl (fun frame pair => Frame.insert frame pair.1 (Builtins.arg args pair.2)) frame) := by
    intro pairs
    induction pairs with
    | nil => exact fun _ _ hframe => hframe
    | cons pair rest ih =>
      obtain ⟨p, i⟩ := pair
      intro frame hpairs hframe
      have hp := hpairs (p, i) List.mem_cons_self
      refine ih _ (fun q hq => hpairs q (List.mem_cons_of_mem _ hq)) (hframe.insert ?_)
      exact Red.fits (hparams i p hp) ((red_structural (σ i)).getD fun v hv => hargs i v hv)
  refine hfold _ _ (fun pair hpair => ?_) .nil
  obtain ⟨p, i⟩ := pair
  exact List.mem_zipIdx_iff_getElem?.mp hpair

/-- Computations over typed names all of whose calls end. -/
abbrev Ending {α : Type} (base : Vars) (outside : Nat → Draw) (G : String → Ty) (Q : α → Prop) (m : EvalM α) : Prop :=
  Agree (Typed base outside G) (fun c R => Calls.Total (settled base) outside R (settled base c)) Q m m

theorem sort_ends {τ ρ : Ty} {σ : Nat → Ty} {list func : FeelVal} (hlist : Red base outside τ list)
    (hfunc : Red base outside (.fn σ ρ) func) (hfirst : τ.Fits (σ 0)) (hsecond : τ.Fits (σ 1)) :
    Calls.Total (settled base) outside (Returns (Red base outside τ)) (sort [list, func]) := by
  refine (sort_alike (red_structural τ) hlist fun f hf a b ha hb => ?_).total
    (P := fun c R => Calls.Total (settled base) outside R (settled base c)) fun _ _ hc => hc
  refine ⟨_, hfunc.total hf fun i w hw => ?_⟩
  match i with
  | 0 =>
    cases hw
    exact ha.fits hfirst
  | 1 =>
    cases hw
    exact hb.fits hsecond
  | i + 2 => simp at hw

/-- A builtin other than `sort` that returns at all is called until it does. -/
theorem builtin_ends {name : String} (hname : name ≠ "sort") {τ : Ty} {args : List FeelVal}
    (hargs : ∀ v ∈ args, Red base outside τ v) :
    Calls.Total (settled base) outside (Returns (Red base outside τ)) (settled base ⟨.builtin name, args, 0⟩) := by
  by_cases hstuck : Call.Stuck ⟨.builtin name, args, 0⟩
  · rw [settled, if_pos hstuck]
    exact Calls.total_pure (.error _)
  · obtain ⟨enough, hsome⟩ : ∃ fuel, Builtins.callWithin fuel name args ≠ none := by
      by_contra hnone
      exact hstuck ⟨name, rfl, by simpa using hnone⟩
    have hbody (fuel : Nat) : settled base ⟨.builtin name, args, fuel⟩ = callBuiltin name args fuel :=
      settled_of_not_stuck (c := ⟨.builtin name, args, fuel⟩) hstuck
    have hcall : ∀ more fuel, fuel + more = enough → Calls.Total (settled base) outside (Returns (Red base outside τ))
        (settled base ⟨.builtin name, args, fuel⟩) := by
      intro more
      induction more with
      | zero =>
        intro fuel hfuel
        rw [hbody]
        refine (callBuiltin_alike (red_structural τ) hname hargs fun hnone => ?_).total
          (P := fun c R => Calls.Total (settled base) outside R (settled base c)) fun _ _ h => h
        rw [Nat.add_zero] at hfuel
        exact absurd (hfuel ▸ hnone) hsome
      | succ more ih =>
        intro fuel hfuel
        rw [hbody]
        refine (callBuiltin_alike (red_structural τ) hname hargs fun _ => ?_).total
          (P := fun c R => Calls.Total (settled base) outside R (settled base c)) fun _ _ h => h
        exact ih (fuel + 1) (by omega)
    exact hcall enough 0 (Nat.zero_add _)

/-- A builtin other than `sort`, and `sort` of data. -/
theorem builtin_red (name : String) {τ : Ty} (hname : name ≠ "sort" ∨ τ = .data) :
    Red base outside (.fn (fun _ => τ) τ) (.builtin name) := by
  refine .builtin name fun args hargs => ?_
  have hall : ∀ v ∈ args, Red base outside τ v := by
    intro v hv
    obtain ⟨i, hi⟩ := List.getElem?_of_mem hv
    exact hargs i v hi
  rcases eq_or_ne name "sort" with rfl | hne
  · obtain rfl := hname.resolve_left fun h => h rfl
    rw [settled_of_not_stuck not_stuck_sort]
    refine (sort_alike (red_structural .data) ((red_structural .data).arg hall 0) fun f hf a b _ _ => ?_).total
      (P := fun c R => Calls.Total (settled base) outside R (settled base c)) fun _ _ h => h
    obtain ⟨v, hv, hasFunc⟩ := Option.bind_eq_some_iff.mp hf
    exact (FeelVal.Funcs.of_asFunc (hall v (List.mem_of_getElem? hv)) hasFunc).elim
  · exact builtin_ends hne hall

theorem lookup_ends (name : String) :
    Ending base outside G (fun v : Option FeelVal => ∀ w ∈ v, Red base outside (G name) w) (lookup base name) :=
  lookup_agree (red_structural _) rfl fun _ _ hframe hget => hframe.get hget

theorem var_ends {name : String} {τ : Ty} (hG : (G name).Fits τ)
    (hbuiltin : Builtins.isBuiltin name = true → Red base outside τ (.builtin name)) :
    Ending base outside G (Red base outside τ) (evalNode base (.var name)) := by
  refine (lookup_ends name).bind fun v hv => .pure ?_
  cases v with
  | some w => exact (hv w rfl).fits hG
  | none =>
    show Red base outside τ (if Builtins.isBuiltin name then .builtin name else .null)
    split
    · next h => exact hbuiltin h
    · exact (red_structural τ).null

theorem itemFrame_typed {v : FeelVal} (h : Red base outside .data v) : Typed base outside G (itemFrame v) :=
  Typed.of_data ((red_structural .data).itemFrame h)

/-- What a literal makes of typed scopes is a function of its type. -/
theorem lambda_red {params : List String} {node : Node} {σ : Nat → Ty} {τ : Ty}
    (hparams : ∀ i p, params[i]? = some p → (σ i).Fits (G p))
    (hbody : Ending base outside G (Red base outside τ) (evalNode base node)) {closure : Frame}
    (hclosure : Typed base outside G closure) : Red base outside (.fn σ τ) (.lambda params node closure) := by
  refine .lambda params node closure fun args hargs => ?_
  have hscopes : ∀ frame ∈ [argFrame params args, closure], Typed base outside G frame := by
    intro frame hframe
    simp only [List.mem_cons, List.not_mem_nil, or_false] at hframe
    rcases hframe with rfl | rfl
    · exact typed_argFrame hparams hargs
    · exact hclosure
  rw [settled_of_not_stuck not_stuck_lambda]
  exact ((hbody _ hscopes).bind fun r hr => .pure hr.1).total fun _ _ hc => hc

/-- The only function that `sort` can name is the builtin. -/
theorem sortCallee_ends (hG : G "sort" = .data) :
    Ending base outside G (fun v => ∀ f, v.asFunc = some f → f = .builtin "sort") (evalNode base (.var "sort")) := by
  refine (lookup_ends "sort").bind fun v hv => .pure ?_
  intro f hf
  cases v with
  | some w =>
    have hw : Red base outside .data w := hG ▸ hv w rfl
    exact (FeelVal.Funcs.of_asFunc hw hf).elim
  | none =>
    cases hf
    rfl

theorem twoItems_ends {first second : Node} {K K' : FeelVal → Prop}
    (hfirst : Ending base outside G K (evalNode base first)) (hsecond : Ending base outside G K' (evalNode base second)) :
    Ending base outside G (fun vs : List FeelVal => ∃ v w, vs = [v, w] ∧ K v ∧ K' w) (evalItems base [first, second]) := by
  refine hfirst.bind fun v hv => ?_
  have hrest : Ending base outside G (fun vs : List FeelVal => ∃ w, vs = [w] ∧ K' w) (evalItems base [second]) := by
    refine hsecond.bind fun w hw => ?_
    have hnil : Ending base outside G (fun vs : List FeelVal => vs = []) (evalItems base []) := .pure rfl
    refine hnil.bind fun vs hvs => .pure ⟨w, ?_, hw⟩
    rw [hvs]
  refine hrest.bind fun vs hvs => .pure ?_
  obtain ⟨w, rfl, hw⟩ := hvs
  exact ⟨v, w, rfl, hv, hw⟩

/-- A typed expression computes a value of its type, if any, and its calls end. -/
theorem evalNode_ends {node : Node} {τ : Ty} (h : HasType G node τ) :
    Ending base outside G (Red base outside τ) (evalNode base node) := by
  induction h with
  | fits _ hfits ih => exact ih.mono fun v hv => hv.fits hfits
  | null => exact .pure (red_structural .data).null
  | boolLit b => exact .pure ((red_structural .data).bool b)
  | numLit v isInteger =>
    refine .pure ?_
    split
    · exact (red_structural .data).int _
    · exact (red_structural .data).num v
  | strLit s => exact .pure ((red_structural .data).str s)
  | atLit s =>
    unfold evalNode
    split
    · next p _ => exact .pure ((red_structural .data).plain p)
    · exact .fail _
    · have hname : textBuiltin s.toList ≠ "sort" := by
        unfold textBuiltin
        split_ifs <;> decide
      refine .apply (builtin_ends hname fun v hv => ?_)
      obtain rfl := List.mem_singleton.mp hv
      exact (red_structural .data).str s
  | var name hname => exact var_ends (.inr rfl) fun h => by simp [hname] at h
  | builtin name τ hG hname => exact var_ends hG fun _ => builtin_red name hname
  | @member obj τ name _ ih => exact ih.bind fun v hv => .pure ((red_structural τ).member v name hv)
  | index _ _ ihobj ihidx =>
    exact evalIndex_agree (red_structural .data) (fun _ hv => itemFrame_typed hv) ihobj (ihidx.mono fun _ _ => trivial)
  | neg _ ih =>
    exact ih.bind fun v _ => .ofExcept fun w hw => (red_structural .data).scalar w (negate_returns v w hw)
  | not _ ih =>
    exact ih.bind fun v _ => .ofExcept fun w hw => (red_structural .data).scalar w (complement_returns v w hw)
  | bin op _ _ ihlhs ihrhs =>
    refine ihlhs.bind fun l _ => ?_
    split
    · exact .pure ((red_structural .data).bool false)
    · split
      · exact .pure ((red_structural .data).bool true)
      · refine ihrhs.bind fun r _ => .ofExcept fun w hw => ?_
        exact (red_structural .data).scalar w (operate_returns op l r w hw)
  | @list items τ _ ih =>
    refine (evalItems_agree fun i n hn => ih n (List.mem_of_getElem? hn)).bind fun vs hvs => .pure ?_
    refine ((red_structural τ).list vs).mpr fun v hv => ?_
    obtain ⟨i, hi⟩ := List.getElem?_of_mem hv
    exact hvs i v hi
  | @context entries τ ρ _ hname hall ih =>
    refine (Agree.push .nil).bind fun _ _ => ?_
    refine (evalEntries_agree ih (fun e he v frame hv hframe => hframe.insert (hv.fits (hname e he)))
      (fun e he v hv => hv.fits (hall e he)) .nil).bind fun map hmap => ?_
    exact Agree.pop.bind fun _ _ => .pure (((red_structural τ).context map).mpr hmap)
  | @ifThenElse cond then' else' ρ τ _ _ _ ihcond ihthen ihelse =>
    refine ihcond.bind fun v _ => ?_
    split
    · exact ihthen
    · exact ihelse
    · exact .pure (red_structural τ).null
  | @forIn clauses node τ _ _ ihclauses ihbody =>
    refine (evalFor_agree ihclauses (fun c _ v hv item hitem _ hframe =>
      hframe.insert ((red_structural _).iterable hv item hitem)) (fun name _ hframe => hframe.remove name) ihbody
      .nil).bind fun r hr => ?_
    exact .pure (((red_structural τ).list r.1).mpr hr.1)
  | quant q _ _ ihclauses ihbody =>
    refine (evalFor_agree ihclauses (fun c _ v hv item hitem _ hframe =>
      hframe.insert ((red_structural _).iterable hv item hitem)) (fun name _ hframe => hframe.remove name) ihbody
      .nil).bind fun r _ => ?_
    exact .pure ((red_structural .data).bool _)
  | between _ _ _ ihx ihlo ihhi =>
    exact ihx.bind fun xv _ => ihlo.bind fun lov _ => ihhi.bind fun hiv _ => .pure ((red_structural .data).bool _)
  | isIn _ _ ihx ihrhs => exact ihx.bind fun xv _ => ihrhs.bind fun r _ => .pure ((red_structural .data).bool _)
  | instanceOf ty _ ih => exact ih.bind fun v _ => .pure ((red_structural .data).bool _)
  | funcDef hparams _ ih =>
    refine Agree.getScopes.bind fun scopes hscopes => .pure (lambda_red hparams ih ?_)
    exact closure_of_scopes .nil (fun _ _ hframe hupdates => hframe.extend hupdates) hscopes
  | @range start stop τ si ei _ _ ihstart ihstop =>
    refine (evalBound_agree ihstart).bind fun s hs => ?_
    exact (evalBound_agree ihstop).bind fun e he => .pure (((red_structural τ).range s si e ei).mpr ⟨hs, he⟩)
  | callPositional _ _ ihcallee ihargs =>
    refine ihcallee.bind fun v hv => ?_
    split
    · exact .fail _
    · next func hfunc => exact (evalItems_agree ihargs).bind fun vs hvs => .apply (hv.total hfunc hvs)
  | @sort list func σ τ ρ hG _ _ hfirst hsecond ihlist ihfunc =>
    refine (sortCallee_ends hG).bind fun v hv => ?_
    split
    · exact .fail _
    · next f hf =>
      rw [hv f hf]
      refine (twoItems_ends ihlist ihfunc).bind fun vs hvs => ?_
      obtain ⟨l, g, rfl, hl, hg⟩ := hvs
      have hsort : settled base ⟨.builtin "sort", [l, g], 0⟩ = sort [l, g] := settled_of_not_stuck not_stuck_sort
      exact .apply (hsort ▸ sort_ends hl hg hfirst hsecond)
  | @callNamed callee args σ τ _ _ ihcallee ihargs =>
    refine ihcallee.bind fun v hv => ?_
    have hslots (params : List String) : ∀ w ∈ params.map fun _ => FeelVal.null, Red base outside σ w := by
      intro w hw
      obtain ⟨_, -, rfl⟩ := List.mem_map.mp hw
      exact (red_structural σ).null
    have happly {func : Func} (hfunc : v.asFunc = some func) {vs : List FeelVal} (hvs : ∀ w ∈ vs, Red base outside σ w) :
        Ending base outside G (Red base outside τ) (EvalM.apply func vs) :=
      .apply (hv.total hfunc fun _ w hw => hvs w (List.mem_of_getElem? hw))
    split
    · exact .fail _
    · next name hfunc =>
      split
      · exact .fail _
      · next params _ => exact (evalNamed_agree params _ ihargs (hslots params)).bind fun vs hvs => happly hfunc hvs
    · next params node closure hfunc =>
      exact (evalNamed_agree params _ ihargs (hslots params)).bind fun vs hvs => happly hfunc hvs

theorem evaluate_ends {node : Node} {τ : Ty} (h : HasType G node τ) :
    Calls.Total (settled base) outside (Returns (Red base outside τ)) (evaluate base node) :=
  ((evalNode_ends h [] fun _ hframe => by cases hframe).bind fun _ hr => .pure hr.1).total fun _ _ hc => hc

end

end NanoBpm.FeelExpr
