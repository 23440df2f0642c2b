import NanoBpm.Feel.Eval

/-!
# Lexical scoping

In a lexical evaluation a node is evaluated in the frames of the constructs around it and of nothing else, and so is the
body of a function that is called. The evaluator does the same, and leaves the frames as it found them, as long as no
entry of a context and no source of a clause is an error: that one returns between `push` and `pop`, and its frame stays
open for whatever is evaluated next.
-/

namespace NanoBpm.FeelExpr

/-- A computation in the frames around it; `none` where a frame would be left open, here or in a body that is called. -/
def Lexical (α : Type) := List Frame → Calls.Prog Call (Option Result) Draw (Option (Except FeelError α))

namespace Lexical

variable {α β : Type}

def bind (m : Lexical α) (f : α → Lexical β) : Lexical β := fun scopes => do
  match ← m scopes with
  | none => return none
  | some (.error err) => return some (.error err)
  | some (.ok a) => f a scopes

instance : Monad Lexical where
  pure a := fun _ => pure (some (.ok a))
  bind := bind

def ofExcept (r : Except FeelError α) : Lexical α := fun _ => pure (some r)

def fail (err : FeelError) : Lexical α := ofExcept (.error err)

/-- The result of a computation, without `?`. -/
def attempt (m : Lexical α) : Lexical (Except FeelError α) := fun scopes => do return (← m scopes).map .ok

def getScopes : Lexical (List Frame) := fun scopes => pure (some (.ok scopes))

/-- Inside one more frame. -/
def inFrame (frame : Frame) (m : Lexical α) : Lexical α := fun scopes => m (frame :: scopes)

/-- Inside one more frame, which an error leaves open. -/
def holding (frame : Frame) (m : Lexical α) : Lexical α := fun scopes => do
  match ← m (frame :: scopes) with
  | some (.ok a) => return some (.ok a)
  | _ => return none

def apply (func : Func) (args : List FeelVal) : Lexical FeelVal := fun _ => .call ⟨func, args, 0⟩ fun r => pure r

def lookup (base : Vars) (name : String) : Lexical (Option FeelVal) := do
  return (← getScopes).findSome? (Frame.get · name) <|> base[name]?.map FeelVal.fromValue

/-- The items of which the condition is true, each in a frame of its own. -/
def filterItems (idx : Lexical FeelVal) : List FeelVal → Lexical (List FeelVal)
  | [] => return []
  | item :: rest => do
    let keep ← inFrame (itemFrame item) idx
    let kept ← filterItems idx rest
    return if keep.beq (.bool true) then item :: kept else kept

def evalIndex (obj idx : Lexical FeelVal) : Lexical FeelVal := do
  let list := match ← obj with
    | .list items => items
    | other => [other]
  match (← attempt idx).toOption.bind FeelVal.asF64 with
  | some n => return selectAt list n
  | none => return .list (← filterItems idx list)

def overItems (name : String) (rest : Frame → Lexical (List FeelVal × Frame)) : List FeelVal → Frame →
    Lexical (List FeelVal × Frame)
  | [], frame => return ([], Frame.remove frame name)
  | item :: items, frame => do
    let (out, frame) ← rest (Frame.insert frame name item)
    let (more, frame) ← overItems name rest items frame
    return (out ++ more, frame)

variable [Texts]

mutual

/-- The value of a node, from those of its parts in the frames that each of them is in. -/
def evalNode (base : Vars) : Node → Lexical FeelVal
  | .null => return .null
  | .boolLit b => return .bool b
  | .numLit v isInteger => return if isInteger then .int (FeelVal.asI64 v) else .num v
  | .strLit s => return .str s
  | .atLit s =>
    match parseTemporal false s.toList with
    | .value p => return p.toVal
    | .refused => fail ("invalid temporal literal @\"" ++ s ++ "\"")
    | .panicked _ => Lexical.apply (.builtin (textBuiltin s.toList)) [.str s]
  | .var name => do
    return (← lookup base name).getD (if Builtins.isBuiltin name then .builtin name else .null)
  | .member obj name => do return member (← evalNode base obj) name
  | .index obj idx => evalIndex (evalNode base obj) (evalNode base idx)
  | .neg inner => do ofExcept (negate (← evalNode base inner))
  | .not inner => do ofExcept (complement (← evalNode base inner))
  | .bin op lhs rhs => do
    let l ← evalNode base lhs
    if op = .and ∧ l.beq (.bool false) then return .bool false
    if op = .or ∧ l.beq (.bool true) then return .bool true
    ofExcept (operate op l (← evalNode base rhs))
  | .list items => do return .list (← evalItems base items)
  | .context entries => do return .context (← evalEntries base entries [])
  | .ifThenElse cond then' else' => do
    match ← evalNode base cond with
    | .bool true => evalNode base then'
    | .bool false => evalNode base else'
    | _ => return .null
  | .forIn clauses body => do return .list (← evalFor base (evalNode base body) clauses []).1
  | .quant q clauses body => do
    let results := (← evalFor base (evalNode base body) clauses []).1
    return .bool (match q with
      | .some => results.any (·.beq (.bool true))
      | .every => results.all (·.beq (.bool true)))
  | .between x lo hi => do
    let xv ← evalNode base x
    let lov ← evalNode base lo
    let hiv ← evalNode base hi
    return .bool ((compareVals xv lov).any (·.isGE) && (compareVals xv hiv).any (·.isLE))
  | .isIn x rhs => do
    let xv ← evalNode base x
    return .bool (inTest xv (← evalNode base rhs))
  | .instanceOf x ty => do return .bool (instanceOf (← evalNode base x) ty)
  | .funcDef params body => do
    return .lambda params body ((← getScopes).reverse.foldl Frame.extend [])
  | .range startInclusive start stop endInclusive => do
    let s ← evalBound base start
    let e ← evalBound base stop
    return .range s startInclusive e endInclusive
  | .callPositional callee args => do
    let v ← evalNode base callee
    match v.asFunc with
    | none => fail ("cannot call a " ++ v.typeName ++ " value")
    | some func => Lexical.apply func (← evalItems base args)
  | .callNamed callee args => do
    let v ← evalNode base callee
    match v.asFunc with
    | none => fail ("cannot call a " ++ v.typeName ++ " value")
    | some (.builtin name) =>
      match Builtins.params name with
      | none => fail ("function '" ++ name ++ "' does not accept named arguments")
      | some params =>
        Lexical.apply (.builtin name) (← evalNamed base params (fun k =>
          "unknown parameter '" ++ k ++ "' for function '" ++ name ++ "'") args (params.map fun _ => .null))
    | some (.lambda params body closure) =>
      Lexical.apply (.lambda params body closure) (← evalNamed base params (fun k => "unknown parameter '" ++ k ++ "'")
        args (params.map fun _ => .null))

def evalItems (base : Vars) : List Node → Lexical (List FeelVal)
  | [] => return []
  | n :: rest => do return (← evalNode base n) :: (← evalItems base rest)

/-- Each entry in the frame of the ones before it. -/
def evalEntries (base : Vars) : List (String × Node) → Frame → Lexical Frame
  | [], map => return map
  | (key, n) :: rest, map => do
    let v ← holding map (evalNode base n)
    evalEntries base rest (Frame.insert map key v)

def evalFor (base : Vars) (body : Lexical FeelVal) : List (String × Node) → Frame → Lexical (List FeelVal × Frame)
  | [], frame => do
    let v ← inFrame frame body
    return ([v], frame)
  | (name, source) :: rest, frame => do
    let items := iterable (← holding frame (evalNode base source))
    overItems name (evalFor base body rest) items frame

def evalNamed (base : Vars) (params : List String) (unknown : String → FeelError) :
    List (String × Node) → List FeelVal → Lexical (List FeelVal)
  | [], slots => return slots
  | (k, n) :: rest, slots => do
    match params.findIdx? (· == k) with
    | none => fail (unknown k)
    | some pos =>
      let v ← evalNode base n
      evalNamed base params unknown rest (slots.set pos v)

def evalBound (base : Vars) : Option Node → Lexical (Option FeelVal)
  | none => return none
  | some n => do return some (← evalNode base n)

end

/-- `apply`, of which the body is evaluated lexically too. -/
def body (base : Vars) : Call → Calls.Prog Call (Option Result) Draw (Option Result)
  | ⟨.builtin name, args, fuel⟩ => (callBuiltin name args fuel).orNone
  | ⟨.lambda params body closure, args, _⟩ => Lexical.evalNode base body [argFrame params args, closure]

end Lexical

/-! ## The frames of a run -/

/-- There are frames left over the others. -/
def Above (s scopes : List Frame) : Prop := ∃ extra, extra ≠ [] ∧ s = extra ++ scopes

theorem Above.trans {s t u : List Frame} (h : Above s t) (h' : Above t u) : Above s u := by
  obtain ⟨extra, hextra, rfl⟩ := h
  obtain ⟨extra', _, rfl⟩ := h'
  exact ⟨extra ++ extra', by simp [hextra], (List.append_assoc ..).symm⟩

theorem above_cons (frame : Frame) (scopes : List Frame) : Above (frame :: scopes) scopes := ⟨[frame], by simp, rfl⟩

theorem Above.tail {s : List Frame} {frame : Frame} {scopes : List Frame} (h : Above s (frame :: scopes)) :
    Above s.tail scopes := by
  obtain ⟨_ | ⟨top, extra⟩, hextra, rfl⟩ := h
  · exact absurd rfl hextra
  · exact ⟨extra ++ [frame], by simp, by simp⟩

theorem Above.ne {s scopes : List Frame} (h : Above s scopes) : s ≠ scopes := by
  obtain ⟨extra, hextra, rfl⟩ := h
  simpa using hextra

/-- There are frames left over, if not here then in a body that is called. -/
def Left (met : Prop) (s scopes : List Frame) : Prop := Above s scopes ∨ s = scopes ∧ met

theorem Left.trans {met : Prop} {s t u : List Frame} (h : Left met s t) (h' : Left met t u) : Left met s u := by
  rcases h with h | ⟨rfl, -⟩
  · rcases h' with h' | ⟨rfl, -⟩
    · exact .inl (h.trans h')
    · exact .inl h
  · exact h'

theorem Left.tail {met : Prop} {s : List Frame} {frame : Frame} {scopes : List Frame} (h : Left met s (frame :: scopes)) :
    Left met s.tail scopes := by
  rcases h with h | ⟨rfl, hmet⟩
  · exact .inl h.tail
  · exact .inr ⟨rfl, hmet⟩

theorem Left.mono {met met' : Prop} {s scopes : List Frame} (h : Left met s scopes) (hmet : met → met') : Left met' s scopes :=
  h.imp_right fun h => ⟨h.1, hmet h.2⟩

/-- A call that leaves no frame over gives the lexical evaluation the same, and another nothing. -/
def Retells (lost : Call → Nat → Prop) (invoke : Call → Nat → Option (Result × Nat))
    (again : Call → Nat → Option (Option Result × Nat)) : Prop :=
  ∀ c i r j, invoke c i = some (r, j) →
    (¬ lost c i ∧ again c i = some (some r, j)) ∨ lost c i ∧ ∃ k, again c i = some (none, k)

/-- A computation that ends with `r` in the frames `s` does so in those it began in, and no call on the way leaves frames
over, and the lexical one ends with `r`; or there are frames left over, and the lexical one comes to nothing. -/
def Outcome {α : Type} (met : Prop) (scopes : List Frame) (r : Except FeelError α) (s : List Frame) (j : Nat)
    (x : Option (Option (Except FeelError α) × Nat)) : Prop :=
  (s = scopes ∧ ¬ met ∧ x = some (some r, j)) ∨ Left met s scopes ∧ ∃ k, x = some (none, k)

theorem Outcome.congr {α : Type} {met met' : Prop} {scopes s : List Frame} {r : Except FeelError α} {j : Nat}
    {x : Option (Option (Except FeelError α) × Nat)} (h : Outcome met scopes r s j x) (hmet : met ↔ met') :
    Outcome met' scopes r s j x := by
  rwa [← propext hmet]

def Follows {α : Type} (m : EvalM α) (q : Lexical α) : Prop :=
  ∀ lost invoke again, Retells lost invoke again → ∀ (outside : Nat → Draw) scopes i r s j,
    (m scopes).runWith invoke outside i = some ((r, s), j) →
    Outcome ((m scopes).Meets lost invoke outside i) scopes r s j ((q scopes).runWith again outside i)

section Runs

variable {α β : Type} {invoke : Call → Nat → Option (Result × Nat)} {again : Call → Nat → Option (Option Result × Nat)}
  {outside : Nat → Draw} {scopes s : List Frame} {i j k : Nat}

/-- A run of two computations is one of the first, and of the second if there is a value. -/
theorem run_bind {m : EvalM α} {f : α → EvalM β} {r : Except FeelError β}
    (h : ((m >>= f) scopes).runWith invoke outside i = some ((r, s), j)) :
    ∃ x s₁ k, (m scopes).runWith invoke outside i = some ((x, s₁), k) ∧
      ((∃ a, x = .ok a ∧ (f a s₁).runWith invoke outside k = some ((r, s), j)) ∨
        (∃ err, x = .error err ∧ r = .error err ∧ s = s₁ ∧ j = k)) := by
  change (EvalM.bind m f scopes).runWith invoke outside i = _ at h
  unfold EvalM.bind at h
  rw [Calls.Prog.runWith_bind] at h
  obtain ⟨⟨⟨x, s₁⟩, k⟩, hm, hrest⟩ := Option.bind_eq_some_iff.mp h
  refine ⟨x, s₁, k, hm, ?_⟩
  cases x with
  | ok a => exact .inl ⟨a, rfl, hrest⟩
  | error err =>
    cases hrest
    exact .inr ⟨err, rfl, rfl, rfl, rfl⟩

theorem meets_bind {lost : Call → Nat → Prop} {m : EvalM α} {f : α → EvalM β} {x : Except FeelError α} {s₁ : List Frame}
    (hm : (m scopes).runWith invoke outside i = some ((x, s₁), k)) :
    ((m >>= f) scopes).Meets lost invoke outside i ↔
      (m scopes).Meets lost invoke outside i ∨ ∃ a, x = .ok a ∧ (f a s₁).Meets lost invoke outside k := by
  change (EvalM.bind m f scopes).Meets lost invoke outside i ↔ _
  unfold EvalM.bind
  rw [Calls.Prog.meets_bind, hm]
  refine or_congr_right ?_
  cases x with
  | ok a => simp
  | error err => simp [Pure.pure, Calls.Prog.Meets]

variable {q : Lexical α} {g : α → Lexical β}

theorem lexical_bind (x : Option (Except FeelError α)) :
    (q scopes).runWith again outside i = some (x, k) →
      ((q >>= g) scopes).runWith again outside i =
        match x with
        | none => some (none, k)
        | some (.error err) => some (some (.error err), k)
        | some (.ok a) => (g a scopes).runWith again outside k := by
  intro hq
  change (Lexical.bind q g scopes).runWith again outside i = _
  unfold Lexical.bind
  rw [Calls.Prog.runWith_bind, hq]
  rcases x with _ | _ | _ <;> rfl

end Runs

theorem holding_run {α : Type} {again : Call → Nat → Option (Option Result × Nat)} {outside : Nat → Draw} {frame : Frame}
    {scopes : List Frame} {q : Lexical α} {i k : Nat} {x : Option (Except FeelError α)} :
    (q (frame :: scopes)).runWith again outside i = some (x, k) →
      (Lexical.holding frame q scopes).runWith again outside i =
        some (match x with
          | some (.ok a) => some (.ok a)
          | _ => none, k) := by
  intro hq
  unfold Lexical.holding
  rw [Calls.Prog.runWith_bind, hq]
  rcases x with _ | _ | _ <;> rfl

namespace Follows

variable {α β : Type} {m : EvalM α} {q : Lexical α} {f : α → EvalM β} {g : α → Lexical β}

section

variable {lost : Call → Nat → Prop} {invoke : Call → Nat → Option (Result × Nat)}
  {again : Call → Nat → Option (Option Result × Nat)} {outside : Nat → Draw} {scopes s s₁ : List Frame} {i j k : Nat}
  {r : Except FeelError α}

theorem ends (h : Follows m q) (hagree : Retells lost invoke again) (hrun : (m scopes).runWith invoke outside i = some ((r, s), j)) :
    Outcome ((m scopes).Meets lost invoke outside i) scopes r s j ((q scopes).runWith again outside i) :=
  h _ _ _ hagree _ _ _ _ _ _ hrun

/-- Whatever comes after frames are left over, they stay. -/
theorem left (h : Follows m q) (hagree : Retells lost invoke again) {met : Prop} (hleft : Left met s₁ scopes)
    (hmet : (m s₁).Meets lost invoke outside i → met) (hrun : (m s₁).runWith invoke outside i = some ((r, s), j)) :
    Left met s scopes := by
  rcases h.ends hagree hrun with ⟨rfl, -, -⟩ | ⟨hmore, -⟩
  · exact hleft
  · exact (hmore.mono hmet).trans hleft

end

theorem ofExcept (r : Except FeelError α) : Follows (EvalM.ofExcept r) (Lexical.ofExcept r) := by
  intro lost invoke again hagree outside scopes i r' s j h
  cases h
  exact .inl ⟨rfl, id, rfl⟩

theorem pure (a : α) : Follows (Pure.pure a : EvalM α) (Pure.pure a) := ofExcept (.ok a)

theorem fail (err : FeelError) : Follows (EvalM.fail err : EvalM α) (Lexical.fail err) := ofExcept _

theorem getScopes : Follows EvalM.getScopes Lexical.getScopes := by
  intro lost invoke again hagree outside scopes i r s j h
  cases h
  exact .inl ⟨rfl, id, rfl⟩

theorem apply (func : Func) (args : List FeelVal) : Follows (EvalM.apply func args) (Lexical.apply func args) := by
  intro lost invoke again hagree outside scopes i r s j h
  obtain ⟨⟨x, k⟩, hx, hrest⟩ := Option.bind_eq_some_iff.mp h
  cases hrest
  rcases hagree _ _ _ _ hx with ⟨hkept, hx⟩ | ⟨hlost, k', hx⟩
  · refine .inl ⟨rfl, ?_, Option.bind_eq_some_iff.mpr ⟨_, hx, rfl⟩⟩
    rintro (hlost | ⟨y, -, hmet⟩)
    · exact hkept hlost
    · exact hmet
  · exact .inr ⟨.inr ⟨rfl, .inl hlost⟩, k', Option.bind_eq_some_iff.mpr ⟨_, hx, rfl⟩⟩

theorem bind (h : Follows m q) (hf : ∀ a, Follows (f a) (g a)) : Follows (m >>= f) (q >>= g) := by
  intro lost invoke again hagree outside scopes i r s j hrun
  obtain ⟨x, s₁, k, hm, hrest⟩ := run_bind hrun
  refine Outcome.congr ?_ (meets_bind hm).symm
  obtain ⟨a, rfl, hrest⟩ | ⟨err, rfl, rfl, rfl, rfl⟩ := hrest
  · rcases h.ends hagree hm with ⟨rfl, hmet, hq⟩ | ⟨hleft, k', hq⟩
    · rw [lexical_bind _ hq]
      exact ((hf a).ends hagree hrest).congr (by simp [hmet])
    · exact .inr ⟨(hf a).left hagree (hleft.mono .inl) (fun hmet => .inr ⟨a, rfl, hmet⟩) hrest, k', lexical_bind _ hq⟩
  · rcases h.ends hagree hm with ⟨rfl, hmet, hq⟩ | ⟨hleft, k', hq⟩
    · exact .inl ⟨rfl, by simp [hmet], lexical_bind _ hq⟩
    · exact .inr ⟨hleft.mono .inl, k', lexical_bind _ hq⟩

/-- What `attempt` runs is the computation. -/
theorem run_attempt {invoke : Call → Nat → Option (Result × Nat)} {outside : Nat → Draw} {scopes s : List Frame} {i j : Nat}
    {y : Except FeelError (Except FeelError α)} (hrun : (EvalM.attempt m scopes).runWith invoke outside i = some ((y, s), j)) :
    ∃ x, y = .ok x ∧ (m scopes).runWith invoke outside i = some ((x, s), j) ∧
      ∀ lost, (EvalM.attempt m scopes).Meets lost invoke outside i ↔ (m scopes).Meets lost invoke outside i := by
  unfold EvalM.attempt at hrun ⊢
  rw [Calls.Prog.runWith_bind] at hrun
  obtain ⟨⟨⟨x, s₁⟩, k⟩, hm, hrest⟩ := Option.bind_eq_some_iff.mp hrun
  cases hrest
  refine ⟨x, rfl, hm, fun lost => ?_⟩
  rw [Calls.Prog.meets_bind, or_iff_left]
  rintro ⟨z, -, hmet⟩
  exact hmet

theorem attempt (h : Follows m q) : Follows (EvalM.attempt m) (Lexical.attempt q) := by
  intro lost invoke again hagree outside scopes i r s j hrun
  obtain ⟨x, rfl, hm, hmeets⟩ := run_attempt hrun
  refine Outcome.congr ?_ (hmeets lost).symm
  unfold Lexical.attempt
  rw [Calls.Prog.runWith_bind]
  rcases h.ends hagree hm with ⟨rfl, hmet, hq⟩ | ⟨hleft, k', hq⟩
  · exact .inl ⟨rfl, hmet, by rw [hq]; rfl⟩
  · exact .inr ⟨hleft, k', by rw [hq]; rfl⟩

/-- A frame that is closed whatever the result is. -/
theorem inFrame (frame : Frame) (h : Follows m q) (hf : ∀ a, Follows (f a) (g a)) :
    Follows (do
      EvalM.push frame
      let r ← EvalM.attempt m
      EvalM.pop
      let a ← EvalM.ofExcept r
      f a) (Lexical.inFrame frame q >>= g) := by
  intro lost invoke again hagree outside scopes i r s j hrun
  let closing := fun x : Except FeelError α => EvalM.pop >>= fun _ => EvalM.ofExcept x >>= f
  have hinner : ((EvalM.attempt m >>= closing) (frame :: scopes)).runWith invoke outside i = some ((r, s), j) := hrun
  obtain ⟨y, s₁, k, hattempt, hrest⟩ := run_bind hinner
  refine Outcome.congr ?_ (meets_bind (f := closing) hattempt).symm
  obtain ⟨x, rfl, hm, hmeets⟩ := run_attempt hattempt
  obtain ⟨_, heq, hrest⟩ | ⟨_, heq, _⟩ := hrest
  · cases heq
    rw [hmeets]
    have hmet : (∃ a, (.ok x : Except FeelError (Except FeelError α)) = .ok a ∧ (closing a s₁).Meets lost invoke outside k) ↔
        ∃ a, x = .ok a ∧ (f a s₁.tail).Meets lost invoke outside k := by
      simp only [Except.ok.injEq, exists_eq_left']
      cases x with
      | ok a =>
        simp only [Except.ok.injEq, exists_eq_left']
        rfl
      | error err =>
        simp only [reduceCtorEq, false_and, exists_false]
        rfl
    rw [hmet]
    rcases h.ends hagree hm with ⟨rfl, hkept, hq⟩ | ⟨hleft, k', hq⟩
    · have hq' : (Lexical.inFrame frame q scopes).runWith again outside i = some (some x, k) := hq
      rw [lexical_bind _ hq']
      cases x with
      | ok a => exact ((hf a).ends hagree hrest).congr (by simp [hkept])
      | error err =>
        cases hrest
        exact .inl ⟨rfl, by simp [hkept], rfl⟩
    · refine .inr ⟨?_, k', @lexical_bind α β again outside scopes i k' (Lexical.inFrame frame q) g none hq⟩
      cases x with
      | ok a => exact (hf a).left hagree (hleft.tail.mono .inl) (fun hmet => .inr ⟨a, rfl, hmet⟩) hrest
      | error err =>
        cases hrest
        exact hleft.tail.mono .inl
  · cases heq

/-- A frame that an error leaves open. -/
theorem holding (frame : Frame) (h : Follows m q) (hf : ∀ a, Follows (f a) (g a)) :
    Follows (do
      EvalM.push frame
      let a ← m
      EvalM.pop
      f a) (Lexical.holding frame q >>= g) := by
  intro lost invoke again hagree outside scopes i r s j hrun
  let closing := fun a : α => EvalM.pop >>= fun _ => f a
  have hinner : ((m >>= closing) (frame :: scopes)).runWith invoke outside i = some ((r, s), j) := hrun
  obtain ⟨x, s₁, k, hm, hrest⟩ := run_bind hinner
  refine Outcome.congr ?_ (meets_bind (f := closing) hm).symm
  obtain ⟨a, rfl, hrest⟩ | ⟨err, rfl, rfl, rfl, rfl⟩ := hrest
  · rcases h.ends hagree hm with ⟨rfl, hmet, hq⟩ | ⟨hleft, k', hq⟩
    · rw [lexical_bind _ (holding_run hq)]
      refine ((hf a).ends hagree hrest).congr ?_
      rw [or_iff_right hmet]
      simp only [Except.ok.injEq, exists_eq_left']
      rfl
    · exact .inr ⟨(hf a).left hagree (hleft.tail.mono .inl) (fun hmet => .inr ⟨a, rfl, hmet⟩) hrest, k',
        lexical_bind _ (holding_run hq)⟩
  · have hopen : ∀ met, Left met (frame :: scopes) scopes := fun _ => .inl (above_cons frame scopes)
    rcases h.ends hagree hm with ⟨rfl, hmet, hq⟩ | ⟨hleft, k', hq⟩
    · exact .inr ⟨hopen _, _, lexical_bind _ (holding_run hq)⟩
    · exact .inr ⟨(hleft.mono .inl).trans (hopen _), k', lexical_bind _ (holding_run hq)⟩

end Follows

/-! ## The evaluator follows the lexical evaluation -/

theorem filterItems_follows {idx : EvalM FeelVal} {idx' : Lexical FeelVal} (h : Follows idx idx') (items : List FeelVal) :
    Follows (filterItems idx items) (Lexical.filterItems idx' items) := by
  induction items with
  | nil => exact .pure _
  | cons item rest ih => exact .inFrame _ h fun keep => ih.bind fun kept => .pure _

theorem evalIndex_follows {obj idx : EvalM FeelVal} {obj' idx' : Lexical FeelVal} (hobj : Follows obj obj')
    (hidx : Follows idx idx') : Follows (evalIndex obj idx) (Lexical.evalIndex obj' idx') := by
  refine hobj.bind fun v => hidx.attempt.bind fun r => ?_
  rcases r.toOption.bind FeelVal.asF64 with _ | n
  · exact (filterItems_follows hidx _).bind fun kept => .pure _
  · exact .pure _

theorem overItems_follows {name : String} {rest : Frame → EvalM (List FeelVal × Frame)}
    {rest' : Frame → Lexical (List FeelVal × Frame)} (h : ∀ frame, Follows (rest frame) (rest' frame))
    (items : List FeelVal) (frame : Frame) :
    Follows (overItems name rest items frame) (Lexical.overItems name rest' items frame) := by
  induction items generalizing frame with
  | nil => exact .pure _
  | cons item items ih => exact (h _).bind fun out => (ih out.2).bind fun more => .pure _

theorem lookup_follows (base : Vars) (name : String) : Follows (lookup base name) (Lexical.lookup base name) :=
  Follows.getScopes.bind fun _ => .pure _

section

variable [Texts]

/-- What a run of the entries of a context comes to, from the frame of those before: that frame with all of them, or an
error or a frame left over, under the top one or in a body. -/
def EntriesEnd (met : Prop) (scopes : List Frame) (r : Except FeelError Frame) (s : List Frame) (j : Nat)
    (x : Option (Option (Except FeelError Frame) × Nat)) : Prop :=
  (∃ map, r = .ok map ∧ s = map :: scopes ∧ ¬ met ∧ x = some (some (.ok map), j)) ∨
    (Above s scopes ∧ ((∃ err, r = .error err) ∨ Left met s.tail scopes) ∧ ∃ k, x = some (none, k))

omit [Texts] in
/-- The top frame is one of those that are left over. -/
theorem Above.exists_top {s scopes : List Frame} (h : Above s scopes) :
    ∃ top rest, s = top :: rest ∧ (rest = scopes ∨ Above rest scopes) := by
  obtain ⟨_ | ⟨top, extra⟩, hextra, rfl⟩ := h
  · exact absurd rfl hextra
  · refine ⟨top, extra ++ scopes, rfl, ?_⟩
    cases extra with
    | nil => exact .inl rfl
    | cons frame extra => exact .inr ⟨frame :: extra, by simp, rfl⟩

omit [Texts] in
theorem Above.of_top {s rest scopes : List Frame} (h : Above s rest) (hrest : rest = scopes ∨ Above rest scopes) :
    Above s scopes := by
  rcases hrest with rfl | hrest
  · exact h
  · exact h.trans hrest

omit [Texts] in
theorem Above.tail_of_above {s rest scopes : List Frame} (h : Above s rest) (hrest : Above rest scopes) :
    Above s.tail scopes := by
  obtain ⟨top, rest', rfl, heq⟩ := h.exists_top
  rcases heq with rfl | habove
  · exact hrest
  · exact habove.trans hrest

mutual

theorem evalNode_follows (base : Vars) : ∀ n : Node, Follows (evalNode base n) (Lexical.evalNode base n)
  | .null => .pure _
  | .boolLit b => .pure _
  | .numLit v isInteger => .pure _
  | .strLit s => .pure _
  | .atLit s => by
    unfold evalNode Lexical.evalNode
    rcases parseTemporal false s.toList with p | _ | p
    · exact .pure _
    · exact .fail _
    · exact .apply _ _
  | .var name => (lookup_follows base name).bind fun v => .pure _
  | .member obj name => (evalNode_follows base obj).bind fun v => .pure _
  | .index obj idx => evalIndex_follows (evalNode_follows base obj) (evalNode_follows base idx)
  | .neg inner => (evalNode_follows base inner).bind fun v => .ofExcept _
  | .not inner => (evalNode_follows base inner).bind fun v => .ofExcept _
  | .bin op lhs rhs => by
    unfold evalNode Lexical.evalNode
    refine (evalNode_follows base lhs).bind fun l => ?_
    split
    · exact .pure _
    · split
      · exact .pure _
      · exact (evalNode_follows base rhs).bind fun v => .ofExcept _
  | .list items => (evalItems_follows base items).bind fun vs => .pure _
  | .context entries => by
    intro lost invoke again hagree outside scopes i r s j hrun
    have hentries : ((evalEntries base entries [] >>= fun map => EvalM.pop >>= fun _ => pure (.context map))
        ([] :: scopes)).runWith invoke outside i = some ((r, s), j) := hrun
    obtain ⟨x, s₁, k, hm, hrest⟩ := run_bind hentries
    have hmeets : ((evalNode base (.context entries)) scopes).Meets lost invoke outside i ↔
        (evalEntries base entries [] ([] :: scopes)).Meets lost invoke outside i := by
      let closing := fun map : Frame => EvalM.pop >>= fun _ => (pure (FeelVal.context map) : EvalM FeelVal)
      refine (meets_bind (f := closing) hm).trans (or_iff_left ?_)
      rintro ⟨map, -, hmet⟩
      exact hmet
    refine Outcome.congr ?_ hmeets.symm
    rcases evalEntries_follows base entries [] hagree hm with ⟨map, rfl, rfl, hmet, hq⟩ | ⟨habove, hleft, k', hq⟩
    · obtain ⟨_, heq, hrest⟩ | ⟨_, heq, _⟩ := hrest
      · cases heq
        cases hrest
        exact .inl ⟨rfl, hmet, lexical_bind _ hq⟩
      · cases heq
    · refine .inr ⟨?_, k', lexical_bind _ hq⟩
      obtain ⟨a, rfl, hrest⟩ | ⟨err, rfl, rfl, rfl, rfl⟩ := hrest
      · cases hrest
        rcases hleft with ⟨_, heq⟩ | htail
        · cases heq
        · exact htail
      · exact .inl habove
  | .ifThenElse cond then' else' => by
    unfold evalNode Lexical.evalNode
    refine (evalNode_follows base cond).bind fun v => ?_
    cases v with
    | bool b =>
      cases b with
      | true => exact evalNode_follows base then'
      | false => exact evalNode_follows base else'
    | _ => exact .pure _
  | .forIn clauses body => (evalFor_follows base (evalNode_follows base body) clauses []).bind fun r => .pure _
  | .quant q clauses body => (evalFor_follows base (evalNode_follows base body) clauses []).bind fun r => .pure _
  | .between x lo hi => (evalNode_follows base x).bind fun v =>
    (evalNode_follows base lo).bind fun v' => (evalNode_follows base hi).bind fun v'' => .pure _
  | .isIn x rhs => (evalNode_follows base x).bind fun v => (evalNode_follows base rhs).bind fun v' => .pure _
  | .instanceOf x ty => (evalNode_follows base x).bind fun v => .pure _
  | .funcDef _ _ => Follows.getScopes.bind fun _ => .pure _
  | .range startInclusive start stop endInclusive =>
    (evalBound_follows base start).bind fun s => (evalBound_follows base stop).bind fun e => .pure _
  | .callPositional callee args => by
    unfold evalNode Lexical.evalNode
    refine (evalNode_follows base callee).bind fun v => ?_
    rcases v.asFunc with _ | func
    · exact .fail _
    · exact (evalItems_follows base args).bind fun vs => .apply _ vs
  | .callNamed callee args => by
    unfold evalNode Lexical.evalNode
    refine (evalNode_follows base callee).bind fun v => ?_
    rcases v.asFunc with _ | ⟨name⟩ | ⟨params, body, closure⟩
    · exact .fail _
    · dsimp only
      rcases Builtins.params name with _ | params
      · exact .fail _
      · exact (evalNamed_follows base _ _ args _).bind fun vs => .apply _ vs
    · exact (evalNamed_follows base _ _ args _).bind fun vs => .apply _ vs

theorem evalItems_follows (base : Vars) : ∀ items : List Node,
    Follows (evalItems base items) (Lexical.evalItems base items)
  | [] => .pure _
  | n :: rest => (evalNode_follows base n).bind fun _ => (evalItems_follows base rest).bind fun _ => .pure _

/-- What the entries put in goes to the top frame, and those below stay. -/
theorem evalEntries_above (base : Vars) : ∀ (entries : List (String × Node)) (map : Frame) {lost : Call → Nat → Prop}
    {invoke : Call → Nat → Option (Result × Nat)} {again : Call → Nat → Option (Option Result × Nat)},
    Retells lost invoke again → ∀ {outside : Nat → Draw} {top : Frame} {scopes s : List Frame} {i j : Nat}
    {r : Except FeelError Frame},
    (evalEntries base entries map (top :: scopes)).runWith invoke outside i = some ((r, s), j) → Above s scopes
  | [], map, _, _, _, _, _, top, scopes, _, _, _, _, hrun => by
    cases hrun
    exact above_cons top scopes
  | (key, n) :: rest, map, lost, _, _, hagree, _, top, scopes, _, _, _, _, hrun => by
    obtain ⟨x, s₁, k, hn, hrest⟩ := run_bind hrun
    have hs₁ : Above s₁ scopes := by
      rcases (evalNode_follows base n).ends hagree hn with ⟨rfl, -, -⟩ | ⟨habove | ⟨rfl, -⟩, -⟩
      · exact above_cons top scopes
      · exact habove.trans (above_cons top scopes)
      · exact above_cons top scopes
    obtain ⟨v, rfl, hrest⟩ | ⟨err, rfl, rfl, rfl, rfl⟩ := hrest
    · obtain ⟨top', rest', rfl, hrest'⟩ := hs₁.exists_top
      exact (evalEntries_above base rest (Frame.insert map key v) hagree hrest).of_top hrest'
    · exact hs₁

theorem evalEntries_follows (base : Vars) : ∀ (entries : List (String × Node)) (map : Frame) {lost : Call → Nat → Prop}
    {invoke : Call → Nat → Option (Result × Nat)} {again : Call → Nat → Option (Option Result × Nat)},
    Retells lost invoke again → ∀ {outside : Nat → Draw} {scopes s : List Frame} {i j : Nat} {r : Except FeelError Frame},
    (evalEntries base entries map (map :: scopes)).runWith invoke outside i = some ((r, s), j) →
      EntriesEnd ((evalEntries base entries map (map :: scopes)).Meets lost invoke outside i) scopes r s j
        ((Lexical.evalEntries base entries map scopes).runWith again outside i)
  | [], map, _, _, _, _, _, _, _, _, _, _, hrun => by
    cases hrun
    exact .inl ⟨map, rfl, rfl, id, rfl⟩
  | (key, n) :: rest, map, lost, invoke, again, hagree, outside, scopes, s, i, j, r, hrun => by
    obtain ⟨x, s₁, k, hn, hrest⟩ := run_bind hrun
    have hmeets : (evalEntries base ((key, n) :: rest) map (map :: scopes)).Meets lost invoke outside i ↔
        (evalNode base n (map :: scopes)).Meets lost invoke outside i ∨ ∃ v, x = .ok v ∧
          ((EvalM.insertTop key v >>= fun _ => evalEntries base rest (Frame.insert map key v)) s₁).Meets lost invoke outside k :=
      meets_bind (f := fun v => EvalM.insertTop key v >>= fun _ => evalEntries base rest (Frame.insert map key v)) hn
    rw [hmeets]
    unfold Lexical.evalEntries
    rcases (evalNode_follows base n).ends hagree hn with ⟨rfl, hmet, hq⟩ | ⟨hleft, k', hq⟩
    · rw [lexical_bind _ (holding_run hq), or_iff_right hmet]
      obtain ⟨v, rfl, hrest⟩ | ⟨err, rfl, rfl, rfl, rfl⟩ := hrest
      · simp only [Except.ok.injEq, exists_eq_left']
        exact evalEntries_follows base rest (Frame.insert map key v) hagree hrest
      · exact .inr ⟨above_cons map scopes, .inl ⟨err, rfl⟩, j, rfl⟩
    · rw [lexical_bind _ (holding_run hq)]
      obtain ⟨v, rfl, hrest⟩ | ⟨err, rfl, rfl, rfl, rfl⟩ := hrest
      · rcases hleft with habove | ⟨rfl, hmet⟩
        · obtain ⟨top, rest', rfl, _⟩ := habove.exists_top
          have hrest' : Above rest' scopes := habove.tail
          have habove' := evalEntries_above base rest (Frame.insert map key v) hagree hrest
          exact .inr ⟨habove'.trans hrest', .inr (.inl (habove'.tail_of_above hrest')), k', rfl⟩
        · rcases evalEntries_follows base rest (Frame.insert map key v) hagree hrest with ⟨map', rfl, rfl, -, -⟩ | ⟨habove, htail, -⟩
          · exact .inr ⟨above_cons map' scopes, .inr (.inr ⟨rfl, .inl hmet⟩), k', rfl⟩
          · exact .inr ⟨habove, htail.imp_right fun h => h.mono fun _ => .inl hmet, k', rfl⟩
      · refine .inr ⟨?_, .inl ⟨err, rfl⟩, k', rfl⟩
        rcases hleft with habove | ⟨rfl, -⟩
        · exact habove.trans (above_cons map scopes)
        · exact above_cons map scopes

theorem evalFor_follows (base : Vars) {body : EvalM FeelVal} {body' : Lexical FeelVal} (hbody : Follows body body') :
    ∀ (clauses : List (String × Node)) (frame : Frame),
      Follows (evalFor base body clauses frame) (Lexical.evalFor base body' clauses frame)
  | [], frame => .inFrame frame hbody fun _ => .pure _
  | (_, source) :: rest, frame => .holding frame (evalNode_follows base source) fun v =>
    overItems_follows (evalFor_follows base hbody rest) (iterable v) frame

theorem evalNamed_follows (base : Vars) (params : List String) (unknown : String → FeelError) :
    ∀ (args : List (String × Node)) (slots : List FeelVal),
      Follows (evalNamed base params unknown args slots) (Lexical.evalNamed base params unknown args slots)
  | [], slots => .pure _
  | (k, n) :: rest, slots => by
    unfold evalNamed Lexical.evalNamed
    rcases params.findIdx? (· == k) with _ | pos
    · exact .fail _
    · exact (evalNode_follows base n).bind fun v => evalNamed_follows base params unknown rest _

theorem evalBound_follows (base : Vars) : ∀ bound : Option Node,
    Follows (evalBound base bound) (Lexical.evalBound base bound)
  | none => .pure _
  | some n => (evalNode_follows base n).bind fun _ => .pure _

end

/-! ## Bodies that are called -/

/-- The body that is called is left with frames over, or one that is called inside it. -/
def LosesFrames (base : Vars) (outside : Nat → Draw) : Nat → Call → Nat → Prop
  | 0, _, _ => False
  | depth + 1, c, i =>
    (FeelExpr.body base c).Meets (LosesFrames base outside depth) (Calls.invoke (FeelExpr.body base) outside depth) outside i ∨
      ∃ params node closure r s j, c.func = .lambda params node closure ∧
        Calls.run (FeelExpr.body base) outside depth (evalNode base node [argFrame params c.args, closure]) i =
          some ((r, s), j) ∧ s ≠ [argFrame params c.args, closure]

/-- Every function that is called in the run is left in the frames it was entered in. -/
def BodiesRestored {α : Type} (base : Vars) (outside : Nat → Draw) (depth : Nat) (p : Steps α) (i : Nat) : Prop :=
  ¬ p.Meets (LosesFrames base outside depth) (Calls.invoke (FeelExpr.body base) outside depth) outside i

theorem agree_invoke (base : Vars) (outside : Nat → Draw) (depth : Nat) : Retells (LosesFrames base outside depth)
    (Calls.invoke (FeelExpr.body base) outside depth) (Calls.invoke (Lexical.body base) outside depth) := by
  induction depth with
  | zero =>
    intro c i r j h
    cases h
  | succ depth ih =>
    rintro ⟨func, args, fuel⟩ i r j h
    cases func with
    | builtin name =>
      have hloses : LosesFrames base outside (depth + 1) ⟨.builtin name, args, fuel⟩ i ↔
          (callBuiltin name args fuel).Meets (LosesFrames base outside depth)
            (Calls.invoke (FeelExpr.body base) outside depth) outside i := by
        refine or_iff_left ?_
        rintro ⟨_, _, _, _, _, _, heq, -⟩
        cases heq
      rw [hloses]
      exact Calls.Prog.runWith_orNone ih h
    | lambda params node closure =>
      have hbody : ((evalNode base node [argFrame params args, closure] >>= fun x => pure x.1 : Steps Result).runWith
          (Calls.invoke (FeelExpr.body base) outside depth) outside i) = some (r, j) := h
      rw [Calls.Prog.runWith_bind] at hbody
      obtain ⟨⟨⟨x, s⟩, k⟩, hn, hrest⟩ := Option.bind_eq_some_iff.mp hbody
      cases hrest
      have hloses : LosesFrames base outside (depth + 1) ⟨.lambda params node closure, args, fuel⟩ i ↔
          (evalNode base node [argFrame params args, closure]).Meets (LosesFrames base outside depth)
            (Calls.invoke (FeelExpr.body base) outside depth) outside i ∨ s ≠ [argFrame params args, closure] := by
        refine or_congr ?_ ?_
        · refine (Calls.Prog.meets_bind (evalNode base node [argFrame params args, closure]) (fun x => pure x.1) i).trans
            (or_iff_left ?_)
          rintro ⟨_, -, hmet⟩
          exact hmet
        · constructor
          · rintro ⟨_, _, _, r', s', j', heq, hrun, hne⟩
            cases heq
            cases hn.symm.trans hrun
            exact hne
          · exact fun hne => ⟨params, node, closure, _, s, _, rfl, hn, hne⟩
      rw [hloses]
      rcases (evalNode_follows base node).ends ih hn with ⟨rfl, hmet, hq⟩ | ⟨hleft, hq⟩
      · exact .inl ⟨by simp [hmet], hq⟩
      · refine .inr ⟨?_, hq⟩
        rcases hleft with habove | ⟨-, hmet⟩
        · exact .inr habove.ne
        · exact .inl hmet

/-- A node and the functions it calls are left in the frames they were entered in exactly where the lexical evaluation comes
to no error in an entry of a context or in the source of a clause, and then the node has the value of that; otherwise frames
are left over. -/
theorem scopes_restored_iff {base : Vars} {node : Node} {scopes s : List Frame} {outside : Nat → Draw} {depth i j : Nat}
    {r : Result} (h : Calls.run (FeelExpr.body base) outside depth (evalNode base node scopes) i = some ((r, s), j)) :
    (s = scopes ∧ BodiesRestored base outside depth (evalNode base node scopes) i ↔
      ∃ x k, Calls.run (Lexical.body base) outside depth (Lexical.evalNode base node scopes) i = some (some x, k)) ∧
    (s = scopes ∧ BodiesRestored base outside depth (evalNode base node scopes) i →
      Calls.run (Lexical.body base) outside depth (Lexical.evalNode base node scopes) i = some (some r, j)) ∧
    (s = scopes ∨ Above s scopes) := by
  rcases (evalNode_follows base node).ends (agree_invoke base outside depth) h with ⟨rfl, hmet, hq⟩ | ⟨hleft, k, hq⟩
  · exact ⟨iff_of_true ⟨rfl, hmet⟩ ⟨r, j, hq⟩, fun _ => hq, .inl rfl⟩
  · have hnot : ¬ (s = scopes ∧ BodiesRestored base outside depth (evalNode base node scopes) i) := by
      rintro ⟨rfl, hkept⟩
      rcases hleft with habove | ⟨-, hmet⟩
      · exact habove.ne rfl
      · exact hkept hmet
    refine ⟨iff_of_false hnot ?_, fun h => absurd h hnot, ?_⟩
    · rintro ⟨x, k', hx⟩
      cases hq.symm.trans hx
    · rcases hleft with habove | ⟨rfl, -⟩
      · exact .inr habove
      · exact .inl rfl

end

/-- A function whose body is a context, called in a loop. -/
theorem scopes_restored_loop : let _ := Texts.plain
    let node := Node.forIn [("x", .list [.boolLit true, .boolLit false])]
      (.callPositional (.funcDef ["y"] (.member (.context [("k", .var "y")]) "k")) [.var "x"])
    ∃ s j, Calls.run (FeelExpr.body ∅) (fun _ => ⟨none, "", 0⟩) 1 (evalNode ∅ node []) 0 =
        some ((.ok (.list [.bool true, .bool false]), s), j) ∧
      s = [] ∧ BodiesRestored ∅ (fun _ => ⟨none, "", 0⟩) 1 (evalNode ∅ node []) 0 := by
  intro _ node
  have h : Calls.run (FeelExpr.body ∅) (fun _ => ⟨none, "", 0⟩) 1 (evalNode ∅ node []) 0 =
      some ((.ok (.list [.bool true, .bool false]), []), 0) := by rfl
  exact ⟨_, _, h, (scopes_restored_iff h).1.mpr ⟨.ok (.list [.bool true, .bool false]), 0, by rfl⟩⟩

/-- The index is tried as a number, and its error is dropped with the frame of `k` open, which the next item then sees. -/
theorem frame_left_open : let _ := Texts.plain
    ¬ ∀ base node scopes outside depth i r s j,
      Calls.run (body base) outside depth (evalNode base node scopes) i = some ((r, s), j) → s = scopes := by
  intro _ hall
  have h : Calls.run (body ∅) (fun _ => ⟨none, "", 0⟩) 1 (evalNode ∅ (.list
      [.index (.list []) (.member (.context [("k", .boolLit true), ("r", .neg (.var "item"))]) "k"), .var "k"]) []) 0 =
        some ((.ok (.list [.list [], .bool true]), [[("k", .bool true)]]), 0) := by rfl
  cases hall _ _ _ _ _ _ _ _ _ h

end NanoBpm.FeelExpr
