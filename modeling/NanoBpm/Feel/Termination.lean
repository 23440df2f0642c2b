import NanoBpm.Feel.Expression
import NanoBpm.Feel.RegexParses
import NanoBpm.Feel.RegexReturns
import NanoBpm.Feel.Typing

/-!
# Evaluations that end

Nothing bounds the calls of function literals (`feel/eval.rs:286-359`): an expression may apply a function to itself. Of
the builtins, those with a regular expression may search without end, and `substring` and what reads a time may panic. The
loops of the evaluator are bounded, so that there is no other way not to return; an expression with simple types has no
calls without end.
-/

namespace NanoBpm.FeelExpr

/-! ## Builtins -/

namespace RegexCall

variable [Unicode] [Casing]

/-- The searches of a pattern that the method makes all come to an end. -/
def EndsWith (c : RegexCall) (re : Regex) (p : Pattern) : Prop :=
  match c.method with
  | .isMatch => re.seek c.input.toList p (c.input.toList.length + 1) 0 ≠ none
  | .replaceAll _ => re.Completes c.input.toList p fun pos s e => if e > pos then e else s + 1
  | .split => re.Completes c.input.toList p fun _ s e => if e = s then s + 1 else e
  | .findAll => re.Completes c.input.toList p fun _ s e => if e > s then e else s + 1

def Ends (c : RegexCall) : Prop :=
  ∀ re p, Regex.new c.pattern c.flags = some (some re) →
    parseAlt parseAtom 0 c.pattern.toList = some (.ok ((p, re.groups), [])) → c.EndsWith re p

omit [Unicode] [Casing] in
theorem new_ne_none (pattern flags : String) : Regex.new pattern flags ≠ none := by
  have hparse : parseAlt parseAtom 0 pattern.toList ≠ none :=
    (parseAlt_same parseAtom_same 0 pattern.toList (Nat.lt_succ_self _)).2.1
  unfold Regex.new
  split
  · exact fun _ => hparse ‹_›
  · exact Option.some_ne_none _
  · split <;> exact Option.some_ne_none _

/-- A call on a regular expression returns where its searches end. -/
theorem exists_run_iff (c : RegexCall) : (∃ fuel, c.run fuel ≠ none) ↔ c.Ends := by
  obtain ⟨input, pattern, flags, method⟩ := c
  rcases hnew : Regex.new pattern flags with _ | _ | re
  · exact absurd hnew (new_ne_none pattern flags)
  · refine iff_of_true ⟨0, by simp [run, hnew]⟩ fun re p hre => ?_
    cases hnew.symm.trans hre
  · obtain ⟨p, hparse, hprog, hnumbered⟩ := Regex.new_spec hnew
    have hpositive : p.Numbered (0 < ·) := Pattern.Numbered.mono (fun _ hn => hn.1) p hnumbered
    have hends : Ends ⟨input, pattern, flags, method⟩ ↔ EndsWith ⟨input, pattern, flags, method⟩ re p := by
      refine ⟨fun h => h re p hnew hparse, fun h re' p' hre hp => ?_⟩
      cases hnew.symm.trans hre
      cases hparse.symm.trans hp
      exact h
    have hwhole (fuel start : Nat) (caps : Captures) (hcaps : re.find input.toList fuel start = some (some caps)) :
        Regex.whole caps ≠ none := by
      obtain ⟨s, e, hse, _⟩ := Regex.find_whole hprog hpositive hcaps
      rw [hse]
      simp
    rw [hends]
    cases method with
    | isMatch =>
      have hfind : (∃ fuel, re.find input.toList fuel 0 ≠ none) ↔ _ := Regex.exists_find_ne_none_iff hprog 0
      simpa [run, hnew, Regex.isMatch, EndsWith] using hfind
    | replaceAll replacement =>
      refine Iff.trans (exists_congr fun fuel => ?_) (Regex.exists_turns_find_iff hprog)
      rw [← Regex.replaceFrom_ne_none_iff (hwhole fuel) replacement.toList]
      simp [run, hnew, Regex.replaceAll]
    | split =>
      refine Iff.trans (exists_congr fun fuel => ?_) (Regex.exists_turns_find_iff hprog)
      rw [← Regex.splitFrom_ne_none_iff (hwhole fuel) _ 0]
      simp [run, hnew, Regex.split]
    | findAll =>
      refine Iff.trans (exists_congr fun fuel => ?_) (Regex.exists_turns_find_iff hprog)
      rw [← Regex.findAllFrom_ne_none_iff (hwhole fuel)]
      simp [run, hnew, Regex.findAll]

end RegexCall

/-- A builtin with no regular expression that panics, or one whose regular expression is searched for without end. -/
inductive Call.Hangs [Texts] : Call → Prop
  | panic {name : String} {args : List FeelVal} {fuel : Nat} {p : Panic}
      (h : Builtins.callChecked false name args = .error p) : Hangs ⟨.builtin name, args, fuel⟩
  | search {name : String} {args : List FeelVal} {fuel : Nat} {c : RegexCall}
      (h : Builtins.regexCall name args = some (.ok c)) (hends : ¬ @RegexCall.Ends Texts.unicode Texts.casing c) :
      Hangs ⟨.builtin name, args, fuel⟩

section

variable [Texts]

/-- A builtin with a regular expression does not panic. -/
theorem callChecked_of_regexCall {name : String} {args : List FeelVal} {r : Except FeelError RegexCall}
    (h : Builtins.regexCall name args = some r) {checks : Bool} :
    Builtins.callChecked checks name args = returned (Builtins.call name args) := by
  unfold Builtins.regexCall at h
  dsimp only at h
  split at h
  · rfl
  · rfl
  · rfl
  · rfl
  · cases h

theorem Call.stuck_iff (c : Call) : c.Stuck ↔ c.Hangs := by
  constructor
  · obtain ⟨func, args, fuel⟩ := c
    rintro ⟨name, rfl, hnone⟩
    rcases hcall : Builtins.regexCall name args with _ | err | c
    · have hpanic := hnone 0
      simp only [Builtins.callWithin, hcall] at hpanic
      cases hstop : Builtins.callChecked false name args with
      | error stop => exact .panic hstop
      | ok r =>
        rw [hstop] at hpanic
        cases hpanic
    · have hsome := hnone 0
      simp [Builtins.callWithin, hcall] at hsome
    · refine .search hcall fun hends => ?_
      obtain ⟨fuel, hfuel⟩ := (@RegexCall.exists_run_iff Texts.unicode Texts.casing c).mpr hends
      have hrun := hnone fuel
      simp only [Builtins.callWithin, hcall, Option.map_eq_none_iff] at hrun
      exact hfuel hrun
  · intro h
    cases h with
    | @panic name args fuel p hstop =>
      refine ⟨name, rfl, fun fuel => ?_⟩
      cases hcall : Builtins.regexCall name args with
      | none =>
        simp only [Builtins.callWithin, hcall, hstop]
        rfl
      | some r =>
        rw [callChecked_of_regexCall hcall] at hstop
        cases hstop
    | @search name args fuel c hcall hends =>
      refine ⟨name, rfl, fun fuel => ?_⟩
      simp only [Builtins.callWithin, hcall, Option.map_eq_none_iff]
      by_contra hsome
      exact hends ((@RegexCall.exists_run_iff Texts.unicode Texts.casing c).mp ⟨fuel, hsome⟩)

theorem callBuiltin_of_none {name : String} {args : List FeelVal} {fuel : Nat}
    (h : Builtins.callWithin fuel name args = none) :
    callBuiltin name args fuel = .call ⟨.builtin name, args, fuel + 1⟩ pure := by
  unfold callBuiltin
  split
  any_goals cases h
  rw [h]

/-- A call that hangs does not end. -/
theorem Call.Stuck.not_ends {base : Vars} {outside : Nat → Draw} {c : Call} (h : c.Stuck) (i : Nat) (r : Result × Nat) :
    ¬ Calls.Ends (body base) outside (body base c) i r := by
  obtain ⟨func, args, fuel⟩ := c
  obtain ⟨name, rfl, hnone⟩ := h
  have hrun : ∀ depth fuel, Calls.run (body base) outside depth (body base ⟨.builtin name, args, fuel⟩) i = none := by
    intro depth
    induction depth with
    | zero =>
      intro fuel
      show Calls.run (body base) outside 0 (callBuiltin name args fuel) i = none
      rw [callBuiltin_of_none (hnone fuel)]
      rfl
    | succ depth ih =>
      intro fuel
      show Calls.run (body base) outside (depth + 1) (callBuiltin name args fuel) i = none
      rw [callBuiltin_of_none (hnone fuel)]
      exact Option.bind_eq_none_iff.mpr fun x hx => by cases (ih (fuel + 1)).symm.trans hx
  rintro ⟨depth, hr⟩
  cases (hrun depth fuel).symm.trans hr

end

/-! ## Expressions -/

section

variable [Texts] [Unicode]

omit [Unicode] in
/-- An `@` literal that panics comes to a builtin that hangs. -/
theorem textBuiltin_hangs {s : String} {p : Panic} (h : parseTemporal false s.toList = .panicked p) :
    Call.Hangs ⟨.builtin (textBuiltin s.toList), [.str s], 0⟩ := by
  unfold parseTemporal at h
  unfold textBuiltin
  split_ifs at h ⊢
  · refine .panic (p := p) ?_
    change Plain.toVal <$> (fun o : Option Plain => o.getD .null) <$> Builtins.parsed (parseDuration false s.toList) = _
    rw [h]
    rfl
  · have hparse : DateTime.parse false s.toList = .panicked p := Parsed.map_eq_panicked.mp h
    refine .panic (p := p) ?_
    change Plain.toVal <$> (fun o : Option DateTime => o.elim Plain.null .dateTime) <$>
      Builtins.parsed (DateTime.parse false s.toList) = _
    rw [hparse]
    rfl
  · have hparse : Time.parse false s.toList = .panicked p := Parsed.map_eq_panicked.mp h
    refine .panic (p := p) ?_
    change Plain.toVal <$> (fun o : Option Time => o.elim Plain.null .time) <$>
      Builtins.parsed (Time.parse false s.toList) = _
    rw [hparse]
    rfl
  · revert h
    cases Date.parse s.toList <;> intro h <;> cases h

/-- The evaluation makes a call whose body makes a call, and so on without end, though no builtin hangs. -/
def EndlessCalls (ctx : Vars) (outside : Nat → Draw) (expr : String) : Prop :=
  ∃ node, nodeOf expr = .ok node ∧ Calls.Chain (body ctx) outside (¬ ·.Hangs) (evaluate ctx node) 0

/-- The evaluation comes to a builtin that hangs. -/
def HangingCall (ctx : Vars) (outside : Nat → Draw) (expr : String) : Prop :=
  ∃ node, nodeOf expr = .ok node ∧ ∃ c i, Calls.Reaches (body ctx) outside (evaluate ctx node) 0 c i ∧ c.Hangs

/-- Types can be given to the names that the expression binds. -/
def Typable (expr : String) : Prop := ∀ node, nodeOf expr = .ok node → ∃ G τ, HasType G node τ

omit [Unicode] in
theorem resultAt_eq_some {ctx : Vars} {outside : Nat → Draw} {node : Node} :
    (∃ depth r, resultAt ctx outside depth node = some r) ↔
      ∃ r, Calls.Ends (body ctx) outside (evaluate ctx node) 0 r := by
  constructor
  · rintro ⟨depth, r, hr⟩
    obtain ⟨x, hx, -⟩ := Option.map_eq_some_iff.mp hr
    exact ⟨x, depth, hx⟩
  · rintro ⟨x, depth, hx⟩
    exact ⟨depth, x.1, Option.map_eq_some_iff.mpr ⟨x, hx, rfl⟩⟩

omit [Unicode] in
theorem Call.Hangs.not_ends {base : Vars} {outside : Nat → Draw} (c : Call) (i : Nat) (r : Result × Nat) (h : c.Hangs) :
    ¬ Calls.Ends (body base) outside (body base c) i r :=
  ((Call.stuck_iff c).mpr h).not_ends i r

/-- The calls of a typed expression end even where the builtins that hang give an error instead. -/
theorem not_endlessCalls_of_typable {expr : String} (h : Typable expr) (ctx : Vars) (outside : Nat → Draw) :
    ¬ EndlessCalls ctx outside expr := by
  rintro ⟨node, hnode, hchain⟩
  obtain ⟨G, τ, htype⟩ := h node hnode
  have htotal : Calls.Total (settled ctx) outside (Returns (Red ctx outside τ)) (evaluate ctx node) := evaluate_ends htype
  obtain ⟨r, hr, -⟩ := htotal 0
  refine Calls.not_chain_of_ends hr (hchain.instead (fun c hc => ?_) Call.Hangs.not_ends)
  exact settled_of_not_stuck fun hstuck => hc ((Call.stuck_iff c).mp hstuck)

/-- An evaluation returns unless its calls have no end or a builtin hangs, and the calls have one in every expression with
simple types. -/
theorem evaluateText_returns_iff (ctx : Vars) (outside : Nat → Draw) (expr : String) :
    ((∃ depth r, evaluateText ctx outside depth expr = some r) ↔
      ¬ EndlessCalls ctx outside expr ∧ ¬ HangingCall ctx outside expr) ∧
      (Typable expr → ¬ EndlessCalls ctx outside expr) := by
  refine ⟨?_, fun h => not_endlessCalls_of_typable h ctx outside⟩
  cases hnode : nodeOf expr with
  | error err =>
    refine iff_of_true ⟨0, .error err, by simp [evaluateText, hnode]⟩ ⟨?_, ?_⟩
    · rintro ⟨node, hok, -⟩
      cases hnode.symm.trans hok
    · rintro ⟨node, hok, -⟩
      cases hnode.symm.trans hok
  | ok node =>
    have hends : (∃ depth r, evaluateText ctx outside depth expr = some r) ↔
        ¬ Calls.Chain (body ctx) outside (¬ ·.Hangs) (evaluate ctx node) 0 ∧
          ∀ c i, Calls.Reaches (body ctx) outside (evaluate ctx node) 0 c i → ¬ c.Hangs := by
      simp only [evaluateText, hnode]
      rw [resultAt_eq_some, Calls.ends_iff Call.Hangs.not_ends]
    rw [hends]
    refine and_congr (not_congr ⟨fun h => ⟨node, hnode, h⟩, ?_⟩) ⟨?_, fun h c i hc hhangs => h ⟨node, hnode, c, i, hc, hhangs⟩⟩
    · rintro ⟨node', hok, hchain⟩
      cases hnode.symm.trans hok
      exact hchain
    · rintro h ⟨node', hok, c, i, hc, hhangs⟩
      cases hnode.symm.trans hok
      exact h c i hc hhangs

end

/-- The names in a function literal that returns its parameter, called with a number. -/
def Node.identityCall? : Node → Option (String × String)
  | .callPositional (.funcDef [p] (.var name)) [.numLit _ _] => some (p, name)
  | _ => none

theorem Node.eq_of_identityCall? {node : Node} (h : node.identityCall? = some ("x", "x")) :
    ∃ v isInteger, node = .callPositional (.funcDef ["x"] (.var "x")) [.numLit v isInteger] := by
  unfold Node.identityCall? at h
  split at h
  · cases h
    exact ⟨_, _, rfl⟩
  · cases h

theorem nodeOf_identityCall {node : Node} (h : @nodeOf Texts.plain Unicode.ascii "(function(x) x)(1)" = .ok node) :
    ∃ v isInteger, node = .callPositional (.funcDef ["x"] (.var "x")) [.numLit v isInteger] := by
  have hnames : (@nodeOf Texts.plain Unicode.ascii "(function(x) x)(1)").toOption.bind Node.identityCall? =
      some ("x", "x") := by decide +kernel
  rw [h] at hnames
  exact Node.eq_of_identityCall? hnames

theorem typable_identityCall : @Typable Texts.plain Unicode.ascii "(function(x) x)(1)" := by
  intro node hnode
  obtain ⟨v, isInteger, rfl⟩ := nodeOf_identityCall hnode
  refine ⟨fun _ => .data, .data, .callPositional (σ := fun _ => .data) (.funcDef (fun _ _ _ => .inl rfl) ?_) ?_⟩
  · exact .var "x" (by decide +kernel)
  · intro i n hn
    rw [List.mem_singleton.mp (List.mem_of_getElem? hn)]
    exact .numLit _ _

/-- The only call is that of the literal. -/
theorem not_hangingCall_identityCall :
    ¬ @HangingCall Texts.plain Unicode.ascii ∅ (fun _ => ⟨none, "", 0⟩) "(function(x) x)(1)" := by
  let formats := Texts.plain
  rintro ⟨node, hnode, c, i, hreaches, hhangs⟩
  obtain ⟨v, isInteger, rfl⟩ := nodeOf_identityCall hnode
  have hliteral : ∀ c i, Calls.Reaches (body ∅) (fun _ => ⟨none, "", 0⟩) (evaluate ∅
      (.callPositional (.funcDef ["x"] (.var "x")) [.numLit v isInteger])) 0 c i →
        ∃ args, c = ⟨.lambda ["x"] (.var "x") [], args, 0⟩ := by
    intro c i h
    induction h with
    | opens h =>
      change Calls.Opens _ _ (.call (Call.mk (.lambda ["x"] (.var "x") []) _ 0) fun r => .pure r) _ _ _ at h
      cases h with
      | here => exact ⟨_, rfl⟩
      | after _ h => cases h
    | inside _ h ih =>
      obtain ⟨args, rfl⟩ := ih
      change Calls.Opens _ _ (.pure _) _ _ _ at h
      cases h
  obtain ⟨args, rfl⟩ := hliteral c i hreaches
  cases hhangs

theorem evaluateText_returns_identityCall :
    ∃ depth r, @evaluateText Texts.plain Unicode.ascii ∅ (fun _ => ⟨none, "", 0⟩) depth "(function(x) x)(1)" = some r := by
  let formats := Texts.plain
  let chars := Unicode.ascii
  have h := evaluateText_returns_iff ∅ (fun _ => ⟨none, "", 0⟩) "(function(x) x)(1)"
  exact h.1.mpr ⟨h.2 typable_identityCall, not_hangingCall_identityCall⟩

/-- The names in a function literal that applies its parameter to itself, called with another such literal. -/
def Node.selfApplication? : Node → Option (List String)
  | .callPositional (.funcDef [p] (.callPositional (.var a) [.var b]))
      [.funcDef [q] (.callPositional (.var c) [.var d])] => some [p, a, b, q, c, d]
  | _ => none

theorem Node.eq_of_selfApplication? {node : Node} (h : node.selfApplication? = some ["f", "f", "f", "f", "f", "f"]) :
    node = .callPositional (.funcDef ["f"] (.callPositional (.var "f") [.var "f"]))
      [.funcDef ["f"] (.callPositional (.var "f") [.var "f"])] := by
  unfold Node.selfApplication? at h
  split at h
  · cases h
    rfl
  · cases h

/-- A function that is applied to itself is called without end. -/
theorem selfApplication_endless :
    ¬ ∀ (ctx : Vars) (outside : Nat → Draw) (expr : String),
      (∃ node, @nodeOf Texts.plain Unicode.ascii expr = .ok node) →
      ∃ depth r, @evaluateText Texts.plain Unicode.ascii ctx outside depth expr = some r := by
  let formats := Texts.plain
  let chars := Unicode.ascii
  intro h
  have hnames : (nodeOf "(function(f) f(f))(function(f) f(f))").toOption.bind Node.selfApplication? =
      some ["f", "f", "f", "f", "f", "f"] := by decide +kernel
  obtain ⟨node, hok⟩ : ∃ node, nodeOf "(function(f) f(f))(function(f) f(f))" = .ok node := by
    cases hnode : nodeOf "(function(f) f(f))(function(f) f(f))" with
    | error err =>
      rw [hnode] at hnames
      cases hnames
    | ok node => exact ⟨node, rfl⟩
  rw [hok] at hnames
  obtain rfl := Node.eq_of_selfApplication? hnames
  obtain ⟨depth, r, hr⟩ := h ∅ (fun _ => ⟨none, "", 0⟩) _ ⟨_, hok⟩
  simp only [evaluateText, hok] at hr
  obtain ⟨x, hends⟩ := resultAt_eq_some.mp ⟨depth, r, hr⟩
  let self : Func := .lambda ["f"] (.callPositional (.var "f") [.var "f"]) []
  have hends : ¬ Calls.Chain _ _ (fun _ => True) _ _ := Calls.not_chain_of_ends hends
  refine hends ⟨fun _ => (⟨self, [self.toVal], 0⟩, 0), .here _ _ _, fun _ => ?_, fun _ => trivial⟩
  exact .here _ _ _

end NanoBpm.FeelExpr
