import NanoBpm.Dmn.Eval
import NanoBpm.Lib.Results
import Mathlib.Logic.Relation

/-!
# The walk over a requirements graph

What one evaluation does to its context and its records, as steps: a decision is entered, dropped
by a failure, or finished once all it requires are done. Every run of `evalDecision` is a sequence
of these steps, so what one step keeps, a whole evaluation keeps.
-/

namespace NanoBpm.Dmn

variable {drg : DecisionRequirementsGraph} {P : String → Prop} {d e : String} {w w' : Walk}

/-- `d` lists `e` among its required decisions. -/
def Requires (drg : DecisionRequirementsGraph) (d e : String) : Prop :=
  ∃ decision, drg.decision d = some decision ∧ e ∈ decision.requiredDecisions

/-- `d` requires `e`, directly or through others. -/
abbrev Needs (drg : DecisionRequirementsGraph) : String → String → Prop := Relation.TransGen (Requires drg)

/-- `e` is `d` or needed by it. -/
abbrev Covers (drg : DecisionRequirementsGraph) : String → String → Prop := Relation.ReflTransGen (Requires drg)

theorem decision_id {decision : Decision} (h : drg.decision d = some decision) : decision.id = d := by
  simpa using List.find?_some h

theorem mem_ids {decision : Decision} (h : drg.decision d = some decision) : d ∈ drg.decisions.map (·.id) := by
  have hmem := List.mem_of_find?_eq_some h
  rw [← decision_id h]
  exact List.mem_map_of_mem hmem

/-- The walk after the logic of a decision gave its record. -/
def Walk.finish (w : Walk) (d : String) (decision : Decision) (record : EvaluatedDecision) : Walk where
  ctx := w.ctx.insert decision.resultName record.decisionOutput
  evaluated := w.evaluated ++ [record]
  done := d :: w.done
  onStack := w.onStack.erase d

/-- What an evaluation that started at `w` and stands at `w'` has left as it was. -/
structure Moved (w w' : Walk) : Prop where
  done : ∀ x ∈ w.done, x ∈ w'.done
  evaluated : ∀ x ∈ w.evaluated, x ∈ w'.evaluated
  fresh : ∀ x ∈ w'.done, x ∈ w.done ∨ x ∉ w.onStack

theorem Moved.refl (w : Walk) : Moved w w := ⟨fun _ h => h, fun _ h => h, fun _ h => .inl h⟩

theorem Moved.trans {w₁ w₂ w₃ : Walk} (h₁ : Moved w₁ w₂) (h₂ : Moved w₂ w₃) (hstack : w₂.onStack = w₁.onStack) :
    Moved w₁ w₃ where
  done x hx := h₂.done x (h₁.done x hx)
  evaluated x hx := h₂.evaluated x (h₁.evaluated x hx)
  fresh x hx := by
    rcases h₂.fresh x hx with hx | hx
    · exact h₁.fresh x hx
    · exact .inr (hstack ▸ hx)

/-- What a call that returns a value leaves behind. -/
structure Settled (d : String) (v : Value) (w w' : Walk) : Prop where
  onStack : w'.onStack = w.onStack
  done : d ∈ w'.done
  recorded : d ∈ w.done ∨ ∃ record ∈ w'.evaluated, record.decisionId = d ∧ record.decisionOutput = v

theorem bind_record_id {α : Type} {x : Except Stop α} {f : α → EvaluatedDecision} {id : String} {record : EvaluatedDecision}
    (hf : ∀ a, (f a).decisionId = id) (h : (x >>= fun a => Except.ok (f a)) = .ok record) : record.decisionId = id := by
  cases x with
  | error stop => cases h
  | ok a =>
    cases h
    exact hf a

/-- Every record is of a decision done, each once, and no decision is done before the ones it requires. -/
structure Tidy (drg : DecisionRequirementsGraph) (w : Walk) : Prop where
  records : w.evaluated.map (·.decisionId) = w.done.reverse
  nodup : w.done.Nodup
  grounded : ∀ x ∈ w.done, Acc (fun e d => Requires drg d e) x
  closed : ∀ x ∈ w.done, ∀ e, Requires drg x e → e ∈ w.done

theorem Tidy.init (drg : DecisionRequirementsGraph) (input : Vars) : Tidy drg { ctx := input } := by
  constructor <;> simp

theorem Tidy.covers (h : Tidy drg w) (hd : d ∈ w.done) (hcovers : Covers drg d e) : e ∈ w.done := by
  induction hcovers with
  | refl => exact hd
  | tail _ hreq ih => exact h.closed _ ih _ hreq

theorem Tidy.irrefl (h : Tidy drg w) (hd : d ∈ w.done) : ¬ Needs drg d d := by
  have hacc := (h.grounded d hd).transGen
  induction hacc with
  | intro x _ ih => exact fun hcycle => ih x (Relation.transGen_swap.mpr hcycle) hd hcycle

section Feel

variable [Feel] [DebugText]

/-- One step of the walk, among the decisions in `P`. -/
inductive Step (drg : DecisionRequirementsGraph) (P : String → Prop) : Walk → Walk → Prop
  | enter {w : Walk} {d : String} (hd : P d) (hdone : d ∉ w.done) (hstack : d ∉ w.onStack) :
      Step drg P w { w with onStack := d :: w.onStack }
  | drop {w : Walk} {d : String} : Step drg P w { w with onStack := w.onStack.erase d }
  | finish {w : Walk} {d : String} {decision : Decision} {record : EvaluatedDecision} (hd : P d)
      (hdecision : drg.decision d = some decision) (hdone : d ∉ w.done)
      (hrequired : ∀ e ∈ decision.requiredDecisions, e ∈ w.done) (hlogic : evalLogic decision w.ctx = .ok record) :
      Step drg P w (w.finish d decision record)

abbrev Steps (drg : DecisionRequirementsGraph) (P : String → Prop) : Walk → Walk → Prop :=
  Relation.ReflTransGen (Step drg P)

theorem evalLogic_id {decision : Decision} {ctx : Vars} {record : EvaluatedDecision}
    (h : evalLogic decision ctx = .ok record) : record.decisionId = decision.id := by
  unfold evalLogic at h
  split at h
  · exact bind_record_id (fun _ => rfl) h
  · simp only [evalTable] at h
    obtain ⟨inputs, -, h⟩ := Except.bind_eq_ok.mp h
    obtain ⟨matched, -, h⟩ := Except.bind_eq_ok.mp h
    exact bind_record_id (fun _ => rfl) h
  · cases h

/-- The loop over the required decisions, when each call does what `evalDecision_steps` says. -/
theorem evalRequired_steps {call : String → Walk → Except Stop Value × Walk}
    (hcall : ∀ e w r w', P e → call e w = (r, w') →
      Steps drg P w w' ∧ Moved w w' ∧ ∀ v, r = .ok v → Settled e v w w') :
    ∀ (required : List String) (w : Walk) (r : Except Stop Unit) (w' : Walk), (∀ e ∈ required, P e) →
      evalRequired call required w = (r, w') →
      Steps drg P w w' ∧ Moved w w' ∧ (r = .ok () → w'.onStack = w.onStack ∧ ∀ e ∈ required, e ∈ w'.done)
  | [], w, r, w', _, h => by
    simp only [evalRequired, Prod.mk.injEq] at h
    obtain ⟨-, rfl⟩ := h
    exact ⟨.refl, .refl _, fun _ => ⟨rfl, by simp⟩⟩
  | e :: rest, w, r, w', hP, h => by
    simp only [evalRequired] at h
    split at h
    · next v w₁ hfirst =>
      obtain ⟨hsteps, hmoved, hsettled⟩ := hcall e w _ w₁ (hP e (by simp)) hfirst
      have hset := hsettled v rfl
      obtain ⟨hsteps', hmoved', hok⟩ :=
        evalRequired_steps hcall rest w₁ r w' (fun e he => hP e (by simp [he])) h
      refine ⟨hsteps.trans hsteps', hmoved.trans hmoved' hset.onStack, fun hr => ?_⟩
      obtain ⟨hstack, hdone⟩ := hok hr
      refine ⟨hstack.trans hset.onStack, fun x hx => ?_⟩
      rcases List.mem_cons.mp hx with rfl | hx
      · exact hmoved'.done _ hset.done
      · exact hdone x hx
    · next stop w₁ hfirst =>
      obtain ⟨rfl, rfl⟩ := Prod.mk.inj h
      obtain ⟨hsteps, hmoved, -⟩ := hcall e w _ _ (hP e (by simp)) hfirst
      exact ⟨hsteps, hmoved, nofun⟩

/-- A call is a sequence of steps. -/
theorem evalDecision_steps (hP : ∀ d e, P d → Requires drg d e → P e) :
    ∀ (fuel : Nat) (d : String) (w : Walk) (r : Except Stop Value) (w' : Walk), P d →
      evalDecision drg fuel d w = (r, w') →
      Steps drg P w w' ∧ Moved w w' ∧ ∀ v, r = .ok v → Settled d v w w'
  | 0, d, w, r, w', _, h => by
    obtain ⟨rfl, rfl⟩ := Prod.mk.inj h
    exact ⟨.refl, .refl _, nofun⟩
  | fuel + 1, d, w, r, w', hd, h => by
    simp only [evalDecision] at h
    split at h
    · obtain ⟨rfl, rfl⟩ := Prod.mk.inj h
      exact ⟨.refl, .refl _, nofun⟩
    · next decision hdecision =>
      split at h
      · next hdone =>
        obtain ⟨rfl, rfl⟩ := Prod.mk.inj h
        exact ⟨.refl, .refl _, fun v _ => ⟨rfl, hdone, .inl hdone⟩⟩
      next hdone =>
      split at h
      · obtain ⟨rfl, rfl⟩ := Prod.mk.inj h
        exact ⟨.refl, .refl _, nofun⟩
      next hstack =>
      have henter : Step drg P w { w with onStack := d :: w.onStack } := .enter hd hdone hstack
      have hrequired := evalRequired_steps (P := P)
        (fun e w r w' => evalDecision_steps hP fuel e w r w') decision.requiredDecisions
        { w with onStack := d :: w.onStack }
      split at h
      · next stop w₁ hloop =>
        obtain ⟨rfl, rfl⟩ := Prod.mk.inj h
        obtain ⟨hsteps, hmoved, -⟩ := hrequired _ _ (fun e he => hP d e hd ⟨decision, hdecision, he⟩) hloop
        exact ⟨.head henter hsteps, ⟨hmoved.done, hmoved.evaluated, fun x hx => (hmoved.fresh x hx).imp_right (by simp_all)⟩,
          nofun⟩
      · next w₁ hloop =>
        obtain ⟨hsteps, hmoved, hok⟩ := hrequired _ _ (fun e he => hP d e hd ⟨decision, hdecision, he⟩) hloop
        obtain ⟨hstack₁, hdone₁⟩ := hok rfl
        have hleft : w₁.onStack.erase d = w.onStack := by rw [hstack₁, List.erase_cons_head]
        have hnot : d ∉ w₁.done := fun hx => by
          rcases hmoved.fresh d hx with hx | hx
          · exact hdone hx
          · exact hx (by simp)
        have hfresh : ∀ x ∈ w₁.done, x ∈ w.done ∨ x ∉ w.onStack := fun x hx =>
          (hmoved.fresh x hx).imp_right fun hx hmem => hx (List.mem_cons_of_mem d hmem)
        split at h
        · obtain ⟨rfl, rfl⟩ := Prod.mk.inj h
          exact ⟨(Relation.ReflTransGen.head henter hsteps).tail .drop,
            ⟨hmoved.done, hmoved.evaluated, hfresh⟩, nofun⟩
        · next record hlogic =>
          obtain ⟨rfl, rfl⟩ := Prod.mk.inj h
          refine ⟨(Relation.ReflTransGen.head henter hsteps).tail (.finish hd hdecision hnot hdone₁ hlogic),
            ⟨fun x hx => List.mem_cons_of_mem d (hmoved.done x hx),
              fun x hx => List.mem_append_left _ (hmoved.evaluated x hx), fun x hx => ?_⟩, fun v hv => ?_⟩
          · rcases List.mem_cons.mp hx with rfl | hx
            · exact .inr hstack
            · exact hfresh x hx
          · refine ⟨hleft, by simp, .inr ⟨record, by simp, ?_, by simpa using hv⟩⟩
            rw [evalLogic_id hlogic, decision_id hdecision]

/-! ## What every evaluation keeps -/

theorem Tidy.step (h : Tidy drg w) (hstep : Step drg P w w') : Tidy drg w' := by
  cases hstep with
  | enter => exact ⟨h.records, h.nodup, h.grounded, h.closed⟩
  | drop => exact ⟨h.records, h.nodup, h.grounded, h.closed⟩
  | @finish d decision record _ hdecision hdone hrequired hlogic =>
    have hrequires : ∀ e, Requires drg d e → e ∈ w.done := by
      rintro e ⟨decision', hdecision', he⟩
      obtain rfl := Option.some.inj (hdecision.symm.trans hdecision')
      exact hrequired e he
    constructor
    · simp [Walk.finish, h.records, evalLogic_id hlogic, decision_id hdecision]
    · exact List.nodup_cons.mpr ⟨hdone, h.nodup⟩
    · intro x hx
      rcases List.mem_cons.mp hx with rfl | hx
      · exact ⟨x, fun e he => h.grounded e (hrequires e he)⟩
      · exact h.grounded x hx
    · intro x hx e he
      rcases List.mem_cons.mp hx with rfl | hx
      · exact List.mem_cons_of_mem _ (hrequires e he)
      · exact List.mem_cons_of_mem _ (h.closed x hx e he)

theorem Tidy.steps (h : Tidy drg w) (hsteps : Steps drg P w w') : Tidy drg w' := by
  induction hsteps with
  | refl => exact h
  | tail _ hstep ih => exact ih.step hstep

end Feel

/-! ## Every evaluation ends -/

/-- Why an evaluation may stop early; it panics only where `p` holds. -/
def Stop.Fits (p : Prop) : Stop → Prop
  | .failure _ => True
  | .panic => p
  | .fuel => False

/-- If `x` stops, then with a failure, or in a panic where `p` holds. -/
def Ends {α : Type} (p : Prop) (x : Except Stop α) : Prop := ∀ stop, x = .error stop → stop.Fits p

/-- The same before an error is given its decision. -/
def TellsEnd {α : Type} (p : Prop) (x : Told α) : Prop := ∀ stop, x = .error (.inl stop) → stop.Fits p

variable {α β : Type} {p : Prop}

@[simp] theorem Ends.ok (a : α) : Ends p (.ok a) := nofun

@[simp] theorem Ends.failure (f : EvaluationFailure) : Ends p (.error (.failure f) : Except Stop α) := by
  rintro stop ⟨⟩
  trivial

theorem Ends.bind {x : Except Stop α} {f : α → Except Stop β} (hx : Ends p x) (hf : ∀ a, Ends p (f a)) :
    Ends p (x >>= f) := by
  cases x with
  | error stop =>
    rintro stop' ⟨⟩
    exact hx stop rfl
  | ok a => exact hf a

theorem Ends.mapError {x : Except String α} {f : String → EvaluationFailure} :
    Ends p (x.mapError fun e => Stop.failure (f e)) := by
  cases x <;> simp [Except.mapError]

@[simp] theorem TellsEnd.ok (a : α) : TellsEnd p (.ok a) := nofun

theorem TellsEnd.mapError {x : Except String α} : TellsEnd p (x.mapError .inr) := by
  cases x <;> rintro stop ⟨⟩

theorem TellsEnd.bind {x : Told α} {f : α → Told β} (hx : TellsEnd p x) (hf : ∀ a, TellsEnd p (f a)) :
    TellsEnd p (x >>= f) := by
  cases x with
  | error e =>
    rintro stop ⟨⟩
    exact hx stop rfl
  | ok a => exact hf a

/-- The tests of an input entry. -/
def entryTests (entry : String) : List String :=
  splitTopLevelCommas ((stripNot (trim entry)).getD (trim entry))

/-- A test that is one square bracket: its interval has no inside. -/
def loneBracket (test : String) : Bool := trim test == "[" || trim test == "]"

/-- Whether an input entry of a decision has such a test. -/
def hasLoneBracket (decision : Decision) : Bool :=
  match decision.logic with
  | .decisionTable table => table.rules.any fun rule => rule.inputEntries.any fun entry => (entryTests entry).any loneBracket
  | _ => false

theorem parseInterval_ends (t : String) : Ends (t = "[" ∨ t = "]") (parseInterval t) := by
  unfold parseInterval
  split
  · exact .ok _
  next first tail hlist =>
  dsimp only
  split
  · exact .ok _
  next hfirst =>
  split
  · exact .ok _
  next hlast =>
  split
  · next htail =>
    obtain rfl := List.isEmpty_iff.mp htail
    rintro stop ⟨⟩
    have ht : t = String.ofList [first] := by rw [← hlist, String.ofList_toList]
    rw [ht]
    simp only [List.getLast?_nil, Option.getD_none, Stop.Fits] at hlast ⊢
    have hcases : first = '[' ∨ first = ']' := by
      by_cases hopen : first = '['
      · exact .inl hopen
      · by_cases hclose : first = ']'
        · exact .inr hclose
        · have hparen : first = '(' := by_contra fun hparen => hfirst ⟨hopen, hparen, hclose⟩
          exact absurd ⟨hclose, by rw [hparen]; decide, hopen⟩ hlast
    rcases hcases with rfl | rfl
    · exact .inl (by decide +kernel)
    · exact .inr (by decide +kernel)
  · split
    · exact .ok _
    · split <;> exact .ok _

section Feel

variable [Feel]

theorem subtestMatches_ends (test : String) (input : Value) (ctx : Vars) :
    TellsEnd (loneBracket test = true) (subtestMatches test input ctx) := by
  unfold subtestMatches
  dsimp only
  split
  · exact .ok _
  split
  · exact .mapError
  split
  · exact .mapError
  refine TellsEnd.bind ?_ fun interval => ?_
  · intro stop h
    cases hparse : parseInterval (trim test) with
    | ok a => rw [hparse] at h; cases h
    | error stop' =>
      rw [hparse] at h
      cases h
      have := parseInterval_ends (trim test) _ hparse
      cases stop <;> simp_all [Stop.Fits, loneBracket]
  · cases interval with
    | none => exact .bind .mapError fun _ => .ok _
    | some bounds => exact .mapError

theorem anyMatches_ends (input : Value) (ctx : Vars) (tests : List String) :
    TellsEnd (tests.any loneBracket = true) (anyMatches input ctx tests) := by
  induction tests with
  | nil => exact .ok _
  | cons test tests ih =>
    simp only [anyMatches]
    refine TellsEnd.bind ?_ fun matches_ => ?_
    · intro stop h
      have := subtestMatches_ends test input ctx stop h
      cases stop <;> simp_all [Stop.Fits]
    · cases matches_ with
      | true => exact .ok _
      | false =>
        intro stop h
        have := ih stop h
        cases stop <;> simp_all [Stop.Fits]

theorem unaryTestMatches_ends (entry : String) (input : Value) (ctx : Vars) :
    TellsEnd ((entryTests entry).any loneBracket = true) (unaryTestMatches entry input ctx) := by
  unfold unaryTestMatches positiveListMatches entryTests
  dsimp only
  split
  · exact .ok _
  cases hnot : stripNot (trim entry) with
  | none => exact anyMatches_ends input ctx _
  | some inner =>
    intro stop h
    refine anyMatches_ends input ctx (splitTopLevelCommas inner) stop ?_
    simp only at h
    cases hmatch : anyMatches input ctx (splitTopLevelCommas inner) with
    | ok b => rw [hmatch] at h; cases h
    | error e =>
      rw [hmatch] at h
      cases h
      rfl

theorem allMatch_ends (decisionId : String) (ctx : Vars) (inputs : List Value) (col : Nat) (entries : List String) :
    Ends (entries.any (fun entry => (entryTests entry).any loneBracket) = true) (allMatch decisionId ctx inputs col entries) := by
  induction entries generalizing col with
  | nil => exact .ok _
  | cons entry entries ih =>
    simp only [allMatch]
    refine Ends.bind ?_ fun matches_ => ?_
    · cases htest : unaryTestMatches entry (inputs.getD col .null) ctx with
      | ok b => exact .ok _
      | error e =>
        cases e with
        | inr e => exact .failure _
        | inl stop =>
          rintro stop' ⟨⟩
          have := unaryTestMatches_ends entry _ ctx stop htest
          cases stop <;> simp_all [Stop.Fits]
    · cases matches_ with
      | false => exact .ok _
      | true =>
        intro stop h
        have := ih (col + 1) stop h
        cases stop <;> simp_all [Stop.Fits]

theorem evalText_ends (decisionId : String) (kind text : String) (ctx : Vars) :
    Ends p (evalText decisionId kind text ctx) := by
  unfold evalText
  split
  · exact .ok _
  · exact .mapError

theorem evalInputs_ends (decisionId : String) (ctx : Vars) (inputs : List InputClause) :
    Ends p (evalInputs decisionId ctx inputs) := by
  induction inputs with
  | nil => exact .ok _
  | cons input inputs ih => exact .bind (evalText_ends _ _ _ _) fun _ => .bind ih fun _ => .ok _

theorem evalOutputs_ends (decisionId : String) (ctx : Vars) (entries : List String) (i : Nat) (outputs : List OutputClause) :
    Ends p (evalOutputs decisionId ctx entries i outputs) := by
  induction outputs generalizing i with
  | nil => exact .ok _
  | cons output outputs ih => exact .bind (evalText_ends _ _ _ _) fun _ => .bind (ih _) fun _ => .ok _

theorem matchRules_ends (decisionId : String) (table : DecisionTable) (ctx : Vars) (inputs : List Value) (index : Nat)
    (rules : List DecisionRule) :
    Ends (rules.any (fun rule => rule.inputEntries.any fun entry => (entryTests entry).any loneBracket) = true)
      (matchRules decisionId table ctx inputs index rules) := by
  induction rules generalizing index with
  | nil => exact .ok _
  | cons rule rules ih =>
    have hrest : Ends ((rule :: rules).any (fun rule => rule.inputEntries.any fun entry =>
        (entryTests entry).any loneBracket) = true) (matchRules decisionId table ctx inputs (index + 1) rules) := by
      intro stop h
      have := ih (index + 1) stop h
      cases stop <;> simp_all [Stop.Fits]
    simp only [matchRules]
    refine Ends.bind ?_ fun matches_ => ?_
    · intro stop h
      have := allMatch_ends decisionId ctx inputs 0 rule.inputEntries stop h
      cases stop <;> simp_all [Stop.Fits]
    · cases matches_ with
      | false => exact hrest
      | true => exact .bind (evalOutputs_ends _ _ _ _ _) fun _ => .bind hrest fun _ => .ok _

variable [DebugText]

omit [Feel] in
theorem numbersOf_ends (decisionId : String) (matched : List RuleMatch) : Ends p (numbersOf decisionId matched) := by
  induction matched with
  | nil => exact .ok _
  | cons m ms ih =>
    simp only [numbersOf]
    split
    · exact .bind ih fun _ => .ok _
    · exact .failure _

omit [Feel] in
theorem aggregate_ends (decisionId : String) (agg : Aggregation) (matched : List RuleMatch) :
    Ends p (aggregate decisionId agg matched) := by
  unfold aggregate
  split
  · exact .ok _
  split
  · exact .ok _
  · exact .bind (numbersOf_ends _ _) fun _ => .ok _

theorem applyHitPolicy_ends (decisionId : String) (table : DecisionTable) (matched : List RuleMatch) :
    Ends p (applyHitPolicy decisionId table matched) := by
  unfold applyHitPolicy
  dsimp only
  cases table.hitPolicy with
  | unique => dsimp only; split <;> simp
  | first => exact .ok _
  | any => dsimp only; split <;> [exact .ok _; (split <;> simp)]
  | priority => dsimp only; split <;> exact .ok _
  | collect => dsimp only; split <;> [exact .ok _; exact .bind (aggregate_ends _ _ _) fun _ => .ok _]
  | ruleOrder => exact .ok _
  | outputOrder => exact .ok _

/-- A logic panics only where the decision has a test of one square bracket. -/
theorem evalLogic_ends (decision : Decision) (ctx : Vars) :
    Ends (hasLoneBracket decision = true) (evalLogic decision ctx) := by
  unfold evalLogic hasLoneBracket
  cases decision.logic with
  | literalExpression text => exact .bind .mapError fun _ => .ok _
  | unsupported what => exact .failure _
  | decisionTable table =>
    exact .bind (evalInputs_ends _ _ _) fun inputs =>
      .bind (matchRules_ends _ _ _ _ _ _) fun matched => .bind (applyHitPolicy_ends _ _ _) fun _ => .ok _

/-- The decisions that may still be entered. -/
def room (drg : DecisionRequirementsGraph) (w : Walk) : Nat :=
  ((drg.decisions.map (·.id)).filter (· ∉ w.onStack)).length

omit [Feel] [DebugText] in
theorem room_enter {decision : Decision} (hdecision : drg.decision d = some decision) (hstack : d ∉ w.onStack) :
    room drg { w with onStack := d :: w.onStack } < room drg w := by
  have hsub : ((drg.decisions.map (·.id)).filter (· ∉ d :: w.onStack)) =
      ((drg.decisions.map (·.id)).filter (· ∉ w.onStack)).filter (· ≠ d) := by
    rw [List.filter_filter]
    refine List.filter_congr fun x _ => ?_
    by_cases hx : x = d <;> simp [hx]
  simp only [room, hsub]
  exact List.length_filter_lt_length_iff_exists.mpr ⟨d, by simpa [hstack] using mem_ids hdecision, by simp⟩

omit [Feel] [DebugText] in
theorem evalRequired_ends {call : String → Walk → Except Stop Value × Walk} {n : Nat}
    (hcall : ∀ e w, P e → room drg w < n → Ends p (call e w).1)
    (hstack : ∀ e w v, P e → (call e w).1 = .ok v → (call e w).2.onStack = w.onStack) :
    ∀ (required : List String) (w : Walk), (∀ e ∈ required, P e) → room drg w < n →
      Ends p (evalRequired call required w).1
  | [], w, _, _ => .ok _
  | e :: rest, w, hP, hroom => by
    have hfirst := hcall e w (hP e (by simp)) hroom
    have hkept := hstack e w
    simp only [evalRequired]
    split
    · next v w₁ heq =>
      have hon : w₁.onStack = w.onStack := by simpa [heq] using hkept v (hP e (by simp)) (by rw [heq])
      exact evalRequired_ends hcall hstack rest w₁ (fun e he => hP e (by simp [he])) (by rw [room, hon]; exact hroom)
    · next stop w₁ heq =>
      rintro stop' ⟨⟩
      exact hfirst stop (by rw [heq])

/-- The recursion ends: each level enters a decision of the graph that is not in progress. -/
theorem evalDecision_ends (hP : ∀ d e, P d → Requires drg d e → P e)
    (hlogic : ∀ d decision ctx, P d → drg.decision d = some decision → Ends p (evalLogic decision ctx)) :
    ∀ (fuel : Nat) (d : String) (w : Walk), P d → room drg w < fuel → Ends p (evalDecision drg fuel d w).1
  | fuel + 1, d, w, hd, hroom => by
    simp only [evalDecision]
    split
    · exact .failure _
    next decision hdecision =>
    split
    · exact .ok _
    split
    · exact .failure _
    next hstack =>
    have hrequired := evalRequired_ends (P := P)
      (fun e w => evalDecision_ends hP hlogic fuel e w)
      (fun e w v he hv => ((evalDecision_steps hP fuel e w _ _ he rfl).2.2 v hv).onStack)
      decision.requiredDecisions { w with onStack := d :: w.onStack } (fun e he => hP d e hd ⟨decision, hdecision, he⟩)
      (by have := room_enter hdecision hstack; omega)
    split
    · next stop w₁ heq =>
      rintro stop' ⟨⟩
      exact hrequired stop (by rw [heq])
    · next w₁ heq =>
      have := hlogic d decision w₁.ctx hd hdecision
      split
      · next stop hstop =>
        rintro stop' ⟨⟩
        exact this stop hstop
      · exact .ok _

end Feel

end NanoBpm.Dmn
