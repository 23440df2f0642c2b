import NanoBpm.Dmn.Walk
import Mathlib.Data.List.Forall2

/-!
# A decision inside another

The output of a decision is defined here over the requirements graph alone (`Output`): its logic
over the outputs of what it needs and the input. `evaluate` binds every result in one context,
where also decisions that do not require it find it (`sibling_result_leaks`). Where no logic reads
such a result, `evaluate` computes `Output`, so a decision gives the same inside any other.
-/

namespace NanoBpm.Dmn

variable {drg : DecisionRequirementsGraph} {root d e n : String} {input : Vars} {v : Value} {w w' : Walk}

/-- The name under which the result of a decision is bound. -/
def resultName (drg : DecisionRequirementsGraph) (d : String) : Option String := (drg.decision d).map (·.resultName)

/-- In an evaluation of `root`, `e` may be done before `d`: it is another decision, and it does not wait for `d`. -/
structure Beside (drg : DecisionRequirementsGraph) (root d e : String) : Prop where
  covers : Covers drg root e
  ne : e ≠ d
  free : ¬ Needs drg e d

/-- Whatever is done before `d`, the name `n` holds the result of `e`, which `d` requires: it is the last one to be bound. -/
structure Holds (drg : DecisionRequirementsGraph) (root d n e : String) : Prop where
  needs : Needs drg d e
  name : resultName drg e = some n
  last : ∀ e', Beside drg root d e' → resultName drg e' = some n → e' = e ∨ Needs drg e e'

/-- When `d` is evaluated inside `root`, the name `n` may hold the result of a decision, and not just that of one which `d`
requires. -/
def Foreign (drg : DecisionRequirementsGraph) (root d n : String) : Prop :=
  (∃ e, Beside drg root d e ∧ resultName drg e = some n) ∧ ¬ ∃ e, Holds drg root d n e

/-- The context is the input but for the names of decisions beside `d`, and holds the results of what `d` needs. -/
structure Suits (drg : DecisionRequirementsGraph) (root : String) (input : Vars) (outs : String → Value) (d : String)
    (ctx : Vars) : Prop where
  results : ∀ n e, Holds drg root d n e → ctx[n]? = some (outs e)
  rest : ∀ n, (∀ e, Beside drg root d e → resultName drg e ≠ some n) → ctx[n]? = input[n]?

/-- Two such contexts agree but for the foreign names. -/
theorem Suits.agree {outs outs' : String → Value} {ctx ctx' : Vars} (h : Suits drg root input outs d ctx)
    (h' : Suits drg root input outs' d ctx') (houts : ∀ e, Needs drg d e → outs e = outs' e) (hn : ¬ Foreign drg root d n) :
    ctx[n]? = ctx'[n]? := by
  by_cases hname : ∃ e, Beside drg root d e ∧ resultName drg e = some n
  · obtain ⟨e, he⟩ := not_not.mp fun hnot => hn ⟨hname, hnot⟩
    rw [h.results n e he, h'.results n e he, houts e he.needs]
  · simp only [not_exists, not_and] at hname
    rw [h.rest n hname, h'.rest n hname]

/-- The graph with its requirement lists in another order. -/
def Relisted (drg drg' : DecisionRequirementsGraph) : Prop :=
  List.Forall₂ (fun a b => ∃ required, b = { a with requiredDecisions := required } ∧ a.requiredDecisions.Perm required)
    drg.decisions drg'.decisions

theorem Relisted.symm {drg' : DecisionRequirementsGraph} (h : Relisted drg drg') : Relisted drg' drg := by
  refine List.Forall₂.flip (h.imp ?_)
  rintro a b ⟨required, rfl, hperm⟩
  exact ⟨a.requiredDecisions, rfl, hperm.symm⟩

theorem Relisted.decision {drg' : DecisionRequirementsGraph} {decision : Decision} (h : Relisted drg drg')
    (hdecision : drg.decision d = some decision) :
    ∃ required, drg'.decision d = some { decision with requiredDecisions := required } ∧
      decision.requiredDecisions.Perm required := by
  unfold DecisionRequirementsGraph.decision at *
  unfold Relisted at h
  generalize drg.decisions = xs at *
  generalize drg'.decisions = ys at *
  induction h with
  | nil => cases hdecision
  | @cons a b as bs hab _ ih =>
    obtain ⟨required, rfl, hperm⟩ := hab
    rw [List.find?_cons] at hdecision ⊢
    by_cases hid : a.id == d
    · simp only [hid] at hdecision ⊢
      cases hdecision
      exact ⟨required, rfl, hperm⟩
    · simp only [hid] at hdecision ⊢
      exact ih hdecision

theorem Relisted.requires {drg' : DecisionRequirementsGraph} (h : Relisted drg drg') : Requires drg = Requires drg' := by
  have key : ∀ {a b : DecisionRequirementsGraph} (_ : Relisted a b) {d e : String}, Requires a d e → Requires b d e := by
    rintro a b hab d e ⟨decision, hdecision, he⟩
    obtain ⟨required, hdecision', hperm⟩ := hab.decision hdecision
    exact ⟨_, hdecision', hperm.mem_iff.mp he⟩
  ext d e
  exact ⟨key h, key h.symm⟩

theorem Relisted.resultName {drg' : DecisionRequirementsGraph} (h : Relisted drg drg') (d : String) :
    resultName drg d = resultName drg' d := by
  unfold Dmn.resultName
  cases hdecision : drg.decision d with
  | some decision =>
    obtain ⟨required, hdecision', -⟩ := h.decision hdecision
    simp [hdecision', Decision.resultName]
  | none =>
    cases hdecision' : drg'.decision d with
    | none => rfl
    | some decision =>
      obtain ⟨required, hback, -⟩ := h.symm.decision hdecision'
      simp [hdecision] at hback

theorem Relisted.beside {drg' : DecisionRequirementsGraph} (h : Relisted drg drg') :
    Beside drg root d e ↔ Beside drg' root d e := by
  constructor <;> exact fun hb => ⟨by simpa only [Covers, h.requires] using hb.covers, hb.ne,
    by simpa only [Needs, h.requires] using hb.free⟩

theorem Relisted.holds {drg' : DecisionRequirementsGraph} (h : Relisted drg drg') :
    Holds drg root d n e ↔ Holds drg' root d n e := by
  have key : ∀ {a b : DecisionRequirementsGraph} (_ : Relisted a b), Holds a root d n e → Holds b root d n e := by
    intro a b hab he
    have hneeds : Needs a = Needs b := congrArg Relation.TransGen hab.requires
    refine ⟨hneeds ▸ he.needs, (hab.resultName e).symm.trans he.name, fun e' hbeside hname => ?_⟩
    rw [← hneeds]
    exact he.last e' (hab.beside.mpr hbeside) ((hab.resultName e').trans hname)
  exact ⟨key h, key h.symm⟩

theorem Relisted.foreign {drg' : DecisionRequirementsGraph} (h : Relisted drg drg') :
    Foreign drg root d n ↔ Foreign drg' root d n := by
  simp only [Foreign, h.beside, h.holds, h.resultName]

theorem Relisted.suits {drg' : DecisionRequirementsGraph} {outs : String → Value} {ctx : Vars} (h : Relisted drg drg')
    (hctx : Suits drg root input outs d ctx) : Suits drg' root input outs d ctx where
  results n e he := hctx.results n e (h.holds.mpr he)
  rest n hname :=
    hctx.rest n fun e he => by
      rw [h.resultName]
      exact hname e (h.beside.mp he)

section Feel

variable [Feel] [DebugText]

/-- The logic of `d` does not tell apart two contexts that differ in foreign names only, each the input but for the
results of the decisions beside `d`. -/
def ReadsOwn (drg : DecisionRequirementsGraph) (root : String) (input : Vars) (d : String) : Prop :=
  ∀ decision ctx ctx', drg.decision d = some decision →
    (∀ n, (∀ e, Beside drg root d e → resultName drg e ≠ some n) → ctx[n]? = input[n]?) →
    (∀ n, ¬ Foreign drg root d n → ctx[n]? = ctx'[n]?) → evalLogic decision ctx = evalLogic decision ctx'

/-- The output of a decision: its logic over the outputs of what it needs. -/
inductive Output (drg : DecisionRequirementsGraph) (root : String) (input : Vars) : String → Value → Prop
  | intro {d : String} {decision : Decision} {ctx : Vars} {record : EvaluatedDecision} (outs : String → Value)
      (hdecision : drg.decision d = some decision) (hneeds : ∀ e, Needs drg d e → Output drg root input e (outs e))
      (hctx : Suits drg root input outs d ctx) (hlogic : evalLogic decision ctx = .ok record) :
      Output drg root input d record.decisionOutput

theorem Output.irrefl (h : Output drg root input d v) : ¬ Needs drg d d := by
  induction h with
  | intro outs hdecision hneeds hctx hlogic ih => exact fun hcycle => ih _ hcycle hcycle

variable (hown : ∀ d, Covers drg root d → ReadsOwn drg root input d)

include hown

/-- Over contexts that suit it, the logic of a decision gives one record. -/
theorem Suits.evalLogic_eq {outs outs' : String → Value} {ctx ctx' : Vars} {decision : Decision}
    (h : Suits drg root input outs d ctx) (h' : Suits drg root input outs' d ctx')
    (houts : ∀ e, Needs drg d e → outs e = outs' e) (hd : Covers drg root d) (hdecision : drg.decision d = some decision) :
    evalLogic decision ctx = evalLogic decision ctx' :=
  hown d hd decision ctx ctx' hdecision h.rest fun _ hn => h.agree h' houts hn

theorem Output.unique {v' : Value} (h : Output drg root input d v) (h' : Output drg root input d v')
    (hd : Covers drg root d) : v = v' := by
  induction h generalizing v' with
  | intro outs hdecision hneeds hctx hlogic ih =>
    cases h' with
    | intro outs' hdecision' hneeds' hctx' hlogic' =>
      obtain rfl := Option.some.inj (hdecision.symm.trans hdecision')
      have houts : ∀ e, Needs drg _ e → outs e = outs' e :=
        fun e he => ih e he (hneeds' e he) (hd.trans he.to_reflTransGen)
      rw [hctx.evalLogic_eq hown hctx' houts hd hdecision, hlogic'] at hlogic
      cases hlogic
      rfl

omit hown

/-- The context holds the input and, under the names of the decisions done, outputs; the records are outputs. -/
structure Sound (drg : DecisionRequirementsGraph) (root : String) (input : Vars) (w : Walk) : Prop where
  context : ∀ n : String, (∃ e ∈ w.done, resultName drg e = some n ∧ (∀ x ∈ w.done, resultName drg x = some n → ¬ Needs drg x e) ∧
      ∃ v, Output drg root input e v ∧ w.ctx[n]? = some v) ∨
    (∀ e ∈ w.done, resultName drg e ≠ some n) ∧ w.ctx[n]? = input[n]?
  records : ∀ record ∈ w.evaluated, Output drg root input record.decisionId record.decisionOutput
  covered : ∀ x ∈ w.done, Covers drg root x

theorem Sound.init : Sound drg root input { ctx := input } where
  context n := .inr ⟨by simp, rfl⟩
  records := by simp
  covered := by simp

theorem Sound.output (h : Sound drg root input w) (htidy : Tidy drg w) (hd : d ∈ w.done) : ∃ v, Output drg root input d v := by
  have hmem : d ∈ w.evaluated.map (·.decisionId) := by rw [htidy.records]; simpa using hd
  obtain ⟨record, hrecord, rfl⟩ := List.mem_map.mp hmem
  exact ⟨_, h.records record hrecord⟩

/-- The output of a decision, where it has one. -/
noncomputable def outputOf (drg : DecisionRequirementsGraph) (root : String) (input : Vars) (d : String) : Value :=
  Classical.epsilon (Output drg root input d)

theorem output_outputOf (h : ∃ v, Output drg root input d v) : Output drg root input d (outputOf drg root input d) :=
  Classical.epsilon_spec h

/-- What is done before `d` is beside it. -/
theorem Sound.beside (h : Sound drg root input w) (htidy : Tidy drg w) (hd : d ∉ w.done) (he : e ∈ w.done) :
    Beside drg root d e where
  covers := h.covered e he
  ne hed := hd (hed ▸ he)
  free hneeds := hd (htidy.covers he hneeds.to_reflTransGen)

include hown

/-- Once all that `d` needs is done, the shared context suits it. -/
theorem Sound.suits (h : Sound drg root input w) (htidy : Tidy drg w) (hd : d ∉ w.done)
    (hneeds : ∀ e, Needs drg d e → e ∈ w.done) : Suits drg root input (outputOf drg root input) d w.ctx where
  results n e he := by
    have hdone := hneeds e he.needs
    rcases h.context n with ⟨e', hdone', hname', hlast, v, hv, hctx⟩ | ⟨hnone, -⟩
    · obtain rfl := (he.last e' (h.beside htidy hd hdone') hname').resolve_right (hlast e hdone he.name)
      rw [hctx, hv.unique hown (output_outputOf ⟨v, hv⟩) (h.covered e' hdone')]
    · exact absurd he.name (hnone e hdone)
  rest n hnone := by
    rcases h.context n with ⟨e, hdone, hname, -⟩ | ⟨-, hctx⟩
    · exact absurd hname (hnone e (h.beside htidy hd hdone))
    · exact hctx

theorem Sound.step (h : Sound drg root input w) (htidy : Tidy drg w) (hstep : Step drg (Covers drg root) w w') :
    Sound drg root input w' := by
  cases hstep with
  | enter => exact ⟨h.context, h.records, h.covered⟩
  | drop => exact ⟨h.context, h.records, h.covered⟩
  | @finish d decision record hd hdecision hdone hrequired hlogic =>
    have hneeds : ∀ e, Needs drg d e → e ∈ w.done := by
      intro e he
      obtain ⟨x, ⟨decision', hdecision', hx⟩, hcovers⟩ := Relation.TransGen.head'_iff.mp he
      obtain rfl := Option.some.inj (hdecision.symm.trans hdecision')
      exact htidy.covers (hrequired x hx) hcovers
    have hout : Output drg root input d record.decisionOutput :=
      .intro _ hdecision (fun e he => output_outputOf (h.output htidy (hneeds e he)))
        (h.suits hown htidy hdone hneeds) hlogic
    constructor
    · intro n
      by_cases hn : decision.resultName = n
      · have hfree : ∀ x ∈ d :: w.done, ¬ Needs drg x d := by
          intro x hx hneeds
          rcases List.mem_cons.mp hx with rfl | hx
          · exact hout.irrefl hneeds
          · exact hdone (htidy.covers hx hneeds.to_reflTransGen)
        refine .inl ⟨d, by simp [Walk.finish], by simp [resultName, hdecision, hn], fun x hx _ => hfree x hx,
          record.decisionOutput, hout, ?_⟩
        simp [Walk.finish, hn]
      · have hctx : (w.finish d decision record).ctx[n]? = w.ctx[n]? := by
          simp [Walk.finish, Std.ExtTreeMap.getElem?_insert, hn]
        rw [hctx]
        rcases h.context n with ⟨e, he, hname, hlast, hv⟩ | ⟨hnone, hsame⟩
        · refine .inl ⟨e, List.mem_cons_of_mem _ he, hname, fun x hx hxname => ?_, hv⟩
          rcases List.mem_cons.mp hx with rfl | hx
          · simp [resultName, hdecision, hn] at hxname
          · exact hlast x hx hxname
        · refine .inr ⟨fun e he => ?_, hsame⟩
          rcases List.mem_cons.mp he with rfl | he
          · simp [resultName, hdecision, hn]
          · exact hnone e he
    · intro record' hrecord
      rcases List.mem_append.mp hrecord with hrecord | hrecord
      · exact h.records record' hrecord
      · obtain rfl := List.mem_singleton.mp hrecord
        rw [evalLogic_id hlogic, decision_id hdecision]
        exact hout
    · intro x hx
      rcases List.mem_cons.mp hx with rfl | hx
      · exact hd
      · exact h.covered x hx

theorem Sound.steps (h : Sound drg root input w) (htidy : Tidy drg w) (hsteps : Steps drg (Covers drg root) w w') :
    Sound drg root input w' := by
  induction hsteps with
  | refl => exact h
  | tail hsteps hstep ih => exact ih.step hown (htidy.steps hsteps) hstep

/-- The loop over the required decisions succeeds where each call does. -/
theorem evalRequired_complete {call : String → Walk → Except Stop Value × Walk} {fuel : Nat}
    (hcall : ∀ e w, (∃ v, Output drg root input e v) → Covers drg root e → Sound drg root input w → Tidy drg w →
      (∀ x ∈ w.onStack, Needs drg x e) → room drg w < fuel → ∃ v, (call e w).1 = .ok v)
    (hsteps : ∀ e w r w', Covers drg root e → call e w = (r, w') →
      Steps drg (Covers drg root) w w' ∧ Moved w w' ∧ ∀ v, r = .ok v → Settled e v w w') :
    ∀ (required : List String) (w : Walk),
      (∀ e ∈ required, (∃ v, Output drg root input e v) ∧ Covers drg root e ∧ ∀ x ∈ w.onStack, Needs drg x e) →
      Sound drg root input w → Tidy drg w → room drg w < fuel → (evalRequired call required w).1 = .ok ()
  | [], w, _, _, _, _ => rfl
  | e :: rest, w, hreq, hsound, htidy, hroom => by
    obtain ⟨hout, hcovers, hstack⟩ := hreq e (by simp)
    obtain ⟨v, hv⟩ := hcall e w hout hcovers hsound htidy hstack hroom
    obtain ⟨hwalk, -, hsettled⟩ := hsteps e w _ _ hcovers rfl
    have hon := (hsettled v hv).onStack
    simp only [evalRequired]
    split
    · next v' w₁ heq =>
      rw [heq] at hwalk hon
      refine evalRequired_complete hcall hsteps rest w₁ (fun x hx => ?_) (hsound.steps hown htidy hwalk)
        (htidy.steps hwalk) (by rw [room, hon]; exact hroom)
      rw [hon]
      exact hreq x (by simp [hx])
    · next stop w₁ heq =>
      rw [heq] at hv
      cases hv

/-- A decision that has an output is evaluated, from any context the walk can reach. -/
theorem evalDecision_complete : ∀ (fuel : Nat) (d : String) (w : Walk), (∃ v, Output drg root input d v) →
    Covers drg root d → Sound drg root input w → Tidy drg w → (∀ x ∈ w.onStack, Needs drg x d) → room drg w < fuel →
    ∃ v, (evalDecision drg fuel d w).1 = .ok v
  | fuel + 1, d, w, ⟨v, hv⟩, hcovers, hsound, htidy, hstack, hroom => by
    have hacyclic := hv.irrefl
    obtain ⟨outs, hdecision, hneeds, hctx, hlogic⟩ := hv
    rename_i decision ctx record
    have hP : ∀ d e, Covers drg root d → Requires drg d e → Covers drg root e := fun _ _ => .tail
    have hnot : d ∉ w.onStack := fun hmem => hacyclic (hstack d hmem)
    have hrequires : ∀ e ∈ decision.requiredDecisions, Requires drg d e := fun e he => ⟨decision, hdecision, he⟩
    have hloop := evalRequired_complete hown (evalDecision_complete fuel) (evalDecision_steps hP fuel)
      decision.requiredDecisions { w with onStack := d :: w.onStack }
      (fun e he => by
        have hreq := hrequires e he
        refine ⟨⟨_, hneeds e (.single hreq)⟩, hcovers.tail hreq, fun x hx => ?_⟩
        rcases List.mem_cons.mp hx with rfl | hx
        · exact .single hreq
        · exact (hstack x hx).tail hreq)
      ⟨hsound.context, hsound.records, hsound.covered⟩ ⟨htidy.records, htidy.nodup, htidy.grounded, htidy.closed⟩
      (by have := room_enter hdecision hnot; omega)
    simp only [evalDecision, hdecision]
    by_cases hdone : d ∈ w.done
    · exact ⟨_, by rw [if_pos hdone]⟩
    rw [if_neg hdone, if_neg hnot]
    split
    · next stop w₁ heq =>
      rw [heq] at hloop
      cases hloop
    · next w₁ heq =>
      obtain ⟨hwalk, hmoved, hall⟩ := evalRequired_steps (evalDecision_steps hP fuel) _ _ _ _
        (fun e he => hcovers.tail (hrequires e he)) heq
      have hwalk' := Relation.ReflTransGen.head (Step.enter hcovers hdone hnot) hwalk
      have htidy₁ := htidy.steps hwalk'
      have hfresh : d ∉ w₁.done := fun hmem => by
        rcases hmoved.fresh d hmem with hmem | hmem
        · exact hdone hmem
        · exact hmem (by simp)
      have hsuits := (hsound.steps hown htidy hwalk').suits hown htidy₁ hfresh fun e he => by
        obtain ⟨x, ⟨decision', hdecision', hx⟩, hfrom⟩ := Relation.TransGen.head'_iff.mp he
        obtain rfl := Option.some.inj (hdecision.symm.trans hdecision')
        exact htidy₁.covers ((hall rfl).2 x hx) hfrom
      have houts : ∀ e, Needs drg d e → outputOf drg root input e = outs e := fun e he =>
        (output_outputOf ⟨_, hneeds e he⟩).unique hown (hneeds e he) (hcovers.trans he.to_reflTransGen)
      rw [hsuits.evalLogic_eq hown hctx houts hcovers hdecision, hlogic]
      exact ⟨_, rfl⟩

/-- `evaluate` succeeds exactly with the output of the decision. -/
theorem evaluate_output (hd : Covers drg root d) :
    (∃ evaluated, evaluate drg d input = some ⟨v, evaluated, none⟩) ↔ Output drg root input d v := by
  have hP : ∀ d e, Covers drg root d → Requires drg d e → Covers drg root e := fun _ _ => .tail
  have hsound : ∀ {v w}, evalDecision drg (drg.decisions.length + 1) d { ctx := input } = (.ok v, w) →
      Output drg root input d v := by
    intro v w heval
    obtain ⟨hwalk, -, hsettled⟩ := evalDecision_steps hP _ _ _ _ _ hd heval
    rcases (hsettled v rfl).recorded with hdone | ⟨record, hrecord, rfl, rfl⟩
    · simp at hdone
    · exact (Sound.init.steps hown (Tidy.init drg input) hwalk).records record hrecord
  unfold evaluate
  constructor
  · rintro ⟨evaluated, heval⟩
    split at heval
    · next output w hok =>
      cases heval
      exact hsound hok
    · cases heval
    · cases heval
  · intro hout
    obtain ⟨v', hv'⟩ := evalDecision_complete hown (drg.decisions.length + 1) d { ctx := input } ⟨v, hout⟩ hd Sound.init
      (Tidy.init drg input) (by simp) (by simp [room])
    split
    · next output w hok => exact ⟨w.evaluated, by rw [(hsound hok).unique hown hout hd]⟩
    · next f w hfail => rw [hfail] at hv'; cases hv'
    · next stop w _ hstop => rw [hstop] at hv'; cases hv'

omit hown in
theorem Relisted.readsOwn {drg' : DecisionRequirementsGraph} (h : Relisted drg drg') (hreads : ReadsOwn drg root input d) :
    ReadsOwn drg' root input d := by
  intro decision ctx ctx' hdecision hrest hagree
  obtain ⟨required, hback, -⟩ := h.symm.decision hdecision
  refine hreads { decision with requiredDecisions := required } ctx ctx' hback (fun n hname => hrest n fun e he => ?_) fun n hn => hagree n (h.foreign.not.mp hn)
  rw [← h.resultName]
  exact hname e (h.beside.mpr he)

omit hown in
theorem Relisted.output {drg' : DecisionRequirementsGraph} (h : Relisted drg drg') (hout : Output drg root input d v) :
    Output drg' root input d v := by
  induction hout with
  | intro outs hdecision hneeds hctx hlogic ih =>
    obtain ⟨required, hdecision', -⟩ := h.decision hdecision
    exact .intro outs hdecision' (fun e he => ih e (by simpa only [Needs, h.requires] using he)) (h.suits hctx) hlogic

omit hown

/-- Whatever is recorded inside an evaluation is the output of that decision evaluated on its own. -/
def InsideAsAlone (drg : DecisionRequirementsGraph) (root : String) (input : Vars) : Prop :=
  ∀ res, evaluate drg root input = some res → ∀ record ∈ res.evaluatedDecisions,
    ∃ evaluated, evaluate drg record.decisionId input = some ⟨record.decisionOutput, evaluated, none⟩

/-- An evaluation that did not panic ended in a walk. -/
theorem evaluate_walk {res : DecisionEvaluationResult} (h : evaluate drg root input = some res) :
    ∃ w, Steps drg (Covers drg root) { ctx := input } w ∧ res.evaluatedDecisions = w.evaluated ∧
      (res.failure = none → root ∈ w.done) := by
  unfold evaluate at h
  split at h
  · next output w heval =>
    obtain ⟨hwalk, -, hsettled⟩ := evalDecision_steps (P := Covers drg root) (fun _ _ => .tail) _ _ _ _ _ .refl heval
    cases h
    exact ⟨w, hwalk, rfl, fun _ => (hsettled output rfl).done⟩
  · next f w heval =>
    obtain ⟨hwalk, -, -⟩ := evalDecision_steps (P := Covers drg root) (fun _ _ => .tail) _ _ _ _ _ .refl heval
    cases h
    exact ⟨w, hwalk, rfl, nofun⟩
  · cases h

/-- The recursion always ends, and without a panic where no test is a lone bracket. -/
theorem evaluate_returns (hbrackets : ∀ d decision, Covers drg root d → drg.decision d = some decision →
    hasLoneBracket decision = false) : ∃ res, evaluate drg root input = some res := by
  have hends := evalDecision_ends (P := Covers drg root) (p := False) (fun _ _ => .tail)
    (fun d decision ctx hd hdecision => by
      simpa [hbrackets d decision hd hdecision] using evalLogic_ends decision ctx)
    (drg.decisions.length + 1) root { ctx := input } .refl (by simp [room])
  unfold evaluate
  split
  · exact ⟨_, rfl⟩
  · exact ⟨_, rfl⟩
  · next stop w hne heval =>
    rw [heval] at hends
    have hfits := hends stop rfl
    cases stop with
    | failure f => exact absurd rfl (hne f)
    | panic => exact False.elim hfits
    | fuel => exact False.elim hfits

end Feel

/-! ## Two small graphs -/

/-- A text is the number one or the name of a variable. -/
@[reducible] def nameOrOne : Feel :=
  { Feel.refusing with eval := fun text ctx => .ok (if text = "1" then .int 1 else (ctx[text]?).getD .null) }

@[reducible] def noDebugText : DebugText := ⟨fun _ => ""⟩

def literal (id : String) (required : List String) (text : String) : Decision :=
  { id, name := id, requiredDecisions := required, logic := .literalExpression text }

/-- `approval` requires `score`. -/
def scoring : DecisionRequirementsGraph :=
  { id := "drg", name := "drg", decisions := [literal "approval" ["score"] "score", literal "score" [] "1"] }

/-- `approval` requires `score` and `discount`; the logic of `discount` reads a variable `score`. -/
def leaking : DecisionRequirementsGraph :=
  { id := "drg", name := "drg"
    decisions := [literal "approval" ["score", "discount"] "discount", literal "score" [] "1", literal "discount" [] "score"] }

def isOne : Value → Bool
  | .int i => i == 1
  | _ => false

end NanoBpm.Dmn
