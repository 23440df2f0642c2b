import Mathlib.Algebra.Order.BigOperators.Group.List
import Mathlib.Algebra.Order.Group.Nat
import NanoBpm.Lib.Search
import NanoBpm.Planner.Turns

/-!
# When an inclusive join fires early (`engine-core/src/engine/mod.rs:11280-11426`, `:12342-12386`)

An inclusive join may fire before all its incoming flows have been taken, once no token of its scope can reach one of
the others. The guard looks for such tokens among the active elements and the queued activations that came over a
sequence flow. A link throw hands its token to the catch by an activation that came over none, and so does a boundary
event: while one is queued, the guard does not see it.
-/

namespace NanoBpm

namespace ProcessDefinition

variable (d : ProcessDefinition) (join : ElementId) (taken : FlowArrivals)

/-- The `index`-th flow out of `source` leads into the join and has been taken. -/
def FlowTaken (source : ElementId) (index : Nat) : Prop :=
  ∃ incoming, d.incomingFlow source index = some (join, incoming) ∧ 0 < taken.count incoming

/-- Where a token goes from an element on its way to the join: over a sequence flow other than those already taken
into the join, to a boundary event of the element, or from a link throw to a catch of its name beside it. -/
inductive Edge (node : ElementId) : ElementId → Prop where
  | flow {el : Element} {index : Nat} {flow : SequenceFlow} (hel : d.elements[node]? = some el)
      (hkind : ∀ linkName, el.kind ≠ .linkIntermediateThrowEvent linkName) (hflow : el.outgoing[index]? = some flow)
      (hopen : ¬ d.FlowTaken join taken node index) : Edge node flow.target
  | boundary {el other : Element} {key : ElementId} (hel : d.elements[node]? = some el)
      (hkind : ∀ linkName, el.kind ≠ .linkIntermediateThrowEvent linkName) (hother : d.elements[key]? = some other)
      (hattached : other.kind.attachedTo = some node) : Edge node other.id
  | link {el other : Element} {linkName : String} {key : ElementId} (hel : d.elements[node]? = some el)
      (hkind : el.kind = .linkIntermediateThrowEvent linkName) (hother : d.elements[key]? = some other)
      (hcatch : other.kind = .linkIntermediateCatchEvent linkName) (hparent : other.parent = el.parent) :
      Edge node other.id

/-- A token at `source` can still come into the join over a flow that has not been taken. -/
def CanReach (source : ElementId) : Prop := Relation.TransGen (d.Edge join taken) source join

variable {d join taken}

theorem incomingFlow_eq {source : ElementId} {index : Nat} {el : Element} {flow : SequenceFlow}
    (hel : d.elements[source]? = some el) (hflow : el.outgoing[index]? = some flow) :
    d.incomingFlow source index = some (flow.target,
      { source, ordinal := ((el.outgoing.take index).filter (·.target == flow.target)).length }) := by
  simp [incomingFlow, hel, hflow]

/-- The test of the search on a flow. -/
theorem flowTaken_iff {node : ElementId} {index : Nat} {el : Element} {flow : SequenceFlow}
    (hel : d.elements[node]? = some el) (hflow : el.outgoing[index]? = some flow) :
    d.FlowTaken join taken node index ↔ (flow.target == join &&
      (d.incomingFlow node index).any fun (_, incoming) => taken.count incoming > 0) = true := by
  rw [FlowTaken, incomingFlow_eq hel hflow]
  simp only [Option.some.injEq, Prod.mk.injEq, Bool.and_eq_true, beq_iff_eq, Option.any_some, decide_eq_true_eq]
  constructor
  · rintro ⟨incoming, ⟨htarget, rfl⟩, hcount⟩
    exact ⟨htarget, hcount⟩
  · rintro ⟨htarget, hcount⟩
    exact ⟨_, ⟨htarget, rfl⟩, hcount⟩

/-- The search goes on along exactly these edges. -/
theorem mem_reaches_iff {node next : ElementId} : next ∈ d.reaches join taken node ↔ d.Edge join taken node next := by
  unfold reaches
  cases hel : d.elements[node]? with
  | none =>
    constructor
    · simp
    · rintro (⟨h, -, -, -⟩ | ⟨h, -, -, -⟩ | ⟨h, -, -, -, -⟩) <;> simp [hel] at h
  | some el =>
    dsimp only
    split
    · next linkName hkind =>
      simp only [List.mem_map, List.mem_filter, Std.ExtTreeMap.mem_vals, Bool.and_eq_true, beq_iff_eq]
      constructor
      · rintro ⟨other, ⟨⟨key, hother⟩, hcatch, hparent⟩, rfl⟩
        exact .link hel hkind hother hcatch hparent
      · rintro (⟨hel', hnot, -, -⟩ | ⟨hel', hnot, -, -⟩ | ⟨hel', hkind', hother, hcatch, hparent⟩)
        · cases hel.symm.trans hel'
          exact absurd hkind (hnot linkName)
        · cases hel.symm.trans hel'
          exact absurd hkind (hnot linkName)
        · cases hel.symm.trans hel'
          cases hkind.symm.trans hkind'
          exact ⟨_, ⟨⟨_, hother⟩, hcatch, hparent⟩, rfl⟩
    · next hkind =>
      simp only [List.mem_append, List.mem_map, List.mem_filter, Std.ExtTreeMap.mem_vals, beq_iff_eq]
      constructor
      · rintro (⟨⟨flow, index⟩, ⟨hmem, hopen⟩, rfl⟩ | ⟨other, ⟨⟨key, hother⟩, hattached⟩, rfl⟩)
        · have hflow : el.outgoing[index]? = some flow := List.mem_zipIdx_iff_getElem?.mp hmem
          refine .flow hel hkind hflow ?_
          rw [flowTaken_iff hel hflow]
          simpa only [Bool.not_eq_true', Bool.not_eq_true] using hopen
        · exact .boundary hel hkind hother hattached
      · rintro (⟨hel', hnot, hflow, hopen⟩ | ⟨hel', hnot, hother, hattached⟩ | ⟨hel', hkind', -, -, -⟩)
        · next flow =>
          cases hel.symm.trans hel'
          rw [flowTaken_iff hel hflow] at hopen
          refine .inl ⟨(flow, _), ⟨List.mem_zipIdx_iff_getElem?.mpr hflow, ?_⟩, rfl⟩
          simpa only [Bool.not_eq_true', Bool.not_eq_true] using hopen
        · cases hel.symm.trans hel'
          exact .inr ⟨_, ⟨⟨_, hother⟩, hattached⟩, rfl⟩
        · cases hel.symm.trans hel'
          exact absurd hkind' (hkind _)

/-- An element leads to at most its own flows and every element. -/
theorem length_reaches_le {node : ElementId} {el : Element} (hel : d.elements[node]? = some el) :
    (d.reaches join taken node).length ≤ el.outgoing.length + d.elements.size := by
  have hvals : d.elements.vals.length = d.elements.size := by
    simp [Std.ExtTreeMap.vals, Std.ExtTreeMap.length_toList]
  have hfilter : ∀ p : Element → Bool, (d.elements.vals.filter p).length ≤ d.elements.size := fun p =>
    hvals ▸ List.length_filter_le p d.elements.vals
  have hflows : ∀ p, (el.outgoing.zipIdx.filter p).length ≤ el.outgoing.length := fun p => by
    simpa using List.length_filter_le p el.outgoing.zipIdx
  unfold reaches
  rw [hel]
  dsimp only
  split
  · rw [List.length_map]
    exact Nat.le_trans (hfilter _) (Nat.le_add_left _ _)
  · rw [List.length_append, List.length_map, List.length_map]
    exact Nat.add_le_add (hflows _) (hfilter _)

theorem searchJoin_eq_find {fuel : Nat} {visited queue : List ElementId} :
    d.searchJoin join taken fuel visited queue = Search.find (d.reaches join taken) join fuel visited queue := by
  induction fuel generalizing visited queue with
  | zero => rfl
  | succ fuel ih =>
    cases queue with
    | nil => rfl
    | cons node rest =>
      rw [searchJoin, Search.find, ih, ih]

/-- `path_reaches_join` decides whether a token at `source` is at the join or can come to it. -/
theorem pathReachesJoin_iff {source : ElementId} :
    d.pathReachesJoin source join taken = true ↔ Relation.ReflTransGen (d.Edge join taken) source join := by
  have hedge : Search.Step (d.reaches join taken) = d.Edge join taken := by
    ext node next
    exact mem_reaches_iff
  have hleaf : ∀ node, node ∉ d.elements.keys.toFinset → d.reaches join taken node = [] := by
    intro node hnode
    have hnone : d.elements[node]? = none := by
      rw [Std.ExtTreeMap.getElem?_eq_none]
      simpa using hnode
    simp [reaches, hnone]
  have hsum : ∑ node ∈ d.elements.keys.toFinset, (d.reaches join taken node).length ≤
      (d.elements.vals.map fun el => el.outgoing.length + d.elements.size).sum := by
    rw [List.sum_toFinset _ Std.ExtTreeMap.nodup_keys, ← Std.ExtTreeMap.map_fst_toList_eq_keys, Std.ExtTreeMap.vals,
      List.map_map, List.map_map]
    refine List.sum_le_sum ?_
    rintro ⟨node, el⟩ hmem
    exact length_reaches_le (Std.ExtTreeMap.mem_toList_iff_getElem?_eq_some.mp hmem)
  unfold pathReachesJoin
  rw [searchJoin_eq_find, Search.find_eq_true_iff hleaf (by omega), hedge]

end ProcessDefinition

/-! ## Tokens around a firing -/

namespace Turn

/-- The flow scope in which a turn works. -/
def scope (t : Turn) : Key :=
  match t.step with
  | .activate _ _ scope _ | .advanceListener _ _ _ _ _ scope => scope
  | .complete instanceKey eik _ => t.before.engine.state.scopeOf instanceKey eik
  | _ => 0

/-- The tokens of the scope besides the join's own: the active element instances, and every queued activation. -/
inductive LiveToken (t : Turn) (i : Key) (join : ElementId) : ElementId → Prop where
  | standing {inst : ProcessInstance} {eik : Key} {elementId : ElementId}
      (hinst : t.before.engine.state.instances[i]? = some inst) (hactive : inst.active[eik]? = some elementId)
      (hscope : t.before.engine.state.scopeOf i eik = t.scope)
      (hother : t.before.engine.state.joinEik i join ≠ some eik) : LiveToken t i join elementId
  | queued {elementId : ElementId} {via : Option IncomingFlow}
      (hqueue : Step.activate i elementId t.scope via ∈ t.before.queue) : LiveToken t i join elementId

variable [Feel]

/-- An inclusive join fires while one of its incoming flows has not been taken. -/
structure FiresEarly (t : Turn) (i : Key) (join : ElementId) (d : ProcessDefinition) : Prop where
  process : t.before.engine.state.processOfInstance i = some d
  kind : t.before.engine.state.joinKind i join = some .inclusive
  fires : (i, join) ∈ t.fires
  untaken : ∃ source index, (d.incomingFlow source index).map (·.1) = some join ∧
    ¬ d.FlowTaken join (t.before.engine.state.joinArrivals i join) source index

omit [Feel]

/-- No token of the scope can still come into the join over a flow that has not been taken. -/
def NothingElseComes (t : Turn) (i : Key) (join : ElementId) (d : ProcessDefinition) : Prop :=
  ∀ elementId, t.LiveToken i join elementId →
    ¬ d.CanReach join (t.before.engine.state.joinArrivals i join) elementId

/-- The firing is decided by the search: an activation finds fewer tokens than the join has incoming flows. -/
def AsksGuard (t : Turn) (i : Key) (join : ElementId) : Prop :=
  ∃ scope via, t.step = .activate i join scope via ∧
    t.before.engine.state.tokensAt i join via < t.before.engine.state.incomingCount i join

/-- The tokens that the guard does not look at: activations that came over no sequence flow, and what stands at the
join itself. A join that fires by the number of its tokens, or when its open instance completes, looks at none. -/
inductive Overlooked (t : Turn) (i : Key) (join : ElementId) : ElementId → Prop where
  | handedOver {elementId : ElementId} (hqueue : Step.activate i elementId t.scope none ∈ t.before.queue) :
      Overlooked t i join elementId
  | atJoin (h : t.LiveToken i join join) : Overlooked t i join join
  | unasked {elementId : ElementId} (hguard : ¬ t.AsksGuard i join) (h : t.LiveToken i join elementId) :
      Overlooked t i join elementId

theorem Overlooked.liveToken {t : Turn} {i : Key} {join elementId : ElementId} (h : t.Overlooked i join elementId) :
    t.LiveToken i join elementId := by
  cases h with
  | handedOver hqueue => exact .queued hqueue
  | atJoin h => exact h
  | unasked _ h => exact h

end Turn

/-- The guard has seen every other token. -/
theorem not_canReach_of_hasActivePathTo {t : Turn} {i : Key} {join : ElementId} {scope : Key} {d : ProcessDefinition}
    {via : Option IncomingFlow} {taken : FlowArrivals} (hstep : t.step = .activate i join scope via)
    (hprocess : t.before.engine.state.processOfInstance i = some d)
    (hguard : t.before.engine.state.hasActivePathTo i join scope taken t.before.queue = false)
    {elementId : ElementId} (hlive : t.LiveToken i join elementId) (hjoin : elementId ≠ join)
    (hflow : Step.activate i elementId t.scope none ∉ t.before.queue) : ¬ d.CanReach join taken elementId := by
  have hscope : t.scope = scope := by simp [Turn.scope, hstep]
  obtain ⟨inst, hinst⟩ : ∃ inst, t.before.engine.state.instances[i]? = some inst := by
    simp only [State.processOfInstance, Option.bind_eq_bind, Option.bind_eq_some_iff] at hprocess
    exact hprocess.imp fun _ h => h.1
  unfold State.hasActivePathTo at hguard
  rw [hprocess, hinst] at hguard
  simp only [List.any_eq_false, List.mem_append, List.mem_map, List.mem_filter, List.mem_filterMap] at hguard
  have hsearch : ¬ d.pathReachesJoin elementId join taken = true := by
    refine hguard elementId ?_
    cases hlive with
    | standing hinst' hactive hscope' _ =>
      cases hinst.symm.trans hinst'
      refine .inl ⟨(_, elementId), ⟨Std.ExtTreeMap.mem_toList_iff_getElem?_eq_some.mpr hactive, ?_⟩, rfl⟩
      simp [hjoin, hscope', hscope]
    | queued hqueue =>
      next via' =>
      cases via' with
      | none => exact absurd hqueue hflow
      | some flow => exact .inr ⟨_, hqueue, by simp [hscope, hjoin]⟩
  rw [ProcessDefinition.pathReachesJoin_iff] at hsearch
  exact fun hreach => hsearch hreach.to_reflTransGen

/-! ## The firing -/

section

variable [Feel]

/-- An activation that fires its join has been accepted by the guard. -/
theorem acceptsJoin_of_fires {t : Turn} {i : Key} {join : ElementId} {scope : Key} {via : Option IncomingFlow}
    {kind : JoinKind} (hstep : t.step = .activate i join scope via)
    (hkind : t.before.engine.state.joinKind i join = some kind) (hfires : (i, join) ∈ t.fires) :
    t.before.engine.state.acceptsJoin i join scope via kind t.before.queue = true := by
  rcases t.fires_cases hfires with ⟨scope', via', kind', hstep', hkind', haccepts⟩ | ⟨eik, hfinishes, -, -⟩
  · cases hstep.symm.trans hstep'
    cases hkind.symm.trans hkind'
    exact haccepts
  · rw [hstep] at hfinishes
    cases hfinishes

/-- When an inclusive join fires early, nothing else can come to it if and only if none of the tokens the guard does
not look at can. -/
theorem nothingElseComes_iff {t : Turn} {i : Key} {join : ElementId} {d : ProcessDefinition}
    (h : t.FiresEarly i join d) :
    t.NothingElseComes i join d ↔ ∀ elementId, t.Overlooked i join elementId →
      ¬ d.CanReach join (t.before.engine.state.joinArrivals i join) elementId := by
  constructor
  · intro hnothing elementId hoverlooked
    exact hnothing elementId hoverlooked.liveToken
  · intro hoverlooked elementId hlive
    by_cases hasks : t.AsksGuard i join
    · obtain ⟨scope, via, hstep, hfew⟩ := hasks
      have haccepts := acceptsJoin_of_fires hstep h.kind h.fires
      have hguard : t.before.engine.state.hasActivePathTo i join scope (t.before.engine.state.joinArrivals i join)
          t.before.queue = false := by
        simp only [State.acceptsJoin, Bool.or_eq_true, decide_eq_true_eq, Bool.and_eq_true, Bool.not_eq_true'] at haccepts
        rcases haccepts with hall | ⟨-, hguard⟩
        · omega
        · exact hguard
      by_cases hjoin : elementId = join
      · subst hjoin
        exact hoverlooked elementId (.atJoin hlive)
      by_cases hflow : Step.activate i elementId t.scope none ∈ t.before.queue
      · exact hoverlooked elementId (.handedOver hflow)
      · exact not_canReach_of_hasActivePathTo hstep h.process hguard hlive hjoin hflow
    · exact hoverlooked elementId (.unasked hasks hlive)

namespace Engine

/-- In every run, a join fires in a turn of the drain loop and nowhere else; and whenever an inclusive join fires there
before all its incoming flows have been taken, no other token of its scope can still reach one of the others if and
only if none of the tokens that the guard overlooks can. -/
theorem inclusive_join_fires_when_nothing_else_comes (fuel partitionId : Nat) (calls : List HostCall) :
    firings (runCalls fuel (withPartition partitionId) calls).1 =
        (turnsOfCalls fuel (withPartition partitionId) calls).flatMap Turn.fires ∧
      ∀ t ∈ turnsOfCalls fuel (withPartition partitionId) calls, ∀ i join d, t.FiresEarly i join d →
        (t.NothingElseComes i join d ↔ ∀ elementId, t.Overlooked i join elementId →
          ¬ d.CanReach join (t.before.engine.state.joinArrivals i join) elementId) :=
  ⟨firings_runCalls fuel _ calls, fun _ _ _ _ _ h => nothingElseComes_iff h⟩

end Engine

end

/-- The activation a step asks for. -/
def Step.activation : Step → Option (Key × ElementId × Key × Option IncomingFlow)
  | .activate instanceKey elementId scope via => some (instanceKey, elementId, scope, via)
  | _ => none

theorem Step.activation_eq_some_iff {step : Step} {i scope : Key} {elementId : ElementId} {via : Option IncomingFlow} :
    step.activation = some (i, elementId, scope, via) ↔ step = .activate i elementId scope via := by
  cases step <;> simp [activation]

namespace Engine

/-- A run of one instance of `process`. -/
def startOne (process : ProcessDefinition) : List HostCall :=
  [.applyCommandAt (.deployProcess process) 0, .applyCommandAt (.createInstance process.id ∅ [] none none none) 0]

def linkedCatch : Element where
  id := "catch"
  kind := .linkIntermediateCatchEvent "x"
  outgoing := [{ target := "join" }]

/-- One branch comes to the join over a flow, the other over a link. -/
def linkedProcess : ProcessDefinition where
  id := "order"
  startEvent := "start"
  elements := ({} : StrMap Element)
    |>.insert "start" { id := "start", kind := .startEvent, outgoing := [{ target := "fork" }] }
    |>.insert "fork" { id := "fork", kind := .parallelGateway, outgoing := [{ target := "pass" }, { target := "throw" }] }
    |>.insert "pass" { id := "pass", kind := .intermediateThrowEvent, outgoing := [{ target := "join" }] }
    |>.insert "throw" { id := "throw", kind := .linkIntermediateThrowEvent "x" }
    |>.insert "catch" linkedCatch
    |>.insert "join" { id := "join", kind := .inclusiveGateway, outgoing := [{ target := "done" }] }
    |>.insert "done" { id := "done", kind := .endEvent }

/-- The catch of the link is queued when the join fires on the token of the other branch. -/
theorem inclusive_join_fires_before_link_catch :
    ∃ t ∈ @turnsOfCalls Feel.refusing 40 (withPartition 0) (startOne linkedProcess), ∃ d,
      @Turn.FiresEarly Feel.refusing t 3 "join" d ∧ ¬ t.NothingElseComes 3 "join" d := by
  have hrun : ((@turnsOfCalls Feel.refusing 40 (withPartition 0) (startOne linkedProcess))[8]?.any fun t =>
      t.before.engine.state.element 3 "catch" == some linkedCatch &&
        t.before.engine.state.joinKind 3 "join" == some .inclusive && @Turn.fires Feel.refusing t == [(3, "join")] &&
        (t.before.engine.state.joinArrivals 3 "join").count ⟨"catch", 0⟩ == 0 &&
        (t.before.queue.map Step.activation).contains (some (3, "catch", t.scope, none))) = true := by decide +kernel
  simp only [Option.any_eq_true, Bool.and_eq_true, beq_iff_eq] at hrun
  obtain ⟨t, hget, ⟨⟨⟨helement, hkind⟩, hfires⟩, hcount⟩, hqueue⟩ := hrun
  obtain ⟨d, hd, hcatch⟩ := Option.bind_eq_some_iff.mp helement
  have hflow : linkedCatch.outgoing[0]? = some { target := "join" } := rfl
  have hincoming : d.incomingFlow "catch" 0 = some ("join", ⟨"catch", 0⟩) :=
    ProcessDefinition.incomingFlow_eq hcatch hflow
  have huntaken : ¬ d.FlowTaken "join" (t.before.engine.state.joinArrivals 3 "join") "catch" 0 := by
    rintro ⟨incoming, hinto, htaken⟩
    cases hincoming.symm.trans hinto
    omega
  have hmem : (3, "join") ∈ @Turn.fires Feel.refusing t := by
    rw [hfires]
    exact List.mem_singleton.mpr rfl
  have hlive : t.LiveToken 3 "join" "catch" := by
    simp only [List.contains_iff_mem, List.mem_map, Step.activation_eq_some_iff] at hqueue
    obtain ⟨step, hstep, rfl⟩ := hqueue
    exact .queued hstep
  have hearly : @Turn.FiresEarly Feel.refusing t 3 "join" d :=
    @Turn.FiresEarly.mk Feel.refusing t 3 "join" d hd hkind hmem ⟨"catch", 0, by simp [hincoming], huntaken⟩
  refine ⟨t, List.mem_of_getElem? hget, d, hearly, ?_⟩
  intro hnothing
  have hedge : d.Edge "join" (t.before.engine.state.joinArrivals 3 "join") "catch" "join" :=
    .flow hcatch (fun linkName => by simp [linkedCatch]) hflow huntaken
  exact hnothing "catch" hlive (.single hedge)

/-- The split takes its one flow into the join and leaves out its default flow, which leads there too; a task beside it
leads elsewhere. -/
def skippingProcess : ProcessDefinition where
  id := "order"
  startEvent := "start"
  elements := ({} : StrMap Element)
    |>.insert "start" { id := "start", kind := .startEvent, outgoing := [{ target := "fork" }] }
    |>.insert "fork" { id := "fork", kind := .parallelGateway, outgoing := [{ target := "pack" }, { target := "split" }] }
    |>.insert "pack" { id := "pack", kind := .serviceTask "work" none none [] [], outgoing := [{ target := "packed" }] }
    |>.insert "packed" { id := "packed", kind := .endEvent }
    |>.insert "split" { id := "split", kind := .inclusiveGateway,
                        outgoing := [{ target := "join" }, { target := "pass", isDefault := true }] }
    |>.insert "pass" { id := "pass", kind := .intermediateThrowEvent, outgoing := [{ target := "join" }] }
    |>.insert "join" { id := "join", kind := .inclusiveGateway, outgoing := [{ target := "done" }] }
    |>.insert "done" { id := "done", kind := .endEvent }

/-- The token at the task is still there when the join fires on the flow that the split took, and cannot come to it. -/
theorem inclusive_join_fires_on_the_taken_flow :
    ∃ t ∈ @turnsOfCalls Feel.refusing 40 (withPartition 0) (startOne skippingProcess), ∃ d,
      @Turn.FiresEarly Feel.refusing t 3 "join" d ∧ t.LiveToken 3 "join" "pack" ∧ t.NothingElseComes 3 "join" d := by
  have hrun : ((@turnsOfCalls Feel.refusing 40 (withPartition 0) (startOne skippingProcess))[7]?.any fun t =>
      (t.before.engine.state.element 3 "pass").map (·.outgoing) == some [{ target := "join" }] &&
        t.before.engine.state.joinKind 3 "join" == some .inclusive && @Turn.fires Feel.refusing t == [(3, "join")] &&
        (t.before.engine.state.joinArrivals 3 "join").count ⟨"pass", 0⟩ == 0 && t.before.queue.isEmpty &&
        t.before.engine.state.instances[3]?.map (·.active.toList) == some [(6, "pack")] &&
        t.step.activation.any (fun a => a.1 == 3 && a.2.1 == "join" &&
          t.before.engine.state.tokensAt 3 "join" a.2.2.2 == 1) &&
        t.before.engine.state.incomingCount 3 "join" == 2 && t.before.engine.state.scopeOf 3 6 == t.scope &&
        t.before.engine.state.joinEik 3 "join" != some 6) = true := by
    decide +kernel
  simp only [Option.any_eq_true, Bool.and_eq_true, beq_iff_eq, bne_iff_ne] at hrun
  obtain ⟨t, hget, ⟨⟨⟨⟨⟨⟨⟨⟨⟨hpass, hkind⟩, hfires⟩, hcount⟩, hqueue⟩, hactive⟩, hstep⟩, hincomings⟩, hscope⟩, hother⟩⟩ := hrun
  obtain ⟨el, hel, houtgoing⟩ := Option.map_eq_some_iff.mp hpass
  obtain ⟨d, hd, hel⟩ := Option.bind_eq_some_iff.mp hel
  have hflow : el.outgoing[0]? = some { target := "join" } := by rw [houtgoing]; rfl
  have hincoming : d.incomingFlow "pass" 0 = some ("join", ⟨"pass", 0⟩) := by
    rw [ProcessDefinition.incomingFlow_eq hel hflow]
    rfl
  have huntaken : ¬ d.FlowTaken "join" (t.before.engine.state.joinArrivals 3 "join") "pass" 0 := by
    rintro ⟨incoming, hinto, htaken⟩
    cases hincoming.symm.trans hinto
    omega
  have hmem : (3, "join") ∈ @Turn.fires Feel.refusing t := by
    rw [hfires]
    exact List.mem_singleton.mpr rfl
  have hearly : @Turn.FiresEarly Feel.refusing t 3 "join" d :=
    @Turn.FiresEarly.mk Feel.refusing t 3 "join" d hd hkind hmem ⟨"pass", 0, by simp [hincoming], huntaken⟩
  obtain ⟨inst, hinst, hlist⟩ := Option.map_eq_some_iff.mp hactive
  have hstanding : ∀ eik elementId, inst.active[eik]? = some elementId ↔ eik = 6 ∧ elementId = "pack" := by
    intro eik elementId
    rw [← Std.ExtTreeMap.mem_toList_iff_getElem?_eq_some, hlist, List.mem_singleton, Prod.mk.injEq]
  have hasks : t.AsksGuard 3 "join" := by
    obtain ⟨⟨i, elementId, scope, via⟩, hactivation, ⟨rfl, rfl⟩, htokens⟩ := hstep
    rw [Step.activation_eq_some_iff] at hactivation
    exact ⟨scope, via, hactivation, by rw [htokens, hincomings]; decide⟩
  refine ⟨t, List.mem_of_getElem? hget, d, hearly, .standing hinst ((hstanding 6 "pack").mpr ⟨rfl, rfl⟩) hscope hother, ?_⟩
  refine (((@inclusive_join_fires_when_nothing_else_comes Feel.refusing 40 0 (startOne skippingProcess)).2 t
    (List.mem_of_getElem? hget) 3 "join" d hearly).mpr ?_)
  -- the guard looks at the task, so nothing is overlooked
  intro elementId hoverlooked
  cases hoverlooked with
  | handedOver hqueued => simp [List.isEmpty_iff.mp hqueue] at hqueued
  | atJoin hlive =>
    cases hlive with
    | standing hinst' hactive' _ _ =>
      cases hinst.symm.trans hinst'
      have hpack := ((hstanding _ _).mp hactive').2
      simp at hpack
    | queued hqueued => simp [List.isEmpty_iff.mp hqueue] at hqueued
  | unasked hguard _ => exact absurd hasks hguard

end Engine

end NanoBpm
