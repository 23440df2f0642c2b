import NanoBpm.Planner.StartTriggers
import NanoBpm.Versions

/-!
# Deploying and installing (`engine/mod.rs:1250-1314`, `:1441-1740`)

Whatever a run deploys, of five kinds, gets the version after the latest one of its id and a key that was not there before.
So the tables that `install_deployment_if_newer` makes of copies of the deployments of a run are those of the deployer, unless
some decision is never installed after its graph: the applier drops it.
-/

namespace NanoBpm

/-! ## The definitions of a run -/

/-- The definitions are those that the log deployed, under keys that were minted. -/
structure Registered (minted : Key → Prop) (log : List Event) (s : State) : Prop where
  deployed : (State.definitions {}).Deployed (log.filterMap Event.resource)
  definitions : s.definitions = Definitions.ofResources (log.filterMap Event.resource)
  minted : ∀ K ∈ ResourceKind.all, ∀ (key : Key) (x : K.Item), (K.versions s.definitions)[key]? = some x → minted key

namespace Registered

variable {minted minted' : Key → Prop} {log : List Event} {s : State}

theorem mono (h : Registered minted log s) (hle : ∀ key, minted key → minted' key) : Registered minted' log s :=
  ⟨h.deployed, h.definitions, fun K hK key x hx => hle key (h.minted K hK key x hx)⟩

theorem apply_other (h : Registered minted log s) {event : Event} (hnone : event.resource = none) :
    Registered minted (log ++ [event]) (apply s event) := by
  have hlog : (log ++ [event]).filterMap Event.resource = log.filterMap Event.resource := by simp [hnone]
  have hsame : (apply s event).definitions = s.definitions := by
    rw [definitions_apply_eq, Definitions.deploy_eq, hnone]
    rfl
  exact ⟨hlog ▸ h.deployed, by rw [hsame, hlog, h.definitions], hsame ▸ h.minted⟩

/-- A resource comes under a new key, with the next version of its id. -/
theorem apply_resource (h : Registered minted log s) {event : Event} {r : Resource} (hr : event.resource = some r)
    {K : ResourceKind} (hK : K ∈ ResourceKind.all) {x : K.Item} (hx : K.item s.definitions r = some x)
    (hnew : ¬minted (K.key x))
    (hversion : K.version x = ((K.latest s.definitions)[K.id x]?.map fun y => K.version y + 1).getD 1)
    (hle : ∀ key, minted key → minted' key) (hminted : minted' (K.key x)) :
    Registered minted' (log ++ [event]) (apply s event) := by
  have hlog : (log ++ [event]).filterMap Event.resource = log.filterMap Event.resource ++ [r] := by simp [hr]
  have hdefinitions : (apply s event).definitions = s.definitions.register r := by
    rw [definitions_apply_eq, Definitions.deploy_eq, hr]
    rfl
  have hnext : K.Next s.definitions x := by
    constructor
    · cases hheld : (K.versions s.definitions)[K.key x]? with
      | none => rfl
      | some y => exact absurd (h.minted K hK _ y hheld) hnew
    · rw [hversion]
      cases (K.latest s.definitions)[K.id x]? <;> simp
  have hkind : ∀ K' ∈ ResourceKind.all, ∀ x', K'.item s.definitions r = some x' → K' = K := fun K' hK' x' hx' =>
    (ResourceKind.kind_of_item hK' hx').symm.trans (ResourceKind.kind_of_item hK hx)
  have hdeploys : s.definitions.Deploys r := by
    refine ⟨⟨K, hK, x, hx⟩, fun K' hK' x' hx' => ?_⟩
    obtain rfl := hkind K' hK' x' hx'
    obtain rfl := Option.some.inj (hx'.symm.trans hx)
    exact hnext
  refine ⟨?_, ?_, fun K' hK' key y hy => ?_⟩
  · rw [h.definitions] at hdeploys
    rw [hlog]
    exact Definitions.deployed_append.mpr ⟨h.deployed, hdeploys, trivial⟩
  · rw [hlog, hdefinitions, h.definitions, Definitions.ofResources, Definitions.ofResources, Definitions.registerAll_append]
    rfl
  · rw [hdefinitions, K'.versions_register] at hy
    rcases Latest.mem_of_foldl_offer hy with hold | ⟨hitem, rfl⟩
    · exact hle key (h.minted K' hK' key y hold)
    · have hitem := Option.mem_toList.mp hitem
      obtain rfl := hkind K' hK' y hitem
      obtain rfl := Option.some.inj (hitem.symm.trans hx)
      exact hminted

end Registered

/-- The definitions are those that the log, before this plan and in it, deployed. -/
def PlanState.Registered (past : List Event) (s : PlanState) : Prop :=
  NanoBpm.Registered s.engine.Minted (past ++ s.log) s.engine.state

namespace PlanState.Registered

variable {past : List Event} {s : PlanState}

/-- A resource that is deployed under the next key. -/
theorem deploy (h : s.Registered past) (hroom : s.mint.2.engine.nextLocal ≤ localMask) {event : Event} {r : Resource}
    (hr : event.resource = some r) {K : ResourceKind} (hK : K ∈ ResourceKind.all) {x : K.Item}
    (hx : K.item s.engine.state.definitions r = some x) (hkey : K.key x = s.mint.1)
    (hversion : K.version x = ((K.latest s.engine.state.definitions)[K.id x]?.map fun y => K.version y + 1).getD 1) :
    (s.mint.2.applyEvent event).Registered past := by
  unfold PlanState.Registered
  rw [minted_applyEvent, PlanState.state_applyEvent, PlanState.log_applyEvent, ← List.append_assoc]
  refine NanoBpm.Registered.apply_resource (s := s.engine.state) h hr hK hx ?_ hversion (fun _ => minted_mint) ?_
  · rw [hkey]
    exact not_minted_next hroom
  · exact ⟨s.engine.nextLocal, Nat.lt_succ_self _, hkey⟩

end PlanState.Registered

/-! ## Deployments -/

namespace Plan

variable {α β : Type} {past : List Event}

/-- The plan deploys what it deploys as the next versions. -/
def KeepsRegistered (past : List Event) (p : Plan α) : Prop :=
  ∀ s : PlanState, (p.run s).2.engine.nextLocal ≤ localMask → s.Registered past → (p.run s).2.Registered past

namespace KeepsRegistered

theorem bind {p : Plan α} {f : α → Plan β} (hp : p.KeepsRegistered past) (hf : ∀ a, (f a).KeepsRegistered past) :
    (p >>= f).KeepsRegistered past := by
  intro s hroom h
  rw [run_bind] at hroom ⊢
  exact hf _ _ hroom (hp s (Nat.le_trans (nextLocal_le_run _ _) hroom) h)

theorem forM {xs : List α} {f : α → Plan Unit} (hf : ∀ a ∈ xs, (f a).KeepsRegistered past) :
    (xs.forM f).KeepsRegistered past := by
  induction xs with
  | nil => exact fun _ _ h => h
  | cons a xs ih => exact bind (hf a (by simp)) fun _ => ih fun b hb => hf b (by simp [hb])

theorem of_emits {p : Plan α} (hp : p.Emits (fun _ => True) (·.resource = none)) : p.KeepsRegistered past := by
  intro s _ h
  have hmono : NanoBpm.Registered (p.run s).2.engine.Minted (past ++ s.log) s.engine.state := h.mono fun _ => minted_run p
  exact keeps_run (I := fun log s' => NanoBpm.Registered (p.run s).2.engine.Minted log s')
    (fun _ _ _ hevent h => h.apply_other hevent) past (hp.log s fun _ _ _ => trivial) hmono

end KeepsRegistered

theorem resource_wrapped (event : Event) (h : ofAgent event = true) : event.resource = none := by
  cases event <;> first | rfl | cases h

/-- The inner loop of `deploy_decisions`. -/
def deployDecisionsOf (deploymentKey requirementsKey : Key) (decisions : List Decision) : Plan Unit :=
  decisions.forM fun decision => do
    let version := ((← self).state.decisions[decision.id]?.map (·.version + 1)).getD 1
    let decisionKey ← mintKey
    emit (.decisionDeployed deploymentKey requirementsKey decisionKey decision.id decision.name version)

/-- One turn of the loop of `deploy_decisions`. -/
def deployGraph (deploymentKey : Key) (drg : DecisionRequirementsGraph) : Plan Unit := do
  let e ← self
  if !(e.state.decisionRequirements[drg.id]?.any (·.drg == drg)) then
    let version := (e.state.decisionRequirements[drg.id]?.map (·.version + 1)).getD 1
    let decisionRequirementsKey ← mintKey
    emit (.decisionRequirementsDeployed deploymentKey decisionRequirementsKey version drg)
    deployDecisionsOf deploymentKey decisionRequirementsKey drg.decisions

/-- One turn of the loop of `deploy_forms`. -/
def deployForm (deploymentKey : Key) (form : FormResource) : Plan Unit := do
  let e ← self
  if !(e.state.forms[form.id]?.any (·.schema == form.schema)) then
    let version := (e.state.forms[form.id]?.map (·.version + 1)).getD 1
    let formKey ← mintKey
    emit (.formDeployed deploymentKey formKey version form.id form.resourceName form.schema)

/-- One turn of the loop of `deploy_generic_resources`. -/
def deployResource (deploymentKey : Key) (r : GenericResource) : Plan Unit := do
  let e ← self
  if !(e.state.resources[r.resourceId]?.any fun x => x.resourceName == r.resourceName && x.content == r.content) then
    let version := (e.state.resources[r.resourceId]?.map (·.version + 1)).getD 1
    let resourceKey ← mintKey
    emit (.genericResourceDeployed deploymentKey resourceKey version r.resourceId r.resourceName r.content)

variable [Feel]

omit [Feel] in
/-- A turn that is skipped where the resource is already the latest of its id. -/
theorem run_unless {known : Engine → Bool} {p : Engine → Plan Unit} {s : PlanState} (h : known s.engine = true) :
    ((do
      let e ← self
      if !known e then p e : Plan Unit).run s).2 = s := by
  show (Plan.run (if !known s.engine then p s.engine else Pure.pure ()) s).2 = s
  rw [h]
  rfl

omit [Feel] in
theorem KeepsRegistered.unless {known : Engine → Bool} {p : Engine → Plan Unit}
    (hp : ∀ s : PlanState, ((p s.engine).run s).2.engine.nextLocal ≤ localMask → s.Registered past →
      ((p s.engine).run s).2.Registered past) :
    (do
      let e ← self
      if !known e then p e : Plan Unit).KeepsRegistered past := by
  intro s hroom h
  rw [run_bind] at hroom ⊢
  have hself : self.run s = (s.engine, s) := rfl
  simp only [hself] at hroom ⊢
  cases hknown : known s.engine with
  | true =>
    simp only [Bool.not_true, Bool.false_eq_true, if_false]
    exact h
  | false =>
    simp only [hknown, Bool.not_false, if_true] at hroom ⊢
    exact hp s hroom h

theorem keepsRegistered_deployVersion {deploymentKey : Key} {process : ProcessDefinition} :
    (deployVersion deploymentKey process).KeepsRegistered past := by
  refine .unless fun s hroom h => ?_
  have hmint : s.mint.2.engine.nextLocal ≤ localMask := Nat.le_trans (nextLocal_le_run _ s.mint.2) hroom
  have hdeployed : (s.mint.2.applyEvent (.processDeployed deploymentKey s.mint.1
      (s.engine.state.nextVersion process.id) process)).Registered past :=
    h.deploy hmint rfl (K := .process) (by simp [ResourceKind.mem_all]) rfl rfl rfl
  refine KeepsRegistered.forM (fun el _ => .of_emits ?_) _ hroom hdeployed
  unfold armStart
  split
  · exact emits_emit resource_wrapped rfl
  · exact .bind emits_mintKey fun _ => .bind emits_self fun _ => emits_emit resource_wrapped rfl
  · trivial

omit [Feel] in
/-- The decisions of a graph that is there. -/
theorem registered_deployDecisionsOf {deploymentKey requirementsKey : Key} (decisions : List Decision) {s : PlanState}
    (hgraph : ∃ g : DeployedDrg, s.engine.state.decisionRequirementsVersions[requirementsKey]? = some g)
    (h : s.Registered past)
    (hroom : ((deployDecisionsOf deploymentKey requirementsKey decisions).run s).2.engine.nextLocal ≤ localMask) :
    ((deployDecisionsOf deploymentKey requirementsKey decisions).run s).2.Registered past := by
  induction decisions generalizing s with
  | nil => exact h
  | cons decision decisions ih =>
    let version := (s.engine.state.decisions[decision.id]?.map (·.version + 1)).getD 1
    let event := Event.decisionDeployed deploymentKey requirementsKey s.mint.1 decision.id decision.name version
    have hrun : (deployDecisionsOf deploymentKey requirementsKey (decision :: decisions)).run s =
        (deployDecisionsOf deploymentKey requirementsKey decisions).run (s.mint.2.applyEvent event) := rfl
    rw [hrun] at hroom ⊢
    obtain ⟨g, hg⟩ := hgraph
    have hmint : s.mint.2.engine.nextLocal ≤ localMask := by
      have hle := nextLocal_le_run (deployDecisionsOf deploymentKey requirementsKey decisions) (s.mint.2.applyEvent event)
      rw [PlanState.nextLocal_applyEvent] at hle
      exact Nat.le_trans hle hroom
    have hitem : ResourceKind.decision.item s.engine.state.definitions
        (.decision requirementsKey s.mint.1 decision.id decision.name version) =
          some ⟨s.mint.1, version, requirementsKey, decision.id, decision.name, g.drg⟩ :=
      Option.map_eq_some_iff.mpr ⟨g, hg, rfl⟩
    refine ih ⟨g, ?_⟩ (h.deploy hmint rfl (K := .decision) (by simp [ResourceKind.mem_all]) hitem rfl rfl) hroom
    have hstate : (s.mint.2.applyEvent event).engine.state = NanoBpm.apply s.engine.state event :=
      PlanState.state_applyEvent _ _
    rw [hstate]
    show (applyResource s.engine.state event).decisionRequirementsVersions[requirementsKey]? = some g
    simp only [event, applyResource, hg]

omit [Feel] in
theorem keepsRegistered_deployGraph {deploymentKey : Key} {drg : DecisionRequirementsGraph} :
    (deployGraph deploymentKey drg).KeepsRegistered past := by
  refine .unless fun s hroom h => ?_
  let version := (s.engine.state.decisionRequirements[drg.id]?.map (·.version + 1)).getD 1
  let event := Event.decisionRequirementsDeployed deploymentKey s.mint.1 version drg
  have hmint : s.mint.2.engine.nextLocal ≤ localMask := Nat.le_trans (nextLocal_le_run _ s.mint.2) hroom
  have hdeployed : (s.mint.2.applyEvent event).Registered past :=
    h.deploy hmint rfl (K := .requirements) (by simp [ResourceKind.mem_all]) rfl rfl rfl
  refine registered_deployDecisionsOf drg.decisions ⟨⟨s.mint.1, version, drg⟩, ?_⟩ hdeployed hroom
  have hstate : (s.mint.2.applyEvent event).engine.state = NanoBpm.apply s.engine.state event :=
    PlanState.state_applyEvent _ _
  rw [hstate]
  exact Std.ExtTreeMap.getElem?_insert_self

omit [Feel] in
theorem keepsRegistered_deployForm {deploymentKey : Key} {form : FormResource} :
    (deployForm deploymentKey form).KeepsRegistered past := by
  refine .unless fun s hroom h => ?_
  have hmint : s.mint.2.engine.nextLocal ≤ localMask := Nat.le_trans (nextLocal_le_run _ s.mint.2) hroom
  exact h.deploy hmint rfl (K := .form) (by simp [ResourceKind.mem_all]) rfl rfl rfl

omit [Feel] in
theorem keepsRegistered_deployResource {deploymentKey : Key} {r : GenericResource} :
    (deployResource deploymentKey r).KeepsRegistered past := by
  refine .unless fun s hroom h => ?_
  have hmint : s.mint.2.engine.nextLocal ≤ localMask := Nat.le_trans (nextLocal_le_run _ s.mint.2) hroom
  exact h.deploy hmint rfl (K := .generic) (by simp [ResourceKind.mem_all]) rfl rfl rfl

omit [Feel] in
/-- A deployment of any kind: its own key, and then one turn for every resource. -/
theorem KeepsRegistered.deployment (turn : Key → α → Plan Unit) {xs : List α}
    (hturn : ∀ deploymentKey, ∀ a ∈ xs, (turn deploymentKey a).KeepsRegistered past) :
    (do
      let deploymentKey ← mintKey
      emit (.deploymentCreated deploymentKey)
      xs.forM (turn deploymentKey) : Plan Unit).KeepsRegistered past :=
  .bind (.of_emits emits_mintKey) fun deploymentKey => .bind (.of_emits (emits_emit resource_wrapped rfl)) fun _ =>
    .forM (hturn deploymentKey)

theorem keepsRegistered_deployProcesses {processes : List ProcessDefinition} :
    (deployProcesses processes).KeepsRegistered past :=
  KeepsRegistered.deployment deployVersion fun _ _ _ => keepsRegistered_deployVersion

omit [Feel] in
theorem keepsRegistered_deployDecisions {graphs : List DecisionRequirementsGraph} :
    (deployDecisions graphs).KeepsRegistered past :=
  KeepsRegistered.deployment deployGraph fun _ _ _ => keepsRegistered_deployGraph

omit [Feel] in
theorem keepsRegistered_deployForms {forms : List FormResource} : (deployForms forms).KeepsRegistered past :=
  KeepsRegistered.deployment deployForm fun _ _ _ => keepsRegistered_deployForm

omit [Feel] in
theorem keepsRegistered_deployGenericResources {resources : List GenericResource} :
    (deployGenericResources resources).KeepsRegistered past :=
  KeepsRegistered.deployment deployResource fun _ _ _ => keepsRegistered_deployResource

end Plan

theorem resource_of_origin {event : Event} (hdeployment : event.origin ≠ .deployment) (hresource : event.origin ≠ .resource) :
    event.resource = none := by
  cases event <;> first | rfl | exact absurd rfl hdeployment | exact absurd rfl hresource

namespace Engine

theorem logInvariant_registered :
    LogInvariant fun log e => e.nextLocal ≤ localMask → Registered e.Minted log e.state := by
  refine .of_minted (I := fun minted log s => Registered minted log s) fun {log s s' events} hstretch _ h => ?_
  rw [hstretch.state]
  refine Plan.keeps_applyAll (I := fun log s => Registered s'.engine.Minted log s)
    (fun _ _ event hevent h => h.apply_other hevent) log ?_ (h.mono fun _ => hstretch.minted)
  intro event hevent
  have horigin := (hstretch.allowed event hevent).origin
  exact resource_of_origin (fun heq => by simp [heq] at horigin) fun heq => by simp [heq] at horigin

variable [Feel]

/-- `deploy` is its checks, and then the deployment. -/
theorem deploy_eq (processes : List ProcessDefinition) (s : PlanState) :
    deploy processes s = match checkStartEvents (processes.map (·.normalizeLegacyAgentTasks)) with
      | .ok _ => (.ok (), ((deployProcesses (processes.map (·.normalizeLegacyAgentTasks))).run s).2)
      | .error err => (.error err, s) := by
  show (Cmd.check _ >>= fun _ => Cmd.plan _) s = _
  unfold Cmd.check
  cases checkStartEvents (processes.map (·.normalizeLegacyAgentTasks)) <;> rfl

/-- The plan of a command deploys the next versions, if it deploys. -/
theorem registered_planCommandAt {log : List Event} {e : Engine} {command : Command} {now : Nat} {s : PlanState}
    (h : e.nextLocal ≤ localMask → Registered e.Minted log e.state) (hs : e.planCommandAt command now = (.ok (), s))
    (hroom : s.engine.nextLocal ≤ localMask) : Registered s.engine.Minted (log ++ s.log) s.engine.state := by
  let start : PlanState := { engine := e.beginCommand now }
  obtain ⟨hnext, hminted⟩ := minted_planCommandAt hs
  have hbefore : start.Registered log := by
    unfold PlanState.Registered
    rw [show log ++ start.log = log from List.append_nil log]
    exact h (Nat.le_trans hnext hroom)
  have hrun : planCommand command start = (.ok (), s) := hs
  have hplan : ∀ p : Plan Unit, Cmd.plan p start = (.ok (), s) → p.KeepsRegistered log → s.Registered log := by
    intro p hp hkeeps
    obtain rfl : (p.run start).2 = s := congrArg Prod.snd hp
    exact hkeeps start hroom hbefore
  have hdeploy : ∀ processes, deploy processes start = (.ok (), s) → s.Registered log := by
    intro processes hp
    rw [deploy_eq] at hp
    split at hp
    · exact hplan _ hp Plan.keepsRegistered_deployProcesses
    · cases hp
  by_cases hdeploys : .deployment ∈ command.origins ∨ .resource ∈ command.origins
  · cases command <;> simp [Command.origins] at hdeploys
    case deployProcess process => exact hdeploy [process] hrun
    case deployResources processes => exact hdeploy processes hrun
    case deployDecisionRequirements graphs => exact hplan _ hrun Plan.keepsRegistered_deployDecisions
    case deployForms forms => exact hplan _ hrun Plan.keepsRegistered_deployForms
    case deployGenericResources resources => exact hplan _ hrun Plan.keepsRegistered_deployGenericResources
  · obtain ⟨hdeployment, hresource⟩ := not_or.mp hdeploys
    obtain ⟨p, hp⟩ := runsPlan_planCommand command start
    have hevents := within_planCommand command (F := fun _ => True) (fun _ _ => trivial) start fun _ _ _ => trivial
    have hend : (planCommand command start).2 = s := congrArg Prod.snd hrun
    rw [hend] at hevents
    have hs' : (p.run start).2 = s := hp.symm.trans hend
    subst hs'
    refine Plan.keeps_run (I := fun log s' => Registered (p.run start).2.engine.Minted log s')
      (P := fun event => event.resource = none) (fun _ _ _ hevent h => h.apply_other hevent) log ?_
      (NanoBpm.Registered.mono hbefore hminted)
    obtain ⟨events, hlog, hallowed⟩ := hevents
    refine ⟨events, hlog, fun event hevent => resource_of_origin (fun heq => ?_) fun heq => ?_⟩
    · exact hdeployment (by simpa [heq] using (hallowed event hevent).origin)
    · exact hresource (by simpa [heq] using (hallowed event hevent).origin)

/-- At the end of a run the definitions are those that its log deployed. -/
theorem registered_runCalls (fuel partitionId : Nat) (calls : List HostCall)
    (hroom : (runCalls fuel (withPartition partitionId) calls).2.nextLocal ≤ localMask) :
    Registered (runCalls fuel (withPartition partitionId) calls).2.Minted
      (runCalls fuel (withPartition partitionId) calls).1 (runCalls fuel (withPartition partitionId) calls).2.state := by
  have hstart : Registered (withPartition partitionId).Minted [] (withPartition partitionId).state := by
    refine ⟨trivial, rfl, fun K hK key x hx => ?_⟩
    change (K.versions (State.definitions {}))[key]? = some x at hx
    rw [Definitions.getElem?_versions_empty hK] at hx
    exact absurd (hx.symm.trans Std.ExtTreeMap.getElem?_empty) (by simp)
  exact logInvariant_registered.calls (fun h _ hs => registered_planCommandAt h hs) fuel (by rfl) (fun _ => hstart)
    alongCalls_true hroom

/-! ## What is latest already -/

/-- The command deploys nothing but what is the latest of its id. -/
def deploysLatest (e : Engine) : Command → Prop
  | .deployProcess process =>
    e.state.processes[process.id]?.map (·.definition) = some process.normalizeLegacyAgentTasks
  | .deployResources processes => ∀ process ∈ processes,
    e.state.processes[process.id]?.map (·.definition) = some process.normalizeLegacyAgentTasks
  | .deployDecisionRequirements graphs => ∀ drg ∈ graphs, e.state.decisionRequirements[drg.id]?.map (·.drg) = some drg
  | .deployForms forms => ∀ form ∈ forms, e.state.forms[form.id]?.map (·.schema) = some form.schema
  | .deployGenericResources resources => ∀ r ∈ resources,
    e.state.resources[r.resourceId]?.map (fun x => (x.resourceName, x.content)) = some (r.resourceName, r.content)
  | _ => False

omit [Feel] in
/-- A deployment of which every turn is skipped emits nothing but its key. -/
theorem resources_deployment {α : Type} (turn : Key → α → Plan Unit) {xs : List α} {s : PlanState} (hlog : s.log = [])
    (hskip : ∀ a ∈ xs, ∀ (deploymentKey : Key) (s' : PlanState), s'.engine.state = s.engine.state →
      ((turn deploymentKey a).run s').2 = s') :
    ((do
      let deploymentKey ← Plan.mintKey
      Plan.emit (.deploymentCreated deploymentKey)
      xs.forM (turn deploymentKey) : Plan Unit).run s).2.log.filterMap Event.resource = [] := by
  let created := s.mint.2.applyEvent (.deploymentCreated s.mint.1)
  have hcreated : created.engine.state = s.engine.state := PlanState.state_applyEvent _ _
  have hloop : ((xs.forM (turn s.mint.1)).run created).2 = created := by
    induction xs with
    | nil => rfl
    | cons a xs ih =>
      refine (congrArg Prod.snd (Plan.run_bind _ _ created)).trans ?_
      rw [hskip a (by simp) s.mint.1 created hcreated]
      exact ih fun b hb => hskip b (by simp [hb])
  show (Plan.run (xs.forM _) created).2.log.filterMap Event.resource = []
  rw [hloop, PlanState.log_applyEvent, show s.mint.2.log = [] from hlog]
  rfl

theorem resources_settle (fuel : Nat) (s : PlanState) :
    ((settle fuel).run s).2.log.filterMap Event.resource = s.log.filterMap Event.resource := by
  obtain ⟨events, hevents⟩ := Plan.inStretches_settle fuel s
  have hnone : events.filterMap Event.resource = [] := by
    refine List.filterMap_eq_nil_iff.mpr fun event hevent => ?_
    have horigin := hevents.origin hevent
    exact resource_of_origin (fun heq => by simp [heq] at horigin) fun heq => by simp [heq] at horigin
  rw [hevents.log, List.filterMap_append, hnone, List.append_nil]

/-- A deployment of what is the latest already emits no new version. -/
theorem resources_applyCommandAt {e : Engine} {command : Command} (h : e.deploysLatest command) (fuel now : Nat) :
    (returned (e.applyCommandAt fuel command now).1).filterMap Event.resource = [] := by
  let start : PlanState := { engine := e.beginCommand now }
  -- what matters is the plan: what settles the command deploys nothing
  have hplan : ∀ p : Plan Unit, ((p.run start).2.log).filterMap Event.resource = [] →
      ((settle fuel).run (p.run start).2).2.log.filterMap Event.resource = [] :=
    fun p hp => (resources_settle fuel _).trans hp
  have hdeploy : ∀ processes : List ProcessDefinition, (∀ process ∈ processes,
      e.state.processes[process.id]?.map (·.definition) = some process.normalizeLegacyAgentTasks) →
      (returned (e.applyCommandAt fuel (.deployResources processes) now).1).filterMap Event.resource = [] := by
    intro processes hprocesses
    have hrun : e.planCommandAt (.deployResources processes) now = deploy processes start := rfl
    unfold applyCommandAt
    rw [hrun, deploy_eq]
    cases checkStartEvents (processes.map (·.normalizeLegacyAgentTasks)) with
    | error err => rfl
    | ok _ =>
      refine hplan _ (resources_deployment deployVersion rfl fun process hprocess deploymentKey s' hs' => ?_)
      obtain ⟨original, horiginal, rfl⟩ := List.mem_map.mp hprocess
      obtain ⟨d, hd, hsame⟩ := Option.map_eq_some_iff.mp (hprocesses original horiginal)
      refine Plan.run_unless ?_
      rw [show s'.engine.state = e.state from hs', show (original.normalizeLegacyAgentTasks).id = original.id from rfl]
      simp [hd, hsame, ProcessDefinition.same]
  cases command <;> try exact h.elim
  case deployProcess process => exact hdeploy [process] (by simpa [deploysLatest] using h)
  case deployResources processes => exact hdeploy processes h
  case deployDecisionRequirements graphs =>
    refine hplan _ (resources_deployment Plan.deployGraph rfl fun drg hdrg deploymentKey s' hs' => Plan.run_unless ?_)
    obtain ⟨d, hd, hsame⟩ := Option.map_eq_some_iff.mp (h drg hdrg)
    rw [show s'.engine.state = e.state from hs']
    simp [hd, hsame]
  case deployForms forms =>
    refine hplan _ (resources_deployment Plan.deployForm rfl fun form hform deploymentKey s' hs' => Plan.run_unless ?_)
    obtain ⟨d, hd, hsame⟩ := Option.map_eq_some_iff.mp (h form hform)
    rw [show s'.engine.state = e.state from hs']
    simp [hd, hsame]
  case deployGenericResources resources =>
    refine hplan _ (resources_deployment Plan.deployResource rfl fun r hr deploymentKey s' hs' => Plan.run_unless ?_)
    obtain ⟨d, hd, hsame⟩ := Option.map_eq_some_iff.mp (h r hr)
    obtain ⟨hname, hcontent⟩ := Prod.mk.inj hsame
    rw [show s'.engine.state = e.state from hs']
    simp [hd, hname, hcontent]

end Engine

/-! ## Copies of deployments -/

/-- Copies of deployment events that come into an engine: those that its snapshot was made of, and batches that are installed
on top. -/
structure Copies where
  held : List Event := []
  batches : List (List Event) := []

namespace Copies

def resources (c : Copies) : List Resource := (c.held ++ c.batches.flatten).filterMap Event.resource

def installedInto (c : Copies) (e : Engine) : Engine := c.batches.foldl Engine.installDeploymentIfNewer e

/-- The batches go on where the snapshot ends. -/
theorem definitions_installedInto {c : Copies} {e : Engine} (h : e.state.definitions = (State.definitions {}).deployAll c.held) :
    (c.installedInto e).state.definitions = Definitions.ofResources c.resources := by
  obtain ⟨held, batches⟩ := c
  have hbatches : ∀ (batches : List (List Event)) (e : Engine),
      (batches.foldl Engine.installDeploymentIfNewer e).state.definitions = e.state.definitions.deployAll batches.flatten := by
    intro batches
    induction batches with
    | nil => exact fun _ => rfl
    | cons batch batches ih =>
      intro e
      rw [List.foldl_cons, ih, List.flatten_cons, Definitions.deployAll_append]
      exact congrArg (Definitions.deployAll · _) (definitions_installDeployment e batch)
  rw [installedInto, hbatches, h, ← Definitions.deployAll_append, Definitions.deployAll_eq]
  rfl

end Copies

namespace Engine

/-- A run numbers the versions of every id from 1 on, and what is the latest already gets no new one. Copies of what it deployed,
in whatever order and however many of each, make the same tables, in which every version is found by its key and the latest one
by its id, exactly if no decision comes only before its graph. -/
theorem installed_as_deployed_iff [Feel] (fuel partitionId : Nat) (calls : List HostCall)
    (hroom : (runCalls fuel (withPartition partitionId) calls).2.nextLocal ≤ localMask) :
    let deployed := (runCalls fuel (withPartition partitionId) calls).1.filterMap Event.resource
    let e := (runCalls fuel (withPartition partitionId) calls).2
    (∀ K ∈ ResourceKind.all, ∀ i, ∃ n : Nat,
      K.versionsOf (State.definitions {}) deployed i = (List.range n).map fun k : Nat => (k : Int) + 1) ∧
    (∀ command, e.deploysLatest command → ∀ fuel' now,
      (returned (e.applyCommandAt fuel' command now).1).filterMap Event.resource = []) ∧
    ∀ (a b : Engine) (c c' : Copies), a.state.definitions = (State.definitions {}).deployAll c.held →
      b.state.definitions = (State.definitions {}).deployAll c'.held →
      (∀ r ∈ c.resources, r ∈ deployed) → (∀ r, r ∈ c'.resources ↔ r ∈ c.resources) →
      ((e.state.definitions.Tabulates c.resources (c.installedInto a).state.definitions ∧
          e.state.definitions.Tabulates c'.resources (c'.installedInto b).state.definitions ∧
          (c.installedInto a).state.definitions = (c'.installedInto b).state.definitions) ↔
        GraphsFirst c.resources ∧ GraphsFirst c'.resources) := by
  obtain ⟨hdeployed, hdefinitions, -⟩ := registered_runCalls fuel partitionId calls hroom
  refine ⟨fun K hK i => ?_, fun command hlatest fuel' now => resources_applyCommandAt hlatest fuel' now, ?_⟩
  · obtain ⟨n, hn, -⟩ := hdeployed.versionsOf hK i
    exact ⟨n, hn⟩
  · intro a b c c' ha hb hsub hsame
    rw [hdefinitions, Copies.definitions_installedInto ha, Copies.definitions_installedInto hb,
      hdeployed.tabulates_iff hsub, hdeployed.tabulates_iff fun r hr => hsub r ((hsame r).mp hr)]
    constructor
    · rintro ⟨hc, hc', -⟩
      exact ⟨hc, hc'⟩
    · rintro ⟨hc, hc'⟩
      have htables := (hdeployed.tabulates_iff hsub).mpr hc
      have htables' := (hdeployed.tabulates_iff fun r hr => hsub r ((hsame r).mp hr)).mpr hc'
      exact ⟨hc, hc', htables.eq htables' hsame⟩

/-- A graph with one decision, in several versions. -/
def riskGraph (name : String) : DecisionRequirementsGraph where
  id := "risk"
  name
  decisions := [{ id := "score", name := "Score", logic := .unsupported "none" }]

def graphDeployments : List HostCall :=
  [.applyCommandAt (.deployDecisionRequirements [riskGraph "first"]) 0,
    .applyCommandAt (.deployDecisionRequirements [riskGraph "second"]) 0]

def firstVersion : List Event :=
  [.decisionRequirementsDeployed 1 2 1 (riskGraph "first"), .decisionDeployed 1 2 3 "score" "Score" 1]

def secondVersion : List Event :=
  [.decisionRequirementsDeployed 4 5 2 (riskGraph "second"), .decisionDeployed 4 5 6 "score" "Score" 2]

/-- The second version before the first and once more after it, beside a snapshot of the first with the second on top. -/
theorem installed_second_version_first :
    let e := (@runCalls Feel.refusing 40 (withPartition 0) graphDeployments).2
    let c : Copies := { batches := [secondVersion, firstVersion, secondVersion] }
    let c' : Copies := { held := firstVersion, batches := [secondVersion] }
    let b := (withPartition 1).installDeployment firstVersion
    e.state.definitions.Tabulates c.resources (c.installedInto (withPartition 1)).state.definitions ∧
      (c.installedInto (withPartition 1)).state.definitions = (c'.installedInto b).state.definitions := by
  intro e c c' b
  have hlog : (@runCalls Feel.refusing 40 (withPartition 0) graphDeployments).1.filterMap Event.resource =
      firstVersion.filterMap Event.resource ++ secondVersion.filterMap Event.resource := rfl
  have hc : ∀ r, r ∈ c.resources ↔
      r ∈ secondVersion.filterMap Event.resource ∨ r ∈ firstVersion.filterMap Event.resource := by
    intro r
    simp only [c, Copies.resources, List.nil_append, List.flatten_cons, List.flatten_nil, List.append_nil,
      List.filterMap_append, List.mem_append]
    exact ⟨fun h => h.elim .inl fun h => h.symm, fun h => h.elim .inl fun h => .inr (.inl h)⟩
  have hc' : ∀ r, r ∈ c'.resources ↔
      r ∈ firstVersion.filterMap Event.resource ∨ r ∈ secondVersion.filterMap Event.resource := by
    intro r
    simp only [c', Copies.resources, List.flatten_cons, List.flatten_nil, List.append_nil, List.filterMap_append,
      List.mem_append]
  have hfirst : GraphsFirst (firstVersion.filterMap Event.resource) := by
    intro r hr requirementsKey hkey
    rcases List.mem_cons.mp hr with rfl | hr
    · cases hkey
    · obtain rfl := List.mem_singleton.mp hr
      exact ⟨[_], [], rfl, ⟨2, 1, riskGraph "first"⟩, List.mem_cons_self, Option.some.inj hkey⟩
  have hsecond : GraphsFirst (secondVersion.filterMap Event.resource) := by
    intro r hr requirementsKey hkey
    rcases List.mem_cons.mp hr with rfl | hr
    · cases hkey
    · obtain rfl := List.mem_singleton.mp hr
      exact ⟨[_], [], rfl, ⟨5, 2, riskGraph "second"⟩, List.mem_cons_self, Option.some.inj hkey⟩
  obtain ⟨-, -, hcopies⟩ := @installed_as_deployed_iff Feel.refusing 40 0 graphDeployments (by decide +kernel)
  have hb : b.state.definitions = (State.definitions {}).deployAll c'.held := definitions_installDeployment _ _
  obtain ⟨htables, -, heq⟩ := (hcopies (withPartition 1) b c c' rfl hb
    (fun r hr => by rw [hlog, List.mem_append]; exact ((hc r).mp hr).symm)
    fun r => by rw [hc r, hc' r]; exact or_comm).mpr
    ⟨by simpa [c, Copies.resources] using hsecond.append (hfirst.append hsecond),
      by simpa [c', Copies.resources] using hfirst.append hsecond⟩
  exact ⟨htables, heq⟩

/-- A decision that is installed before its graph, and not again after it, is gone: it is found neither by its id nor by its
key. -/
theorem decision_installed_before_its_graph :
    let inOrder : Copies := { batches := [firstVersion] }
    let late : Copies := { batches := [firstVersion.drop 1, firstVersion.take 1] }
    (∀ r, r ∈ late.resources ↔ r ∈ inOrder.resources) ∧
      firstVersion ⊆ (@runCalls Feel.refusing 40 (withPartition 0) graphDeployments).1 ∧
      (inOrder.installedInto (withPartition 1)).state.decisions["score"]?.map (·.version) = some 1 ∧
      (inOrder.installedInto (withPartition 1)).state.decisionVersions[3]?.map (·.version) = some 1 ∧
      (late.installedInto (withPartition 1)).state.decisions["score"]?.map (·.version) = none ∧
      (late.installedInto (withPartition 1)).state.decisionVersions[3]?.map (·.version) = none := by
  refine ⟨fun r => ?_, ?_, by decide +kernel, by decide +kernel, by decide +kernel, by decide +kernel⟩
  · have hsame : ∀ x y : Resource, r ∈ [x, y] ↔ r ∈ [y, x] := by
      intro x y
      simp only [List.mem_cons, List.not_mem_nil, or_false]
      exact or_comm
    exact hsame _ _
  · have hlog : (@runCalls Feel.refusing 40 (withPartition 0) graphDeployments).1 =
        [.deploymentCreated 1] ++ firstVersion ++ ([.deploymentCreated 4] ++ secondVersion) := rfl
    rw [hlog]
    intro event hevent
    simp [hevent]

end Engine

end NanoBpm
