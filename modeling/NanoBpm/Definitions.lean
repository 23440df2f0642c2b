import Mathlib.Data.Int.Order.Basic
import Mathlib.Order.Basic
import NanoBpm.Lib.Latest
import NanoBpm.Replay

/-!
# Deployed definitions (`state/apply/process.rs`, `state/apply/resource.rs`, `server/src/main.rs:2368`)

What a deployment event leaves in the state, apart from everything else. There are five kinds of resources;
each has a table with the newest item of every id and a table with every item by its key. The definitions are
a fold of the deployed resources over those tables, so the question what a restart recovers of them is a
question about which resources it folds in again.
-/

namespace NanoBpm

/-! ## The fold -/

namespace Definitions

def toState (d : Definitions) : State :=
  { processes := d.processes
    processVersions := d.processVersions
    decisionRequirements := d.decisionRequirements
    decisionRequirementsVersions := d.decisionRequirementsVersions
    decisions := d.decisions
    decisionVersions := d.decisionVersions
    forms := d.forms
    formVersions := d.formVersions
    resources := d.resources
    resourceVersions := d.resourceVersions }

/-- The effect of an event on the deployed definitions. -/
def deploy (d : Definitions) (e : Event) : Definitions := (apply d.toState e).definitions

def deployAll (d : Definitions) (events : List Event) : Definitions := events.foldl deploy d

@[simp] theorem deployAll_nil (d : Definitions) : d.deployAll [] = d := rfl

@[simp] theorem deployAll_cons (d : Definitions) (e : Event) (es : List Event) :
    d.deployAll (e :: es) = (d.deploy e).deployAll es := rfl

theorem deployAll_append (d : Definitions) (xs ys : List Event) :
    d.deployAll (xs ++ ys) = (d.deployAll xs).deployAll ys := List.foldl_append

theorem deploy_of_not_deployment (d : Definitions) {e : Event} (h : e.isDeployment = false) : d.deploy e = d :=
  definitions_apply d.toState e h

theorem normalized_deployAll {d : Definitions} (h : d.Normalized) (events : List Event) :
    (d.deployAll events).Normalized := by
  induction events generalizing d with
  | nil => exact h
  | cons e es ih => exact ih (normalized_apply (s := d.toState) h e)

end Definitions

/-! ## Resources -/

/-- What a deployment event deploys. A decision names the graph it belongs to. -/
inductive Resource where
  | process (p : DeployedProcess)
  | requirements (g : DeployedDrg)
  | decision (requirementsKey key : Key) (decisionId decisionName : String) (version : Int)
  | form (f : DeployedForm)
  | generic (r : DeployedResource)

def Event.resource : Event → Option Resource
  | .processDeployed _ key version process => some (.process ⟨key, version, process.normalizeLegacyAgentTasks⟩)
  | .decisionRequirementsDeployed _ key version drg => some (.requirements ⟨key, version, drg⟩)
  | .decisionDeployed _ requirementsKey key decisionId decisionName version =>
    some (.decision requirementsKey key decisionId decisionName version)
  | .formDeployed _ key version formId resourceName schema => some (.form ⟨key, version, formId, resourceName, schema⟩)
  | .genericResourceDeployed _ key version resourceId resourceName content =>
    some (.generic ⟨key, version, resourceId, resourceName, content⟩)
  | _ => none

theorem Event.isDeployment_eq (e : Event) : e.isDeployment = e.resource.isSome := by
  cases e <;> rfl

def Resource.isProcess : Resource → Bool
  | .process _ => true
  | _ => false

namespace Definitions

/-- The item a decision becomes: it needs its graph. -/
def decisionItem (d : Definitions) (requirementsKey key : Key) (decisionId decisionName : String) (version : Int) :
    Option DeployedDecision :=
  d.decisionRequirementsVersions[requirementsKey]?.map fun g =>
    ⟨key, version, requirementsKey, decisionId, decisionName, g.drg⟩

open Latest in
/-- The tables after a resource: the newest item of an id stays, a key's item is replaced. -/
def register (d : Definitions) : Resource → Definitions
  | .process p =>
    { d with
      processes := offer (·.version) (·.definition.id) d.processes p
      processVersions := offer (fun _ => ()) (·.key) d.processVersions p }
  | .requirements g =>
    { d with
      decisionRequirements := offer (·.version) (·.drg.id) d.decisionRequirements g
      decisionRequirementsVersions := offer (fun _ => ()) (·.key) d.decisionRequirementsVersions g }
  | .decision requirementsKey key decisionId decisionName version =>
    match d.decisionItem requirementsKey key decisionId decisionName version with
    | none => d
    | some x =>
      { d with
        decisions := offer (·.version) (·.decisionId) d.decisions x
        decisionVersions := offer (fun _ => ()) (·.key) d.decisionVersions x }
  | .form f =>
    { d with
      forms := offer (·.version) (·.formId) d.forms f
      formVersions := offer (fun _ => ()) (·.key) d.formVersions f }
  | .generic r =>
    { d with
      resources := offer (·.version) (·.resourceId) d.resources r
      resourceVersions := offer (fun _ => ()) (·.key) d.resourceVersions r }

def registerAll (d : Definitions) (rs : List Resource) : Definitions := rs.foldl register d

@[simp] theorem registerAll_nil (d : Definitions) : d.registerAll [] = d := rfl

@[simp] theorem registerAll_cons (d : Definitions) (r : Resource) (rs : List Resource) :
    d.registerAll (r :: rs) = (d.register r).registerAll rs := rfl

theorem registerAll_append (d : Definitions) (rs qs : List Resource) :
    d.registerAll (rs ++ qs) = (d.registerAll rs).registerAll qs := List.foldl_append

section tables

variable {α κ : Type} {cmp : κ → κ → Ordering} [Std.TransCmp cmp]

/-- Every applier's `*_versions` insert. -/
theorem insert_eq_offer (key : α → κ) (m : Std.ExtTreeMap κ α cmp) (x : α) :
    m.insert (key x) x = Latest.offer (fun _ => ()) key m x := by
  unfold Latest.offer
  cases m[key x]? <;> simp

/-- Every applier's guarded insert. -/
theorem insertLatest_eq_offer (version : α → Int) (id : α → κ) (m : Std.ExtTreeMap κ α cmp) (x : α) :
    (if isLatest (version x) (m[id x]?.map version) then m.insert (id x) x else m) = Latest.offer version id m x := by
  unfold Latest.offer
  cases m[id x]? <;> rfl

end tables

/-- What an event does to the definitions is what its resource does. -/
theorem deploy_eq (d : Definitions) (e : Event) : d.deploy e = (e.resource.map d.register).getD d := by
  cases hd : e.isDeployment with
  | false =>
    have hnone : e.resource = none := by simpa [Event.isDeployment_eq] using hd
    rw [deploy_of_not_deployment d hd, hnone]
    rfl
  | true =>
    obtain ⟨r, hr⟩ := Option.isSome_iff_exists.1 (e.isDeployment_eq ▸ hd)
    rw [hr]
    show d.deploy e = d.register r
    unfold Event.resource at hr
    split at hr <;> cases hr
    case h_1 _ key version process =>
      simp only [register, ← insert_eq_offer, ← insertLatest_eq_offer]
      rfl
    case h_2 =>
      simp only [register, ← insert_eq_offer, ← insertLatest_eq_offer]
      rfl
    case h_3 _ requirementsKey _ _ _ _ =>
      show State.definitions (applyResource d.toState _) = _
      simp only [register, decisionItem, applyResource, ← insert_eq_offer, ← insertLatest_eq_offer]
      have hsame : d.toState.decisionRequirementsVersions[requirementsKey]? = d.decisionRequirementsVersions[requirementsKey]? := rfl
      rw [hsame]
      cases d.decisionRequirementsVersions[requirementsKey]? <;> rfl
    case h_4 =>
      simp only [register, ← insert_eq_offer, ← insertLatest_eq_offer]
      rfl
    case h_5 =>
      simp only [register, ← insert_eq_offer, ← insertLatest_eq_offer]
      rfl

theorem deployAll_eq (d : Definitions) (events : List Event) :
    d.deployAll events = d.registerAll (events.filterMap Event.resource) := by
  induction events generalizing d with
  | nil => rfl
  | cons e es ih =>
    rw [deployAll_cons, ih, deploy_eq]
    cases hr : e.resource <;> simp [hr]

end Definitions

/-- An event acts on the definitions alone. -/
theorem definitions_apply_eq (s : State) (e : Event) : (apply s e).definitions = s.definitions.deploy e := by
  cases he : e.isDeployment with
  | false => rw [definitions_apply s e he, Definitions.deploy_of_not_deployment _ he]
  | true =>
    obtain ⟨r, hr⟩ := Option.isSome_iff_exists.1 (e.isDeployment_eq ▸ he)
    unfold Event.resource at hr
    split at hr <;> first | rfl | cases hr
    rename_i requirementsKey _ _ _ _
    show (applyResource s _).definitions = (applyResource s.definitions.toState _).definitions
    simp only [applyResource]
    have hsame : s.definitions.toState.decisionRequirementsVersions[requirementsKey]? =
        s.decisionRequirementsVersions[requirementsKey]? := rfl
    rw [hsame]
    cases s.decisionRequirementsVersions[requirementsKey]? <;> rfl

theorem definitions_applyReplayedEvents (e : Engine) (events : List Event) :
    (e.applyReplayedEvents events).state.definitions = e.state.definitions.deployAll events := by
  induction events generalizing e with
  | nil => rfl
  | cons x xs ih =>
    rw [Engine.applyReplayedEvents_cons, ih]
    show (apply e.state x).definitions.deployAll xs = _
    rw [definitions_apply_eq]
    rfl

theorem definitions_installDeployment (e : Engine) (events : List Event) :
    (e.installDeployment events).state.definitions = e.state.definitions.deployAll events := by
  induction events generalizing e with
  | nil => rfl
  | cons x xs ih =>
    refine (ih (e.installDeploymentEvent x)).trans ?_
    show (State.definitions (if x.isDeployment then apply e.state x else e.state)).deployAll xs =
      (e.state.definitions.deploy x).deployAll xs
    split
    · rw [definitions_apply_eq]
    · rename_i hx
      rw [Definitions.deploy_of_not_deployment _ (by simpa using hx)]

/-! ## Kinds -/

/-- A kind of resource: its two tables, and the item a resource puts into them. -/
structure ResourceKind where
  Item : Type
  id : Item → String
  key : Item → Key
  version : Item → Int
  latest : Definitions → StrMap Item
  versions : Definitions → KeyMap Item
  item : Definitions → Resource → Option Item
  latest_register : ∀ d r, latest (d.register r) = (item d r).toList.foldl (Latest.offer version id) (latest d)
  versions_register : ∀ d r,
    versions (d.register r) = (item d r).toList.foldl (Latest.offer (fun _ => ()) key) (versions d)

namespace ResourceKind

def process : ResourceKind where
  Item := DeployedProcess
  id := (·.definition.id)
  key := (·.key)
  version := (·.version)
  latest := (·.processes)
  versions := (·.processVersions)
  item := fun _ r => match r with
    | .process p => some p
    | _ => none
  latest_register := by rintro d (_ | _ | _ | _ | _) <;> simp only [Definitions.register] <;> (try split) <;> rfl
  versions_register := by rintro d (_ | _ | _ | _ | _) <;> simp only [Definitions.register] <;> (try split) <;> rfl

def requirements : ResourceKind where
  Item := DeployedDrg
  id := (·.drg.id)
  key := (·.key)
  version := (·.version)
  latest := (·.decisionRequirements)
  versions := (·.decisionRequirementsVersions)
  item := fun _ r => match r with
    | .requirements g => some g
    | _ => none
  latest_register := by rintro d (_ | _ | _ | _ | _) <;> simp only [Definitions.register] <;> (try split) <;> rfl
  versions_register := by rintro d (_ | _ | _ | _ | _) <;> simp only [Definitions.register] <;> (try split) <;> rfl

def decision : ResourceKind where
  Item := DeployedDecision
  id := (·.decisionId)
  key := (·.key)
  version := (·.version)
  latest := (·.decisions)
  versions := (·.decisionVersions)
  item := fun d r => match r with
    | .decision requirementsKey key decisionId decisionName version =>
      d.decisionItem requirementsKey key decisionId decisionName version
    | _ => none
  latest_register := by
    rintro d (_ | _ | ⟨requirementsKey, key, decisionId, decisionName, version⟩ | _ | _) <;> try rfl
    simp only [Definitions.register]
    cases d.decisionItem requirementsKey key decisionId decisionName version <;> rfl
  versions_register := by
    rintro d (_ | _ | ⟨requirementsKey, key, decisionId, decisionName, version⟩ | _ | _) <;> try rfl
    simp only [Definitions.register]
    cases d.decisionItem requirementsKey key decisionId decisionName version <;> rfl

def form : ResourceKind where
  Item := DeployedForm
  id := (·.formId)
  key := (·.key)
  version := (·.version)
  latest := (·.forms)
  versions := (·.formVersions)
  item := fun _ r => match r with
    | .form f => some f
    | _ => none
  latest_register := by rintro d (_ | _ | _ | _ | _) <;> simp only [Definitions.register] <;> (try split) <;> rfl
  versions_register := by rintro d (_ | _ | _ | _ | _) <;> simp only [Definitions.register] <;> (try split) <;> rfl

def generic : ResourceKind where
  Item := DeployedResource
  id := (·.resourceId)
  key := (·.key)
  version := (·.version)
  latest := (·.resources)
  versions := (·.resourceVersions)
  item := fun _ r => match r with
    | .generic x => some x
    | _ => none
  latest_register := by rintro d (_ | _ | _ | _ | _) <;> simp only [Definitions.register] <;> (try split) <;> rfl
  versions_register := by rintro d (_ | _ | _ | _ | _) <;> simp only [Definitions.register] <;> (try split) <;> rfl

def all : List ResourceKind := [process, requirements, decision, form, generic]

theorem mem_all {K : ResourceKind} :
    K ∈ all ↔ K = process ∨ K = requirements ∨ K = decision ∨ K = form ∨ K = generic := by
  simp [all]

variable (K : ResourceKind)

/-- The items a sequence of resources puts into the tables of a kind. -/
def items (d : Definitions) : List Resource → List K.Item
  | [] => []
  | r :: rs => (K.item d r).toList ++ items (d.register r) rs

theorem latest_registerAll (d : Definitions) (rs : List Resource) :
    K.latest (d.registerAll rs) = (K.items d rs).foldl (Latest.offer K.version K.id) (K.latest d) := by
  induction rs generalizing d with
  | nil => rfl
  | cons r rs ih => rw [Definitions.registerAll_cons, ih, K.latest_register, items, List.foldl_append]

theorem versions_registerAll (d : Definitions) (rs : List Resource) :
    K.versions (d.registerAll rs) = (K.items d rs).foldl (Latest.offer (fun _ => ()) K.key) (K.versions d) := by
  induction rs generalizing d with
  | nil => rfl
  | cons r rs ih => rw [Definitions.registerAll_cons, ih, K.versions_register, items, List.foldl_append]

theorem mem_items {d : Definitions} {rs : List Resource} {x : K.Item} :
    x ∈ K.items d rs ↔ ∃ pre r post, rs = pre ++ r :: post ∧ K.item (d.registerAll pre) r = some x := by
  induction rs generalizing d with
  | nil => simp [items]
  | cons r rs ih =>
    simp only [items, List.mem_append, Option.mem_toList, ih]
    constructor
    · rintro (hx | ⟨pre, q, post, rfl, hx⟩)
      · exact ⟨[], r, rs, rfl, hx⟩
      · exact ⟨r :: pre, q, post, rfl, hx⟩
    · rintro ⟨pre, q, post, heq, hx⟩
      cases pre with
      | nil =>
        cases heq
        exact Or.inl hx
      | cons r' pre =>
        cases heq
        exact Or.inr ⟨pre, q, post, rfl, hx⟩

end ResourceKind

/-- The definitions are the tables of the five kinds. -/
theorem Definitions.ext_kinds {d d' : Definitions}
    (h : ∀ K ∈ ResourceKind.all, K.latest d = K.latest d' ∧ K.versions d = K.versions d') : d = d' := by
  simp only [ResourceKind.all, List.forall_mem_cons] at h
  obtain ⟨hp, hq, hd, hf, hg, -⟩ := h
  obtain ⟨_, _, _, _, _, _, _, _, _, _⟩ := d
  obtain ⟨_, _, _, _, _, _, _, _, _, _⟩ := d'
  obtain ⟨rfl, rfl⟩ := hp
  obtain ⟨rfl, rfl⟩ := hq
  obtain ⟨rfl, rfl⟩ := hd
  obtain ⟨rfl, rfl⟩ := hf
  obtain ⟨rfl, rfl⟩ := hg
  rfl

/-! ## Folding in again -/

namespace ResourceKind

theorem items_eq_filterMap {K : ResourceKind} {f : Resource → Option K.Item} (h : ∀ d r, K.item d r = f r)
    (d : Definitions) (rs : List Resource) : K.items d rs = rs.filterMap f := by
  induction rs generalizing d with
  | nil => rfl
  | cons r rs ih => cases hr : f r <;> simp [items, h, hr, ih]

theorem items_eq_nil {K : ResourceKind} {rs : List Resource} (h : ∀ d, ∀ r ∈ rs, K.item d r = none)
    (d : Definitions) : K.items d rs = [] := by
  induction rs generalizing d with
  | nil => rfl
  | cons r rs ih =>
    rw [items, h d r List.mem_cons_self, ih fun d r hr => h d r (List.mem_cons_of_mem _ hr)]
    rfl

end ResourceKind

namespace Definitions

/-- Registering the processes of a stretch again changes nothing. -/
theorem registerAll_processes_again (d : Definitions) (rs : List Resource) :
    (d.registerAll rs).registerAll (rs.filter Resource.isProcess) = d.registerAll rs := by
  apply ext_kinds
  intro K hK
  have hother : (∀ d p, K.item d (.process p) = none) →
      K.items (d.registerAll rs) (rs.filter Resource.isProcess) = [] := by
    intro hnone
    refine ResourceKind.items_eq_nil (fun d' r hr => ?_) _
    obtain ⟨-, hp⟩ := List.mem_filter.1 hr
    cases r with
    | process p => exact hnone d' p
    | _ => cases hp
  rw [K.latest_registerAll, K.versions_registerAll]
  rcases ResourceKind.mem_all.1 hK with rfl | rfl | rfl | rfl | rfl
  · have hitems : ResourceKind.process.items (d.registerAll rs) (rs.filter Resource.isProcess) =
        ResourceKind.process.items d rs := by
      rw [ResourceKind.items_eq_filterMap fun _ _ => rfl, ResourceKind.items_eq_filterMap fun _ _ => rfl]
      refine List.filterMap_filter.trans (congrArg (List.filterMap · rs) (funext fun r => ?_))
      cases r <;> rfl
    rw [hitems, ResourceKind.latest_registerAll, ResourceKind.versions_registerAll]
    exact ⟨Latest.foldl_offer_again _ _ _ _, Latest.foldl_offer_again _ _ _ _⟩
  all_goals
    rw [hother fun _ _ => rfl]
    exact ⟨rfl, rfl⟩

/-! ## Replication (`main.rs:2368`) -/

/-- `deployment_replication_events`: the newest process, graph and form of every id, and the newest decisions of
those graphs. -/
def replicationEvents (d : Definitions) : List Event :=
  d.processes.toList.map (fun (_, p) => .processDeployed 0 p.key p.version p.definition) ++
    d.decisionRequirements.toList.flatMap (fun (_, g) =>
      .decisionRequirementsDeployed 0 g.key g.version g.drg ::
        (d.decisions.toList.filter fun (_, x) => x.decisionRequirementsKey == g.key).map fun (_, x) =>
          .decisionDeployed 0 x.decisionRequirementsKey x.key x.decisionId x.decisionName x.version) ++
    d.forms.toList.map fun (_, f) => .formDeployed 0 f.key f.version f.formId f.resourceName f.schema

def decisionsOf (d : Definitions) (g : DeployedDrg) : List Resource :=
  (d.decisions.toList.filter fun (_, x) => x.decisionRequirementsKey == g.key).map fun (_, x) =>
    .decision x.decisionRequirementsKey x.key x.decisionId x.decisionName x.version

/-- The resources of `replicationEvents`. -/
def replicated (d : Definitions) : List Resource :=
  d.processes.toList.map (fun x => .process x.2) ++
    d.decisionRequirements.toList.flatMap (fun x => .requirements x.2 :: d.decisionsOf x.2) ++
    d.forms.toList.map fun x => .form x.2

theorem filterMap_resource_map {α : Type} {f : α → Event} {g : α → Resource} {xs : List α}
    (h : ∀ x ∈ xs, (f x).resource = some (g x)) : (xs.map f).filterMap Event.resource = xs.map g := by
  induction xs with
  | nil => rfl
  | cons x xs ih =>
    obtain ⟨hx, hxs⟩ := List.forall_mem_cons.1 h
    simp [hx, ih hxs]

theorem resources_replicationEvents {d : Definitions} (h : d.Normalized) :
    d.replicationEvents.filterMap Event.resource = d.replicated := by
  unfold replicationEvents replicated
  rw [List.filterMap_append, List.filterMap_append]
  congr 1
  · congr 1
    · refine filterMap_resource_map fun x hx => ?_
      have hget := Std.ExtTreeMap.mem_toList_iff_getElem?_eq_some.1 hx
      simp only [Event.resource, h.latest x.1 x.2 hget]
    · induction d.decisionRequirements.toList with
      | nil => rfl
      | cons g gs ih =>
        rw [List.flatMap_cons, List.flatMap_cons, List.filterMap_append, ih]
        congr 1
        exact congrArg (Resource.requirements g.2 :: ·) (filterMap_resource_map fun _ _ => rfl)
  · exact filterMap_resource_map fun _ _ => rfl

/-! ## Keys that are minted -/

/-- No resource comes under a key its kind has in use, as keys minted by the deployment partition do not. -/
def Fresh (d : Definitions) : List Resource → Prop
  | [] => True
  | r :: rs =>
    (∀ K ∈ ResourceKind.all, ∀ x, K.item d r = some x → (K.versions d)[K.key x]? = none) ∧ (d.register r).Fresh rs

/-- Every newest item is found under its key, and every decision has the graph of its key. -/
structure Consistent (d : Definitions) : Prop where
  latest : ∀ K ∈ ResourceKind.all, ∀ (i : String) (x : K.Item), (K.latest d)[i]? = some x →
    K.id x = i ∧ (K.versions d)[K.key x]? = some x
  graph : ∀ (k : Key) (x : DeployedDecision), d.decisionVersions[k]? = some x →
    ∃ g : DeployedDrg, d.decisionRequirementsVersions[x.decisionRequirementsKey]? = some g ∧ g.drg = x.drg

/-- A fresh resource leaves every item in place. -/
theorem versions_register_of_fresh {d : Definitions} {r : Resource} {K : ResourceKind}
    (hr : ∀ x, K.item d r = some x → (K.versions d)[K.key x]? = none) {k : Key} {y : K.Item}
    (hy : (K.versions d)[k]? = some y) : (K.versions (d.register r))[k]? = some y := by
  rw [K.versions_register]
  cases hx : K.item d r with
  | none => exact hy
  | some x =>
    show (Latest.offer _ _ _ _)[k]? = _
    rw [Latest.getElem?_offer, if_neg, hy]
    rintro rfl
    rw [hr x hx] at hy
    cases hy

theorem Fresh.versions {d : Definitions} {rs : List Resource} (h : d.Fresh rs) {K : ResourceKind}
    (hK : K ∈ ResourceKind.all) {k : Key} {y : K.Item} (hy : (K.versions d)[k]? = some y) :
    (K.versions (d.registerAll rs))[k]? = some y := by
  induction rs generalizing d with
  | nil => exact hy
  | cons r rs ih => exact ih h.2 (versions_register_of_fresh (h.1 K hK) hy)

theorem fresh_append {d : Definitions} {rs qs : List Resource} :
    d.Fresh (rs ++ qs) ↔ d.Fresh rs ∧ (d.registerAll rs).Fresh qs := by
  induction rs generalizing d with
  | nil => simp [Fresh]
  | cons r rs ih => simp [Fresh, ih, and_assoc]

theorem Consistent.register {d : Definitions} (h : d.Consistent) {r : Resource}
    (hr : ∀ K ∈ ResourceKind.all, ∀ x, K.item d r = some x → (K.versions d)[K.key x]? = none) :
    (d.register r).Consistent := by
  constructor
  · intro K hK i y hy
    rw [K.latest_register] at hy
    rcases Latest.mem_of_foldl_offer hy with hold | ⟨hnew, hid⟩
    · obtain ⟨hid, hkey⟩ := h.latest K hK i y hold
      exact ⟨hid, versions_register_of_fresh (hr K hK) hkey⟩
    · have hitem := Option.mem_toList.1 hnew
      refine ⟨hid, ?_⟩
      rw [K.versions_register, hitem]
      show (Latest.offer _ _ _ _)[_]? = _
      rw [Latest.getElem?_offer, if_pos rfl, hr K hK y hitem]
      rfl
  · intro k x hx
    have hgraphs : ∀ (k : Key) (g : DeployedDrg), d.decisionRequirementsVersions[k]? = some g →
        (d.register r).decisionRequirementsVersions[k]? = some g := fun k g hg =>
      versions_register_of_fresh (K := .requirements) (hr _ (by simp [ResourceKind.mem_all])) hg
    have hx' := ResourceKind.decision.versions_register d r
    change (ResourceKind.decision.versions (d.register r))[k]? = some x at hx
    rw [hx'] at hx
    rcases Latest.mem_of_foldl_offer hx with hold | ⟨hnew, -⟩
    · obtain ⟨g, hg, hdrg⟩ := h.graph k x hold
      exact ⟨g, hgraphs _ g hg, hdrg⟩
    · have hitem := Option.mem_toList.1 hnew
      cases r with
      | decision requirementsKey key decisionId decisionName version =>
        obtain ⟨g, hg, rfl⟩ := Option.map_eq_some_iff.1 hitem
        exact ⟨g, hgraphs _ g hg, rfl⟩
      | _ => cases hitem

theorem Consistent.registerAll {d : Definitions} (h : d.Consistent) {rs : List Resource} (hf : d.Fresh rs) :
    (d.registerAll rs).Consistent := by
  induction rs generalizing d with
  | nil => exact h
  | cons r rs ih => exact ih (h.register hf.1) hf.2

/-! ## What replication restores -/

/-- The resource is among those replication passes on: the newest of its id, not a generic one, and for a
decision of a graph that is. -/
def Current (d : Definitions) : Resource → Prop
  | .process p => d.processes[p.definition.id]? = some p
  | .requirements g => d.decisionRequirements[g.drg.id]? = some g
  | .decision requirementsKey key decisionId decisionName version =>
    ∃ g : DeployedDrg, d.decisionRequirements[g.drg.id]? = some g ∧ g.key = requirementsKey ∧
      d.decisions[decisionId]? = some ⟨key, version, requirementsKey, decisionId, decisionName, g.drg⟩
  | .form f => d.forms[f.formId]? = some f
  | .generic _ => False

theorem mem_replicated {d : Definitions} {r : Resource} :
    r ∈ d.replicated ↔ (∃ (i : String) (p : DeployedProcess), d.processes[i]? = some p ∧ r = .process p) ∨
      (∃ (i : String) (g : DeployedDrg), d.decisionRequirements[i]? = some g ∧
        (r = .requirements g ∨ r ∈ d.decisionsOf g)) ∨
      ∃ (i : String) (f : DeployedForm), d.forms[i]? = some f ∧ r = .form f := by
  simp only [replicated, List.mem_append, List.mem_map, List.mem_flatMap, List.mem_cons, Prod.exists,
    Std.ExtTreeMap.mem_toList_iff_getElem?_eq_some, or_assoc]
  simp only [eq_comm]

theorem mem_decisionsOf {d : Definitions} {g : DeployedDrg} {r : Resource} :
    r ∈ d.decisionsOf g ↔ ∃ (i : String) (x : DeployedDecision), d.decisions[i]? = some x ∧
      x.decisionRequirementsKey = g.key ∧ r = .decision x.decisionRequirementsKey x.key x.decisionId x.decisionName x.version := by
  simp only [decisionsOf, List.mem_map, List.mem_filter, Prod.exists,
    Std.ExtTreeMap.mem_toList_iff_getElem?_eq_some, beq_iff_eq, and_assoc]
  simp only [eq_comm]

/-- Items of a kind that are newest in the end, and among them all that were added, stand for those added. -/
theorem tables_eq_of_current {d : Definitions} {rs zs : List Resource} {K : ResourceKind} (hK : K ∈ ResourceKind.all)
    (hc : (d.registerAll rs).Consistent)
    (hheld : ∀ z ∈ K.items d zs, (K.latest (d.registerAll rs))[K.id z]? = some z)
    (hreach : ∀ x ∈ K.items d rs, x ∈ K.items d zs) :
    K.latest (d.registerAll zs) = K.latest (d.registerAll rs) ∧
      K.versions (d.registerAll zs) = K.versions (d.registerAll rs) := by
  have hversions : ∀ z ∈ K.items d zs, (K.versions (d.registerAll rs))[K.key z]? = some z :=
    fun z hz => (hc.latest K hK _ z (hheld z hz)).2
  rw [K.latest_registerAll] at hheld
  rw [K.versions_registerAll] at hversions
  simp only [K.latest_registerAll, K.versions_registerAll]
  exact ⟨Latest.foldl_offer_current _ _ _ hheld fun x hx => ⟨x, hreach x hx, rfl⟩,
    Latest.foldl_offer_current _ _ _ hversions fun x hx => ⟨x, hreach x hx, rfl⟩⟩

/-- A graph a replica has been given is the one the deployment partition holds. -/
theorem requirementsVersions_registerAll {d D : Definitions} (hc : D.Consistent)
    (hsub : ∀ (k : Key) (g : DeployedDrg), d.decisionRequirementsVersions[k]? = some g →
      D.decisionRequirementsVersions[k]? = some g)
    {rs : List Resource} (hrs : ∀ r ∈ rs, r ∈ D.replicated) {k : Key} {g : DeployedDrg}
    (hg : (d.registerAll rs).decisionRequirementsVersions[k]? = some g) :
    D.decisionRequirementsVersions[k]? = some g := by
  change (ResourceKind.requirements.versions (d.registerAll rs))[k]? = some g at hg
  rw [ResourceKind.versions_registerAll] at hg
  rcases Latest.mem_of_foldl_offer hg with hold | ⟨hmem, rfl⟩
  · exact hsub k g hold
  · obtain ⟨pre, r, post, rfl, hitem⟩ := (ResourceKind.mem_items _).1 hmem
    have hr : r = .requirements g := by
      cases r with
      | requirements g' => exact congrArg _ (Option.some.inj hitem)
      | _ => cases hitem
    subst hr
    rcases mem_replicated.1 (hrs (.requirements g) (by simp)) with ⟨_, _, _, hne⟩ | ⟨i, g', hg', heq | hmem⟩ | ⟨_, _, _, hne⟩
    · cases hne
    · cases heq
      exact (hc.latest .requirements (by simp [ResourceKind.mem_all]) i g hg').2
    · obtain ⟨_, _, _, _, hne⟩ := mem_decisionsOf.1 hmem
      cases hne
    · cases hne

/-- A decision that replication passes on is registered as the deployment partition holds it. -/
theorem decisionItem_replicated {d D : Definitions} (hc : D.Consistent)
    (hsub : ∀ (k : Key) (g : DeployedDrg), d.decisionRequirementsVersions[k]? = some g →
      D.decisionRequirementsVersions[k]? = some g)
    {rs : List Resource} (hrs : ∀ r ∈ rs, r ∈ D.replicated) {i : String} {x y : DeployedDecision}
    (hx : D.decisions[i]? = some x)
    (hy : (d.registerAll rs).decisionItem x.decisionRequirementsKey x.key x.decisionId x.decisionName x.version =
      some y) : y = x := by
  obtain ⟨g, hg, rfl⟩ := Option.map_eq_some_iff.1 hy
  obtain ⟨-, hkey⟩ := hc.latest .decision (by simp [ResourceKind.mem_all]) i x hx
  obtain ⟨g', hg', hdrg⟩ := hc.graph x.key x hkey
  rw [requirementsVersions_registerAll hc hsub hrs hg, Option.some.injEq] at hg'
  rw [hg', hdrg]

theorem requirementsVersions_registerAll_decisions (d : Definitions) {rs : List Resource}
    (h : ∀ r ∈ rs, ∀ d, ResourceKind.requirements.item d r = none) :
    (d.registerAll rs).decisionRequirementsVersions = d.decisionRequirementsVersions := by
  have := ResourceKind.requirements.versions_registerAll d rs
  rw [ResourceKind.items_eq_nil (fun d r hr => h r hr d)] at this
  exact this

/-- A current decision is passed on after its graph, so it is registered. -/
theorem decision_mem_items_replicated {d D : Definitions} (hc : D.Consistent)
    (hsub : ∀ (k : Key) (g : DeployedDrg), d.decisionRequirementsVersions[k]? = some g →
      D.decisionRequirementsVersions[k]? = some g)
    {i j : String} {g : DeployedDrg} {y : DeployedDecision} (hg : D.decisionRequirements[i]? = some g)
    (hy : D.decisions[j]? = some y) (hkey : y.decisionRequirementsKey = g.key) :
    y ∈ ResourceKind.decision.items d D.replicated := by
  have hmem : Resource.decision y.decisionRequirementsKey y.key y.decisionId y.decisionName y.version ∈
      D.decisionsOf g := mem_decisionsOf.2 ⟨j, y, hy, hkey, rfl⟩
  obtain ⟨before, after, hdecisions⟩ := List.append_of_mem hmem
  obtain ⟨graphs, graphs', hgraphs⟩ :=
    List.append_of_mem (Std.ExtTreeMap.mem_toList_iff_getElem?_eq_some.2 hg : (i, g) ∈ D.decisionRequirements.toList)
  have hbefore : ∀ r ∈ before, ∀ d, ResourceKind.requirements.item d r = none := by
    intro r hr d
    obtain ⟨_, _, _, _, rfl⟩ := mem_decisionsOf.1 (hdecisions ▸ List.mem_append_left _ hr : r ∈ D.decisionsOf g)
    rfl
  obtain ⟨pre, post, hpre⟩ : ∃ pre post, D.replicated = (pre ++ .requirements g :: before) ++
      .decision y.decisionRequirementsKey y.key y.decisionId y.decisionName y.version :: post := by
    refine ⟨D.processes.toList.map (fun x => .process x.2) ++
      graphs.flatMap (fun x => .requirements x.2 :: D.decisionsOf x.2),
      after ++ (graphs'.flatMap (fun x => .requirements x.2 :: D.decisionsOf x.2) ++
        D.forms.toList.map fun x => .form x.2), ?_⟩
    unfold replicated
    rw [hgraphs, List.flatMap_append, List.flatMap_cons, hdecisions]
    simp only [List.append_assoc, List.cons_append]
  have hlookup : (d.registerAll (pre ++ .requirements g :: before)).decisionRequirementsVersions[y.decisionRequirementsKey]?
      = some g := by
    rw [registerAll_append, registerAll_cons, requirementsVersions_registerAll_decisions _ hbefore, hkey]
    show (Latest.offer _ _ _ _)[g.key]? = _
    rw [Latest.getElem?_offer, if_pos rfl]
    cases (d.registerAll pre).decisionRequirementsVersions[g.key]? <;> simp [Latest.keep]
  refine (ResourceKind.mem_items _).2 ⟨_, _, _, hpre, ?_⟩
  have hitem : (d.registerAll (pre ++ .requirements g :: before)).decisionItem y.decisionRequirementsKey y.key
      y.decisionId y.decisionName y.version =
        some ⟨y.key, y.version, y.decisionRequirementsKey, y.decisionId, y.decisionName, g.drg⟩ := by
    rw [decisionItem, hlookup]
    rfl
  have hrs : ∀ r ∈ pre ++ .requirements g :: before, r ∈ D.replicated := by
    intro r hr
    rw [hpre]
    exact List.mem_append_left _ hr
  exact hitem.trans (congrArg some (decisionItem_replicated hc hsub hrs hy hitem))

/-- **Replication restores what is newest.** Where all that was deployed since the replica's definitions were
saved is current, the replica gets the definitions back. -/
theorem deployAll_replicationEvents {d : Definitions} {rs : List Resource} (hd : d.Consistent) (hf : d.Fresh rs)
    (hn : (d.registerAll rs).Normalized) (hcur : ∀ r ∈ rs, (d.registerAll rs).Current r) :
    d.deployAll (d.registerAll rs).replicationEvents = d.registerAll rs := by
  have hc := hd.registerAll hf
  rw [deployAll_eq, resources_replicationEvents hn]
  have hsub : ∀ (k : Key) (g : DeployedDrg), d.decisionRequirementsVersions[k]? = some g →
      (d.registerAll rs).decisionRequirementsVersions[k]? = some g := fun k g hg =>
    hf.versions (K := .requirements) (by simp [ResourceKind.mem_all]) hg
  apply ext_kinds
  intro K hK
  refine tables_eq_of_current hK hc (fun z hz => ?_) (fun x hx => ?_)
  · -- what is passed on is newest
    obtain ⟨pre, r, post, hsplit, hitem⟩ := K.mem_items.1 hz
    have hr : r ∈ (d.registerAll rs).replicated := by simp [hsplit]
    have hpre : ∀ q ∈ pre, q ∈ (d.registerAll rs).replicated := fun q hq => by simp [hsplit, hq]
    rcases mem_replicated.1 hr with ⟨i, p, hp, rfl⟩ | ⟨i, g, hg, rfl | hmem⟩ | ⟨i, f, hform, rfl⟩
    · rcases ResourceKind.mem_all.1 hK with rfl | rfl | rfl | rfl | rfl <;> cases hitem
      rw [(hc.latest _ hK i p hp).1]
      exact hp
    · rcases ResourceKind.mem_all.1 hK with rfl | rfl | rfl | rfl | rfl <;> cases hitem
      rw [(hc.latest _ hK i g hg).1]
      exact hg
    · obtain ⟨j, x, hx, -, rfl⟩ := mem_decisionsOf.1 hmem
      rcases ResourceKind.mem_all.1 hK with rfl | rfl | rfl | rfl | rfl <;> try cases hitem
      obtain rfl := decisionItem_replicated hc hsub hpre hx hitem
      rw [(hc.latest _ hK j z hx).1]
      exact hx
    · rcases ResourceKind.mem_all.1 hK with rfl | rfl | rfl | rfl | rfl <;> cases hitem
      rw [(hc.latest _ hK i f hform).1]
      exact hform
  · -- what was deployed is passed on
    obtain ⟨pre, r, post, rfl, hitem⟩ := K.mem_items.1 hx
    have hr := hcur r (by simp)
    have hplain : ∀ r' ∈ (d.registerAll (pre ++ r :: post)).replicated, (∀ d, K.item d r' = some x) →
        x ∈ K.items d (d.registerAll (pre ++ r :: post)).replicated := by
      intro r' hr' hitem'
      obtain ⟨a, b, hab⟩ := List.append_of_mem hr'
      exact K.mem_items.2 ⟨a, r', b, hab, hitem' _⟩
    cases r with
    | process p =>
      rcases ResourceKind.mem_all.1 hK with rfl | rfl | rfl | rfl | rfl <;> cases hitem
      exact hplain (.process p) (mem_replicated.2 (Or.inl ⟨_, p, hr, rfl⟩)) fun _ => rfl
    | requirements g =>
      rcases ResourceKind.mem_all.1 hK with rfl | rfl | rfl | rfl | rfl <;> cases hitem
      exact hplain (.requirements g) (mem_replicated.2 (Or.inr (Or.inl ⟨_, g, hr, Or.inl rfl⟩))) fun _ => rfl
    | decision requirementsKey key decisionId decisionName version =>
      rcases ResourceKind.mem_all.1 hK with rfl | rfl | rfl | rfl | rfl <;> try cases hitem
      obtain ⟨g, hg, rfl, hy⟩ := hr
      obtain ⟨g', hg', rfl⟩ := Option.map_eq_some_iff.1 hitem
      -- the graph it was registered with is still the one of its key
      have hlater := (fresh_append.1 hf).2.versions (K := .requirements) (by simp [ResourceKind.mem_all]) hg'
      rw [← registerAll_append] at hlater
      have hsame := (hc.latest .requirements (by simp [ResourceKind.mem_all]) _ g hg).2
      obtain rfl : g' = g := Option.some.inj (hlater.symm.trans hsame)
      exact decision_mem_items_replicated hc hsub hg hy rfl
    | form f =>
      rcases ResourceKind.mem_all.1 hK with rfl | rfl | rfl | rfl | rfl <;> cases hitem
      exact hplain (.form f) (mem_replicated.2 (Or.inr (Or.inr ⟨_, f, hr, rfl⟩))) fun _ => rfl
    | generic x => cases hr

end Definitions

end NanoBpm
