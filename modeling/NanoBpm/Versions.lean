import Mathlib.Data.List.Induction
import Mathlib.Data.List.Nodup
import NanoBpm.Definitions

/-!
# Versions of deployed resources (`engine/mod.rs:1290-1314`, `:1441-1740`)

A deployment gives every resource a new key and the version after the latest one of its id, and a decision comes after its
graph. A sequence that was deployed so numbers the versions of an id from 1 on, and its tables can be rebuilt from copies of
it, in any order and any number of each, as long as no decision comes only before its graph.
-/

namespace NanoBpm

def Resource.kind : Resource → ResourceKind
  | .process _ => .process
  | .requirements _ => .requirements
  | .decision .. => .decision
  | .form _ => .form
  | .generic _ => .generic

namespace ResourceKind

variable (K : ResourceKind)

/-- The item comes under a new key, with the version after the latest one of its id. -/
def Next (d : Definitions) (x : K.Item) : Prop :=
  (K.versions d)[K.key x]? = none ∧ K.version x = ((K.latest d)[K.id x]?.map K.version).getD 0 + 1

theorem items_append (d : Definitions) (rs qs : List Resource) :
    K.items d (rs ++ qs) = K.items d rs ++ K.items (d.registerAll rs) qs := by
  induction rs generalizing d with
  | nil => rfl
  | cons r rs ih => simp [items, ih]

/-- The versions of an id, in the order in which they are added. -/
def versionsOf (d : Definitions) (rs : List Resource) (i : String) : List Int :=
  ((K.items d rs).filter fun x => K.id x = i).map K.version

/-- The item is one of those that a table can hold of some resources. -/
def Of (d : Definitions) (rs : List Resource) (x : K.Item) : Prop := ∃ r ∈ rs, K.item d r = some x

variable {K}

/-- Only a decision depends on what is there: it takes its graph along. -/
theorem item_eq_of_graphs {d d' : Definitions} (hK : K ∈ all) {r : Resource} {x : K.Item}
    (hgraphs : ∀ (k : Key) (g : DeployedDrg), d.decisionRequirementsVersions[k]? = some g →
      d'.decisionRequirementsVersions[k]? = some g) (h : K.item d r = some x) : K.item d' r = some x := by
  rcases mem_all.mp hK with rfl | rfl | rfl | rfl | rfl
  case inr.inr.inl =>
    cases r with
    | decision requirementsKey key decisionId decisionName version =>
      obtain ⟨g, hg, rfl⟩ := Option.map_eq_some_iff.mp h
      exact Option.map_eq_some_iff.mpr ⟨g, hgraphs _ g hg, rfl⟩
    | _ => cases h
  all_goals exact h

theorem kind_of_item (hK : K ∈ all) {d : Definitions} {r : Resource} {x : K.Item} (h : K.item d r = some x) :
    r.kind = K := by
  rcases mem_all.mp hK with rfl | rfl | rfl | rfl | rfl <;> cases r <;> first | rfl | cases h

end ResourceKind

namespace Definitions

/-- The definitions that some resources make, one after the other. -/
def ofResources (rs : List Resource) : Definitions := (State.definitions {}).registerAll rs

/-- The resource is registered, and every item it becomes is the next one of its id. -/
def Deploys (d : Definitions) (r : Resource) : Prop :=
  (∃ K ∈ ResourceKind.all, ∃ x, K.item d r = some x) ∧ ∀ K ∈ ResourceKind.all, ∀ x, K.item d r = some x → K.Next d x

/-- The resources are deployed one after the other. -/
def Deployed (d : Definitions) : List Resource → Prop
  | [] => True
  | r :: rs => d.Deploys r ∧ (d.register r).Deployed rs

theorem deployed_append {d : Definitions} {rs qs : List Resource} :
    d.Deployed (rs ++ qs) ↔ d.Deployed rs ∧ (d.registerAll rs).Deployed qs := by
  induction rs generalizing d with
  | nil => simp [Deployed]
  | cons r rs ih => simp [Deployed, ih, and_assoc]

theorem Deployed.fresh {d : Definitions} {rs : List Resource} (h : d.Deployed rs) : d.Fresh rs := by
  induction rs generalizing d with
  | nil => trivial
  | cons r rs ih => exact ⟨fun K hK x hx => (h.1.2 K hK x hx).1, ih h.2⟩

/-- What comes under new keys is found under them to the end. -/
theorem Fresh.versions_of_mem {d : Definitions} {rs : List Resource} (h : d.Fresh rs) {K : ResourceKind}
    (hK : K ∈ ResourceKind.all) {x : K.Item} (hx : x ∈ K.items d rs) :
    (K.versions (d.registerAll rs))[K.key x]? = some x := by
  obtain ⟨pre, r, post, rfl, hitem⟩ := K.mem_items.mp hx
  obtain ⟨-, hr, hpost⟩ := fresh_append.mp h
  rw [registerAll_append, registerAll_cons]
  refine Fresh.versions hpost hK ?_
  rw [K.versions_register, hitem]
  show (Latest.offer _ _ _ _)[_]? = _
  rw [Latest.getElem?_offer, if_pos rfl, hr K hK x hitem]
  rfl

section deployed

variable {K : ResourceKind} {rs : List Resource}

theorem getElem?_latest_empty (hK : K ∈ ResourceKind.all) : K.latest (State.definitions {}) = ∅ := by
  rcases ResourceKind.mem_all.mp hK with rfl | rfl | rfl | rfl | rfl <;> rfl

theorem getElem?_versions_empty (hK : K ∈ ResourceKind.all) : K.versions (State.definitions {}) = ∅ := by
  rcases ResourceKind.mem_all.mp hK with rfl | rfl | rfl | rfl | rfl <;> rfl

theorem latest_ofResources (hK : K ∈ ResourceKind.all) (rs : List Resource) :
    K.latest (ofResources rs) = (K.items (State.definitions {}) rs).foldl (Latest.offer K.version K.id) ∅ := by
  rw [ofResources, K.latest_registerAll, getElem?_latest_empty hK]

theorem versions_ofResources (hK : K ∈ ResourceKind.all) (rs : List Resource) :
    K.versions (ofResources rs) = (K.items (State.definitions {}) rs).foldl (Latest.offer (fun _ => ()) K.key) ∅ := by
  rw [ofResources, K.versions_registerAll, getElem?_versions_empty hK]

/-- The versions of an id are numbered from 1, and the latest one has the last number. -/
theorem Deployed.versionsOf (h : (State.definitions {}).Deployed rs) (hK : K ∈ ResourceKind.all) (i : String) :
    ∃ n : Nat, K.versionsOf (State.definitions {}) rs i = ((List.range n).map fun k : Nat => (k : Int) + 1) ∧
      ((K.latest (ofResources rs))[i]?.map K.version).getD 0 = n := by
  induction rs using List.reverseRecOn with
  | nil => exact ⟨0, rfl, by rw [latest_ofResources hK]; rfl⟩
  | append_singleton rs r ih =>
    obtain ⟨hrs, hr, -⟩ := deployed_append.mp h
    obtain ⟨n, hn, hlatest⟩ := ih hrs
    have hregister : ofResources (rs ++ [r]) = (ofResources rs).register r := by
      rw [ofResources, registerAll_append]
      rfl
    have hitems : K.items (State.definitions {}) (rs ++ [r]) =
        K.items (State.definitions {}) rs ++ (K.item (ofResources rs) r).toList := by
      rw [K.items_append]
      simp [ResourceKind.items, ofResources]
    simp only [ResourceKind.versionsOf, hitems, hregister, K.latest_register, List.filter_append, List.map_append] at hn ⊢
    rw [hn]
    cases hitem : K.item (ofResources rs) r with
    | none => exact ⟨n, by simp, hlatest⟩
    | some x =>
      have hversion := (hr.2 K hK x hitem).2
      show ∃ m : Nat, _ ∧ ((Latest.offer _ _ _ _)[i]?.map _).getD 0 = _
      rw [Latest.getElem?_offer]
      by_cases hid : K.id x = i
      · -- the item is the next version of this id
        subst hid
        rw [show (State.definitions {}).registerAll rs = ofResources rs from rfl, hlatest] at hversion
        refine ⟨n + 1, by simp [List.range_succ, hversion], ?_⟩
        rw [if_pos rfl]
        cases hold : (K.latest (ofResources rs))[K.id x]? with
        | none => simp [Latest.keep, hversion]
        | some y =>
          have hy : K.version y = n := by simpa [hold] using hlatest
          have hle : K.version y ≤ K.version x := by omega
          show ((if K.version y ≤ K.version x then some x else some y).map K.version).getD 0 = _
          rw [if_pos hle]
          exact hversion
      · rw [if_neg hid]
        exact ⟨n, by simp [hid], hlatest⟩

/-- No two items of an id have the same version. -/
theorem Deployed.version_inj (h : (State.definitions {}).Deployed rs) (hK : K ∈ ResourceKind.all) {x y : K.Item}
    (hx : x ∈ K.items (State.definitions {}) rs) (hy : y ∈ K.items (State.definitions {}) rs) (hid : K.id x = K.id y)
    (hversion : K.version x = K.version y) : x = y := by
  obtain ⟨n, hn, -⟩ := h.versionsOf hK (K.id y)
  have hnodup : (((K.items (State.definitions {}) rs).filter fun z => K.id z = K.id y).map K.version).Nodup := by
    rw [ResourceKind.versionsOf] at hn
    rw [hn]
    exact List.nodup_range.map fun a b hab => by omega
  exact List.inj_on_of_nodup_map hnodup (List.mem_filter.mpr ⟨hx, by simp [hid]⟩)
    (List.mem_filter.mpr ⟨hy, by simp⟩) hversion

/-- No two items have the same key. -/
theorem Deployed.key_inj (h : (State.definitions {}).Deployed rs) (hK : K ∈ ResourceKind.all) {x y : K.Item}
    (hx : x ∈ K.items (State.definitions {}) rs) (hy : y ∈ K.items (State.definitions {}) rs) (hkey : K.key x = K.key y) :
    x = y := by
  have hx' := h.fresh.versions_of_mem hK hx
  rw [hkey, h.fresh.versions_of_mem hK hy] at hx'
  exact (Option.some.inj hx').symm

/-- The items are those that the resources have in the end. -/
theorem Deployed.of_iff (h : (State.definitions {}).Deployed rs) (hK : K ∈ ResourceKind.all) {x : K.Item} :
    K.Of (ofResources rs) rs x ↔ x ∈ K.items (State.definitions {}) rs := by
  have hlater : ∀ {pre post : List Resource} {r : Resource} {K : ResourceKind} {x : K.Item}, K ∈ ResourceKind.all →
      rs = pre ++ r :: post → K.item (ofResources pre) r = some x → K.item (ofResources rs) r = some x := by
    rintro pre post r K x hK rfl hx
    refine ResourceKind.item_eq_of_graphs hK (fun k g hg => ?_) hx
    have hpost := (fresh_append.mp h.fresh).2.versions (K := .requirements) (by simp [ResourceKind.mem_all]) hg
    rwa [← registerAll_append] at hpost
  constructor
  · rintro ⟨r, hr, hx⟩
    obtain ⟨pre, post, hsplit⟩ := List.append_of_mem hr
    obtain ⟨-, ⟨⟨K', hK', x', hx'⟩, -⟩, -⟩ := deployed_append.mp (hsplit ▸ h)
    refine K.mem_items.mpr ⟨pre, r, post, hsplit, ?_⟩
    obtain rfl : K' = K := (ResourceKind.kind_of_item hK' hx').symm.trans (ResourceKind.kind_of_item hK hx)
    rw [← hx, hlater hK hsplit hx']
    exact hx'
  · intro hx
    obtain ⟨pre, r, post, hsplit, hitem⟩ := K.mem_items.mp hx
    exact ⟨r, by simp [hsplit], hlater hK hsplit hitem⟩

theorem Deployed.graphs_sub (h : (State.definitions {}).Deployed rs) {qs : List Resource} (hsub : ∀ r ∈ qs, r ∈ rs)
    {k : Key} {g : DeployedDrg} (hg : (ofResources qs).decisionRequirementsVersions[k]? = some g) :
    (ofResources rs).decisionRequirementsVersions[k]? = some g := by
  have hkind : ResourceKind.requirements ∈ ResourceKind.all := by simp [ResourceKind.mem_all]
  change (ResourceKind.requirements.versions (ofResources qs))[k]? = some g at hg
  rw [versions_ofResources hkind] at hg
  rcases Latest.mem_of_foldl_offer hg with hnone | ⟨hmem, rfl⟩
  · exact absurd (hnone.symm.trans Std.ExtTreeMap.getElem?_empty) (by simp)
  · refine h.fresh.versions_of_mem hkind ((h.of_iff hkind).mp ?_)
    obtain ⟨pre, r, post, rfl, hitem⟩ := ResourceKind.requirements.mem_items.mp hmem
    exact ⟨r, hsub r (by simp), hitem⟩

end deployed

/-! ## Copies in any order -/

/-- The tables hold the items that some resources have in `D`: all of them by their keys, and the newest of every id. -/
structure Tabulates (D : Definitions) (rs : List Resource) (d : Definitions) : Prop where
  versions : ∀ K ∈ ResourceKind.all, ∀ (k : Key) (x : K.Item), (K.versions d)[k]? = some x ↔ K.Of D rs x ∧ K.key x = k
  latest : ∀ K ∈ ResourceKind.all, ∀ (i : String) (x : K.Item), (K.latest d)[i]? = some x ↔
    K.Of D rs x ∧ K.id x = i ∧ ∀ y, K.Of D rs y → K.id y = i → K.version y ≤ K.version x

/-- Tables of the same resources are the same. -/
theorem Tabulates.eq {D d d' : Definitions} {rs qs : List Resource} (h : D.Tabulates rs d) (h' : D.Tabulates qs d')
    (hsame : ∀ r, r ∈ qs ↔ r ∈ rs) : d = d' := by
  have hof : ∀ (K : ResourceKind) (x : K.Item), K.Of D qs x ↔ K.Of D rs x := fun K x => by
    simp only [ResourceKind.Of, hsame]
  refine ext_kinds fun K hK => ⟨Std.ExtTreeMap.ext_getElem? fun i => Option.ext fun x => ?_,
    Std.ExtTreeMap.ext_getElem? fun k => Option.ext fun x => ?_⟩
  · rw [h.latest K hK, h'.latest K hK]
    simp only [hof]
  · rw [h.versions K hK, h'.versions K hK, hof]

end Definitions

/-- The key of the graph that the resource is a decision of. -/
def Resource.graphKey : Resource → Option Key
  | .decision requirementsKey .. => some requirementsKey
  | _ => none

/-- Every decision comes, at least once, after its graph. -/
def GraphsFirst (rs : List Resource) : Prop :=
  ∀ r ∈ rs, ∀ requirementsKey, r.graphKey = some requirementsKey →
    ∃ pre post, rs = pre ++ r :: post ∧ ∃ g : DeployedDrg, .requirements g ∈ pre ∧ g.key = requirementsKey

theorem GraphsFirst.append {rs qs : List Resource} (h : GraphsFirst rs) (h' : GraphsFirst qs) : GraphsFirst (rs ++ qs) := by
  intro r hr requirementsKey hkey
  rcases List.mem_append.mp hr with hr | hr
  · obtain ⟨pre, post, rfl, g, hg, hgkey⟩ := h r hr requirementsKey hkey
    exact ⟨pre, post ++ qs, by simp, g, hg, hgkey⟩
  · obtain ⟨pre, post, rfl, g, hg, hgkey⟩ := h' r hr requirementsKey hkey
    exact ⟨rs ++ pre, post, by simp, g, by simp [hg], hgkey⟩

namespace Definitions

variable {rs qs : List Resource}

/-- A graph that is among some resources is found under its key. -/
theorem getElem?_graphs_isSome {g : DeployedDrg} (hg : .requirements g ∈ qs) :
    ∃ g' : DeployedDrg, (ofResources qs).decisionRequirementsVersions[g.key]? = some g' := by
  have hkind : ResourceKind.requirements ∈ ResourceKind.all := by simp [ResourceKind.mem_all]
  obtain ⟨pre, post, rfl⟩ := List.append_of_mem hg
  show ∃ g', (ResourceKind.requirements.versions (ofResources (pre ++ .requirements g :: post)))[g.key]? = some g'
  rw [versions_ofResources hkind]
  exact Latest.exists_of_mem_foldl_offer _ _ _ (ResourceKind.requirements.mem_items.mpr ⟨pre, .requirements g, post, rfl, rfl⟩)

/-- A decision that is registered has its graph before it. -/
theorem exists_graph_of_item {pre : List Resource} {r : Resource} {requirementsKey : Key} {x : DeployedDecision}
    (hgraph : r.graphKey = some requirementsKey) (hx : ResourceKind.decision.item (ofResources pre) r = some x) :
    ∃ g : DeployedDrg, .requirements g ∈ pre ∧ g.key = requirementsKey := by
  have hkind : ResourceKind.requirements ∈ ResourceKind.all := by simp [ResourceKind.mem_all]
  cases r with
  | decision =>
    cases hgraph
    obtain ⟨g, hg, rfl⟩ := Option.map_eq_some_iff.mp hx
    change (ResourceKind.requirements.versions (ofResources pre))[requirementsKey]? = some g at hg
    rw [versions_ofResources hkind] at hg
    rcases Latest.mem_of_foldl_offer hg with hnone | ⟨hmem, hkey⟩
    · exact absurd (hnone.symm.trans Std.ExtTreeMap.getElem?_empty) (by simp)
    · obtain ⟨before, r, after, rfl, hitem⟩ := ResourceKind.requirements.mem_items.mp hmem
      refine ⟨g, ?_, hkey⟩
      cases r with
      | requirements g' => cases hitem; simp
      | _ => cases hitem
  | _ => cases hgraph

/-- What a decision becomes says which decision it was. -/
theorem eq_of_decision_item {d d' : Definitions} {r r' : Resource} {x : DeployedDecision}
    (h : ResourceKind.decision.item d r = some x) (h' : ResourceKind.decision.item d' r' = some x) : r = r' := by
  cases r with
  | decision =>
    cases r' with
    | decision =>
      obtain ⟨g, -, rfl⟩ := Option.map_eq_some_iff.mp h
      obtain ⟨g', -, heq⟩ := Option.map_eq_some_iff.mp h'
      rw [DeployedDecision.mk.injEq] at heq
      obtain ⟨rfl, rfl, rfl, rfl, rfl, -⟩ := heq
      rfl
    | _ => cases h'
  | _ => cases h

/-- Copies of deployed resources, in whatever order, make the tables of what was deployed exactly if every decision has its
graph before it once. -/
theorem Deployed.tabulates_iff (h : (State.definitions {}).Deployed rs) (hsub : ∀ r ∈ qs, r ∈ rs) :
    (ofResources rs).Tabulates qs (ofResources qs) ↔ GraphsFirst qs := by
  have hof : ∀ {K : ResourceKind}, K ∈ ResourceKind.all → ∀ {x : K.Item}, K.Of (ofResources rs) qs x →
      x ∈ K.items (State.definitions {}) rs := by
    rintro K hK x ⟨r, hr, hx⟩
    exact (h.of_iff hK).mp ⟨r, hsub r hr, hx⟩
  constructor
  · intro htables r hr requirementsKey hgraph
    have hdecision : ResourceKind.decision ∈ ResourceKind.all := by simp [ResourceKind.mem_all]
    -- it has an item among those deployed, and that is in the table by its key
    obtain ⟨before, after, hsplit⟩ := List.append_of_mem (hsub r hr)
    obtain ⟨-, ⟨⟨K, hK, x, hx⟩, -⟩, -⟩ := deployed_append.mp (hsplit ▸ h)
    obtain rfl : .decision = K := by
      rw [← ResourceKind.kind_of_item hK hx]
      cases r <;> first | rfl | cases hgraph
    have hmem : x ∈ ResourceKind.decision.items (State.definitions {}) rs :=
      ResourceKind.decision.mem_items.mpr ⟨before, r, after, hsplit, hx⟩
    obtain ⟨r', hr', hx'⟩ := (h.of_iff hdecision).mpr hmem
    obtain rfl := eq_of_decision_item hx hx'
    have hheld := (htables.versions .decision hdecision _ x).mpr ⟨⟨r, hr, hx'⟩, rfl⟩
    rw [versions_ofResources hdecision] at hheld
    rcases Latest.mem_of_foldl_offer hheld with hnone | ⟨hitems, -⟩
    · exact absurd (hnone.symm.trans Std.ExtTreeMap.getElem?_empty) (by simp)
    · obtain ⟨pre, r', post, hqs, hitem⟩ := ResourceKind.decision.mem_items.mp hitems
      obtain rfl := eq_of_decision_item hx hitem
      exact ⟨pre, post, hqs, exists_graph_of_item hgraph hitem⟩
  · intro hfirst
    have hitems : ∀ {K : ResourceKind}, K ∈ ResourceKind.all → ∀ {x : K.Item},
        x ∈ K.items (State.definitions {}) qs ↔ K.Of (ofResources rs) qs x := by
      intro K hK x
      constructor
      · intro hx
        obtain ⟨pre, r, post, rfl, hitem⟩ := K.mem_items.mp hx
        have hpre : ∀ q ∈ pre, q ∈ rs := fun q hq => hsub q (by simp [hq])
        exact ⟨r, by simp, ResourceKind.item_eq_of_graphs hK (fun _ _ hg => h.graphs_sub hpre hg) hitem⟩
      · rintro ⟨r, hr, hx⟩
        cases hgraph : r.graphKey with
        | none =>
          obtain ⟨pre, post, hsplit⟩ := List.append_of_mem hr
          refine K.mem_items.mpr ⟨pre, r, post, hsplit, ?_⟩
          rcases ResourceKind.mem_all.mp hK with rfl | rfl | rfl | rfl | rfl
          case inr.inr.inl => cases r <;> first | cases hx | cases hgraph
          all_goals exact hx
        | some requirementsKey =>
          obtain ⟨pre, post, hsplit, g, hg, rfl⟩ := hfirst r hr _ hgraph
          refine K.mem_items.mpr ⟨pre, r, post, hsplit, ?_⟩
          obtain ⟨g', hg'⟩ := getElem?_graphs_isSome hg
          have hpre : ∀ q ∈ pre, q ∈ rs := fun q hq => hsub q (by simp [hsplit, hq])
          have hD := h.graphs_sub hpre hg'
          cases r with
          | decision requirementsKey key decisionId decisionName version =>
            cases hgraph
            obtain rfl : K = .decision := (ResourceKind.kind_of_item hK hx).symm
            obtain ⟨g'', hg'', rfl⟩ := Option.map_eq_some_iff.mp hx
            rw [hD, Option.some.injEq] at hg''
            exact Option.map_eq_some_iff.mpr ⟨g', hg', by rw [hg'']⟩
          | _ => cases hgraph
    constructor
    · intro K hK k x
      rw [versions_ofResources hK, Latest.getElem?_foldl_offer_iff]
      · simp [hitems hK]
      · intro x hx y hy hkey _
        exact h.key_inj hK (hof hK ((hitems hK).mp hx)) (hof hK ((hitems hK).mp hy)) hkey
    · intro K hK i x
      rw [latest_ofResources hK, Latest.getElem?_foldl_offer_iff]
      · simp only [hitems hK]
      · intro x hx y hy hid hversion
        exact h.version_inj hK (hof hK ((hitems hK).mp hx)) (hof hK ((hitems hK).mp hy)) hid hversion

end Definitions

end NanoBpm
