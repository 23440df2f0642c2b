import NanoBpm.Lib.Index

/-!
# Tables whose records carry their key

`Filed key m` says that every record of the table `m` stands under the key it names. Such a table can be taken apart by
any predicate on its records and put together again from the records alone, which is what `Filed.refill` states. The
last section is about tables of sets: two of them with the same members and no empty set are equal.
-/

section

variable {κ β : Type} {cmp : κ → κ → Ordering} [Std.TransCmp cmp] [Std.LawfulEqCmp cmp]

/-- Every record is filed under the key it names. -/
def Filed (key : β → κ) (m : Std.ExtTreeMap κ β cmp) : Prop := ∀ (k : κ) (v : β), m[k]? = some v → key v = k

variable {key : β → κ} {m : Std.ExtTreeMap κ β cmp}

omit [Std.LawfulEqCmp cmp] in
theorem Filed.empty : Filed key (∅ : Std.ExtTreeMap κ β cmp) := by
  intro k v h
  simp at h

theorem Filed.insert (h : Filed key m) {k₀ : κ} {v : β} (hv : key v = k₀) : Filed key (m.insert k₀ v) := by
  intro k w hw
  rw [Std.ExtTreeMap.getElem?_insert] at hw
  split at hw
  · next e =>
    rw [← Option.some.inj hw, hv]
    exact Std.LawfulEqCmp.eq_of_compare e
  · exact h k w hw

theorem Filed.modify (h : Filed key m) (k₀ : κ) {f : β → β} (hf : ∀ v, key (f v) = key v) : Filed key (m.modify k₀ f) := by
  intro k w hw
  rw [Std.ExtTreeMap.getElem?_modify] at hw
  split at hw
  · next e =>
    obtain ⟨v, hv, rfl⟩ := Option.map_eq_some_iff.1 hw
    rw [hf v, h k₀ v hv]
    exact Std.LawfulEqCmp.eq_of_compare e
  · exact h k w hw

theorem Filed.map (h : Filed key m) {f : κ → β → β} (hf : ∀ k v, key (f k v) = key v) : Filed key (m.map f) := by
  intro k w hw
  rw [Std.ExtTreeMap.getElem?_map] at hw
  obtain ⟨v, hv, rfl⟩ := Option.map_eq_some_iff.1 hw
  rw [hf k v]
  exact h k v hv

theorem Filed.filter (h : Filed key m) (p : κ → β → Bool) : Filed key (m.filter p) := by
  intro k w hw
  rw [Std.ExtTreeMap.getElem?_filter', Option.filter_eq_some_iff] at hw
  exact h k w hw.1

theorem Filed.insertAll (h : Filed key m) (vs : List β) : Filed key (vs.foldl (fun m v => m.insert (key v) v) m) := by
  induction vs generalizing m with
  | nil => exact h
  | cons v vs ih => exact ih (h.insert rfl)

/-- Taking the records that satisfy `p` out of the table and filing them again gives the table back. -/
theorem Filed.refill [DecidableEq κ] (h : Filed key m) (p : β → Bool) :
    (m.filter fun _ v => p v).vals.foldl (fun m v => m.insert (key v) v) (m.filter fun _ v => !p v) = m := by
  have hmem : ∀ v, v ∈ (m.filter fun _ v => p v).vals ↔ m[key v]? = some v ∧ p v = true := by
    intro v
    simp only [Std.ExtTreeMap.mem_vals, Std.ExtTreeMap.getElem?_filter', Option.filter_eq_some_iff]
    constructor
    · rintro ⟨k, hk, hp⟩
      rw [h k v hk]
      exact ⟨hk, hp⟩
    · rintro ⟨hk, hp⟩
      exact ⟨key v, hk, hp⟩
  have hfold := Std.ExtTreeMap.getElem?_foldl_insert (fun k => m[k]?)
    ((m.filter fun _ v => p v).vals.map fun v => (key v, v)) (m.filter fun _ v => !p v) (by
      intro e he
      obtain ⟨v, hv, rfl⟩ := List.mem_map.1 he
      exact ((hmem v).1 hv).1)
  rw [List.foldl_map] at hfold
  refine Std.ExtTreeMap.ext_getElem? fun k => (hfold k).trans ?_
  split
  · rfl
  · next hk =>
    rw [Std.ExtTreeMap.getElem?_filter']
    cases hv : m[k]? with
    | none => rfl
    | some v =>
      have hp : p v = false := by
        refine Bool.eq_false_iff.2 fun hp => hk ?_
        rw [List.map_map]
        refine List.mem_map.2 ⟨v, (hmem v).2 ⟨?_, hp⟩, h k v hv⟩
        rw [h k v hv]
        exact hv
      simp [hp]

end

namespace SetTable

variable {κ α : Type} {cmp : κ → κ → Ordering} [Std.TransCmp cmp] [Std.LawfulEqCmp cmp]
  {cmp' : α → α → Ordering} [Std.TransCmp cmp'] [Std.LawfulEqCmp cmp']

/-- No key of the table holds the empty set. -/
def NoEmpty (m : Std.ExtTreeMap κ (Std.ExtTreeSet α cmp') cmp) : Prop :=
  ∀ (k : κ) (set : Std.ExtTreeSet α cmp'), m[k]? = some set → set.isEmpty = false

omit [Std.LawfulEqCmp cmp] [Std.TransCmp cmp'] [Std.LawfulEqCmp cmp'] in
theorem NoEmpty.erase {m : Std.ExtTreeMap κ (Std.ExtTreeSet α cmp') cmp} (h : NoEmpty m) (k₀ : κ) :
    NoEmpty (m.erase k₀) := by
  intro k set hset
  rw [Std.ExtTreeMap.getElem?_erase] at hset
  split at hset
  · cases hset
  · exact h k set hset

omit [Std.LawfulEqCmp cmp] [Std.LawfulEqCmp cmp'] in
theorem NoEmpty.insert {m : Std.ExtTreeMap κ (Std.ExtTreeSet α cmp') cmp} (h : NoEmpty m) (k₀ : κ)
    (s : Std.ExtTreeSet α cmp') (x : α) : NoEmpty (m.insert k₀ (s.insert x)) := by
  intro k set hset
  rw [Std.ExtTreeMap.getElem?_insert] at hset
  split at hset
  · obtain rfl := Option.some.inj hset
    simp
  · exact h k set hset

/-- Without empty sets a table is determined by what its sets hold. -/
theorem ext_of_mem {m m' : Std.ExtTreeMap κ (Std.ExtTreeSet α cmp') cmp} (hm : NoEmpty m) (hm' : NoEmpty m')
    (h : ∀ (k : κ) (x : α), x ∈ m[k]?.getD ∅ ↔ x ∈ m'[k]?.getD ∅) : m = m' := by
  have absent : ∀ {m m' : Std.ExtTreeMap κ (Std.ExtTreeSet α cmp') cmp}, NoEmpty m →
      (∀ (k : κ) (x : α), x ∈ m[k]?.getD ∅ ↔ x ∈ m'[k]?.getD ∅) → ∀ k : κ, m'[k]? = none → m[k]? = none := by
    intro m m' hm h k hk
    cases hset : m[k]? with
    | none => rfl
    | some set =>
      have hempty : set = ∅ := Std.ExtTreeSet.ext_mem fun x => by simpa [hset, hk] using h k x
      have hne := hm k set hset
      simp [hempty] at hne
  refine Std.ExtTreeMap.ext_getElem? fun k => ?_
  cases hset : m[k]? with
  | none => exact (absent hm' (fun k x => (h k x).symm) k hset).symm
  | some set =>
    cases hset' : m'[k]? with
    | none =>
      rw [absent hm h k hset'] at hset
      cases hset
    | some set' =>
      have heq : set = set' := Std.ExtTreeSet.ext_mem fun x => by simpa [hset, hset'] using h k x
      rw [heq]

end SetTable
