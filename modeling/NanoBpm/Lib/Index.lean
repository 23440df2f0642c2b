import Mathlib.Algebra.Order.Ring.Nat
import Std.Data.ExtTreeMap
import Std.Data.ExtTreeSet

/-!
# Secondary indices over a finite table

A table maps keys to records; an index lists, under each tag, the keys of the records that carry the
tag. `Exact` says that it lists exactly those. One rule, `Exact.set`, covers every operation that
touches a single key; `Exact.congr` covers the operations that change no tag.
-/

/-- The values of a map in key order. -/
def Std.ExtTreeMap.vals {κ β : Type} {cmp : κ → κ → Ordering} [Std.TransCmp cmp] (m : Std.ExtTreeMap κ β cmp) :
    List β :=
  m.toList.map (·.2)

theorem Std.ExtTreeMap.mem_vals {κ β : Type} {cmp : κ → κ → Ordering} [Std.TransCmp cmp] [Std.LawfulEqCmp cmp]
    {m : Std.ExtTreeMap κ β cmp} {v : β} : v ∈ m.vals ↔ ∃ k : κ, m[k]? = some v := by
  simp only [vals, List.mem_map, Prod.exists, mem_toList_iff_getElem?_eq_some]
  exact ⟨fun ⟨k, w, h, e⟩ => ⟨k, e ▸ h⟩, fun ⟨k, h⟩ => ⟨k, v, h, rfl⟩⟩

/-- `any` is a test of the entries in key order. -/
theorem Std.ExtTreeMap.any_eq_any_toList {κ β : Type} {cmp : κ → κ → Ordering} [Std.TransCmp cmp]
    (m : Std.ExtTreeMap κ β cmp) (p : κ → β → Bool) : m.any p = m.toList.any fun e => p e.1 e.2 := by
  have hlist : ∀ entries : List (κ × β), (Id.run (do
      for e in entries do
        if p e.1 e.2 then return true
      return false) : Bool) = entries.any fun e => p e.1 e.2 := by
    intro entries
    induction entries with
    | nil => rfl
    | cons e entries ih =>
      by_cases h : p e.1 e.2 = true
      · simp [h]
      · simpa [h] using ih
  have hloop : m.any p = (Id.run (do
      for e in m do
        if p e.1 e.2 then return true
      return false) : Bool) := by
    obtain ⟨inner⟩ := m
    induction inner using Std.ExtDTreeMap.inductionOn with
    | mk t => rfl
  rw [hloop, ← hlist, Std.ExtTreeMap.forIn_eq_forIn_toList]

/-- Inserting entries that agree with a table: at the keys of the list the map takes the table's values. -/
theorem Std.ExtTreeMap.getElem?_foldl_insert {κ β : Type} [DecidableEq κ] {cmp : κ → κ → Ordering} [Std.TransCmp cmp]
    [Std.LawfulEqCmp cmp] (table : κ → Option β) (entries : List (κ × β)) (m : Std.ExtTreeMap κ β cmp)
    (h : ∀ e ∈ entries, table e.1 = some e.2) (k : κ) :
    (entries.foldl (fun m e => m.insert e.1 e.2) m)[k]? = if k ∈ entries.map (·.1) then table k else m[k]? := by
  induction entries generalizing m with
  | nil => simp
  | cons e entries ih =>
    rw [List.forall_mem_cons] at h
    rw [List.foldl_cons, ih _ h.2, getElem?_insert]
    simp only [List.map_cons, List.mem_cons, Std.LawfulEqCmp.compare_eq_iff_eq]
    by_cases hk : k ∈ entries.map (·.1)
    · rw [if_pos hk, if_pos (Or.inr hk)]
    · by_cases he : e.1 = k
      · subst he
        simp [hk, h.1]
      · have hne : ¬ (k = e.1 ∨ k ∈ entries.map (·.1)) := by
          rintro (heq | hmem)
          · exact he heq.symm
          · exact hk hmem
        rw [if_neg hk, if_neg he, if_neg hne]

namespace Index

variable {κ α τ : Type}

/-- `R t k` holds exactly for the keys `k` whose record carries the tag `t`. -/
def Exact (table : κ → Option α) (tag : α → Option τ) (R : τ → κ → Prop) : Prop :=
  ∀ t k, R t k ↔ (table k).bind tag = some t

/-- Changing records without changing any tag keeps an index exact. -/
theorem Exact.congr {table table' : κ → Option α} {tag : α → Option τ} {R R' : τ → κ → Prop}
    (h : Exact table tag R) (htag : ∀ k, (table' k).bind tag = (table k).bind tag)
    (hR : ∀ t k, R' t k ↔ R t k) : Exact table' tag R' := by
  intro t k
  rw [hR, htag]
  exact h t k

/-- Updating one key: off the key nothing moved, at the key the index follows the new record. -/
theorem Exact.set {table table' : κ → Option α} {tag : α → Option τ} {R R' : τ → κ → Prop} (k₀ : κ)
    (h : Exact table tag R) (htable : ∀ k, k ≠ k₀ → table' k = table k)
    (hoff : ∀ t k, k ≠ k₀ → (R' t k ↔ R t k)) (hat : ∀ t, R' t k₀ ↔ (table' k₀).bind tag = some t) :
    Exact table' tag R' := by
  intro t k
  by_cases hk : k = k₀
  · subst hk
    exact hat t
  · rw [hoff t k hk, htable k hk]
    exact h t k

/-- A duplicate-free list of exactly the keys whose record satisfies `p` is as long as the number of
such records. -/
theorem length_eq_countP {β : Type} {cmp : κ → κ → Ordering} [Std.TransCmp cmp] [Std.LawfulEqCmp cmp]
    (m : Std.ExtTreeMap κ β cmp) (p : β → Bool) (keys : List κ) (hnodup : keys.Nodup)
    (hmem : ∀ k, k ∈ keys ↔ ∃ v, m[k]? = some v ∧ p v = true) : keys.length = m.vals.countP p := by
  have hsub : ((m.toList.filter fun e => p e.2).map (·.1)).Nodup := by
    have hall : (m.toList.map Prod.fst).Nodup := by
      rw [Std.ExtTreeMap.map_fst_toList_eq_keys]
      exact Std.ExtTreeMap.nodup_keys
    exact hall.sublist (List.filter_sublist.map _)
  have hperm : keys.Perm ((m.toList.filter fun e => p e.2).map (·.1)) := by
    rw [List.perm_ext_iff_of_nodup hnodup hsub]
    intro k
    rw [hmem k]
    simp
  rw [hperm.length_eq, List.length_map, Std.ExtTreeMap.vals, List.countP_map, List.countP_eq_length_filter]
  rfl

end Index
