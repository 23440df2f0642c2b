import NanoBpm.Lib.Index
import Mathlib.Data.List.Perm.Basic
import Mathlib.Data.List.Nodup

/-!
# The values of a finite table

What an insertion, a removal or a modification at one key does to the list of values.
-/

namespace Std.ExtTreeMap

variable {κ β : Type} {cmp : κ → κ → Ordering} [Std.TransCmp cmp] [Std.LawfulEqCmp cmp]

/-- The values of a table whose records carry their key have distinct keys. -/
theorem nodup_map_vals {m : Std.ExtTreeMap κ β cmp} {key : β → κ} (h : ∀ (k : κ) (v : β), m[k]? = some v → key v = k) :
    (m.vals.map key).Nodup := by
  have hkeys : m.vals.map key = m.keys := by
    rw [vals, List.map_map, ← map_fst_toList_eq_keys]
    refine List.map_congr_left fun entry hentry => ?_
    exact h entry.1 entry.2 (mem_toList_iff_getElem?_eq_some.mp hentry)
  rw [hkeys]
  exact nodup_keys

/-- An entry of a modified map comes from an entry of the map. -/
theorem of_getElem?_modify {m : Std.ExtTreeMap κ β cmp} {k k' : κ} {f : β → β} {v : β} (h : (m.modify k f)[k']? = some v) :
    ∃ w, m[k']? = some w ∧ (v = f w ∧ k = k' ∨ v = w) := by
  rw [getElem?_modify] at h
  split at h
  · next heq =>
    obtain ⟨w, hw, rfl⟩ := Option.map_eq_some_iff.mp h
    have hk := Std.LawfulEqCmp.compare_eq_iff_eq.mp heq
    exact ⟨w, hk ▸ hw, .inl ⟨rfl, hk⟩⟩
  · exact ⟨v, h, .inr rfl⟩

omit [Std.LawfulEqCmp cmp] in
theorem nodup_entries (m : Std.ExtTreeMap κ β cmp) : m.toList.Nodup := by
  have h : (m.toList.map (·.1)).Nodup := by
    rw [map_fst_toList_eq_keys]
    exact nodup_keys
  exact h.of_map

/-- The value under a key, and the values under the other keys. -/
theorem perm_vals_of_getElem? {m : Std.ExtTreeMap κ β cmp} {k : κ} {v : β} (h : m[k]? = some v) :
    m.vals.Perm (v :: (m.erase k).vals) := by
  have hentries : m.toList.Perm ((k, v) :: (m.erase k).toList) := by
    refine (List.perm_ext_iff_of_nodup (nodup_entries _) (List.nodup_cons.mpr ⟨?_, nodup_entries _⟩)).mpr ?_
    · simp [mem_toList_iff_getElem?_eq_some]
    · rintro ⟨k', v'⟩
      simp only [mem_toList_iff_getElem?_eq_some, List.mem_cons, Prod.mk.injEq, getElem?_erase]
      by_cases hk : cmp k k' = .eq
      · obtain rfl := Std.LawfulEqCmp.eq_of_compare hk
        simp [h, eq_comm]
      · have hne : k' ≠ k := fun heq => hk (heq ▸ Std.ReflCmp.compare_self)
        simp [hk, hne]
  exact hentries.map _

theorem erase_of_getElem?_eq_none {m : Std.ExtTreeMap κ β cmp} {k : κ} (h : m[k]? = none) : m.erase k = m := by
  refine ext_getElem? fun k' => ?_
  rw [getElem?_erase]
  split
  · next hk => rw [← Std.LawfulEqCmp.eq_of_compare hk, h]
  · rfl

theorem erase_insert (m : Std.ExtTreeMap κ β cmp) (k : κ) (v : β) : (m.insert k v).erase k = m.erase k := by
  refine ext_getElem? fun k' => ?_
  rw [getElem?_erase, getElem?_erase, getElem?_insert]
  split <;> rfl

theorem perm_vals_insert (m : Std.ExtTreeMap κ β cmp) (k : κ) (v : β) :
    (m.insert k v).vals.Perm (v :: (m.erase k).vals) := by
  have h := perm_vals_of_getElem? (m := m.insert k v) getElem?_insert_self
  rwa [erase_insert] at h

theorem modify_of_getElem?_eq_none {m : Std.ExtTreeMap κ β cmp} {k : κ} (h : m[k]? = none) (f : β → β) : m.modify k f = m := by
  refine ext_getElem? fun k' => ?_
  rw [getElem?_modify]
  split
  · next hk => rw [← Std.LawfulEqCmp.eq_of_compare hk, h]; rfl
  · rfl

theorem modify_of_getElem? {m : Std.ExtTreeMap κ β cmp} {k : κ} {v : β} (h : m[k]? = some v) (f : β → β) :
    m.modify k f = m.insert k (f v) := by
  refine ext_getElem? fun k' => ?_
  rw [getElem?_modify, getElem?_insert]
  split
  · rw [h]; rfl
  · rfl

/-- A modification that leaves `g` alone. -/
theorem perm_map_vals_modify {γ : Type} {m : Std.ExtTreeMap κ β cmp} {k : κ} {f : β → β} {g : β → γ}
    (h : ∀ v, g (f v) = g v) : ((m.modify k f).vals.map g).Perm (m.vals.map g) := by
  cases hk : m[k]? with
  | none => rw [modify_of_getElem?_eq_none hk]
  | some v =>
    rw [modify_of_getElem? hk]
    refine ((perm_vals_insert m k (f v)).map g).trans (.trans ?_ ((perm_vals_of_getElem? hk).map g).symm)
    rw [List.map_cons, List.map_cons, h v]

/-- In a table whose records carry their key, one value has a given key. -/
theorem filter_vals_eq_toList [BEq κ] [LawfulBEq κ] {m : Std.ExtTreeMap κ β cmp} (key : β → κ)
    (h : ∀ (k : κ) (v : β), m[k]? = some v → key v = k) (k : κ) :
    m.vals.filter (fun v => key v == k) = m[k]?.toList := by
  have hother : ∀ v ∈ (m.erase k).vals, key v ≠ k := by
    intro v hv hkey
    obtain ⟨k', hk'⟩ := mem_vals.mp hv
    rw [getElem?_erase] at hk'
    split at hk'
    · cases hk'
    · next hne =>
      rw [h k' v hk'] at hkey
      exact hne (hkey ▸ Std.ReflCmp.compare_self)
  cases hk : m[k]? with
  | none =>
    rw [← erase_of_getElem?_eq_none hk]
    simpa using hother
  | some v =>
    have hperm := (perm_vals_of_getElem? hk).filter fun v => key v == k
    have hrest : (m.erase k).vals.filter (fun v => key v == k) = [] := by simpa using hother
    rw [List.filter_cons_of_pos (by simp [h k v hk]), hrest] at hperm
    simpa using hperm

end Std.ExtTreeMap
