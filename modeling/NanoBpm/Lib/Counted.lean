import NanoBpm.Lib.Values
import Mathlib.Data.List.Count

/-!
# Tables of counts

How many values of a table have a property, and a second table that keeps such numbers: it has an entry for each key with
something to count, and drops the entry when the number returns to zero.
-/

namespace Std.ExtTreeMap

variable {κ β : Type} {cmp : κ → κ → Ordering} [Std.TransCmp cmp] [Std.LawfulEqCmp cmp]

/-- The value under a key counts once. -/
theorem countP_vals_of_getElem? {m : Std.ExtTreeMap κ β cmp} {k : κ} {v : β} (h : m[k]? = some v) (p : β → Bool) :
    m.vals.countP p = (m.erase k).vals.countP p + if p v then 1 else 0 := by
  rw [(perm_vals_of_getElem? h).countP_eq p, List.countP_cons]

theorem countP_vals_insert (m : Std.ExtTreeMap κ β cmp) (k : κ) (v : β) (p : β → Bool) :
    (m.insert k v).vals.countP p = (m.erase k).vals.countP p + if p v then 1 else 0 := by
  rw [(perm_vals_insert m k v).countP_eq p, List.countP_cons]

/-- A new key adds its value. -/
theorem countP_vals_insert_new {m : Std.ExtTreeMap κ β cmp} {k : κ} (h : m[k]? = none) (v : β) (p : β → Bool) :
    (m.insert k v).vals.countP p = m.vals.countP p + if p v then 1 else 0 := by
  rw [countP_vals_insert, erase_of_getElem?_eq_none h]

/-- A modification exchanges one value. -/
theorem countP_vals_modify {m : Std.ExtTreeMap κ β cmp} {k : κ} {v : β} (h : m[k]? = some v) (f : β → β) (p : β → Bool) :
    (m.modify k f).vals.countP p = (m.erase k).vals.countP p + if p (f v) then 1 else 0 := by
  rw [modify_of_getElem? h, countP_vals_insert]

/-- Tables whose values look alike under every key have as many with a property of the looks. -/
theorem countP_vals_congr {γ : Type} {m m' : Std.ExtTreeMap κ β cmp} {g : β → γ} (h : ∀ k : κ, m[k]?.map g = m'[k]?.map g)
    (q : γ → Bool) : m.vals.countP (fun v => q (g v)) = m'.vals.countP (fun v => q (g v)) := by
  have hvals : ∀ t : Std.ExtTreeMap κ β cmp, t.vals.countP (fun v => q (g v)) = (t.map fun _ v => g v).vals.countP q := by
    intro t
    rw [vals, vals, toList_map, List.map_map, List.countP_map, List.countP_map]
    rfl
  have hmap : (m.map fun _ v => g v) = m'.map fun _ v => g v := by
    refine ext_getElem? fun k => ?_
    rw [getElem?_map, getElem?_map, h k]
  rw [hvals, hvals, hmap]

/-- A part of a table has as many values with the property as the table when it has all of them. -/
theorem countP_vals_of_part {m m' : Std.ExtTreeMap κ β cmp} (hpart : ∀ (k : κ) (v : β), m'[k]? = some v → m[k]? = some v)
    (p : β → Bool) : m'.vals.countP p = m.vals.countP p ↔
      ∀ (k : κ) (v : β), m[k]? = some v → p v = true → m'[k]? = some v := by
  have hlength : ∀ t : Std.ExtTreeMap κ β cmp, t.vals.countP p = (t.toList.filter fun entry => p entry.2).length := by
    intro t
    rw [vals, List.countP_map, List.countP_eq_length_filter]
    rfl
  have hmem : ∀ (t : Std.ExtTreeMap κ β cmp) (k : κ) (v : β),
      (k, v) ∈ t.toList.filter (fun entry => p entry.2) ↔ t[k]? = some v ∧ p v = true := by
    intro t k v
    rw [List.mem_filter, mem_toList_iff_getElem?_eq_some]
  have hnodup : ∀ t : Std.ExtTreeMap κ β cmp, (t.toList.filter fun entry => p entry.2).Nodup :=
    fun t => (nodup_entries t).filter _
  have hsub : (m'.toList.filter fun entry => p entry.2).Subperm (m.toList.filter fun entry => p entry.2) := by
    refine List.subperm_of_subset (hnodup m') fun entry hentry => ?_
    obtain ⟨hv, hp⟩ := (hmem m' entry.1 entry.2).1 hentry
    exact (hmem m entry.1 entry.2).2 ⟨hpart _ _ hv, hp⟩
  rw [hlength, hlength]
  constructor
  · intro heq k v hv hp
    have hperm := hsub.perm_of_length_le (Nat.le_of_eq heq.symm)
    exact ((hmem m' k v).1 (hperm.mem_iff.2 ((hmem m k v).2 ⟨hv, hp⟩))).1
  · intro hall
    refine Nat.le_antisymm hsub.length_le ?_
    refine (List.subperm_of_subset (hnodup m) fun entry hentry => ?_).length_le
    obtain ⟨hv, hp⟩ := (hmem m entry.1 entry.2).1 hentry
    exact (hmem m' entry.1 entry.2).2 ⟨hall _ _ hv hp, hp⟩

end Std.ExtTreeMap

namespace NanoBpm

variable {κ : Type} {cmp : κ → κ → Ordering} [Std.TransCmp cmp] [Std.LawfulEqCmp cmp]

/-- The table holds the numbers, and no entry where there is nothing to count. -/
def Counted (m : Std.ExtTreeMap κ Nat cmp) (n : κ → Nat) : Prop := ∀ k, m[k]? = if n k = 0 then none else some (n k)

namespace Counted

variable {m : Std.ExtTreeMap κ Nat cmp} {n n' : κ → Nat}

omit [Std.LawfulEqCmp cmp] in
theorem empty : Counted (∅ : Std.ExtTreeMap κ Nat cmp) fun _ => 0 := by
  intro k
  simp

omit [Std.LawfulEqCmp cmp] in
theorem congr (h : Counted m n) (hn : ∀ k, n' k = n k) : Counted m n' := by
  intro k
  rw [hn k]
  exact h k

omit [Std.LawfulEqCmp cmp] in
/-- The table determines the numbers. -/
theorem unique (h : Counted m n) (h' : Counted m n') (k : κ) : n k = n' k := by
  have hk := (h k).symm.trans (h' k)
  by_cases hzero : n k = 0 <;> by_cases hzero' : n' k = 0 <;> simp_all

omit [Std.LawfulEqCmp cmp] in
theorem getD (h : Counted m n) (k : κ) : m[k]?.getD 0 = n k := by
  rw [h k]
  split
  · next hzero => exact hzero.symm
  · rfl

/-- One more of one key. -/
theorem succ (h : Counted m n) (k : κ) (hk : n' k = n k + 1) (hother : ∀ k', k' ≠ k → n' k' = n k') :
    Counted (m.insert k (m[k]?.getD 0 + 1)) n' := by
  intro k'
  rw [h.getD, Std.ExtTreeMap.getElem?_insert]
  split
  · next heq =>
    rw [← Std.LawfulEqCmp.eq_of_compare heq, hk]
    simp
  · next hne =>
    have hne' : k' ≠ k := fun heq => hne (heq ▸ Std.ReflCmp.compare_self)
    rw [hother k' hne', h k']

/-- One less of one key, which drops its entry at zero. -/
theorem pred (h : Counted m n) (k : κ) {c : Nat} (hc : m[k]? = some c) (hk : n' k + 1 = n k)
    (hother : ∀ k', k' ≠ k → n' k' = n k') : Counted (if c - 1 = 0 then m.erase k else m.insert k (c - 1)) n' := by
  have hcount : c = n k := by
    rw [h k] at hc
    split at hc
    · cases hc
    · exact (Option.some.inj hc).symm
  have hpred : c - 1 = n' k := by omega
  intro k'
  rw [hpred]
  by_cases heq : k' = k
  · subst heq
    split
    · simp
    · simp
  · have hne : cmp k k' ≠ .eq := fun hcmp => heq (Std.LawfulEqCmp.eq_of_compare hcmp).symm
    rw [hother k' heq, ← h k']
    split
    · simp [Std.ExtTreeMap.getElem?_erase, hne]
    · simp [Std.ExtTreeMap.getElem?_insert, hne]

end Counted

end NanoBpm
