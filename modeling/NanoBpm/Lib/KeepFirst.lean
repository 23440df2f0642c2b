import NanoBpm.Lib.Values

/-!
# Tables that keep what came first

A list of records offered to a table under their slots, where a slot that is taken stays as it is. The
table holds every record of the list exactly when no two of them ask for one slot.
-/

namespace KeepFirst

variable {κ α : Type} {cmp : κ → κ → Ordering} [Std.TransCmp cmp] [Std.LawfulEqCmp cmp] {slot : α → κ}

/-- The records offered in order. -/
def offerAll (slot : α → κ) (xs : List α) (m : Std.ExtTreeMap κ α cmp) : Std.ExtTreeMap κ α cmp :=
  xs.foldl (fun m x => m.insertIfNew (slot x) x) m

omit [Std.LawfulEqCmp cmp] in
theorem offerAll_append (xs ys : List α) (m : Std.ExtTreeMap κ α cmp) :
    offerAll slot (xs ++ ys) m = offerAll slot ys (offerAll slot xs m) := List.foldl_append

theorem getElem?_insertIfNew_eq [DecidableEq κ] (m : Std.ExtTreeMap κ α cmp) (k k' : κ) (v : α) :
    (m.insertIfNew k v)[k']? = m[k']?.or (if k = k' then some v else none) := by
  rw [Std.ExtTreeMap.getElem?_insertIfNew]
  by_cases hk : k = k'
  · subst hk
    by_cases hm : k ∈ m
    · simp [hm]
    · simp [hm]
  · simp [hk]

/-- A slot holds what it held, or the first record that asked for it. -/
theorem getElem?_offerAll [DecidableEq κ] (xs : List α) (m : Std.ExtTreeMap κ α cmp) (k : κ) :
    (offerAll slot xs m)[k]? = m[k]?.or (xs.find? (slot · = k)) := by
  induction xs generalizing m with
  | nil => simp [offerAll]
  | cons x xs ih =>
    have hstep : offerAll slot (x :: xs) m = offerAll slot xs (m.insertIfNew (slot x) x) := rfl
    rw [hstep, ih, getElem?_insertIfNew_eq, List.find?_cons]
    by_cases hx : slot x = k <;> simp [hx]

/-- A test that only looks at the slot can be made on the list or on the table. -/
theorem filter_offerAll [DecidableEq κ] (xs : List α) {q : α → Bool} (hq : ∀ x y, slot x = slot y → q x = q y) :
    (offerAll slot xs (∅ : Std.ExtTreeMap κ α cmp)).filter (fun _ x => q x) = offerAll slot (xs.filter q) ∅ := by
  refine Std.ExtTreeMap.ext_getElem? fun k => ?_
  rw [Std.ExtTreeMap.getElem?_filter', getElem?_offerAll, getElem?_offerAll, List.find?_filter]
  simp only [Std.ExtTreeMap.getElem?_empty, Option.none_or]
  cases hfind : xs.find? fun x => decide (slot x = k) with
  | none =>
    refine (List.find?_eq_none.mpr fun x hx => ?_).symm
    have := List.find?_eq_none.mp hfind x hx
    simp_all
  | some y =>
    have hy : slot y = k := by simpa using List.find?_some hfind
    have hsame : ∀ x, slot x = k → q x = q y := fun x hx => hq x y (hx.trans hy.symm)
    by_cases hqy : q y
    · have hpred : ∀ x, decide (q x = true ∧ decide (slot x = k) = true) = decide (slot x = k) := by
        intro x
        by_cases hx : slot x = k <;> simp [hx, hsame, hqy]
      simp only [hpred, hfind]
      simp [Option.filter, hqy]
    · have hpred : ∀ x, decide (q x = true ∧ decide (slot x = k) = true) = false := by
        intro x
        by_cases hx : slot x = k <;> simp [hx, hsame, hqy]
      have hdrop : xs.find? (fun _ => false) = none := List.find?_eq_none.mpr fun _ _ => by simp
      simp only [hpred, hdrop]
      simp [Option.filter, hqy]

/-- Every record of the table stands in the slot it asks for. -/
theorem slot_eq_of_getElem?_offerAll [DecidableEq κ] {xs : List α} {k : κ} {x : α}
    (h : (offerAll slot xs (∅ : Std.ExtTreeMap κ α cmp))[k]? = some x) : slot x = k := by
  rw [getElem?_offerAll] at h
  simp only [Std.ExtTreeMap.getElem?_empty, Option.none_or] at h
  simpa using List.find?_some h

/-- **Nothing is lost exactly when no two records ask for one slot.** -/
theorem vals_offerAll_perm_iff [DecidableEq κ] (xs : List α) :
    (offerAll slot xs (∅ : Std.ExtTreeMap κ α cmp)).vals.Perm xs ↔ (xs.map slot).Nodup := by
  have hvals : ((offerAll slot xs (∅ : Std.ExtTreeMap κ α cmp)).vals.map slot).Nodup :=
    Std.ExtTreeMap.nodup_map_vals fun _ _ h => slot_eq_of_getElem?_offerAll h
  constructor
  · intro hperm
    exact (hperm.map slot).nodup_iff.mp hvals
  · intro hnodup
    refine (List.perm_ext_iff_of_nodup hvals.of_map hnodup.of_map).mpr fun x => ?_
    rw [Std.ExtTreeMap.mem_vals]
    constructor
    · rintro ⟨k, hk⟩
      rw [getElem?_offerAll] at hk
      simp only [Std.ExtTreeMap.getElem?_empty, Option.none_or] at hk
      exact List.mem_of_find?_eq_some hk
    · intro hx
      refine ⟨slot x, ?_⟩
      rw [getElem?_offerAll]
      simp only [Std.ExtTreeMap.getElem?_empty, Option.none_or]
      obtain ⟨y, hy⟩ := List.find?_isSome (p := fun y => decide (slot y = slot x)) |>.mpr ⟨x, hx, by simp⟩
        |> Option.isSome_iff_exists.mp
      have hslot : slot y = slot x := by simpa using List.find?_some hy
      rw [hy, List.inj_on_of_nodup_map hnodup (List.mem_of_find?_eq_some hy) hx hslot]

end KeepFirst
