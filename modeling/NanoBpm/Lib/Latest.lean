import Mathlib.Data.List.Induction
import Mathlib.Order.Defs.LinearOrder
import NanoBpm.Lib.Index

/-!
# Registers that keep the newest item

A register is offered one item after another and keeps the one with the highest version, the later one on a
tie. Offering a sequence a second time changes nothing, whatever the register held before, so a table of
registers can be fed a suffix of its own history again. A table whose entries are always overwritten is the
case of a constant version.
-/

namespace Latest

variable {α ν : Type} [LinearOrder ν] (version : α → ν)

/-- Offer one item. -/
def keep (held : Option α) (x : α) : Option α :=
  match held with
  | none => some x
  | some y => if version y ≤ version x then some x else some y

def keepAll (held : Option α) (xs : List α) : Option α := xs.foldl (keep version) held

theorem keepAll_append (held : Option α) (xs ys : List α) :
    keepAll version held (xs ++ ys) = keepAll version (keepAll version held xs) ys := List.foldl_append

theorem keep_isSome (held : Option α) (x : α) : ∃ y, keep version held x = some y ∧ version x ≤ version y := by
  cases held with
  | none => exact ⟨x, rfl, le_refl _⟩
  | some y =>
    simp only [keep]
    split
    · exact ⟨x, rfl, le_refl _⟩
    · rename_i h
      exact ⟨y, rfl, le_of_lt (lt_of_not_ge h)⟩

/-- A held item is only ever replaced by one that is at least as new. -/
theorem version_le_keepAll (y : α) (xs : List α) : ∃ z, keepAll version (some y) xs = some z ∧ version y ≤ version z := by
  induction xs generalizing y with
  | nil => exact ⟨y, rfl, le_refl _⟩
  | cons x xs ih =>
    show ∃ z, keepAll version (keep version (some y) x) xs = some z ∧ _
    simp only [keep]
    split
    · rename_i h
      obtain ⟨z, hz, hle⟩ := ih x
      exact ⟨z, hz, le_trans h hle⟩
    · exact ih y

/-- A register that holds something as new as every offered item keeps its version. -/
theorem version_eq_keepAll (y : α) {xs : List α} (h : ∀ x ∈ xs, version x ≤ version y) :
    ∃ z, keepAll version (some y) xs = some z ∧ version z = version y := by
  induction xs generalizing y with
  | nil => exact ⟨y, rfl, rfl⟩
  | cons x xs ih =>
    obtain ⟨hx, hxs⟩ := List.forall_mem_cons.1 h
    show ∃ z, keepAll version (keep version (some y) x) xs = some z ∧ _
    simp only [keep]
    split
    · rename_i hyx
      have heq : version x = version y := le_antisymm hx hyx
      obtain ⟨z, hz, hv⟩ := ih x fun x' hx' => heq ▸ hxs x' hx'
      exact ⟨z, hz, hv.trans heq⟩
    · exact ih y hxs

/-- After a sequence was offered, nothing in it is newer than what is held. -/
theorem version_le_of_mem {held : Option α} {xs : List α} {x z : α} (hx : x ∈ xs)
    (hz : keepAll version held xs = some z) : version x ≤ version z := by
  induction xs generalizing held with
  | nil => cases hx
  | cons x' xs ih =>
    rcases List.mem_cons.1 hx with rfl | hmem
    · obtain ⟨y, hy, hle⟩ := keep_isSome version held x
      change keepAll version (keep version held x) xs = some z at hz
      rw [hy] at hz
      obtain ⟨z', hz', hle'⟩ := version_le_keepAll version y xs
      rw [hz] at hz'
      exact Option.some.inj hz' ▸ le_trans hle hle'
    · exact ih hmem hz

theorem exists_of_mem_keepAll {held : Option α} {xs : List α} {x : α} (hx : x ∈ xs) :
    ∃ z, keepAll version held xs = some z := by
  obtain ⟨before, after, rfl⟩ := List.append_of_mem hx
  obtain ⟨y, hy, -⟩ := keep_isSome version (keepAll version held before) x
  obtain ⟨z, hz, -⟩ := version_le_keepAll version y after
  refine ⟨z, ?_⟩
  rw [keepAll_append]
  show keepAll version (keep version (keepAll version held before) x) after = some z
  rw [hy, hz]

/-- **Offering a sequence again changes nothing.** -/
theorem keepAll_again (held : Option α) (xs : List α) :
    keepAll version (keepAll version held xs) xs = keepAll version held xs := by
  induction xs using List.reverseRecOn with
  | nil => rfl
  | append_singleton xs x ih =>
    simp only [keepAll_append]
    generalize hq : keepAll version held xs = q at ih
    cases q with
    | none =>
      -- nothing was offered before `x`
      have hxs : xs = [] := by
        cases xs with
        | nil => rfl
        | cons a as =>
          obtain ⟨y, hy, -⟩ := keep_isSome version held a
          change keepAll version (keep version held a) as = none at hq
          rw [hy] at hq
          obtain ⟨z, hz, -⟩ := version_le_keepAll version y as
          rw [hz] at hq
          cases hq
      subst hxs
      show keep version (some x) x = some x
      simp [keep]
    | some y =>
      show keep version (keepAll version (keep version (some y) x) xs) x = keep version (some y) x
      by_cases hle : version y ≤ version x
      · have hkeep : keep version (some y) x = some x := by simp [keep, hle]
        rw [hkeep]
        obtain ⟨z, hz, hv⟩ := version_eq_keepAll version x
          fun x' hx' => le_trans (version_le_of_mem version hx' hq) hle
        rw [hz]
        simp [keep, hv]
      · have hkeep : keep version (some y) x = some y := by simp [keep, hle]
        rw [hkeep, ih]
        exact hkeep

/-- Offering one item any number of times is offering it once. -/
theorem keepAll_replicate {held : Option α} (x : α) {n : Nat} (hn : n ≠ 0)
    (hle : ∀ y, held = some y → version y ≤ version x) : keepAll version held (List.replicate n x) = some x := by
  have hself : ∀ n, keepAll version (some x) (List.replicate n x) = some x := by
    intro n
    induction n with
    | zero => rfl
    | succ n ih =>
      rw [List.replicate_succ]
      show keepAll version (keep version (some x) x) _ = _
      simpa [keep] using ih
  obtain ⟨n, rfl⟩ := Nat.exists_eq_succ_of_ne_zero hn
  rw [List.replicate_succ]
  show keepAll version (keep version held x) _ = _
  cases held with
  | none => exact hself n
  | some y => simpa [keep, hle y rfl] using hself n

/-- What the register holds in the end was there at the start, or was offered. -/
theorem eq_or_mem_of_keepAll {held : Option α} {xs : List α} {z : α} (h : keepAll version held xs = some z) :
    held = some z ∨ z ∈ xs := by
  induction xs generalizing held with
  | nil => exact .inl h
  | cons x xs ih =>
    have hrest : keepAll version (keep version held x) xs = some z := h
    rcases ih hrest with hkeep | hz
    · cases held with
      | none => exact .inr (by simp [Option.some.inj hkeep])
      | some y =>
        simp only [keep] at hkeep
        split at hkeep
        · exact .inr (by simp [Option.some.inj hkeep])
        · exact .inl hkeep
    · exact .inr (List.mem_cons_of_mem _ hz)

/-- Where no two of the items tie, the register holds the newest of them in the end, in whatever order and however often they
were offered. -/
theorem keepAll_eq_some_iff {xs : List α} (hinj : ∀ x ∈ xs, ∀ y ∈ xs, version x = version y → x = y) {z : α} :
    keepAll version none xs = some z ↔ z ∈ xs ∧ ∀ x ∈ xs, version x ≤ version z := by
  constructor
  · intro h
    exact ⟨(eq_or_mem_of_keepAll version h).resolve_left (by simp), fun x hx => version_le_of_mem version hx h⟩
  · rintro ⟨hz, hmax⟩
    cases hkept : keepAll version none xs with
    | none =>
      obtain ⟨x, xs, rfl⟩ := List.exists_cons_of_ne_nil (List.ne_nil_of_mem hz)
      obtain ⟨y, hy, -⟩ := version_le_keepAll version x xs
      exact absurd (hy.symm.trans hkept) (by simp)
    | some y =>
      have hy := (eq_or_mem_of_keepAll version hkept).resolve_left (by simp)
      rw [hinj y hy z hz (le_antisymm (hmax y hy) (version_le_of_mem version hz hkept))]

/-! ## Tables of registers -/

section table

variable {κ : Type} {cmp : κ → κ → Ordering} [Std.TransCmp cmp] [Std.LawfulEqCmp cmp] [DecidableEq κ]

/-- Offer an item to the register of its key. -/
def offer (version : α → ν) (key : α → κ) (m : Std.ExtTreeMap κ α cmp) (x : α) : Std.ExtTreeMap κ α cmp :=
  if (m[key x]?).all fun y => version y ≤ version x then m.insert (key x) x else m

theorem getElem?_offer (version : α → ν) (key : α → κ) (m : Std.ExtTreeMap κ α cmp) (x : α) (k : κ) :
    (offer version key m x)[k]? = if key x = k then keep version m[k]? x else m[k]? := by
  unfold offer
  by_cases hk : key x = k
  · subst hk
    rw [if_pos rfl]
    cases hm : m[key x]? with
    | none => simp [keep]
    | some y =>
      by_cases hle : version y ≤ version x
      · simp [keep, hle]
      · simp [keep, hle, hm]
  · rw [if_neg hk]
    have hne : ¬ cmp (key x) k = .eq := fun h => hk (Std.LawfulEqCmp.compare_eq_iff_eq.1 h)
    split
    · rw [Std.ExtTreeMap.getElem?_insert, if_neg hne]
    · rfl

theorem getElem?_foldl_offer (version : α → ν) (key : α → κ) (m : Std.ExtTreeMap κ α cmp) (xs : List α) (k : κ) :
    (xs.foldl (offer version key) m)[k]? = keepAll version m[k]? (xs.filter fun x => key x = k) := by
  induction xs generalizing m with
  | nil => rfl
  | cons x xs ih =>
    rw [List.foldl_cons, ih, getElem?_offer, List.filter_cons]
    by_cases hk : key x = k
    · simp [hk, keepAll]
    · simp [hk]

/-- A table holds something under the key of every item that was offered to it. -/
theorem exists_of_mem_foldl_offer (version : α → ν) (key : α → κ) (m : Std.ExtTreeMap κ α cmp) {xs : List α} {x : α}
    (hx : x ∈ xs) : ∃ z, (xs.foldl (offer version key) m)[key x]? = some z := by
  rw [getElem?_foldl_offer]
  exact exists_of_mem_keepAll version (List.mem_filter.mpr ⟨hx, by simp⟩)

/-- What a table holds it held before, or it was offered. -/
theorem mem_of_foldl_offer {version : α → ν} {key : α → κ} {m : Std.ExtTreeMap κ α cmp} {xs : List α} {k : κ} {z : α}
    (h : (xs.foldl (offer version key) m)[k]? = some z) : m[k]? = some z ∨ z ∈ xs ∧ key z = k := by
  induction xs generalizing m with
  | nil => exact Or.inl h
  | cons x xs ih =>
    rcases ih h with hm | ⟨hmem, hk⟩
    · rw [getElem?_offer] at hm
      split at hm
      · rename_i hk
        cases hmk : m[k]? with
        | none =>
          simp only [hmk, keep, Option.some.injEq] at hm
          exact Or.inr ⟨hm ▸ List.mem_cons_self, hm ▸ hk⟩
        | some y =>
          simp only [hmk, keep] at hm
          split at hm
          · simp only [Option.some.injEq] at hm
            exact Or.inr ⟨hm ▸ List.mem_cons_self, hm ▸ hk⟩
          · exact Or.inl hm
      · exact Or.inl hm
    · exact Or.inr ⟨List.mem_cons_of_mem _ hmem, hk⟩

/-- Feeding a table a sequence it has just taken in changes nothing. -/
theorem foldl_offer_again (version : α → ν) (key : α → κ) (m : Std.ExtTreeMap κ α cmp) (xs : List α) :
    xs.foldl (offer version key) (xs.foldl (offer version key) m) = xs.foldl (offer version key) m := by
  apply Std.ExtTreeMap.ext_getElem?
  intro k
  rw [getElem?_foldl_offer, getElem?_foldl_offer, keepAll_again]

/-- A sequence of items that the table holds after `xs` can stand for `xs`, as long as it reaches every register
that `xs` reaches. -/
theorem foldl_offer_current (version : α → ν) (key : α → κ) (m : Std.ExtTreeMap κ α cmp) {xs zs : List α}
    (hheld : ∀ z ∈ zs, (xs.foldl (offer version key) m)[key z]? = some z)
    (hreach : ∀ x ∈ xs, ∃ z ∈ zs, key z = key x) :
    zs.foldl (offer version key) m = xs.foldl (offer version key) m := by
  apply Std.ExtTreeMap.ext_getElem?
  intro k
  by_cases hk : ∃ z ∈ zs, key z = k
  · obtain ⟨z, hz, rfl⟩ := hk
    have hlast := hheld z hz
    rw [hlast]
    rw [getElem?_foldl_offer] at hlast ⊢
    -- every item offered to this register is `z`, and nothing held before is newer
    have hall : ∀ y ∈ zs.filter fun x => key x = key z, y = z := by
      intro y hy
      obtain ⟨hy, hkey⟩ := List.mem_filter.1 hy
      have := hheld y hy
      rw [of_decide_eq_true hkey, hheld z hz] at this
      exact (Option.some.inj this).symm
    have hne : (zs.filter fun x => key x = key z) ≠ [] :=
      List.ne_nil_of_mem (List.mem_filter.2 ⟨hz, by simp⟩)
    rw [List.eq_replicate_of_mem hall]
    refine keepAll_replicate version z (by simpa [List.length_eq_zero_iff] using hne) fun y hy => ?_
    rw [hy] at hlast
    obtain ⟨z', hz', hle⟩ := version_le_keepAll version y (xs.filter fun x => key x = key z)
    rw [hlast] at hz'
    exact Option.some.inj hz' ▸ hle
  · have hzs : (zs.filter fun x => key x = k) = [] := by
      simp only [List.filter_eq_nil_iff, decide_eq_true_eq]
      exact fun z hz hkey => hk ⟨z, hz, hkey⟩
    have hxs : (xs.filter fun x => key x = k) = [] := by
      simp only [List.filter_eq_nil_iff, decide_eq_true_eq]
      intro x hx hkey
      obtain ⟨z, hz, hzk⟩ := hreach x hx
      exact hk ⟨z, hz, hzk.trans hkey⟩
    rw [getElem?_foldl_offer, getElem?_foldl_offer, hzs, hxs]

/-- What a table holds is the newest item of its register. -/
theorem getElem?_foldl_offer_iff (version : α → ν) (key : α → κ) {xs : List α}
    (hinj : ∀ x ∈ xs, ∀ y ∈ xs, key x = key y → version x = version y → x = y) {k : κ} {z : α} :
    (xs.foldl (offer version key) (∅ : Std.ExtTreeMap κ α cmp))[k]? = some z ↔
      z ∈ xs ∧ key z = k ∧ ∀ x ∈ xs, key x = k → version x ≤ version z := by
  rw [getElem?_foldl_offer, Std.ExtTreeMap.getElem?_empty, keepAll_eq_some_iff]
  · simp [and_assoc]
  · intro x hx y hy
    obtain ⟨hx, hxk⟩ := List.mem_filter.mp hx
    obtain ⟨hy, hyk⟩ := List.mem_filter.mp hy
    exact hinj x hx y hy ((of_decide_eq_true hxk).trans (of_decide_eq_true hyk).symm)

end table

end Latest
