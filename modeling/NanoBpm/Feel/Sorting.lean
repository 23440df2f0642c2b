import NanoBpm.Feel.Integers
import NanoBpm.Feel.Parts
import Mathlib.Data.List.Sort

/-!
# Sorting with a function (`builtins.rs:788-806`)

`sort` hands the library a comparison that is `Less` where the function says true and `Greater` where it says false. The
library's sort is stable and asks for a total order; what it does with another comparison is not specified.
-/

namespace NanoBpm.FeelExpr.Sorting

open Calls

/-! ## Strict weak orders -/

section

variable {α : Type} {lt : α → α → Bool} {xs ys : List α}

/-- A strict weak order on the elements: what is not ordered is tied. -/
structure StrictWeak (lt : α → α → Bool) (xs : List α) : Prop where
  irrefl : ∀ a ∈ xs, lt a a = false
  trans : ∀ a ∈ xs, ∀ b ∈ xs, ∀ c ∈ xs, lt a b → lt b c → lt a c
  ties : ∀ a ∈ xs, ∀ b ∈ xs, ∀ c ∈ xs, lt a c → lt a b ∨ lt b c

def tied (lt : α → α → Bool) (a b : α) : Bool := !lt a b && !lt b a

/-- No two elements are tied, and so none is repeated. -/
def Untied (lt : α → α → Bool) (xs : List α) : Prop := xs.Pairwise fun a b => lt a b ∨ lt b a

/-- The comparison of the elements at two positions is the converse one, and it is transitive. -/
structure Consistent (cmp : α → α → Ordering) (xs : List α) : Prop where
  swap : xs.Pairwise fun a b => cmp b a = (cmp a b).swap
  trans : ∀ a ∈ xs, ∀ b ∈ xs, ∀ c ∈ xs, cmp a b ≠ .gt → cmp b c ≠ .gt → cmp a c ≠ .gt

theorem StrictWeak.asymm (h : StrictWeak lt xs) {a b : α} (ha : a ∈ xs) (hb : b ∈ xs) (hab : lt a b) : lt b a = false := by
  by_contra hba
  have haa := h.trans a ha b hb a ha hab (eq_true_of_ne_false hba)
  rw [h.irrefl a ha] at haa
  cases haa

theorem StrictWeak.mono (h : StrictWeak lt xs) (hsub : ys ⊆ xs) : StrictWeak lt ys where
  irrefl a ha := h.irrefl a (hsub ha)
  trans a ha b hb c hc := h.trans a (hsub ha) b (hsub hb) c (hsub hc)
  ties a ha b hb c hc := h.ties a (hsub ha) b (hsub hb) c (hsub hc)

/-- What `sort` makes of the answers of its function. -/
def ordering (lt : α → α → Bool) (a b : α) : Ordering := if lt a b then .lt else .gt

theorem ordering_eq_gt {a b : α} : ordering lt a b = .gt ↔ lt a b = false := by
  unfold ordering
  cases lt a b <;> simp

/-- Ties are `Greater` in both directions. -/
theorem consistent_iff (h : StrictWeak lt xs) : Consistent (ordering lt) xs ↔ Untied lt xs := by
  constructor
  · intro hc
    refine hc.swap.imp fun {a b} hswap => ?_
    unfold ordering at hswap
    cases hab : lt a b with
    | true => exact .inl rfl
    | false =>
      rw [hab] at hswap
      split at hswap
      · next hba => exact .inr hba
      · cases hswap
  · intro hu
    refine ⟨hu.imp_of_mem fun {a b} ha hb hab => ?_, fun a ha b hb c hc hab hbc => ?_⟩
    · rcases hab with hab | hab
      · simp [ordering, hab, h.asymm ha hb hab]
      · simp [ordering, hab, h.asymm hb ha hab]
    · rw [Ne, ordering_eq_gt, Bool.not_eq_false] at hab hbc ⊢
      exact h.trans a ha b hb c hc hab hbc

theorem pairwise_orderedInsert (h : StrictWeak lt xs) {a : α} (ha : a ∈ xs) (hys : ys ⊆ xs)
    (hsorted : ys.Pairwise (lt · ·)) (hu : ∀ b ∈ ys, lt a b ∨ lt b a) :
    (ys.orderedInsert (lt · ·) a).Pairwise (lt · ·) := by
  induction ys with
  | nil => simp
  | cons b bs ih =>
    obtain ⟨hb, hbs⟩ := List.pairwise_cons.mp hsorted
    obtain ⟨hbmem, hsub⟩ := List.cons_subset.mp hys
    unfold List.orderedInsert
    split
    · next hab =>
      refine List.pairwise_cons.mpr ⟨fun c hc => ?_, hsorted⟩
      rcases List.mem_cons.mp hc with rfl | hc
      · exact hab
      · exact h.trans a ha b hbmem c (hsub hc) hab (hb c hc)
    · next hab =>
      refine List.pairwise_cons.mpr ⟨fun c hc => ?_, ih hsub hbs fun c hc => hu c (List.mem_cons_of_mem _ hc)⟩
      rcases (List.mem_orderedInsert _).mp hc with rfl | hc
      · exact (hu b List.mem_cons_self).resolve_left hab
      · exact hb c hc

theorem pairwise_insertionSort (h : StrictWeak lt xs) (hu : Untied lt xs) : (xs.insertionSort (lt · ·)).Pairwise (lt · ·) := by
  induction xs with
  | nil => simp
  | cons a as ih =>
    obtain ⟨ha, has⟩ := List.pairwise_cons.mp hu
    have hsub : as ⊆ a :: as := List.subset_cons_self a as
    rw [List.insertionSort_cons]
    refine pairwise_orderedInsert h List.mem_cons_self (fun b hb => hsub ((List.mem_insertionSort _).mp hb)) (ih (h.mono hsub) has) ?_
    exact fun b hb => ha b ((List.mem_insertionSort _).mp hb)

/-- Each class of ties has one element, which keeps its place among its like. -/
theorem filter_tied_eq (h : StrictWeak lt xs) (hu : Untied lt xs) (hperm : ys.Perm xs) {a : α} (ha : a ∈ xs) :
    ys.filter (tied lt a) = xs.filter (tied lt a) := by
  have hfilter := hperm.filter (tied lt a)
  have hlone : (xs.filter (tied lt a)).length ≤ 1 := by
    have hpair : (xs.filter (tied lt a)).Pairwise fun _ _ => False := by
      refine (hu.filter (tied lt a)).imp_of_mem fun {b c} hb hc hbc => ?_
      obtain ⟨hb, htb⟩ := List.mem_filter.mp hb
      obtain ⟨hc, htc⟩ := List.mem_filter.mp hc
      simp only [tied, Bool.and_eq_true, Bool.not_eq_true'] at htb htc
      rcases hbc with hbc | hbc
      · have := h.ties b hb a ha c hc hbc
        simp [htb.2, htc.1] at this
      · have := h.ties c hc a ha b hb hbc
        simp [htb.1, htc.2] at this
    match hcase : xs.filter (tied lt a), hpair with
    | [], _ => simp
    | [_], _ => simp
    | b :: c :: _, hpair => exact ((List.pairwise_cons.mp hpair).1 c List.mem_cons_self).elim
  match hcase : xs.filter (tied lt a), hlone with
  | [], _ => exact List.perm_nil.mp (hcase ▸ hfilter)
  | [b], _ => exact List.perm_singleton.mp (hcase ▸ hfilter)
  | _ :: _ :: _, hlone => simp at hlone

end

/-! ## The builtin -/

section

variable [Texts] {base : Vars} {outside : Nat → Draw} {f : Func} {lt : FeelVal → FeelVal → Bool} {xs : List FeelVal}

/-- Whenever it is called with two of the elements, the function says whether the first precedes the second. -/
def Decides (base : Vars) (outside : Nat → Draw) (f : Func) (lt : FeelVal → FeelVal → Bool) (xs : List FeelVal) : Prop :=
  ∀ a ∈ xs, ∀ b ∈ xs, ∀ i, ∃ j, Ends (body base) outside (body base ⟨f, [a, b], 0⟩) i (.ok (.bool (lt a b)), j)

/-- The comparison that the library is given. -/
def Compares (base : Vars) (outside : Nat → Draw) (f : Func) (cmp : FeelVal → FeelVal → Ordering) (xs : List FeelVal) : Prop :=
  ∀ a ∈ xs, ∀ b ∈ xs, ∀ i, ∃ j, Ends (body base) outside (precedes f a b) i (cmp a b, j)

structure Sorts (base : Vars) (outside : Nat → Draw) (f : Func) (lt : FeelVal → FeelVal → Bool) (xs ys : List FeelVal) : Prop where
  ends : ∀ i, ∃ j, Ends (body base) outside (callBuiltin "sort" [.list xs, f.toVal] 0) i (.ok (.list ys), j)
  perm : ys.Perm xs
  sorted : ys.Pairwise fun a b => lt b a = false
  stable : ∀ a ∈ xs, ys.filter (tied lt a) = xs.filter (tied lt a)

theorem compares_ordering (h : Decides base outside f lt xs) : Compares base outside f (ordering lt) xs := by
  intro a ha b hb i
  obtain ⟨j, hj⟩ := h a ha b hb i
  refine ⟨j, hj.call ?_⟩
  unfold ordering
  cases lt a b <;> exact ends_pure _ j

theorem compares_unique {cmp cmp' : FeelVal → FeelVal → Ordering} (h : Compares base outside f cmp xs)
    (h' : Compares base outside f cmp' xs) {a b : FeelVal} (ha : a ∈ xs) (hb : b ∈ xs) : cmp a b = cmp' a b := by
  obtain ⟨j, hj⟩ := h a ha b hb 0
  obtain ⟨j', hj'⟩ := h' a ha b hb 0
  exact congrArg Prod.fst (hj.unique hj')

theorem ends_insertBy (h : Compares base outside f (ordering lt) xs) {a : FeelVal} (ha : a ∈ xs) {ys : List FeelVal}
    (hys : ys ⊆ xs) (i : Nat) :
    ∃ j, Ends (body base) outside (insertBy (precedes f) a ys) i (ys.orderedInsert (lt · ·) a, j) := by
  induction ys generalizing i with
  | nil => exact ⟨i, ends_pure _ i⟩
  | cons b bs ih =>
    obtain ⟨hb, hbs⟩ := List.cons_subset.mp hys
    obtain ⟨j, hj⟩ := h a ha b hb i
    obtain ⟨k, hk⟩ := ih hbs j
    unfold insertBy List.orderedInsert
    by_cases hab : lt a b = true
    · refine ⟨j, hj.bind ?_⟩
      simp only [ordering, hab, if_true]
      exact ends_pure _ j
    · refine ⟨k, hj.bind ?_⟩
      simp only [ordering, hab]
      exact hk.bind (ends_pure _ k)

theorem ends_sortBy (h : Compares base outside f (ordering lt) xs) {ys : List FeelVal} (hys : ys ⊆ xs) (i : Nat) :
    ∃ j, Ends (body base) outside (sortBy (precedes f) ys) i (ys.insertionSort (lt · ·), j) := by
  induction ys generalizing i with
  | nil => exact ⟨i, ends_pure _ i⟩
  | cons a as ih =>
    obtain ⟨ha, has⟩ := List.cons_subset.mp hys
    obtain ⟨j, hj⟩ := ih has i
    have hsorted : as.insertionSort (lt · ·) ⊆ xs := fun b hb => has ((List.mem_insertionSort _).mp hb)
    obtain ⟨k, hk⟩ := ends_insertBy h ha hsorted j
    exact ⟨k, hj.bind hk⟩

theorem ends_sort (h : Decides base outside f lt xs) (i : Nat) :
    ∃ j, Ends (body base) outside (callBuiltin "sort" [.list xs, f.toVal] 0) i (.ok (.list (xs.insertionSort (lt · ·))), j) := by
  obtain ⟨j, hj⟩ := ends_sortBy (compares_ordering h) (List.Subset.refl xs) i
  have hfunc : (f.toVal).asFunc = some f := by cases f <;> rfl
  refine ⟨j, ?_⟩
  have hsort : callBuiltin "sort" [.list xs, f.toVal] 0 = (do return .ok (.list (← sortBy (precedes f) xs)) : Steps Result) := by
    have harg : [.list xs, f.toVal][1]?.bind FeelVal.asFunc = some f := hfunc
    have hlist : Builtins.wantList (Builtins.arg [.list xs, f.toVal] 0) "sort" = .ok xs := rfl
    simp only [callBuiltin, sort, harg, hlist]
  rw [hsort]
  exact hj.bind (ends_pure _ j)

/-- The comparison is a total preorder, of the elements at two positions, and the elements are sorted. -/
def SortsRight (base : Vars) (outside : Nat → Draw) (f : Func) (lt : FeelVal → FeelVal → Bool) (xs : List FeelVal) : Prop :=
  (∀ cmp, Compares base outside f cmp xs → Consistent cmp xs) ∧ ∃ ys, Sorts base outside f lt xs ys

theorem consistent_of_compares {cmp cmp' : FeelVal → FeelVal → Ordering} (h : Compares base outside f cmp xs)
    (h' : Compares base outside f cmp' xs) (hc : Consistent cmp xs) : Consistent cmp' xs where
  swap := hc.swap.imp_of_mem fun {a b} ha hb hab => by
    rw [← compares_unique h h' hb ha, ← compares_unique h h' ha hb, hab]
  trans a ha b hb c hc' := by
    rw [← compares_unique h h' ha hb, ← compares_unique h h' hb hc', ← compares_unique h h' ha hc']
    exact hc.trans a ha b hb c hc'

theorem sorts_of_untied (hlt : StrictWeak lt xs) (hf : Decides base outside f lt xs) (hu : Untied lt xs) :
    Sorts base outside f lt xs (xs.insertionSort (lt · ·)) where
  ends := ends_sort hf
  perm := List.perm_insertionSort _ xs
  sorted := (pairwise_insertionSort hlt hu).imp_of_mem fun ha hb hab =>
    hlt.asymm ((List.mem_insertionSort _).mp ha) ((List.mem_insertionSort _).mp hb) hab
  stable _ ha := filter_tied_eq hlt hu (List.perm_insertionSort _ xs) ha

/-- Ties are `Greater` whichever comes first, and so is every element compared with itself. -/
theorem sort_right_iff (hlt : StrictWeak lt xs) (hf : Decides base outside f lt xs) :
    (SortsRight base outside f lt xs ↔ Untied lt xs) ∧
      ((∀ cmp, Compares base outside f cmp xs → ∀ a ∈ xs, cmp a a = .eq) ↔ xs = []) := by
  have hcmp := compares_ordering hf
  constructor
  · constructor
    · rintro ⟨hc, -⟩
      exact (consistent_iff hlt).mp (hc _ hcmp)
    · intro hu
      refine ⟨fun cmp h => ?_, _, sorts_of_untied hlt hf hu⟩
      exact consistent_of_compares hcmp h ((consistent_iff hlt).mpr hu)
  · constructor
    · intro h
      refine List.eq_nil_iff_forall_not_mem.mpr fun a ha => ?_
      have hself := h _ hcmp a ha
      rw [ordering_eq_gt.mpr (hlt.irrefl a ha)] at hself
      cases hself
    · rintro rfl cmp - a ha
      cases ha

end

/-- `function(x, y) x < y`. -/
def lessThan : Func := .lambda ["x", "y"] (.bin .lt (.var "x") (.var "y")) []

/-- Which of the integers is less, as the evaluator compares them. -/
def below (v w : FeelVal) : Bool := (compareVals v w).any (·.isLT)

theorem decides_lessThan [Texts] (outside : Nat → Draw) {items : List Int} (h : ∀ x ∈ items, ∀ y ∈ items, Apart x y) :
    Decides ∅ outside lessThan below (items.map .int) := by
  intro a ha b hb i
  obtain ⟨x, hx, rfl⟩ := List.mem_map.mp ha
  obtain ⟨y, hy, rfl⟩ := List.mem_map.mp hb
  refine ⟨i, ?_⟩
  have hcmp := compareVals_int (h x hx y hy)
  have hbody : body ∅ ⟨lessThan, [.int x, .int y], 0⟩ = (pure (cmpOp (.int x) (.int y) (·.isLT)) : Steps Result) := by
    rfl
  rw [hbody, cmpOp_of_some hcmp, below, hcmp]
  exact ends_pure _ i

theorem below_int {x y : Int} (h : Apart x y) : below (.int x) (.int y) = decide (x < y) := by
  rw [below, compareVals_int h]
  exact isLT_compare x y

theorem strictWeak_below {items : List Int} (h : ∀ x ∈ items, ∀ y ∈ items, Apart x y) :
    StrictWeak below (items.map .int) := by
  constructor
  · intro a ha
    obtain ⟨x, hx, rfl⟩ := List.mem_map.mp ha
    simp [below_int (h x hx x hx)]
  · intro a ha b hb c hc
    obtain ⟨x, hx, rfl⟩ := List.mem_map.mp ha
    obtain ⟨y, hy, rfl⟩ := List.mem_map.mp hb
    obtain ⟨z, hz, rfl⟩ := List.mem_map.mp hc
    simp only [below_int (h x hx y hy), below_int (h y hy z hz), below_int (h x hx z hz), decide_eq_true_eq]
    omega
  · intro a ha b hb c hc
    obtain ⟨x, hx, rfl⟩ := List.mem_map.mp ha
    obtain ⟨y, hy, rfl⟩ := List.mem_map.mp hb
    obtain ⟨z, hz, rfl⟩ := List.mem_map.mp hc
    simp only [below_int (h x hx y hy), below_int (h y hy z hz), below_int (h x hx z hz), decide_eq_true_eq]
    omega

theorem sort_right_descending :
    let _ := Texts.plain
    SortsRight ∅ (fun _ => ⟨none, "", 0⟩) lessThan below ([2, 1].map .int) := by
  intro _
  have hapart : ∀ x ∈ [(2 : Int), 1], ∀ y ∈ [(2 : Int), 1], Apart x y := by decide +kernel
  refine (sort_right_iff (strictWeak_below hapart) (decides_lessThan _ hapart)).1.mpr ?_
  have hless : below (.int 1) (.int 2) = true := by
    rw [below_int (hapart 1 (by decide) 2 (by decide))]
    rfl
  exact List.pairwise_pair.mpr (.inr hless)

/-- Two equal numbers are `Greater` than each other. -/
theorem sort_ties :
    let _ := Texts.plain
    ¬ SortsRight ∅ (fun _ => ⟨none, "", 0⟩) lessThan below ([1, 1].map .int) := by
  intro _ h
  have hapart : ∀ x ∈ [(1 : Int), 1], ∀ y ∈ [(1 : Int), 1], Apart x y := by decide +kernel
  have hties := h.1 _ (compares_ordering (decides_lessThan _ hapart))
  have hlt := (consistent_iff (strictWeak_below hapart)).mp hties
  have hself : below (.int 1) (.int 1) = false := by
    rw [below_int (hapart 1 (by decide) 1 (by decide))]
    rfl
  rcases List.pairwise_pair.mp hlt with h | h <;>
  · rw [hself] at h
    cases h

end NanoBpm.FeelExpr.Sorting
