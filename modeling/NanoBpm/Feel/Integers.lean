import NanoBpm.Feel.Eval
import NanoBpm.Dmn.Eval
import NanoBpm.Lib.Float64Order

/-!
# Comparing integers

All comparisons of numbers go through `as f64`: of two integers, they tell what the nearest floating point numbers are.
-/

namespace NanoBpm.FeelExpr

open Calls

/-- The comparison can tell the integers apart, or need not. -/
def Apart (x y : Int) : Prop := x = y ∨ F64.ofInt x ≠ F64.ofInt y

instance (x y : Int) : Decidable (Apart x y) := inferInstanceAs (Decidable (_ ∨ _))

theorem compareVals_int {x y : Int} (h : Apart x y) : compareVals (.int x) (.int y) = some (compare x y) :=
  F64.cmp_ofInt h

theorem cmpOp_of_some {v w : FeelVal} {o : Ordering} (h : compareVals v w = some o) (f : Ordering → Bool) :
    cmpOp v w f = .ok (.bool (f o)) := by
  rw [cmpOp, h]

theorem feelEq_int {x y : Int} (h : Apart x y) : feelEq (.int x) (.int y) = (x == y) := by
  have hcmp := F64.cmp_ofInt h
  unfold feelEq
  simp only [FeelVal.asF64, F64.beq, hcmp]
  rw [Bool.eq_iff_iff]
  simp

/-- Integers with one nearest number are equal to the evaluator. -/
theorem feelEq_of_not_apart {x y : Int} (h : ¬Apart x y) : x ≠ y ∧ feelEq (.int x) (.int y) = true := by
  unfold Apart at h
  rw [not_or, not_not] at h
  refine ⟨h.1, ?_⟩
  unfold feelEq
  simp only [FeelVal.asF64, F64.beq, h.2, F64.cmp_eq (F64.not_isNaN_ofInt y) (F64.not_isNaN_ofInt y)]
  simp

theorem valuesEqual_int (x y : Int) : Dmn.valuesEqual (.int x) (.int y) = feelEq (.int x) (.int y) := by
  unfold Dmn.valuesEqual feelEq
  rfl

theorem matchesItem_int (v : FeelVal) (y : Int) : matchesItem v (.int y) = feelEq v (.int y) := rfl

theorem Apart.symm {x y : Int} (h : Apart x y) : Apart y x := h.imp Eq.symm Ne.symm

theorem any_eq_contains {x : Int} {ys : List Int} {f : Int → Bool} (h : ∀ y ∈ ys, f y = (x == y)) :
    ys.any f = ys.contains x := by
  induction ys with
  | nil => rfl
  | cons y ys ih =>
    rw [List.any_cons, List.contains_cons, ih fun z hz => h z (List.mem_cons_of_mem _ hz), h y List.mem_cons_self]

theorem inTest_list (v : FeelVal) (ws : List FeelVal) : inTest v (.list ws) = ws.any (matchesItem v) := rfl

theorem inTest_int (v : FeelVal) (y : Int) : inTest v (.int y) = feelEq v (.int y) := rfl

theorem inTest_ints {x : Int} {ys : List Int} (h : ∀ y ∈ ys, Apart x y) :
    inTest (.int x) (.list (ys.map .int)) = ys.contains x := by
  rw [inTest_list, List.any_map]
  refine any_eq_contains fun y hy => ?_
  rw [Function.comp_apply, matchesItem_int, feelEq_int (h y hy)]

theorem any_ints {x : Int} {ys : List Int} (h : ∀ y ∈ ys, Apart x y) :
    ((ys.map FeelVal.int).any fun u => feelEq u (.int x)) = ys.contains x := by
  rw [List.any_map]
  refine any_eq_contains fun y hy => ?_
  rw [Function.comp_apply, feelEq_int (h y hy).symm, Bool.beq_comm]

theorem inTest_range (v : FeelVal) (start stop : Option FeelVal) (si ei : Bool) :
    inTest v (.range start si stop ei) = rangeContains start si stop ei v := rfl

section

variable [Texts]

/-- The node evaluates to a value there. -/
def Yields (base : Vars) (scopes : List Frame) (node : Node) (v : FeelVal) : Prop :=
  evalNode base node scopes = pure (.ok v, scopes)

variable {base : Vars} {scopes : List Frame} {l r : Node}

omit [Texts] in
theorem bind_of_yields {α β : Type} {m : EvalM α} {f : α → EvalM β} {a : α} {before after : List Frame}
    (h : m before = pure (.ok a, after)) : (m >>= f) before = f a after := by
  change EvalM.bind m f before = f a after
  unfold EvalM.bind
  rw [h]
  rfl

theorem evalNode_bin {x y : FeelVal} (hl : Yields base scopes l x) (hr : Yields base scopes r y) {op : BinOp}
    (hand : op ≠ .and) (hor : op ≠ .or) :
    evalNode base (.bin op l r) scopes = pure (operate op x y, scopes) := by
  unfold evalNode
  rw [bind_of_yields hl]
  simp only [hand, hor, false_and, if_false]
  rw [bind_of_yields hr]
  rfl

theorem yields_between {x lo hi : Node} {v a b : FeelVal} (hx : Yields base scopes x v) (hlo : Yields base scopes lo a)
    (hhi : Yields base scopes hi b) :
    Yields base scopes (.between x lo hi) (.bool ((compareVals v a).any (·.isGE) && (compareVals v b).any (·.isLE))) := by
  unfold Yields evalNode
  rw [bind_of_yields hx, bind_of_yields hlo, bind_of_yields hhi]
  rfl

theorem yields_in {v w : FeelVal} (hl : Yields base scopes l v) (hr : Yields base scopes r w) :
    Yields base scopes (.isIn l r) (.bool (inTest v w)) := by
  unfold Yields evalNode
  rw [bind_of_yields hl, bind_of_yields hr]
  rfl

/-- A bound that is there, and a value of it. -/
def BoundYields (base : Vars) (scopes : List Frame) (bound : Option Node) (v : Option FeelVal) : Prop :=
  evalBound base bound scopes = pure (.ok v, scopes)

theorem BoundYields.none : BoundYields base scopes none none := by
  unfold BoundYields evalBound
  rfl

theorem BoundYields.some {n : Node} {v : FeelVal} (h : Yields base scopes n v) : BoundYields base scopes (some n) (some v) := by
  unfold BoundYields evalBound
  rw [bind_of_yields h]
  rfl

theorem yields_range {start stop : Option Node} {v w : Option FeelVal} (hl : BoundYields base scopes start v)
    (hr : BoundYields base scopes stop w) (si ei : Bool) : Yields base scopes (.range si start stop ei) (.range v si w ei) := by
  unfold Yields evalNode
  rw [bind_of_yields hl, bind_of_yields hr]
  rfl

theorem yields_list {items : List (Node × Int)} (h : ∀ p ∈ items, Yields base scopes p.1 (.int p.2)) :
    Yields base scopes (.list (items.map Prod.fst)) (.list (items.map fun p => .int p.2)) := by
  have hitems : evalItems base (items.map Prod.fst) scopes = pure (.ok (items.map fun p => .int p.2), scopes) := by
    induction items with
    | nil => rfl
    | cons p items ih =>
      rw [List.map_cons, evalItems, bind_of_yields (h p List.mem_cons_self),
        bind_of_yields (ih fun q hq => h q (List.mem_cons_of_mem _ hq))]
      rfl
  unfold Yields evalNode
  rw [bind_of_yields hitems]
  rfl

theorem call_listContains (vs : List FeelVal) (v : FeelVal) :
    Builtins.call "list contains" [.list vs, v] = .ok (.bool (vs.any fun u => feelEq u v)) := rfl

/-- Every comparison of `x` with the integers tells what is true of them. -/
structure Exact (base : Vars) (scopes : List Frame) (l : Node) (x : Int) (items : List (Node × Int)) : Prop where
  eq : ∀ p ∈ items, Yields base scopes (.bin .eq l p.1) (.bool (x == p.2))
  ne : ∀ p ∈ items, Yields base scopes (.bin .ne l p.1) (.bool (x != p.2))
  lt : ∀ p ∈ items, Yields base scopes (.bin .lt l p.1) (.bool (x < p.2))
  le : ∀ p ∈ items, Yields base scopes (.bin .le l p.1) (.bool (x ≤ p.2))
  gt : ∀ p ∈ items, Yields base scopes (.bin .gt l p.1) (.bool (x > p.2))
  ge : ∀ p ∈ items, Yields base scopes (.bin .ge l p.1) (.bool (x ≥ p.2))
  between : ∀ lo ∈ items, ∀ hi ∈ items,
    Yields base scopes (.between l lo.1 hi.1) (.bool (lo.2 ≤ x ∧ x ≤ hi.2))
  inRange : ∀ lo ∈ items, ∀ hi ∈ items, ∀ si ei,
    Yields base scopes (.isIn l (.range si (some lo.1) (some hi.1) ei))
      (.bool ((lo.2 < x ∨ si = true ∧ x = lo.2) ∧ (x < hi.2 ∨ ei = true ∧ x = hi.2)))
  /-- `x in > y` and `x in >= y`. -/
  inAbove : ∀ lo ∈ items, ∀ si ei,
    Yields base scopes (.isIn l (.range si (some lo.1) none ei)) (.bool (lo.2 < x ∨ si = true ∧ x = lo.2))
  inBelow : ∀ hi ∈ items, ∀ si ei,
    Yields base scopes (.isIn l (.range si none (some hi.1) ei)) (.bool (x < hi.2 ∨ ei = true ∧ x = hi.2))
  inOne : ∀ p ∈ items, Yields base scopes (.isIn l p.1) (.bool (x == p.2))
  inList : Yields base scopes (.isIn l (.list (items.map Prod.fst))) (.bool ((items.map Prod.snd).contains x))
  listContains : Builtins.call "list contains" [.list (items.map fun p => .int p.2), .int x] =
    .ok (.bool ((items.map Prod.snd).contains x))
  dmn : ∀ p ∈ items, Dmn.valuesEqual (.int x) (.int p.2) = (x == p.2)

theorem operate_eq (v w : FeelVal) : operate .eq v w = .ok (.bool (feelEq v w)) := rfl
theorem operate_ne (v w : FeelVal) : operate .ne v w = .ok (.bool !feelEq v w) := rfl
theorem operate_lt (v w : FeelVal) : operate .lt v w = cmpOp v w (·.isLT) := rfl
theorem operate_le (v w : FeelVal) : operate .le v w = cmpOp v w (·.isLE) := rfl
theorem operate_gt (v w : FeelVal) : operate .gt v w = cmpOp v w (·.isGT) := rfl
theorem operate_ge (v w : FeelVal) : operate .ge v w = cmpOp v w (·.isGE) := rfl

theorem yields_bin {x y : FeelVal} (hl : Yields base scopes l x) (hr : Yields base scopes r y) {op : BinOp}
    (hand : op ≠ .and) (hor : op ≠ .or) {v : FeelVal} (h : operate op x y = .ok v) :
    Yields base scopes (.bin op l r) v := by
  rw [Yields, evalNode_bin hl hr hand hor, h]

omit [Texts] in
theorem isLT_compare (x y : Int) : (compare x y).isLT = decide (x < y) := by
  rw [Bool.eq_iff_iff, decide_eq_true_iff, Ordering.isLT_iff_eq_lt, compare_lt_iff_lt]

omit [Texts] in
theorem isLE_compare (x y : Int) : (compare x y).isLE = decide (x ≤ y) := by
  rw [Bool.eq_iff_iff, decide_eq_true_iff, Ordering.isLE_iff_ne_gt, compare_gt_iff_gt, not_lt]

omit [Texts] in
theorem isGT_compare (x y : Int) : (compare x y).isGT = decide (x > y) := by
  rw [Bool.eq_iff_iff, decide_eq_true_iff, Ordering.isGT_iff_eq_gt, compare_gt_iff_gt]

omit [Texts] in
theorem isGE_compare (x y : Int) : (compare x y).isGE = decide (x ≥ y) := by
  rw [Bool.eq_iff_iff, decide_eq_true_iff, Ordering.isGE_iff_ne_lt, compare_lt_iff_lt, not_lt]

omit [Texts] in
theorem rangeContains_of_some {v a b : FeelVal} {o o' : Ordering} (hlo : compareVals v a = some o)
    (hhi : compareVals v b = some o') (si ei : Bool) :
    rangeContains (some a) si (some b) ei v = ((o.isGT || si && o == .eq) && (o'.isLT || ei && o' == .eq)) := by
  simp only [rangeContains, hlo, hhi]
  cases o <;> cases o' <;> cases si <;> cases ei <;> rfl

omit [Texts] in
theorem rangeContains_above {v a : FeelVal} {o : Ordering} (hlo : compareVals v a = some o) (si ei : Bool) :
    rangeContains (some a) si none ei v = (o.isGT || si && o == .eq) := by
  simp only [rangeContains, hlo]
  cases o <;> cases si <;> rfl

omit [Texts] in
theorem rangeContains_below {v b : FeelVal} {o : Ordering} (hhi : compareVals v b = some o) (si ei : Bool) :
    rangeContains none si (some b) ei v = (o.isLT || ei && o == .eq) := by
  simp only [rangeContains, hhi]
  cases o <;> cases ei <;> rfl

theorem exact_of_apart {x : Int} {items : List (Node × Int)} (hl : Yields base scopes l (.int x))
    (hitems : ∀ p ∈ items, Yields base scopes p.1 (.int p.2)) (h : ∀ p ∈ items, Apart x p.2) :
    Exact base scopes l x items := by
  have hints : (items.map fun p => FeelVal.int p.2) = (items.map Prod.snd).map .int := by rw [List.map_map]; rfl
  constructor
  · intro p hp
    refine yields_bin hl (hitems p hp) (by decide) (by decide) ?_
    rw [operate_eq, feelEq_int (h p hp)]
  · intro p hp
    refine yields_bin hl (hitems p hp) (by decide) (by decide) ?_
    rw [operate_ne, feelEq_int (h p hp), bne]
  · intro p hp
    refine yields_bin hl (hitems p hp) (by decide) (by decide) ?_
    rw [operate_lt, cmpOp_of_some (compareVals_int (h p hp)), isLT_compare]
  · intro p hp
    refine yields_bin hl (hitems p hp) (by decide) (by decide) ?_
    rw [operate_le, cmpOp_of_some (compareVals_int (h p hp)), isLE_compare]
  · intro p hp
    refine yields_bin hl (hitems p hp) (by decide) (by decide) ?_
    rw [operate_gt, cmpOp_of_some (compareVals_int (h p hp)), isGT_compare]
  · intro p hp
    refine yields_bin hl (hitems p hp) (by decide) (by decide) ?_
    rw [operate_ge, cmpOp_of_some (compareVals_int (h p hp)), isGE_compare]
  · intro lo hlo hi hhi
    have hbetween := yields_between hl (hitems lo hlo) (hitems hi hhi)
    rw [compareVals_int (h lo hlo), compareVals_int (h hi hhi), Option.any_some, Option.any_some, isGE_compare,
      isLE_compare, ← Bool.decide_and] at hbetween
    exact hbetween
  · intro lo hlo hi hhi si ei
    have hin := yields_in hl (yields_range (.some (hitems lo hlo)) (.some (hitems hi hhi)) si ei)
    rw [inTest_range, rangeContains_of_some (compareVals_int (h lo hlo)) (compareVals_int (h hi hhi)), isGT_compare,
      isLT_compare] at hin
    convert hin using 2
    rw [Bool.eq_iff_iff]
    simp only [decide_eq_true_eq, Bool.and_eq_true, Bool.or_eq_true, beq_iff_eq, compare_eq_iff_eq, gt_iff_lt]
  · intro lo hlo si ei
    have hin := yields_in hl (yields_range (.some (hitems lo hlo)) .none si ei)
    rw [inTest_range, rangeContains_above (compareVals_int (h lo hlo)), isGT_compare] at hin
    convert hin using 2
    rw [Bool.eq_iff_iff]
    simp only [decide_eq_true_eq, Bool.and_eq_true, Bool.or_eq_true, beq_iff_eq, compare_eq_iff_eq, gt_iff_lt]
  · intro hi hhi si ei
    have hin := yields_in hl (yields_range .none (.some (hitems hi hhi)) si ei)
    rw [inTest_range, rangeContains_below (compareVals_int (h hi hhi)), isLT_compare] at hin
    convert hin using 2
    rw [Bool.eq_iff_iff]
    simp only [decide_eq_true_eq, Bool.and_eq_true, Bool.or_eq_true, beq_iff_eq, compare_eq_iff_eq]
  · intro p hp
    have hin := yields_in hl (hitems p hp)
    rwa [inTest_int, feelEq_int (h p hp)] at hin
  · have hin := yields_in hl (yields_list hitems)
    rwa [hints, inTest_ints (List.forall_mem_map.mpr h)] at hin
  · rw [call_listContains, hints, any_ints (List.forall_mem_map.mpr h)]
  · intro p hp
    rw [valuesEqual_int, feelEq_int (h p hp)]

/-- The comparisons tell what is true exactly of integers that are equal or have different nearest numbers. -/
theorem exact_iff_apart {x : Int} {items : List (Node × Int)} (hl : Yields base scopes l (.int x))
    (hitems : ∀ p ∈ items, Yields base scopes p.1 (.int p.2)) :
    Exact base scopes l x items ↔ ∀ p ∈ items, Apart x p.2 := by
  refine ⟨fun h p hp => ?_, exact_of_apart hl hitems⟩
  by_contra hsame
  obtain ⟨hne, hequal⟩ := feelEq_of_not_apart hsame
  have hdmn := h.dmn p hp
  rw [valuesEqual_int, hequal, eq_comm, beq_iff_eq] at hdmn
  exact hne hdmn

end

theorem exact_three_five :
    let _ := Texts.plain
    Exact ∅ [[("a", .int 3), ("b", .int 5)]] (.var "a") 3 [(.var "b", 5)] := by
  intro _
  have ha : Yields ∅ [[("a", .int 3), ("b", .int 5)]] (.var "a") (.int 3) := rfl
  refine (exact_iff_apart ha (fun p hp => ?_)).mpr fun p hp => ?_
  · rw [List.mem_singleton.mp hp]
    rfl
  · rw [List.mem_singleton.mp hp]
    decide +kernel

/-- Two keys of one partition. -/
theorem keys_compare_equal :
    let _ := Texts.plain
    operate .eq (.int 18014398509481985) (.int 18014398509481984) = .ok (.bool true) ∧
      operate .gt (.int 18014398509481985) (.int 18014398509481984) = .ok (.bool false) ∧
      inTest (.int 18014398509481985) (.list [.int 18014398509481984]) = true ∧
      Dmn.valuesEqual (.int 18014398509481985) (.int 18014398509481984) = true := by
  intro _
  have hequal : feelEq (.int 18014398509481985) (.int 18014398509481984) = true := by decide +kernel
  have hcompare : compareVals (.int 18014398509481985) (.int 18014398509481984) = some .eq := by decide +kernel
  refine ⟨?_, ?_, ?_, ?_⟩
  · rw [operate_eq, hequal]
  · rw [operate_gt, cmpOp_of_some hcompare]
    rfl
  · rw [inTest_list, List.any_cons, matchesItem_int, hequal]
    rfl
  · rw [valuesEqual_int, hequal]

end NanoBpm.FeelExpr
