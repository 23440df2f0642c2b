import NanoBpm.Feel.Expression
import NanoBpm.Lib.Float64Order

/-!
# Interval relations (`builtins.rs:1416-1600`)

The relations compare the ends of ranges, `in` compares a point with both ends. A range without an end has no relations.
-/

namespace NanoBpm.FeelExpr

open Builtins

/-! ## Points -/

theorem numbers_cmp_swap (a b : UInt64) : F64.cmp b a = (F64.cmp a b).map Ordering.swap := by
  cases ha : F64.isNaN a with
  | true => simp [F64.cmp, ha]
  | false =>
    cases hb : F64.isNaN b with
    | true => simp [F64.cmp, hb]
    | false =>
      rw [F64.cmp_eq ha hb, F64.cmp_eq hb ha, Option.map_some, Int.compare_swap]

theorem compareVals_swap (v w : FeelVal) : compareVals w v = (compareVals v w).map Ordering.swap := by
  cases v <;> cases w <;> unfold compareVals
  all_goals first
    | rfl
    | exact numbers_cmp_swap _ _
    | exact congrArg some (Int.compare_swap _ _).symm
    | exact congrArg some Std.OrientedCmp.eq_swap

theorem gt_eq_lt (v w : FeelVal) : gt v w = lt w v := by
  unfold gt lt
  rw [compareVals_swap]
  cases compareVals w v with
  | none => rfl
  | some o => cases o <;> rfl

theorem eqp_comm (v w : FeelVal) : eqp v w = eqp w v := by
  unfold eqp
  rw [compareVals_swap]
  cases compareVals w v with
  | none => rfl
  | some o => cases o <;> rfl

def numberPlace (d : UInt64) : Option (Nat × Int) := if F64.isNaN d then none else some (0, F64.place d)

/-- The kind of a point and its place among the points of that kind; a NaN has none. -/
def place : FeelVal → Option (Nat × Int)
  | .int i => numberPlace (F64.ofInt i)
  | .double d => numberPlace d
  | .date d => some (1, d.epochDay)
  | .time t => some (2, t.utcNanos)
  | .dateTime d => some (3, d.epochNanos)
  | .ymDur d => some (4, d.months)
  | .dtDur d => some (5, d.nanos)
  | _ => none

def comparePlaces : Option (Nat × Int) → Option (Nat × Int) → Option Ordering
  | some (k, m), some (l, n) => if k = l then some (compare m n) else none
  | _, _ => none

theorem cmp_eq_comparePlaces (a b : UInt64) : F64.cmp a b = comparePlaces (numberPlace a) (numberPlace b) := by
  unfold numberPlace
  cases ha : F64.isNaN a with
  | true => simp [F64.cmp, ha, comparePlaces]
  | false =>
    cases hb : F64.isNaN b with
    | true => simp [F64.cmp, hb, comparePlaces]
    | false => simpa [comparePlaces] using F64.cmp_eq ha hb

theorem comparePlaces_number {d : UInt64} {k : Nat} {n : Int} (hk : k ≠ 0) :
    comparePlaces (numberPlace d) (some (k, n)) = none ∧ comparePlaces (some (k, n)) (numberPlace d) = none := by
  unfold numberPlace
  cases F64.isNaN d <;> simp [comparePlaces, hk, hk.symm]

theorem compareVals_of_isPoint {v : FeelVal} (hv : isPoint v) (w : FeelVal) :
    compareVals v w = comparePlaces (place v) (place w) := by
  cases v with
  | int i =>
    cases w with
    | int j => exact cmp_eq_comparePlaces _ _
    | double d => exact cmp_eq_comparePlaces _ _
    | _ => first
      | exact (comparePlaces_number (by decide)).1.symm
      | exact (by cases place (.int i) <;> rfl)
  | double d =>
    cases w with
    | int j => exact cmp_eq_comparePlaces _ _
    | double d' => exact cmp_eq_comparePlaces _ _
    | _ => first
      | exact (comparePlaces_number (by decide)).1.symm
      | exact (by cases place (.double d) <;> rfl)
  | date d | time d | dateTime d | ymDur d | dtDur d =>
    cases w <;> first | rfl | exact (comparePlaces_number (by decide)).2.symm
  | _ => cases hv

theorem comparePlaces_swap (x y : Option (Nat × Int)) : comparePlaces y x = (comparePlaces x y).map Ordering.swap := by
  rcases x with _ | ⟨k, m⟩ <;> rcases y with _ | ⟨l, n⟩ <;> try rfl
  unfold comparePlaces
  by_cases h : k = l
  · simp [h, Int.compare_swap]
  · simp [h, Ne.symm h]

theorem compareVals_of_isPoint_right {w : FeelVal} (hw : isPoint w) (v : FeelVal) :
    compareVals v w = comparePlaces (place v) (place w) := by
  rw [compareVals_swap, compareVals_of_isPoint hw, ← comparePlaces_swap]

theorem isPoint_of_place {v : FeelVal} {kn : Nat × Int} (h : place v = some kn) : isPoint v := by
  cases v <;> first | rfl | cases h

theorem comparePlaces_eq_some {x y : Option (Nat × Int)} {o : Ordering} :
    comparePlaces x y = some o ↔ ∃ k m n, x = some (k, m) ∧ y = some (k, n) ∧ compare m n = o := by
  rcases x with _ | ⟨k, m⟩ <;> rcases y with _ | ⟨l, n⟩ <;> simp [comparePlaces]
  grind

/-- What compares with a point is a point of its kind. -/
theorem compareVals_eq_some {v w : FeelVal} (h : isPoint v ∨ isPoint w) {o : Ordering} :
    compareVals v w = some o ↔ ∃ k m n, place v = some (k, m) ∧ place w = some (k, n) ∧ compare m n = o := by
  rw [← comparePlaces_eq_some]
  rcases h with h | h
  · rw [compareVals_of_isPoint h]
  · rw [compareVals_of_isPoint_right h]

theorem lt_iff {v w : FeelVal} (h : isPoint v ∨ isPoint w) :
    lt v w = true ↔ ∃ k m n, place v = some (k, m) ∧ place w = some (k, n) ∧ m < n := by
  simp only [lt, beq_iff_eq, compareVals_eq_some h, compare_lt_iff_lt]

theorem eqp_iff {v w : FeelVal} (h : isPoint v ∨ isPoint w) :
    eqp v w = true ↔ ∃ k m, place v = some (k, m) ∧ place w = some (k, m) := by
  simp only [eqp, beq_iff_eq, compareVals_eq_some h, compare_eq_iff_eq]
  constructor
  · rintro ⟨k, m, n, hv, hw, rfl⟩
    exact ⟨k, m, hv, hw⟩
  · rintro ⟨k, m, hv, hw⟩
    exact ⟨k, m, m, hv, hw, rfl⟩

/-! ## Ranges -/

namespace Builtins.Bounds

/-- The point is not before the start. -/
def above (p : Bounds) (x : FeelVal) : Bool := lt p.start x || (eqp p.start x && p.startClosed)

def under (p : Bounds) (x : FeelVal) : Bool := lt x p.stop || (eqp x p.stop && p.endClosed)

end Builtins.Bounds

theorem rangeContains_bounds (p : Bounds) (x : FeelVal) :
    rangeContains (some p.start) p.startClosed (some p.stop) p.endClosed x = (p.above x && p.under x) := by
  unfold rangeContains
  dsimp only
  refine congrArg₂ and ?_ ?_
  · unfold Bounds.above
    rw [← gt_eq_lt, eqp_comm, gt, eqp]
    rcases compareVals x p.start with _ | o
    · rfl
    · cases o <;> cases p.startClosed <;> rfl
  · unfold Bounds.under lt eqp
    rcases compareVals x p.stop with _ | o
    · rfl
    · cases o <;> cases p.endClosed <;> rfl

/-- A range with both ends, and a point as a range of one point. -/
def extent (v : FeelVal) : Option Bounds :=
  match boundsOf v with
  | some (some p) => some p
  | some none => if isPoint v then some ⟨v, true, v, true⟩ else none
  | none => none

theorem eqp_of_feelEq {v x : FeelVal} (hv : isPoint v) (h : feelEq x v) : eqp x v := by
  unfold feelEq at h
  cases v <;> cases hv
  all_goals cases x <;> simp_all [FeelVal.asF64, FeelVal.beq, eqp, compareVals, F64.beq]

theorem inTest_bounds {v x : FeelVal} {p : Bounds} (hp : boundsOf v = some (some p)) : inTest x v = (p.above x && p.under x) := by
  unfold boundsOf at hp
  split at hp
  · next start sc stop ec =>
    obtain rfl := Option.some.inj (Option.some.inj hp)
    exact rangeContains_bounds ⟨start, sc, stop, ec⟩ x
  · cases hp
  · cases hp

theorem within_of_inTest {v x : FeelVal} {p : Bounds} (hp : extent v = some p) (hx : inTest x v) : p.above x && p.under x := by
  unfold extent at hp
  split at hp
  · next q hq =>
    obtain rfl := Option.some.inj hp
    rwa [inTest_bounds hq] at hx
  · next hv =>
    split at hp
    · next hpoint =>
      obtain rfl := Option.some.inj hp
      have hfeel : feelEq x v = true := by
        unfold inTest at hx
        split at hx
        · cases hpoint
        · unfold matchesItem at hx
          split at hx
          · cases hpoint
          · exact hx
      have heq := eqp_of_feelEq hpoint hfeel
      unfold Bounds.above Bounds.under
      rw [eqp_comm v x, heq]
      simp
    · cases hp
  · cases hp

/-! ## The relations -/

/-- Both arguments have a point that compares with the other's. -/
def comparable (a b : FeelVal) : Bool :=
  match refPoint a, refPoint b with
  | some p, some q => isPoint p && isPoint q && (compareVals p q).isSome
  | _, _ => false

theorem interval_eq (name : String) (a b : FeelVal) :
    interval name a b = if comparable a b then (intervalBool name a b).elim .null .bool else .null := by
  unfold interval
  change (if (!comparable a b) = true then _ else _) = _
  cases comparable a b <;> rfl

theorem comparable_symm (a b : FeelVal) : comparable a b = comparable b a := by
  unfold comparable
  cases refPoint a <;> cases refPoint b <;> try rfl
  next p q =>
    change (isPoint p && isPoint q && (compareVals p q).isSome) = (isPoint q && isPoint p && (compareVals q p).isSome)
    rw [compareVals_swap p q, Option.isSome_map, Bool.and_comm (isPoint q)]

def converses : List (String × String) :=
  [("before", "after"), ("meets", "met by"), ("overlaps before", "overlaps after"), ("finishes", "finished by"),
    ("includes", "during"), ("starts", "started by")]

theorem intervalBool_converse {name name' : String} (h : (name, name') ∈ converses) (a b : FeelVal) :
    intervalBool name a b = intervalBool name' b a := by
  unfold intervalBool
  cases boundsOf a with
  | none => cases boundsOf b <;> rfl
  | some p =>
    cases boundsOf b with
    | none => rfl
    | some q =>
      unfold converses at h
      simp only [List.mem_cons, Prod.mk.injEq, List.not_mem_nil, or_false] at h
      rcases h with ⟨rfl, rfl⟩ | ⟨rfl, rfl⟩ | ⟨rfl, rfl⟩ | ⟨rfl, rfl⟩ | ⟨rfl, rfl⟩ | ⟨rfl, rfl⟩ <;>
        cases p <;> cases q <;> first
          | rfl
          | refine congrArg some ?_
            simp only [gt_eq_lt, eqp_comm, BEq.comm, Bool.and_comm, Bool.or_comm, Bool.and_assoc]

theorem interval_converse {name name' : String} (h : (name, name') ∈ converses) (a b : FeelVal) :
    interval name a b = interval name' b a := by
  rw [interval_eq, interval_eq, comparable_symm, intervalBool_converse h]

theorem intervalBool_overlaps (a b : FeelVal) : intervalBool "overlaps" a b = intervalBool "overlaps" b a := by
  unfold intervalBool
  cases boundsOf a with
  | none => cases boundsOf b <;> rfl
  | some p =>
    cases boundsOf b with
    | none => rfl
    | some q =>
      cases p <;> cases q <;> first
        | rfl
        | refine congrArg some ?_
          simp only [gt_eq_lt, eqp_comm, Bool.and_comm, Bool.and_left_comm]

theorem overlaps_symm (a b : FeelVal) : interval "overlaps" a b = interval "overlaps" b a := by
  rw [interval_eq, interval_eq, comparable_symm, intervalBool_overlaps]

/-- A range without one of its ends. -/
def Unbounded (v : FeelVal) : Prop := boundsOf v = none

theorem interval_unbounded {a b : FeelVal} (h : Unbounded a ∨ Unbounded b) (name : String) : interval name a b = .null := by
  have hbool : intervalBool name a b = none := by
    unfold intervalBool
    rcases h with h | h
    · rw [h]
      rfl
    · rw [h]
      cases boundsOf a <;> rfl
  rw [interval_eq, hbool]
  split <;> rfl

theorem isPoint_of_comparable {a b : FeelVal} (h : comparable a b) :
    ∃ p q, refPoint a = some p ∧ refPoint b = some q ∧ isPoint p ∧ isPoint q ∧ (compareVals p q).isSome := by
  unfold comparable at h
  split at h
  · next p q hp hq =>
    simp only [Bool.and_eq_true] at h
    exact ⟨p, q, hp, hq, h.1.1, h.1.2, h.2⟩
  · cases h

theorem extent_of_refPoint {a p : FeelVal} (href : refPoint a = some p) (hb : ¬ Unbounded a) :
    ∃ e, extent a = some e ∧ e.start = p := by
  cases a with
  | range start si stop ei =>
    obtain rfl : start = some p := href
    cases stop with
    | none => exact absurd rfl hb
    | some e => exact ⟨_, rfl, rfl⟩
  | int _ | double _ | date _ | time _ | dateTime _ | ymDur _ | dtDur _ => exact ⟨_, rfl, Option.some.inj href⟩
  | _ => cases href

/-- The first range ends before the second starts. -/
def Builtins.Bounds.before (p q : Bounds) : Bool := lt p.stop q.start || ((!p.endClosed || !q.startClosed) && eqp p.stop q.start)

/-- A value with an extent is a range with both ends, or a point. -/
theorem extent_cases {v : FeelVal} {p : Bounds} (hp : extent v = some p) :
    boundsOf v = some (some p) ∨ boundsOf v = some none ∧ isPoint v ∧ p = ⟨v, true, v, true⟩ := by
  unfold extent at hp
  split at hp
  · next q hq =>
    obtain rfl := Option.some.inj hp
    exact .inl hq
  · next hv =>
    split at hp
    · next hpoint => exact .inr ⟨hv, hpoint, (Option.some.inj hp).symm⟩
    · cases hp
  · cases hp

theorem intervalBool_before {a b : FeelVal} {p q : Bounds} (hp : extent a = some p) (hq : extent b = some q) :
    intervalBool "before" a b = some (p.before q) := by
  unfold intervalBool
  rcases extent_cases hp with ha | ⟨ha, -, rfl⟩ <;> rcases extent_cases hq with hb | ⟨hb, -, rfl⟩ <;>
    rw [ha, hb] <;> refine congrArg some ?_ <;> simp [Bounds.before, Bool.and_comm]

/-- What is before a range shares no point with it. -/
theorem disjoint_of_before {p q : Bounds} (hpoint : isPoint q.start) {x : FeelVal} (hbefore : p.before q)
    (hp : p.under x) (hq : q.above x) : False := by
  unfold Bounds.before at hbefore
  unfold Bounds.under at hp
  unfold Bounds.above at hq
  simp only [Bool.and_eq_true, Bool.or_eq_true, Bool.not_eq_true', lt_iff (.inl hpoint), lt_iff (.inr hpoint),
    eqp_iff (.inl hpoint), eqp_iff (.inr hpoint)] at hq hbefore
  have hx : isPoint x := by
    rcases hq with ⟨k, m, n, -, hx, -⟩ | ⟨⟨k, m, -, hx⟩, -⟩ <;> exact isPoint_of_place hx
  simp only [Bool.and_eq_true, Bool.or_eq_true, lt_iff (.inl hx), eqp_iff (.inl hx)] at hp
  grind

theorem before_disjoint {a b x : FeelVal} (h : interval "before" a b = .bool true) (ha : inTest x a) (hb : inTest x b) : False := by
  rw [interval_eq] at h
  split at h
  · next hcmp =>
    obtain ⟨pa, pb, hra, hrb, -, hpb, -⟩ := isPoint_of_comparable hcmp
    have hbounded : ∀ v ∈ [a, b], ¬ Unbounded v := by
      intro v hv hu
      have hnull := interval_unbounded (a := a) (b := b) (by simp at hv; rcases hv with rfl | rfl <;> simp [hu]) "before"
      rw [interval_eq, if_pos hcmp, h] at hnull
      cases hnull
    obtain ⟨p, hp, -⟩ := extent_of_refPoint hra (hbounded a (by simp))
    obtain ⟨q, hq, rfl⟩ := extent_of_refPoint hrb (hbounded b (by simp))
    rw [intervalBool_before hp hq] at h
    have hpx := within_of_inTest hp ha
    have hqx := within_of_inTest hq hb
    rw [Bool.and_eq_true] at hpx hqx
    exact disjoint_of_before hpb (by simpa using h) hpx.2 hqx.1
  · cases h

theorem refPoint_of_bounds {a : FeelVal} {p : Bounds} (hp : boundsOf a = some (some p)) : refPoint a = some p.start := by
  unfold boundsOf at hp
  split at hp
  · obtain rfl := Option.some.inj (Option.some.inj hp)
    rfl
  · cases hp
  · cases hp

theorem refPoint_of_isPoint {v : FeelVal} (hv : isPoint v) : refPoint v = some v := by
  cases v <;> first | rfl | cases hv

theorem above_iff {p : Bounds} {x : FeelVal} (hx : isPoint x) :
    p.above x = true ↔ ∃ k m n, place p.start = some (k, m) ∧ place x = some (k, n) ∧ (m < n ∨ m = n ∧ p.startClosed) := by
  unfold Bounds.above
  simp only [Bool.or_eq_true, Bool.and_eq_true, lt_iff (.inr hx), eqp_iff (.inr hx)]
  grind

theorem under_iff {p : Bounds} {x : FeelVal} (hx : isPoint x) :
    p.under x = true ↔ ∃ k m n, place p.stop = some (k, m) ∧ place x = some (k, n) ∧ (n < m ∨ m = n ∧ p.endClosed) := by
  unfold Bounds.under
  simp only [Bool.or_eq_true, Bool.and_eq_true, lt_iff (.inl hx), eqp_iff (.inl hx)]
  grind

/-- Two ranges with both ends that share a point overlap. -/
theorem overlaps_of_shared {a b x : FeelVal} {p q : Bounds} (hp : boundsOf a = some (some p)) (hq : boundsOf b = some (some q))
    (hx : isPoint x) (ha : inTest x a) (hb : inTest x b) : interval "overlaps" a b = .bool true := by
  rw [inTest_bounds hp, Bool.and_eq_true, above_iff hx, under_iff hx] at ha
  rw [inTest_bounds hq, Bool.and_eq_true, above_iff hx, under_iff hx] at hb
  obtain ⟨⟨k, s₁, n, hs₁, hn, hsn₁⟩, ⟨k₁, e₁, n₁, he₁, hn₁, hne₁⟩⟩ := ha
  obtain ⟨⟨k₂, s₂, n₂, hs₂, hn₂, hsn₂⟩, ⟨k₃, e₂, n₃, he₂, hn₃, hne₂⟩⟩ := hb
  rw [hn] at hn₁ hn₂ hn₃
  cases hn₁
  cases hn₂
  cases hn₃
  have hcmp : comparable a b := by
    have hsome : compareVals p.start q.start = some (compare s₁ s₂) :=
      (compareVals_eq_some (.inl (isPoint_of_place hs₁))).mpr ⟨k, s₁, s₂, hs₁, hs₂, rfl⟩
    unfold comparable
    rw [refPoint_of_bounds hp, refPoint_of_bounds hq]
    simp [isPoint_of_place hs₁, isPoint_of_place hs₂, hsome]
  rw [interval_eq, if_pos hcmp]
  have hpoint := isPoint_of_place hs₁
  have hpoint' := isPoint_of_place he₁
  have hafter : gt p.stop q.start || (eqp p.stop q.start && p.endClosed && q.startClosed) := by
    simp only [gt_eq_lt, Bool.or_eq_true, Bool.and_eq_true, lt_iff (.inr hpoint'), eqp_iff (.inl hpoint')]
    grind
  have hbefore : lt p.start q.stop || (eqp p.start q.stop && p.startClosed && q.endClosed) := by
    simp only [Bool.or_eq_true, Bool.and_eq_true, lt_iff (.inl hpoint), eqp_iff (.inl hpoint)]
    grind
  have hbool : intervalBool "overlaps" a b = some true := by
    unfold intervalBool
    rw [hp, hq]
    exact congrArg some (Bool.and_eq_true_iff.mpr ⟨hafter, hbefore⟩)
  rw [hbool]
  rfl

/-- The point is a closed end of the range that is beyond the other end: one point that the range leaves out, or an end of
a range that runs backwards. -/
def Stray (p : Bounds) (x : FeelVal) : Prop :=
  (eqp p.start x ∧ p.startClosed ∧ p.under x = false) ∨ (eqp p.stop x ∧ p.endClosed ∧ p.above x = false)

theorem includes_point (p : Bounds) (x : FeelVal) :
    (((lt p.start x && gt p.stop x) || (eqp p.start x && p.startClosed) || (eqp p.stop x && p.endClosed)) =
      (p.above x && p.under x)) ↔ ¬ Stray p x := by
  unfold Stray Bounds.above Bounds.under
  rw [gt_eq_lt, eqp_comm x]
  cases lt p.start x <;> cases lt x p.stop <;> cases eqp p.start x <;> cases eqp p.stop x <;>
    cases p.startClosed <;> cases p.endClosed <;> decide

theorem includes_iff {a b : FeelVal} {p : Bounds} (hp : boundsOf a = some (some p)) (hb : isPoint b) :
    interval "includes" a b = .bool (inTest b a) ↔ (compareVals p.start b).isSome ∧ ¬ Stray p b := by
  have hcmp : comparable a b = (compareVals p.start b).isSome := by
    have hstart : (compareVals p.start b).isSome → isPoint p.start := by
      intro h
      obtain ⟨o, ho⟩ := Option.isSome_iff_exists.mp h
      obtain ⟨k, m, n, hplace, -⟩ := (compareVals_eq_some (.inr hb)).mp ho
      exact isPoint_of_place hplace
    unfold comparable
    rw [refPoint_of_bounds hp, refPoint_of_isPoint hb]
    simp only [hb, Bool.and_true]
    rw [Bool.eq_iff_iff, Bool.and_eq_true]
    exact ⟨fun h => h.2, fun h => ⟨hstart h, h⟩⟩
  have hbounds : boundsOf b = some none := by
    cases b <;> first | rfl | cases hb
  rw [interval_eq, hcmp, inTest_bounds hp, ← includes_point]
  cases hsome : (compareVals p.start b).isSome with
  | false => simp
  | true =>
    have hbool : intervalBool "includes" a b =
        some ((lt p.start b && gt p.stop b) || (eqp p.start b && p.startClosed) || (eqp p.stop b && p.endClosed)) := by
      unfold intervalBool
      rw [hp, hbounds]
      rfl
    rw [hbool]
    simp

/-- `includes` and `during` follow the ends of the range one by one, as the other relations do; a range without an end has no
relations. -/
theorem intervals_lawful (a b : FeelVal) :
    (∀ pair ∈ converses, interval pair.1 a b = interval pair.2 b a) ∧
    interval "overlaps" a b = interval "overlaps" b a ∧
    (Unbounded a ∨ Unbounded b → ∀ name, interval name a b = .null) ∧
    (interval "before" a b = .bool true → ∀ x, ¬ (inTest x a ∧ inTest x b)) ∧
    (∀ p q, boundsOf a = some (some p) → boundsOf b = some (some q) → ∀ x, isPoint x → inTest x a → inTest x b →
      interval "overlaps" a b = .bool true) ∧
    (∀ p, boundsOf a = some (some p) → isPoint b →
      (interval "includes" a b = .bool (inTest b a) ↔ (compareVals p.start b).isSome ∧ ¬ Stray p b) ∧
        (interval "during" b a = .bool (inTest b a) ↔ (compareVals p.start b).isSome ∧ ¬ Stray p b)) := by
  refine ⟨fun pair h => interval_converse h a b, overlaps_symm a b, interval_unbounded, fun h x hx => before_disjoint h hx.1 hx.2,
    fun p q hp hq x => overlaps_of_shared hp hq, fun p hp hb => ⟨includes_iff hp hb, ?_⟩⟩
  rw [← @interval_converse "includes" "during" (by decide) a b]
  exact includes_iff hp hb

/-- What a text is evaluated to, without variables. -/
def valueOf [Texts] [Unicode] (expr : String) : Option FeelVal := (evaluateText ∅ (fun _ => ⟨none, "", 0⟩) 3 expr).bind (·.toOption)

/-- A closed end is included also where the other end leaves it out, and two points that are the same do not overlap. -/
theorem end_included_left_out :
    let _ := Texts.plain
    let _ := Unicode.ascii
    (valueOf "includes([1..1), 1)").any (·.beq (.bool true)) ∧ (valueOf "1 in [1..1)").any (·.beq (.bool false)) ∧
      (valueOf "during(5, [5..1])").any (·.beq (.bool true)) ∧ (valueOf "5 in [5..1]").any (·.beq (.bool false)) ∧
      (valueOf "overlaps(1, 1)").any (·.beq .null) := by
  decide +kernel

end NanoBpm.FeelExpr
