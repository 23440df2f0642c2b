import NanoBpm.Feel.Arithmetic

/-!
# Positions in texts and lists (`builtins.rs:399-414,733-753,953-973`, `eval.rs:240-264`)

A position counts from the front, 1 the first, or from the end, -1 the last. The builtins panic at a sum in a build with
overflow checks, and in any build at a slice that the wrapped sum puts outside the text.
-/

namespace NanoBpm.FeelExpr.Positions

open Builtins

/-! ## What they compute -/

section

variable {α : Type}

/-- The index of the element at a position. -/
def elementAt (len : Nat) (p : Int) : Option Nat :=
  if 1 ≤ p ∧ p ≤ len then some (p - 1).toNat
  else if -len ≤ p ∧ p ≤ -1 then some (len + p).toNat
  else none

/-- From the element at a position on, at most as many elements as the length says. -/
def sublistOf (xs : List α) (p : Int) (length : Option Int) : List α :=
  match elementAt xs.length p with
  | some i => (xs.drop i).take (length.elim xs.length Int.toNat)
  | none => []

/-- Before the element at a position, and at the near end where there is none. -/
def insertOf (xs : List α) (p : Int) (x : α) : List α :=
  match elementAt xs.length p with
  | some i => xs.insertIdx i x
  | none => if p > 0 then xs ++ [x] else x :: xs

def removeOf (xs : List α) (p : Int) : List α := (elementAt xs.length p).elim xs xs.eraseIdx

def replaceOf (xs : List α) (p : Int) (x : α) : List α := (elementAt xs.length p).elim xs (xs.set · x)

/-- The element at a position, or `null`. -/
def selectOf (xs : List FeelVal) (p : Int) : FeelVal :=
  (elementAt xs.length p).elim .null fun i => xs[i]?.getD .null

/-- The builtin returns the value, or `null` or an error where the position is outside. -/
def Gives (run : Run FeelVal) (v : FeelVal) (outside : Prop) : Prop :=
  ∃ result, run = returned result ∧ (result = .ok v ∨ outside ∧ (result = .ok .null ∨ ∃ e, result = .error e))

/-- The arguments after the position: the length is not given, or a number. -/
inductive Length : List FeelVal → Option Int → Prop where
  | rest : Length [] none
  | given {v : FeelVal} {n : UInt64} (h : v.asF64 = some n) : Length [v] (some (FeelVal.asI64 n))

/-! ## When they do -/

/-- The element after the last one has an `i64` index, and position 0 selects nothing. -/
def SubstringFits (len : Nat) (p : Int) (length : Option Int) : Prop :=
  match elementAt len p with
  | some i => ∀ n ∈ length, InI64 (i + max n 0)
  | none => p = 0 → len = 0 ∨ ∃ n ∈ length, n ≤ 0

def SublistFits (len : Nat) (p : Int) (length : Option Int) : Prop :=
  ∀ i ∈ elementAt len p, ∀ n ∈ length, InI64 (i + n)

/-- A negative position is taken for the front, the least `i64` for the end. -/
def InsertFits (checks : Bool) (xs : List α) (p : Int) (x : α) : Prop :=
  if p = -9223372036854775808 then checks = false ∧ ∀ y ∈ xs, y = x
  else p < 0 → ∀ y ∈ xs.take (xs.length + p).toNat, y = x

/-- A negative position removes nothing. -/
def RemoveFits (checks : Bool) (len : Nat) (p : Int) : Prop :=
  if p = -9223372036854775808 then checks = false else p < 0 → p < -len

end

/-! ## Sums and slices -/

theorem addI64_of_in {checks : Bool} {a b : Int} (h : InI64 (a + b)) : addI64 checks a b = .ok (a + b) := by
  unfold addI64
  rw [if_neg (by simp [h]), wrapI64_of_in h]

theorem asI64_in (n : UInt64) : InI64 (FeelVal.asI64 n) := by
  unfold FeelVal.asI64 F64.toInt InI64
  split
  · omega
  · split
    · split <;> omega
    · omega

theorem asUsize_of_in {n : Int} (h : 0 ≤ n) (hn : n < 9223372036854775808) : asUsize n = n.toNat := by
  unfold asUsize
  omega

variable {α : Type}

theorem slice_of_le {xs : List α} {first stop : Int} (h : 0 ≤ first) (hle : first ≤ stop) (hlen : stop ≤ xs.length)
    (hxs : xs.length < 9223372036854775808) :
    slice xs first stop = .ok ((xs.drop first.toNat).take (stop.toNat - first.toNat)) := by
  unfold slice
  rw [asUsize_of_in h (by omega), asUsize_of_in (by omega) (by omega), if_pos (by omega)]

/-- A slice does not reach a negative index. -/
theorem slice_of_neg {xs : List α} {first stop : Int} (h : stop < 0) (hstop : InI64 stop)
    (hxs : xs.length < 9223372036854775808) : slice xs first stop = .error .slice := by
  unfold slice asUsize
  unfold InI64 at hstop
  rw [if_neg (by omega)]

/-! ## Elements -/

theorem elementAt_eq_some {len : Nat} {p : Int} {i : Nat} :
    elementAt len p = some i ↔ i < len ∧ (p = i + 1 ∨ p = i - len) := by
  unfold elementAt
  grind

theorem elementAt_eq_none {len : Nat} {p : Int} : elementAt len p = none ↔ p = 0 ∨ p > len ∨ p < -len := by
  unfold elementAt
  grind

/-- `x` inserted at the front, and further on. -/
theorem cons_eq_insertIdx_iff {xs : List α} {x : α} {i : Nat} (h : i ≤ xs.length) :
    x :: xs = xs.insertIdx i x ↔ ∀ y ∈ xs.take i, y = x := by
  induction i generalizing xs with
  | zero => simp
  | succ i ih =>
    cases xs with
    | nil => simp at h
    | cons y ys =>
      have hi : i ≤ ys.length := by simpa using h
      rw [List.insertIdx_succ_cons, List.take_succ_cons, List.forall_mem_cons, ← ih hi, List.cons.injEq]
      constructor
      · rintro ⟨rfl, heq⟩
        exact ⟨rfl, heq⟩
      · rintro ⟨rfl, heq⟩
        exact ⟨rfl, heq⟩

theorem append_eq_insertIdx (xs : List α) (x : α) : xs ++ [x] = xs.insertIdx xs.length x := by
  simp

/-! ## Arguments -/

@[simp]
theorem returned_bind {α β : Type} (a : α) (f : α → Run β) : (returned (.ok a) >>= f) = f a := rfl

@[simp]
theorem pure_eq_returned {α : Type} (a : α) : (pure a : Run α) = returned (.ok a) := rfl

theorem wantNum_of_some {v : FeelVal} {a : UInt64} (h : v.asF64 = some a) (ctx : String) : wantNum v ctx = .ok a := by
  rw [wantNum, h]

theorem substringLength_of_length {tail : List FeelVal} {n : Option Int} (h : Length tail n) (rest : Int) (v w : FeelVal) :
    substringLength rest (v :: w :: tail)[2]? = returned (.ok (n.getD rest)) := by
  cases h with
  | rest => rfl
  | @given u b h =>
    change substringLength rest (some u) = _
    unfold substringLength
    split
    · next heq =>
      cases heq
      cases h
    · next heq => cases heq
    · next heq =>
      cases heq
      rw [wantNum_of_some h]
      rfl

theorem sublistLength_of_length {tail : List FeelVal} {n : Option Int} (h : Length tail n) (rest : Int) (v w : FeelVal) :
    sublistLength rest (v :: w :: tail)[2]? = returned (.ok (n.getD rest)) := by
  cases h with
  | rest => rfl
  | @given u b h =>
    change FeelVal.asI64 <$> returned (wantNum u "sublist") = _
    rw [wantNum_of_some h]
    rfl

theorem substring_eq (checks : Bool) (s : String) {v : FeelVal} {a : UInt64} (hv : v.asF64 = some a) {tail : List FeelVal}
    {n : Option Int} (hn : Length tail n) :
    substring checks (.str s :: v :: tail) =
      (let len : Int := s.toList.length
       let p := FeelVal.asI64 a
       let first := if p > 0 then p - 1 else if p < 0 then len + p else 0
       if first < 0 ∨ first ≥ len then returned (.ok (.str ""))
       else do return .str (String.ofList (← substringFrom checks s.toList first (n.getD (len - first))))) := by
  have hwant : wantNum (arg (.str s :: v :: tail) 1) "substring" = .ok a := wantNum_of_some hv _
  unfold substring
  rw [show wantStr (arg (.str s :: v :: tail) 0) "substring" = .ok s from rfl, hwant]
  simp only [returned_bind, substringLength_of_length hn, pure_eq_returned]

theorem sublist_eq (checks : Bool) (xs : List FeelVal) {v : FeelVal} {a : UInt64} (hv : v.asF64 = some a)
    {tail : List FeelVal} {n : Option Int} (hn : Length tail n) :
    sublist checks (.list xs :: v :: tail) =
      (let len : Int := xs.length
       let p := FeelVal.asI64 a
       let first := if p > 0 then p - 1 else len + p
       if p = 0 ∨ first < 0 ∨ first ≥ len then returned (.ok (.list []))
       else do return .list (← sublistFrom checks xs first (n.getD (len - first)))) := by
  have hwant : wantNum (arg (.list xs :: v :: tail) 1) "sublist" = .ok a := wantNum_of_some hv _
  unfold sublist
  rw [show wantList (arg (.list xs :: v :: tail) 0) "sublist" = .ok xs from rfl, hwant]
  simp only [returned_bind, sublistLength_of_length hn, pure_eq_returned]
  by_cases hp : FeelVal.asI64 a = 0
  · simp only [hp, if_pos, true_or]
  · simp only [hp, if_false, false_or]

/-! ## Each builtin -/

theorem gives_returned {r : Except FeelError FeelVal} {v : FeelVal} {o : Prop} :
    Gives (returned r) v o ↔ r = .ok v ∨ o ∧ (r = .ok .null ∨ ∃ e, r = .error e) := by
  constructor
  · rintro ⟨r', heq, h⟩
    obtain rfl : r = r' := Except.ok.inj heq
    exact h
  · exact fun h => ⟨r, rfl, h⟩

theorem gives_ok {w v : FeelVal} {o : Prop} (hw : w ≠ .null) : Gives (returned (.ok w)) v o ↔ w = v := by
  rw [gives_returned]
  constructor
  · rintro (h | ⟨-, h | ⟨e, h⟩⟩)
    · exact Except.ok.inj h
    · exact absurd (Except.ok.inj h) hw
    · cases h
  · rintro rfl
    exact .inl rfl

theorem not_gives_error {x : Except Panic α} {e : Panic} (h : x = .error e) (f : α → FeelVal) {v : FeelVal} {o : Prop} :
    ¬ Gives (do return f (← (x : Run α))) v o := by
  rintro ⟨r, heq, -⟩
  rw [h] at heq
  cases heq

theorem lift_of_ok {x : Except Panic α} {a : α} (h : x = .ok a) (f : α → FeelVal) :
    (do return f (← (x : Run α)) : Run FeelVal) = returned (.ok (f a)) := by
  rw [h]
  rfl

section

variable {checks : Bool} {s : List Char} {xs : List FeelVal} {i : Nat} {k : Int}

theorem substringFrom_of_in (hs : s.length < 9223372036854775808) (hi : i < s.length) (h : InI64 (i + max k 0)) :
    substringFrom checks s i k = .ok ((s.drop i).take k.toNat) := by
  unfold substringFrom
  rw [addI64_of_in h]
  change slice s _ _ = _
  rw [slice_of_le (by omega) (by omega) (by omega) hs]
  congr 1
  rw [Int.toNat_natCast, List.take_eq_take_iff, List.length_drop]
  omega

/-- The sum that wraps is below every index. -/
theorem substringFrom_of_not_in (checks : Bool) (hs : s.length < 9223372036854775808) (hi : i < s.length) (hk : InI64 k)
    (h : ¬ InI64 (i + max k 0)) : ∃ e, substringFrom checks s i k = .error e := by
  unfold substringFrom addI64
  by_cases hc : checks = true
  · exact ⟨.overflow, by rw [if_pos ⟨hc, h⟩]; rfl⟩
  · refine ⟨.slice, ?_⟩
    rw [if_neg (by simp [hc])]
    have hwrap := inI64_wrapI64 (i + max k 0)
    have hneg : wrapI64 (i + max k 0) < 0 := by
      unfold wrapI64
      unfold InI64 at hk h
      omega
    change slice s _ _ = _
    unfold InI64 at hwrap
    exact slice_of_neg (by omega) ⟨by omega, by omega⟩ hs

theorem sublistFrom_of_in (hxs : xs.length < 9223372036854775808) (hi : i < xs.length) (h : InI64 (i + k)) :
    sublistFrom checks xs i k = .ok ((xs.drop i).take k.toNat) := by
  unfold sublistFrom
  rw [addI64_of_in h]
  change slice xs _ _ = _
  rw [slice_of_le (by omega) (by omega) (by omega) hxs]
  congr 1
  rw [Int.toNat_natCast, List.take_eq_take_iff, List.length_drop]
  omega

theorem sublistFrom_of_not_in (checks : Bool) (hxs : xs.length < 9223372036854775808) (hi : i < xs.length) (hk : InI64 k)
    (h : ¬ InI64 (i + k)) : sublistFrom checks xs i k = if checks then .error .overflow else .ok [] := by
  unfold sublistFrom addI64
  by_cases hc : checks = true
  · rw [if_pos ⟨hc, h⟩, if_pos hc]
    rfl
  · have hneg : wrapI64 (i + k) < 0 := by
      unfold wrapI64
      unfold InI64 at hk h
      omega
    rw [if_neg (by simp [hc]), if_neg hc]
    change slice xs _ _ = _
    rw [max_eq_right (by omega), slice_of_le (by omega) le_rfl (by omega) hxs]
    simp

theorem sublistOf_of_elementAt {ys : List α} {p : Int} (h : elementAt ys.length p = some i) (n : Option Int) :
    sublistOf ys p n = (ys.drop i).take (n.getD (ys.length - i)).toNat := by
  unfold sublistOf
  rw [h]
  change (ys.drop i).take _ = _
  rw [List.take_eq_take_iff, List.length_drop]
  cases n with
  | none => simp
  | some k => rfl

theorem sublistOf_of_none {ys : List α} {p : Int} (h : elementAt ys.length p = none) (n : Option Int) : sublistOf ys p n = [] := by
  unfold sublistOf
  rw [h]

/-- Up to the last element, the sum always fits. -/
theorem forall_fits_iff {len : Nat} (hlen : len < 9223372036854775808) (n : Option Int) (f : Int → Int)
    (hf : f (len - i) = len - i) : (∀ k ∈ n, InI64 (i + f k)) ↔ InI64 (i + f (n.getD (len - i))) := by
  cases n with
  | none =>
    unfold InI64
    simp [hf]
    omega
  | some k => simp

variable {v : FeelVal} {a : UInt64} {tail : List FeelVal} {n : Option Int}

theorem length_in {len : Nat} (hlen : len < 9223372036854775808) (hi : i ≤ len) (hn : Length tail n) :
    InI64 (n.getD (len - i)) := by
  cases hn with
  | rest =>
    unfold InI64
    simp
    omega
  | given h => exact asI64_in _

theorem str_ofList_inj {cs ds : List Char} : FeelVal.str (String.ofList cs) = .str (String.ofList ds) ↔ cs = ds := by
  rw [FeelVal.str.injEq, String.ofList_inj]

theorem substring_of_elementAt (s : String) (hv : v.asF64 = some a) (hn : Length tail n)
    (hat : elementAt s.toList.length (FeelVal.asI64 a) = some i) :
    substring checks (.str s :: v :: tail) =
      (do return .str (String.ofList (← substringFrom checks s.toList i (n.getD (s.toList.length - i))))) := by
  obtain ⟨hi, hp⟩ := elementAt_eq_some.mp hat
  have hfirst : (if FeelVal.asI64 a > 0 then FeelVal.asI64 a - 1
      else if FeelVal.asI64 a < 0 then s.toList.length + FeelVal.asI64 a else 0) = i := by
    split
    · omega
    · split <;> omega
  rw [substring_eq checks s hv hn]
  simp only [hfirst]
  rw [if_neg (by omega)]

/-- Outside, position 0 is taken for the front. -/
theorem substring_of_none (s : String) (hs : s.toList.length < 9223372036854775808) (hv : v.asF64 = some a)
    (hn : Length tail n) (hat : elementAt s.toList.length (FeelVal.asI64 a) = none) :
    substring checks (.str s :: v :: tail) = returned (.ok (.str (String.ofList
      (if FeelVal.asI64 a = 0 then s.toList.take (n.getD s.toList.length).toNat else [])))) := by
  have hout := elementAt_eq_none.mp hat
  rw [substring_eq checks s hv hn]
  generalize FeelVal.asI64 a = p at hout
  by_cases hp : p = 0 ∧ 0 < s.toList.length
  · obtain ⟨rfl, hlen⟩ := hp
    have hk := length_in hs (Nat.zero_le _) hn
    have hfits : InI64 ((0 : Nat) + max (n.getD (s.toList.length - (0 : Nat))) 0) := by
      unfold InI64 at hk ⊢
      omega
    have hsum : substringFrom checks s.toList 0 (n.getD (s.toList.length - 0)) =
        .ok ((s.toList.drop 0).take (n.getD (s.toList.length - 0)).toNat) := substringFrom_of_in hs hlen hfits
    have hfirst : (if (0 : Int) > 0 then (0 : Int) - 1 else if (0 : Int) < 0 then s.toList.length + 0 else 0) = 0 := rfl
    simp only [hfirst]
    rw [if_neg (by omega), lift_of_ok hsum fun cs => .str (String.ofList cs), if_pos trivial, List.drop_zero, Int.sub_zero]
  · have hfirst : (if p > 0 then p - 1 else if p < 0 then s.toList.length + p else 0) < 0 ∨
        (if p > 0 then p - 1 else if p < 0 then s.toList.length + p else 0) ≥ s.toList.length := by
      split
      · omega
      · split <;> omega
    have hempty : (if p = 0 then s.toList.take (n.getD s.toList.length).toNat else []) = [] := by
      split
      · rw [List.eq_nil_of_length_eq_zero (by omega : s.toList.length = 0), List.take_nil]
      · rfl
    simp only [hfirst, if_true]
    rw [hempty]

theorem substring_iff (s : String) (hs : s.toList.length < 9223372036854775808) (hv : v.asF64 = some a) (hn : Length tail n) :
    Gives (substring checks (.str s :: v :: tail)) (.str (String.ofList (sublistOf s.toList (FeelVal.asI64 a) n)))
        (elementAt s.toList.length (FeelVal.asI64 a) = none) ↔
      SubstringFits s.toList.length (FeelVal.asI64 a) n := by
  unfold SubstringFits
  cases hat : elementAt s.toList.length (FeelVal.asI64 a) with
  | some i =>
    obtain ⟨hi, -⟩ := elementAt_eq_some.mp hat
    rw [substring_of_elementAt s hv hn hat, sublistOf_of_elementAt hat]
    change _ ↔ ∀ k ∈ n, InI64 (i + max k 0)
    rw [forall_fits_iff hs n (max · 0) (by omega)]
    by_cases hfits : InI64 (i + max (n.getD (s.toList.length - i)) 0)
    · rw [lift_of_ok (substringFrom_of_in hs hi hfits) fun cs => .str (String.ofList cs), gives_ok (by nofun)]
      simp [hfits]
    · obtain ⟨e, he⟩ := substringFrom_of_not_in checks hs hi (length_in hs hi.le hn) hfits
      exact iff_of_false (not_gives_error he fun cs => .str (String.ofList cs)) hfits
  | none =>
    rw [substring_of_none s hs hv hn hat, sublistOf_of_none hat, gives_ok (by nofun), str_ofList_inj]
    generalize FeelVal.asI64 a = p
    change _ ↔ (p = 0 → s.toList.length = 0 ∨ ∃ k ∈ n, k ≤ 0)
    by_cases hp : p = 0
    · rw [if_pos hp, List.take_eq_nil_iff, Int.toNat_eq_zero]
      have hnil : s.toList = [] ↔ s.toList.length = 0 := List.length_eq_zero_iff.symm
      cases n with
      | none => simp [hp]
      | some k => simp [hp, or_comm]
    · simp [hp]

/-- Without overflow checks `substring` panics where the index after the last element is no `i64`. -/
theorem substring_panics_iff (s : String) (hs : s.toList.length < 9223372036854775808) (hv : v.asF64 = some a)
    (hn : Length tail n) :
    (∃ stop, substring false (.str s :: v :: tail) = .error stop) ↔
      ∃ i ∈ elementAt s.toList.length (FeelVal.asI64 a), ∃ k ∈ n, ¬ InI64 (i + max k 0) := by
  have hok (w : FeelVal) : ¬ ∃ stop, returned (.ok w) = (.error stop : Run FeelVal) := by
    rintro ⟨stop, hstop⟩
    cases hstop
  cases hat : elementAt s.toList.length (FeelVal.asI64 a) with
  | some i =>
    obtain ⟨hi, -⟩ := elementAt_eq_some.mp hat
    have hfitsIff := forall_fits_iff (i := i) hs n (max · 0) (by omega)
    rw [substring_of_elementAt s hv hn hat]
    by_cases hfits : InI64 (i + max (n.getD (s.toList.length - i)) 0)
    · rw [lift_of_ok (substringFrom_of_in hs hi hfits) fun cs => .str (String.ofList cs)]
      refine iff_of_false (hok _) ?_
      rintro ⟨_, ⟨⟩, k, hk, hnot⟩
      exact hnot (hfitsIff.mpr hfits k hk)
    · obtain ⟨stop, hstop⟩ := substringFrom_of_not_in false hs hi (length_in hs hi.le hn) hfits
      refine iff_of_true ⟨stop, by rw [hstop]; rfl⟩ ⟨i, rfl, ?_⟩
      by_contra hnone
      push Not at hnone
      exact hfits (hfitsIff.mp hnone)
  | none =>
    rw [substring_of_none s hs hv hn hat]
    exact iff_of_false (hok _) (by simp)

theorem sublist_iff (hxs : xs.length < 9223372036854775808) (hv : v.asF64 = some a) (hn : Length tail n) :
    Gives (sublist checks (.list xs :: v :: tail)) (.list (sublistOf xs (FeelVal.asI64 a) n))
        (elementAt xs.length (FeelVal.asI64 a) = none) ↔
      SublistFits xs.length (FeelVal.asI64 a) n := by
  rw [sublist_eq checks xs hv hn]
  generalize FeelVal.asI64 a = p
  unfold SublistFits
  cases hat : elementAt xs.length p with
  | some i =>
    obtain ⟨hi, hp⟩ := elementAt_eq_some.mp hat
    have hfirst : (if p > 0 then p - 1 else xs.length + p) = i := by
      split <;> omega
    have hk := length_in hxs hi.le hn
    simp only [hfirst]
    rw [if_neg (by omega), sublistOf_of_elementAt hat]
    have hone : (∀ j ∈ some i, ∀ k ∈ n, InI64 (j + k)) ↔ ∀ k ∈ n, InI64 (i + k) := by simp
    have hrest : (∀ k ∈ n, InI64 (i + k)) ↔ InI64 (i + n.getD (xs.length - i)) := forall_fits_iff hxs n id rfl
    rw [hone, hrest]
    by_cases hfits : InI64 (i + n.getD (xs.length - i))
    · rw [lift_of_ok (sublistFrom_of_in hxs hi hfits) FeelVal.list, gives_ok (by nofun)]
      simp [hfits]
    · have hlong : ¬ n.getD (xs.length - i) ≤ 0 := by
        unfold InI64 at hk hfits
        omega
      have hstop := sublistFrom_of_not_in checks hxs hi hk hfits
      cases checks with
      | true => exact iff_of_false (not_gives_error hstop FeelVal.list) hfits
      | false =>
        -- the sum that wraps leaves no element
        rw [lift_of_ok hstop FeelVal.list, gives_ok (by nofun)]
        refine iff_of_false (fun h => ?_) hfits
        rw [FeelVal.list.injEq, eq_comm, List.take_eq_nil_iff, List.drop_eq_nil_iff] at h
        omega
  | none =>
    have hout := elementAt_eq_none.mp hat
    rw [sublistOf_of_none hat, if_pos (by split <;> omega), gives_ok (by nofun)]
    exact iff_of_true rfl nofun

theorem addI64_overflow {b c : Int} (h : ¬ InI64 (b + c)) : addI64 true b c = .error .overflow := by
  unfold addI64
  rw [if_pos ⟨rfl, h⟩]

theorem not_in_pred : ¬ InI64 (-9223372036854775808 + -1) := by decide

/-- The least `i64` wraps to the greatest. -/
theorem addI64_least : addI64 false (-9223372036854775808) (-1) = .ok 9223372036854775807 := by decide

theorem insertBefore_iff (hxs : xs.length < 9223372036854775808) (hv : v.asF64 = some a) (x : FeelVal) :
    Gives (insertBefore checks [.list xs, v, x]) (.list (insertOf xs (FeelVal.asI64 a) x))
        (elementAt xs.length (FeelVal.asI64 a) = none) ↔
      InsertFits checks xs (FeelVal.asI64 a) x := by
  have hwant : wantNum (arg [.list xs, v, x] 1) "insert before" = .ok a := wantNum_of_some hv _
  have hp := asI64_in a
  unfold insertBefore
  rw [show wantList (arg [.list xs, v, x] 0) "insert before" = .ok xs from rfl, hwant]
  simp only [returned_bind]
  generalize FeelVal.asI64 a = p at hp ⊢
  let f : Int → FeelVal := fun sum => .list (xs.insertIdx (max 0 (min sum xs.length)).toNat x)
  change Gives (do return f (← (addI64 checks p (-1) : Run Int))) _ _ ↔ _
  unfold InsertFits
  unfold InI64 at hp
  by_cases hleast : p = -9223372036854775808
  · subst hleast
    have hat : elementAt xs.length (-9223372036854775808) = none := elementAt_eq_none.mpr (by omega)
    rw [if_pos rfl]
    cases checks with
    | true => exact iff_of_false (not_gives_error (addI64_overflow not_in_pred) f) nofun
    | false =>
      rw [lift_of_ok addI64_least f, gives_ok (by nofun)]
      have hindex : (max 0 (min 9223372036854775807 (xs.length : Int))).toNat = xs.length := by omega
      have hspec : insertOf xs (-9223372036854775808) x = x :: xs := by
        unfold insertOf
        rw [hat]
        rfl
      rw [FeelVal.list.injEq, hspec, hindex, eq_comm, cons_eq_insertIdx_iff le_rfl, List.take_length]
      simp
  · have hsum : addI64 checks p (-1) = .ok (p + -1) := addI64_of_in (by unfold InI64; omega)
    rw [if_neg hleast, lift_of_ok hsum f, gives_ok (by nofun), FeelVal.list.injEq]
    unfold insertOf
    cases hat : elementAt xs.length p with
    | none =>
      have hout := elementAt_eq_none.mp hat
      by_cases hpos : p > 0
      · have hindex : (max 0 (min (p + -1) (xs.length : Int))).toNat = xs.length := by omega
        rw [hindex, ← append_eq_insertIdx]
        simp only [if_pos hpos, true_iff]
        omega
      · have hindex : (max 0 (min (p + -1) (xs.length : Int))).toNat = 0 := by omega
        have hnone : (xs.length + p).toNat = 0 ∨ p = 0 := by omega
        rw [hindex]
        simp only [if_neg hpos, List.insertIdx_zero, true_iff]
        intro hneg
        rw [hnone.resolve_right hneg.ne]
        simp
    | some i =>
      obtain ⟨hi, hpi⟩ := elementAt_eq_some.mp hat
      by_cases hpos : p > 0
      · have hindex : (max 0 (min (p + -1) (xs.length : Int))).toNat = i := by omega
        simp only [hindex, true_iff]
        omega
      · have hindex : (max 0 (min (p + -1) (xs.length : Int))).toNat = 0 := by omega
        have hback : (xs.length + p).toNat = i := by omega
        rw [hindex, List.insertIdx_zero, hback]
        change x :: xs = xs.insertIdx i x ↔ _
        rw [cons_eq_insertIdx_iff hi.le]
        exact ⟨fun h _ => h, fun h => h (by omega)⟩

theorem remove_iff (hxs : xs.length < 9223372036854775808) (hv : v.asF64 = some a) :
    Gives (remove checks [.list xs, v]) (.list (removeOf xs (FeelVal.asI64 a)))
        (elementAt xs.length (FeelVal.asI64 a) = none) ↔
      RemoveFits checks xs.length (FeelVal.asI64 a) := by
  have hwant : wantNum (arg [.list xs, v] 1) "remove" = .ok a := wantNum_of_some hv _
  have hp := asI64_in a
  unfold remove
  rw [show wantList (arg [.list xs, v] 0) "remove" = .ok xs from rfl, hwant]
  simp only [returned_bind]
  generalize FeelVal.asI64 a = p at hp ⊢
  let f : Int → FeelVal := fun pos => .list (if pos ≥ 0 then xs.eraseIdx pos.toNat else xs)
  change Gives (do return f (← (addI64 checks p (-1) : Run Int))) _ _ ↔ _
  unfold RemoveFits removeOf
  unfold InI64 at hp
  by_cases hleast : p = -9223372036854775808
  · subst hleast
    have hat : elementAt xs.length (-9223372036854775808) = none := elementAt_eq_none.mpr (by omega)
    rw [if_pos rfl, hat]
    cases checks with
    | true => exact iff_of_false (not_gives_error (addI64_overflow not_in_pred) f) nofun
    | false =>
      rw [lift_of_ok addI64_least f, gives_ok (by nofun)]
      refine iff_of_true ?_ rfl
      exact congrArg FeelVal.list (List.eraseIdx_of_length_le (by omega))
  · have hsum : addI64 checks p (-1) = .ok (p + -1) := addI64_of_in (by unfold InI64; omega)
    rw [if_neg hleast, lift_of_ok hsum f, gives_ok (by nofun), FeelVal.list.injEq]
    cases hat : elementAt xs.length p with
    | none =>
      have hout := elementAt_eq_none.mp hat
      refine iff_of_true ?_ (by omega)
      change (if p + -1 ≥ 0 then xs.eraseIdx (p + -1).toNat else xs) = xs
      split
      · exact List.eraseIdx_of_length_le (by omega)
      · rfl
    | some i =>
      obtain ⟨hi, hpi⟩ := elementAt_eq_some.mp hat
      change (if p + -1 ≥ 0 then xs.eraseIdx (p + -1).toNat else xs) = xs.eraseIdx i ↔ _
      by_cases hpos : p > 0
      · have hindex : (p + -1).toNat = i := by omega
        rw [if_pos (by omega), hindex]
        exact iff_of_true rfl (by omega)
      · -- nothing is removed, and one element should be
        rw [if_neg (by omega)]
        refine iff_of_false (fun h => ?_) (by omega)
        have hlen := congrArg List.length h
        rw [List.length_eraseIdx_of_lt hi] at hlen
        omega

end

/-! ## List indexing -/

theorem selectAt_eq (xs : List FeelVal) (a : UInt64) : selectAt xs a = selectOf xs (FeelVal.asI64 a) := by
  unfold selectAt selectOf
  generalize FeelVal.asI64 a = p
  cases hat : elementAt xs.length p with
  | none =>
    have hout := elementAt_eq_none.mp hat
    by_cases hp : p = 0
    · simp [hp]
    · have hresolved : (if p > 0 then p - 1 else xs.length + p) < 0 ∨ (if p > 0 then p - 1 else xs.length + p) ≥ xs.length := by
        split <;> omega
      simp only [hp, if_false]
      rw [if_pos (by simpa using hresolved)]
      rfl
  | some i =>
    obtain ⟨hi, hpi⟩ := elementAt_eq_some.mp hat
    have hresolved : (if p > 0 then p - 1 else xs.length + p) = i := by
      split <;> omega
    simp only [hresolved, if_neg (show ¬ p = 0 by omega)]
    rw [if_neg (by simp; omega)]
    rfl

theorem evalIndex_number {v : FeelVal} {a : UInt64} (hv : v.asF64 = some a) (xs : List FeelVal) :
    evalIndex (pure (.list xs)) (pure v) = pure (selectOf xs (FeelVal.asI64 a)) := by
  have hnumber : (Except.ok v : Except FeelError FeelVal).toOption.bind FeelVal.asF64 = some a := hv
  funext scopes
  rw [← selectAt_eq]
  simp only [evalIndex, EvalM.attempt, pure, bind, EvalM.bind, Calls.Prog.bind, hnumber]

/-! ## Exactness -/

/-- The error names the function that there is not. -/
theorem callChecked_listReplace [Texts] (checks : Bool) (args : List FeelVal) :
    callChecked checks "list replace" args = returned (.error "unknown function 'list replace'") := by
  rfl

theorem positions_exact_iff [Texts] (checks : Bool) {s : String} {xs : List FeelVal}
    (hs : s.toList.length < 9223372036854775808) (hxs : xs.length < 9223372036854775808) (x : FeelVal) {v : FeelVal}
    {a : UInt64} (hv : v.asF64 = some a) {tail : List FeelVal} {n : Option Int} (hn : Length tail n) :
    let p := FeelVal.asI64 a
    let outside := elementAt xs.length p = none
    (Gives (callChecked checks "substring" (.str s :: v :: tail)) (.str (String.ofList (sublistOf s.toList p n)))
      (elementAt s.toList.length p = none) ↔ SubstringFits s.toList.length p n) ∧
    (Gives (callChecked checks "sublist" (.list xs :: v :: tail)) (.list (sublistOf xs p n)) outside ↔ SublistFits xs.length p n) ∧
    (Gives (callChecked checks "insert before" [.list xs, v, x]) (.list (insertOf xs p x)) outside ↔ InsertFits checks xs p x) ∧
    (Gives (callChecked checks "remove" [.list xs, v]) (.list (removeOf xs p)) outside ↔ RemoveFits checks xs.length p) ∧
    (Gives (callChecked checks "list replace" [.list xs, v, x]) (.list (replaceOf xs p x)) outside ↔ outside) ∧
    evalIndex (pure (.list xs)) (pure v) = pure (selectOf xs p) := by
  refine ⟨substring_iff s hs hv hn, sublist_iff hxs hv hn, insertBefore_iff hxs hv x, remove_iff hxs hv, ?_,
    evalIndex_number hv xs⟩
  rw [callChecked_listReplace, gives_returned]
  constructor
  · rintro (h | ⟨h, -⟩)
    · cases h
    · exact h
  · exact fun h => .inr ⟨h, .inr ⟨_, rfl⟩⟩

theorem positions_exact_iff_second :
    let _ := Texts.plain
    (Gives (callChecked false "substring" [.str "abc", .int 2, .int 1]) (.str (String.ofList (sublistOf "abc".toList (2 : Int) (some 1))))
      (elementAt "abc".toList.length 2 = none) ↔ SubstringFits "abc".toList.length 2 (some 1)) := by
  intro _
  have hpos : FeelVal.asI64 (F64.ofInt 2) = 2 := by decide +kernel
  have hlen : FeelVal.asI64 (F64.ofInt 1) = 1 := by decide +kernel
  have h := (@positions_exact_iff _ false "abc" [] (by decide) (by decide) .null (.int 2) _ rfl _ _
    (Length.given (v := .int 1) rfl)).1
  rw [hpos, hlen] at h
  exact h

theorem substring_slices :
    let _ := Texts.plain
    ¬ Gives (callChecked false "substring" [.str "abc", .int 2, .int 9223372036854775807])
      (.str (String.ofList (sublistOf "abc".toList 2 (some 9223372036854775807)))) (elementAt "abc".toList.length 2 = none) := by
  intro _
  have hpos : FeelVal.asI64 (F64.ofInt 2) = 2 := by decide +kernel
  have hlen : FeelVal.asI64 (F64.ofInt 9223372036854775807) = 9223372036854775807 := by decide +kernel
  have h := @substring_iff false (.int 2) _ _ _ "abc" (by decide) rfl (Length.given (v := .int 9223372036854775807) rfl)
  rw [hpos, hlen] at h
  intro hgives
  have hfits : ∀ k ∈ some 9223372036854775807, InI64 ((1 : Nat) + max k 0) := h.mp hgives
  exact absurd (hfits _ rfl) (by decide)

end NanoBpm.FeelExpr.Positions
