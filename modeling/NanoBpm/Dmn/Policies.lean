import NanoBpm.Dmn.Walk
import NanoBpm.Lib.Float64Exact
import Mathlib.Data.List.Induction
import Mathlib.Data.List.Lex

/-!
# Hit policies (`dmn/eval.rs:154-435`)

| here | there |
| --- | --- |
| `Matching` | the loop over the rules of `eval_table` |
| `Policy` | `apply_hit_policy`: what each policy makes of the matching rules |
| `Aggregates` | `aggregate`, in `f64` |

The output of a rule with several columns is a context: of columns with one name the last counts, and `ANY` compares the
contexts.
-/

namespace NanoBpm.Dmn

/-! ## Outputs of several columns -/

/-- The key of a column in the context. -/
def columnKey (o : OutputClause) : String := o.name.getD o.id

/-- No later column has the key of this one. -/
def Visible (outputs : List OutputClause) (c : Nat) : Prop :=
  ∃ o, outputs[c]? = some o ∧ ∀ d o', c < d → outputs[d]? = some o' → columnKey o' ≠ columnKey o

/-- The entries of a context, in the order of the columns. -/
def entriesOf (columns : List (String × Value)) : List (String × Value) :=
  columns.foldl (fun m (k, v) => insertEntry k v m) []

theorem rowValue_eq (outputs : List OutputClause) (values : List Value) (h : outputs.length ≠ 1) :
    rowValue outputs values = .map (entriesOf ((outputs.map columnKey).zip values)) := by
  rw [rowValue, if_neg h, entriesOf, List.zip_map_left, List.foldl_map]
  rfl

theorem lookup_cons_ite (j k : String) (v : Value) (m : List (String × Value)) :
    ((k, v) :: m).lookup j = if j = k then some v else m.lookup j := by
  by_cases h : j = k
  · simp [h]
  · have hne : (j == k) = false := beq_eq_false_iff_ne.mpr h
    simp [List.lookup_cons, hne, h]

theorem lookup_insertEntry (j k : String) (v : Value) (m : List (String × Value)) :
    (insertEntry k v m).lookup j = if j = k then some v else m.lookup j := by
  induction m with
  | nil => exact lookup_cons_ite j k v []
  | cons e m ih =>
    obtain ⟨l, w⟩ := e
    unfold insertEntry
    split
    · exact lookup_cons_ite j k v _
    · split
      · next heq =>
        rw [lookup_cons_ite, lookup_cons_ite, heq]
        split <;> rfl
      · next hne =>
        rw [lookup_cons_ite, lookup_cons_ite, ih]
        grind

/-- Keys in their order, none repeated. -/
def KeysSorted (m : List (String × Value)) : Prop := m.Pairwise fun e e' => e.1 < e'.1

theorem fst_mem_insertEntry {k : String} {v : Value} {m : List (String × Value)} {e : String × Value}
    (h : e ∈ insertEntry k v m) : e.1 = k ∨ e ∈ m := by
  induction m with
  | nil => exact .inl (by rw [List.mem_singleton.mp h])
  | cons x m ih =>
    unfold insertEntry at h
    split at h
    · rcases List.mem_cons.mp h with rfl | h
      · exact .inl rfl
      · exact .inr h
    · split at h
      · rcases List.mem_cons.mp h with rfl | h
        · exact .inl rfl
        · exact .inr (List.mem_cons_of_mem _ h)
      · rcases List.mem_cons.mp h with rfl | h
        · exact .inr List.mem_cons_self
        · exact (ih h).imp_right (List.mem_cons_of_mem _)

theorem lt_of_not_lt_of_ne {k l : String} (hlt : ¬ k < l) (hne : k ≠ l) : l < k := by
  by_contra h
  exact hne (String.le_antisymm (String.not_lt.mp h) (String.not_lt.mp hlt))

theorem keysSorted_insertEntry (k : String) (v : Value) {m : List (String × Value)} (h : KeysSorted m) :
    KeysSorted (insertEntry k v m) := by
  induction m with
  | nil => exact List.pairwise_singleton _ _
  | cons e m ih =>
    obtain ⟨l, w⟩ := e
    obtain ⟨hl, hm⟩ := List.pairwise_cons.mp h
    unfold insertEntry
    split
    · next hlt =>
      refine List.pairwise_cons.mpr ⟨fun e he => ?_, h⟩
      rcases List.mem_cons.mp he with rfl | he
      · exact hlt
      · exact String.lt_trans hlt (hl e he)
    · next hlt =>
      split
      · next heq =>
        subst heq
        exact List.pairwise_cons.mpr ⟨hl, hm⟩
      · next hne =>
        refine List.pairwise_cons.mpr ⟨fun e he => ?_, ih hm⟩
        rcases fst_mem_insertEntry he with hk | he
        · rw [hk]
          exact lt_of_not_lt_of_ne hlt hne
        · exact hl e he

theorem keys_insertEntry (k : String) (v w : Value) {m m' : List (String × Value)} (h : m.map Prod.fst = m'.map Prod.fst) :
    (insertEntry k v m).map Prod.fst = (insertEntry k w m').map Prod.fst := by
  induction m generalizing m' with
  | nil =>
    obtain rfl := List.map_eq_nil_iff.mp h.symm
    rfl
  | cons e m ih =>
    obtain ⟨l, u⟩ := e
    obtain ⟨⟨l', u'⟩, t, rfl, hl, ht⟩ := List.map_eq_cons_iff.mp h.symm
    obtain rfl : l' = l := hl
    unfold insertEntry
    split
    · simp [ht]
    · split
      · simp [ht]
      · rw [List.map_cons, List.map_cons, ih ht.symm]

/-- Contexts with the same keys are equal if the entries of each key are. -/
theorem beqEntries_iff {m m' : List (String × Value)} (hkeys : m.map Prod.fst = m'.map Prod.fst) (hsorted : KeysSorted m) :
    Value.beqEntries m m' = true ↔ ∀ k v w, m.lookup k = some v → m'.lookup k = some w → v.beq w = true := by
  induction m generalizing m' with
  | nil =>
    obtain rfl := List.map_eq_nil_iff.mp hkeys.symm
    simp [Value.beqEntries]
  | cons e m ih =>
    obtain ⟨l, u⟩ := e
    obtain ⟨⟨l', u'⟩, t, rfl, hl, ht⟩ := List.map_eq_cons_iff.mp hkeys.symm
    obtain rfl : l' = l := hl
    obtain ⟨hfirst, hrest⟩ := List.pairwise_cons.mp hsorted
    have hfresh : ∀ k v, m.lookup k = some v → k ≠ l' := by
      rintro k v hk rfl
      have hmem : k ∈ m.map Prod.fst := by
        by_contra hnot
        rw [List.lookup_eq_none_iff.mpr fun e he => by
          rw [bne_iff_ne]
          rintro rfl
          exact hnot (List.mem_map_of_mem he)] at hk
        cases hk
      obtain ⟨e, he, hek⟩ := List.mem_map.mp hmem
      exact String.lt_irrefl _ (hek ▸ hfirst e he)
    simp only [Value.beqEntries, beq_self_eq_true, Bool.true_and, Bool.and_eq_true, ih ht.symm hrest, lookup_cons_ite]
    constructor
    · rintro ⟨hu, h⟩ k v w hv hw
      split at hv
      · next hk =>
        rw [if_pos hk] at hw
        cases hv
        cases hw
        exact hu
      · next hk =>
        rw [if_neg hk] at hw
        exact h k v w hv hw
    · intro h
      refine ⟨h l' u u' (if_pos rfl) (if_pos rfl), fun k v w hv hw => ?_⟩
      have hk := hfresh k v hv
      exact h k v w (by rw [if_neg hk, hv]) (by rw [if_neg hk, hw])

theorem lookup_foldl_insertEntry (k : String) (columns m : List (String × Value)) :
    (columns.foldl (fun m (k, v) => insertEntry k v m) m).lookup k = (columns.reverse.lookup k).or (m.lookup k) := by
  induction columns generalizing m with
  | nil => rfl
  | cons e columns ih =>
    obtain ⟨l, u⟩ := e
    rw [List.foldl_cons, ih, List.reverse_cons, List.lookup_append, lookup_insertEntry, lookup_cons_ite, Option.or_assoc]
    split <;> rfl

theorem lookup_entriesOf (k : String) (columns : List (String × Value)) :
    (entriesOf columns).lookup k = columns.reverse.lookup k := by
  rw [entriesOf, lookup_foldl_insertEntry]
  exact Option.or_none

/-- The last column with a key. -/
theorem lookup_reverse_eq_some {k : String} {v : Value} {columns : List (String × Value)} :
    columns.reverse.lookup k = some v ↔
      ∃ c : Nat, columns[c]? = some (k, v) ∧ ∀ (d : Nat) (e : String × Value), c < d → columns[d]? = some e → e.1 ≠ k := by
  induction columns with
  | nil => simp
  | cons e columns ih =>
    obtain ⟨l, u⟩ := e
    rw [List.reverse_cons, List.lookup_append, Option.or_eq_some_iff]
    constructor
    · rintro (h | ⟨hnone, h⟩)
      · obtain ⟨c, hc, hlast⟩ := ih.mp h
        refine ⟨c + 1, hc, fun d e hd he => ?_⟩
        obtain ⟨d, rfl⟩ : ∃ d', d = d' + 1 := ⟨d - 1, by omega⟩
        exact hlast d e (by omega) he
      · rw [lookup_cons_ite] at h
        split at h
        · next hk =>
          subst hk
          cases h
          refine ⟨0, rfl, fun d e hd he => ?_⟩
          obtain ⟨d, rfl⟩ : ∃ d', d = d' + 1 := ⟨d - 1, by omega⟩
          have hmem : e ∈ columns.reverse := List.mem_reverse.mpr (List.mem_of_getElem? he)
          exact (bne_iff_ne.mp (List.lookup_eq_none_iff.mp hnone e hmem)).symm
        · cases h
    · rintro ⟨c, hc, hlast⟩
      cases c with
      | zero =>
        cases hc
        refine .inr ⟨List.lookup_eq_none_iff.mpr fun e he => ?_, by rw [lookup_cons_ite, if_pos rfl]⟩
        obtain ⟨d, hd⟩ := List.getElem?_of_mem (List.mem_reverse.mp he)
        exact bne_iff_ne.mpr (hlast (d + 1) e (by omega) hd).symm
      | succ c =>
        exact .inl (ih.mpr ⟨c, hc, fun d e hd he => hlast (d + 1) e (by omega) he⟩)

theorem keysSorted_foldl (columns : List (String × Value)) {m : List (String × Value)} (h : KeysSorted m) :
    KeysSorted (columns.foldl (fun m (k, v) => insertEntry k v m) m) := by
  induction columns generalizing m with
  | nil => exact h
  | cons e columns ih => exact ih (keysSorted_insertEntry _ _ h)

theorem keys_foldl {ks : List String} {vs ws : List Value} (hv : vs.length = ks.length) (hw : ws.length = ks.length)
    {m m' : List (String × Value)} (h : m.map Prod.fst = m'.map Prod.fst) :
    ((ks.zip vs).foldl (fun m (k, v) => insertEntry k v m) m).map Prod.fst =
      ((ks.zip ws).foldl (fun m (k, v) => insertEntry k v m) m').map Prod.fst := by
  induction ks generalizing vs ws m m' with
  | nil => exact h
  | cons k ks ih =>
    obtain ⟨v, vs, rfl⟩ := List.exists_cons_of_length_eq_add_one hv
    obtain ⟨w, ws, rfl⟩ := List.exists_cons_of_length_eq_add_one hw
    exact ih (by simpa using hv) (by simpa using hw) (keys_insertEntry k v w h)

/-- The entry of a key is the value of its last column. -/
theorem lookup_entriesOf_zip {ks : List String} {vs : List Value} (hv : vs.length = ks.length) {k : String} {v : Value} :
    (entriesOf (ks.zip vs)).lookup k = some v ↔
      ∃ c : Nat, ks[c]? = some k ∧ vs[c]? = some v ∧ ∀ d : Nat, c < d → ks[d]? ≠ some k := by
  rw [lookup_entriesOf, lookup_reverse_eq_some]
  refine exists_congr fun c => ?_
  rw [List.getElem?_zip_eq_some, and_assoc]
  refine and_congr_right fun _ => and_congr_right fun _ => ?_
  constructor
  · intro h d hd hk
    obtain ⟨w, hw⟩ : ∃ w, vs[d]? = some w := by
      have hlt := (List.getElem?_eq_some_iff.mp hk).1
      exact ⟨_, List.getElem?_eq_getElem (hv ▸ hlt)⟩
    exact h d (k, w) hd (List.getElem?_zip_eq_some.mpr ⟨hk, hw⟩) rfl
  · rintro h d ⟨l, w⟩ hd he rfl
    exact h d hd (List.getElem?_zip_eq_some.mp he).1

theorem beqEntries_entriesOf {ks : List String} {vs ws : List Value} (hv : vs.length = ks.length) (hw : ws.length = ks.length) :
    Value.beqEntries (entriesOf (ks.zip vs)) (entriesOf (ks.zip ws)) = true ↔
      ∀ (c : Nat) k, ks[c]? = some k → (∀ d : Nat, c < d → ks[d]? ≠ some k) → (vs.getD c .null).beq (ws.getD c .null) = true := by
  have hsorted : KeysSorted (entriesOf (ks.zip vs)) := keysSorted_foldl _ List.Pairwise.nil
  have hkeys : (entriesOf (ks.zip vs)).map Prod.fst = (entriesOf (ks.zip ws)).map Prod.fst := keys_foldl hv hw rfl
  rw [beqEntries_iff hkeys hsorted]
  constructor
  · intro h c k hk hlast
    have hlt := (List.getElem?_eq_some_iff.mp hk).1
    have hvc : vs[c]? = some (vs.getD c .null) := by
      rw [List.getD_eq_getElem?_getD, List.getElem?_eq_getElem (hv ▸ hlt)]
      rfl
    have hwc : ws[c]? = some (ws.getD c .null) := by
      rw [List.getD_eq_getElem?_getD, List.getElem?_eq_getElem (hw ▸ hlt)]
      rfl
    exact h k _ _ ((lookup_entriesOf_zip hv).mpr ⟨c, hk, hvc, hlast⟩) ((lookup_entriesOf_zip hw).mpr ⟨c, hk, hwc, hlast⟩)
  · intro h k v w hlv hlw
    obtain ⟨c, hc, hvc, hlast⟩ := (lookup_entriesOf_zip hv).mp hlv
    obtain ⟨c', hc', hwc, hlast'⟩ := (lookup_entriesOf_zip hw).mp hlw
    have hsame : c = c' := by
      rcases Nat.lt_trichotomy c c' with hlt | rfl | hlt
      · exact absurd hc' (hlast c' hlt)
      · rfl
      · exact absurd hc (hlast' c hlt)
    subst hsame
    have := h c k hc hlast
    rwa [List.getD_eq_getElem?_getD, List.getD_eq_getElem?_getD, hvc, hwc] at this

/-- Two rules agree on every column that shows in the output. -/
def Agree (outputs : List OutputClause) (m m' : RuleMatch) : Prop :=
  ∀ c, Visible outputs c → (m.perOutput.getD c .null).beq (m'.perOutput.getD c .null) = true

theorem rowValue_beq_iff {outputs : List OutputClause} {vs ws : List Value} (hv : vs.length = outputs.length)
    (hw : ws.length = outputs.length) :
    (rowValue outputs vs).beq (rowValue outputs ws) = true ↔
      ∀ c, Visible outputs c → (vs.getD c .null).beq (ws.getD c .null) = true := by
  by_cases hone : outputs.length = 1
  · obtain ⟨o, rfl⟩ := List.length_eq_one_iff.mp hone
    obtain ⟨v, rfl⟩ := List.length_eq_one_iff.mp hv
    obtain ⟨w, rfl⟩ := List.length_eq_one_iff.mp hw
    constructor
    · rintro h c ⟨o', ho', -⟩
      cases c with
      | zero => exact h
      | succ c => cases ho'
    · intro h
      refine h 0 ⟨o, rfl, fun d o' hd ho' => ?_⟩
      cases d with
      | zero => omega
      | succ d => cases ho'
  · rw [rowValue_eq outputs vs hone, rowValue_eq outputs ws hone]
    have hkeys : ∀ l : List Value, l.length = outputs.length → l.length = (outputs.map columnKey).length := by simp
    change Value.beqEntries _ _ = true ↔ _
    rw [beqEntries_entriesOf (hkeys vs hv) (hkeys ws hw)]
    constructor
    · rintro h c ⟨o, ho, hlast⟩
      refine h c (columnKey o) (by rw [List.getElem?_map, ho]; rfl) fun d hd hk => ?_
      rw [List.getElem?_map] at hk
      obtain ⟨o', ho', hk⟩ := Option.map_eq_some_iff.mp hk
      exact hlast d o' hd ho' hk
    · intro h c k hk hlast
      rw [List.getElem?_map] at hk
      obtain ⟨o, ho, rfl⟩ := Option.map_eq_some_iff.mp hk
      refine h c ⟨o, ho, fun d o' hd ho' heq => hlast d hd ?_⟩
      rw [List.getElem?_map, ho', Option.map_some, heq]

/-! ## Orders of the matching rules -/

section

variable {κ : Type} [LinearOrder κ] (key : Nat → κ) [DecidableRel fun a b : Nat => ¬ key b < key a]

/-- In the order of the keys, and of their positions where these are equal. -/
def Before (i j : Nat) : Prop := key i < key j ∨ (¬ key j < key i ∧ i < j)

theorem before_orderedInsert {i : Nat} {order : List Nat} (h : order.Pairwise (Before key)) (hi : ∀ j ∈ order, i < j) :
    (order.orderedInsert (fun a b => ¬ key b < key a) i).Pairwise (Before key) := by
  induction order with
  | nil => simp
  | cons j order ih =>
    obtain ⟨hj, horder⟩ := List.pairwise_cons.mp h
    obtain ⟨hij, hi⟩ := List.forall_mem_cons.mp hi
    rw [List.orderedInsert_cons]
    split
    · next hle =>
      refine List.pairwise_cons.mpr ⟨fun k hk => ?_, h⟩
      rcases List.mem_cons.mp hk with rfl | hk
      · exact .inr ⟨hle, hij⟩
      · rcases hj k hk with hlt | ⟨hle', -⟩
        · exact .inr ⟨fun hki => hle (hlt.trans hki), hi k hk⟩
        · exact .inr ⟨fun hki => hle (lt_of_le_of_lt (not_lt.mp hle') hki), hi k hk⟩
    · next hlt =>
      refine List.pairwise_cons.mpr ⟨fun k hk => ?_, ih horder hi⟩
      rcases (List.mem_orderedInsert _).mp hk with rfl | hk
      · exact .inl (not_not.mp hlt)
      · exact hj k hk

theorem before_insertionSort {order : List Nat} (h : order.Pairwise (· < ·)) :
    (order.insertionSort fun a b => ¬ key b < key a).Pairwise (Before key) := by
  induction order with
  | nil => simp
  | cons i order ih =>
    obtain ⟨hi, horder⟩ := List.pairwise_cons.mp h
    rw [List.insertionSort_cons]
    exact before_orderedInsert key (ih horder) fun j hj => hi j ((List.mem_insertionSort _).mp hj)

end

/-- What the fold of `firstLeast` has found. -/
structure Least (keys : List (List Nat)) (k : List Nat) (i : Nat) : Prop where
  get : keys[i]? = some k
  least : ∀ k' ∈ keys, ¬ k' < k
  first : ∀ (j : Nat) k', j < i → keys[j]? = some k' → k < k'

theorem Least.snoc {keys : List (List Nat)} {k : List Nat} {i : Nat} (h : Least keys k i) {x : List Nat} (hx : ¬ x < k) :
    Least (keys ++ [x]) k i where
  get := by rw [List.getElem?_append_left (List.getElem?_eq_some_iff.mp h.get).1, h.get]
  least k' hk' := by
    rcases List.mem_append.mp hk' with hk' | hk'
    · exact h.least k' hk'
    · rwa [List.mem_singleton.mp hk']
  first j k' hj hk' := by
    have hi := (List.getElem?_eq_some_iff.mp h.get).1
    rw [List.getElem?_append_left (by omega)] at hk'
    exact h.first j k' hj hk'

theorem least_snoc_of_lt {keys : List (List Nat)} {x : List Nat} (hx : ∀ k ∈ keys, x < k) :
    Least (keys ++ [x]) x keys.length where
  get := by simp
  least k' hk' := by
    rcases List.mem_append.mp hk' with hk' | hk'
    · exact lt_asymm (hx k' hk')
    · rw [List.mem_singleton.mp hk']
      exact lt_irrefl x
  first j k' hj hk' := by
    rw [List.getElem?_append_left hj] at hk'
    exact hx k' (List.mem_of_getElem? hk')

def leastStep (best : Option (List Nat × Nat)) (e : List Nat × Nat) : Option (List Nat × Nat) :=
  match best with
  | some (least, j) => if e.1 < least then some e else some (least, j)
  | none => some e

theorem firstLeast_eq (keys : List (List Nat)) : firstLeast keys = (keys.zipIdx.foldl leastStep none).map (·.2) := rfl

theorem least_of_foldl (keys : List (List Nat)) :
    match keys.zipIdx.foldl leastStep none with
    | some (k, i) => Least keys k i
    | none => keys = [] := by
  induction keys using List.reverseRecOn with
  | nil => rfl
  | append_singleton keys x ih =>
    rw [List.zipIdx_append, List.foldl_append]
    cases hbest : keys.zipIdx.foldl leastStep none with
    | none =>
      rw [hbest] at ih
      obtain rfl : keys = [] := ih
      exact @least_snoc_of_lt [] x (by simp)
    | some best =>
      obtain ⟨k, i⟩ := best
      rw [hbest] at ih
      replace ih : Least keys k i := ih
      by_cases hlt : x < k
      · have hstep : leastStep (some (k, i)) (x, keys.length) = some (x, keys.length) := if_pos hlt
        simp only [List.zipIdx_singleton, List.foldl_cons, List.foldl_nil, Nat.zero_add, hstep]
        exact least_snoc_of_lt fun k' hk' => lt_of_lt_of_le hlt (not_lt.mp (ih.least k' hk'))
      · have hstep : leastStep (some (k, i)) (x, keys.length) = some (k, i) := if_neg hlt
        simp only [List.zipIdx_singleton, List.foldl_cons, List.foldl_nil, Nat.zero_add, hstep]
        exact ih.snoc hlt

theorem firstLeast_spec {keys : List (List Nat)} {i : Nat} (h : firstLeast keys = some i) : ∃ k, Least keys k i := by
  rw [firstLeast_eq] at h
  obtain ⟨⟨k, j⟩, hbest, rfl⟩ := Option.map_eq_some_iff.mp h
  have hleast := least_of_foldl keys
  rw [hbest] at hleast
  exact ⟨k, hleast⟩

theorem firstLeast_eq_none {keys : List (List Nat)} (h : firstLeast keys = none) : keys = [] := by
  rw [firstLeast_eq, Option.map_eq_none_iff] at h
  have hleast := least_of_foldl keys
  rwa [h] at hleast

/-! ## What the policies make of the matching rules -/

/-- The numbers are these integers, which `f64` holds. -/
def Whole (nums : List UInt64) (is : List Int) : Prop := nums = is.map F64.ofInt ∧ ∀ i ∈ is, i.natAbs ≤ 2 ^ 53

/-- The aggregate of the outputs as `f64`: of integers that it holds, the integers' own. -/
def Aggregates (nums : List UInt64) (v : Value) : Aggregation → Prop
  | .count => v = .int nums.length
  | .sum => v = numberValue (nums.foldl F64.add (F64.zero false)) ∧
    ∀ is, Whole nums is → F64.SumsFit is → v = .int is.sum
  | .min => ((∀ n ∈ nums, F64.isNaN n = false) → ∃ n ∈ nums, v = numberValue n ∧ ∀ k ∈ nums, F64.lt k n = false) ∧
    ∀ is, Whole nums is → ∃ i ∈ is, v = .int i ∧ ∀ j ∈ is, i ≤ j
  | .max => ((∀ n ∈ nums, F64.isNaN n = false) → ∃ n ∈ nums, v = numberValue n ∧ ∀ k ∈ nums, F64.lt n k = false) ∧
    ∀ is, Whole nums is → ∃ i ∈ is, v = .int i ∧ ∀ j ∈ is, j ≤ i

/-- The output in the first column. -/
def RuleMatch.first (m : RuleMatch) : Value := m.perOutput.head?.getD .null

section Feel

variable [Feel]

/-- A rule precedes another by the places of its outputs among the declared ones, column by column. -/
def Precedes (outputs : List OutputClause) (m m' : RuleMatch) : Prop :=
  priorityKey m.perOutput (outputPriorities outputs) < priorityKey m'.perOutput (outputPriorities outputs)

/-- The output, with the positions among the matching rules of the ones that it is taken from, or a failure. -/
inductive Policy (outputs : List OutputClause) : HitPolicy → Option Aggregation → List RuleMatch → Except Stop (Value × List Nat) →
    Prop
  | uniqueNone (agg : Option Aggregation) : Policy outputs .unique agg [] (.ok (.null, []))
  | unique (agg : Option Aggregation) (m : RuleMatch) : Policy outputs .unique agg [m] (.ok (m.rowOutput, [0]))
  | uniqueFails (agg : Option Aggregation) {ms : List RuleMatch} (h : 2 ≤ ms.length) (f : EvaluationFailure) :
    Policy outputs .unique agg ms (.error (.failure f))
  | firstNone (agg : Option Aggregation) : Policy outputs .first agg [] (.ok (.null, []))
  | first (agg : Option Aggregation) (m : RuleMatch) (ms : List RuleMatch) :
    Policy outputs .first agg (m :: ms) (.ok (m.rowOutput, [0]))
  | anyNone (agg : Option Aggregation) : Policy outputs .any agg [] (.ok (.null, []))
  | any (agg : Option Aggregation) {m : RuleMatch} {ms : List RuleMatch} (h : ∀ m' ∈ ms, Agree outputs m' m) :
    Policy outputs .any agg (m :: ms) (.ok (m.rowOutput, [0]))
  | anyFails (agg : Option Aggregation) {m m' : RuleMatch} {ms : List RuleMatch} (hm : m' ∈ ms) (h : ¬ Agree outputs m' m)
    (f : EvaluationFailure) : Policy outputs .any agg (m :: ms) (.error (.failure f))
  | priorityNone (agg : Option Aggregation) : Policy outputs .priority agg [] (.ok (.null, []))
  | priority (agg : Option Aggregation) {ms : List RuleMatch} {i : Nat} {m : RuleMatch} (hm : ms[i]? = some m)
    (hbest : ∀ m' ∈ ms, ¬ Precedes outputs m' m)
    (hfirst : ∀ (j : Nat) m', j < i → ms[j]? = some m' → Precedes outputs m m') :
    Policy outputs .priority agg ms (.ok (m.rowOutput, [i]))
  | outputOrder (agg : Option Aggregation) {ms : List RuleMatch} {order : List Nat} (hperm : order.Perm (List.range ms.length))
    (hsorted : order.Pairwise fun i j => ∀ m m', ms[i]? = some m → ms[j]? = some m' →
      Precedes outputs m m' ∨ (¬ Precedes outputs m' m ∧ i < j)) :
    Policy outputs .outputOrder agg ms (.ok (.list (order.filterMap fun i => ms[i]?.map (·.rowOutput)), order))
  | ruleOrder (agg : Option Aggregation) (ms : List RuleMatch) :
    Policy outputs .ruleOrder agg ms (.ok (.list (ms.map (·.rowOutput)), List.range ms.length))
  | collect (ms : List RuleMatch) :
    Policy outputs .collect none ms (.ok (.list (ms.map (·.rowOutput)), List.range ms.length))
  | count (ms : List RuleMatch) : Policy outputs .collect (some .count) ms (.ok (.int ms.length, List.range ms.length))
  | aggregateNone {agg : Aggregation} (h : agg ≠ .count) : Policy outputs .collect (some agg) [] (.ok (.null, []))
  | aggregate {agg : Aggregation} {ms : List RuleMatch} {nums : List UInt64} {v : Value} (h : agg ≠ .count) (hms : ms ≠ [])
    (hnums : List.Forall₂ (fun m n => m.first.asF64 = some n) ms nums) (hv : Aggregates nums v agg) :
    Policy outputs .collect (some agg) ms (.ok (v, List.range ms.length))
  | aggregateFails {agg : Aggregation} {ms : List RuleMatch} {m : RuleMatch} (h : agg ≠ .count) (hm : m ∈ ms)
    (hnum : m.first.asF64 = none) (f : EvaluationFailure) : Policy outputs .collect (some agg) ms (.error (.failure f))

variable [DebugText]

omit [Feel] [DebugText] in
theorem numberValue_ofInt {i : Int} (h : i.natAbs ≤ 2 ^ 53) : numberValue (F64.ofInt i) = .int i := by
  rw [numberValue, F64.isWhole_ofInt h, F64.abs_lt_two_pow h, F64.trunc_ofInt h]
  rfl

omit [Feel] in
theorem numbersOf_spec (decisionId : String) (ms : List RuleMatch) :
    match numbersOf decisionId ms with
    | .ok nums => List.Forall₂ (fun m n => m.first.asF64 = some n) ms nums
    | .error stop => ∃ f m, stop = .failure f ∧ m ∈ ms ∧ m.first.asF64 = none := by
  induction ms with
  | nil => exact .nil
  | cons m ms ih =>
    unfold numbersOf
    cases hnum : (m.perOutput.head?.getD .null).asF64 with
    | none =>
      simp only [hnum]
      exact ⟨_, m, rfl, List.mem_cons_self, hnum⟩
    | some n =>
      simp only [hnum]
      cases hrest : numbersOf decisionId ms with
      | ok nums =>
        rw [hrest] at ih
        exact .cons hnum ih
      | error stop =>
        rw [hrest] at ih
        obtain ⟨f, m', rfl, hm', hnum'⟩ := ih
        exact ⟨f, m', rfl, List.mem_cons_of_mem _ hm', hnum'⟩

omit [Feel] [DebugText] in
theorem aggregates_sum (nums : List UInt64) : Aggregates nums (numberValue (nums.foldl F64.add (F64.zero false))) .sum := by
  refine ⟨rfl, ?_⟩
  rintro is ⟨rfl, his⟩ hsums
  have hzero : F64.zero false = F64.ofInt 0 := by decide +kernel
  have hall := hsums is.length
  rw [List.take_length] at hall
  rw [hzero, F64.foldl_add_ofInt his fun n => (zero_add (is.take n).sum).symm ▸ hsums n, zero_add, numberValue_ofInt hall]

omit [Feel] [DebugText] in
theorem aggregates_min {nums : List UInt64} (hne : nums ≠ []) :
    Aggregates nums (numberValue (nums.foldl F64.min (F64.infinity false))) .min := by
  have hspec : (∀ n ∈ nums, F64.isNaN n = false) → nums.foldl F64.min (F64.infinity false) ∈ nums ∧
      ∀ k ∈ nums, F64.place (nums.foldl F64.min (F64.infinity false)) ≤ F64.place k := by
    intro hnan
    obtain ⟨n, nums, rfl⟩ := List.exists_cons_of_ne_nil hne
    rw [List.foldl_cons, F64.min_infinity (hnan n List.mem_cons_self)]
    exact F64.foldl_min_spec hnan
  constructor
  · intro hnan
    obtain ⟨hmem, hle⟩ := hspec hnan
    refine ⟨_, hmem, rfl, fun k hk => ?_⟩
    rw [← Bool.not_eq_true, F64.lt_iff_place (hnan k hk) (hnan _ hmem)]
    exact not_lt.mpr (hle k hk)
  · rintro is ⟨rfl, his⟩
    obtain ⟨hmem, hle⟩ := hspec fun n hn => by
      obtain ⟨i, -, rfl⟩ := List.mem_map.mp hn
      exact F64.not_isNaN_ofInt i
    obtain ⟨i, hi, heq⟩ := List.mem_map.mp hmem
    refine ⟨i, hi, by rw [← heq, numberValue_ofInt (his i hi)], fun j hj => ?_⟩
    have hplace := hle _ (List.mem_map_of_mem hj)
    rw [← heq] at hplace
    exact F64.le_of_place_ofInt (his i hi) (his j hj) hplace

omit [Feel] [DebugText] in
theorem aggregates_max {nums : List UInt64} (hne : nums ≠ []) :
    Aggregates nums (numberValue (nums.foldl F64.max (F64.infinity true))) .max := by
  have hspec : (∀ n ∈ nums, F64.isNaN n = false) → nums.foldl F64.max (F64.infinity true) ∈ nums ∧
      ∀ k ∈ nums, F64.place k ≤ F64.place (nums.foldl F64.max (F64.infinity true)) := by
    intro hnan
    obtain ⟨n, nums, rfl⟩ := List.exists_cons_of_ne_nil hne
    rw [List.foldl_cons, F64.max_infinity (hnan n List.mem_cons_self)]
    exact F64.foldl_max_spec hnan
  constructor
  · intro hnan
    obtain ⟨hmem, hle⟩ := hspec hnan
    refine ⟨_, hmem, rfl, fun k hk => ?_⟩
    rw [← Bool.not_eq_true, F64.lt_iff_place (hnan _ hmem) (hnan k hk)]
    exact not_lt.mpr (hle k hk)
  · rintro is ⟨rfl, his⟩
    obtain ⟨hmem, hle⟩ := hspec fun n hn => by
      obtain ⟨i, -, rfl⟩ := List.mem_map.mp hn
      exact F64.not_isNaN_ofInt i
    obtain ⟨i, hi, heq⟩ := List.mem_map.mp hmem
    refine ⟨i, hi, by rw [← heq, numberValue_ofInt (his i hi)], fun j hj => ?_⟩
    have hplace := hle _ (List.mem_map_of_mem hj)
    rw [← heq] at hplace
    exact F64.le_of_place_ofInt (his j hj) (his i hi) hplace

omit [Feel] in
theorem aggregate_spec (decisionId : String) {agg : Aggregation} (h : agg ≠ .count) {ms : List RuleMatch} (hms : ms ≠ []) :
    match aggregate decisionId agg ms with
    | .ok v => ∃ nums, List.Forall₂ (fun m n => m.first.asF64 = some n) ms nums ∧ Aggregates nums v agg
    | .error stop => ∃ f m, stop = .failure f ∧ m ∈ ms ∧ m.first.asF64 = none := by
  have hspec := numbersOf_spec decisionId ms
  unfold aggregate
  rw [if_neg h, if_neg (by simpa using hms)]
  cases hnums : numbersOf decisionId ms with
  | error stop =>
    rw [hnums] at hspec
    exact hspec
  | ok nums =>
    rw [hnums] at hspec
    have hne : nums ≠ [] := by
      rintro rfl
      exact hms (List.forall₂_nil_right_iff.mp hspec)
    cases agg with
    | sum => exact ⟨nums, hspec, aggregates_sum nums⟩
    | min => exact ⟨nums, hspec, aggregates_min hne⟩
    | max => exact ⟨nums, hspec, aggregates_max hne⟩
    | count => exact absurd rfl h

/-- Every policy, on rules that have one output a column. -/
theorem policy_applyHitPolicy (decisionId : String) (table : DecisionTable) {ms : List RuleMatch}
    (h : ∀ m ∈ ms, m.perOutput.length = table.outputs.length ∧ m.rowOutput = rowValue table.outputs m.perOutput) :
    Policy table.outputs table.hitPolicy table.aggregation ms (applyHitPolicy decisionId table ms) := by
  unfold applyHitPolicy
  dsimp only
  cases table.hitPolicy with
  | unique =>
    match ms with
    | [] => exact .uniqueNone _
    | [m] => exact .unique _ m
    | _ :: _ :: _ => exact .uniqueFails _ (by simp) _
  | first =>
    match ms with
    | [] => exact .firstNone _
    | m :: ms => exact .first _ m ms
  | any =>
    match ms, h with
    | [], _ => exact .anyNone _
    | m :: ms, h =>
      obtain ⟨⟨hlen, hrow⟩, hrest⟩ := List.forall_mem_cons.mp h
      have hagree : ∀ m' ∈ ms, (m'.rowOutput.beq m.rowOutput = true ↔ Agree table.outputs m' m) := by
        intro m' hm'
        obtain ⟨hlen', hrow'⟩ := hrest m' hm'
        rw [hrow, hrow']
        exact rowValue_beq_iff hlen' hlen
      simp only [List.map_cons, List.any_map]
      split
      · next hany =>
        obtain ⟨m', hm', hne⟩ := List.any_eq_true.mp hany
        exact .anyFails _ hm' (mt (hagree m' hm').mpr (by simpa using hne)) _
      · next hany =>
        refine .any _ fun m' hm' => (hagree m' hm').mp ?_
        by_contra hne
        exact hany (List.any_eq_true.mpr ⟨m', hm', by simpa using hne⟩)
  | priority =>
    cases hbest : firstLeast (ms.map fun m => priorityKey m.perOutput (outputPriorities table.outputs)) with
    | none =>
      obtain rfl := List.map_eq_nil_iff.mp (firstLeast_eq_none hbest)
      exact .priorityNone _
    | some i =>
      obtain ⟨k, hk⟩ := firstLeast_spec hbest
      have hget := hk.get
      rw [List.getElem?_map] at hget
      obtain ⟨m, hm, rfl⟩ := Option.map_eq_some_iff.mp hget
      have hrow : (ms.map (·.rowOutput)).getD i .null = m.rowOutput := by
        rw [List.getD_eq_getElem?_getD, List.getElem?_map, hm]
        rfl
      dsimp only
      rw [hrow]
      refine .priority _ hm (fun m' hm' => hk.least _ (List.mem_map_of_mem hm')) fun j m' hj hm' => hk.first j _ hj ?_
      rw [List.getElem?_map, hm']
      rfl
  | collect =>
    cases table.aggregation with
    | none => exact .collect ms
    | some agg =>
      by_cases hcount : agg = .count
      · subst hcount
        exact .count ms
      · by_cases hms : ms = []
        · subst hms
          have hnull : aggregate decisionId agg [] = .ok .null := if_neg hcount
          dsimp only
          rw [hnull]
          exact .aggregateNone hcount
        · have hspec := aggregate_spec decisionId hcount hms
          dsimp only
          cases hagg : aggregate decisionId agg ms with
          | ok v =>
            rw [hagg] at hspec
            obtain ⟨nums, hnums, hv⟩ := hspec
            exact .aggregate hcount hms hnums hv
          | error stop =>
            rw [hagg] at hspec
            obtain ⟨f, m, rfl, hm, hnum⟩ := hspec
            exact .aggregateFails hcount hm hnum f
  | ruleOrder => exact .ruleOrder _ ms
  | outputOrder =>
    let key : Nat → List Nat := fun i => (ms.map fun m => priorityKey m.perOutput (outputPriorities table.outputs)).getD i []
    have hsorted := before_insertionSort key (List.pairwise_lt_range (n := ms.length))
    have hperm := List.perm_insertionSort (fun a b => ¬ key b < key a) (List.range ms.length)
    have hkey : ∀ {i : Nat} {m : RuleMatch}, ms[i]? = some m → key i = priorityKey m.perOutput (outputPriorities table.outputs) := by
      intro i m hm
      simp only [key]
      rw [List.getD_eq_getElem?_getD, List.getElem?_map, hm]
      rfl
    have hrows : ∀ order : List Nat, order.Perm (List.range ms.length) →
        order.map ((ms.map (·.rowOutput)).getD · .null) = order.filterMap fun i => ms[i]?.map (·.rowOutput) := by
      intro order horder
      rw [← List.filterMap_eq_map]
      refine List.filterMap_congr fun i hi => ?_
      have hlt : i < ms.length := List.mem_range.mp (horder.mem_iff.mp hi)
      simp [List.getD_eq_getElem?_getD, List.getElem?_eq_getElem hlt]
    dsimp only
    rw [hrows _ hperm]
    refine .outputOrder _ hperm (hsorted.imp fun {i j} hij m m' hm hm' => ?_)
    unfold Before at hij
    rwa [hkey hm, hkey hm'] at hij

/-! ## Tables -/

/-- Whether every entry of the rule matches. -/
def ruleMatches (decisionId : String) (ctx : Vars) (inputs : List Value) (rule : DecisionRule) : Bool :=
  match allMatch decisionId ctx inputs 0 rule.inputEntries with
  | .ok b => b
  | .error _ => false

/-- The record of a rule at a position of the table. -/
structure Records (decisionId : String) (table : DecisionTable) (ctx : Vars) (m : RuleMatch) (p : DecisionRule × Nat) : Prop where
  ruleId : m.ruleId = p.1.id
  ruleIndex : m.ruleIndex = p.2
  evaluated : evalOutputs decisionId ctx p.1.outputEntries 0 table.outputs = .ok m.evaluatedOutputs
  perOutput : m.perOutput = m.evaluatedOutputs.map (·.outputValue)
  rowOutput : m.rowOutput = rowValue table.outputs m.perOutput

/-- The rules that match, in the order of the table. -/
def Matching (decisionId : String) (table : DecisionTable) (ctx : Vars) (inputs : List Value) (ms : List RuleMatch) : Prop :=
  List.Forall₂ (Records decisionId table ctx) ms (table.rules.zipIdx.filter fun p => ruleMatches decisionId ctx inputs p.1)

omit [DebugText] in
theorem matchRules_matching {decisionId : String} {table : DecisionTable} {ctx : Vars} {inputs : List Value} {index : Nat}
    {rules : List DecisionRule} {ms : List RuleMatch} (h : matchRules decisionId table ctx inputs index rules = .ok ms) :
    List.Forall₂ (Records decisionId table ctx) ms
      ((rules.zipIdx index).filter fun p => ruleMatches decisionId ctx inputs p.1) := by
  induction rules generalizing index ms with
  | nil =>
    cases h
    exact .nil
  | cons rule rules ih =>
    unfold matchRules at h
    rw [List.zipIdx_cons]
    cases hmatch : allMatch decisionId ctx inputs 0 rule.inputEntries with
    | error stop =>
      rw [hmatch] at h
      cases h
    | ok b =>
      rw [hmatch] at h
      have hrule : ruleMatches decisionId ctx inputs rule = b := by
        rw [ruleMatches, hmatch]
      cases b with
      | false =>
        rw [List.filter_cons_of_neg (by simp [hrule])]
        exact ih h
      | true =>
        rw [List.filter_cons_of_pos (by simpa using hrule)]
        obtain ⟨_, ⟨⟩, h⟩ := Except.bind_eq_ok.mp h
        rw [if_pos rfl] at h
        obtain ⟨evaluated, hevaluated, h⟩ := Except.bind_eq_ok.mp h
        obtain ⟨rest, hrest, h⟩ := Except.bind_eq_ok.mp h
        cases h
        exact .cons ⟨rfl, rfl, hevaluated, rfl, rfl⟩ (ih hrest)

omit [DebugText] in
theorem length_evalOutputs {decisionId : String} {ctx : Vars} {entries : List String} {i : Nat} {outputs : List OutputClause}
    {evaluated : List EvaluatedOutput} (h : evalOutputs decisionId ctx entries i outputs = .ok evaluated) :
    evaluated.length = outputs.length := by
  induction outputs generalizing i evaluated with
  | nil =>
    cases h
    rfl
  | cons output outputs ih =>
    obtain ⟨value, -, h⟩ := Except.bind_eq_ok.mp h
    obtain ⟨rest, hrest, h⟩ := Except.bind_eq_ok.mp h
    cases h
    rw [List.length_cons, List.length_cons, ih hrest]

omit [Feel] [DebugText] in
theorem exists_of_forall₂ {α β : Type} {R : α → β → Prop} {xs : List α} {ys : List β} (h : List.Forall₂ R xs ys) {x : α}
    (hx : x ∈ xs) : ∃ y, R x y := by
  induction h with
  | nil => cases hx
  | cons hxy _ ih =>
    rcases List.mem_cons.mp hx with rfl | hx
    · exact ⟨_, hxy⟩
    · exact ih hx

/-- The record of a table: the output, and the rules at the positions that the policy gives. -/
def recordOf (decision : Decision) (inputs : List EvaluatedInput) (ms : List RuleMatch) (result : Value × List Nat) :
    EvaluatedDecision where
  decisionId := decision.id
  decisionName := decision.name
  decisionType := .decisionTable
  decisionOutput := result.1
  evaluatedInputs := inputs
  matchedRules := result.2.filterMap fun i => ms[i]?.map fun m => ⟨m.ruleId, m.ruleIndex + 1, m.evaluatedOutputs⟩

/-- A table's record is what its policy makes of the rules that match. -/
theorem hit_policies {decision : Decision} {table : DecisionTable} {ctx : Vars} {inputs : List EvaluatedInput} {ms : List RuleMatch}
    (hinputs : evalInputs decision.id ctx table.inputs = .ok inputs)
    (hms : matchRules decision.id table ctx (inputs.map (·.inputValue)) 0 table.rules = .ok ms) :
    Matching decision.id table ctx (inputs.map (·.inputValue)) ms ∧
      ∃ result, Policy table.outputs table.hitPolicy table.aggregation ms result ∧
        evalTable decision table ctx = recordOf decision inputs ms <$> result := by
  have hmatching := matchRules_matching hms
  have hshape : ∀ m ∈ ms, m.perOutput.length = table.outputs.length ∧ m.rowOutput = rowValue table.outputs m.perOutput := by
    intro m hm
    obtain ⟨p, hrec⟩ := exists_of_forall₂ hmatching hm
    rw [hrec.perOutput, List.length_map, length_evalOutputs hrec.evaluated, ← hrec.perOutput]
    exact ⟨rfl, hrec.rowOutput⟩
  refine ⟨hmatching, _, policy_applyHitPolicy decision.id table hshape, ?_⟩
  unfold evalTable
  rw [hinputs]
  change matchRules _ _ _ _ _ _ >>= _ = _
  rw [hms]
  change applyHitPolicy _ _ _ >>= _ = _
  cases applyHitPolicy decision.id table ms <;> rfl

end Feel

/-- A table without inputs, with one output of two values. -/
def tallying (hitPolicy : HitPolicy) (aggregation : Option Aggregation) : DecisionTable where
  hitPolicy
  aggregation
  inputs := []
  outputs := [⟨"o", none, none, none, []⟩]
  rules := [⟨"r1", [], ["1"]⟩, ⟨"r2", [], ["1"]⟩]

@[reducible] def ones : Feel := { Feel.refusing with eval := fun _ _ => .ok (.int 1) }

theorem hit_policies_tally :
    let _ := ones
    let _ : DebugText := ⟨fun _ => ""⟩
    let d : Decision := { id := "d", name := "d", logic := .decisionTable (tallying .collect (some .sum)) }
    ∃ ms result, Policy (tallying .collect (some .sum)).outputs .collect (some .sum) ms result ∧
      evalTable d (tallying .collect (some .sum)) ∅ = recordOf d [] ms <$> result := by
  intro _ _ d
  have hms : ∃ ms, matchRules "d" (tallying .collect (some .sum)) ∅ [] 0 (tallying .collect (some .sum)).rules = .ok ms := ⟨_, rfl⟩
  obtain ⟨ms, hms⟩ := hms
  have hinputs : evalInputs d.id ∅ (tallying .collect (some .sum)).inputs = .ok [] := rfl
  obtain ⟨-, result, hresult⟩ := hit_policies hinputs hms
  exact ⟨ms, result, hresult⟩

/-- The sum of one output is the output in `f64`, added to zero. -/
theorem applyHitPolicy_sum_one [Feel] [DebugText] {table : DecisionTable} {m : RuleMatch} {k : Int} (hpolicy : table.hitPolicy = .collect)
    (hagg : table.aggregation = some .sum) (hm : m.perOutput = [.int k]) :
    applyHitPolicy "d" table [m] = .ok (numberValue (F64.add (F64.zero false) (F64.ofInt k)), [0]) := by
  have hnumber : (Value.int k).asF64 = some (F64.ofInt k) := by
    rw [Value.asF64]
  have hnums : numbersOf "d" [m] = .ok [F64.ofInt k] := by
    unfold numbersOf
    rw [hm]
    generalize F64.ofInt k = x at hnumber ⊢
    simp only [List.head?_cons, Option.getD_some, hnumber]
    rfl
  have haggregate : aggregate "d" .sum [m] = .ok (numberValue (F64.add (F64.zero false) (F64.ofInt k))) := by
    rw [aggregate, hnums]
    change Except.ok (numberValue ([F64.ofInt k].foldl F64.add (F64.zero false))) = _
    rw [List.foldl_cons, List.foldl_nil]
  rw [applyHitPolicy, hpolicy]
  generalize numberValue (F64.add (F64.zero false) (F64.ofInt k)) = v at haggregate ⊢
  simp only [hagg, haggregate]
  rfl

/-- The sum of one output, `2 ^ 53 + 1`, is `2 ^ 53`. -/
theorem sum_rounds :
    let _ := ones
    let _ : DebugText := ⟨fun _ => ""⟩
    ¬ ∀ (table : DecisionTable) (ms : List RuleMatch) (is : List Int), table.hitPolicy = .collect → table.aggregation = some .sum →
      ms.map RuleMatch.first = is.map .int → ∃ selected, applyHitPolicy "d" table ms = .ok (.int is.sum, selected) := by
  intro _ _ h
  let m : RuleMatch := ⟨"r1", 0, .int 9007199254740993, [.int 9007199254740993], []⟩
  obtain ⟨selected, hsum⟩ := h (tallying .collect (some .sum)) [m] [9007199254740993] rfl rfl rfl
  rw [applyHitPolicy_sum_one (k := 9007199254740993) rfl rfl rfl] at hsum
  rw [Except.ok.injEq, Prod.mk.injEq] at hsum
  have hrounded : (numberValue (F64.add (F64.zero false) (F64.ofInt 9007199254740993))).beq (.int 9007199254740993) = false := by
    decide +kernel
  rw [hsum.1] at hrounded
  cases hrounded

end NanoBpm.Dmn
