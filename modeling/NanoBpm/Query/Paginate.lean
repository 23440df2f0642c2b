import NanoBpm.Lib.Paging
import NanoBpm.Query.Cursors
import Mathlib.Data.List.Sort

/-!
# Pages of search results (src/server/src/query.rs)

Rows are sorted by the fields of a query and their key, and a page begins after the row whose key a cursor names. Where that row is gone,
a forward page begins at the first row again, and a backward page is empty.
-/

namespace NanoBpm.Query

/-! ## Sorting -/

inductive SortVal where
  | num (i : Int)
  | str (s : String)

/-- `SortVal::cmp`. -/
def SortVal.cmp : SortVal → SortVal → Ordering
  | .num a, .num b => compare a b
  | .str a, .str b => compare a b
  | .num _, .str _ => .lt
  | .str _, .num _ => .gt

structure SortKey where
  field : String
  descending : Bool

/-- A key that rows are told apart by, with the order of `K: Ord`. -/
class EntityKey (K : Type) extends CursorKey K where
  cmp : K → K → Ordering
  trans : Std.TransCmp cmp
  lawful : Std.LawfulEqCmp cmp
  decEq : DecidableEq K

instance : EntityKey UInt64 where
  cmp := compare
  trans := inferInstance
  lawful := inferInstance
  decEq := inferInstance

/-- The order of a pair: the first key decides, unless it is the same. -/
def pairCmp : UInt64 × UInt64 → UInt64 × UInt64 → Ordering := compareLex (compareOn Prod.fst) (compareOn Prod.snd)

instance transPairCmp : Std.TransCmp pairCmp :=
  inferInstanceAs (Std.TransCmp (compareLex (compareOn (Prod.fst : UInt64 × UInt64 → UInt64)) (compareOn Prod.snd)))

instance lawfulPairCmp : Std.LawfulEqCmp pairCmp where
  eq_of_compare h := by
    obtain ⟨hfirst, hsecond⟩ := compareLex_eq_eq.mp h
    exact Prod.ext (Std.LawfulEqCmp.eq_of_compare hfirst) (Std.LawfulEqCmp.eq_of_compare hsecond)

instance : EntityKey (UInt64 × UInt64) where
  cmp := pairCmp
  trans := transPairCmp
  lawful := lawfulPairCmp
  decEq := inferInstance

/-- What a search sorts its rows by. -/
structure Search (T K : Type) where
  keys : List SortKey
  project : T → String → SortVal
  key : T → K

variable {T K : Type} [EntityKey K]

instance decidableEqKey : DecidableEq K := EntityKey.decEq

/-- The order of two rows by one field. -/
def fieldCmp (project : T → String → SortVal) (sk : SortKey) (a b : T) : Ordering :=
  let ord := (project a sk.field).cmp (project b sk.field)
  if sk.descending then ord.swap else ord

/-- The comparison of `sort_items` (query.rs:981). -/
def rowCmp (project : T → String → SortVal) (key : T → K) : List SortKey → T → T → Ordering
  | [], a, b => EntityKey.cmp (key a) (key b)
  | sk :: keys, a, b =>
    match fieldCmp project sk a b with
    | .eq => rowCmp project key keys a b
    | ord => ord

/-- `sort_items` (query.rs:974). -/
def sortItems (q : Search T K) (items : List T) : List T := items.mergeSort fun a b => (rowCmp q.project q.key q.keys a b).isLE

/-! ## Pages -/

/-- `SearchQueryPageRequest`. -/
inductive PageRequest where
  | limit (limit : Option Nat)
  | offset (start limit : Option Nat)
  | cursorForward (after : Option String) (limit : Option Nat)
  | cursorBackward (before : Option String) (limit : Option Nat)

structure Page (T : Type) where
  items : List T
  totalItems : Nat
  hasMoreTotalItems : Bool
  startCursor : Option String
  endCursor : Option String

def defaultLimit : Nat := 100

def maxLimit : Nat := 10000

def clampLimit : Option Nat → Nat
  | some l => min (max l 1) maxLimit
  | none => defaultLimit

/-- Where a key is. -/
def position (sorted : List (K × T)) (k : K) : Option Nat := sorted.findIdx? (·.1 = k)

/-- `window` of `paginate`. -/
def window (sorted : List (K × T)) : Option PageRequest → List (K × T)
  | none => sorted.take defaultLimit
  | some (.limit limit) => sorted.take (clampLimit limit)
  | some (.offset start limit) => (sorted.drop (start.getD 0)).take (clampLimit limit)
  | some (.cursorForward after limit) =>
    let start := (((after.bind CursorKey.decode).bind (position sorted)).map (· + 1)).getD 0
    (sorted.drop start).take (clampLimit limit)
  | some (.cursorBackward before limit) =>
    match before.bind CursorKey.decode with
    | some k =>
      let stop := (position sorted k).getD 0
      (sorted.take stop).drop (stop - clampLimit limit)
    | none => sorted.take (clampLimit limit)

/-- `paginate` (query.rs:1050). -/
def paginate (sorted : List (K × T)) (page : Option PageRequest) : Page T where
  items := (window sorted page).map (·.2)
  totalItems := sorted.length
  hasMoreTotalItems := false
  startCursor := (window sorted page).head?.map fun r => CursorKey.encode r.1
  endCursor := (window sorted page).getLast?.map fun r => CursorKey.encode r.1

/-- The page of the rows that a search has found. -/
def Search.page (q : Search T K) (matched : List T) (page : Option PageRequest) : Page T :=
  paginate ((sortItems q matched).map fun t => (q.key t, t)) page

/-- The pages of a client that follows end cursors up to an empty page, each with the rows that the search finds then. -/
def Search.forward (q : Search T K) : Option String → List (List T × Option Nat) → List (List T)
  | _, [] => []
  | after, (matched, limit) :: more =>
    let page := q.page matched (some (.cursorForward after limit))
    if page.items.isEmpty then [[]] else page.items :: q.forward page.endCursor more

/-- The pages of a client that follows start cursors. -/
def Search.backward (q : Search T K) : Option String → List (List T × Option Nat) → List (List T)
  | _, [] => []
  | before, (matched, limit) :: more =>
    let page := q.page matched (some (.cursorBackward before limit))
    if page.items.isEmpty then [[]] else page.items :: q.backward page.startCursor more

/-! ## The order of rows -/

instance : Std.TransCmp SortVal.cmp where
  eq_swap {a b} := by
    cases a with
    | num a =>
      cases b with
      | num b => exact Std.OrientedOrd.eq_swap (α := Int)
      | str b => rfl
    | str a =>
      cases b with
      | num b => rfl
      | str b => exact Std.OrientedOrd.eq_swap (α := String)
  isLE_trans {a b c} hab hbc := by
    cases a with
    | num a =>
      cases c with
      | str c => rfl
      | num c =>
        cases b with
        | num b => exact Std.TransOrd.isLE_trans (α := Int) hab hbc
        | str b => cases hbc
    | str a =>
      cases b with
      | num b => cases hab
      | str b =>
        cases c with
        | num c => cases hbc
        | str c => exact Std.TransOrd.isLE_trans (α := String) hab hbc

variable (q : Search T K) {rows : List T} {a b c t : T}

theorem fieldCmp_trans (project : T → String → SortVal) (sk : SortKey) : Std.TransCmp (fieldCmp project sk) := by
  have hplain : Std.TransCmp fun a b => (project a sk.field).cmp (project b sk.field) := {
    eq_swap := Std.OrientedCmp.eq_swap
    isLE_trans := Std.TransCmp.isLE_trans }
  unfold fieldCmp
  cases sk.descending with
  | false => exact hplain
  | true =>
    have hswap : (fun a b => ((project a sk.field).cmp (project b sk.field)).swap) =
        fun a b => (project b sk.field).cmp (project a sk.field) := by
      funext a b
      exact Std.OrientedCmp.eq_swap.symm
    simp only [if_true, hswap]
    exact Std.TransCmp.opposite

theorem rowCmp_cons (project : T → String → SortVal) (key : T → K) (sk : SortKey) (keys : List SortKey) :
    rowCmp project key (sk :: keys) = compareLex (fieldCmp project sk) (rowCmp project key keys) := by
  funext a b
  rw [rowCmp, compareLex]
  cases fieldCmp project sk a b <;> rfl

theorem rowCmp_trans (project : T → String → SortVal) (key : T → K) (keys : List SortKey) : Std.TransCmp (rowCmp project key keys) := by
  induction keys with
  | nil =>
    have htrans := EntityKey.trans (K := K)
    exact {
      eq_swap := htrans.eq_swap
      isLE_trans := htrans.isLE_trans }
  | cons sk keys ih =>
    have := fieldCmp_trans project sk
    rw [rowCmp_cons]
    infer_instance

theorem key_of_rowCmp {project : T → String → SortVal} {key : T → K} {keys : List SortKey} (h : rowCmp project key keys a b = .eq) :
    key a = key b := by
  induction keys with
  | nil => exact EntityKey.lawful.eq_of_compare h
  | cons sk keys ih =>
    rw [rowCmp] at h
    split at h
    · exact ih h
    · next hne => exact absurd h hne

/-- One row is before another. -/
def Search.Before (a b : T) : Prop := rowCmp q.project q.key q.keys a b = .lt

theorem before_irrefl (a : T) : ¬ q.Before a a := by
  have htrans := rowCmp_trans q.project q.key q.keys
  have hself : rowCmp q.project q.key q.keys a a = .eq := Std.ReflCmp.compare_self
  intro h
  rw [Search.Before, hself] at h
  cases h

theorem before_trans (a b c : T) (hab : q.Before a b) (hbc : q.Before b c) : q.Before a c := by
  have := rowCmp_trans q.project q.key q.keys
  exact Std.TransCmp.lt_trans hab hbc

theorem mem_sortItems : t ∈ sortItems q rows ↔ t ∈ rows := List.mem_mergeSort

/-- Rows with different keys are sorted strictly. -/
theorem pairwise_sortItems (h : (rows.map q.key).Nodup) : (sortItems q rows).Pairwise q.Before := by
  have htrans := rowCmp_trans q.project q.key q.keys
  have hsorted : (sortItems q rows).Pairwise fun a b => (rowCmp q.project q.key q.keys a b).isLE := by
    apply List.pairwise_mergeSort
    · exact fun a b c hab hbc => htrans.isLE_trans hab hbc
    · intro a b
      rw [htrans.eq_swap]
      cases rowCmp q.project q.key q.keys b a <;> rfl
  have hkeys : ((sortItems q rows).map q.key).Nodup := ((List.mergeSort_perm rows _).map q.key).nodup_iff.mpr h
  refine hsorted.imp₂ (fun a b hle hne => ?_) (List.pairwise_map.mp hkeys)
  rw [Search.Before]
  cases hcmp : rowCmp q.project q.key q.keys a b with
  | lt => rfl
  | eq => exact absurd (key_of_rowCmp hcmp) hne
  | gt =>
    rw [hcmp] at hle
    cases hle

end NanoBpm.Query
