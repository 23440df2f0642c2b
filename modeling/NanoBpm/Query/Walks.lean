import NanoBpm.Query.Paginate

/-!
# Clients that follow cursors

While the row that a cursor names is found by the next search, a client that follows cursors sweeps over the rows in their order: forward
over the rows, backward over the rows the other way round.
-/

namespace NanoBpm.Query

open Paging

variable {T K : Type} [EntityKey K] (q : Search T K) {rows : List T} {c t : T} {limit : Option Nat}

/-- The cursor of a row. -/
def Search.cursor (t : T) : String := CursorKey.encode (q.key t)

/-! ## Pages by rows -/

theorem clampLimit_pos (limit : Option Nat) : 0 < clampLimit limit := by
  unfold clampLimit
  split
  · exact Nat.lt_min.mpr ⟨by omega, by decide⟩
  · decide

/-- The rows that are paginated. -/
def Search.sorted (rows : List T) : List (K × T) := (sortItems q rows).map fun t => (q.key t, t)

theorem position_sorted (h : (rows.map q.key).Nodup) {i : Nat} (hi : (sortItems q rows)[i]? = some c) :
    position (q.sorted rows) (q.key c) = some i := by
  have hkeys : ((sortItems q rows).map q.key).Nodup := ((List.mergeSort_perm rows _).map q.key).nodup_iff.mpr h
  obtain ⟨hlt, rfl⟩ := List.getElem?_eq_some_iff.mp hi
  unfold position Search.sorted
  rw [List.findIdx?_map, List.findIdx?_eq_some_iff_getElem]
  refine ⟨hlt, by simp, fun j hj => ?_⟩
  have hne := List.pairwise_iff_getElem.mp hkeys j i (by simp; omega) (by simpa using hlt) hj
  simpa using hne

theorem items_page (page : Option PageRequest) : (q.page rows page).items = (window (q.sorted rows) page).map (·.2) := rfl

theorem map_sorted (rows : List T) : (q.sorted rows).map (·.2) = sortItems q rows := by
  rw [Search.sorted, List.map_map]
  exact List.map_id _

theorem mem_of_mem_window {sorted : List (K × T)} {page : Option PageRequest} {r : K × T} (hr : r ∈ window sorted page) : r ∈ sorted := by
  unfold window at hr
  split at hr
  · exact List.mem_of_mem_take hr
  · exact List.mem_of_mem_take hr
  · exact List.mem_of_mem_drop (List.mem_of_mem_take hr)
  · exact List.mem_of_mem_drop (List.mem_of_mem_take hr)
  · dsimp only at hr
    split at hr
    · exact List.mem_of_mem_take (List.mem_of_mem_drop hr)
    · exact List.mem_of_mem_take hr

theorem key_of_mem_window {page : Option PageRequest} : ∀ r ∈ window (q.sorted rows) page, r.1 = q.key r.2 := by
  intro r hr
  obtain ⟨t, -, rfl⟩ := List.mem_map.mp (mem_of_mem_window hr)
  rfl

theorem endCursor_page (page : Option PageRequest) :
    (q.page rows page).endCursor = (q.page rows page).items.getLast?.map q.cursor := by
  change (window (q.sorted rows) page).getLast?.map _ = ((window (q.sorted rows) page).map (·.2)).getLast?.map _
  rw [List.getLast?_map, Option.map_map]
  exact Option.map_congr fun r hr => congrArg CursorKey.encode (key_of_mem_window q r (List.mem_of_getLast? hr))

theorem startCursor_page (page : Option PageRequest) :
    (q.page rows page).startCursor = (q.page rows page).items.head?.map q.cursor := by
  change (window (q.sorted rows) page).head?.map _ = ((window (q.sorted rows) page).map (·.2)).head?.map _
  rw [List.head?_map, Option.map_map]
  exact Option.map_congr fun r hr => congrArg CursorKey.encode (key_of_mem_window q r (List.mem_of_head? hr))

theorem items_first (rows : List T) (limit : Option Nat) :
    (q.page rows (some (.cursorForward none limit))).items = (sortItems q rows).take (clampLimit limit) := by
  rw [items_page, window]
  simp only [Option.bind_none, Option.map_none, Option.getD_none, List.drop_zero]
  rw [List.map_take, map_sorted]

theorem items_after (h : (rows.map q.key).Nodup) {i : Nat} (hi : (sortItems q rows)[i]? = some c) (limit : Option Nat) :
    (q.page rows (some (.cursorForward (some (q.cursor c)) limit))).items = ((sortItems q rows).drop (i + 1)).take (clampLimit limit) := by
  rw [items_page, window]
  simp only [Option.bind_some, Search.cursor, CursorKey.decode_encode, position_sorted q h hi, Option.map_some, Option.getD_some]
  rw [List.map_take, List.map_drop, map_sorted]

theorem items_before (h : (rows.map q.key).Nodup) {i : Nat} (hi : (sortItems q rows)[i]? = some c) (limit : Option Nat) :
    (q.page rows (some (.cursorBackward (some (q.cursor c)) limit))).items =
      ((sortItems q rows).take i).drop (i - clampLimit limit) := by
  rw [items_page, window]
  simp only [Option.bind_some, Search.cursor, CursorKey.decode_encode, position_sorted q h hi, Option.getD_some]
  rw [List.map_drop, List.map_take, map_sorted]

theorem position_gone (h : ∀ t ∈ rows, q.key t ≠ q.key c) : position (q.sorted rows) (q.key c) = none := by
  unfold position Search.sorted
  rw [List.findIdx?_map, List.findIdx?_eq_none_iff]
  intro t ht
  simpa using h t ((mem_sortItems q).mp ht)

/-- Where the row of its cursor is gone, a forward page is the first page. -/
theorem items_gone (h : ∀ t ∈ rows, q.key t ≠ q.key c) (limit : Option Nat) :
    (q.page rows (some (.cursorForward (some (q.cursor c)) limit))).items = (sortItems q rows).take (clampLimit limit) := by
  rw [items_page, window]
  simp only [Option.bind_some, Search.cursor, CursorKey.decode_encode, position_gone q h, Option.map_none, Option.getD_none, List.drop_zero]
  rw [List.map_take, map_sorted]

/-! ## Steps of a walk -/

theorem exists_position (h : c ∈ rows) : ∃ i : Nat, (sortItems q rows)[i]? = some c :=
  List.mem_iff_getElem?.mp ((mem_sortItems q).mpr h)

theorem takes_forward (h : (rows.map q.key).Nodup) {bound : Option T} (hbound : ∀ c ∈ bound, c ∈ rows) (limit : Option Nat) :
    Takes q.Before bound (sortItems q rows) (q.page rows (some (.cursorForward (bound.map q.cursor) limit))).items := by
  cases bound with
  | none =>
    rw [Option.map_none, items_first]
    exact takes_start (clampLimit_pos limit) _
  | some c =>
    obtain ⟨i, hi⟩ := exists_position q (hbound c rfl)
    rw [Option.map_some, items_after q h hi]
    exact takes_after (before_irrefl q) (before_trans q) (pairwise_sortItems q h) hi (clampLimit_pos limit)

/-- One row is after another. -/
def Search.After (a b : T) : Prop := q.Before b a

theorem after_irrefl (a : T) : ¬ q.After a a := before_irrefl q a

theorem after_trans (a b c : T) (hab : q.After a b) (hbc : q.After b c) : q.After a c := before_trans q c b a hbc hab

theorem takes_backward (h : (rows.map q.key).Nodup) (hc : c ∈ rows) (limit : Option Nat) :
    Takes q.After (some c) (sortItems q rows).reverse (q.page rows (some (.cursorBackward (some (q.cursor c)) limit))).items.reverse := by
  obtain ⟨i, hi⟩ := exists_position q hc
  obtain ⟨hlt, -⟩ := List.getElem?_eq_some_iff.mp hi
  have hposition : (sortItems q rows).reverse[(sortItems q rows).length - 1 - i]? = some c := by
    rw [List.getElem?_reverse (by omega), show (sortItems q rows).length - 1 - ((sortItems q rows).length - 1 - i) = i by omega]
    exact hi
  have hwindow : (((sortItems q rows).take i).drop (i - clampLimit limit)).reverse =
      ((sortItems q rows).reverse.drop ((sortItems q rows).length - 1 - i + 1)).take (clampLimit limit) := by
    rw [List.drop_reverse, List.take_reverse, List.length_take,
      show (sortItems q rows).length - ((sortItems q rows).length - 1 - i + 1) = i by omega, Nat.min_eq_left hlt.le]
  have hsorted : (sortItems q rows).reverse.Pairwise q.After := List.pairwise_reverse.mpr (pairwise_sortItems q h)
  rw [items_before q h hi, hwindow]
  exact takes_after (after_irrefl q) (after_trans q) hsorted hposition (clampLimit_pos limit)

/-! ## Walks -/

/-- The rows that the next cursors name are found by the next searches. -/
def Kept (named : List T → Option T) : List (List T × Option Nat) → List (List T) → Prop
  | _ :: next :: more, page :: pages => (∀ c ∈ named page, c ∈ next.1) ∧ Kept named (next :: more) pages
  | _, _ => True

/-- Rows have keys of their own in every search. -/
def Distinct (requests : List (List T × Option Nat)) : Prop := ∀ r ∈ requests, (r.1.map q.key).Nodup

variable {requests : List (List T × Option Nat)}

theorem sweep_forward (hkeys : Distinct q requests) {bound : Option T} (hbound : ∀ c ∈ bound, ∀ r ∈ requests.head?, c ∈ r.1)
    (hkept : Kept List.getLast? requests (q.forward (bound.map q.cursor) requests)) :
    Sweep q.Before bound (requests.map fun r => sortItems q r.1) (q.forward (bound.map q.cursor) requests) := by
  induction requests generalizing bound with
  | nil => exact .idle bound
  | cons r more ih =>
    obtain ⟨rows, limit⟩ := r
    have htakes := takes_forward q (hkeys _ List.mem_cons_self) (fun c hc => hbound c hc _ rfl) limit
    rw [Search.forward] at hkept ⊢
    by_cases hempty : (q.page rows (some (.cursorForward (bound.map q.cursor) limit))).items.isEmpty
    · rw [if_pos hempty]
      rw [List.isEmpty_iff.mp hempty] at htakes
      exact .done _ htakes
    · rw [if_neg hempty] at hkept ⊢
      obtain ⟨c, hc⟩ : ∃ c, (q.page rows (some (.cursorForward (bound.map q.cursor) limit))).items.getLast? = some c := by
        refine Option.ne_none_iff_exists'.mp (mt List.getLast?_eq_none_iff.mp fun hnil => hempty ?_)
        rw [hnil]
        rfl
      have hcursor : (q.page rows (some (.cursorForward (bound.map q.cursor) limit))).endCursor = (some c).map q.cursor := by
        rw [endCursor_page, hc]
      rw [hcursor] at hkept ⊢
      refine .next htakes hc (ih (fun r hr => hkeys r (List.mem_cons_of_mem _ hr)) (fun d hd r hr => ?_) ?_)
      · cases more with
        | nil => cases hr
        | cons next more =>
          obtain rfl := Option.some.inj hr
          obtain rfl := Option.some.inj hd
          exact hkept.1 c hc
      · cases more with
        | nil => trivial
        | cons next more => exact hkept.2

theorem sweep_backward (hkeys : Distinct q requests) {c : T} (hc : ∀ r ∈ requests.head?, c ∈ r.1)
    (hkept : Kept List.head? requests (q.backward (some (q.cursor c)) requests)) :
    Sweep q.After (some c) (requests.map fun r => (sortItems q r.1).reverse)
      ((q.backward (some (q.cursor c)) requests).map List.reverse) := by
  induction requests generalizing c with
  | nil => exact .idle _
  | cons r more ih =>
    obtain ⟨rows, limit⟩ := r
    have htakes := takes_backward q (hkeys _ List.mem_cons_self) (hc _ rfl) limit
    rw [Search.backward] at hkept ⊢
    by_cases hempty : (q.page rows (some (.cursorBackward (some (q.cursor c)) limit))).items.isEmpty
    · rw [if_pos hempty]
      rw [List.isEmpty_iff.mp hempty] at htakes
      exact .done _ htakes
    · rw [if_neg hempty] at hkept ⊢
      obtain ⟨d, hd⟩ : ∃ d, (q.page rows (some (.cursorBackward (some (q.cursor c)) limit))).items.head? = some d := by
        refine Option.ne_none_iff_exists'.mp (mt List.head?_eq_none_iff.mp fun hnil => hempty ?_)
        rw [hnil]
        rfl
      have hcursor : (q.page rows (some (.cursorBackward (some (q.cursor c)) limit))).startCursor = some (q.cursor d) := by
        rw [startCursor_page, hd]
        rfl
      rw [hcursor] at hkept ⊢
      refine .next htakes (by rw [List.getLast?_reverse, hd]) (ih (fun r hr => hkeys r (List.mem_cons_of_mem _ hr)) (fun r hr => ?_) ?_)
      · cases more with
        | nil => cases hr
        | cons next more =>
          obtain rfl := Option.some.inj hr
          exact hkept.1 d hd
      · cases more with
        | nil => trivial
        | cons next more => exact hkept.2

/-! ## Following cursors through changing rows -/

/-- All that a walk has to do: no row twice, none that stays left out, and an end within as many pages as there ever were rows. -/
structure Served (reach : T → Prop) (requests : List (List T × Option Nat)) (pages : List (List T)) : Prop where
  nodup : pages.flatten.Nodup
  reached : ∀ t ∈ pages.flatten, reach t
  complete : ∀ t, (∀ r ∈ requests, t ∈ r.1) → reach t → [] ∈ pages → t ∈ pages.flatten
  ends : ∀ all : List T, (∀ r ∈ requests, r.1 ⊆ all) → all.length < requests.length → [] ∈ pages

theorem sorted_snapshots (hkeys : Distinct q requests) : ∀ s ∈ requests.map fun r => sortItems q r.1, s.Pairwise q.Before := by
  intro s hs
  obtain ⟨r, hr, rfl⟩ := List.mem_map.mp hs
  exact pairwise_sortItems q (hkeys r hr)

theorem sorted_reversed (hkeys : Distinct q requests) :
    ∀ s ∈ requests.map fun r => (sortItems q r.1).reverse, s.Pairwise q.After := by
  intro s hs
  obtain ⟨r, hr, rfl⟩ := List.mem_map.mp hs
  exact List.pairwise_reverse.mpr (pairwise_sortItems q (hkeys r hr))

theorem nodup_of_pairwise {lt : T → T → Prop} (hirrefl : ∀ a, ¬ lt a a) (h : rows.Pairwise lt) : rows.Nodup := by
  refine h.imp fun hlt => ?_
  rintro rfl
  exact hirrefl _ hlt

theorem forward_served (hkeys : Distinct q requests) (hkept : Kept List.getLast? requests (q.forward none requests)) :
    Served (fun _ => True) requests (q.forward none requests) := by
  have hsweep : Sweep q.Before none (requests.map fun r => sortItems q r.1) (q.forward none requests) :=
    sweep_forward q hkeys (fun c hc => by cases hc) hkept
  have hsorted := sorted_snapshots q hkeys
  refine ⟨nodup_of_pairwise (before_irrefl q) (hsweep.increasing (before_trans q) hsorted).1, fun _ _ => trivial, fun t hstays _ hend => ?_,
    fun all hall hlen => ?_⟩
  · refine hsweep.complete hsorted (fun s hs => ?_) trivial hend
    obtain ⟨r, hr, rfl⟩ := List.mem_map.mp hs
    exact (mem_sortItems q).mpr (hstays r hr)
  · refine hsweep.ends (before_irrefl q) (before_trans q) hsorted (fun s hs => ?_)
      (show all.length < _ by simpa using hlen)
    obtain ⟨r, hr, rfl⟩ := List.mem_map.mp hs
    exact fun t ht => hall r hr ((mem_sortItems q).mp ht)

theorem nil_mem_map_reverse {pages : List (List T)} : [] ∈ pages.map List.reverse ↔ [] ∈ pages := by
  rw [List.mem_map]
  constructor
  · rintro ⟨page, hpage, hnil⟩
    rwa [← List.reverse_eq_nil_iff.mp hnil]
  · exact fun h => ⟨[], h, rfl⟩

theorem flatten_map_reverse (pages : List (List T)) : (pages.map List.reverse).flatten = pages.reverse.flatten.reverse := by
  rw [List.reverse_flatten, List.map_reverse, List.reverse_reverse]

theorem mem_flatten_reverse {pages : List (List T)} : t ∈ (pages.map List.reverse).flatten ↔ t ∈ pages.flatten := by
  rw [flatten_map_reverse, List.mem_reverse]
  exact (List.reverse_perm pages).flatten.mem_iff

theorem backward_served (hkeys : Distinct q requests) {c : T} (hc : ∀ r ∈ requests.head?, c ∈ r.1)
    (hkept : Kept List.head? requests (q.backward (some (q.cursor c)) requests)) :
    Served (fun t => q.Before t c) requests (q.backward (some (q.cursor c)) requests) := by
  have hsweep := sweep_backward q hkeys hc hkept
  have hsorted := sorted_reversed q hkeys
  obtain ⟨hpairs, hbeyond⟩ := hsweep.increasing (after_trans q) hsorted
  refine ⟨?_, fun t ht => hbeyond t (mem_flatten_reverse.mpr ht), fun t hstays hreach hend => ?_, fun all hall hlen => ?_⟩
  · have hnodup := nodup_of_pairwise (after_irrefl q) hpairs
    rw [flatten_map_reverse, List.nodup_reverse] at hnodup
    exact ((List.reverse_perm _).flatten.nodup_iff).mp hnodup
  · refine mem_flatten_reverse.mp (hsweep.complete hsorted (fun s hs => ?_) hreach (nil_mem_map_reverse.mpr hend))
    obtain ⟨r, hr, rfl⟩ := List.mem_map.mp hs
    exact List.mem_reverse.mpr ((mem_sortItems q).mpr (hstays r hr))
  · refine nil_mem_map_reverse.mp (hsweep.ends (after_irrefl q) (after_trans q) hsorted (fun s hs => ?_)
      (show all.length < _ by simpa using hlen))
    obtain ⟨r, hr, rfl⟩ := List.mem_map.mp hs
    exact fun t ht => hall r hr ((mem_sortItems q).mp (List.mem_reverse.mp ht))

/-! ## Rows that stay as they are -/

theorem window_subset (page : Option PageRequest) : (q.page rows page).items ⊆ rows := by
  intro t ht
  rw [items_page] at ht
  obtain ⟨r, hr, rfl⟩ := List.mem_map.mp ht
  have hmem : r.2 ∈ (q.sorted rows).map (·.2) := List.mem_map_of_mem (mem_of_mem_window hr)
  rwa [map_sorted, mem_sortItems] at hmem

theorem kept_of_subset {named : List T → Option T} (hnamed : ∀ page, ∀ c ∈ named page, c ∈ page) {pages : List (List T)}
    (hsame : ∀ r ∈ requests, r.1 = rows) (hpages : ∀ page ∈ pages, page ⊆ rows) : Kept named requests pages := by
  induction pages generalizing requests with
  | nil =>
    unfold Kept
    split <;> trivial
  | cons page pages ih =>
    match requests, hsame with
    | [], _ | [_], _ => trivial
    | _ :: next :: more, hsame =>
      refine ⟨fun c hc => ?_, ih (fun r hr => hsame r (List.mem_cons_of_mem _ hr)) fun p hp => hpages p (List.mem_cons_of_mem _ hp)⟩
      rw [hsame next (by simp)]
      exact hpages page List.mem_cons_self (hnamed page c hc)

/-- Requests for the same rows, with limits of their own. -/
def unchanged (rows : List T) (limits : List (Option Nat)) : List (List T × Option Nat) := limits.map fun l => (rows, l)

theorem unchanged_same {limits : List (Option Nat)} : ∀ r ∈ unchanged rows limits, r.1 = rows := by
  intro r hr
  obtain ⟨l, -, rfl⟩ := List.mem_map.mp hr
  rfl

theorem forward_subset (hsame : ∀ r ∈ requests, r.1 = rows) (after : Option String) : ∀ page ∈ q.forward after requests, page ⊆ rows := by
  induction requests generalizing after with
  | nil => exact fun page hpage => absurd hpage List.not_mem_nil
  | cons r more ih =>
    obtain ⟨snapshot, limit⟩ := r
    obtain rfl : snapshot = rows := hsame _ List.mem_cons_self
    rw [Search.forward]
    intro page hpage
    split at hpage
    · rw [List.mem_singleton.mp hpage]
      exact List.nil_subset _
    · rcases List.mem_cons.mp hpage with rfl | hpage
      · exact window_subset q _
      · exact ih (fun r hr => hsame r (List.mem_cons_of_mem _ hr)) _ page hpage

theorem backward_subset (hsame : ∀ r ∈ requests, r.1 = rows) (before : Option String) :
    ∀ page ∈ q.backward before requests, page ⊆ rows := by
  induction requests generalizing before with
  | nil => exact fun page hpage => absurd hpage List.not_mem_nil
  | cons r more ih =>
    obtain ⟨snapshot, limit⟩ := r
    obtain rfl : snapshot = rows := hsame _ List.mem_cons_self
    rw [Search.backward]
    intro page hpage
    split at hpage
    · rw [List.mem_singleton.mp hpage]
      exact List.nil_subset _
    · rcases List.mem_cons.mp hpage with rfl | hpage
      · exact window_subset q _
      · exact ih (fun r hr => hsame r (List.mem_cons_of_mem _ hr)) _ page hpage

/-- Rows in one order with the same members are the same. -/
theorem eq_of_increasing {lt : T → T → Prop} (hirrefl : ∀ a, ¬ lt a a) (htrans : ∀ a b c, lt a b → lt b c → lt a c) {xs ys : List T}
    (hxs : xs.Pairwise lt) (hys : ys.Pairwise lt) (h : ∀ t, t ∈ xs ↔ t ∈ ys) : xs = ys := by
  have hperm : xs.Perm ys := (List.perm_ext_iff_of_nodup (nodup_of_pairwise hirrefl hxs) (nodup_of_pairwise hirrefl hys)).mpr h
  exact hperm.eq_of_pairwise (fun a b _ _ hab hba => absurd (htrans a b a hab hba) (hirrefl a)) hxs hys

theorem forward_unchanged (hkeys : (rows.map q.key).Nodup) (limits : List (Option Nat)) :
    (rows.length < limits.length → [] ∈ q.forward none (unchanged rows limits)) ∧
    ([] ∈ q.forward none (unchanged rows limits) → (q.forward none (unchanged rows limits)).flatten = sortItems q rows) := by
  have hdistinct : Distinct q (unchanged rows limits) := fun r hr => by rwa [unchanged_same r hr]
  have hkept : Kept List.getLast? (unchanged rows limits) (q.forward none (unchanged rows limits)) :=
    kept_of_subset (fun _ _ => List.mem_of_getLast?) unchanged_same (forward_subset q unchanged_same none)
  have hserved := forward_served q hdistinct hkept
  refine ⟨fun hlen => ?_, fun hend => ?_⟩
  · exact hserved.ends rows (fun r hr => by rw [unchanged_same r hr]; exact List.Subset.refl _) (by simpa [unchanged] using hlen)
  · have hsweep : Sweep q.Before none _ (q.forward none (unchanged rows limits)) :=
      sweep_forward q hdistinct (fun c hc => by cases hc) hkept
    have hsorted := sorted_snapshots q hdistinct
    refine eq_of_increasing (before_irrefl q) (before_trans q) (hsweep.increasing (before_trans q) hsorted).1
      (pairwise_sortItems q hkeys) fun t => ⟨fun ht => ?_, fun ht => ?_⟩
    · obtain ⟨page, hpage, ht⟩ := List.mem_flatten.mp ht
      exact (mem_sortItems q).mpr (forward_subset q unchanged_same none page hpage ht)
    · exact hserved.complete t (fun r hr => by rw [unchanged_same r hr]; exact (mem_sortItems q).mp ht) trivial hend

theorem backward_unchanged (hkeys : (rows.map q.key).Nodup) (limits : List (Option Nat)) {i : Nat} (hi : (sortItems q rows)[i]? = some c) :
    (rows.length < limits.length → [] ∈ q.backward (some (q.cursor c)) (unchanged rows limits)) ∧
    ([] ∈ q.backward (some (q.cursor c)) (unchanged rows limits) →
      (q.backward (some (q.cursor c)) (unchanged rows limits)).reverse.flatten = (sortItems q rows).take i) := by
  have hdistinct : Distinct q (unchanged rows limits) := fun r hr => by rwa [unchanged_same r hr]
  have hmem : c ∈ rows := (mem_sortItems q).mp (List.mem_of_getElem? hi)
  have hfirst : ∀ r ∈ (unchanged rows limits).head?, c ∈ r.1 := fun r hr => by
    rwa [unchanged_same r (List.mem_of_head? hr)]
  have hkept : Kept List.head? (unchanged rows limits) (q.backward (some (q.cursor c)) (unchanged rows limits)) :=
    kept_of_subset (fun _ _ => List.mem_of_head?) unchanged_same (backward_subset q unchanged_same (some (q.cursor c)))
  have hserved := backward_served q hdistinct hfirst hkept
  refine ⟨fun hlen => ?_, fun hend => ?_⟩
  · exact hserved.ends rows (fun r hr => by rw [unchanged_same r hr]; exact List.Subset.refl _) (by simpa [unchanged] using hlen)
  · have hsweep := sweep_backward q hdistinct hfirst hkept
    have hpairs := (hsweep.increasing (after_trans q) (sorted_reversed q hdistinct)).1
    rw [flatten_map_reverse, List.pairwise_reverse] at hpairs
    obtain ⟨hlt, rfl⟩ := List.getElem?_eq_some_iff.mp hi
    have hsorted := pairwise_sortItems q hkeys
    refine eq_of_increasing (before_irrefl q) (before_trans q) hpairs (hsorted.sublist (List.take_sublist i _)) fun t => ⟨fun ht => ?_, fun ht => ?_⟩
    · have ht' : t ∈ (q.backward (some (q.cursor (sortItems q rows)[i])) (unchanged rows limits)).flatten :=
        (List.reverse_perm _).flatten.mem_iff.mp ht
      obtain ⟨page, hpage, hin⟩ := List.mem_flatten.mp ht'
      obtain ⟨j, hj, rfl⟩ := List.getElem_of_mem ((mem_sortItems q).mpr (backward_subset q unchanged_same _ page hpage hin))
      have hbefore := hserved.reached _ ht'
      refine List.mem_take_iff_getElem.mpr ⟨j, ?_, rfl⟩
      by_contra hji
      rcases Nat.lt_or_eq_of_le (show i ≤ j by omega) with hij | rfl
      · exact before_irrefl q _ (before_trans q _ _ _ hbefore (List.pairwise_iff_getElem.mp hsorted i j _ _ hij))
      · exact before_irrefl q _ hbefore
    · obtain ⟨j, hj, rfl⟩ := List.mem_take_iff_getElem.mp ht
      refine (List.reverse_perm _).flatten.mem_iff.mpr (hserved.complete _ (fun r hr => ?_) ?_ hend)
      · rw [unchanged_same r hr]
        exact (mem_sortItems q).mp (List.getElem_mem _)
      · exact List.pairwise_iff_getElem.mp hsorted j i _ _ (by omega)

/-- Cursors lead through rows that stay as they are, and through changing rows while the row that a cursor names is found by the next
search. The cursor of a single key is decoded right unless the first of its bytes is not zero, that of a composite key always. -/
theorem cursors_right (q : Search T K) :
    (∀ rows limits, (rows.map q.key).Nodup → (rows.length < limits.length → [] ∈ q.forward none (unchanged rows limits)) ∧
      ([] ∈ q.forward none (unchanged rows limits) → (q.forward none (unchanged rows limits)).flatten = sortItems q rows)) ∧
    (∀ rows limits c (i : Nat), (rows.map q.key).Nodup → (sortItems q rows)[i]? = some c →
      (rows.length < limits.length → [] ∈ q.backward (some (q.cursor c)) (unchanged rows limits)) ∧
      ([] ∈ q.backward (some (q.cursor c)) (unchanged rows limits) →
        (q.backward (some (q.cursor c)) (unchanged rows limits)).reverse.flatten = (sortItems q rows).take i)) ∧
    (∀ requests, Distinct q requests → Kept List.getLast? requests (q.forward none requests) →
      Served (fun _ => True) requests (q.forward none requests)) ∧
    (∀ requests c, Distinct q requests → (∀ r ∈ requests.head?, c ∈ r.1) →
      Kept List.head? requests (q.backward (some (q.cursor c)) requests) →
      Served (fun t => q.Before t c) requests (q.backward (some (q.cursor c)) requests)) ∧
    (∀ s, (∀ key, decodeCursor s = some key ↔ s = encodeCursor key) ↔
      ∀ bs, base64Decode s = some bs → bs.length = 9 → bs.head? = some 0) ∧
    ∀ s key, decodePair s = some key ↔ s = encodePair key :=
  ⟨fun _ limits hkeys => forward_unchanged q hkeys limits, fun _ limits _ _ hkeys hi => backward_unchanged q hkeys limits hi,
    fun _ hkeys hkept => forward_served q hkeys hkept, fun _ _ hkeys hc hkept => backward_served q hkeys hc hkept,
    decodeCursor_right_iff, fun _ key => decodePair_eq_some key⟩

/-- Rows that are keys, in the order of these. -/
def byKey : Search UInt64 UInt64 := ⟨[], fun _ _ => .num 0, id⟩

/-- The row of the first page's cursor is removed, and the second page is the first one again. -/
theorem row_served_twice :
    ¬ Served (fun _ => True) [([1, 2, 3], some 2), ([1, 3], some 2)] (byKey.forward none [([1, 2, 3], some 2), ([1, 3], some 2)]) := by
  have hthree : sortItems byKey [1, 2, 3] = [1, 2, 3] := List.mergeSort_of_pairwise (by decide +kernel)
  have htwo : sortItems byKey [1, 3] = [1, 3] := List.mergeSort_of_pairwise (by decide +kernel)
  have hfirst : (byKey.page [1, 2, 3] (some (.cursorForward none (some 2)))).items = [1, 2] := by
    rw [items_first, hthree]
    rfl
  have hcursor : (byKey.page [1, 2, 3] (some (.cursorForward none (some 2)))).endCursor = some (byKey.cursor 2) := by
    rw [endCursor_page, hfirst]
    rfl
  have hgone : ∀ t ∈ [1, 3], byKey.key t ≠ byKey.key 2 := by simp [byKey]
  have hsecond : (byKey.page [1, 3] (some (.cursorForward (some (byKey.cursor 2)) (some 2)))).items = [1, 3] := by
    rw [items_gone byKey hgone, htwo]
    rfl
  have hpages : byKey.forward none [([1, 2, 3], some 2), ([1, 3], some 2)] = [[1, 2], [1, 3]] := by
    rw [Search.forward, hfirst, hcursor, Search.forward, hsecond]
    rfl
  intro h
  have hnodup := h.nodup
  rw [hpages] at hnodup
  exact absurd hnodup (by decide)

end NanoBpm.Query
