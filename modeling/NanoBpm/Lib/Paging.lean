import Mathlib.Data.List.Basic
import Mathlib.Data.List.Perm.Subperm

/-!
# Walks over sorted snapshots

A walk takes page after page, each from a snapshot of its own, and goes on after the last row of a page. While the snapshots are in one
order, what it takes is in that order too, and it skips nothing that stays.
-/

namespace Paging

variable {α : Type} {lt : α → α → Prop}

/-- After a row, if there is one. -/
def Beyond (lt : α → α → Prop) : Option α → α → Prop
  | none, _ => True
  | some c, r => lt c r

/-- A page is what comes first after the bound, and is empty only where nothing does. -/
def Takes (lt : α → α → Prop) (bound : Option α) (rows page : List α) : Prop :=
  ∃ before rest, rows = before ++ (page ++ rest) ∧ (∀ r ∈ before, ¬ Beyond lt bound r) ∧ (∀ r ∈ page ++ rest, Beyond lt bound r) ∧
    (page = [] → rest = [])

/-- The pages that a walk takes from snapshots, up to an empty page or as far as it is followed. -/
inductive Sweep (lt : α → α → Prop) : Option α → List (List α) → List (List α) → Prop
  | idle (bound : Option α) : Sweep lt bound [] []
  | done {bound : Option α} {rows : List α} (more : List (List α)) : Takes lt bound rows [] → Sweep lt bound (rows :: more) [[]]
  | next {bound : Option α} {rows page : List α} {c : α} {more pages : List (List α)} : Takes lt bound rows page →
      page.getLast? = some c → Sweep lt (some c) more pages → Sweep lt bound (rows :: more) (page :: pages)

variable {bound : Option α} {rows page : List α} {snapshots pages : List (List α)} {c r : α}

theorem Takes.subset (h : Takes lt bound rows page) : page ⊆ rows := by
  obtain ⟨before, rest, rfl, -⟩ := h
  intro r hr
  simp [hr]

theorem Takes.beyond (h : Takes lt bound rows page) (hr : r ∈ page) : Beyond lt bound r := by
  obtain ⟨before, rest, -, -, hbeyond, -⟩ := h
  exact hbeyond r (List.mem_append_left _ hr)

theorem Takes.pairwise (h : Takes lt bound rows page) (hrows : rows.Pairwise lt) : page.Pairwise lt := by
  obtain ⟨before, rest, rfl, -⟩ := h
  exact (List.pairwise_append.mp (List.pairwise_append.mp hrows).2.1).1

/-- A row after the bound is on the page or after its last row. -/
theorem Takes.cover (h : Takes lt bound rows page) (hrows : rows.Pairwise lt) (hr : r ∈ rows) (hbeyond : Beyond lt bound r) :
    r ∈ page ∨ ∀ c ∈ page.getLast?, lt c r := by
  obtain ⟨before, rest, rfl, hbefore, -, -⟩ := h
  rcases List.mem_append.mp hr with hr | hr
  · exact absurd hbeyond (hbefore r hr)
  · rcases List.mem_append.mp hr with hr | hr
    · exact .inl hr
    · refine .inr fun c hc => ?_
      have hpairs := (List.pairwise_append.mp (List.pairwise_append.mp hrows).2.1).2.2
      exact hpairs c (List.mem_of_getLast? hc) r hr

theorem Takes.end (h : Takes lt bound rows []) (hr : r ∈ rows) : ¬ Beyond lt bound r := by
  obtain ⟨before, rest, rfl, hbefore, -, hempty⟩ := h
  rw [hempty rfl, List.append_nil, List.append_nil] at hr
  exact hbefore r hr

theorem le_getLast (hpage : page.Pairwise lt) (hc : page.getLast? = some c) (hr : r ∈ page) : r = c ∨ lt r c := by
  obtain ⟨init, rfl⟩ := List.getLast?_eq_some_iff.mp hc
  rcases List.mem_append.mp hr with hr | hr
  · exact .inr ((List.pairwise_append.mp hpage).2.2 r hr c (List.mem_singleton_self c))
  · exact .inl (List.mem_singleton.mp hr)

/-- What a walk takes is in order, and after the bound. -/
theorem Sweep.increasing (htrans : ∀ a b c, lt a b → lt b c → lt a c) (h : Sweep lt bound snapshots pages)
    (hsorted : ∀ rows ∈ snapshots, rows.Pairwise lt) : pages.flatten.Pairwise lt ∧ ∀ r ∈ pages.flatten, Beyond lt bound r := by
  induction h with
  | idle => exact ⟨.nil, fun r hr => absurd hr List.not_mem_nil⟩
  | done => exact ⟨.nil, fun r hr => absurd hr List.not_mem_nil⟩
  | @next bound rows page c more pages htakes hc _ ih =>
    obtain ⟨hpairs, hmore⟩ := ih fun rows hrows => hsorted rows (List.mem_cons_of_mem _ hrows)
    have hpage := htakes.pairwise (hsorted rows List.mem_cons_self)
    have hafter : ∀ a ∈ page, ∀ b ∈ pages.flatten, lt a b := fun a ha b hb => by
      rcases le_getLast hpage hc ha with rfl | hlt
      · exact hmore b hb
      · exact htrans _ _ _ hlt (hmore b hb)
    rw [List.flatten_cons]
    refine ⟨List.pairwise_append.mpr ⟨hpage, hpairs, hafter⟩, fun r hr => ?_⟩
    rcases List.mem_append.mp hr with hr | hr
    · exact htakes.beyond hr
    · have hlast := htakes.beyond (List.mem_of_getLast? hc)
      cases bound with
      | none => trivial
      | some b => exact htrans _ _ _ hlast (hmore r hr)

/-- A walk that came to an empty page has taken all rows after the bound that were in every snapshot. -/
theorem Sweep.complete (h : Sweep lt bound snapshots pages) (hsorted : ∀ rows ∈ snapshots, rows.Pairwise lt)
    (hstays : ∀ rows ∈ snapshots, r ∈ rows) (hbeyond : Beyond lt bound r) (hend : [] ∈ pages) : r ∈ pages.flatten := by
  induction h with
  | idle => exact absurd hend List.not_mem_nil
  | done _ htakes => exact absurd hbeyond (htakes.end (hstays _ List.mem_cons_self))
  | @next bound rows page c more pages htakes hc _ ih =>
    rw [List.flatten_cons, List.mem_append]
    rcases htakes.cover (hsorted rows List.mem_cons_self) (hstays rows List.mem_cons_self) hbeyond with hr | hafter
    · exact .inl hr
    · refine .inr (ih (fun rows hrows => hsorted rows (List.mem_cons_of_mem _ hrows))
        (fun rows hrows => hstays rows (List.mem_cons_of_mem _ hrows)) (hafter c hc) ?_)
      rcases List.mem_cons.mp hend with heq | hend
      · rw [← heq] at hc
        cases hc
      · exact hend

theorem Sweep.subset {all : List α} (h : Sweep lt bound snapshots pages) (hall : ∀ rows ∈ snapshots, rows ⊆ all) :
    pages.flatten ⊆ all := by
  induction h with
  | idle => exact List.nil_subset _
  | done => exact List.nil_subset _
  | next htakes _ _ ih =>
    rw [List.flatten_cons]
    exact List.append_subset.mpr ⟨fun x hx => hall _ List.mem_cons_self (htakes.subset hx), ih fun rows hrows => hall rows (List.mem_cons_of_mem _ hrows)⟩

/-- A walk that did not come to an empty page has taken a row or more from each snapshot. -/
theorem Sweep.length_le (h : Sweep lt bound snapshots pages) (hend : [] ∉ pages) : snapshots.length ≤ pages.flatten.length := by
  induction h with
  | idle => exact Nat.zero_le _
  | done => exact absurd (List.mem_singleton_self _) hend
  | @next _ rows page c more pages _ hc _ ih =>
    have hpos : 0 < page.length := List.length_pos_of_mem (List.mem_of_getLast? hc)
    have := ih fun hmem => hend (List.mem_cons_of_mem _ hmem)
    rw [List.flatten_cons, List.length_append, List.length_cons]
    omega

/-- A walk ends within as many pages as there ever were rows, and one more. -/
theorem Sweep.ends (hirrefl : ∀ a, ¬ lt a a) (htrans : ∀ a b c, lt a b → lt b c → lt a c) {all : List α}
    (h : Sweep lt bound snapshots pages) (hsorted : ∀ rows ∈ snapshots, rows.Pairwise lt) (hall : ∀ rows ∈ snapshots, rows ⊆ all)
    (hlen : all.length < snapshots.length) : [] ∈ pages := by
  by_contra hend
  have hnodup : pages.flatten.Nodup := by
    refine (h.increasing htrans hsorted).1.imp fun hlt => ?_
    rintro rfl
    exact hirrefl _ hlt
  have hle := (hnodup.subperm (h.subset hall)).length_le
  have := h.length_le hend
  omega

/-! ## Pages by position -/

/-- From the start, a page of one row or more. -/
theorem takes_start {limit : Nat} (hlimit : 0 < limit) (rows : List α) : Takes lt none rows (rows.take limit) := by
  refine ⟨[], rows.drop limit, by simp, fun r hr => absurd hr List.not_mem_nil, fun _ _ => trivial, fun hempty => ?_⟩
  rcases List.take_eq_nil_iff.mp hempty with hzero | hnil
  · omega
  · rw [hnil, List.drop_nil]

/-- After the row at a position. -/
theorem takes_after (hirrefl : ∀ a, ¬ lt a a) (htrans : ∀ a b c, lt a b → lt b c → lt a c) (hrows : rows.Pairwise lt) {i limit : Nat}
    (hi : rows[i]? = some c) (hlimit : 0 < limit) : Takes lt (some c) rows ((rows.drop (i + 1)).take limit) := by
  obtain ⟨hlt, rfl⟩ := List.getElem?_eq_some_iff.mp hi
  have hsplit : rows = rows.take (i + 1) ++ rows.drop (i + 1) := (List.take_append_drop _ _).symm
  refine ⟨rows.take (i + 1), (rows.drop (i + 1)).drop limit, ?_, fun r hr hbeyond => ?_, fun r hr => ?_, fun hempty => ?_⟩
  · rw [List.take_append_drop]
    exact hsplit
  · obtain ⟨j, hj, rfl⟩ := List.mem_take_iff_getElem.mp hr
    rcases Nat.lt_or_eq_of_le (show j ≤ i by omega) with hji | rfl
    · exact hirrefl _ (htrans _ _ _ hbeyond (List.pairwise_iff_getElem.mp hrows j i _ _ hji))
    · exact hirrefl _ hbeyond
  · rw [List.take_append_drop] at hr
    obtain ⟨j, hj, rfl⟩ := List.getElem_of_mem hr
    rw [List.getElem_drop]
    exact List.pairwise_iff_getElem.mp hrows i (i + 1 + j) _ _ (by omega)
  · rcases List.take_eq_nil_iff.mp hempty with hzero | hnil
    · omega
    · rw [hnil, List.drop_nil]

end Paging
