import Mathlib.Algebra.BigOperators.Group.List.Basic
import Mathlib.Order.Compare
import NanoBpm.State

/-!
# Tokens per incoming flow (`engine-core/src/state/types.rs:106-186`)

A join counts its tokens in a list sorted by flow. As long as the list is sorted, the count of a flow is what was added
for it, whatever the order of the additions.
-/

namespace NanoBpm

namespace IncomingFlow

theorem cmp_eq_compareLex :
    cmp = compareLex (compareOn IncomingFlow.source) (compareOn IncomingFlow.ordinal) := by
  funext a b
  rfl

instance : Std.TransCmp cmp := by
  rw [cmp_eq_compareLex]
  infer_instance

instance : Std.LawfulEqCmp cmp where
  eq_of_compare {a b} h := by
    simp only [cmp, Ordering.then_eq_eq, Std.LawfulEqCmp.compare_eq_iff_eq] at h
    cases a
    cases b
    simp_all

end IncomingFlow

namespace FlowArrivals

/-- The entries are sorted by flow, so no flow has two. -/
def Sorted (a : FlowArrivals) : Prop := a.entries.Pairwise fun x y => IncomingFlow.cmp x.1 y.1 = .lt

/-- What a list of entries counts for a flow. -/
def total (entries : List (IncomingFlow × Nat)) (flow : IncomingFlow) : Nat :=
  ((entries.filter (·.1 == flow)).map (·.2)).sum

@[simp] theorem total_nil (flow : IncomingFlow) : total [] flow = 0 := rfl

theorem total_cons (entry : IncomingFlow × Nat) (entries : List (IncomingFlow × Nat)) (flow : IncomingFlow) :
    total (entry :: entries) flow = (if entry.1 = flow then entry.2 else 0) + total entries flow := by
  by_cases h : entry.1 = flow <;> simp [total, h]

theorem total_eq_zero {entries : List (IncomingFlow × Nat)} {flow : IncomingFlow}
    (h : ∀ entry ∈ entries, entry.1 ≠ flow) : total entries flow = 0 := by
  have hnone : entries.filter (·.1 == flow) = [] := by
    simpa [List.filter_eq_nil_iff] using h
  simp [total, hnone]

/-- Entries behind a smaller flow are not that flow's. -/
theorem total_eq_zero_of_lt {entry : IncomingFlow × Nat} {entries : List (IncomingFlow × Nat)}
    (h : ∀ other ∈ entries, IncomingFlow.cmp entry.1 other.1 = .lt) : total entries entry.1 = 0 := by
  refine total_eq_zero fun other hother heq => ?_
  have hlt := h other hother
  have hself : IncomingFlow.cmp entry.1 entry.1 = .eq := Std.ReflCmp.compare_self
  rw [heq, hself] at hlt
  cases hlt

/-- In a sorted list the one entry of a flow is all there is of it. -/
theorem count_eq_total {a : FlowArrivals} (h : a.Sorted) (flow : IncomingFlow) : a.count flow = total a.entries flow := by
  obtain ⟨entries⟩ := a
  simp only [Sorted] at h
  induction entries with
  | nil => rfl
  | cons entry entries ih =>
    obtain ⟨hfirst, hrest⟩ := List.pairwise_cons.mp h
    rw [total_cons]
    by_cases heq : entry.1 = flow
    · subst heq
      simp [count, total_eq_zero_of_lt hfirst]
    · have hcount := ih hrest
      have hne : (entry.1 == flow) = false := by simpa using heq
      simp only [count, List.find?_cons, hne] at hcount ⊢
      simpa [heq] using hcount

theorem mem_addTo {flow : IncomingFlow} {tokens : Nat} {entries : List (IncomingFlow × Nat)} {entry : IncomingFlow × Nat}
    (h : entry ∈ addTo flow tokens entries) : entry.1 = flow ∨ ∃ other ∈ entries, other.1 = entry.1 := by
  induction entries with
  | nil =>
    simp only [addTo, List.mem_singleton] at h
    exact .inl (by rw [h])
  | cons first rest ih =>
    simp only [addTo] at h
    split at h
    · rcases List.mem_cons.mp h with rfl | h
      · exact .inr ⟨_, List.mem_cons_self, rfl⟩
      · rcases ih h with heq | ⟨other, hother, heq⟩
        · exact .inl heq
        · exact .inr ⟨other, List.mem_cons_of_mem _ hother, heq⟩
    · rcases List.mem_cons.mp h with rfl | h
      · exact .inr ⟨_, List.mem_cons_self, rfl⟩
      · exact .inr ⟨entry, List.mem_cons_of_mem _ h, rfl⟩
    · rcases List.mem_cons.mp h with rfl | h
      · exact .inl rfl
      · exact .inr ⟨entry, h, rfl⟩

theorem sorted_addTo {flow : IncomingFlow} {tokens : Nat} {entries : List (IncomingFlow × Nat)}
    (h : entries.Pairwise fun x y => IncomingFlow.cmp x.1 y.1 = .lt) :
    (addTo flow tokens entries).Pairwise fun x y => IncomingFlow.cmp x.1 y.1 = .lt := by
  induction entries with
  | nil => simp [addTo]
  | cons first rest ih =>
    obtain ⟨hfirst, hrest⟩ := List.pairwise_cons.mp h
    simp only [addTo]
    split
    · next hlt =>
      refine List.pairwise_cons.mpr ⟨?_, ih hrest⟩
      intro entry hentry
      rcases mem_addTo hentry with heq | ⟨other, hother, heq⟩
      · rw [heq]
        exact hlt
      · rw [← heq]
        exact hfirst other hother
    · exact List.pairwise_cons.mpr ⟨hfirst, hrest⟩
    · next hgt =>
      have hlt : IncomingFlow.cmp flow first.1 = .lt := Std.OrientedCmp.lt_of_gt hgt
      refine List.pairwise_cons.mpr ⟨?_, h⟩
      intro entry hentry
      rcases List.mem_cons.mp hentry with rfl | hentry
      · exact hlt
      · exact Std.TransCmp.lt_trans hlt (hfirst entry hentry)

theorem total_addTo (flow : IncomingFlow) (tokens : Nat) (entries : List (IncomingFlow × Nat)) (other : IncomingFlow) :
    total (addTo flow tokens entries) other = total entries other + if flow = other then tokens else 0 := by
  induction entries with
  | nil => simp [addTo, total_cons]
  | cons first rest ih =>
    simp only [addTo]
    split
    · rw [total_cons, total_cons, ih, Nat.add_assoc]
    · next heq =>
      have hflow : first.1 = flow := Std.LawfulEqCmp.eq_of_compare heq
      rw [total_cons, total_cons, hflow]
      by_cases h : flow = other
      · simp [h]
        omega
      · simp [h]
    · rw [total_cons, total_cons]
      dsimp only
      omega

theorem sorted_empty : ({} : FlowArrivals).Sorted := .nil

theorem Sorted.add {a : FlowArrivals} (h : a.Sorted) (flow : IncomingFlow) (tokens : Nat) : (a.add flow tokens).Sorted := by
  unfold FlowArrivals.add
  split
  · exact h
  · exact sorted_addTo h

theorem count_add {a : FlowArrivals} (h : a.Sorted) (flow : IncomingFlow) (tokens : Nat) (other : IncomingFlow) :
    (a.add flow tokens).count other = a.count other + if flow = other then tokens else 0 := by
  rw [count_eq_total (h.add flow tokens), count_eq_total h]
  unfold FlowArrivals.add
  split
  · next hzero => simp [hzero]
  · exact total_addTo flow tokens a.entries other

theorem count_addAll {a : FlowArrivals} (h : a.Sorted) (entries : List (IncomingFlow × Nat)) (flow : IncomingFlow) :
    (entries.foldl (fun a (flow, tokens) => a.add flow tokens) a).count flow = a.count flow + total entries flow := by
  induction entries generalizing a with
  | nil => rfl
  | cons entry entries ih =>
    rw [List.foldl_cons, ih (h.add entry.1 entry.2), count_add h, total_cons, Nat.add_assoc]

theorem Sorted.consumeOneEach {a : FlowArrivals} (h : a.Sorted) : a.consumeOneEach.Sorted := by
  refine List.Pairwise.filter _ ?_
  exact List.pairwise_map.mpr h

theorem total_consume (entries : List (IncomingFlow × Nat)) (flow : IncomingFlow)
    (h : entries.Pairwise fun x y => IncomingFlow.cmp x.1 y.1 = .lt) :
    total ((entries.map fun (f, c) => (f, c - 1)).filter (·.2 > 0)) flow = total entries flow - 1 := by
  induction entries with
  | nil => rfl
  | cons entry entries ih =>
    obtain ⟨f, c⟩ := entry
    obtain ⟨hfirst, hrest⟩ := List.pairwise_cons.mp h
    have hcons := ih hrest
    have hzero : total entries f = 0 := total_eq_zero_of_lt hfirst
    rw [List.map_cons, List.filter_cons, total_cons]
    by_cases heq : f = flow
    · subst heq
      rw [hzero] at hcons
      by_cases hc : c - 1 > 0
      · simp [hc, total_cons, hcons, hzero]
      · simp only [hc, decide_false, Bool.false_eq_true, if_false, hcons, hzero, if_true]
        omega
    · by_cases hc : c - 1 > 0
      · simp [hc, total_cons, hcons, heq]
      · simp [hc, hcons, heq]

/-- One token of each flow goes. -/
theorem count_consumeOneEach {a : FlowArrivals} (h : a.Sorted) (flow : IncomingFlow) :
    a.consumeOneEach.count flow = a.count flow - 1 := by
  rw [count_eq_total h.consumeOneEach, count_eq_total h]
  exact total_consume a.entries flow h

/-! ## All tokens of a join -/

/-- The tokens of all flows together. -/
def tokens (a : FlowArrivals) : Nat := (a.entries.map (·.2)).sum

/-- A token came from the element. -/
def HasTokenFrom (a : FlowArrivals) (source : ElementId) : Prop :=
  ∃ entry ∈ a.entries, 0 < entry.2 ∧ entry.1.source = source

theorem sum_addTo (flow : IncomingFlow) (tokens : Nat) (entries : List (IncomingFlow × Nat)) :
    ((addTo flow tokens entries).map (·.2)).sum = (entries.map (·.2)).sum + tokens := by
  induction entries with
  | nil => simp [addTo]
  | cons first rest ih =>
    simp only [addTo]
    split
    · simp only [List.map_cons, List.sum_cons, ih]
      omega
    · simp only [List.map_cons, List.sum_cons]
      omega
    · simp only [List.map_cons, List.sum_cons]
      omega

theorem exists_mem_addTo {flow : IncomingFlow} {tokens : Nat} (hpos : 0 < tokens) {entries : List (IncomingFlow × Nat)}
    {source : ElementId} : (∃ entry ∈ addTo flow tokens entries, 0 < entry.2 ∧ entry.1.source = source) ↔
      (∃ entry ∈ entries, 0 < entry.2 ∧ entry.1.source = source) ∨ flow.source = source := by
  induction entries with
  | nil => simp [addTo, hpos]
  | cons first rest ih =>
    simp only [addTo]
    split
    · rw [List.exists_mem_cons_iff, ih, List.exists_mem_cons_iff, or_assoc]
    · next heq =>
      have hflow : first.1 = flow := Std.LawfulEqCmp.eq_of_compare heq
      have hsum : 0 < first.2 + tokens := Nat.add_pos_right _ hpos
      rw [List.exists_mem_cons_iff, List.exists_mem_cons_iff]
      simp only [hsum, hflow, true_and]
      grind
    · rw [List.exists_mem_cons_iff]
      simp only [hpos, true_and]
      exact or_comm

theorem tokens_add (a : FlowArrivals) (flow : IncomingFlow) (n : Nat) : (a.add flow n).tokens = a.tokens + n := by
  unfold add
  split
  · next hzero => rw [hzero, Nat.add_zero]
  · exact sum_addTo flow n a.entries

theorem hasTokenFrom_add {a : FlowArrivals} {flow : IncomingFlow} {n : Nat} {source : ElementId} :
    (a.add flow n).HasTokenFrom source ↔ a.HasTokenFrom source ∨ (0 < n ∧ flow.source = source) := by
  unfold add
  split
  · next hzero => simp [hzero]
  · next hne =>
    have hpos : 0 < n := Nat.pos_of_ne_zero hne
    simp only [HasTokenFrom, exists_mem_addTo hpos, hpos, true_and]

theorem tokens_addAll (a : FlowArrivals) (entries : List (IncomingFlow × Nat)) :
    (entries.foldl (fun a (flow, tokens) => a.add flow tokens) a).tokens = a.tokens + (entries.map (·.2)).sum := by
  induction entries generalizing a with
  | nil => rfl
  | cons entry entries ih => rw [List.foldl_cons, ih, tokens_add, List.map_cons, List.sum_cons, Nat.add_assoc]

theorem hasTokenFrom_addAll {a : FlowArrivals} {entries : List (IncomingFlow × Nat)} {source : ElementId} :
    (entries.foldl (fun a (flow, tokens) => a.add flow tokens) a).HasTokenFrom source ↔
      a.HasTokenFrom source ∨ ∃ entry ∈ entries, 0 < entry.2 ∧ entry.1.source = source := by
  induction entries generalizing a with
  | nil => simp
  | cons entry entries ih => rw [List.foldl_cons, ih, hasTokenFrom_add, List.exists_mem_cons_iff, or_assoc]

/-- A renaming is an addition of the renamed entries. -/
theorem remap_eq (a : FlowArrivals) (rename : ElementId → ElementId) :
    a.remap rename = (a.entries.map fun entry => ({ entry.1 with source := rename entry.1.source }, entry.2)).foldl
      (fun a (flow, tokens) => a.add flow tokens) {} := by
  rw [List.foldl_map]
  rfl

theorem tokens_remap (a : FlowArrivals) (rename : ElementId → ElementId) : (a.remap rename).tokens = a.tokens := by
  have hempty : ({} : FlowArrivals).tokens = 0 := rfl
  rw [remap_eq, tokens_addAll, hempty, Nat.zero_add, List.map_map]
  rfl

theorem hasTokenFrom_remap {a : FlowArrivals} {rename : ElementId → ElementId} {source : ElementId} :
    (a.remap rename).HasTokenFrom source ↔ ∃ old, a.HasTokenFrom old ∧ rename old = source := by
  rw [remap_eq, hasTokenFrom_addAll]
  constructor
  · rintro (⟨entry, hentry, -⟩ | ⟨entry, hentry, hpos, hsource⟩)
    · cases hentry
    · obtain ⟨old, hold, rfl⟩ := List.mem_map.1 hentry
      exact ⟨old.1.source, ⟨old, hold, hpos, rfl⟩, hsource⟩
  · rintro ⟨_, ⟨old, hold, hpos, rfl⟩, hsource⟩
    exact .inr ⟨_, List.mem_map_of_mem hold, hpos, hsource⟩

end FlowArrivals

end NanoBpm
