import NanoBpm.Arrivals
import Mathlib.Data.Finset.Dedup
import Mathlib.Data.Finset.Card

/-!
# Arrivals as a multiset of flows

What a join has counted is a multiset of flow identities, and its sorted list the only one of that multiset.
-/

namespace NanoBpm.FlowArrivals

/-- What is done to the arrivals of a join. -/
inductive Step where
  | record (flow : IncomingFlow)
  | add (flow : IncomingFlow) (tokens : Nat)
  | consumeOneEach
  | remap (rename : ElementId → ElementId)

def Step.apply (a : FlowArrivals) : Step → FlowArrivals
  | .record flow => a.record flow
  | .add flow tokens => a.add flow tokens
  | .consumeOneEach => a.consumeOneEach
  | .remap rename => a.remap rename

/-- A step on the multiset. -/
def Step.bag (m : Multiset IncomingFlow) : Step → Multiset IncomingFlow
  | .record flow => m + {flow}
  | .add flow tokens => m + Multiset.replicate tokens flow
  | .consumeOneEach => m - m.dedup
  | .remap rename => m.map fun flow => { flow with source := rename flow.source }

def kept (steps : List Step) : FlowArrivals := steps.foldl Step.apply {}

def bag (steps : List Step) : Multiset IncomingFlow := steps.foldl Step.bag 0

/-- The flows that entries count. -/
def bagOf (entries : List (IncomingFlow × Nat)) : Multiset IncomingFlow := (entries.map fun e => Multiset.replicate e.2 e.1).sum

variable {a : FlowArrivals} {entries : List (IncomingFlow × Nat)} {flow : IncomingFlow} {s : Step}

theorem bagOf_cons (e : IncomingFlow × Nat) (entries : List (IncomingFlow × Nat)) :
    bagOf (e :: entries) = Multiset.replicate e.2 e.1 + bagOf entries := by
  rw [bagOf, List.map_cons, List.sum_cons]
  rfl

theorem count_bagOf (entries : List (IncomingFlow × Nat)) (flow : IncomingFlow) : (bagOf entries).count flow = total entries flow := by
  induction entries with
  | nil => rfl
  | cons e entries ih => rw [bagOf_cons, Multiset.count_add, Multiset.count_replicate, ih, total_cons]

theorem card_bagOf (entries : List (IncomingFlow × Nat)) : (bagOf entries).card = (entries.map (·.2)).sum := by
  induction entries with
  | nil => rfl
  | cons e entries ih => rw [bagOf_cons, Multiset.card_add, Multiset.card_replicate, ih, List.map_cons, List.sum_cons]

theorem mem_bagOf : flow ∈ bagOf entries ↔ ∃ e ∈ entries, 0 < e.2 ∧ e.1 = flow := by
  induction entries with
  | nil => simp [bagOf]
  | cons e entries ih =>
    rw [bagOf_cons, Multiset.mem_add, Multiset.mem_replicate, ih, List.exists_mem_cons_iff, Nat.pos_iff_ne_zero, eq_comm]

theorem map_bagOf (f : IncomingFlow → IncomingFlow) (entries : List (IncomingFlow × Nat)) :
    (bagOf entries).map f = bagOf (entries.map fun e => (f e.1, e.2)) := by
  induction entries with
  | nil => rfl
  | cons e entries ih => rw [bagOf_cons, Multiset.map_add, Multiset.map_replicate, ih, List.map_cons, bagOf_cons]

/-! ## No zero counts -/

/-- The entries are sorted by flow, and each has a token. -/
structure Clean (a : FlowArrivals) : Prop where
  sorted : a.Sorted
  positive : ∀ e ∈ a.entries, 0 < e.2

theorem clean_empty : Clean {} := ⟨sorted_empty, fun _ h => absurd h List.not_mem_nil⟩

theorem positive_addTo {tokens : Nat} (htokens : 0 < tokens) (h : ∀ e ∈ entries, 0 < e.2) : ∀ e ∈ addTo flow tokens entries, 0 < e.2 := by
  induction entries with
  | nil =>
    intro e he
    rw [addTo, List.mem_singleton] at he
    exact he ▸ htokens
  | cons first rest ih =>
    obtain ⟨hfirst, hrest⟩ := List.forall_mem_cons.mp h
    unfold addTo
    split
    · exact List.forall_mem_cons.mpr ⟨hfirst, ih hrest⟩
    · exact List.forall_mem_cons.mpr ⟨Nat.add_pos_right _ htokens, hrest⟩
    · exact List.forall_mem_cons.mpr ⟨htokens, h⟩

theorem Clean.add (h : a.Clean) (flow : IncomingFlow) (tokens : Nat) : (a.add flow tokens).Clean := by
  refine ⟨h.sorted.add flow tokens, ?_⟩
  unfold FlowArrivals.add
  split
  · exact h.positive
  · next htokens => exact positive_addTo (Nat.pos_of_ne_zero htokens) h.positive

theorem Clean.consumeOneEach (h : a.Clean) : a.consumeOneEach.Clean :=
  ⟨h.sorted.consumeOneEach, fun _ he => of_decide_eq_true (List.mem_filter.mp he).2⟩

theorem Clean.addAll (h : a.Clean) (entries : List (IncomingFlow × Nat)) :
    (entries.foldl (fun a (flow, tokens) => a.add flow tokens) a).Clean := by
  induction entries generalizing a with
  | nil => exact h
  | cons e entries ih => exact ih (h.add e.1 e.2)

theorem clean_remap (a : FlowArrivals) (rename : ElementId → ElementId) : (a.remap rename).Clean := by
  rw [remap_eq]
  exact clean_empty.addAll _

/-! ## The multiset of what is kept -/

/-- What is kept is the multiset. -/
structure Represents (a : FlowArrivals) (m : Multiset IncomingFlow) : Prop extends Clean a where
  bag_eq : bagOf a.entries = m

theorem Represents.count_eq {m : Multiset IncomingFlow} (h : Represents a m) (flow : IncomingFlow) : a.count flow = m.count flow := by
  rw [count_eq_total h.sorted, ← h.bag_eq, count_bagOf]

theorem represents_of_count {m : Multiset IncomingFlow} (h : a.Clean) (hcount : ∀ flow, a.count flow = m.count flow) : Represents a m := by
  refine ⟨h, Multiset.ext.mpr fun flow => ?_⟩
  rw [count_bagOf, ← count_eq_total h.sorted, hcount]

theorem represents_empty : Represents {} 0 := ⟨clean_empty, rfl⟩

theorem Represents.add {m : Multiset IncomingFlow} (h : Represents a m) (flow : IncomingFlow) (tokens : Nat) :
    Represents (a.add flow tokens) (m + Multiset.replicate tokens flow) := by
  refine represents_of_count (h.toClean.add flow tokens) fun other => ?_
  rw [count_add h.sorted, h.count_eq, Multiset.count_add, Multiset.count_replicate]

theorem Represents.consumeOneEach {m : Multiset IncomingFlow} (h : Represents a m) : Represents a.consumeOneEach (m - m.dedup) := by
  refine represents_of_count h.toClean.consumeOneEach fun flow => ?_
  rw [count_consumeOneEach h.sorted, h.count_eq, Multiset.count_sub, Multiset.count_dedup]
  split
  · rfl
  · next hmem => rw [Multiset.count_eq_zero_of_notMem hmem]

theorem Represents.remap {m : Multiset IncomingFlow} (h : Represents a m) (rename : ElementId → ElementId) :
    Represents (a.remap rename) (m.map fun flow => { flow with source := rename flow.source }) := by
  refine represents_of_count (clean_remap a rename) fun flow => ?_
  have hempty : ({} : FlowArrivals).count flow = 0 := rfl
  rw [remap_eq, count_addAll sorted_empty, hempty, Nat.zero_add, ← h.bag_eq, map_bagOf, count_bagOf]

theorem Represents.step {m : Multiset IncomingFlow} (h : Represents a m) (s : Step) : Represents (s.apply a) (s.bag m) := by
  cases s with
  | record flow => exact h.add flow 1
  | add flow tokens => exact h.add flow tokens
  | consumeOneEach => exact h.consumeOneEach
  | remap rename => exact h.remap rename

/-- After any steps, what is kept is the multiset that they make. -/
theorem represents_kept (steps : List Step) : Represents (kept steps) (bag steps) := by
  have hrun {a : FlowArrivals} {m : Multiset IncomingFlow} (h : Represents a m) :
      Represents (steps.foldl Step.apply a) (steps.foldl Step.bag m) := by
    induction steps generalizing a m with
    | nil => exact h
    | cons s steps ih => exact ih (h.step s)
  exact hrun represents_empty

theorem Represents.tokens_eq {m : Multiset IncomingFlow} (h : Represents a m) : a.tokens = m.card := by
  rw [← h.bag_eq, card_bagOf]
  rfl

/-- The entries are one for each flow of the multiset. -/
theorem Represents.distinctFlows_eq {m : Multiset IncomingFlow} (h : Represents a m) : a.distinctFlows = m.toFinset.card := by
  have hnodup : (a.entries.map (·.1)).Nodup := by
    rw [List.Nodup, List.pairwise_map]
    refine h.sorted.imp fun {x y} hlt heq => ?_
    have hself : IncomingFlow.cmp x.1 x.1 = .eq := Std.ReflCmp.compare_self
    rw [← heq, hself] at hlt
    cases hlt
  have hmem : m.toFinset = (a.entries.map (·.1)).toFinset := by
    ext flow
    rw [Multiset.mem_toFinset, List.mem_toFinset, ← h.bag_eq, mem_bagOf, List.mem_map]
    exact exists_congr fun e => and_congr_right fun he => and_iff_right (h.positive e he)
  rw [hmem, List.toFinset_card_of_nodup hnodup, List.length_map]
  rfl

/-- After any arrivals, consumptions and renamings, the entries are sorted and have tokens, and they count as the multiset of these steps
does; a consumption takes one token of each flow that has some, and a renaming keeps the number of tokens. -/
theorem arrivals_multiset (steps : List Step) :
    (kept steps).Sorted ∧ (∀ e ∈ (kept steps).entries, 0 < e.2) ∧
    (∀ flow, (kept steps).count flow = (bag steps).count flow) ∧
    (kept steps).distinctFlows = (bag steps).toFinset.card ∧ (kept steps).tokens = (bag steps).card ∧
    (∀ flow, (kept steps).consumeOneEach.count flow = (kept steps).count flow - 1) ∧
    ∀ rename, ((kept steps).remap rename).tokens = (kept steps).tokens := by
  have h := represents_kept steps
  exact ⟨h.sorted, h.positive, h.count_eq, h.distinctFlows_eq, h.tokens_eq, count_consumeOneEach h.sorted, tokens_remap _⟩

end NanoBpm.FlowArrivals
