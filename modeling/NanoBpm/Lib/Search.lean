import Mathlib.Logic.Relation
import Mathlib.Algebra.BigOperators.Group.Finset.Basic
import Mathlib.Tactic.Tauto

/-!
# Breadth-first search for one node

A search takes nodes off a queue, stops at the goal, skips what it has visited and queues the successors of what it
has not. It is bounded by fuel; with as much fuel as nodes can ever be queued it decides reachability.
-/

namespace Search

variable {α : Type} [DecidableEq α]

/-- Whether the goal is found from the queued nodes, not looking again at those visited. -/
def find (next : α → List α) (goal : α) : Nat → List α → List α → Bool
  | 0, _, _ => false
  | _ + 1, _, [] => false
  | fuel + 1, visited, node :: rest =>
    if node = goal then true
    else if visited.contains node then find next goal fuel visited rest
    else find next goal fuel (node :: visited) (rest ++ next node)

/-- One step from a node to a successor. -/
def Step (next : α → List α) (a b : α) : Prop := b ∈ next a

/-- What the expansion of the nodes not yet visited can still queue. -/
def cost (next : α → List α) (nodes : Finset α) (visited : List α) : Nat :=
  ∑ a ∈ nodes.filter (· ∉ visited), (next a).length

variable {next : α → List α} {goal : α}

/-- What is found can be reached. -/
theorem reachable_of_find {fuel : Nat} {visited queue : List α} (h : find next goal fuel visited queue = true) :
    ∃ a ∈ queue, Relation.ReflTransGen (Step next) a goal := by
  induction fuel generalizing visited queue with
  | zero => simp [find] at h
  | succ fuel ih =>
    cases queue with
    | nil => simp [find] at h
    | cons node rest =>
      rw [find] at h
      by_cases hgoal : node = goal
      · exact ⟨node, by simp, hgoal ▸ .refl⟩
      rw [if_neg hgoal] at h
      by_cases hseen : visited.contains node = true
      · rw [if_pos hseen] at h
        obtain ⟨a, ha, hreach⟩ := ih h
        exact ⟨a, by simp [ha], hreach⟩
      · rw [if_neg hseen] at h
        obtain ⟨a, ha, hreach⟩ := ih h
        rcases List.mem_append.mp ha with ha | ha
        · exact ⟨a, by simp [ha], hreach⟩
        · exact ⟨node, by simp, .head ha hreach⟩

/-- Visiting a node pays for its successors. -/
theorem cost_cons {nodes : Finset α} (hleaf : ∀ a, a ∉ nodes → next a = []) {visited : List α} {node : α}
    (hnew : node ∉ visited) : cost next nodes (node :: visited) + (next node).length = cost next nodes visited := by
  have herase : nodes.filter (· ∉ node :: visited) = (nodes.filter (· ∉ visited)).erase node := by
    ext a
    simp only [Finset.mem_filter, Finset.mem_erase, List.mem_cons, not_or]
    tauto
  unfold cost
  rw [herase]
  by_cases hnode : node ∈ nodes
  · exact Finset.sum_erase_add _ _ (by simp [hnode, hnew])
  · rw [Finset.erase_eq_of_notMem (by simp [hnode]), hleaf node hnode, List.length_nil, Nat.add_zero]

/-- A set of nodes that the search has closed: no step leaves it, and the goal is not in it. -/
structure Closed (next : α → List α) (goal : α) (set : α → Prop) : Prop where
  step : ∀ a, set a → ∀ b ∈ next a, set b
  noGoal : ¬ set goal

omit [DecidableEq α] in
/-- Nothing in a closed set reaches the goal. -/
theorem Closed.not_reachable {set : α → Prop} (h : Closed next goal set) {a : α} (ha : set a) :
    ¬ Relation.ReflTransGen (Step next) a goal := by
  intro hreach
  have hall : ∀ b, Relation.ReflTransGen (Step next) a b → set b := by
    intro b hb
    induction hb with
    | refl => exact ha
    | tail _ hstep ih => exact h.step _ ih _ hstep
  exact h.noGoal (hall goal hreach)

/-- A search that fails with enough fuel has closed a set around all it was given. -/
theorem closed_of_find {nodes : Finset α} (hleaf : ∀ a, a ∉ nodes → next a = []) {fuel : Nat} {visited queue : List α}
    (hfuel : queue.length + cost next nodes visited < fuel) (hgoal : goal ∉ visited)
    (hvisited : ∀ a ∈ visited, ∀ b ∈ next a, b ∈ visited ∨ b ∈ queue)
    (h : find next goal fuel visited queue = false) :
    ∃ set, Closed next goal set ∧ (∀ a ∈ visited, set a) ∧ ∀ a ∈ queue, set a := by
  induction fuel generalizing visited queue with
  | zero => omega
  | succ fuel ih =>
    cases queue with
    | nil =>
      refine ⟨(· ∈ visited), ⟨?_, hgoal⟩, fun a ha => ha, by simp⟩
      intro a ha b hb
      simpa using hvisited a ha b hb
    | cons node rest =>
      rw [find] at h
      by_cases hnode : node = goal
      · simp [hnode] at h
      rw [if_neg hnode] at h
      simp only [List.length_cons] at hfuel
      by_cases hseen : node ∈ visited
      · rw [if_pos (by simpa using hseen)] at h
        have hvisited' : ∀ a ∈ visited, ∀ b ∈ next a, b ∈ visited ∨ b ∈ rest := by
          intro a ha b hb
          rcases hvisited a ha b hb with hb | hb
          · exact .inl hb
          rcases List.mem_cons.mp hb with rfl | hb
          · exact .inl hseen
          · exact .inr hb
        obtain ⟨set, hclosed, hset, hqueue⟩ := ih (by omega) hgoal hvisited' h
        refine ⟨set, hclosed, hset, ?_⟩
        intro a ha
        rcases List.mem_cons.mp ha with rfl | ha
        · exact hset _ hseen
        · exact hqueue a ha
      · rw [if_neg (by simpa using hseen)] at h
        have hcost := cost_cons hleaf hseen
        have hvisited' : ∀ a ∈ node :: visited, ∀ b ∈ next a, b ∈ node :: visited ∨ b ∈ rest ++ next node := by
          intro a ha b hb
          rcases List.mem_cons.mp ha with rfl | ha
          · simp [hb]
          rcases hvisited a ha b hb with hb | hb
          · simp [hb]
          rcases List.mem_cons.mp hb with rfl | hb
          · simp
          · simp [hb]
        obtain ⟨set, hclosed, hset, hqueue⟩ :=
          ih (by simp only [List.length_append]; omega) (by simp [hgoal, Ne.symm hnode]) hvisited' h
        refine ⟨set, hclosed, fun a ha => hset a (by simp [ha]), ?_⟩
        intro a ha
        rcases List.mem_cons.mp ha with rfl | ha
        · exact hset _ (by simp)
        · exact hqueue a (by simp [ha])

/-- With enough fuel the search decides reachability from its start. -/
theorem find_eq_true_iff {nodes : Finset α} (hleaf : ∀ a, a ∉ nodes → next a = []) {fuel : Nat} {source : α}
    (hfuel : 1 + ∑ a ∈ nodes, (next a).length < fuel) :
    find next goal fuel [] [source] = true ↔ Relation.ReflTransGen (Step next) source goal := by
  constructor
  · intro h
    obtain ⟨a, ha, hreach⟩ := reachable_of_find h
    simp only [List.mem_singleton] at ha
    exact ha ▸ hreach
  · intro hreach
    by_contra hfind
    have hcost : cost next nodes [] = ∑ a ∈ nodes, (next a).length := by simp [cost]
    have hfail : find next goal fuel [] [source] = false := by simpa using hfind
    obtain ⟨set, hclosed, -, hqueue⟩ := closed_of_find hleaf (by simpa [hcost] using hfuel) (by simp) (by simp) hfail
    exact hclosed.not_reachable (hqueue source (by simp)) hreach

end Search
