import Mathlib.Logic.Relation
import Mathlib.Data.List.Nodup
import Mathlib.Data.List.Perm.Subperm
import Mathlib.Data.List.Chain

/-!
# Climbing to a root

Everything has one above it or none. A climb that remembers where it has been ends at the top, or where it comes to a place for the second
time; from a place below a top it ends at that top whatever it has been through.
-/

namespace Climb

variable {α : Type} [DecidableEq α]

/-- The climb from a place, in at most so many steps. -/
def climb (up : α → Option α) : Nat → List α → α → Option α
  | 0, _, _ => none
  | n + 1, visited, a =>
    if a ∈ visited then some a
    else match up a with
      | none => some a
      | some b => climb up n (a :: visited) b

def Above (up : α → Option α) (a b : α) : Prop := up a = some b

/-- The top above a place, if there is one. -/
def Tops (up : α → Option α) (a r : α) : Prop := Relation.ReflTransGen (Above up) a r ∧ up r = none

variable {up : α → Option α} {a b r : α} {visited all : List α} {n : Nat}

omit [DecidableEq α] in
theorem tops_self (h : up a = none) : Tops up a a := ⟨.refl, h⟩

omit [DecidableEq α] in
theorem Tops.up_above (h : Tops up a r) (hab : Above up a b) : Tops up b r := by
  refine ⟨?_, h.2⟩
  rcases Relation.ReflTransGen.cases_head h.1 with rfl | ⟨c, hac, hcr⟩
  · rw [Above, h.2] at hab
    cases hab
  · rw [Above, hac] at hab
    exact Option.some.inj hab ▸ hcr

omit [DecidableEq α] in
theorem Tops.of_trans (hab : Relation.ReflTransGen (Above up) a b) (h : Tops up b r) : Tops up a r := ⟨hab.trans h.1, h.2⟩

omit [DecidableEq α] in
/-- No circle is below a top. -/
theorem Tops.acyclic (h : Tops up a r) : ¬ Relation.TransGen (Above up) a a := by
  obtain ⟨hreach, hnone⟩ := h
  induction hreach using Relation.ReflTransGen.head_induction_on with
  | refl =>
    intro hloop
    obtain ⟨c, hc, -⟩ := Relation.TransGen.head'_iff.mp hloop
    rw [Above, hnone] at hc
    cases hc
  | head hab _ ih =>
    intro hloop
    obtain ⟨c, hac, hca⟩ := Relation.TransGen.head'_iff.mp hloop
    have hcb : some c = some _ := hac.symm.trans hab
    obtain rfl := Option.some.inj hcb
    exact ih (Relation.TransGen.tail' hca hac)

/-- From below a top a climb ends there. -/
theorem climb_of_tops (h : Tops up a r) (hvisited : ∀ v ∈ visited, Relation.TransGen (Above up) v a) (hclimb : climb up n visited a = some b) :
    b = r := by
  induction n generalizing a visited with
  | zero => cases hclimb
  | succ n ih =>
    have hnot : a ∉ visited := fun hmem => h.acyclic (hvisited a hmem)
    rw [climb, if_neg hnot] at hclimb
    cases hup : up a with
    | none =>
      simp only [hup, Option.some.injEq] at hclimb
      rcases Relation.ReflTransGen.cases_head h.1 with rfl | ⟨c, hac, -⟩
      · exact hclimb.symm
      · rw [Above, hup] at hac
        cases hac
    | some c =>
      simp only [hup] at hclimb
      refine ih (h.up_above hup) (fun v hv => ?_) hclimb
      rcases List.mem_cons.mp hv with rfl | hv
      · exact .single hup
      · exact (hvisited v hv).tail hup

/-- A climb ends where only listed places have one above them. -/
theorem climb_isSome (hall : ∀ x, (up x).isSome → x ∈ all) (hnodup : visited.Nodup) (hsub : visited ⊆ all)
    (hn : all.length < n + visited.length) (a : α) : (climb up n visited a).isSome := by
  induction n generalizing visited a with
  | zero =>
    have := (hnodup.subperm hsub).length_le
    omega
  | succ n ih =>
    rw [climb]
    split
    · rfl
    · next hnot =>
      cases hup : up a with
      | none => rfl
      | some b =>
        refine ih (List.nodup_cons.mpr ⟨hnot, hnodup⟩) (List.cons_subset.mpr ⟨hall a (by rw [hup]; rfl), hsub⟩) ?_ b
        rw [List.length_cons]
        omega

/-- What a climb comes through, and where it ends: at the top, or at a place that it has been through. -/
theorem climb_chain (hclimb : climb up n visited a = some r) : ∃ chain : List α, ∃ last, chain.getLast? = some last ∧
    (∀ x ∈ chain.head?, x = a) ∧ chain.IsChain (Above up) ∧ ((a ∈ visited ∧ r = a) ∨
      (chain.Nodup ∧ (∀ x ∈ chain, x ∉ visited) ∧ ((up last = none ∧ r = last) ∨ (up last = some r ∧ (r ∈ chain ∨ r ∈ visited))))) := by
  induction n generalizing a visited with
  | zero => cases hclimb
  | succ n ih =>
    rw [climb] at hclimb
    by_cases hmem : a ∈ visited
    · rw [if_pos hmem] at hclimb
      exact ⟨[a], a, rfl, by simp, .singleton a, .inl ⟨hmem, (Option.some.inj hclimb).symm⟩⟩
    · rw [if_neg hmem] at hclimb
      cases hup : up a with
      | none =>
        simp only [hup, Option.some.injEq] at hclimb
        exact ⟨[a], a, rfl, by simp, .singleton a, .inr ⟨by simp, by simpa using hmem, .inl ⟨hup, hclimb.symm⟩⟩⟩
      | some b =>
        simp only [hup] at hclimb
        obtain ⟨chain, last, hlast, hhead, hchain, hend⟩ := ih hclimb
        rcases hend with ⟨hb, rfl⟩ | ⟨hnodup, hfresh, hend⟩
        · refine ⟨[a], a, rfl, by simp, .singleton a, .inr ⟨by simp, by simpa using hmem, .inr ⟨hup, ?_⟩⟩⟩
          rcases List.mem_cons.mp hb with rfl | hb
          · exact .inl List.mem_cons_self
          · exact .inr hb
        · refine ⟨a :: chain, last, ?_, by simp, ?_, .inr ⟨List.nodup_cons.mpr ⟨fun ha => hfresh a ha List.mem_cons_self, hnodup⟩, ?_, ?_⟩⟩
          · rw [List.getLast?_cons, hlast]
            rfl
          · refine List.isChain_cons.mpr ⟨fun y hy => ?_, hchain⟩
            rw [hhead y hy]
            exact hup
          · intro x hx
            rcases List.mem_cons.mp hx with rfl | hx
            · exact hmem
            · exact fun hv => hfresh x hx (List.mem_cons_of_mem _ hv)
          · rcases hend with hend | ⟨hr, hend⟩
            · exact .inl hend
            · refine .inr ⟨hr, ?_⟩
              rcases hend with hin | hin
              · exact .inl (List.mem_cons_of_mem _ hin)
              · rcases List.mem_cons.mp hin with rfl | hin
                · exact .inl List.mem_cons_self
                · exact .inr hin

end Climb
