import Mathlib.Algebra.Order.Ring.Nat
import Mathlib.Algebra.BigOperators.Group.List.Basic

/-!
# Interleavings of atomic steps

Calls run at the same time over a shared state. A call is at some point of its program; one step of it is one atomic operation with what
it computes on its own until the next one. Any number of calls may start at any time, and any call may take the next step. The steps leave
a log, which no step reads.

`run_inv` is the rule of invariants: a fact `L` about the points, which no other call can disturb, and a fact `J` about the shared state,
the log and the calls under way, each counted with the weight of its point.
-/

namespace Interleaving

/-- A program: where a call enters, and what its step does. The choice is what the call does not determine itself. -/
structure Program (σ τ ε χ κ : Type) where
  entry : κ → τ
  advance : χ → σ → τ → σ × τ × List ε

structure World (σ τ ε : Type) where
  shared : σ
  calls : List τ := []
  log : List ε := []

inductive Action (κ χ : Type) where
  | call (c : κ)
  | advance (i : Nat) (choice : χ)

variable {σ τ ε χ κ : Type}

namespace Program

variable (P : Program σ τ ε χ κ)

def step (w : World σ τ ε) : Action κ χ → World σ τ ε
  | .call c => { w with calls := w.calls ++ [P.entry c] }
  | .advance i choice =>
    match w.calls[i]? with
    | none => w
    | some c =>
      let (shared, c, effects) := P.advance choice w.shared c
      ⟨shared, w.calls.set i c, w.log ++ effects⟩

def run (w : World σ τ ε) (actions : List (Action κ χ)) : World σ τ ε := actions.foldl P.step w

/-- `K` holds of every step of the run, in the world it starts from. -/
def Throughout (K : World σ τ ε → Action κ χ → Prop) : World σ τ ε → List (Action κ χ) → Prop
  | _, [] => True
  | w, a :: actions => K w a ∧ Throughout K (P.step w a) actions

end Program

/-- The invariant of a fact about points and a fact about the shared state, the log and the calls under way. -/
structure World.Inv (L : τ → Prop) (weight : τ → Nat) (J : σ → List ε → Nat → Prop) (w : World σ τ ε) : Prop where
  points : ∀ c ∈ w.calls, L c
  shared : J w.shared w.log (w.calls.map weight).sum

variable {P : Program σ τ ε χ κ} {L : τ → Prop} {weight : τ → Nat} {J : σ → List ε → Nat → Prop}

@[simp] theorem run_nil (w : World σ τ ε) : P.run w [] = w := rfl

@[simp] theorem run_cons (w : World σ τ ε) (a : Action κ χ) (actions : List (Action κ χ)) :
    P.run w (a :: actions) = P.run (P.step w a) actions := rfl

theorem run_append (w : World σ τ ε) (front back : List (Action κ χ)) : P.run w (front ++ back) = P.run (P.run w front) back :=
  List.foldl_append

theorem step_advance {w : World σ τ ε} {i : Nat} {c c' : τ} {choice : χ} {shared : σ} {effects : List ε} (hc : w.calls[i]? = some c)
    (h : P.advance choice w.shared c = (shared, c', effects)) :
    P.step w (.advance i choice) = ⟨shared, w.calls.set i c', w.log ++ effects⟩ := by
  simp only [Program.step, hc, h]

theorem step_idle {w : World σ τ ε} {i : Nat} (hc : w.calls[i]? = none) (choice : χ) : P.step w (.advance i choice) = w := by
  simp only [Program.step, hc]

/-- The weight of one call, apart from the others. -/
theorem exists_sum_eq {calls : List τ} {i : Nat} {c : τ} (hc : calls[i]? = some c) (weight : τ → Nat) :
    ∃ others, (calls.map weight).sum = others + weight c ∧ ∀ c', ((calls.set i c').map weight).sum = others + weight c' := by
  obtain ⟨hi, rfl⟩ := List.getElem?_eq_some_iff.mp hc
  refine ⟨((calls.take i).map weight).sum + ((calls.drop (i + 1)).map weight).sum, ?_, fun c' => ?_⟩
  · conv_lhs => rw [← List.take_append_drop i calls, List.drop_eq_getElem_cons hi]
    simp only [List.map_append, List.map_cons, List.sum_append, List.sum_cons]
    omega
  · rw [List.set_eq_take_append_cons_drop, if_pos hi]
    simp only [List.map_append, List.map_cons, List.sum_append, List.sum_cons]
    omega

theorem step_inv (hentry : ∀ c, L (P.entry c)) (hcall : ∀ c s log k, J s log k → J s log (k + weight (P.entry c)))
    (hadvance : ∀ choice s c log k s' c' effects, P.advance choice s c = (s', c', effects) → L c → J s log (k + weight c) →
      L c' ∧ J s' (log ++ effects) (k + weight c'))
    {w : World σ τ ε} (h : w.Inv L weight J) (a : Action κ χ) : (P.step w a).Inv L weight J := by
  cases a with
  | call c =>
    refine ⟨fun d hd => ?_, ?_⟩
    · rcases List.mem_append.mp hd with hd | hd
      · exact h.points d hd
      · exact List.mem_singleton.mp hd ▸ hentry c
    · have hsum : ((w.calls ++ [P.entry c]).map weight).sum = (w.calls.map weight).sum + weight (P.entry c) := by simp
      change J w.shared w.log ((w.calls ++ [P.entry c]).map weight).sum
      rw [hsum]
      exact hcall c _ _ _ h.shared
  | advance i choice =>
    cases hc : w.calls[i]? with
    | none => rwa [step_idle hc]
    | some c =>
      obtain ⟨others, hsum, hset⟩ := exists_sum_eq hc weight
      obtain ⟨shared, c', effects, hadv⟩ : ∃ shared c' effects, P.advance choice w.shared c = (shared, c', effects) := ⟨_, _, _, rfl⟩
      have hshared := h.shared
      rw [hsum] at hshared
      obtain ⟨hpoint, hnext⟩ := hadvance _ _ _ _ _ _ _ _ hadv (h.points c (List.mem_of_getElem? hc)) hshared
      rw [step_advance hc hadv]
      refine ⟨fun d hd => ?_, ?_⟩
      · rcases List.mem_or_eq_of_mem_set hd with hd | rfl
        · exact h.points d hd
        · exact hpoint
      · rw [hset c']
        exact hnext

/-- What holds in the beginning and is kept by every step holds in every world that a run reaches. -/
theorem run_inv (hentry : ∀ c, L (P.entry c)) (hcall : ∀ c s log k, J s log k → J s log (k + weight (P.entry c)))
    (hadvance : ∀ choice s c log k s' c' effects, P.advance choice s c = (s', c', effects) → L c → J s log (k + weight c) →
      L c' ∧ J s' (log ++ effects) (k + weight c'))
    {w : World σ τ ε} (h : w.Inv L weight J) (actions : List (Action κ χ)) : (P.run w actions).Inv L weight J := by
  induction actions generalizing w with
  | nil => exact h
  | cons a actions ih => exact ih (step_inv hentry hcall hadvance h a)

theorem throughout_append {K : World σ τ ε → Action κ χ → Prop} (w : World σ τ ε) (front back : List (Action κ χ)) :
    P.Throughout K w (front ++ back) ↔ P.Throughout K w front ∧ P.Throughout K (P.run w front) back := by
  induction front generalizing w with
  | nil => exact ⟨fun h => ⟨trivial, h⟩, fun h => h.2⟩
  | cons a front ih => exact (and_congr_right fun _ => ih _).trans and_assoc.symm

instance decidableThroughout (P : Program σ τ ε χ κ) (K : World σ τ ε → Action κ χ → Prop) [h : ∀ w a, Decidable (K w a)] :
    ∀ w actions, Decidable (P.Throughout K w actions)
  | _, [] => .isTrue trivial
  | w, a :: actions =>
    have : Decidable (P.Throughout K (P.step w a) actions) := decidableThroughout P K (P.step w a) actions
    inferInstanceAs (Decidable (K w a ∧ P.Throughout K (P.step w a) actions))

/-- What the steps of a stretch keep, the stretch keeps. -/
theorem throughout_run {K : World σ τ ε → Action κ χ → Prop} {R : World σ τ ε → Prop} (hstep : ∀ w a, K w a → R w → R (P.step w a))
    {w : World σ τ ε} {actions : List (Action κ χ)} (h : P.Throughout K w actions) (hw : R w) : R (P.run w actions) := by
  induction actions generalizing w with
  | nil => exact hw
  | cons a actions ih => exact ih h.2 (hstep w a h.1 hw)

end Interleaving
