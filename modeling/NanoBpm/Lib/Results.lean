import Mathlib.Data.List.Defs

/-!
# Computations that may fail

A computation that succeeds went through every one of its steps.
-/

namespace Except

variable {ε α β σ : Type}

theorem bind_eq_ok {x : Except ε α} {f : α → Except ε β} {b : β} :
    (x >>= f) = .ok b ↔ ∃ a, x = .ok a ∧ f a = .ok b := by
  cases x with
  | error err => simp [bind, Except.bind]
  | ok a => simp [bind, Except.bind]

theorem map_eq_ok {x : Except ε α} {f : α → β} {b : β} : (f <$> x) = .ok b ↔ ∃ a, x = .ok a ∧ f a = b := by
  cases x with
  | error err => simp [Functor.map, Except.map]
  | ok a => simp [Functor.map, Except.map]

/-- The rule of a loop that may fail: what every step keeps, the loop keeps. -/
theorem foldlM_inv {step : σ → α → Except ε σ} (P : σ → Prop) {xs : List α} {s s' : σ}
    (hstep : ∀ s x s', x ∈ xs → step s x = .ok s' → P s → P s') (h : xs.foldlM step s = .ok s') (hs : P s) : P s' := by
  induction xs generalizing s with
  | nil =>
    cases h
    exact hs
  | cons x xs ih =>
    rw [List.foldlM_cons] at h
    obtain ⟨s₁, h₁, h₂⟩ := bind_eq_ok.mp h
    exact ih (fun s y s' hy => hstep s y s' (List.mem_cons_of_mem _ hy)) h₂
      (hstep s x s₁ List.mem_cons_self h₁ hs)

end Except
