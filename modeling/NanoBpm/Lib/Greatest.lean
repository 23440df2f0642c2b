import Mathlib.Order.Bounds.Basic
import Mathlib.Order.MinMax

/-!
# A value that only grows

Something holds a value of a linear order and takes up every greater one it hears of. What it holds in the end is the
greatest of all it heard, so it depends on which values were heard and neither on their order nor on how often each came.
-/

namespace Greatest

variable {α : Type} [LinearOrder α]

/-- What is held once the values have been heard in this order. -/
def hold (a : α) (heard : List α) : α := heard.foldl max a

@[simp] theorem hold_nil (a : α) : hold a [] = a := rfl

@[simp] theorem hold_concat (a : α) (heard : List α) (x : α) : hold a (heard ++ [x]) = max (hold a heard) x := by
  simp [hold]

theorem isGreatest_hold (a : α) (heard : List α) : IsGreatest {x | x = a ∨ x ∈ heard} (hold a heard) := by
  induction heard generalizing a with
  | nil => simp [IsGreatest, upperBounds]
  | cons x heard ih =>
    obtain ⟨hmem, hle⟩ := ih (max a x)
    constructor
    · rcases hmem with hmax | hmem
      · rcases max_choice a x with ha | hx
        · exact .inl (hmax.trans ha)
        · exact .inr (by simp [show hold a (x :: heard) = x from hmax.trans hx])
      · exact .inr (List.mem_cons_of_mem _ hmem)
    · intro y hy
      have hmax : max a x ≤ hold a (x :: heard) := hle (.inl rfl)
      rcases hy with rfl | hy
      · exact (le_max_left _ _).trans hmax
      · rcases List.mem_cons.mp hy with rfl | hy
        · exact (le_max_right _ _).trans hmax
        · exact hle (.inr hy)

/-- Only the set of what was heard counts. -/
theorem hold_congr {a : α} {heard heard' : List α} (h : ∀ x, x ∈ heard ↔ x ∈ heard') : hold a heard = hold a heard' := by
  have hset : {x | x = a ∨ x ∈ heard} = {x | x = a ∨ x ∈ heard'} := by
    ext x
    simp [h x]
  exact (isGreatest_hold a heard).unique (hset ▸ isGreatest_hold a heard')

end Greatest
