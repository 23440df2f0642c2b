import Mathlib.Data.List.Perm.Basic

/-!
# Reordering what is independent

Lists that come from one another by swaps of neighbours that are independent. A fold whose step does not care for the order of two
independent items gives the same on both.
-/

/-- The list with neighbours swapped that are independent, any number of times. -/
inductive Reordered {α : Type} (independent : α → α → Prop) : List α → List α → Prop
  | nil : Reordered independent [] []
  | cons (a : α) {l m : List α} : Reordered independent l m → Reordered independent (a :: l) (a :: m)
  | swap {a b : α} (l : List α) : independent a b → Reordered independent (a :: b :: l) (b :: a :: l)
  | trans {l m n : List α} : Reordered independent l m → Reordered independent m n → Reordered independent l n

namespace Reordered

variable {α β : Type} {independent : α → α → Prop} {l m : List α}

theorem perm (h : Reordered independent l m) : l.Perm m := by
  induction h with
  | nil => exact .nil
  | cons a _ ih => exact ih.cons a
  | swap l _ => exact .swap _ _ l
  | trans _ _ ih₁ ih₂ => exact ih₁.trans ih₂

/-- Where all are independent, every order is a reordering. -/
theorem of_perm (hsymm : ∀ a b, independent a b → independent b a) (h : l.Perm m) (hpair : l.Pairwise independent) :
    Reordered independent l m := by
  induction h with
  | nil => exact .nil
  | cons a _ ih => exact .cons a (ih hpair.of_cons)
  | swap a b l => exact .swap l (List.rel_of_pairwise_cons hpair List.mem_cons_self)
  | trans h₁ _ ih₁ ih₂ => exact .trans (ih₁ hpair) (ih₂ (h₁.pairwise hpair fun hab => hsymm _ _ hab))

theorem foldl_eq {f : β → α → β} (hf : ∀ s a b, independent a b → f (f s a) b = f (f s b) a) (h : Reordered independent l m) (s : β) :
    l.foldl f s = m.foldl f s := by
  induction h generalizing s with
  | nil => rfl
  | cons a _ ih => exact ih (f s a)
  | swap l hab =>
    rw [List.foldl_cons, List.foldl_cons, List.foldl_cons, List.foldl_cons, hf s _ _ hab]
  | trans _ _ ih₁ ih₂ => exact (ih₁ s).trans (ih₂ s)

end Reordered
