import Std.Data.ExtTreeMap

/-!
# Replaying over a newer value

A log of updates is replayed over a value. `Overwrites step` says that an update hides what an earlier copy of
itself did, whatever happened in between; then a value that already holds a part of the log is brought to the
same result by the whole of it.
-/

namespace Overwrite

variable {ε α : Type}

/-- The log applied in order. -/
def run (step : ε → α → α) (log : List ε) (a : α) : α := log.foldl (fun a e => step e a) a

structure Overwrites (step : ε → α → α) : Prop where
  idem : ∀ e a, step e (step e a) = step e a
  /-- What `e` hides stays hidden while other updates go by. -/
  hides : ∀ e f a b, step e a = step e b → step e (step f a) = step e (step f b)

@[simp] theorem run_nil (step : ε → α → α) (a : α) : run step [] a = a := rfl

@[simp] theorem run_cons (step : ε → α → α) (e : ε) (log : List ε) (a : α) :
    run step (e :: log) a = run step log (step e a) := rfl

theorem run_append (step : ε → α → α) (xs ys : List ε) (a : α) : run step (xs ++ ys) a = run step ys (run step xs a) :=
  List.foldl_append

namespace Overwrites

variable {step : ε → α → α} (h : Overwrites step)
include h

theorem step_run (e : ε) (log : List ε) {a b : α} (hab : step e a = step e b) :
    step e (run step log a) = step e (run step log b) := by
  induction log generalizing a b with
  | nil => exact hab
  | cons f log ih => exact ih (h.hides e f a b hab)

/-- A log in which `e` occurs does not see an earlier `e`. -/
theorem run_step_of_mem {log : List ε} {e : ε} (hmem : e ∈ log) (a : α) : run step log (step e a) = run step log a := by
  obtain ⟨before, after, rfl⟩ := List.append_of_mem hmem
  rw [run_append, run_append, run_cons, run_cons, h.step_run e before (h.idem e a)]

/-- Replaying a log over a value that already holds a stretch of it. -/
theorem run_run_of_subset {log done : List ε} (hsub : ∀ e ∈ done, e ∈ log) (a : α) :
    run step log (run step done a) = run step log a := by
  induction done generalizing a with
  | nil => rfl
  | cons e done ih =>
    rw [List.forall_mem_cons] at hsub
    rw [run_cons, ih hsub.2, h.run_step_of_mem hsub.1]

/-- A log that was applied once changes nothing when a stretch at its end is applied again. -/
theorem run_again {before again : List ε} (a : α) :
    run step again (run step (before ++ again) a) = run step (before ++ again) a := by
  rw [run_append, h.run_run_of_subset fun e he => he]

end Overwrites

/-! ## Tables whose entries are always written whole -/

section Put

variable {κ β : Type} {cmp : κ → κ → Ordering} [Std.TransCmp cmp] [Std.LawfulEqCmp cmp]

/-- The entry that an update writes, if it writes one. -/
def putEntry (entry : ε → Option (κ × β)) (e : ε) (m : Std.ExtTreeMap κ β cmp) : Std.ExtTreeMap κ β cmp :=
  match entry e with
  | some (k, v) => m.insert k v
  | none => m

theorem overwrites_putEntry (entry : ε → Option (κ × β)) : Overwrites (putEntry entry : ε → Std.ExtTreeMap κ β cmp → _) where
  idem e m := by
    unfold putEntry
    split
    · refine Std.ExtTreeMap.ext_getElem? fun j => ?_
      simp only [Std.ExtTreeMap.getElem?_insert]
      split <;> rfl
    · rfl
  hides e f a b h := by
    unfold putEntry at h ⊢
    cases he : entry e with
    | none =>
      simp only [he] at h ⊢
      rw [h]
    | some kv =>
      cases hf : entry f with
      | none => simpa only [he] using h
      | some kv' =>
        simp only [he] at h ⊢
        refine Std.ExtTreeMap.ext_getElem? fun j => ?_
        have hj := congrArg (fun m => m[j]?) h
        simp only [Std.ExtTreeMap.getElem?_insert] at hj ⊢
        by_cases hk : cmp kv.1 j = .eq
        · simp only [hk, if_true]
        · simp only [hk, if_false] at hj ⊢
          rw [hj]

end Put

end Overwrite
