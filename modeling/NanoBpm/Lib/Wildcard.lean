import Mathlib.Data.List.Infix

/-!
# Patterns with wildcards

A pattern is matched from left to right and goes back to its last star only: what stands before an earlier star need not be tried
again, since the last one takes whatever the earlier would have.
-/

namespace Wildcard

variable {α : Type}

inductive Item (α : Type) where
  | star
  | any
  | lit (a : α)
deriving DecidableEq

/-- The words that a pattern denotes. -/
inductive Denotes : List (Item α) → List α → Prop
  | nil : Denotes [] []
  | star {ps : List (Item α)} {v : List α} (u : List α) : Denotes ps v → Denotes (.star :: ps) (u ++ v)
  | any {ps : List (Item α)} {v : List α} (a : α) : Denotes ps v → Denotes (.any :: ps) (a :: v)
  | lit {ps : List (Item α)} {v : List α} (a : α) : Denotes ps v → Denotes (.lit a :: ps) (a :: v)

/-- An item of one character that stands for this one. -/
def Item.Takes (a : α) : Item α → Prop
  | .star => False
  | .any => True
  | .lit b => b = a

variable {ps qs mid : List (Item α)} {u v w : List α} {a : α} {i : Item α}

theorem Denotes.append (h : Denotes ps u) (h' : Denotes qs v) : Denotes (ps ++ qs) (u ++ v) := by
  induction h with
  | nil => exact h'
  | star u _ ih => rw [List.append_assoc]; exact .star u ih
  | any a _ ih => exact .any a ih
  | lit a _ ih => exact .lit a ih

theorem denotes_nil_iff : Denotes [] w ↔ w = [] := by
  constructor
  · rintro ⟨⟩
    rfl
  · rintro rfl
    exact .nil

theorem denotes_star_iff : Denotes (.star :: ps) w ↔ ∃ v, v <:+ w ∧ Denotes ps v := by
  constructor
  · rintro (_ | ⟨u, h⟩)
    exact ⟨_, List.suffix_append u _, h⟩
  · rintro ⟨v, ⟨u, rfl⟩, h⟩
    exact .star u h

theorem denotes_cons_iff (hi : i ≠ .star) : Denotes (i :: ps) w ↔ ∃ a v, w = a :: v ∧ i.Takes a ∧ Denotes ps v := by
  constructor
  · intro h
    cases h with
    | star => exact absurd rfl hi
    | any a h => exact ⟨a, _, rfl, trivial, h⟩
    | lit a h => exact ⟨a, _, rfl, rfl, h⟩
  · rintro ⟨a, v, rfl, htakes, h⟩
    cases i with
    | star => exact absurd rfl hi
    | any => exact .any a h
    | lit b => exact htakes ▸ .lit b h

/-- Items of one character take as many characters as they are. -/
theorem denotes_append_iff (hmid : .star ∉ mid) :
    Denotes (mid ++ ps) w ↔ ∃ u v, w = u ++ v ∧ u.length = mid.length ∧ Denotes mid u ∧ Denotes ps v := by
  constructor
  · intro h
    induction mid generalizing w with
    | nil => exact ⟨[], w, rfl, rfl, .nil, h⟩
    | cons i mid ih =>
      have hi : i ≠ .star := fun heq => hmid (heq ▸ List.mem_cons_self)
      obtain ⟨a, w, rfl, htakes, h⟩ := (denotes_cons_iff hi).mp h
      obtain ⟨u, v, rfl, hlen, hu, hv⟩ := ih (fun hmem => hmid (List.mem_cons_of_mem _ hmem)) h
      exact ⟨a :: u, v, rfl, congrArg Nat.succ hlen, (denotes_cons_iff hi).mpr ⟨a, u, rfl, htakes, hu⟩, hv⟩
  · rintro ⟨u, v, rfl, -, hu, hv⟩
    exact hu.append hv

theorem Denotes.length_eq (hmid : .star ∉ mid) (h : Denotes mid u) : u.length = mid.length := by
  rw [← List.append_nil mid] at h
  obtain ⟨u', v, rfl, hlen, -, hv⟩ := (denotes_append_iff hmid).mp h
  rw [denotes_nil_iff.mp hv, List.append_nil, hlen]

def isStar : Item α → Bool
  | .star => true
  | _ => false

theorem denotes_empty_iff : Denotes ps [] ↔ ps.all isStar := by
  induction ps with
  | nil => exact iff_of_true .nil rfl
  | cons i ps ih =>
    rw [List.all_cons, Bool.and_eq_true, ← ih]
    by_cases hi : i = .star
    · subst hi
      rw [denotes_star_iff]
      simp [isStar]
    · rw [denotes_cons_iff hi]
      cases i with
      | star => exact absurd rfl hi
      | any | lit => simp [isStar]

/-! ## The matcher -/

/-- Where the matcher is: what is left of the pattern and of the word, and what followed the last star when it was last tried. -/
structure Greedy (α : Type) where
  items : List (Item α)
  word : List α
  star : Option (List (Item α) × List α)

/-- The last star takes one character more. -/
def Greedy.retry (s : Greedy α) : Option (Greedy α) := s.star.map fun p => ⟨p.1, p.2.tail, some (p.1, p.2.tail)⟩

/-- One round, with `a` the next character and `rest` what follows it. -/
def Greedy.step [DecidableEq α] (s : Greedy α) (a : α) (rest : List α) : Option (Greedy α) :=
  match s.items with
  | .star :: ps => some ⟨ps, a :: rest, some (ps, a :: rest)⟩
  | .any :: ps => some ⟨ps, rest, s.star⟩
  | .lit b :: ps => if b = a then some ⟨ps, rest, s.star⟩ else s.retry
  | [] => s.retry

/-- At most so many rounds. -/
def Greedy.run [DecidableEq α] : Nat → Greedy α → Option Bool
  | 0, _ => none
  | n + 1, s =>
    match s.word with
    | [] => some (s.items.all isStar)
    | a :: rest => (s.step a rest).elim (some false) (Greedy.run n)

/-- What a round does. -/
theorem Greedy.step_cases [DecidableEq α] (s : Greedy α) (a : α) (rest : List α) :
    (∃ ps, s.items = .star :: ps ∧ s.step a rest = some ⟨ps, a :: rest, some (ps, a :: rest)⟩) ∨
    (∃ i ps, s.items = i :: ps ∧ i ≠ .star ∧ i.Takes a ∧ s.step a rest = some ⟨ps, rest, s.star⟩) ∨
    (¬ Denotes s.items (a :: rest) ∧ s.step a rest = s.retry) := by
  unfold Greedy.step
  cases hitems : s.items with
  | nil => exact .inr (.inr ⟨fun h => absurd (denotes_nil_iff.mp h) (List.cons_ne_nil a rest), rfl⟩)
  | cons i ps =>
    cases i with
    | star => exact .inl ⟨ps, rfl, rfl⟩
    | any => exact .inr (.inl ⟨.any, ps, rfl, by simp, trivial, rfl⟩)
    | lit b =>
      by_cases hb : b = a
      · exact .inr (.inl ⟨.lit b, ps, rfl, by simp, hb, if_pos hb⟩)
      · refine .inr (.inr ⟨fun h => ?_, if_neg hb⟩)
        obtain ⟨c, v, heq, htakes, -⟩ := (denotes_cons_iff (by simp)).mp h
        obtain ⟨rfl, -⟩ := List.cons.inj heq
        exact hb htakes

/-- What the matcher has to decide is whether the rest matches, or whether what followed the last star does from where it was last
tried or later. Between that star and here are items of one character, with the characters that they took. -/
def Greedy.Inv (goal : Prop) (s : Greedy α) : Prop :=
  match s.star with
  | none => goal ↔ Denotes s.items s.word
  | some (ps, resume) => (goal ↔ Denotes (.star :: ps) resume) ∧
      ∃ mid u, ps = mid ++ s.items ∧ resume = u ++ s.word ∧ .star ∉ mid ∧ Denotes mid u

variable {goal : Prop} {s s' : Greedy α} {rest resume : List α}

theorem Greedy.inv_none (hstar : s.star = none) : s.Inv goal ↔ (goal ↔ Denotes s.items s.word) := by
  rw [Greedy.Inv, hstar]

theorem Greedy.inv_some (hstar : s.star = some (ps, resume)) : s.Inv goal ↔ (goal ↔ Denotes (.star :: ps) resume) ∧
    ∃ mid u, ps = mid ++ s.items ∧ resume = u ++ s.word ∧ .star ∉ mid ∧ Denotes mid u := by
  rw [Greedy.Inv, hstar]

theorem inv_fresh (h : goal ↔ Denotes (.star :: ps) w) : Greedy.Inv goal ⟨ps, w, some (ps, w)⟩ :=
  (Greedy.inv_some rfl).mpr ⟨h, [], [], rfl, rfl, List.not_mem_nil, .nil⟩

/-- A later star takes over from an earlier one. -/
theorem denotes_later_star (hmid : .star ∉ mid) (hu : Denotes mid u) :
    Denotes (.star :: (mid ++ .star :: ps)) (u ++ w) ↔ Denotes (.star :: ps) w := by
  constructor
  · intro h
    obtain ⟨v, hv, h⟩ := denotes_star_iff.mp h
    obtain ⟨u', v', rfl, hlen, -, h⟩ := (denotes_append_iff hmid).mp h
    obtain ⟨x, hx, h⟩ := denotes_star_iff.mp h
    have hle : (u' ++ v').length ≤ (u ++ w).length := hv.length_le
    have hu' := hu.length_eq hmid
    rw [List.length_append, List.length_append] at hle
    have hsuffix : v' <:+ w := List.suffix_of_suffix_length_le ((List.suffix_append u' v').trans hv) (List.suffix_append u w) (by omega)
    exact denotes_star_iff.mpr ⟨x, hx.trans hsuffix, h⟩
  · intro h
    exact denotes_star_iff.mpr ⟨u ++ w, List.suffix_rfl, hu.append h⟩

/-- Where what followed the star does not match, the star takes one character more. -/
theorem denotes_retry (hmid : .star ∉ mid) (hu : Denotes mid u) (hw : ¬ Denotes ps w) (hne : w ≠ []) :
    Denotes (.star :: (mid ++ ps)) (u ++ w) ↔ Denotes (.star :: (mid ++ ps)) (u ++ w).tail := by
  rw [denotes_star_iff, denotes_star_iff]
  constructor
  · rintro ⟨v, hv, h⟩
    refine ⟨v, ?_, h⟩
    have hcut : u ++ w ≠ [] := by simp [hne]
    obtain ⟨c, t, ht⟩ := List.exists_cons_of_ne_nil hcut
    rw [ht, List.suffix_cons_iff] at hv
    rw [ht, List.tail_cons]
    rcases hv with rfl | hv
    · obtain ⟨u', v', heq, hlen, -, h⟩ := (denotes_append_iff hmid).mp h
      obtain ⟨-, rfl⟩ := List.append_inj (ht.trans heq) ((hu.length_eq hmid).trans hlen.symm)
      exact absurd h hw
    · exact hv
  · rintro ⟨v, hv, h⟩
    exact ⟨v, hv.trans (List.tail_suffix _), h⟩

theorem Greedy.Inv.retry (h : s.Inv goal) (hword : ¬ Denotes s.items s.word) (hne : s.word ≠ []) (heq : s.retry = some s') : s'.Inv goal := by
  obtain ⟨⟨ps, resume⟩, hstar, rfl⟩ := Option.map_eq_some_iff.mp heq
  obtain ⟨hgoal, mid, u, rfl, rfl, hmid, hu⟩ := (Greedy.inv_some hstar).mp h
  exact inv_fresh (hgoal.trans (denotes_retry hmid hu hword hne))

theorem Greedy.Inv.step [DecidableEq α] (h : s.Inv goal) (hword : s.word = a :: rest) (heq : s.step a rest = some s') : s'.Inv goal := by
  rcases s.step_cases a rest with ⟨ps, hitems, hstep⟩ | ⟨i, ps, hitems, hi, htakes, hstep⟩ | ⟨hnone, hstep⟩
  · rw [hstep] at heq
    obtain rfl := Option.some.inj heq
    refine inv_fresh ?_
    cases hstar : s.star with
    | none =>
      rw [Greedy.inv_none hstar, hitems, hword] at h
      exact h
    | some p =>
      obtain ⟨hgoal, mid, u, hps, hresume, hmid, hu⟩ := (Greedy.inv_some hstar).mp h
      rw [hps, hresume, hitems, hword] at hgoal
      exact hgoal.trans (denotes_later_star hmid hu)
  · rw [hstep] at heq
    obtain rfl := Option.some.inj heq
    cases hstar : s.star with
    | none =>
      rw [Greedy.inv_none hstar, hitems, hword, denotes_cons_iff hi] at h
      refine (Greedy.inv_none rfl).mpr (h.trans ⟨?_, fun hrest => ⟨a, rest, rfl, htakes, hrest⟩⟩)
      rintro ⟨b, v, hcons, -, hrest⟩
      obtain ⟨-, rfl⟩ := List.cons.inj hcons
      exact hrest
    | some p =>
      obtain ⟨hgoal, mid, u, hps, hresume, hmid, hu⟩ := (Greedy.inv_some hstar).mp h
      have hone : Denotes [i] [a] := (denotes_cons_iff hi).mpr ⟨a, [], rfl, htakes, .nil⟩
      refine (Greedy.inv_some rfl).mpr ⟨hgoal, mid ++ [i], u ++ [a], ?_, ?_, ?_, hu.append hone⟩
      · rw [hps, hitems, List.append_assoc]
        rfl
      · rw [hresume, hword, List.append_assoc]
        rfl
      · simp [hmid, hi.symm]
  · rw [hstep] at heq
    rw [← hword] at hnone
    exact h.retry hnone (by simp [hword]) heq

/-- Where no star is left to go back to, nothing matches. -/
theorem Greedy.Inv.fail [DecidableEq α] (h : s.Inv goal) (hword : s.word = a :: rest) (heq : s.step a rest = none) : ¬ goal := by
  rcases s.step_cases a rest with ⟨ps, hitems, hstep⟩ | ⟨i, ps, hitems, hi, htakes, hstep⟩ | ⟨hnone, hstep⟩
  · rw [hstep] at heq
    cases heq
  · rw [hstep] at heq
    cases heq
  · rw [hstep, Greedy.retry, Option.map_eq_none_iff] at heq
    rw [Greedy.inv_none heq, hword] at h
    exact mt h.mp hnone

theorem Greedy.Inv.done (h : s.Inv goal) (hword : s.word = []) : s.items.all isStar = true ↔ goal := by
  rw [← denotes_empty_iff]
  cases hstar : s.star with
  | none =>
    rw [Greedy.inv_none hstar, hword] at h
    exact h.symm
  | some p =>
    obtain ⟨hgoal, mid, u, hps, hresume, hmid, hu⟩ := (Greedy.inv_some hstar).mp h
    rw [hgoal, hps, hresume, hword, List.append_nil, denotes_star_iff]
    constructor
    · intro hitems
      have := hu.append hitems
      rw [List.append_nil] at this
      exact ⟨u, List.suffix_rfl, this⟩
    · rintro ⟨v, hv, hitems⟩
      obtain ⟨u', v', rfl, hlen, -, hitems⟩ := (denotes_append_iff hmid).mp hitems
      have hle := hv.length_le
      have hu' := hu.length_eq hmid
      rw [List.length_append] at hle
      obtain rfl : v' = [] := List.length_eq_zero_iff.mp (by omega)
      exact hitems

/-! ## Rounds -/

/-- What a round makes smaller: the pattern after the last star, the word where it is tried next, or what is left of the pattern. -/
def Greedy.after (s : Greedy α) : Nat × Nat × Nat :=
  ((s.star.elim s.items.length (·.1.length)), (s.star.elim 0 (·.2.length)), s.items.length)

def Smaller : Nat × Nat × Nat → Nat × Nat × Nat → Prop := Prod.Lex (· < ·) (Prod.Lex (· < ·) (· < ·))

theorem wellFounded_smaller : WellFounded Smaller := (Prod.lex Nat.lt_wfRel (Prod.lex Nat.lt_wfRel Nat.lt_wfRel)).wf

theorem Greedy.Inv.smaller [DecidableEq α] (h : s.Inv goal) (hword : s.word = a :: rest) (heq : s.step a rest = some s') :
    Smaller s'.after s.after := by
  rcases s.step_cases a rest with ⟨ps, hitems, hstep⟩ | ⟨i, ps, hitems, hi, htakes, hstep⟩ | ⟨hnone, hstep⟩
  · rw [hstep] at heq
    obtain rfl := Option.some.inj heq
    refine .left _ _ ?_
    cases hstar : s.star with
    | none => simp [hitems]
    | some p =>
      obtain ⟨-, mid, u, hps, -⟩ := (Greedy.inv_some hstar).mp h
      simp only [Option.elim_some, hps, hitems, List.length_append, List.length_cons]
      omega
  · rw [hstep] at heq
    obtain rfl := Option.some.inj heq
    cases hstar : s.star with
    | none => exact .left _ _ (by simp [hitems, hstar])
    | some p =>
      simp only [Greedy.after, hstar, hitems]
      exact .right _ (.right _ (by simp))
  · rw [hstep] at heq
    obtain ⟨⟨ps, resume⟩, hstar, rfl⟩ := Option.map_eq_some_iff.mp heq
    obtain ⟨-, mid, u, -, hresume, -⟩ := (Greedy.inv_some hstar).mp h
    simp only [Greedy.after, hstar, Option.elim_some]
    refine .right _ (.left _ _ ?_)
    rw [hresume, hword, List.length_tail, List.length_append, List.length_cons]
    omega

/-- The matcher ends, and says whether the goal holds. -/
theorem Greedy.Inv.run [DecidableEq α] (h : s.Inv goal) : ∃ n b, (∀ m ≥ n, s.run m = some b) ∧ (b = true ↔ goal) := by
  obtain ⟨x, hx⟩ : ∃ x, s.after = x := ⟨_, rfl⟩
  induction x using wellFounded_smaller.induction generalizing s with
  | h x ih =>
    subst hx
    cases hword : s.word with
    | nil =>
      refine ⟨1, _, fun m hm => ?_, h.done hword⟩
      obtain ⟨k, rfl⟩ := Nat.exists_eq_add_of_le' hm
      rw [Greedy.run, hword]
    | cons a rest =>
      cases hstep : s.step a rest with
      | none =>
        refine ⟨1, false, fun m hm => ?_, iff_of_false Bool.false_ne_true (h.fail hword hstep)⟩
        obtain ⟨k, rfl⟩ := Nat.exists_eq_add_of_le' hm
        simp only [Greedy.run, hword, hstep, Option.elim_none]
      | some s' =>
        obtain ⟨n, b, hrun, hb⟩ := ih s'.after (h.smaller hword hstep) (h.step hword hstep) rfl
        refine ⟨n + 1, b, fun m hm => ?_, hb⟩
        obtain ⟨k, rfl⟩ := Nat.exists_eq_add_of_le' (show 1 ≤ m by omega)
        simp only [Greedy.run, hword, hstep, Option.elim_some]
        exact hrun k (by omega)

/-- From the start of a word, whether the pattern denotes it. -/
theorem Greedy.run_start [DecidableEq α] (ps : List (Item α)) (w : List α) :
    ∃ n b, (∀ m ≥ n, Greedy.run m ⟨ps, w, none⟩ = some b) ∧ (b = true ↔ Denotes ps w) :=
  Greedy.Inv.run ((Greedy.inv_none rfl).mpr Iff.rfl)

end Wildcard
