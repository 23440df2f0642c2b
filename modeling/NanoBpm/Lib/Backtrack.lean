import Mathlib.Logic.Relation
import Mathlib.Order.Nat

/-!
# Backtracking

A search passes the states it comes to, in order, on to what follows, until that finds something. A loop whose body takes
nothing comes back to where it was, and so to no end: this is an outcome of its own. Where there is an end, the search has
passed on exactly the places that a relation on them describes (`Covers`).
-/

namespace Backtrack

/-- `none` is a search without an end, and `some none` one that finds nothing. -/
abbrev Outcome (ρ : Type) := Option (Option ρ)

variable {σ ρ : Type}

/-- What is tried when nothing is found. -/
def orElse (x y : Outcome ρ) : Outcome ρ :=
  match x with
  | some none => y
  | other => other

@[simp] theorem orElse_none (y : Outcome ρ) : orElse none y = none := rfl
@[simp] theorem orElse_failed (y : Outcome ρ) : orElse (some none) y = y := rfl
@[simp] theorem orElse_found (r : ρ) (y : Outcome ρ) : orElse (some (some r)) y = some (some r) := rfl

theorem orElse_eq_some {x y : Outcome ρ} {c : Option ρ} (h : orElse x y = some c) :
    (∃ r, x = some (some r) ∧ c = some r) ∨ (x = some none ∧ y = some c) := by
  rcases x with _ | _ | r
  · cases h
  · exact .inr ⟨rfl, h⟩
  · cases h
    exact .inl ⟨r, rfl, rfl⟩

theorem orElse_eq_failed {x y : Outcome ρ} (h : orElse x y = some none) : x = some none ∧ y = some none := by
  obtain ⟨r, _, hr⟩ | hboth := orElse_eq_some h
  · cases hr
  · exact hboth

/-- A search with what follows it. -/
abbrev Search (σ ρ : Type) := σ → (σ → Outcome ρ) → Outcome ρ

def skip : Search σ ρ := fun s k => k s

/-- One step, or none. -/
def step (f : σ → Option σ) : Search σ ρ := fun s k => (f s).elim (some none) k

def seq (p q : Search σ ρ) : Search σ ρ := fun s k => p s fun s' => q s' k

def alt (p q : Search σ ρ) : Search σ ρ := fun s k => orElse (p s k) (q s k)

def times (p : Search σ ρ) : Nat → Search σ ρ
  | 0 => skip
  | n + 1 => seq p (times p n)

section Loops

-- the place of a state, which a round of a loop moves on
variable (pos : σ → Nat) (p : Search σ ρ)

/-- Rounds of a loop, as many as there is room for. -/
def starFrom : Nat → Search σ ρ
  | 0 => fun s k => orElse (p s fun _ => none) (k s)
  | room + 1 => fun s k => orElse (p s fun s' => if pos s' = pos s then none else starFrom room s' k) (k s)

/-- A round, and then rounds as many as there is room for. -/
def plusFrom : Nat → Search σ ρ
  | 0 => fun s _ => p s fun _ => none
  | room + 1 => fun s k => p s fun s' => if pos s' = pos s then none else orElse (plusFrom room s' k) (k s')

variable (limit : Nat)

def star : Search σ ρ := fun s => starFrom pos p (limit - pos s) s

def plus : Search σ ρ := fun s => plusFrom pos p (limit - pos s) s

end Loops

/-! ## What is passed on -/

section Leads

variable {pos : σ → Nat} {p q : Search σ ρ} {R S : σ → σ → Prop}

/-- What follows the search finds something at a place that it leads to. -/
def Leads (p : Search σ ρ) (R : σ → σ → Prop) : Prop :=
  ∀ s k r, p s k = some (some r) → ∃ s', R s s' ∧ k s' = some (some r)

theorem Leads.mono (h : Leads p R) (hR : ∀ s s', R s s' → S s s') : Leads p S := by
  intro s k r hf
  obtain ⟨s', hs', hk⟩ := h s k r hf
  exact ⟨s', hR s s' hs', hk⟩

theorem Leads.skip : Leads (skip : Search σ ρ) Eq := fun s _ _ hf => ⟨s, rfl, hf⟩

theorem Leads.step (f : σ → Option σ) : Leads (step f : Search σ ρ) fun s s' => f s = some s' := by
  intro s k r hf
  unfold Backtrack.step at hf
  cases hs : f s with
  | none => rw [hs] at hf; cases hf
  | some s' =>
    rw [hs] at hf
    exact ⟨s', hs, hf⟩

theorem Leads.seq (hp : Leads p R) (hq : Leads q S) : Leads (seq p q) (Relation.Comp R S) := by
  intro s k r hf
  obtain ⟨s₁, hR, hf₁⟩ := hp _ _ _ hf
  obtain ⟨s₂, hS, hf₂⟩ := hq _ _ _ hf₁
  exact ⟨s₂, ⟨s₁, hR, hS⟩, hf₂⟩

theorem Leads.alt (hp : Leads p R) (hq : Leads q S) : Leads (alt p q) fun s s' => R s s' ∨ S s s' := by
  intro s k r hf
  obtain ⟨r', hr, heq⟩ | ⟨_, hf⟩ := orElse_eq_some hf
  · cases heq
    obtain ⟨s', hR, hk⟩ := hp _ _ _ hr
    exact ⟨s', .inl hR, hk⟩
  · obtain ⟨s', hS, hk⟩ := hq _ _ _ hf
    exact ⟨s', .inr hS, hk⟩

theorem Leads.starFrom (hp : Leads p R) (room : Nat) : Leads (starFrom pos p room) (Relation.ReflTransGen R) := by
  induction room with
  | zero =>
    intro s k r hf
    obtain ⟨r', hr, heq⟩ | ⟨_, hk⟩ := orElse_eq_some hf
    · obtain ⟨_, _, hnone⟩ := hp _ _ _ hr
      cases hnone
    · exact ⟨s, .refl, hk⟩
  | succ room ih =>
    intro s k r hf
    obtain ⟨r', hr, heq⟩ | ⟨_, hk⟩ := orElse_eq_some hf
    · cases heq
      obtain ⟨s₁, hR, hk₁⟩ := hp _ _ _ hr
      split at hk₁
      · cases hk₁
      · obtain ⟨s₂, hrest, hk₂⟩ := ih _ _ _ hk₁
        exact ⟨s₂, .head hR hrest, hk₂⟩
    · exact ⟨s, .refl, hk⟩

theorem Leads.star (hp : Leads p R) (limit : Nat) : Leads (star pos p limit) (Relation.ReflTransGen R) :=
  fun s k r hf => hp.starFrom _ s k r hf

theorem Leads.plusFrom (hp : Leads p R) (room : Nat) : Leads (plusFrom pos p room) (Relation.TransGen R) := by
  induction room with
  | zero =>
    intro s k r hf
    obtain ⟨_, _, hnone⟩ := hp _ _ _ hf
    cases hnone
  | succ room ih =>
    intro s k r hf
    obtain ⟨s₁, hR, hk₁⟩ := hp _ _ _ hf
    split at hk₁
    · cases hk₁
    · obtain ⟨r', hr, heq⟩ | ⟨_, hk⟩ := orElse_eq_some hk₁
      · cases heq
        obtain ⟨s₂, hrest, hk₂⟩ := ih _ _ _ hr
        exact ⟨s₂, .head hR hrest, hk₂⟩
      · exact ⟨s₁, .single hR, hk⟩

theorem Leads.plus (hp : Leads p R) (limit : Nat) : Leads (plus pos p limit) (Relation.TransGen R) :=
  fun s k r hf => hp.plusFrom _ s k r hf

end Leads

section Covers

variable {pos : σ → Nat} {p q : Search σ ρ} {R S : Nat → Nat → Prop}

/-- What follows a search that comes to an end finds something at one of the places, or nothing at any. -/
structure Covers (pos : σ → Nat) (p : Search σ ρ) (R : Nat → Nat → Prop) : Prop where
  found : Leads p fun s s' => R (pos s) (pos s')
  failed : ∀ {s k x}, p s k = some none → R (pos s) x → ∃ s', pos s' = x ∧ k s' = some none

theorem Covers.congr (h : Covers pos p R) (hR : ∀ x y, R x y ↔ S x y) : Covers pos p S :=
  ⟨h.found.mono fun _ _ => (hR _ _).mp, fun hf hs => h.failed hf ((hR _ _).mpr hs)⟩

theorem Covers.skip : Covers pos (skip : Search σ ρ) Eq :=
  ⟨Leads.skip.mono fun _ _ => congrArg pos, fun {s _ _} hf hx => ⟨s, hx, hf⟩⟩

theorem Covers.step {f : σ → Option σ} (hR : ∀ s x, R (pos s) x ↔ ∃ s', f s = some s' ∧ pos s' = x) :
    Covers pos (step f : Search σ ρ) R := by
  constructor
  · exact (Leads.step f).mono fun s s' hs => (hR s _).mpr ⟨s', hs, rfl⟩
  · intro s k x hf hx
    obtain ⟨s', hs, rfl⟩ := (hR s x).mp hx
    unfold Backtrack.step at hf
    rw [hs] at hf
    exact ⟨s', rfl, hf⟩

theorem Covers.seq (hp : Covers pos p R) (hq : Covers pos q S) : Covers pos (seq p q) (Relation.Comp R S) := by
  constructor
  · refine (hp.found.seq hq.found).mono ?_
    rintro s s' ⟨s₁, hR, hS⟩
    exact ⟨pos s₁, hR, hS⟩
  · rintro s k x hf ⟨y, hR, hS⟩
    obtain ⟨s₁, rfl, hf₁⟩ := hp.failed hf hR
    exact hq.failed hf₁ hS

theorem Covers.alt (hp : Covers pos p R) (hq : Covers pos q S) : Covers pos (alt p q) fun x y => R x y ∨ S x y := by
  constructor
  · exact hp.found.alt hq.found
  · intro s k x hf hx
    obtain ⟨hfp, hfq⟩ := orElse_eq_failed hf
    rcases hx with hR | hS
    · exact hp.failed hfp hR
    · exact hq.failed hfq hS

/-- So many steps of a relation. -/
def Iterate (R : Nat → Nat → Prop) : Nat → Nat → Nat → Prop
  | 0 => Eq
  | n + 1 => Relation.Comp R (Iterate R n)

theorem iterate_add (R : Nat → Nat → Prop) (n m x y : Nat) :
    Iterate R (n + m) x y ↔ Relation.Comp (Iterate R n) (Iterate R m) x y := by
  induction n generalizing x with
  | zero =>
    rw [Nat.zero_add]
    exact ⟨fun h => ⟨x, rfl, h⟩, fun ⟨_, heq, h⟩ => heq ▸ h⟩
  | succ n ih =>
    rw [Nat.succ_add]
    constructor
    · rintro ⟨z, hR, hrest⟩
      obtain ⟨w, hn, hm⟩ := (ih z).mp hrest
      exact ⟨w, ⟨z, hR, hn⟩, hm⟩
    · rintro ⟨w, ⟨z, hR, hn⟩, hm⟩
      exact ⟨z, hR, (ih z).mpr ⟨w, hn, hm⟩⟩

theorem reflTransGen_iff_iterate (R : Nat → Nat → Prop) (x y : Nat) :
    Relation.ReflTransGen R x y ↔ ∃ n, Iterate R n x y := by
  constructor
  · intro h
    induction h using Relation.ReflTransGen.head_induction_on with
    | refl => exact ⟨0, rfl⟩
    | head hR _ ih =>
      obtain ⟨n, hn⟩ := ih
      exact ⟨n + 1, _, hR, hn⟩
  · rintro ⟨n, hn⟩
    induction n generalizing x with
    | zero => exact hn ▸ .refl
    | succ n ih =>
      obtain ⟨z, hR, hrest⟩ := hn
      exact .head hR (ih z hrest)

/-- Steps that may be left out. -/
theorem iterate_or_eq (R : Nat → Nat → Prop) (d x y : Nat) :
    Iterate (fun x y => R x y ∨ x = y) d x y ↔ ∃ n ≤ d, Iterate R n x y := by
  induction d generalizing x with
  | zero =>
    refine ⟨fun h => ⟨0, le_rfl, h⟩, ?_⟩
    rintro ⟨n, hn, h⟩
    cases Nat.le_zero.mp hn
    exact h
  | succ d ih =>
    constructor
    · rintro ⟨z, hR | rfl, hrest⟩
      · obtain ⟨n, hn, h⟩ := (ih z).mp hrest
        exact ⟨n + 1, Nat.succ_le_succ hn, z, hR, h⟩
      · obtain ⟨n, hn, h⟩ := (ih x).mp hrest
        exact ⟨n, hn.trans (Nat.le_succ d), h⟩
    · rintro ⟨_ | n, hn, h⟩
      · exact ⟨x, .inr rfl, (ih x).mpr ⟨0, Nat.zero_le d, h⟩⟩
      · obtain ⟨z, hR, hrest⟩ := h
        exact ⟨z, .inl hR, (ih z).mpr ⟨n, Nat.le_of_succ_le_succ hn, hrest⟩⟩

theorem Covers.times (hp : Covers pos p R) (n : Nat) : Covers pos (times p n) (Iterate R n) := by
  induction n with
  | zero => exact Covers.skip
  | succ n ih => exact hp.seq ih

/-- A round that moves nothing would leave the loop without an end, so every round of a path is tried. -/
theorem Covers.starFrom_failed (hp : Covers pos p R) {k : σ → Outcome ρ} {y x : Nat}
    (hpath : Relation.ReflTransGen R y x) (room : Nat) {s : σ} (hs : pos s = y) (hf : starFrom pos p room s k = some none) :
    ∃ s', pos s' = x ∧ k s' = some none := by
  induction hpath using Relation.ReflTransGen.head_induction_on generalizing room s with
  | refl =>
    cases room <;> exact ⟨s, hs, (orElse_eq_failed hf).2⟩
  | head hR _ ih =>
    subst hs
    cases room with
    | zero =>
      obtain ⟨_, _, hnone⟩ := hp.failed (orElse_eq_failed hf).1 hR
      cases hnone
    | succ room =>
      obtain ⟨s₁, hs₁, hk₁⟩ := hp.failed (orElse_eq_failed hf).1 hR
      split at hk₁
      · cases hk₁
      · exact ih room hs₁ hk₁

theorem Covers.star (hp : Covers pos p R) (limit : Nat) : Covers pos (star pos p limit) (Relation.ReflTransGen R) :=
  ⟨(hp.found.star limit).mono fun _ _ h => h.lift pos fun _ _ => id, fun hf hx => hp.starFrom_failed hx _ rfl hf⟩

theorem Covers.plusFrom_failed (hp : Covers pos p R) {k : σ → Outcome ρ} {y x : Nat}
    (hpath : Relation.TransGen R y x) (room : Nat) {s : σ} (hs : pos s = y) (hf : plusFrom pos p room s k = some none) :
    ∃ s', pos s' = x ∧ k s' = some none := by
  induction hpath using Relation.TransGen.head_induction_on generalizing room s with
  | single hR =>
    subst hs
    cases room with
    | zero =>
      obtain ⟨_, _, hnone⟩ := hp.failed hf hR
      cases hnone
    | succ room =>
      obtain ⟨s₁, hs₁, hk₁⟩ := hp.failed hf hR
      split at hk₁
      · cases hk₁
      · exact ⟨s₁, hs₁, (orElse_eq_failed hk₁).2⟩
  | head hR _ ih =>
    subst hs
    cases room with
    | zero =>
      obtain ⟨_, _, hnone⟩ := hp.failed hf hR
      cases hnone
    | succ room =>
      obtain ⟨s₁, hs₁, hk₁⟩ := hp.failed hf hR
      split at hk₁
      · cases hk₁
      · exact ih room hs₁ (orElse_eq_failed hk₁).1

theorem Covers.plus (hp : Covers pos p R) (limit : Nat) : Covers pos (plus pos p limit) (Relation.TransGen R) :=
  ⟨(hp.found.plus limit).mono fun _ _ h => h.lift pos fun _ _ => id, fun hf hx => hp.plusFrom_failed hx _ rfl hf⟩

end Covers

/-! ## Coming to an end -/

section Ends

variable {pos : σ → Nat} {limit : Nat} {p q : Search σ ρ}

/-- The search comes to an end if what follows it does, at the places it goes on to; `strict` is to say that it takes
something. -/
def Finishes (pos : σ → Nat) (limit : Nat) (strict : Bool) (p : Search σ ρ) : Prop :=
  ∀ s k, pos s ≤ limit →
    (∀ s', pos s ≤ pos s' → pos s' ≤ limit → (strict = true → pos s ≠ pos s') → k s' ≠ none) → p s k ≠ none

theorem Finishes.weaken {strict : Bool} (h : Finishes pos limit strict p) : Finishes pos limit false p :=
  fun s k hs hk => h s k hs fun s' hle hlt _ => hk s' hle hlt fun h => by cases h

theorem Finishes.skip : Finishes pos limit false (skip : Search σ ρ) :=
  fun s _ hs hk => hk s le_rfl hs fun h => by cases h

theorem Finishes.step {strict : Bool} {f : σ → Option σ}
    (hf : ∀ s s', pos s ≤ limit → f s = some s' → pos s ≤ pos s' ∧ pos s' ≤ limit ∧ (strict = true → pos s ≠ pos s')) :
    Finishes pos limit strict (step f : Search σ ρ) := by
  intro s k hs hk
  unfold Backtrack.step
  cases hstep : f s with
  | none => simp
  | some s' =>
    obtain ⟨hle, hlt, hne⟩ := hf s s' hs hstep
    exact hk s' hle hlt hne

theorem Finishes.seq {strict strict' : Bool} (hp : Finishes pos limit strict p) (hq : Finishes pos limit strict' q) :
    Finishes pos limit (strict || strict') (seq p q) := by
  intro s k hs hk
  refine hp s _ hs fun s₁ hle₁ hlt₁ hne₁ => hq s₁ k hlt₁ fun s₂ hle₂ hlt₂ hne₂ => ?_
  refine hk s₂ (hle₁.trans hle₂) hlt₂ fun h => ?_
  rcases (Bool.or_eq_true _ _).mp h with h | h
  · have := hne₁ h
    omega
  · have := hne₂ h
    omega

theorem orElse_ne_none {x y : Outcome ρ} (hx : x ≠ none) (hy : y ≠ none) : orElse x y ≠ none := by
  rcases x with _ | _ | r
  · exact absurd rfl hx
  · exact hy
  · simp

theorem Finishes.alt {strict strict' : Bool} (hp : Finishes pos limit strict p) (hq : Finishes pos limit strict' q) :
    Finishes pos limit (strict && strict') (alt p q) := by
  intro s k hs hk
  refine orElse_ne_none (hp s k hs fun s' hle hlt hne => hk s' hle hlt fun h => ?_)
    (hq s k hs fun s' hle hlt hne => hk s' hle hlt fun h => ?_)
  · exact hne ((Bool.and_eq_true _ _).mp h).1
  · exact hne ((Bool.and_eq_true _ _).mp h).2

theorem Finishes.times (hp : Finishes pos limit false p) (n : Nat) : Finishes pos limit false (times p n) := by
  induction n with
  | zero => exact Finishes.skip
  | succ n ih => exact hp.seq ih

theorem Finishes.times_pos {strict : Bool} (hp : Finishes pos limit strict p) {n : Nat} (hn : 0 < n) :
    Finishes pos limit strict (Backtrack.times p n) := by
  obtain ⟨n, rfl⟩ := Nat.exists_eq_succ_of_ne_zero hn.ne'
  have h := hp.seq (hp.weaken.times n)
  rwa [Bool.or_false] at h

/-- Rounds that take something come to the limit. -/
theorem Finishes.star (hp : Finishes pos limit true p) : Finishes pos limit false (star pos p limit) := by
  have hrooms : ∀ room s k, pos s ≤ limit → limit - pos s ≤ room →
      (∀ s', pos s ≤ pos s' → pos s' ≤ limit → k s' ≠ none) → starFrom pos p room s k ≠ none := by
    intro room
    induction room with
    | zero =>
      intro s k hs hroom hk
      refine orElse_ne_none (hp s _ hs fun s' hle hlt hne => ?_) (hk s le_rfl hs)
      have := hne rfl
      omega
    | succ room ih =>
      intro s k hs hroom hk
      refine orElse_ne_none (hp s _ hs fun s' hle hlt hne => ?_) (hk s le_rfl hs)
      have hmoved := hne rfl
      rw [if_neg (Ne.symm hmoved)]
      exact ih s' k hlt (by omega) fun s'' hle' hlt' => hk s'' (hle.trans hle') hlt'
  exact fun s k hs hk => hrooms _ s k hs le_rfl fun s' hle hlt => hk s' hle hlt fun h => by cases h

theorem Finishes.plus (hp : Finishes pos limit true p) : Finishes pos limit true (plus pos p limit) := by
  have hrooms : ∀ room s k, pos s ≤ limit → limit - pos s ≤ room →
      (∀ s', pos s ≤ pos s' → pos s' ≤ limit → pos s ≠ pos s' → k s' ≠ none) → plusFrom pos p room s k ≠ none := by
    intro room
    induction room with
    | zero =>
      intro s k hs hroom hk
      refine hp s _ hs fun s' hle hlt hne => ?_
      have := hne rfl
      omega
    | succ room ih =>
      intro s k hs hroom hk
      refine hp s _ hs fun s' hle hlt hne => ?_
      have hmoved := hne rfl
      rw [if_neg (Ne.symm hmoved)]
      refine orElse_ne_none (ih s' k hlt (by omega) fun s'' hle' hlt' _ => ?_) (hk s' hle hlt hmoved)
      exact hk s'' (hle.trans hle') hlt' (by omega)
  exact fun s k hs hk => hrooms _ s k hs le_rfl fun s' hle hlt hne => hk s' hle hlt fun _ => hne

end Ends

end Backtrack
