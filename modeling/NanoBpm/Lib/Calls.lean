import Mathlib.Tactic.Choose
import Mathlib.Logic.Function.Iterate
import Mathlib.Tactic.ByContra

/-!
# Programs that call procedures

A program computes, reads a stream outside of it and calls procedures, whose bodies are programs again. It is run with
a bound on the calls that are open at once: nothing else can keep it from ending (`ends_iff`).
-/

namespace Calls

/-- A program over calls `γ` with results `ρ` and readings `δ`. -/
inductive Prog (γ ρ δ α : Type) where
  | pure (a : α)
  | draw (k : δ → Prog γ ρ δ α)
  | call (c : γ) (k : ρ → Prog γ ρ δ α)

variable {γ ρ δ α β : Type}

namespace Prog

def bind : Prog γ ρ δ α → (α → Prog γ ρ δ β) → Prog γ ρ δ β
  | .pure a, f => f a
  | .draw k, f => .draw fun d => (k d).bind f
  | .call c k, f => .call c fun r => (k r).bind f

instance : Monad (Prog γ ρ δ) where
  pure := .pure
  bind := .bind

/-- A run from a position of the stream; nothing where a call does not return. -/
def runWith (invoke : γ → Nat → Option (ρ × Nat)) (outside : Nat → δ) : Prog γ ρ δ α → Nat → Option (α × Nat)
  | .pure a, i => some (a, i)
  | .draw k, i => (k (outside i)).runWith invoke outside (i + 1)
  | .call c k, i => (invoke c i).bind fun r => (k r.1).runWith invoke outside r.2

theorem runWith_bind (invoke : γ → Nat → Option (ρ × Nat)) (outside : Nat → δ) (p : Prog γ ρ δ α)
    (f : α → Prog γ ρ δ β) (i : Nat) :
    (p >>= f).runWith invoke outside i =
      (p.runWith invoke outside i).bind fun r => (f r.1).runWith invoke outside r.2 := by
  show (p.bind f).runWith invoke outside i = _
  induction p generalizing i with
  | pure a => rfl
  | draw k ih => exact ih (outside i) (i + 1)
  | call c k ih =>
    show ((invoke c i).bind fun r => ((k r.1).bind f).runWith invoke outside r.2) = _
    simp only [ih, runWith, Option.bind_assoc]

/-- The program where a call may come to nothing, and the program with it. -/
def orNone : Prog γ ρ δ α → Prog γ (Option ρ) δ (Option α)
  | .pure a => .pure (some a)
  | .draw k => .draw fun d => (k d).orNone
  | .call c k => .call c fun r => r.elim (.pure none) fun r => (k r).orNone

/-- The run makes a call of the given kind. -/
def Meets (kind : γ → Nat → Prop) (invoke : γ → Nat → Option (ρ × Nat)) (outside : Nat → δ) : Prog γ ρ δ α → Nat → Prop
  | .pure _, _ => False
  | .draw k, i => (k (outside i)).Meets kind invoke outside (i + 1)
  | .call c k, i => kind c i ∨ ∃ x, invoke c i = some x ∧ (k x.1).Meets kind invoke outside x.2

theorem meets_bind {kind : γ → Nat → Prop} {invoke : γ → Nat → Option (ρ × Nat)} {outside : Nat → δ} (p : Prog γ ρ δ α)
    (f : α → Prog γ ρ δ β) (i : Nat) :
    (p >>= f).Meets kind invoke outside i ↔
      p.Meets kind invoke outside i ∨ ∃ x, p.runWith invoke outside i = some x ∧ (f x.1).Meets kind invoke outside x.2 := by
  show (p.bind f).Meets kind invoke outside i ↔ _
  induction p generalizing i with
  | pure a => simp [bind, Meets, runWith]
  | draw k ih => exact ih (outside i) (i + 1)
  | call c k ih =>
    simp only [bind, Meets, runWith, ih, Option.bind_eq_some_iff]
    constructor
    · rintro (hc | ⟨x, hx, hk | ⟨y, hy, hf⟩⟩)
      · exact .inl (.inl hc)
      · exact .inl (.inr ⟨x, hx, hk⟩)
      · exact .inr ⟨y, ⟨x, hx, hy⟩, hf⟩
    · rintro ((hc | ⟨x, hx, hk⟩) | ⟨y, ⟨x, hx, hy⟩, hf⟩)
      · exact .inl hc
      · exact .inr ⟨x, hx, .inl hk⟩
      · exact .inr ⟨x, hx, .inr ⟨y, hy, hf⟩⟩

/-- Where the calls of a kind come to nothing, a program that makes one does. -/
theorem runWith_orNone {kind : γ → Nat → Prop} {invoke : γ → Nat → Option (ρ × Nat)}
    {again : γ → Nat → Option (Option ρ × Nat)} {outside : Nat → δ}
    (h : ∀ c i r j, invoke c i = some (r, j) →
      (¬ kind c i ∧ again c i = some (some r, j)) ∨ kind c i ∧ ∃ k, again c i = some (none, k))
    {p : Prog γ ρ δ α} {i j : Nat} {a : α} (hrun : p.runWith invoke outside i = some (a, j)) :
    (¬ p.Meets kind invoke outside i ∧ p.orNone.runWith again outside i = some (some a, j)) ∨
      p.Meets kind invoke outside i ∧ ∃ k, p.orNone.runWith again outside i = some (none, k) := by
  induction p generalizing i with
  | pure a' =>
    cases hrun
    exact .inl ⟨id, rfl⟩
  | draw k ih => exact ih (outside i) hrun
  | call c k ih =>
    obtain ⟨⟨r, i'⟩, hr, hrest⟩ := Option.bind_eq_some_iff.mp hrun
    have hmeets : (Prog.call c k).Meets kind invoke outside i ↔ kind c i ∨ (k r).Meets kind invoke outside i' := by
      simp only [Meets, hr, Option.some.injEq, exists_eq_left']
    have hagain : ∀ y n, again c i = some (y, n) → (Prog.call c k).orNone.runWith again outside i =
        (y.elim (.pure none) fun r => (k r).orNone : Prog γ (Option ρ) δ (Option α)).runWith again outside n := by
      intro y n hy
      simp only [orNone, runWith, hy, Option.bind_some]
    rcases h c i r i' hr with ⟨hc, hsome⟩ | ⟨hc, n, hnone⟩
    · rw [hmeets, or_iff_right hc, hagain _ _ hsome]
      exact ih r hrest
    · exact .inr ⟨hmeets.mpr (.inl hc), n, hagain _ _ hnone⟩

/-- A call that returns more often lets a program end with what it ended with. -/
theorem runWith_mono {invoke again : γ → Nat → Option (ρ × Nat)} {outside : Nat → δ}
    (h : ∀ c i r, invoke c i = some r → again c i = some r) {p : Prog γ ρ δ α} {i : Nat} {r : α × Nat}
    (hrun : p.runWith invoke outside i = some r) : p.runWith again outside i = some r := by
  induction p generalizing i with
  | pure a => exact hrun
  | draw k ih => exact ih _ hrun
  | call c k ih =>
    obtain ⟨x, hx, hrest⟩ := Option.bind_eq_some_iff.mp hrun
    exact Option.bind_eq_some_iff.mpr ⟨x, h c i x hx, ih x.1 hrest⟩

end Prog

/-! ## Runs -/

variable (body : γ → Prog γ ρ δ ρ) (outside : Nat → δ)

/-- A call, with at most `depth` calls open at once. -/
def invoke : Nat → γ → Nat → Option (ρ × Nat)
  | 0, _, _ => none
  | depth + 1, c, i => (body c).runWith (invoke depth) outside i

/-- A program's run, with at most `depth` calls open at once. -/
def run (depth : Nat) (p : Prog γ ρ δ α) (i : Nat) : Option (α × Nat) := p.runWith (invoke body outside depth) outside i

variable {body outside}

theorem invoke_succ {depth : Nat} {c : γ} {i : Nat} {r : ρ × Nat} (h : invoke body outside depth c i = some r) :
    invoke body outside (depth + 1) c i = some r := by
  induction depth generalizing c i r with
  | zero => cases h
  | succ depth ih => exact Prog.runWith_mono (fun c i r hr => ih hr) h

theorem run_succ {depth : Nat} {p : Prog γ ρ δ α} {i : Nat} {r : α × Nat} (h : run body outside depth p i = some r) :
    run body outside (depth + 1) p i = some r :=
  Prog.runWith_mono (fun _ _ _ hr => invoke_succ hr) h

theorem run_mono {depth deeper : Nat} (hle : depth ≤ deeper) {p : Prog γ ρ δ α} {i : Nat} {r : α × Nat}
    (h : run body outside depth p i = some r) : run body outside deeper p i = some r := by
  induction hle with
  | refl => exact h
  | step _ ih => exact run_succ ih

variable (body outside)

/-- Some depth suffices. -/
def Ends (p : Prog γ ρ δ α) (i : Nat) (r : α × Nat) : Prop := ∃ depth, run body outside depth p i = some r

variable {body outside}

theorem Ends.unique {p : Prog γ ρ δ α} {i : Nat} {r r' : α × Nat} (h : Ends body outside p i r)
    (h' : Ends body outside p i r') : r = r' := by
  obtain ⟨depth, hr⟩ := h
  obtain ⟨deeper, hr'⟩ := h'
  have hmax := run_mono (Nat.le_max_left depth deeper) hr
  have hmax' := run_mono (Nat.le_max_right depth deeper) hr'
  exact Option.some.inj (hmax.symm.trans hmax')

theorem ends_pure (a : α) (i : Nat) : Ends body outside (.pure a) i (a, i) := ⟨0, rfl⟩

theorem Ends.draw {k : δ → Prog γ ρ δ α} {i : Nat} {r : α × Nat} (h : Ends body outside (k (outside i)) (i + 1) r) :
    Ends body outside (.draw k) i r := h

theorem Ends.call {c : γ} {k : ρ → Prog γ ρ δ α} {i : Nat} {x : ρ × Nat} {r : α × Nat}
    (hbody : Ends body outside (body c) i x) (h : Ends body outside (k x.1) x.2 r) : Ends body outside (.call c k) i r := by
  obtain ⟨depth, hx⟩ := hbody
  obtain ⟨deeper, hr⟩ := h
  refine ⟨max (depth + 1) deeper, Option.bind_eq_some_iff.mpr ⟨x, ?_, run_mono (Nat.le_max_right _ _) hr⟩⟩
  have hle : depth + 1 ≤ max (depth + 1) deeper := Nat.le_max_left _ _
  obtain ⟨n, hn⟩ : ∃ n, max (depth + 1) deeper = n + 1 := ⟨max (depth + 1) deeper - 1, by omega⟩
  rw [hn]
  exact run_mono (by omega) hx

theorem Ends.bind {p : Prog γ ρ δ α} {f : α → Prog γ ρ δ β} {i : Nat} {x : α × Nat} {r : β × Nat}
    (hp : Ends body outside p i x) (h : Ends body outside (f x.1) x.2 r) : Ends body outside (p >>= f) i r := by
  obtain ⟨depth, hx⟩ := hp
  obtain ⟨deeper, hr⟩ := h
  refine ⟨max depth deeper, ?_⟩
  rw [run, Prog.runWith_bind]
  exact Option.bind_eq_some_iff.mpr ⟨x, run_mono (Nat.le_max_left _ _) hx, run_mono (Nat.le_max_right _ _) hr⟩

/-! ## Programs that always end -/

variable (body outside)

/-- From every position the program ends, with a result in `Q`. -/
def Total (Q : α → Prop) (p : Prog γ ρ δ α) : Prop := ∀ i, ∃ r, Ends body outside p i r ∧ Q r.1

variable {body outside}

theorem total_pure {Q : α → Prop} {a : α} (h : Q a) : Total body outside Q (.pure a) :=
  fun i => ⟨(a, i), ends_pure a i, h⟩

theorem total_draw {Q : α → Prop} {k : δ → Prog γ ρ δ α} (h : ∀ d, Total body outside Q (k d)) :
    Total body outside Q (.draw k) := by
  intro i
  obtain ⟨r, hr, hq⟩ := h (outside i) (i + 1)
  exact ⟨r, hr.draw, hq⟩

theorem total_call {Q : α → Prop} {R : ρ → Prop} {c : γ} {k : ρ → Prog γ ρ δ α}
    (hbody : Total body outside R (body c)) (h : ∀ r, R r → Total body outside Q (k r)) :
    Total body outside Q (.call c k) := by
  intro i
  obtain ⟨x, hx, hR⟩ := hbody i
  obtain ⟨r, hr, hq⟩ := h x.1 hR x.2
  exact ⟨r, hx.call hr, hq⟩

/-! ## Chains of calls -/

variable (body outside)

/-- The run of a program makes a call, when the calls before it have returned. -/
inductive Opens : {α : Type} → Prog γ ρ δ α → Nat → γ → Nat → Prop
  | draw {α : Type} {i j : Nat} {c : γ} {k : δ → Prog γ ρ δ α} (h : Opens (k (outside i)) (i + 1) c j) :
      Opens (.draw k) i c j
  | here {α : Type} (c : γ) (k : ρ → Prog γ ρ δ α) (i : Nat) : Opens (.call c k) i c i
  | after {α : Type} {i j : Nat} {c c' : γ} {k : ρ → Prog γ ρ δ α} {x : ρ × Nat} (hbody : Ends body outside (body c) i x)
      (h : Opens (k x.1) x.2 c' j) : Opens (.call c k) i c' j

/-- A run makes a call, or a call that it makes does. -/
inductive Reaches (p : Prog γ ρ δ α) (i : Nat) : γ → Nat → Prop
  | opens {c : γ} {j : Nat} (h : Opens body outside p i c j) : Reaches p i c j
  | inside {c c' : γ} {j j' : Nat} (h : Reaches p i c j) (h' : Opens body outside (body c) j c' j') : Reaches p i c' j'

/-- Calls of a kind without end, each made by the body of the one before. -/
def Chain (kind : γ → Prop) (p : Prog γ ρ δ α) (i : Nat) : Prop :=
  ∃ chain : Nat → γ × Nat, Opens body outside p i (chain 0).1 (chain 0).2 ∧
    (∀ n, Opens body outside (body (chain n).1) (chain n).2 (chain (n + 1)).1 (chain (n + 1)).2) ∧
    ∀ n, kind (chain n).1

variable {body outside}

theorem Opens.run_inside {p : Prog γ ρ δ α} {i j : Nat} {c : γ} (h : Opens body outside p i c j) {depth : Nat}
    {r : α × Nat} (hrun : run body outside depth p i = some r) :
    ∃ d, d < depth ∧ ∃ x, run body outside d (body c) j = some x := by
  induction h with
  | draw _ ih => exact ih hrun
  | here c k i =>
    obtain ⟨x, hx, -⟩ := Option.bind_eq_some_iff.mp hrun
    cases depth with
    | zero => cases hx
    | succ d => exact ⟨d, Nat.lt_succ_self d, x, hx⟩
  | @after i j c c' k x hbody h ih =>
    obtain ⟨y, hy, hrest⟩ := Option.bind_eq_some_iff.mp hrun
    have hends : Ends body outside (body c) i y := by
      cases depth with
      | zero => cases hy
      | succ d => exact ⟨d, hy⟩
    rw [hends.unique hbody] at hrest
    exact ih hrest

/-- What a run that ends reaches ends. -/
theorem Reaches.ends {p : Prog γ ρ δ α} {i j : Nat} {c : γ} (h : Reaches body outside p i c j) {r : α × Nat}
    (hends : Ends body outside p i r) : ∃ x, Ends body outside (body c) j x := by
  induction h with
  | opens h =>
    obtain ⟨depth, hr⟩ := hends
    obtain ⟨d, -, x, hx⟩ := h.run_inside hr
    exact ⟨x, d, hx⟩
  | inside _ h' ih =>
    obtain ⟨y, depth, hy⟩ := ih
    obtain ⟨d, -, x, hx⟩ := h'.run_inside hy
    exact ⟨x, d, hx⟩

theorem exists_opens_of_not_ends {p : Prog γ ρ δ α} {i : Nat} (h : ¬ ∃ r, Ends body outside p i r) :
    ∃ c j, Opens body outside p i c j ∧ ¬ ∃ r, Ends body outside (body c) j r := by
  induction p generalizing i with
  | pure a => exact absurd ⟨_, ends_pure a i⟩ h
  | draw k ih =>
    obtain ⟨c, j, hopens, hc⟩ := ih (outside i) (i := i + 1) fun ⟨r, hr⟩ => h ⟨r, hr.draw⟩
    exact ⟨c, j, hopens.draw, hc⟩
  | call c k ih =>
    by_cases hbody : ∃ x, Ends body outside (body c) i x
    · obtain ⟨x, hx⟩ := hbody
      obtain ⟨c', j, hopens, hc'⟩ := ih x.1 (i := x.2) fun ⟨r, hr⟩ => h ⟨r, hx.call hr⟩
      exact ⟨c', j, .after hx hopens, hc'⟩
    · exact ⟨c, i, .here c k i, hbody⟩

theorem not_chain_of_ends {kind : γ → Prop} {p : Prog γ ρ δ α} {i : Nat} {r : α × Nat} (h : Ends body outside p i r) :
    ¬ Chain body outside kind p i := by
  rintro ⟨chain, hfirst, hnext, -⟩
  have hnone : ∀ d n x, run body outside d (body (chain n).1) (chain n).2 ≠ some x := by
    intro d
    induction d using Nat.strongRecOn with
    | ind d ih =>
      intro n x hx
      obtain ⟨less, hless, y, hy⟩ := (hnext n).run_inside hx
      exact ih less hless (n + 1) y hy
  obtain ⟨depth, hr⟩ := h
  obtain ⟨d, -, x, hx⟩ := hfirst.run_inside hr
  exact hnone d 0 x hx

/-- A program ends unless it reaches a call that comes to nothing, or its other calls form a chain without end: nothing
else keeps it from ending. -/
theorem ends_iff {stuck : γ → Prop} (hstuck : ∀ c i r, stuck c → ¬ Ends body outside (body c) i r) {p : Prog γ ρ δ α}
    {i : Nat} :
    (∃ r, Ends body outside p i r) ↔
      ¬ Chain body outside (¬ stuck ·) p i ∧ ∀ c j, Reaches body outside p i c j → ¬ stuck c := by
  constructor
  · rintro ⟨r, hr⟩
    refine ⟨not_chain_of_ends hr, fun c j hreaches hc => ?_⟩
    obtain ⟨x, hx⟩ := hreaches.ends hr
    exact hstuck c j x hc hx
  · rintro ⟨hchain, hreaches⟩
    by_contra hends
    obtain ⟨c, j, hopens, hc⟩ := exists_opens_of_not_ends hends
    -- the calls that do not end follow one another, and all of them are reached
    have hstep : ∀ s : { s : γ × Nat // Reaches body outside p i s.1 s.2 ∧ ¬ ∃ r, Ends body outside (body s.1) s.2 r },
        ∃ t : { s : γ × Nat // Reaches body outside p i s.1 s.2 ∧ ¬ ∃ r, Ends body outside (body s.1) s.2 r },
          Opens body outside (body s.1.1) s.1.2 t.1.1 t.1.2 := by
      rintro ⟨s, hs, hnot⟩
      obtain ⟨c, j, hopens, hc⟩ := exists_opens_of_not_ends hnot
      exact ⟨⟨(c, j), hs.inside hopens, hc⟩, hopens⟩
    choose next hnext using hstep
    let first : { s : γ × Nat // Reaches body outside p i s.1 s.2 ∧ ¬ ∃ r, Ends body outside (body s.1) s.2 r } :=
      ⟨(c, j), .opens hopens, hc⟩
    refine hchain ⟨fun n => (next^[n] first).1, hopens, fun n => ?_, fun n => ?_⟩
    · show Opens body outside _ _ (next^[n + 1] first).1.1 (next^[n + 1] first).1.2
      rw [Function.iterate_succ_apply']
      exact hnext _
    · exact hreaches _ _ (next^[n] first).2.1

/-! ## Other bodies -/

section Instead

variable {body' : γ → Prog γ ρ δ ρ} {stuck : γ → Prop} (hbody : ∀ c, ¬ stuck c → body' c = body c)
  (hstuck : ∀ c i r, stuck c → ¬ Ends body outside (body c) i r)

include hbody hstuck

/-- Other bodies for the calls that come to nothing change no run that ends. -/
theorem Ends.instead {p : Prog γ ρ δ α} {i : Nat} {r : α × Nat} (h : Ends body outside p i r) :
    Ends body' outside p i r := by
  have hinvoke : ∀ depth c i x, invoke body outside depth c i = some x → invoke body' outside depth c i = some x := by
    intro depth
    induction depth with
    | zero => exact fun _ _ _ h => h
    | succ depth ih =>
      intro c i x hx
      have hc : ¬ stuck c := fun hc => hstuck c i x hc ⟨depth, hx⟩
      show (body' c).runWith (invoke body' outside depth) outside i = some x
      rw [hbody c hc]
      exact Prog.runWith_mono ih hx
  obtain ⟨depth, hr⟩ := h
  exact ⟨depth, Prog.runWith_mono (hinvoke depth) hr⟩

theorem Opens.instead {p : Prog γ ρ δ α} {i j : Nat} {c : γ} (h : Opens body outside p i c j) :
    Opens body' outside p i c j := by
  induction h with
  | draw _ ih => exact .draw ih
  | here c k i => exact .here c k i
  | @after i j c c' k x hends _ ih =>
    have hc : ¬ stuck c := fun hc => hstuck c i x hc hends
    refine .after (x := x) ?_ ih
    rw [hbody c hc]
    exact hends.instead hbody hstuck

theorem Chain.instead {p : Prog γ ρ δ α} {i : Nat} (h : Chain body outside (¬ stuck ·) p i) :
    Chain body' outside (¬ stuck ·) p i := by
  obtain ⟨chain, hfirst, hnext, hkind⟩ := h
  refine ⟨chain, hfirst.instead hbody hstuck, fun n => ?_, hkind⟩
  rw [hbody _ (hkind n)]
  exact (hnext n).instead hbody hstuck

end Instead

/-! ## Readings -/

variable (body outside)

/-- The run from `i` reads the stream. -/
inductive Draws : {α : Type} → Prog γ ρ δ α → Nat → Prop
  | draw {α : Type} (k : δ → Prog γ ρ δ α) (i : Nat) : Draws (.draw k) i
  | inside {α : Type} {i : Nat} {c : γ} {k : ρ → Prog γ ρ δ α} (h : Draws (body c) i) : Draws (.call c k) i
  | after {α : Type} {i : Nat} {c : γ} {k : ρ → Prog γ ρ δ α} {x : ρ × Nat} (hbody : Ends body outside (body c) i x)
      (h : Draws (k x.1) x.2) : Draws (.call c k) i

variable {body outside}

/-- A run that does not read the stream is the same over any other. -/
theorem run_eq_of_not_draws {outside' : Nat → δ} {depth : Nat} {p : Prog γ ρ δ α} {i : Nat}
    (h : ¬ Draws body outside p i) : run body outside' depth p i = run body outside depth p i := by
  induction depth generalizing α p i with
  | zero =>
    induction p generalizing i with
    | pure a => rfl
    | draw k _ => exact absurd (.draw k i) h
    | call c k _ => rfl
  | succ depth ihdepth =>
    induction p generalizing i with
    | pure a => rfl
    | draw k _ => exact absurd (.draw k i) h
    | call c k ih =>
      have hcall : invoke body outside' (depth + 1) c i = invoke body outside (depth + 1) c i :=
        ihdepth fun hdraws => h (.inside hdraws)
      simp only [run, Prog.runWith, hcall]
      cases hx : invoke body outside (depth + 1) c i with
      | none => rfl
      | some x => exact ih x.1 fun hdraws => h (.after ⟨depth, hx⟩ hdraws)

/-! ## Programs that run alike -/

/-- Two programs that make the same calls, each with a promise of its results that `P` knows; they compute the same, with
`Q`, as long as the promises are kept. -/
inductive Alike (P : γ → (ρ → Prop) → Prop) {α : Type} (Q : α → Prop) : Prog γ ρ δ α → Prog γ ρ δ α → Prop
  | pure {a : α} (h : Q a) : Alike P Q (.pure a) (.pure a)
  | draw {k l : δ → Prog γ ρ δ α} (h : ∀ d, Alike P Q (k d) (l d)) : Alike P Q (.draw k) (.draw l)
  | call {c : γ} {k l : ρ → Prog γ ρ δ α} {R : ρ → Prop} (hc : P c R) (h : ∀ r, R r → Alike P Q (k r) (l r)) :
      Alike P Q (.call c k) (.call c l)

section Alike

variable {P : γ → (ρ → Prop) → Prop}

theorem Alike.bind {Q : α → Prop} {Q' : β → Prop} {p q : Prog γ ρ δ α} {f g : α → Prog γ ρ δ β}
    (h : Alike P Q p q) (hf : ∀ a, Q a → Alike P Q' (f a) (g a)) : Alike P Q' (p >>= f) (q >>= g) := by
  show Alike P Q' (p.bind f) (q.bind g)
  induction h with
  | pure ha => exact hf _ ha
  | draw _ ih => exact .draw ih
  | call hc _ ih => exact .call hc ih

theorem Alike.mono {Q Q' : α → Prop} {p q : Prog γ ρ δ α} (h : Alike P Q p q) (hq : ∀ a, Q a → Q' a) :
    Alike P Q' p q := by
  induction h with
  | pure ha => exact .pure (hq _ ha)
  | draw _ ih => exact .draw ih
  | call hc _ ih => exact .call hc ih

/-- What a program computes where the promises are kept. -/
theorem Alike.result {Q : α → Prop} {p q : Prog γ ρ δ α} (h : Alike P Q p q) {invoke : γ → Nat → Option (ρ × Nat)}
    (hresult : ∀ c R i x, P c R → invoke c i = some x → R x.1) {i : Nat} {x : α × Nat}
    (hx : p.runWith invoke outside i = some x) : Q x.1 := by
  induction h generalizing i with
  | pure ha =>
    cases hx
    exact ha
  | draw _ ih => exact ih _ hx
  | call hc _ ih =>
    obtain ⟨y, hy, hrest⟩ := Option.bind_eq_some_iff.mp hx
    exact ih y.1 (hresult _ _ _ _ hc hy) hrest

theorem Alike.runWith_eq {Q : α → Prop} {p q : Prog γ ρ δ α} (h : Alike P Q p q)
    {invoke invoke' : γ → Nat → Option (ρ × Nat)} (hresult : ∀ c R i x, P c R → invoke c i = some x → R x.1)
    (hsame : ∀ c R i, P c R → invoke c i = invoke' c i) (i : Nat) :
    p.runWith invoke outside i = q.runWith invoke' outside i := by
  induction h generalizing i with
  | pure ha => rfl
  | draw _ ih => exact ih _ _
  | @call c k l R hc _ ih =>
    simp only [Prog.runWith, ← hsame c R i hc]
    cases hx : invoke c i with
    | none => rfl
    | some x => exact ih x.1 (hresult c R i x hc hx) x.2

/-- A program all of whose calls end as promised ends. -/
theorem Alike.total {Q : α → Prop} {p q : Prog γ ρ δ α} (h : Alike P Q p q)
    (hbody : ∀ c R, P c R → Total body outside R (body c)) : Total body outside Q p := by
  induction h with
  | pure ha => exact total_pure ha
  | draw _ ih => exact total_draw ih
  | call hc _ ih => exact total_call (hbody _ _ hc) ih

variable {body' : γ → Prog γ ρ δ ρ}

theorem invoke_result (hbody : ∀ c R, P c R → Alike P R (body c) (body' c)) {depth : Nat} {c : γ} {R : ρ → Prop} {i : Nat}
    {x : ρ × Nat} (hc : P c R) (hx : invoke body outside depth c i = some x) : R x.1 := by
  induction depth generalizing c R i x with
  | zero => cases hx
  | succ depth ih => exact (hbody c R hc).result (fun _ _ _ _ hc hx => ih hc hx) hx

theorem invoke_eq (hbody : ∀ c R, P c R → Alike P R (body c) (body' c)) (depth : Nat) {c : γ} {R : ρ → Prop}
    (hc : P c R) (i : Nat) : invoke body outside depth c i = invoke body' outside depth c i := by
  induction depth generalizing c R i with
  | zero => rfl
  | succ depth ih =>
    exact (hbody c R hc).runWith_eq (fun _ _ _ _ hc hx => invoke_result hbody hc hx) (fun _ _ i hc => ih hc i) i

/-- Programs that run alike run the same, when the bodies of what they call run alike. -/
theorem Alike.run_eq (hbody : ∀ c R, P c R → Alike P R (body c) (body' c)) {Q : α → Prop} {p q : Prog γ ρ δ α}
    (h : Alike P Q p q) (depth i : Nat) : run body outside depth p i = run body' outside depth q i :=
  h.runWith_eq (fun _ _ _ _ hc hx => invoke_result hbody hc hx) (fun _ _ i hc => invoke_eq hbody depth hc i) i

end Alike

end Calls
