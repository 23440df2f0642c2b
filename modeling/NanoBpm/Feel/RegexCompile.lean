import NanoBpm.Feel.Regex
import NanoBpm.Lib.Backtrack

/-!
# Compiled patterns

The program of a pattern is a search: `search` is the one that its constructs stand for, and `implements` that running
the program comes to an end exactly where the search does, with the same result.
-/

namespace NanoBpm.FeelExpr

open Backtrack (Outcome Search orElse)

/-! ## The code of a pattern -/

/-- Instructions that are put at an address. -/
abbrev Code := Nat → List Inst

/-- What is emitted goes after the program, as the code for that address. -/
def Emits (f : List Inst → List Inst) (c : Code) : Prop := ∀ prog, f prog = prog ++ c prog.length

namespace Code

def one (i : Inst) : Code := fun _ => [i]

def seq (c d : Code) : Code := fun base => c base ++ d (base + (c base).length)

def times (c : Code) : Nat → Code
  | 0 => fun _ => []
  | n + 1 => seq c (times c n)

def star (c : Code) : Code := fun base =>
  .split (base + 1) (base + 1 + (c (base + 1)).length + 1) :: (c (base + 1) ++ [Inst.jmp base])

def plus (c : Code) : Code := fun base => c base ++ [Inst.split base (base + (c base).length + 1)]

def quest (c : Code) : Code := fun base => .split (base + 1) (base + 1 + (c (base + 1)).length) :: c (base + 1)

def alt (c d : Code) : Code := fun base =>
  let second := base + 1 + (c (base + 1)).length + 1
  .split (base + 1) second :: (c (base + 1) ++ Inst.jmp (second + (d second).length) :: d second)

end Code

theorem Emits.one (i : Inst) : Emits (· ++ [i]) (Code.one i) := fun _ => rfl

theorem Emits.seq {f g : List Inst → List Inst} {c d : Code} (hf : Emits f c) (hg : Emits g d) :
    Emits (fun prog => g (f prog)) (Code.seq c d) := by
  intro prog
  change g (f prog) = _
  rw [hf, hg, Code.seq, List.length_append, List.append_assoc]

theorem Emits.times {f : List Inst → List Inst} {c : Code} (hf : Emits f c) (n : Nat) :
    Emits (FeelExpr.times f n) (Code.times c n) := by
  induction n with
  | zero => exact fun prog => (List.append_nil prog).symm
  | succ n ih => exact hf.seq ih

theorem set_length (prog rest : List Inst) (i j : Inst) :
    (prog ++ i :: rest).set prog.length j = prog ++ j :: rest := by
  rw [List.set_append_right _ _ le_rfl, Nat.sub_self]
  rfl

theorem Emits.star {f : List Inst → List Inst} {c : Code} (hf : Emits f c) : Emits (emitStar f) (Code.star c) := by
  intro prog
  unfold emitStar Code.star
  simp [hf (prog ++ [Inst.split 0 0])]
  omega

theorem Emits.plus {f : List Inst → List Inst} {c : Code} (hf : Emits f c) : Emits (emitPlus f) (Code.plus c) := by
  intro prog
  unfold emitPlus Code.plus
  simp only [hf prog, List.length_append, List.append_assoc]

theorem Emits.quest {f : List Inst → List Inst} {c : Code} (hf : Emits f c) : Emits (emitQuest f) (Code.quest c) := by
  intro prog
  unfold emitQuest Code.quest
  simp [hf (prog ++ [Inst.split 0 0])]
  omega

theorem emits_branch {f g : List Inst → List Inst} {c d : Code} (hf : Emits f c) (hg : Emits g d) (prog : List Inst) :
    let first := f (prog ++ [Inst.split 0 0])
    let all := g (first ++ [Inst.jmp 0])
    (all.set prog.length (.split (prog.length + 1) (first.length + 1))).set first.length (.jmp all.length) =
      prog ++ Code.alt c d prog.length := by
  intro first all
  obtain ⟨body, hbody⟩ : ∃ body, body = c (prog.length + 1) := ⟨_, rfl⟩
  obtain ⟨rest, hrest⟩ : ∃ rest, rest = d (prog.length + 1 + body.length + 1) := ⟨_, rfl⟩
  have hfirst : first = prog ++ Inst.split 0 0 :: body := by
    simp only [first]
    rw [hf, List.length_append, List.length_singleton, ← hbody, List.append_assoc, List.singleton_append]
  have hlength : first.length = prog.length + 1 + body.length := by
    rw [hfirst]
    simp
    omega
  have hall : all = prog ++ Inst.split 0 0 :: (body ++ Inst.jmp 0 :: rest) := by
    simp only [all]
    rw [hg, List.length_append, hlength, List.length_singleton, ← hrest, hfirst]
    simp
  have hallLength : all.length = prog.length + 1 + body.length + 1 + rest.length := by
    rw [hall]
    simp
    omega
  have hjmp := set_length (prog ++ Inst.split (prog.length + 1) (first.length + 1) :: body) rest (.jmp 0) (.jmp all.length)
  rw [List.append_assoc, List.cons_append, List.length_append, List.length_cons,
    show prog.length + (body.length + 1) = first.length by omega] at hjmp
  calc (all.set prog.length (.split (prog.length + 1) (first.length + 1))).set first.length (.jmp all.length)
      = (prog ++ Inst.split (prog.length + 1) (first.length + 1) :: (body ++ Inst.jmp 0 :: rest)).set first.length
          (.jmp all.length) := by rw [← set_length prog _ (.split 0 0), ← hall]
    _ = prog ++ Inst.split (prog.length + 1) (first.length + 1) :: (body ++ Inst.jmp all.length :: rest) := by
        rw [hjmp, List.append_assoc, List.cons_append]
    _ = prog ++ Code.alt c d prog.length := by
        unfold Code.alt
        dsimp only
        rw [← hbody, ← hrest, hallLength, hlength]

mutual

/-- The instructions of a pattern. -/
def code : Pattern → Code
  | .empty => fun _ => []
  | .char c => .one (.char c)
  | .any => .one .any
  | .class' items negated => .one (.class' items negated)
  | .start => .one .start
  | .stop => .one .stop
  | .group none inner => code inner
  | .group (some n) inner => .seq (.one (.save (n * 2))) (.seq (code inner) (.one (.save (n * 2 + 1))))
  | .concat items => codeAll items
  | .alt branches => codeAlt branches
  | .star inner => .star (code inner)
  | .plus inner => .plus (code inner)
  | .quest inner => .quest (code inner)
  | .repeat' inner min (some max) => .seq (.times (code inner) min) (.times (.quest (code inner)) (max - min))
  | .repeat' inner min none => .seq (.times (code inner) min) (.star (code inner))

def codeAll : List Pattern → Code
  | [] => fun _ => []
  | p :: rest => .seq (code p) (codeAll rest)

def codeAlt : List Pattern → Code
  | [] => fun _ => []
  | [branch] => code branch
  | branch :: next :: rest => .alt (code branch) (codeAlt (next :: rest))

end

mutual

theorem emits_code : ∀ p : Pattern, Emits (emit p) (code p)
  | .empty => fun prog => (List.append_nil prog).symm
  | .char _ | .any | .class' _ _ | .start | .stop => Emits.one _
  | .group none inner => emits_code inner
  | .group (some _) inner => (Emits.one _).seq ((emits_code inner).seq (Emits.one _))
  | .concat items => emits_codeAll items
  | .alt branches => emits_codeAlt branches
  | .star inner => (emits_code inner).star
  | .plus inner => (emits_code inner).plus
  | .quest inner => (emits_code inner).quest
  | .repeat' inner min (some max) => ((emits_code inner).times min).seq ((emits_code inner).quest.times (max - min))
  | .repeat' inner min none => ((emits_code inner).times min).seq (emits_code inner).star

theorem emits_codeAll : ∀ items : List Pattern, Emits (emitAll items) (codeAll items)
  | [] => fun prog => (List.append_nil prog).symm
  | p :: rest => (emits_code p).seq (emits_codeAll rest)

theorem emits_codeAlt : ∀ branches : List Pattern, Emits (emitAlt branches) (codeAlt branches)
  | [] => fun prog => (List.append_nil prog).symm
  | [branch] => emits_code branch
  | branch :: next :: rest => fun prog => by
    rw [emitAlt, codeAlt]
    have hbranch := emits_branch (emits_code branch) (emits_codeAlt (next :: rest)) prog
    simpa only [List.length_append, List.length_singleton] using hbranch

end

/-! ## The search of a pattern -/

/-- A position of the input and the slots. -/
abbrev Place := Nat × Slots

namespace Regex

section

variable [Unicode] [Casing] (re : Regex) (input : List Char)

/-- A character that the instruction takes. -/
def take (i : Inst) : Search Place Slots :=
  Backtrack.step fun s => if input[s.1]?.any (re.takes · i) then some (s.1 + 1, s.2) else none

def test (b : Nat → Bool) : Search Place Slots := Backtrack.step fun s => if b s.1 then some s else none

def mark (slot : Nat) : Search Place Slots := Backtrack.step fun s => some (s.1, s.2.set slot (some s.1))

mutual

/-- What a pattern searches for: alternatives in their order, and loops as long as they go. -/
def search : Pattern → Search Place Slots
  | .empty => Backtrack.skip
  | .char c => take re input (.char c)
  | .any => take re input .any
  | .class' items negated => take re input (.class' items negated)
  | .start => test (re.atStart input)
  | .stop => test (re.atEnd input)
  | .group none inner => search inner
  | .group (some n) inner => Backtrack.seq (mark (n * 2)) (Backtrack.seq (search inner) (mark (n * 2 + 1)))
  | .concat items => searchAll items
  | .alt branches => searchAlt branches
  | .star inner => Backtrack.star Prod.fst (search inner) input.length
  | .plus inner => Backtrack.plus Prod.fst (search inner) input.length
  | .quest inner => Backtrack.alt (search inner) Backtrack.skip
  | .repeat' inner min (some max) =>
    Backtrack.seq (Backtrack.times (search inner) min)
      (Backtrack.times (Backtrack.alt (search inner) Backtrack.skip) (max - min))
  | .repeat' inner min none =>
    Backtrack.seq (Backtrack.times (search inner) min) (Backtrack.star Prod.fst (search inner) input.length)

def searchAll : List Pattern → Search Place Slots
  | [] => Backtrack.skip
  | p :: rest => Backtrack.seq (search p) (searchAll rest)

def searchAlt : List Pattern → Search Place Slots
  | [] => Backtrack.skip
  | [branch] => search branch
  | branch :: next :: rest => Backtrack.alt (search branch) (searchAlt (next :: rest))

end

/-! ## Running -/

/-- The outcome of `run`. -/
def exec (fuel pc : Nat) (s : Place) : Backtrack.Outcome Slots :=
  (re.run input fuel pc s.1 s.2).map fun (ok, caps) => if ok then some caps else none

end

theorem set_set_same (caps : Slots) (slot : Nat) (x : Option Nat) :
    (caps.set slot x).set slot (caps[slot]?.join) = caps := by
  rw [List.set_set]
  by_cases h : slot < caps.length
  · simp [h]
  · rw [List.set_eq_of_length_le (not_lt.mp h)]

section

variable [Unicode] [Casing] {re : Regex} {input : List Char}

/-- Where nothing is found the slots are as before. -/
theorem run_restores {fuel pc sp : Nat} {caps after : Slots} (h : re.run input fuel pc sp caps = some (false, after)) :
    after = caps := by
  induction fuel generalizing pc sp caps after with
  | zero => cases h
  | succ fuel ih =>
    unfold run at h
    split at h
    · cases h
    · rename_i slot _
      cases hrun : re.run input fuel (pc + 1) sp (caps.set slot (some sp)) with
      | none => simp [hrun] at h
      | some r =>
        obtain ⟨_ | _, after'⟩ := r
        · rw [hrun] at h
          cases h
          rw [ih hrun, set_set_same]
        · simp [hrun] at h
    · rename_i a b _
      cases hrun : re.run input fuel a sp caps with
      | none => simp [hrun] at h
      | some r =>
        obtain ⟨_ | _, after'⟩ := r
        · rw [hrun] at h
          rw [ih h, ih hrun]
        · simp [hrun] at h
    · exact ih h
    · cases h
    all_goals
      split at h
      · exact ih h
      · cases h
        rfl

@[simp] theorem exec_zero (pc : Nat) (s : Place) : re.exec input 0 pc s = none := rfl

/-- What an instruction does. -/
theorem exec_succ (fuel pc : Nat) (s : Place) :
    re.exec input (fuel + 1) pc s =
      match re.prog[pc]? with
      | none => none
      | some (.save slot) => re.exec input fuel (pc + 1) (s.1, s.2.set slot (some s.1))
      | some (.split a b) => orElse (re.exec input fuel a s) (re.exec input fuel b s)
      | some (.jmp target) => re.exec input fuel target s
      | some .done => some (some s.2)
      | some .start => if re.atStart input s.1 then re.exec input fuel (pc + 1) s else some none
      | some .stop => if re.atEnd input s.1 then re.exec input fuel (pc + 1) s else some none
      | some inst =>
        if input[s.1]?.any (re.takes · inst) then re.exec input fuel (pc + 1) (s.1 + 1, s.2) else some none := by
  unfold exec
  rw [run]
  rcases re.prog[pc]? with _ | inst
  · rfl
  · cases inst with
    | save slot =>
      dsimp only
      rcases re.run input fuel (pc + 1) s.1 (s.2.set slot (some s.1)) with _ | ⟨_ | _, _⟩ <;> rfl
    | split a b =>
      dsimp only
      rcases hrun : re.run input fuel a s.1 s.2 with _ | ⟨_ | _, after⟩
      · rfl
      · rw [run_restores hrun]
        rfl
      · rfl
    | jmp target => rfl
    | done => rfl
    | start => dsimp only; split <;> rfl
    | stop => dsimp only; split <;> rfl
    | char c => dsimp only; split <;> rfl
    | any => dsimp only; split <;> rfl
    | class' items negated => dsimp only; split <;> rfl

theorem exec_step {fuel pc : Nat} {s : Place} {o : Option Slots} (h : re.exec input fuel pc s = some o) :
    re.exec input (fuel + 1) pc s = some o := by
  induction fuel generalizing pc s o with
  | zero => cases h
  | succ fuel ih =>
    rw [exec_succ] at h ⊢
    split at h
    · cases h
    · exact ih h
    · obtain ⟨r, hr, rfl⟩ | ⟨hfirst, hsecond⟩ := Backtrack.orElse_eq_some h
      · simp only [ih hr, Backtrack.orElse_found]
      · simp only [ih hfirst, ih hsecond, Backtrack.orElse_failed]
    · exact ih h
    · exact h
    all_goals
      split at h
      · rename_i hs
        simp only [hs, if_true]
        exact ih h
      · rename_i hs
        simp only [hs]
        exact h

theorem exec_mono {fuel fuel' pc : Nat} {s : Place} {o : Option Slots} (hle : fuel ≤ fuel')
    (h : re.exec input fuel pc s = some o) : re.exec input fuel' pc s = some o := by
  induction hle with
  | refl => exact h
  | step _ ih => exact exec_step ih

/-- How a run ends is no matter of the slots it begins with. -/
theorem exec_kind (fuel pc sp : Nat) (caps caps' : Slots) :
    (re.exec input fuel pc (sp, caps)).map Option.isSome = (re.exec input fuel pc (sp, caps')).map Option.isSome := by
  induction fuel generalizing pc sp caps caps' with
  | zero => rfl
  | succ fuel ih =>
    rw [exec_succ, exec_succ]
    split
    · rfl
    · exact ih ..
    · rename_i a b _
      have ha := ih a sp caps caps'
      have hb := ih b sp caps caps'
      revert ha hb
      rcases re.exec input fuel a (sp, caps) with _ | _ | _ <;> rcases re.exec input fuel a (sp, caps') with _ | _ | _ <;>
        simp
    · exact ih ..
    · rfl
    all_goals
      split
      · exact ih ..
      · rfl

theorem exec_ne_none {fuel pc sp : Nat} {caps : Slots} (caps' : Slots) (h : re.exec input fuel pc (sp, caps) ≠ none) :
    re.exec input fuel pc (sp, caps') ≠ none := by
  intro hnone
  have hkind : (re.exec input fuel pc (sp, caps)).map Option.isSome = _ := exec_kind fuel pc sp caps caps'
  rw [hnone] at hkind
  exact h (Option.map_eq_none_iff.mp hkind)

end

/-! ## The program searches -/

/-- The instructions stand at the address. -/
def At (prog : List Inst) (a : Nat) (is : List Inst) : Prop := is <+: prog.drop a

theorem At.append {prog : List Inst} {a : Nat} {is js : List Inst} (h : At prog a (is ++ js)) :
    At prog a is ∧ At prog (a + is.length) js := by
  obtain ⟨rest, hrest⟩ := h
  refine ⟨⟨js ++ rest, by rw [← hrest, List.append_assoc]⟩, rest, ?_⟩
  rw [← List.drop_drop, ← hrest, List.append_assoc, List.drop_left]

theorem At.head {prog : List Inst} {a : Nat} {i : Inst} {is : List Inst} (h : At prog a (i :: is)) :
    prog[a]? = some i := by
  obtain ⟨rest, hrest⟩ := h
  have hzero : (prog.drop a)[0]? = some i := by rw [← hrest]; rfl
  rwa [List.getElem?_drop] at hzero

theorem At.tail {prog : List Inst} {a : Nat} {i : Inst} {is : List Inst} (h : At prog a (i :: is)) :
    At prog (a + 1) is := (At.append (show At prog a ([i] ++ is) from h)).2

section

variable [Unicode] [Casing] (re : Regex) (input : List Char)

/-- Running the code does what the search does: as far as the run goes in so many instructions, and as far as the search
has an end. -/
structure Implements (c : Code) (p : Search Place Slots) : Prop where
  sound : ∀ {a n : Nat} {s : Place} {k : Place → Backtrack.Outcome Slots} {o : Option Slots},
    At re.prog a (c a) → s.1 ≤ input.length →
    (∀ s' o', s.1 ≤ s'.1 → s'.1 ≤ input.length → re.exec input n (a + (c a).length) s' = some o' → k s' = some o') →
    re.exec input n a s = some o → p s k = some o
  complete : ∀ {a : Nat} {s : Place} {k : Place → Backtrack.Outcome Slots} {o : Option Slots},
    At re.prog a (c a) → s.1 ≤ input.length →
    (∀ s' o', s.1 ≤ s'.1 → s'.1 ≤ input.length → k s' = some o' →
      ∃ n, re.exec input n (a + (c a).length) s' = some o') →
    p s k = some o → ∃ n, re.exec input n a s = some o

end

namespace Implements

variable [Unicode] [Casing] {re : Regex} {input : List Char} {c d : Code} {p q : Search Place Slots}

theorem skip : Implements re input (fun _ => []) Backtrack.skip :=
  ⟨fun {_ _ s _ _} _ hs hk he => hk s _ le_rfl hs he, fun {_ s _ _} _ hs hk he => hk s _ le_rfl hs he⟩

/-- An instruction that goes on to the next one, at one place or at none. -/
theorem one {i : Inst} {f : Place → Option Place}
    (hi : ∀ {a : Nat}, re.prog[a]? = some i → ∀ n s,
      re.exec input (n + 1) a s = (f s).elim (some none) fun s' => re.exec input n (a + 1) s')
    (hf : ∀ {s s'}, s.1 ≤ input.length → f s = some s' → s.1 ≤ s'.1 ∧ s'.1 ≤ input.length) :
    Implements re input (Code.one i) (Backtrack.step f) := by
  constructor
  · intro a n s k o hat hs hk he
    unfold Backtrack.step
    rcases n with _ | n
    · cases he
    rw [hi hat.head] at he
    cases hstep : f s with
    | none =>
      rw [hstep] at he
      exact he
    | some s' =>
      rw [hstep] at he
      obtain ⟨hle, hlt⟩ := hf hs hstep
      exact hk s' o hle hlt (exec_step he)
  · intro a s k o hat hs hk he
    unfold Backtrack.step at he
    cases hstep : f s with
    | none =>
      rw [hstep] at he
      exact ⟨1, by rw [hi hat.head, hstep]; exact he⟩
    | some s' =>
      rw [hstep] at he
      obtain ⟨hle, hlt⟩ := hf hs hstep
      obtain ⟨n, hn⟩ := hk s' o hle hlt he
      exact ⟨n + 1, by rw [hi hat.head, hstep]; exact hn⟩

theorem seq (hp : Implements re input c p) (hq : Implements re input d q) :
    Implements re input (Code.seq c d) (Backtrack.seq p q) := by
  constructor
  · intro a n s k o hat hs hk he
    obtain ⟨hc, hd⟩ := At.append hat
    refine hp.sound hc hs (fun s₁ o₁ hle₁ hlt₁ he₁ => ?_) he
    refine hq.sound hd hlt₁ (fun s₂ o₂ hle₂ hlt₂ he₂ => ?_) he₁
    refine hk s₂ o₂ (hle₁.trans hle₂) hlt₂ ?_
    rwa [Code.seq, List.length_append, ← Nat.add_assoc]
  · intro a s k o hat hs hk he
    obtain ⟨hc, hd⟩ := At.append hat
    refine hp.complete hc hs (fun s₁ o₁ hle₁ hlt₁ he₁ => ?_) he
    refine hq.complete hd hlt₁ (fun s₂ o₂ hle₂ hlt₂ he₂ => ?_) he₁
    obtain ⟨n, hn⟩ := hk s₂ o₂ (hle₁.trans hle₂) hlt₂ he₂
    rw [Code.seq, List.length_append, ← Nat.add_assoc] at hn
    exact ⟨n, hn⟩

theorem times (hp : Implements re input c p) (n : Nat) : Implements re input (Code.times c n) (Backtrack.times p n) := by
  induction n with
  | zero => exact skip
  | succ n ih => exact hp.seq ih

end Implements

theorem exec_split [Unicode] [Casing] {re : Regex} {input : List Char} {a x y : Nat}
    (h : re.prog[a]? = some (.split x y)) (n : Nat) (s : Place) :
    re.exec input (n + 1) a s = orElse (re.exec input n x s) (re.exec input n y s) := by
  rw [exec_succ, h]

theorem exec_jmp [Unicode] [Casing] {re : Regex} {input : List Char} {a target : Nat}
    (h : re.prog[a]? = some (.jmp target)) (n : Nat) (s : Place) :
    re.exec input (n + 1) a s = re.exec input n target s := by
  rw [exec_succ, h]

section Branches

variable [Unicode] [Casing] {re : Regex} {input : List Char}

/-- What a branch comes to. -/
theorem exec_split_complete {a x y : Nat} {s : Place} {l r : Backtrack.Outcome Slots} {o : Option Slots}
    (h : re.prog[a]? = some (.split x y)) (hl : ∀ o', l = some o' → ∃ n, re.exec input n x s = some o')
    (hr : ∀ o', r = some o' → ∃ n, re.exec input n y s = some o') (ho : orElse l r = some o) :
    ∃ n, re.exec input n a s = some o := by
  obtain ⟨res, hres, rfl⟩ | ⟨hfirst, hsecond⟩ := Backtrack.orElse_eq_some ho
  · obtain ⟨n, hn⟩ := hl _ hres
    exact ⟨n + 1, by rw [exec_split h, hn, Backtrack.orElse_found]⟩
  · obtain ⟨n, hn⟩ := hl _ hfirst
    obtain ⟨m, hm⟩ := hr _ hsecond
    refine ⟨max n m + 1, ?_⟩
    rw [exec_split h, exec_mono (le_max_left n m) hn, exec_mono (le_max_right n m) hm, Backtrack.orElse_failed]

/-- What a branch of a run comes to. -/
theorem exec_split_sound {a x y n : Nat} {s : Place} {l r : Backtrack.Outcome Slots} {o : Option Slots}
    (h : re.prog[a]? = some (.split x y)) (hl : ∀ o', re.exec input n x s = some o' → l = some o')
    (hr : ∀ o', re.exec input n y s = some o' → r = some o') (ho : re.exec input (n + 1) a s = some o) :
    orElse l r = some o := by
  rw [exec_split h] at ho
  obtain ⟨res, hres, rfl⟩ | ⟨hfirst, hsecond⟩ := Backtrack.orElse_eq_some ho
  · rw [hl _ hres, Backtrack.orElse_found]
  · rw [hl _ hfirst, hr _ hsecond, Backtrack.orElse_failed]

namespace Implements

variable {c d : Code} {p q : Search Place Slots}

theorem quest (hp : Implements re input c p) :
    Implements re input (Code.quest c) (Backtrack.alt p Backtrack.skip) := by
  constructor
  · intro a n s k o hat hs hk he
    rcases n with _ | n
    · cases he
    have hlength : a + (Code.quest c a).length = a + 1 + (c (a + 1)).length := by simp [Code.quest]; omega
    rw [hlength] at hk
    exact exec_split_sound hat.head
      (fun o' => hp.sound hat.tail hs fun s' o'' hle hlt he' => hk s' o'' hle hlt (exec_step he'))
      (fun o' he' => hk s o' le_rfl hs (exec_step he')) he
  · intro a s k o hat hs hk he
    have hlength : a + (Code.quest c a).length = a + 1 + (c (a + 1)).length := by simp [Code.quest]; omega
    rw [hlength] at hk
    exact exec_split_complete hat.head (fun o' => hp.complete hat.tail hs hk) (fun o' => hk s o' le_rfl hs) he

theorem alt (hp : Implements re input c p) (hq : Implements re input d q) :
    Implements re input (Code.alt c d) (Backtrack.alt p q) := by
  constructor
  · intro a n s k o hat hs hk he
    rcases n with _ | n
    · cases he
    obtain ⟨hc, hrest⟩ := At.append hat.tail
    rw [show a + (Code.alt c d a).length = a + 1 + (c (a + 1)).length + 1 + (d (a + 1 + (c (a + 1)).length + 1)).length by
      simp [Code.alt]; omega] at hk
    refine exec_split_sound hat.head (fun o' => hp.sound hc hs fun s' o'' hle hlt he' => ?_)
      (fun o' => hq.sound hrest.tail hs fun s' o'' hle hlt he' => hk s' o'' hle hlt (exec_step he')) he
    rcases n with _ | n
    · cases he'
    rw [exec_jmp hrest.head] at he'
    exact hk s' o'' hle hlt (exec_step (exec_step he'))
  · intro a s k o hat hs hk he
    obtain ⟨hc, hrest⟩ := At.append hat.tail
    rw [show a + (Code.alt c d a).length = a + 1 + (c (a + 1)).length + 1 + (d (a + 1 + (c (a + 1)).length + 1)).length by
      simp [Code.alt]; omega] at hk
    refine exec_split_complete hat.head (fun o' => hp.complete hc hs fun s' o'' hle hlt he' => ?_)
      (fun o' => hq.complete hrest.tail hs hk) he
    obtain ⟨n, hn⟩ := hk s' o'' hle hlt he'
    exact ⟨n + 1, by rw [exec_jmp hrest.head]; exact hn⟩

/-- A run that comes to an end has a least number of instructions from its place on, in which it does not come back to
that place. -/
theorem exists_least {a n : Nat} {s : Place} {o : Option Slots} (he : re.exec input n a s = some o) :
    ∃ m ≤ n, re.exec input m a s = some o ∧ ∀ m' < m, ∀ s' : Place, s'.1 = s.1 → re.exec input m' a s' = none := by
  have hends : ∃ m, re.exec input m a s ≠ none := ⟨n, by rw [he]; simp⟩
  classical
  obtain ⟨m, hm, hleast⟩ : ∃ m, re.exec input m a s ≠ none ∧ ∀ m' < m, re.exec input m' a s = none :=
    ⟨Nat.find hends, Nat.find_spec hends, fun m' hlt => not_not.mp (Nat.find_min hends hlt)⟩
  have hle : m ≤ n := by
    by_contra hlt
    have hnone := hleast n (not_le.mp hlt)
    rw [he] at hnone
    cases hnone
  obtain ⟨o', ho'⟩ := Option.ne_none_iff_exists'.mp hm
  refine ⟨m, hle, ?_, fun m' hlt s' hs' => ?_⟩
  · have heq := exec_mono hle ho'
    rw [he] at heq
    cases heq
    exact ho'
  · obtain ⟨sp, caps⟩ := s
    obtain ⟨sp', caps'⟩ := s'
    cases hs'
    by_contra hne
    exact exec_ne_none caps hne (hleast m' hlt)

theorem star (hp : Implements re input c p) :
    Implements re input (Code.star c) (Backtrack.star Prod.fst p input.length) := by
  constructor
  · intro a n s k o hat hs hk he
    obtain ⟨hc, hjmp⟩ := At.append hat.tail
    rw [show a + (Code.star c a).length = a + 1 + (c (a + 1)).length + 1 by simp [Code.star]; omega] at hk
    have hrooms : ∀ room, ∀ s' : Place, s.1 ≤ s'.1 → s'.1 ≤ input.length → input.length - s'.1 ≤ room →
        ∀ n' ≤ n, ∀ o', re.exec input n' a s' = some o' → Backtrack.starFrom Prod.fst p room s' k = some o' := by
      intro room
      induction room with
      | zero =>
        intro s' hle hlt hroom n' hn' o' he'
        obtain ⟨m, hm, hem, hleast⟩ := exists_least he'
        rcases m with _ | m
        · cases hem
        refine exec_split_sound hat.head (fun o₁ => hp.sound hc hlt fun s₁ o₂ hle₁ hlt₁ he₁ => ?_)
          (fun o₁ he₁ => hk s' o₁ hle hlt (exec_mono (by omega) he₁)) hem
        rcases m with _ | m
        · cases he₁
        rw [exec_jmp hjmp.head, hleast m (by omega) s₁ (by omega)] at he₁
        cases he₁
      | succ room ih =>
        intro s' hle hlt hroom n' hn' o' he'
        obtain ⟨m, hm, hem, hleast⟩ := exists_least he'
        rcases m with _ | m
        · cases hem
        refine exec_split_sound hat.head (fun o₁ => hp.sound hc hlt fun s₁ o₂ hle₁ hlt₁ he₁ => ?_)
          (fun o₁ he₁ => hk s' o₁ hle hlt (exec_mono (by omega) he₁)) hem
        rcases m with _ | m
        · cases he₁
        rw [exec_jmp hjmp.head] at he₁
        by_cases hsame : s₁.1 = s'.1
        · rw [hleast m (by omega) s₁ hsame] at he₁
          cases he₁
        · rw [if_neg hsame]
          exact ih s₁ (hle.trans hle₁) hlt₁ (by omega) m (by omega) o₂ he₁
    exact hrooms _ s le_rfl hs le_rfl n le_rfl o he
  · intro a s k o hat hs hk he
    obtain ⟨hc, hjmp⟩ := At.append hat.tail
    rw [show a + (Code.star c a).length = a + 1 + (c (a + 1)).length + 1 by simp [Code.star]; omega] at hk
    have hrooms : ∀ room, ∀ s' : Place, s.1 ≤ s'.1 → s'.1 ≤ input.length →
        ∀ o', Backtrack.starFrom Prod.fst p room s' k = some o' → ∃ n, re.exec input n a s' = some o' := by
      intro room
      induction room with
      | zero =>
        intro s' hle hlt o' he'
        refine exec_split_complete hat.head (fun o₁ => hp.complete hc hlt fun s₁ o₂ _ _ hnone => ?_)
          (fun o₁ => hk s' o₁ hle hlt) he'
        cases hnone
      | succ room ih =>
        intro s' hle hlt o' he'
        refine exec_split_complete hat.head (fun o₁ => hp.complete hc hlt fun s₁ o₂ hle₁ hlt₁ he₁ => ?_)
          (fun o₁ => hk s' o₁ hle hlt) he'
        split at he₁
        · cases he₁
        · obtain ⟨n, hn⟩ := ih s₁ (hle.trans hle₁) hlt₁ o₂ he₁
          exact ⟨n + 1, by rw [exec_jmp hjmp.head]; exact hn⟩
    exact hrooms _ s le_rfl hs o he

theorem plus (hp : Implements re input c p) :
    Implements re input (Code.plus c) (Backtrack.plus Prod.fst p input.length) := by
  constructor
  · intro a n s k o hat hs hk he
    obtain ⟨hc, hsplit⟩ := At.append hat
    rw [show a + (Code.plus c a).length = a + (c a).length + 1 by simp [Code.plus]; omega] at hk
    have hrooms : ∀ room, ∀ s' : Place, s.1 ≤ s'.1 → s'.1 ≤ input.length → input.length - s'.1 ≤ room →
        ∀ n' ≤ n, ∀ o', re.exec input n' a s' = some o' → Backtrack.plusFrom Prod.fst p room s' k = some o' := by
      intro room
      induction room with
      | zero =>
        intro s' hle hlt hroom n' hn' o' he'
        obtain ⟨m, hm, hem, hleast⟩ := exists_least he'
        refine hp.sound hc hlt (fun s₁ o₂ hle₁ hlt₁ he₁ => ?_) hem
        rcases m with _ | m
        · cases he₁
        rw [exec_split hsplit.head, hleast m (by omega) s₁ (by omega)] at he₁
        cases he₁
      | succ room ih =>
        intro s' hle hlt hroom n' hn' o' he'
        obtain ⟨m, hm, hem, hleast⟩ := exists_least he'
        refine hp.sound hc hlt (fun s₁ o₂ hle₁ hlt₁ he₁ => ?_) hem
        rcases m with _ | m
        · cases he₁
        by_cases hsame : s₁.1 = s'.1
        · rw [exec_split hsplit.head, hleast m (by omega) s₁ hsame] at he₁
          cases he₁
        · rw [if_neg hsame]
          exact exec_split_sound hsplit.head
            (fun o₁ he₂ => ih s₁ (hle.trans hle₁) hlt₁ (by omega) m (by omega) o₁ he₂)
            (fun o₁ he₂ => hk s₁ o₁ (hle.trans hle₁) hlt₁ (exec_mono (by omega) he₂)) he₁
    exact hrooms _ s le_rfl hs le_rfl n le_rfl o he
  · intro a s k o hat hs hk he
    obtain ⟨hc, hsplit⟩ := At.append hat
    rw [show a + (Code.plus c a).length = a + (c a).length + 1 by simp [Code.plus]; omega] at hk
    have hrooms : ∀ room, ∀ s' : Place, s.1 ≤ s'.1 → s'.1 ≤ input.length →
        ∀ o', Backtrack.plusFrom Prod.fst p room s' k = some o' → ∃ n, re.exec input n a s' = some o' := by
      intro room
      induction room with
      | zero =>
        intro s' hle hlt o' he'
        refine hp.complete hc hlt (fun s₁ o₂ _ _ hnone => ?_) he'
        cases hnone
      | succ room ih =>
        intro s' hle hlt o' he'
        refine hp.complete hc hlt (fun s₁ o₂ hle₁ hlt₁ he₁ => ?_) he'
        split at he₁
        · cases he₁
        · exact exec_split_complete hsplit.head (fun o₁ => ih s₁ (hle.trans hle₁) hlt₁ o₁)
            (fun o₁ => hk s₁ o₁ (hle.trans hle₁) hlt₁) he₁
    exact hrooms _ s le_rfl hs o he

end Implements

theorem implements_take {i : Inst} (hi : ∀ {a : Nat}, re.prog[a]? = some i → ∀ n s,
    re.exec input (n + 1) a s =
      if input[s.1]?.any (re.takes · i) then re.exec input n (a + 1) (s.1 + 1, s.2) else some none) :
    Implements re input (Code.one i) (take re input i) := by
  refine Implements.one (fun ha n s => ?_) fun {s s'} hs hstep => ?_
  · rw [hi ha]
    split <;> rfl
  · split at hstep
    · rename_i htakes
      cases hstep
      refine ⟨Nat.le_succ _, Nat.succ_le_of_lt (lt_of_not_ge fun hge => ?_)⟩
      rw [List.getElem?_eq_none hge] at htakes
      cases htakes
    · cases hstep

theorem implements_test {i : Inst} {b : Nat → Bool} (hi : ∀ {a : Nat}, re.prog[a]? = some i → ∀ n s,
    re.exec input (n + 1) a s = if b s.1 then re.exec input n (a + 1) s else some none) :
    Implements re input (Code.one i) (test b) := by
  refine Implements.one (fun ha n s => ?_) fun {s s'} hs hstep => ?_
  · rw [hi ha]
    split <;> rfl
  · split at hstep
    · cases hstep
      exact ⟨le_rfl, hs⟩
    · cases hstep

theorem implements_mark (slot : Nat) : Implements re input (Code.one (.save slot)) (mark slot) := by
  refine Implements.one (fun ha n s => ?_) fun {s s'} hs hstep => ?_
  · rw [exec_succ, ha]
    rfl
  · cases hstep
    exact ⟨le_rfl, hs⟩

mutual

theorem implements_search : ∀ p : Pattern, Implements re input (code p) (search re input p)
  | .empty => .skip
  | .char c => implements_take fun ha n s => by rw [exec_succ, ha]
  | .any => implements_take fun ha n s => by rw [exec_succ, ha]
  | .class' items negated => implements_take fun ha n s => by rw [exec_succ, ha]
  | .start => implements_test fun ha n s => by rw [exec_succ, ha]
  | .stop => implements_test fun ha n s => by rw [exec_succ, ha]
  | .group none inner => implements_search inner
  | .group (some n) inner => (implements_mark _).seq ((implements_search inner).seq (implements_mark _))
  | .concat items => implements_searchAll items
  | .alt branches => implements_searchAlt branches
  | .star inner => (implements_search inner).star
  | .plus inner => (implements_search inner).plus
  | .quest inner => (implements_search inner).quest
  | .repeat' inner min (some max) =>
    ((implements_search inner).times min).seq ((implements_search inner).quest.times (max - min))
  | .repeat' inner min none => ((implements_search inner).times min).seq (implements_search inner).star

theorem implements_searchAll : ∀ items : List Pattern, Implements re input (codeAll items) (searchAll re input items)
  | [] => .skip
  | p :: rest => (implements_search p).seq (implements_searchAll rest)

theorem implements_searchAlt : ∀ branches : List Pattern,
    Implements re input (codeAlt branches) (searchAlt re input branches)
  | [] => .skip
  | [branch] => implements_search branch
  | branch :: next :: rest => (implements_search branch).alt (implements_searchAlt (next :: rest))

end

end Branches

section

variable [Unicode] [Casing] {re : Regex} {input : List Char}

/-- The search of a whole pattern from a place: the first two slots are the ends of what was found. -/
def searchWhole (re : Regex) (input : List Char) (p : Pattern) (s : Place) : Backtrack.Outcome Slots :=
  Backtrack.seq (mark 0) (Backtrack.seq (search re input p) (mark 1)) s fun s' => some (some s'.2)

/-- The program of a pattern comes to an end exactly where the search does, and with the same result. -/
theorem exec_compile {p : Pattern} (hprog : re.prog = compile p) {s : Place} (hs : s.1 ≤ input.length)
    (o : Option Slots) : (∃ n, re.exec input n 0 s = some o) ↔ searchWhole re input p s = some o := by
  have hcode : re.prog = Code.seq (.one (.save 0)) (Code.seq (code p) (.one (.save 1))) 0 ++ [Inst.done] := by
    rw [hprog, compile, emits_code]
    simp [Code.seq, Code.one]
  have hall : At re.prog 0 (Code.seq (.one (.save 0)) (Code.seq (code p) (.one (.save 1))) 0 ++ [Inst.done]) := by
    rw [← hcode]
    exact List.prefix_rfl
  obtain ⟨hat, hdone⟩ := At.append hall
  have himplements : Implements re input _ _ := (implements_mark 0).seq ((implements_search p).seq (implements_mark 1))
  constructor
  · rintro ⟨n, hn⟩
    refine himplements.sound hat hs (fun s' o' _ _ he => ?_) hn
    rcases n with _ | n
    · cases he
    rw [exec_succ, hdone.head] at he
    exact he
  · intro he
    refine himplements.complete hat hs (fun s' o' _ _ hk => ⟨1, ?_⟩) he
    rw [exec_succ, hdone.head]
    exact hk

end

end Regex

end NanoBpm.FeelExpr
