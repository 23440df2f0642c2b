import NanoBpm.Feel.Regex

/-!
# The pattern parser

Every group, and every item of a list, is read after a character has been taken.
-/

namespace NanoBpm.FeelExpr

open Descent

/-! ## The parser returns -/

variable {n : Nat}

theorem peek_same : Same n (fun _ => 0) peek peek := Same.look.seq fun _ => .pure rfl

theorem closeRepeat_length (save : List Char) (lo : Nat) (hi : Option Nat) (rest : List Char) :
    (closeRepeat save lo hi rest).2.length ≤ max save.length rest.length := by
  unfold closeRepeat
  split <;> simp

theorem parseRepeat_length (save : List Char) : (parseRepeat save).2.length ≤ save.length := by
  have hdrop (l : List Char) : (l.dropWhile Char.isDigit).length ≤ l.length := (List.dropWhile_suffix _).length_le
  have htail := hdrop save.tail
  rw [List.length_tail] at htail
  unfold parseRepeat
  dsimp only
  split
  · rename_i rest hrest
    rw [hrest, List.length_cons] at htail
    have hmax := hdrop rest
    split
    · refine (closeRepeat_length ..).trans ?_
      omega
    · split
      · dsimp only
        omega
      · refine (closeRepeat_length ..).trans ?_
        omega
  · split
    · dsimp only
      omega
    · refine (closeRepeat_length ..).trans ?_
      omega

theorem tryRepeat_same : Same n (fun _ => 0) tryRepeat tryRepeat := by
  intro input hlen
  refine ⟨rfl, by simp [tryRepeat], fun a rest hr => ?_⟩
  have heq : parseRepeat input = (a, rest) := by simpa [Reads, tryRepeat] using hr
  have hle := parseRepeat_length input
  rw [heq] at hle
  exact hle

theorem classItems_length {input rest : List Char} {items : List ClassItem}
    (h : classItems input = some (items, rest)) : rest.length ≤ input.length := by
  have hwith {item : ClassItem} {tail : List Char}
      (ih : ∀ {items rest}, classItems tail = some (items, rest) → rest.length ≤ tail.length) {items : List ClassItem}
      {rest : List Char} (h : withItem item (classItems tail) = some (items, rest)) : rest.length ≤ tail.length := by
    obtain ⟨⟨items', rest'⟩, htail, heq⟩ := Option.map_eq_some_iff.mp h
    cases heq
    exact ih htail
  fun_induction classItems input generalizing items rest with
  | case1 => cases h
  | case2 tail =>
    cases h
    simp
  | case3 => cases h
  | case4 e tail ih =>
    have hle := hwith ih h
    simp only [List.length_cons]
    omega
  | case5 lo hi tail _ _ _ ih =>
    have hle := hwith ih h
    simp only [List.length_cons]
    omega
  | case6 lo hi tail _ _ _ ih =>
    have hle := hwith ih h
    simp only [List.length_cons] at hle ⊢
    omega
  | case7 c tail _ _ _ _ ih =>
    have hle := hwith ih h
    simp only [List.length_cons]
    omega

theorem classTail_same (negated : Bool) : Same n (fun _ => 0) (classTail negated) (classTail negated) := by
  intro input hlen
  refine ⟨rfl, ?_, fun a rest hr => ?_⟩
  · unfold classTail
    split <;> simp
  · unfold Reads classTail at hr
    split at hr
    · cases hr
    · rename_i items rest' hitems
      cases hr
      exact classItems_length hitems

theorem parseClass_same : Same n (fun _ => 0) parseClass parseClass := by
  refine peek_same.seq fun o => ?_
  split
  · exact (Same.skip 1).seq fun _ => classTail_same _
  · exact classTail_same _

variable {atom atom' : Nat → Reading (Pattern × Nat)}

theorem lazyMark_same (q : Pattern) (groups : Nat) : Same n (fun _ => 0) (lazyMark q groups) (lazyMark q groups) := by
  refine peek_same.seq fun o => ?_
  split
  · exact (Same.skip 1).seq fun _ => .pure rfl
  · exact .pure rfl

theorem parseQuant_same (h : ∀ g, Same n (fun _ => 1) (atom g) (atom' g)) (groups : Nat) :
    Same n (fun _ => 1) (parseQuant atom groups) (parseQuant atom' groups) := by
  refine (h groups).seq fun r => peek_same.seq fun o => ?_
  split
  · exact (Same.skip 1).seq fun _ => lazyMark_same _ _
  · exact (Same.skip 1).seq fun _ => lazyMark_same _ _
  · exact (Same.skip 1).seq fun _ => lazyMark_same _ _
  · refine tryRepeat_same.seq fun q => ?_
    split
    · exact lazyMark_same _ _
    · exact .pure rfl
  · exact .pure rfl

theorem concatStep_same (h : ∀ g, Same n (fun _ => 1) (atom g) (atom' g)) (s : List Pattern × Nat) :
    Same n (fun o => if o.isSome then 1 else 0) (concatStep atom s) (concatStep atom' s) := by
  refine peek_same.bind fun o => ?_
  split
  · exact .pure rfl
  · exact .pure rfl
  · exact .pure rfl
  · exact (parseQuant_same h s.2).bind fun r => .pure rfl

theorem parseConcat_same (h : ∀ g, Same n (fun _ => 1) (atom g) (atom' g)) (groups : Nat) :
    Same n (fun _ => 0) (parseConcat atom groups) (parseConcat atom' groups) :=
  (Same.chain (concatStep_same h) _).seq fun _ => .pure rfl

/-- The bar. -/
def bar (c : Char) : Option Unit := if c = '|' then some () else none

theorem altStep_eq (atom : Nat → Reading (Pattern × Nat)) (s : List Pattern × Nat) :
    altStep atom s = (do
      match ← accept bar with
      | some () =>
        let (branch, groups) ← parseConcat atom s.2
        return some (s.1 ++ [branch], groups)
      | none => return none : Reading (Option (List Pattern × Nat))) := by
  funext input
  cases input with
  | nil => rfl
  | cons c rest =>
    by_cases hc : c = '|'
    · subst hc
      rfl
    · obtain ⟨branches, groups⟩ := s
      have hpeek : Reads peek (c :: rest) (some c) (c :: rest) := rfl
      have hbar : Reads (accept bar : Reading (Option Unit)) (c :: rest) none (c :: rest) := by simp [Reads, accept, bar, hc]
      unfold altStep
      dsimp only
      rw [hpeek.bind_eq, hbar.bind_eq, if_neg (by simpa using hc)]

theorem altStep_same (h : ∀ g, Same n (fun _ => 1) (atom g) (atom' g)) (s : List Pattern × Nat) :
    Same n (fun o => if o.isSome then 1 else 0) (altStep atom s) (altStep atom' s) := by
  rw [altStep_eq, altStep_eq]
  have hless (g : Nat) : Same (n - 1) (fun _ => 1) (atom g) (atom' g) := (h g).mono (Nat.sub_le n 1) fun _ => Nat.le_refl _
  exact .accept_bind (fun _ => (parseConcat_same hless s.2).seq fun _ => .pure rfl) (.pure rfl)

theorem parseAlt_same (h : ∀ g, Same n (fun _ => 1) (atom g) (atom' g)) (groups : Nat) :
    Same n (fun _ => 0) (parseAlt atom groups) (parseAlt atom' groups) :=
  (parseConcat_same h groups).seq fun _ => (Same.chain (altStep_same h) _).seq fun _ => .pure rfl

theorem groupTail_same (h : ∀ g, Same n (fun _ => 1) (atom g) (atom' g)) (number : Option Nat) (groups : Nat) :
    Same n (fun _ => 0) (groupTail atom number groups) (groupTail atom' number groups) := by
  refine (parseAlt_same h groups).seq fun r => ?_
  refine Same.mono (k := fun _ => 1) ?_ (Nat.le_refl _) fun _ => Nat.zero_le _
  refine .next_bind (fun t => ?_) fun l => .fail _
  split
  · exact .pure rfl
  · exact .fail _

theorem atomLevel_guarded : Guarded atomLevel := by
  intro n inner inner' h groups
  refine .next_bind (fun t => ?_) fun l => .fail _
  split
  · contradiction
  · refine Same.look.seq fun l => ?_
    split
    · exact (Same.skip 2).seq fun _ => groupTail_same h _ _
    · exact groupTail_same h _ _
  · exact parseClass_same.seq fun _ => .pure rfl
  · exact .pure rfl
  · exact .pure rfl
  · exact .pure rfl
  · refine Same.mono (k := fun _ => 1) ?_ (Nat.le_refl _) fun _ => Nat.zero_le _
    refine .next_bind (fun c => .pure rfl) fun l => .fail _
  · exact .pure rfl

theorem parseAtom_eq (groups : Nat) : parseAtom groups = atomLevel parseAtom groups := fix_eq atomLevel_guarded groups

theorem parseAtom_same (groups : Nat) : Same n (fun _ => 1) (parseAtom groups) (parseAtom groups) :=
  atomLevel_guarded.self n groups

end NanoBpm.FeelExpr
