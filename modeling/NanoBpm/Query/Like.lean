import NanoBpm.Lib.Wildcard

/-!
# The `$like` filter (src/server/src/query.rs)

`like_matches` goes over a pattern and a value with a position in each; what is left of the two is where the greedy matcher is.
-/

namespace NanoBpm.Query

open Wildcard

/-- The positions of the loop. -/
structure Scan where
  pi : Nat
  vi : Nat
  starP : Option Nat
  starV : Nat

/-- `lit`: a character after a backslash. -/
def escapedAt (p : List Char) (pi : Nat) : Option Char := if p[pi]? = some '\\' then p[pi + 1]? else none

/-- What a mismatch does. -/
def Scan.backtrack (s : Scan) : Option Scan := s.starP.map fun sp => { s with pi := sp + 1, vi := s.starV + 1, starV := s.starV + 1 }

/-- One round of the loop, at the character `x` of the value; `none` where the function returns. -/
def Scan.round (p : List Char) (s : Scan) (x : Char) : Option Scan :=
  match escapedAt p s.pi with
  | some c => if c = x then some { s with pi := s.pi + 2, vi := s.vi + 1 } else s.backtrack
  | none =>
    if p[s.pi]? = some '?' then some { s with pi := s.pi + 1, vi := s.vi + 1 }
    else if p[s.pi]? = some '*' then some { s with pi := s.pi + 1, starP := some s.pi, starV := s.vi }
    else if p[s.pi]? = some x then some { s with pi := s.pi + 1, vi := s.vi + 1 }
    else s.backtrack

/-- The loop of `like_matches` (query.rs:140), in at most so many rounds. -/
def likeLoop (p v : List Char) : Nat → Scan → Option Bool
  | 0, _ => none
  | n + 1, s =>
    match v[s.vi]? with
    | some x => (s.round p x).elim (some false) (likeLoop p v n)
    | none => some ((p.drop s.pi).dropWhile (· == '*')).isEmpty

def likeMatches (rounds : Nat) (pattern value : String) : Option Bool := likeLoop pattern.toList value.toList rounds ⟨0, 0, none, 0⟩

/-- A pattern as its items. -/
def items : List Char → List (Item Char)
  | '\\' :: c :: p => .lit c :: items p
  | '?' :: p => .any :: items p
  | '*' :: p => .star :: items p
  | c :: p => .lit c :: items p
  | [] => []

variable {p v : List Char} {s : Scan} {x c : Char}

/-- Where the greedy matcher is. -/
def Scan.greedy (p v : List Char) (s : Scan) : Greedy Char :=
  ⟨items (p.drop s.pi), v.drop s.vi, s.starP.map fun sp => (items (p.drop (sp + 1)), v.drop s.starV)⟩

theorem greedy_backtrack (p v : List Char) (s : Scan) : (s.greedy p v).retry = s.backtrack.map (Scan.greedy p v) := by
  rw [Greedy.retry, Scan.backtrack, Scan.greedy, Option.map_map, Option.map_map]
  refine Option.map_congr fun sp hsp => ?_
  simp [Scan.greedy, hsp]

/-- An item at the head of what is left of the pattern. -/
theorem items_cases (p : List Char) (i : Nat) :
    (p[i]? = none ∧ items (p.drop i) = []) ∨
    (∃ c, escapedAt p i = some c ∧ items (p.drop i) = .lit c :: items (p.drop (i + 2))) ∨
    (escapedAt p i = none ∧ ((p[i]? = some '?' ∧ items (p.drop i) = .any :: items (p.drop (i + 1))) ∨
      (p[i]? = some '*' ∧ items (p.drop i) = .star :: items (p.drop (i + 1))) ∨
      ∃ c, p[i]? = some c ∧ c ≠ '?' ∧ c ≠ '*' ∧ items (p.drop i) = .lit c :: items (p.drop (i + 1)))) := by
  have hnext : p.drop (i + 1) = (p.drop i).tail := by simp
  have hafter : p.drop (i + 2) = (p.drop i).tail.tail := by simp
  have hhead : p[i]? = (p.drop i).head? := by simp
  have hsecond : p[i + 1]? = (p.drop i).tail.head? := by simp
  unfold escapedAt
  rw [hhead, hsecond, hnext, hafter]
  cases p.drop i with
  | nil => exact .inl ⟨rfl, rfl⟩
  | cons c rest =>
    refine .inr ?_
    by_cases hslash : c = '\\'
    · subst hslash
      cases rest with
      | nil => exact .inr ⟨rfl, .inr (.inr ⟨'\\', rfl, by decide, by decide, rfl⟩)⟩
      | cons d rest => exact .inl ⟨d, rfl, rfl⟩
    · have hnone : (if (c :: rest).head? = some '\\' then (c :: rest).tail.head? else none) = none := by
        rw [if_neg (by simpa using hslash)]
      refine .inr ⟨hnone, ?_⟩
      by_cases hany : c = '?'
      · subst hany
        exact .inl ⟨rfl, rfl⟩
      · by_cases hstar : c = '*'
        · subst hstar
          exact .inr (.inl ⟨rfl, rfl⟩)
        · exact .inr (.inr ⟨c, rfl, hany, hstar, by rw [items, List.tail_cons] <;> simp_all⟩)

/-- A round of the loop is one of the greedy matcher. -/
theorem greedy_round (p : List Char) {v : List Char} {s : Scan} {x : Char} (hx : v[s.vi]? = some x) :
    (s.greedy p v).step x (v.drop (s.vi + 1)) = (s.round p x).map (Scan.greedy p v) := by
  obtain ⟨hlt, hget⟩ := List.getElem?_eq_some_iff.mp hx
  have hword : v.drop s.vi = x :: v.drop (s.vi + 1) := hget ▸ List.drop_eq_getElem_cons hlt
  have hback := greedy_backtrack p v s
  have hfields : (s.greedy p v).items = items (p.drop s.pi) := rfl
  unfold Scan.round Greedy.step
  rw [hfields]
  rcases items_cases p s.pi with ⟨hnone, hitems⟩ | ⟨c, hescaped, hitems⟩ | ⟨hescaped, ⟨hc, hitems⟩ | ⟨hc, hitems⟩ | ⟨c, hc, hany, hstar, hitems⟩⟩
  · have hescaped : escapedAt p s.pi = none := by
      rw [escapedAt, hnone]
      rfl
    simp only [hitems, hescaped, hnone, reduceCtorEq, if_false]
    exact hback
  · simp only [hitems, hescaped]
    split
    · rfl
    · exact hback
  · simp only [hitems, hescaped, hc, if_true]
    rfl
  · simp only [hitems, hescaped, hc, Option.some.injEq, Char.reduceEq, if_false, if_true]
    rw [← hword]
    rfl
  · simp only [hitems, hescaped, hc, Option.some.injEq, hany, hstar, if_false]
    split
    · rfl
    · exact hback

theorem all_isStar_items (p : List Char) : (items p).all isStar = (p.dropWhile (· == '*')).isEmpty := by
  fun_induction items p with
  | case1 c p ih => simp [isStar]
  | case2 p ih => simp [isStar]
  | case3 p ih => simpa [isStar] using ih
  | case4 c p hslash hany hstar ih =>
    have hne : c ≠ '*' := by
      rintro rfl
      exact hstar rfl
    simp [isStar, hne]
  | case5 => rfl

theorem likeLoop_eq (p v : List Char) (n : Nat) (s : Scan) : likeLoop p v n s = (s.greedy p v).run n := by
  induction n generalizing s with
  | zero => rfl
  | succ n ih =>
    rw [likeLoop, Greedy.run]
    have hword : (s.greedy p v).word = v.drop s.vi := rfl
    rw [hword]
    cases hx : v[s.vi]? with
    | none =>
      rw [List.drop_eq_nil_iff.mpr (List.getElem?_eq_none_iff.mp hx)]
      exact congrArg some (all_isStar_items _).symm
    | some x =>
      obtain ⟨hlt, hget⟩ := List.getElem?_eq_some_iff.mp hx
      rw [List.drop_eq_getElem_cons hlt, hget]
      dsimp only
      rw [greedy_round p hx]
      cases s.round p x with
      | none => rfl
      | some s' => exact ih s'

/-- `like_matches` ends on every pattern and every value, and says whether the pattern denotes the value. -/
theorem likeMatches_iff (pattern value : String) : ∃ n b, (∀ m ≥ n, likeMatches m pattern value = some b) ∧
    (b = true ↔ Denotes (items pattern.toList) value.toList) := by
  obtain ⟨n, b, hrun, hb⟩ := Greedy.run_start (items pattern.toList) value.toList
  refine ⟨n, b, fun m hm => ?_, hb⟩
  rw [likeMatches, likeLoop_eq]
  exact hrun m hm

end NanoBpm.Query
