import NanoBpm.Feel.RegexFinds

/-!
# Where the matcher returns

A round of a loop that takes nothing is followed by the same round again. The matcher returns where the search comes to
no such round before it has found something, or failed; with no loop over what can be empty, that is everywhere.
-/

namespace NanoBpm.FeelExpr

open Backtrack (Finishes)

mutual

/-- The pattern can match without taking a character. -/
def Pattern.nullable : Pattern → Bool
  | .empty | .start | .stop | .star _ | .quest _ => true
  | .char _ | .any | .class' _ _ => false
  | .group _ inner | .plus inner => inner.nullable
  | .concat items => nullableAll items
  | .alt branches => nullableAlt branches
  | .repeat' inner min _ => min == 0 || inner.nullable

def Pattern.nullableAll : List Pattern → Bool
  | [] => true
  | p :: rest => p.nullable && nullableAll rest

def Pattern.nullableAlt : List Pattern → Bool
  | [] => true
  | [branch] => branch.nullable
  | branch :: next :: rest => branch.nullable || nullableAlt (next :: rest)

end

mutual

/-- No loop of the pattern is over something that can be empty. -/
def Pattern.solid : Pattern → Bool
  | .empty | .start | .stop | .char _ | .any | .class' _ _ => true
  | .group _ inner | .quest inner | .repeat' inner _ (some _) => inner.solid
  | .star inner | .plus inner | .repeat' inner _ none => !inner.nullable && inner.solid
  | .concat items => solidAll items
  | .alt branches => solidAll branches

def Pattern.solidAll : List Pattern → Bool
  | [] => true
  | p :: rest => p.solid && solidAll rest

end

namespace Regex

/-! ## Loops over the matches -/

section Turns

/-- The place of a match. -/
def placed (o : Option Captures) : Option (Nat × Nat) := o.bind whole

/-- Every turn of a loop over the matches comes to a match or to the end of them; `next` says where the loop goes on. -/
def Turns (find : Nat → Option (Option (Nat × Nat))) (len : Nat) (next : Nat → Nat → Nat → Nat) : Nat → Nat → Prop
  | 0, _ => True
  | turns + 1, pos => pos ≤ len → ∃ o, find pos = some o ∧ ∀ m ∈ o, Turns find len next turns (next pos m.1 m.2)

variable {find : Nat → Option (Option (Nat × Nat))} {len : Nat} {next : Nat → Nat → Nat → Nat}

theorem Turns.of_all (h : ∀ pos, find pos ≠ none) (turns pos : Nat) : Turns find len next turns pos := by
  induction turns generalizing pos with
  | zero => trivial
  | succ turns ih =>
    intro _
    obtain ⟨o, ho⟩ := Option.ne_none_iff_exists'.mp (h pos)
    exact ⟨o, ho, fun m _ => ih _⟩

theorem Turns.mono {find' : Nat → Option (Option (Nat × Nat))} (h : ∀ pos o, find pos = some o → find' pos = some o)
    {turns pos : Nat} (hturns : Turns find len next turns pos) : Turns find' len next turns pos := by
  induction turns generalizing pos with
  | zero => trivial
  | succ turns ih =>
    intro hle
    obtain ⟨o, ho, hrest⟩ := hturns hle
    exact ⟨o, h pos o ho, fun m hm => ih (hrest m hm)⟩

/-- Finitely many turns have a bound together. -/
theorem exists_turns_iff {bounded : Nat → Nat → Option (Option (Nat × Nat))}
    (hmono : ∀ fuel fuel', fuel ≤ fuel' → ∀ pos o, bounded fuel pos = some o → bounded fuel' pos = some o)
    (h : ∀ pos o, (∃ fuel, bounded fuel pos = some o) ↔ find pos = some o) {turns pos : Nat} :
    (∃ fuel, Turns (bounded fuel) len next turns pos) ↔ Turns find len next turns pos := by
  constructor
  · rintro ⟨fuel, hfuel⟩
    exact hfuel.mono fun pos o ho => (h pos o).mp ⟨fuel, ho⟩
  · induction turns generalizing pos with
    | zero => exact fun _ => ⟨0, trivial⟩
    | succ turns ih =>
      intro hturns
      by_cases hle : pos ≤ len
      · obtain ⟨o, ho, hrest⟩ := hturns hle
        obtain ⟨fuel, hfuel⟩ := (h pos o).mpr ho
        cases o with
        | none => exact ⟨fuel, fun _ => ⟨none, hfuel, fun m hm => by cases hm⟩⟩
        | some m =>
          obtain ⟨fuel', hfuel'⟩ := ih (hrest m rfl)
          refine ⟨max fuel fuel', fun _ => ⟨some m, hmono _ _ (le_max_left fuel fuel') pos _ hfuel, ?_⟩⟩
          rintro _ ⟨⟩
          exact hfuel'.mono (hmono _ _ (le_max_right fuel fuel'))
      · exact ⟨0, fun hle' => absurd hle' hle⟩

end Turns

section

variable [Unicode] [Casing] {re : Regex} {input : List Char}

theorem finishes_take (i : Inst) : Finishes Prod.fst input.length true (take re input i) := by
  refine Finishes.step fun s s' hs hstep => ?_
  split at hstep
  · rename_i htakes
    cases hstep
    refine ⟨Nat.le_succ _, Nat.succ_le_of_lt (lt_of_not_ge fun hge => ?_), fun _ => Nat.succ_ne_self _ ∘ Eq.symm⟩
    rw [List.getElem?_eq_none hge] at htakes
    cases htakes
  · cases hstep

omit [Unicode] [Casing] in
theorem finishes_test (b : Nat → Bool) : Finishes Prod.fst input.length false (test b) := by
  refine Finishes.step fun s s' hs hstep => ?_
  split at hstep
  · cases hstep
    exact ⟨le_rfl, hs, fun h => by cases h⟩
  · cases hstep

omit [Unicode] [Casing] in
theorem finishes_mark (slot : Nat) : Finishes Prod.fst input.length false (mark slot) := by
  refine Finishes.step fun s s' hs hstep => ?_
  cases hstep
  exact ⟨le_rfl, hs, fun h => by cases h⟩

omit [Unicode] [Casing] in
theorem finishes_quest {p : Backtrack.Search Place Slots} {strict : Bool}
    (h : Finishes Prod.fst input.length strict p) : Finishes Prod.fst input.length false (Backtrack.alt p Backtrack.skip) := by
  have hquest := h.alt (show Finishes Prod.fst input.length false Backtrack.skip from .skip)
  rwa [Bool.and_false] at hquest

mutual

/-- The search comes to an end, and takes something unless the pattern can be empty. -/
theorem finishes_search : ∀ p : Pattern, p.solid = true → Finishes Prod.fst input.length (!p.nullable) (search re input p)
  | .empty, _ => .skip
  | .char _, _ | .any, _ | .class' _ _, _ => finishes_take _
  | .start, _ | .stop, _ => finishes_test _
  | .group none inner, h => finishes_search inner h
  | .group (some n) inner, h => by
    have hgroup := (finishes_mark (n * 2)).seq ((finishes_search inner h).seq (finishes_mark (n * 2 + 1)))
    rw [search, Pattern.nullable]
    simpa only [Bool.false_or, Bool.or_false] using hgroup
  | .concat items, h => finishes_searchAll items h
  | .alt branches, h => finishes_searchAlt branches h
  | .star inner, h => by
    obtain ⟨hnullable, hsolid⟩ := (Bool.and_eq_true _ _).mp h
    have hinner := finishes_search inner hsolid
    rw [hnullable] at hinner
    exact hinner.star
  | .plus inner, h => by
    obtain ⟨hnullable, hsolid⟩ := (Bool.and_eq_true _ _).mp h
    have hinner := finishes_search inner hsolid
    rw [hnullable] at hinner
    rw [Pattern.nullable, hnullable]
    exact hinner.plus
  | .quest inner, h => finishes_quest (finishes_search inner h)
  | .repeat' inner 0 (some max), h => Finishes.skip.seq ((finishes_quest (finishes_search inner h)).times max)
  | .repeat' inner (min + 1) (some max), h => by
    have hinner := finishes_search inner h
    have hall := (hinner.times_pos (Nat.succ_pos min)).seq ((finishes_quest hinner).times (max - (min + 1)))
    rw [search, Pattern.nullable]
    simpa using hall
  | .repeat' inner 0 none, h => by
    obtain ⟨hnullable, hsolid⟩ := (Bool.and_eq_true _ _).mp h
    have hinner := finishes_search inner hsolid
    rw [hnullable] at hinner
    exact Finishes.skip.seq hinner.star
  | .repeat' inner (min + 1) none, h => by
    obtain ⟨hnullable, hsolid⟩ := (Bool.and_eq_true _ _).mp h
    have hinner := finishes_search inner hsolid
    rw [hnullable] at hinner
    have hall := (hinner.times_pos (Nat.succ_pos min)).seq hinner.star
    rw [search, Pattern.nullable]
    simpa [hnullable] using hall

theorem finishes_searchAll : ∀ items : List Pattern, Pattern.solidAll items = true →
    Finishes Prod.fst input.length (!Pattern.nullableAll items) (searchAll re input items)
  | [], _ => .skip
  | p :: rest, h => by
    obtain ⟨hp, hrest⟩ := (Bool.and_eq_true _ _).mp h
    rw [Pattern.nullableAll, Bool.not_and]
    exact (finishes_search p hp).seq (finishes_searchAll rest hrest)

theorem finishes_searchAlt : ∀ branches : List Pattern, Pattern.solidAll branches = true →
    Finishes Prod.fst input.length (!Pattern.nullableAlt branches) (searchAlt re input branches)
  | [], _ => .skip
  | [branch], h => finishes_search branch ((Bool.and_eq_true _ _).mp h).1
  | branch :: next :: rest, h => by
    obtain ⟨hbranch, hrest⟩ := (Bool.and_eq_true _ _).mp h
    rw [Pattern.nullableAlt, Bool.not_or]
    exact (finishes_search branch hbranch).alt (finishes_searchAlt (next :: rest) hrest)

end

theorem searchWhole_ne_none {p : Pattern} (hp : p.solid = true) {s : Place} (hs : s.1 ≤ input.length) :
    re.searchWhole input p s ≠ none := by
  have hwhole : Finishes Prod.fst input.length _ (Backtrack.seq (mark 0) (Backtrack.seq (search re input p) (mark 1))) :=
    (finishes_mark 0).seq ((finishes_search p hp).seq (finishes_mark 1))
  exact hwhole s _ hs fun s' _ _ _ => by simp

theorem seek_ne_none {p : Pattern} {tries start : Nat}
    (h : ∀ x, start ≤ x → x < start + tries → re.searchWhole input p (x, re.blank) ≠ none) :
    re.seek input p tries start ≠ none := by
  induction tries generalizing start with
  | zero => exact Option.some_ne_none _
  | succ tries ih =>
    exact Backtrack.orElse_ne_none (h start le_rfl (by omega)) (ih fun x hx hlt => h x (by omega) (by omega))

/-! ## The loops over the matches -/

/-- One bound for the searches from all starts. -/
theorem exists_bound (h : ∀ start, ∃ fuel, re.find input fuel start ≠ none) :
    ∃ fuel, ∀ start, re.find input fuel start ≠ none := by
  have hbelow (n : Nat) : ∃ fuel, ∀ start < n, re.find input fuel start ≠ none := by
    induction n with
    | zero => exact ⟨0, fun _ hlt => absurd hlt (Nat.not_lt_zero _)⟩
    | succ n ih =>
      obtain ⟨fuel, hfuel⟩ := ih
      obtain ⟨fuel', hfuel'⟩ := h n
      refine ⟨max fuel fuel', fun start hlt => ?_⟩
      rcases Nat.lt_succ_iff_lt_or_eq.mp hlt with hlt | rfl
      · obtain ⟨o, ho⟩ := Option.ne_none_iff_exists'.mp (hfuel start hlt)
        rw [find_mono (le_max_left fuel fuel') ho]
        simp
      · obtain ⟨o, ho⟩ := Option.ne_none_iff_exists'.mp hfuel'
        rw [find_mono (le_max_right fuel fuel') ho]
        simp
  obtain ⟨fuel, hfuel⟩ := hbelow (input.length + 1)
  refine ⟨fuel, fun start => ?_⟩
  rcases Nat.lt_or_ge start (input.length + 1) with hlt | hge
  · exact hfuel start hlt
  · rw [find, Nat.sub_eq_zero_of_le hge]
    exact Option.some_ne_none _

section Loops

variable {fuel : Nat} (hwhole : ∀ start caps, re.find input fuel start = some (some caps) → whole caps ≠ none)

include hwhole

theorem replaceFrom_ne_none_iff (replacement : List Char) (turns pos : Nat) :
    re.replaceFrom input fuel replacement turns pos ≠ none ↔
      Turns (fun pos => (re.find input fuel pos).map placed) input.length
        (fun pos s e => if e > pos then e else s + 1) turns pos := by
  induction turns generalizing pos with
  | zero => simp [replaceFrom, Turns]
  | succ turns ih =>
    rw [replaceFrom, Turns]
    by_cases hpos : pos > input.length
    · simp [hpos, Nat.not_le.mpr hpos]
    · rcases ho : re.find input fuel pos with _ | _ | caps
      · simp [hpos, Nat.not_lt.mp hpos]
      · simp [hpos, placed]
      · obtain ⟨⟨s, e⟩, hse⟩ := Option.ne_none_iff_exists'.mp (hwhole pos caps ho)
        by_cases he : e > pos
        · simp [hpos, Nat.not_lt.mp hpos, placed, hse, he, ← ih e]
          exact Option.ne_none_iff_exists'.symm
        · simp [hpos, Nat.not_lt.mp hpos, placed, hse, he, ← ih (s + 1)]
          exact Option.ne_none_iff_exists'.symm

theorem splitFrom_ne_none_iff (turns last pos : Nat) :
    re.splitFrom input fuel turns last pos ≠ none ↔
      Turns (fun pos => (re.find input fuel pos).map placed) input.length
        (fun _ s e => if e = s then s + 1 else e) turns pos := by
  induction turns generalizing last pos with
  | zero => simp [splitFrom, Turns]
  | succ turns ih =>
    rw [splitFrom, Turns]
    by_cases hpos : pos > input.length
    · simp [hpos, Nat.not_le.mpr hpos]
    · rcases ho : re.find input fuel pos with _ | _ | caps
      · simp [hpos, Nat.not_lt.mp hpos]
      · simp [hpos, placed]
      · obtain ⟨⟨s, e⟩, hse⟩ := Option.ne_none_iff_exists'.mp (hwhole pos caps ho)
        by_cases he : e = s
        · simp [hpos, Nat.not_lt.mp hpos, placed, hse, he, ← ih last (s + 1)]
        · simp [hpos, Nat.not_lt.mp hpos, placed, hse, he, ← ih e e]
          exact Option.ne_none_iff_exists'.symm

theorem findAllFrom_ne_none_iff (turns pos : Nat) :
    re.findAllFrom input fuel turns pos ≠ none ↔
      Turns (fun pos => (re.find input fuel pos).map placed) input.length
        (fun _ s e => if e > s then e else s + 1) turns pos := by
  induction turns generalizing pos with
  | zero => simp [findAllFrom, Turns]
  | succ turns ih =>
    rw [findAllFrom, Turns]
    by_cases hpos : pos > input.length
    · simp [hpos, Nat.not_le.mpr hpos]
    · rcases ho : re.find input fuel pos with _ | _ | caps
      · simp [hpos, Nat.not_lt.mp hpos]
      · simp [hpos, placed]
      · obtain ⟨⟨s, e⟩, hse⟩ := Option.ne_none_iff_exists'.mp (hwhole pos caps ho)
        simp [hpos, Nat.not_lt.mp hpos, placed, hse, ← ih]
        exact Option.ne_none_iff_exists'.symm

end Loops

/-- `find` returns where the searches of the pattern come to an end. -/
theorem exists_find_ne_none_iff {p : Pattern} (hprog : re.prog = compile p) (start : Nat) :
    (∃ fuel, re.find input fuel start ≠ none) ↔ re.seek input p (input.length + 1 - start) start ≠ none := by
  constructor
  · rintro ⟨fuel, hfuel⟩ hnone
    obtain ⟨o, ho⟩ := Option.ne_none_iff_exists'.mp hfuel
    have hseek := (exists_find_iff hprog start o).mp ⟨fuel, ho⟩
    rw [hnone] at hseek
    cases hseek
  · intro hsome
    obtain ⟨o, ho⟩ := Option.ne_none_iff_exists'.mp hsome
    obtain ⟨fuel, hfuel⟩ : ∃ fuel, re.find input fuel start = some (o.map re.captures) :=
      (exists_find_iff hprog start _).mpr (by rw [ho]; rfl)
    exact ⟨fuel, by rw [hfuel]; simp⟩

/-- The searches of the pattern from one position of a loop after the other all come to an end. -/
def Completes (re : Regex) (input : List Char) (p : Pattern) (next : Nat → Nat → Nat → Nat) : Prop :=
  Turns (fun pos => (re.seek input p (input.length + 1 - pos) pos).map fun o => placed (o.map re.captures)) input.length
    next (input.length + 1) 0

theorem exists_turns_find_iff {p : Pattern} (hprog : re.prog = compile p) {next : Nat → Nat → Nat → Nat} :
    (∃ fuel, Turns (fun pos => (re.find input fuel pos).map placed) input.length next (input.length + 1) 0) ↔
      re.Completes input p next := by
  refine exists_turns_iff (fun fuel fuel' hle pos o ho => ?_) fun pos o => ?_
  · obtain ⟨caps, hcaps, rfl⟩ := Option.map_eq_some_iff.mp ho
    rw [find_mono hle hcaps]
    rfl
  · have hfind (caps : Option Captures) : (∃ fuel, re.find input fuel pos = some caps) ↔ _ := exists_find_iff hprog pos caps
    constructor
    · rintro ⟨fuel, ho⟩
      obtain ⟨caps, hcaps, rfl⟩ := Option.map_eq_some_iff.mp ho
      obtain ⟨slots, hslots, rfl⟩ := Option.map_eq_some_iff.mp ((hfind caps).mp ⟨fuel, hcaps⟩)
      rw [hslots]
      rfl
    · intro ho
      obtain ⟨slots, hslots, rfl⟩ := Option.map_eq_some_iff.mp ho
      obtain ⟨fuel, hfuel⟩ := (hfind (slots.map re.captures)).mpr (by rw [hslots]; rfl)
      exact ⟨fuel, by rw [hfuel]; rfl⟩

end

end Regex

/-- The matcher returns from a start exactly where the search of the pattern from there comes to no round of a loop that
takes nothing, and so does the search of the text. -/
theorem run_returns_iff [Unicode] [Casing] {pattern flags : String} {re : Regex}
    (h : Regex.new pattern flags = some (some re)) :
    ∃ p, parseAlt parseAtom 0 pattern.toList = some (.ok ((p, re.groups), [])) ∧
      (∀ input start caps, start ≤ input.length →
        ((∃ fuel, re.run input fuel 0 start caps ≠ none) ↔ re.searchWhole input p (start, caps) ≠ none)) ∧
      (∀ input start, (∃ fuel, re.find input fuel start ≠ none) ↔
        re.seek input p (input.length + 1 - start) start ≠ none) ∧
      (∀ input, (∀ start ≤ input.length, re.searchWhole input p (start, re.blank) ≠ none) →
        ∃ fuel, re.isMatch input fuel ≠ none ∧ (∀ replacement, re.replaceAll input fuel replacement ≠ none) ∧
          re.split input fuel ≠ none ∧ re.findAll input fuel ≠ none) ∧
      (p.solid = true → ∀ input (s : Place), s.1 ≤ input.length → re.searchWhole input p s ≠ none) := by
  obtain ⟨p, hparse, hprog, hnumbered⟩ := Regex.new_spec h
  have hpositive : p.Numbered (0 < ·) := Pattern.Numbered.mono (fun _ hn => hn.1) p hnumbered
  have hfind (input : List Char) (start : Nat) : (∃ fuel, re.find input fuel start ≠ none) ↔ _ :=
    Regex.exists_find_ne_none_iff hprog start
  refine ⟨p, hparse, fun input start caps hstart => ?_, hfind, fun input hends => ?_, fun hsolid input s hs => ?_⟩
  · have hexec (o : Option Slots) : (∃ n, re.exec input n 0 (start, caps) = some o) ↔
        re.searchWhole input p (start, caps) = some o := Regex.exec_compile hprog hstart o
    constructor
    · rintro ⟨fuel, hfuel⟩
      obtain ⟨r, hr⟩ := Option.ne_none_iff_exists'.mp hfuel
      rw [(hexec _).mp ⟨fuel, by rw [Regex.exec, hr]; rfl⟩]
      simp
    · intro hsome
      obtain ⟨o, ho⟩ := Option.ne_none_iff_exists'.mp hsome
      obtain ⟨fuel, hfuel⟩ := (hexec o).mpr ho
      refine ⟨fuel, fun hnone => ?_⟩
      rw [Regex.exec, hnone] at hfuel
      cases hfuel
  · have heach (start : Nat) : ∃ fuel, re.find input fuel start ≠ none :=
      (hfind input start).mpr (Regex.seek_ne_none fun x _ hlt => hends x (by omega))
    obtain ⟨fuel, hfuel⟩ := Regex.exists_bound heach
    have hwhole (start : Nat) (caps : Captures) (hcaps : re.find input fuel start = some (some caps)) :
        Regex.whole caps ≠ none := by
      obtain ⟨s, e, hse, _⟩ := Regex.find_whole hprog hpositive hcaps
      rw [hse]
      simp
    have hplaced (pos : Nat) : (re.find input fuel pos).map Regex.placed ≠ none := by
      simpa using hfuel pos
    refine ⟨fuel, ?_, fun replacement => ?_, ?_, ?_⟩
    · obtain ⟨o, ho⟩ := Option.ne_none_iff_exists'.mp (hfuel 0)
      simp [Regex.isMatch, ho]
    · exact (Regex.replaceFrom_ne_none_iff hwhole replacement _ _).mpr (.of_all hplaced _ _)
    · exact (Regex.splitFrom_ne_none_iff hwhole _ _ _).mpr (.of_all hplaced _ _)
    · exact (Regex.findAllFrom_ne_none_iff hwhole _ _).mpr (.of_all hplaced _ _)
  · exact Regex.searchWhole_ne_none hsolid hs

theorem run_returns_iff_words : let _ := Unicode.ascii; let _ := Casing.ascii
    ∃ re p, Regex.new "(\\w+ ?)*" "i" = some (some re) ∧ p.solid = true ∧
      ∀ input (s : Place), s.1 ≤ input.length → re.searchWhole input p s ≠ none := by
  intro _ _
  have hnew : Regex.new "(\\w+ ?)*" "i" = some (some
      { prog := Regex.compile (.star (.group (some 1) (.concat [.plus (.class' [.word] false), .quest (.char ' ')]))),
        groups := 1, icase := true, dotall := false, multiline := false }) := rfl
  obtain ⟨p, hp, _, _, _, hsolid⟩ := run_returns_iff hnew
  have hparse : parseAlt parseAtom 0 "(\\w+ ?)*".toList = some (.ok
      ((.star (.group (some 1) (.concat [.plus (.class' [.word] false), .quest (.char ' ')])), 1), [])) := rfl
  rw [hparse] at hp
  cases hp
  exact ⟨_, _, hnew, by decide, hsolid (by decide)⟩

/-- The body of the outer loop takes nothing where there is no `a`. -/
theorem star_of_star_endless : let _ := Unicode.ascii; let _ := Casing.ascii
    ¬ ∀ pattern flags re, Regex.new pattern flags = some (some re) → ∀ input start caps, start ≤ input.length →
      ∃ fuel, re.run input fuel 0 start caps ≠ none := by
  intro _ _ hall
  have hnew : Regex.new "(a*)*" "" = some (some
      { prog := Regex.compile (.star (.group (some 1) (.star (.char 'a')))),
        groups := 1, icase := false, dotall := false, multiline := false }) := rfl
  obtain ⟨fuel, hfuel⟩ := hall _ _ _ hnew ['b'] 0 [none, none, none, none] (by decide)
  obtain ⟨r, hr⟩ := Option.ne_none_iff_exists'.mp hfuel
  have hsearch : Regex.searchWhole _ ['b'] _ (0, [none, none, none, none]) = some _ :=
    (Regex.exec_compile rfl (by decide) _).mp ⟨fuel, by rw [Regex.exec, hr]; rfl⟩
  cases hsearch

end NanoBpm.FeelExpr
