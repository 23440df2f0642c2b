import NanoBpm.Feel.RegexFinds

/-!
# The matches of a text

`find_all`, `split` and `replace_all` each have a loop of their own. The first two come to the same matches; the third one
comes twice to an empty match that lies ahead of where it searches from.
-/

namespace NanoBpm.FeelExpr

/-- A match, with the place it was searched from. -/
structure Match where
  pos : Nat
  start : Nat
  stop : Nat
  caps : Captures

namespace Match

def text (input : List Char) (m : Match) : List Char := Regex.slice input m.start m.stop

def isEmpty (m : Match) : Bool := m.start == m.stop

/-- An empty match ahead of where it was searched from. -/
def ahead (m : Match) : Bool := m.pos < m.start && m.isEmpty

end Match

/-- What stands between the matches, with something in the place of each. -/
def interleave (input : List Char) (f : Match → List Char) : Nat → List Match → List Char
  | last, [] => input.drop last
  | last, m :: rest => Regex.slice input last m.start ++ f m ++ interleave input f m.stop rest

/-- The pieces between the matches. -/
def cut (input : List Char) : Nat → List Match → List (List Char)
  | last, [] => [input.drop last]
  | last, m :: rest => Regex.slice input last m.start :: cut input m.stop rest

/-- Pieces and what was between them, in turns. -/
def weave : List (List Char) → List (List Char) → List Char
  | piece :: pieces, text :: texts => piece ++ text ++ weave pieces texts
  | pieces, _ => pieces.flatten

/-- The matches lie in the text, one after the other. -/
def Ordered (limit : Nat) : Nat → List Match → Prop
  | _, [] => True
  | last, m :: rest => last ≤ m.start ∧ m.start ≤ m.stop ∧ m.stop ≤ limit ∧ Ordered limit m.stop rest

theorem Ordered.mono {limit : Nat} {last last' : Nat} (hle : last' ≤ last) {ms : List Match}
    (h : Ordered limit last ms) : Ordered limit last' ms := by
  cases ms with
  | nil => trivial
  | cons m rest => exact ⟨hle.trans h.1, h.2⟩

theorem Ordered.filter {limit : Nat} {last : Nat} {ms : List Match} (f : Match → Bool) (h : Ordered limit last ms) :
    Ordered limit last (ms.filter f) := by
  induction ms generalizing last with
  | nil => trivial
  | cons m rest ih =>
    obtain ⟨hlast, hle, hlimit, hrest⟩ := h
    rw [List.filter_cons]
    split
    · exact ⟨hlast, hle, hlimit, ih hrest⟩
    · exact (ih hrest).mono (hlast.trans hle)

section Texts

variable {input : List Char}

theorem slice_append_drop {s e : Nat} (hse : s ≤ e) : Regex.slice input s e ++ input.drop e = input.drop s := by
  obtain ⟨d, rfl⟩ := Nat.exists_eq_add_of_le hse
  unfold Regex.slice
  rw [List.drop_take, Nat.add_sub_cancel_left, ← List.drop_drop, List.take_append_drop]

theorem slice_append_slice {s m e : Nat} (hsm : s ≤ m) (hme : m ≤ e) :
    Regex.slice input s m ++ Regex.slice input m e = Regex.slice input s e := by
  have h : Regex.slice (input.take e) s m ++ (input.take e).drop m = _ := slice_append_drop hsm
  unfold Regex.slice at h ⊢
  rwa [List.take_take, Nat.min_eq_left hme] at h

@[simp] theorem slice_self (s : Nat) : Regex.slice input s s = [] := by simp [Regex.slice]

/-- Nothing is lost, and nothing is there twice. -/
theorem weave_cut {limit last : Nat} {ms : List Match} (h : Ordered limit last ms) :
    weave (cut input last ms) (ms.map (Match.text input)) = input.drop last := by
  induction ms generalizing last with
  | nil => simp [weave, cut]
  | cons m rest ih =>
    obtain ⟨hlast, hle, _, hrest⟩ := h
    rw [cut, List.map_cons, weave, ih hrest, Match.text, List.append_assoc, slice_append_drop hle, slice_append_drop hlast]

theorem interleave_skip {limit last pos : Nat} (f : Match → List Char) {ms : List Match} (hle : last ≤ pos)
    (h : Ordered limit pos ms) :
    interleave input f last ms = Regex.slice input last pos ++ interleave input f pos ms := by
  cases ms with
  | nil => exact (slice_append_drop hle).symm
  | cons m rest =>
    rw [interleave, interleave, ← slice_append_slice hle h.1]
    simp only [List.append_assoc]

/-- What is put in the place of the matches adds to the length. -/
theorem length_interleave_append (f g : Match → List Char) (last : Nat) (ms : List Match) :
    (interleave input (fun m => f m ++ g m) last ms).length =
      (interleave input f last ms).length + (ms.map fun m => (g m).length).sum := by
  induction ms generalizing last with
  | nil => simp [interleave]
  | cons m rest ih =>
    simp only [interleave, List.length_append, ih, List.map_cons, List.sum_cons]
    omega

/-- The text is another one where anything is added at all. -/
theorem interleave_append_eq_iff (f g : Match → List Char) (last : Nat) (ms : List Match) :
    interleave input (fun m => f m ++ g m) last ms = interleave input f last ms ↔ ∀ m ∈ ms, g m = [] := by
  constructor
  · intro heq
    have hlength := @length_interleave_append input f g last ms
    rw [heq] at hlength
    have hsum : (ms.map fun m => (g m).length).sum = 0 := by omega
    intro m hm
    have hzero := List.sum_eq_zero_iff_forall_eq_nat.mp hsum _ (List.mem_map_of_mem hm)
    exact List.eq_nil_of_length_eq_zero hzero
  · intro hnil
    induction ms generalizing last with
    | nil => rfl
    | cons m rest ih =>
      rw [interleave, interleave, hnil m List.mem_cons_self, List.append_nil,
        ih m.stop fun m' hm' => hnil m' (List.mem_cons_of_mem _ hm')]

end Texts

namespace Regex

variable [Unicode] [Casing]

/-- The matches that `find_all` comes to. -/
def matchesFrom (re : Regex) (input : List Char) (fuel : Nat) : Nat → Nat → Option (List Match)
  | 0, _ => some []
  | turns + 1, pos =>
    if pos > input.length then some []
    else
      match re.find input fuel pos with
      | none => none
      | some none => some []
      | some (some caps) =>
        match whole caps with
        | none => none
        | some (s, e) =>
          (matchesFrom re input fuel turns (if e > s then e else s + 1)).map (⟨pos, s, e, caps⟩ :: ·)

def allMatches (re : Regex) (input : List Char) (fuel : Nat) : Option (List Match) :=
  re.matchesFrom input fuel (input.length + 1) 0

variable {re : Regex} {input : List Char} {fuel : Nat}

theorem findAllFrom_eq (turns pos : Nat) :
    re.findAllFrom input fuel turns pos = (re.matchesFrom input fuel turns pos).map (List.map (Match.text input)) := by
  induction turns generalizing pos with
  | zero => rfl
  | succ turns ih =>
    rw [findAllFrom, matchesFrom]
    split
    · rfl
    · rcases re.find input fuel pos with _ | _ | caps
      · rfl
      · rfl
      · rcases hwhole : whole caps with _ | ⟨s, e⟩
        · simp [hwhole]
        · simp [hwhole, ih]
          rcases re.matchesFrom input fuel turns _ <;> rfl

/-- What a turn comes to: a match at or after the place, from which the next turn goes on. -/
def Sound (re : Regex) (input : List Char) (fuel : Nat) : Prop :=
  ∀ pos caps, re.find input fuel pos = some (some caps) →
    ∃ s e, whole caps = some (s, e) ∧ pos ≤ s ∧ s ≤ e ∧ e ≤ input.length ∧ re.find input fuel s = some (some caps)

section Turns

variable (hsound : Sound re input fuel)

include hsound

theorem matchesFrom_ordered (turns pos : Nat) {ms : List Match} (h : re.matchesFrom input fuel turns pos = some ms) :
    Ordered input.length pos ms := by
  induction turns generalizing pos ms with
  | zero =>
    cases h
    trivial
  | succ turns ih =>
    rw [matchesFrom] at h
    split at h
    · cases h
      trivial
    · split at h
      · cases h
      · cases h
        trivial
      · rename_i caps hfind
        obtain ⟨s, e, hwhole, hs, hse, he, _⟩ := hsound pos caps hfind
        rw [hwhole] at h
        obtain ⟨rest, hrest, rfl⟩ := Option.map_eq_some_iff.mp h
        refine ⟨hs, hse, he, (ih _ hrest).mono ?_⟩
        dsimp only
        split <;> omega

theorem splitFrom_eq (turns last pos : Nat) :
    re.splitFrom input fuel turns last pos =
      (re.matchesFrom input fuel turns pos).map fun ms => cut input last (ms.filter fun m => !m.isEmpty) := by
  induction turns generalizing last pos with
  | zero => rfl
  | succ turns ih =>
    rw [splitFrom, matchesFrom]
    split
    · rfl
    · rcases hfind : re.find input fuel pos with _ | _ | caps
      · rfl
      · rfl
      · obtain ⟨s, e, hwhole, hs, hse, he, _⟩ := hsound pos caps hfind
        by_cases hempty : e = s
        · subst hempty
          simp [hwhole, ih, Match.isEmpty, Function.comp_def]
        · have hlt : e > s := by omega
          simp [hwhole, hempty, hlt, ih, Match.isEmpty, Function.comp_def, Ne.symm hempty, cut]
          rcases re.matchesFrom input fuel turns e <;> rfl

/-- What `replace_all` puts in the place of a match: an empty match ahead is found once more from where it is. -/
def doubled (input replacement : List Char) (m : Match) : List Char :=
  expand input m.caps replacement ++ if m.ahead then expand input m.caps replacement else []

omit hsound in
theorem replaceFrom_beyond (replacement : List Char) (turns : Nat) {pos : Nat} (h : input.length < pos) :
    re.replaceFrom input fuel replacement turns pos = some [] := by
  cases turns with
  | zero => rfl
  | succ turns => simp [replaceFrom, h]

omit hsound in
theorem matchesFrom_beyond (turns : Nat) {pos : Nat} (h : input.length < pos) :
    re.matchesFrom input fuel turns pos = some [] := by
  cases turns with
  | zero => rfl
  | succ turns => simp [matchesFrom, h]

omit hsound in
/-- A turn of `replace_all` that finds a match. -/
theorem replaceFrom_found (replacement : List Char) (turns : Nat) {pos s e : Nat} {caps : Captures}
    (hpos : pos ≤ input.length) (hfind : re.find input fuel pos = some (some caps)) (hwhole : whole caps = some (s, e)) :
    re.replaceFrom input fuel replacement (turns + 1) pos =
      if e > pos then
        (re.replaceFrom input fuel replacement turns e).map fun rest =>
          slice input pos s ++ expand input caps replacement ++ rest
      else
        (re.replaceFrom input fuel replacement turns (s + 1)).map fun rest =>
          slice input pos s ++ expand input caps replacement ++ slice input s (s + 1) ++ rest := by
  rw [replaceFrom, if_neg (not_lt.mpr hpos)]
  simp only [hfind, hwhole, Option.bind_eq_bind, Option.bind_some]
  split
  · rcases re.replaceFrom input fuel replacement turns e <;> rfl
  · rcases re.replaceFrom input fuel replacement turns (s + 1) <;> rfl

/-- After an empty match the character at its place goes before the rest. -/
theorem interleave_matches (f : Match → List Char) {turns s : Nat} {ms : List Match}
    (h : re.matchesFrom input fuel turns (s + 1) = some ms) :
    interleave input f s ms = slice input s (s + 1) ++ interleave input f (s + 1) ms :=
  interleave_skip f (Nat.le_succ s) (matchesFrom_ordered hsound _ _ h)

theorem replaceFrom_eq (replacement : List Char) (turns turns' pos : Nat) (hturns : input.length < turns + pos)
    (hturns' : input.length < turns' + pos) :
    re.replaceFrom input fuel replacement turns' pos =
      (re.matchesFrom input fuel turns pos).map (interleave input (doubled input replacement) pos) := by
  induction turns generalizing turns' pos with
  | zero =>
    rw [replaceFrom_beyond _ _ (by omega), matchesFrom_beyond _ (by omega), Option.map_some, interleave,
      List.drop_eq_nil_of_le (by omega)]
  | succ turns ih =>
    rcases Nat.lt_or_ge input.length pos with hpos | hpos
    · rw [replaceFrom_beyond _ _ hpos, matchesFrom_beyond _ hpos, Option.map_some, interleave,
        List.drop_eq_nil_of_le hpos.le]
    obtain ⟨turns', rfl⟩ : ∃ n, turns' = n + 1 := ⟨turns' - 1, by omega⟩
    rcases hfind : re.find input fuel pos with _ | _ | caps
    · simp [replaceFrom, matchesFrom, hfind, not_lt.mpr hpos]
    · simp [replaceFrom, matchesFrom, hfind, not_lt.mpr hpos, interleave]
    obtain ⟨s, e, hwhole, hs, hse, he, hagain⟩ := hsound pos caps hfind
    have hturn : re.matchesFrom input fuel (turns + 1) pos =
        (re.matchesFrom input fuel turns (if e > s then e else s + 1)).map (⟨pos, s, e, caps⟩ :: ·) := by
      rw [matchesFrom, if_neg (not_lt.mpr hpos), hfind]
      simp only [hwhole]
    rw [replaceFrom_found _ _ hpos hfind hwhole, hturn, Option.map_map]
    rcases Nat.eq_or_lt_of_le hse with rfl | hlt
    · rw [if_neg (Nat.lt_irrefl s)]
      have hnext (turns' : Nat) (h : input.length < turns' + (s + 1)) := ih turns' (s + 1) (by omega) h
      rcases Nat.eq_or_lt_of_le hs with rfl | hahead
      · -- the match is where it was searched from
        rw [if_neg (Nat.lt_irrefl pos), hnext turns' (by omega)]
        rcases hms : re.matchesFrom input fuel turns (pos + 1) with _ | ms
        · rfl
        · have heq := interleave_matches hsound (doubled input replacement) hms
          simp [interleave, doubled, Match.ahead, heq]
      · -- it is found again, and only then passed over
        obtain ⟨turns'', rfl⟩ : ∃ n, turns' = n + 1 := ⟨turns' - 1, by omega⟩
        rw [if_pos hahead, replaceFrom_found _ _ he hagain hwhole, if_neg (Nat.lt_irrefl s), hnext turns'' (by omega)]
        rcases hms : re.matchesFrom input fuel turns (s + 1) with _ | ms
        · rfl
        · have heq := interleave_matches hsound (doubled input replacement) hms
          simp [interleave, doubled, Match.ahead, Match.isEmpty, hahead, heq]
    · rw [if_pos (show e > pos by omega), if_pos hlt, ih turns' e (by omega) (by omega)]
      rcases re.matchesFrom input fuel turns e with _ | ms
      · rfl
      · have hfull : Match.ahead ⟨pos, s, e, caps⟩ = false := by simp [Match.ahead, Match.isEmpty]; omega
        simp [interleave, doubled, hfull]

end Turns

theorem sound_of_new {pattern flags : String} (h : Regex.new pattern flags = some (some re)) : Sound re input fuel := by
  obtain ⟨p, _, hprog, hnumbered⟩ := Regex.new_spec h
  exact fun pos caps hcaps => find_whole hprog (Pattern.Numbered.mono (fun _ hn => hn.1) p hnumbered) hcaps

end Regex

/-- `find_all` and `split` go by the same matches, and `replace_all` too, except that it puts the replacement twice in the
place of an empty match ahead of where it was searched from. -/
theorem matches_agree [Unicode] [Casing] {pattern flags : String} {re : Regex}
    (h : Regex.new pattern flags = some (some re)) (input : List Char) (fuel : Nat) :
    re.findAll input fuel = (re.allMatches input fuel).map (List.map (Match.text input)) ∧
      re.split input fuel = (re.allMatches input fuel).map (fun ms => cut input 0 (ms.filter fun m => !m.isEmpty)) ∧
      (∀ ms, re.allMatches input fuel = some ms → Ordered input.length 0 ms ∧
        weave (cut input 0 (ms.filter fun m => !m.isEmpty)) ((ms.filter fun m => !m.isEmpty).map (Match.text input)) =
          input) ∧
      ∀ replacement, (re.replaceAll input fuel replacement = none ↔ re.allMatches input fuel = none) ∧
        ∀ ms, re.allMatches input fuel = some ms →
          (re.replaceAll input fuel replacement =
              some (interleave input (fun m => Regex.expand input m.caps replacement) 0 ms) ↔
            ∀ m ∈ ms, m.ahead = true → Regex.expand input m.caps replacement = []) := by
  have hsound : Regex.Sound re input fuel := Regex.sound_of_new h
  refine ⟨Regex.findAllFrom_eq _ _, Regex.splitFrom_eq hsound _ _ _, fun ms hms => ?_, fun replacement => ?_⟩
  · have hordered := Regex.matchesFrom_ordered hsound _ _ hms
    exact ⟨hordered, weave_cut (hordered.filter _)⟩
  · have hreplace : re.replaceAll input fuel replacement =
        (re.allMatches input fuel).map (interleave input (Regex.doubled input replacement) 0) :=
      Regex.replaceFrom_eq hsound replacement _ _ 0 (Nat.lt_succ_self _) (Nat.lt_succ_self _)
    refine ⟨by rw [hreplace, Option.map_eq_none_iff], fun ms hms => ?_⟩
    rw [hreplace, hms, Option.map_some, Option.some.injEq]
    refine (interleave_append_eq_iff _ _ 0 ms).trans (forall₂_congr fun m _ => ?_)
    cases m.ahead <;> simp

theorem matches_agree_star : let _ := Unicode.ascii; let _ := Casing.ascii
    ∃ re, Regex.new "x*" "" = some (some re) ∧ ∃ ms, re.allMatches ['a', 'x', 'a'] 10 = some ms ∧ ms.length = 4 ∧
      ∀ replacement, re.replaceAll ['a', 'x', 'a'] 10 replacement =
        some (interleave ['a', 'x', 'a'] (fun m => Regex.expand ['a', 'x', 'a'] m.caps replacement) 0 ms) := by
  intro _ _
  have hnew : Regex.new "x*" "" = some (some
      { prog := Regex.compile (.star (.char 'x')), groups := 0, icase := false, dotall := false, multiline := false }) := rfl
  obtain ⟨_, _, _, hreplace⟩ := matches_agree hnew ['a', 'x', 'a'] 10
  refine ⟨_, hnew, [⟨0, 0, 0, [some (0, 0)]⟩, ⟨1, 1, 2, [some (1, 2)]⟩, ⟨2, 2, 2, [some (2, 2)]⟩,
    ⟨3, 3, 3, [some (3, 3)]⟩], rfl, rfl, fun replacement => ?_⟩
  refine ((hreplace replacement).2 _ rfl).mpr ?_
  simp [Match.ahead]

/-- The end of the text lies ahead, and gets the replacement twice. -/
theorem end_replaced_twice : let _ := Unicode.ascii; let _ := Casing.ascii
    ¬ ∀ pattern flags re, Regex.new pattern flags = some (some re) → ∀ input fuel replacement,
      re.findAll input fuel = (re.allMatches input fuel).map (List.map (Match.text input)) ∧
      re.split input fuel = (re.allMatches input fuel).map (fun ms => cut input 0 (ms.filter fun m => !m.isEmpty)) ∧
      re.replaceAll input fuel replacement = (re.allMatches input fuel).map
        (interleave input (fun m => Regex.expand input m.caps replacement) 0) := by
  intro _ _ hall
  have hnew : Regex.new "$" "" = some (some ⟨Regex.compile .stop, 0, false, false, false⟩) := rfl
  have hreplace := (hall _ _ _ hnew ['a', 'b'] 10 ['-']).2.2
  have hmatches : Regex.allMatches ⟨Regex.compile .stop, 0, false, false, false⟩ ['a', 'b'] 10 =
      some [⟨0, 2, 2, [some (2, 2)]⟩] := rfl
  have htwice : Regex.replaceAll ⟨Regex.compile .stop, 0, false, false, false⟩ ['a', 'b'] 10 ['-'] =
      some ['a', 'b', '-', '-'] := by
    have hsound : Regex.Sound _ ['a', 'b'] 10 := Regex.sound_of_new hnew
    unfold Regex.replaceAll
    rw [Regex.replaceFrom_eq hsound ['-'] 3 _ 0 (by decide) (by decide)]
    simp [show Regex.matchesFrom _ ['a', 'b'] 10 3 0 = _ from hmatches, interleave, Regex.doubled, Match.ahead,
      Match.isEmpty, Regex.expand, Regex.slice]
  rw [htwice, hmatches] at hreplace
  simp [interleave, Regex.expand, Regex.slice] at hreplace

end NanoBpm.FeelExpr
