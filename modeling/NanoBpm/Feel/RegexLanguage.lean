import NanoBpm.Feel.RegexReturns
import NanoBpm.Feel.RegexSyntax

/-!
# The language of a pattern

A written pattern denotes the places from which, and up to which, it can be read in a text. Where the matcher comes to an
end it finds something exactly if there are such places.
-/

namespace NanoBpm.FeelExpr.Source

open Backtrack (Covers Iterate)

section

variable [Unicode] [Casing] (re : Regex) (input : List Char)

/-- One character that passes the test. -/
def oneOf (f : Char → Bool) (i j : Nat) : Prop := ∃ c, input[i]? = some c ∧ f c = true ∧ j = i + 1

/-- As often as the quantifier says. -/
def Quantifier.Denotes (R : Nat → Nat → Prop) : Quantifier → Nat → Nat → Prop
  | quest => fun i j => R i j ∨ i = j
  | star => Relation.ReflTransGen R
  | plus => Relation.TransGen R
  | times n => Iterate R (natOf n)
  | atLeast n => fun i j => ∃ k, natOf n ≤ k ∧ Iterate R k i j
  | between n m => fun i j => ∃ k, natOf n ≤ k ∧ k ≤ natOf m ∧ Iterate R k i j

mutual

/-- The atom can be read between the two places. -/
def Atom.Denotes : Atom → Nat → Nat → Prop
  | .char c => oneOf input fun x => re.charEq x c
  | .brace => oneOf input fun x => re.charEq x '{'
  | .escape c => oneOf input fun x => re.itemMatch x (escapedItem c)
  | .any => oneOf input fun x => re.dotall || x != '\n'
  | .start => fun i j => i = j ∧ re.atStart input i = true
  | .stop => fun i j => i = j ∧ re.atEnd input i = true
  | .class' negated items => oneOf input fun x => items.any (fun part => re.itemMatch x part.item) != negated
  | .group _ branches => branches.Denotes

def Item.Denotes : Item → Nat → Nat → Prop
  | .bare atom => atom.Denotes
  | .repeated atom q _ => q.Denotes atom.Denotes

def Items.Denotes : Items → Nat → Nat → Prop
  | .nil => Eq
  | .cons item items => Relation.Comp item.Denotes items.Denotes

def Branches.Denotes : Branches → Nat → Nat → Prop
  | .one items => items.Denotes
  | .more items branches => fun i j => items.Denotes i j ∨ branches.Denotes i j

end

end

section

variable [Unicode] [Casing] {re : Regex} {input : List Char}

/-- What a search of the pattern covers. -/
def Searches (re : Regex) (input : List Char) (p : Pattern) (R : Nat → Nat → Prop) : Prop :=
  Covers Prod.fst (re.search input p) R

theorem covers_take (i : Inst) : Covers Prod.fst (re.take input i) (oneOf input fun x => re.takes x i) := by
  refine Covers.step fun s x => ?_
  unfold oneOf
  constructor
  · rintro ⟨c, hc, htakes, rfl⟩
    exact ⟨(s.1 + 1, s.2), by simp [hc, htakes], rfl⟩
  · rintro ⟨s', hs', rfl⟩
    split at hs'
    · rename_i htakes
      cases hs'
      obtain ⟨c, hc, htakes⟩ := (Option.any_eq_true _ _).mp htakes
      exact ⟨c, hc, htakes, rfl⟩
    · cases hs'

omit [Unicode] [Casing] in
theorem covers_test (b : Nat → Bool) : Covers Prod.fst (Regex.test b) fun i j => i = j ∧ b i = true := by
  refine Covers.step fun s x => ?_
  constructor
  · rintro ⟨rfl, hb⟩
    exact ⟨s, if_pos hb, rfl⟩
  · rintro ⟨s', hs', rfl⟩
    split at hs'
    · rename_i hb
      cases hs'
      exact ⟨rfl, hb⟩
    · cases hs'

omit [Unicode] [Casing] in
theorem covers_mark (slot : Nat) : Covers Prod.fst (Regex.mark slot) Eq :=
  Covers.step fun s x => ⟨fun h => ⟨(s.1, s.2.set slot (some s.1)), rfl, h⟩, fun ⟨_, hs', hx⟩ => by cases hs'; exact hx⟩

theorem covers_takes {i : Inst} {f : Char → Bool} (h : ∀ x, re.takes x i = f x) :
    Covers Prod.fst (re.take input i) (oneOf input f) := by
  rw [← funext h]
  exact covers_take i

/-- An escape means the same in a class and outside. -/
theorem covers_escape (c : Char) :
    Searches re input (escapeAtom c) (oneOf input fun x => re.itemMatch x (escapedItem c)) := by
  unfold escapeAtom
  split
  · exact covers_takes (i := .class' [.digit] false) fun x => by
      simp only [Regex.takes, Regex.classMatch, escapedItem, List.any_cons, List.any_nil, Bool.or_false, Bool.bne_false]
  · exact covers_takes (i := .class' [.digit] true) fun x => by
      simp only [Regex.takes, Regex.classMatch, escapedItem, Regex.itemMatch, List.any_cons, List.any_nil, Bool.or_false, Bool.bne_true]
  · exact covers_takes (i := .class' [.word] false) fun x => by
      simp only [Regex.takes, Regex.classMatch, escapedItem, List.any_cons, List.any_nil, Bool.or_false, Bool.bne_false]
  · exact covers_takes (i := .class' [.word] true) fun x => by
      simp only [Regex.takes, Regex.classMatch, escapedItem, Regex.itemMatch, List.any_cons, List.any_nil, Bool.or_false, Bool.bne_true]
  · exact covers_takes (i := .class' [.space] false) fun x => by
      simp only [Regex.takes, Regex.classMatch, escapedItem, List.any_cons, List.any_nil, Bool.or_false, Bool.bne_false]
  · exact covers_takes (i := .class' [.space] true) fun x => by
      simp only [Regex.takes, Regex.classMatch, escapedItem, Regex.itemMatch, List.any_cons, List.any_nil, Bool.or_false, Bool.bne_true]
  · exact covers_take (.char '\n')
  · exact covers_take (.char '\t')
  · exact covers_take (.char '\r')
  · rename_i hd hD hw hW hs hS hn ht hr
    have hother : escapedItem c = .single c := by
      unfold escapedItem
      split <;> first | rfl | contradiction
    rw [hother]
    exact covers_take (.char c)

theorem covers_quantifier {p : Pattern} {R : Nat → Nat → Prop} (h : Searches re input p R) {q : Quantifier} (hq : q.Written) :
    Searches re input (q.apply p) (q.Denotes R) := by
  cases q with
  | quest => exact Covers.alt h .skip
  | star => exact Covers.star h _
  | plus => exact Covers.plus h _
  | times n =>
    refine (Covers.seq (Covers.times h _) (Covers.times (Covers.alt h .skip) _)).congr fun x y => ?_
    rw [Nat.sub_self]
    exact ⟨fun ⟨_, hn, heq⟩ => heq ▸ hn, fun hn => ⟨y, hn, rfl⟩⟩
  | atLeast n =>
    refine (Covers.seq (Covers.times h _) (Covers.star h _)).congr fun x y => ?_
    constructor
    · rintro ⟨z, hn, hstar⟩
      obtain ⟨k, hk⟩ := (Backtrack.reflTransGen_iff_iterate R z y).mp hstar
      exact ⟨natOf n + k, Nat.le_add_right _ _, (Backtrack.iterate_add R _ _ x y).mpr ⟨z, hn, hk⟩⟩
    · rintro ⟨k, hle, hk⟩
      obtain ⟨d, rfl⟩ := Nat.exists_eq_add_of_le hle
      obtain ⟨z, hn, hd⟩ := (Backtrack.iterate_add R _ _ x y).mp hk
      exact ⟨z, hn, (Backtrack.reflTransGen_iff_iterate R z y).mpr ⟨d, hd⟩⟩
  | between n m =>
    refine (Covers.seq (Covers.times h _) (Covers.times (Covers.alt h .skip) _)).congr fun x y => ?_
    have hle : natOf n ≤ natOf m := hq.2.2
    constructor
    · rintro ⟨z, hn, hmore⟩
      obtain ⟨k, hk, hz⟩ := (Backtrack.iterate_or_eq R _ z y).mp hmore
      exact ⟨natOf n + k, Nat.le_add_right _ _, by omega, (Backtrack.iterate_add R _ _ x y).mpr ⟨z, hn, hz⟩⟩
    · rintro ⟨k, hnk, hkm, hk⟩
      obtain ⟨d, rfl⟩ := Nat.exists_eq_add_of_le hnk
      obtain ⟨z, hn, hd⟩ := (Backtrack.iterate_add R _ _ x y).mp hk
      exact ⟨z, hn, (Backtrack.iterate_or_eq R _ z y).mpr ⟨d, by omega, hd⟩⟩

theorem search_joined (ps : List Pattern) : re.search input (joined ps) = re.searchAll input ps := by
  rcases ps with _ | ⟨p, _ | ⟨q, ps⟩⟩ <;> rfl

theorem search_alternatives (ps : List Pattern) : re.search input (alternatives ps) = re.searchAlt input ps := by
  rcases ps with _ | ⟨p, _ | ⟨q, ps⟩⟩ <;> rfl

theorem searchAlt_cons (p : Pattern) (b : Branches) (groups : Nat) :
    re.searchAlt input (p :: (b.patterns groups).1) =
      Backtrack.alt (re.search input p) (re.searchAlt input (b.patterns groups).1) := by
  cases b <;> rfl

mutual

theorem covers_atom : ∀ (a : Atom) (groups : Nat) (rest : List Char), a.Written rest →
    Searches re input (a.pattern groups).1 (a.Denotes re input)
  | .char c, _, _, _ => covers_take (.char c)
  | .brace, _, _, _ => covers_take (.char '{')
  | .escape c, _, _, _ => covers_escape c
  | .any, _, _, _ => covers_take .any
  | .start, _, _, _ => covers_test _
  | .stop, _, _, _ => covers_test _
  | .class' negated items, _, _, _ => covers_takes (i := .class' _ _) fun x => by
    simp only [Regex.takes, Regex.classMatch, List.any_map]
    rfl
  | .group true b, groups, rest, h => by
    have hb := covers_branches b (groups + 1) (')' :: rest) h
    rw [← search_alternatives] at hb
    refine ((covers_mark _).seq (hb.seq (covers_mark _))).congr fun x y => ?_
    exact ⟨fun ⟨_, hx, _, hR, hy⟩ => hx ▸ hy ▸ hR, fun hR => ⟨x, rfl, y, hR, rfl⟩⟩
  | .group false b, groups, rest, h => by
    have hb := covers_branches b groups (')' :: rest) h
    rw [← search_alternatives] at hb
    exact hb

theorem covers_item : ∀ (i : Item) (groups : Nat) (rest : List Char), i.Written rest →
    Searches re input (i.pattern groups).1 (i.Denotes re input)
  | .bare a, groups, rest, h => covers_atom a groups rest h
  | .repeated a _ _, groups, _, h => covers_quantifier (covers_atom a groups _ h.1) h.2

theorem covers_items : ∀ (is : Items) (groups : Nat) (rest : List Char), is.Written rest →
    Covers Prod.fst (re.searchAll input (is.patterns groups).1) (is.Denotes re input)
  | .nil, _, _, _ => .skip
  | .cons i is, groups, rest, h => Covers.seq (covers_item i groups _ h.1) (covers_items is _ rest h.2)

theorem covers_branches : ∀ (b : Branches) (groups : Nat) (rest : List Char), b.Written rest →
    Covers Prod.fst (re.searchAlt input (b.patterns groups).1) (b.Denotes re input)
  | .one is, groups, rest, h => by
    have his := covers_items is groups rest h
    rw [← search_joined] at his
    exact his
  | .more is b, groups, rest, h => by
    have his := covers_items is groups _ h.1
    rw [← search_joined] at his
    have hb := covers_branches b (is.patterns groups).2 rest h.2
    rw [Branches.patterns]
    dsimp only
    rw [searchAlt_cons]
    exact his.alt hb

end

/-- What is found from a place is read from there, and where nothing is found nothing can be. -/
theorem searchWhole_iff {p : Pattern} {R : Nat → Nat → Prop} (h : Searches re input p R) {s : Place} {o : Option Slots}
    (ho : re.searchWhole input p s = some o) : o.isSome = true ↔ ∃ j, R s.1 j := by
  have hwhole := (covers_mark 0).seq (Covers.seq h (covers_mark 1))
  cases o with
  | none =>
    refine ⟨fun hsome => absurd hsome (by simp), ?_⟩
    rintro ⟨j, hj⟩
    obtain ⟨s', _, hk⟩ := hwhole.failed ho (x := j) ⟨s.1, rfl, j, hj, rfl⟩
    cases hk
  | some slots =>
    refine ⟨fun _ => ?_, fun _ => rfl⟩
    obtain ⟨s', ⟨_, hs, j, hj, _⟩, _⟩ := hwhole.found _ _ _ ho
    exact ⟨j, hs ▸ hj⟩

theorem seek_iff {p : Pattern} {R : Nat → Nat → Prop} (h : Searches re input p R) {tries start : Nat} {o : Option Slots}
    (ho : re.seek input p tries start = some o) : o.isSome = true ↔ ∃ i j, start ≤ i ∧ i < start + tries ∧ R i j := by
  induction tries generalizing start with
  | zero =>
    cases ho
    refine ⟨fun hsome => absurd hsome (by simp), ?_⟩
    rintro ⟨i, j, hle, hlt, _⟩
    omega
  | succ tries ih =>
    rw [Regex.seek] at ho
    obtain ⟨slots, hfound, rfl⟩ | ⟨hfailed, hrest⟩ := Backtrack.orElse_eq_some ho
    · obtain ⟨j, hj⟩ := (searchWhole_iff h hfound).mp rfl
      exact ⟨fun _ => ⟨start, j, le_rfl, by omega, hj⟩, fun _ => rfl⟩
    · rw [ih hrest]
      constructor
      · rintro ⟨i, j, hle, hlt, hR⟩
        exact ⟨i, j, by omega, by omega, hR⟩
      · rintro ⟨i, j, hle, hlt, hR⟩
        rcases Nat.eq_or_lt_of_le hle with rfl | hlater
        · have hsome := (searchWhole_iff h hfailed).mpr ⟨j, hR⟩
          cases hsome
        · exact ⟨i, j, hlater, by omega, hR⟩

end

/-- A written pattern whose braces and numbers the parser can read is accepted; and the matcher tells of a text whether
the pattern can be read in it, exactly where the search comes to no round of a loop that takes nothing. -/
theorem matches_iff_denotes [Unicode] [Casing] {b : Branches} (h : b.Written []) (hfits : b.Fits []) (flags : String) :
    ∃ re, Regex.new (String.ofList b.text) flags = some (some re) ∧
      ∀ input, (∃ fuel found, re.isMatch input fuel = some found ∧
          (found = true ↔ ∃ i j, i ≤ input.length ∧ b.Denotes re input i j)) ↔
        re.seek input (alternatives (b.patterns 0).1) (input.length + 1) 0 ≠ none := by
  refine ⟨_, new_text h hfits flags, fun input => ?_⟩
  have hsearches (re : Regex) : Searches re input (alternatives (b.patterns 0).1) (b.Denotes re input) := by
    have hb : Covers Prod.fst (re.searchAlt input (b.patterns 0).1) _ := covers_branches b 0 [] h
    rwa [← search_alternatives] at hb
  constructor
  · rintro ⟨fuel, found, hmatch, _⟩ hnone
    obtain ⟨caps, hcaps, rfl⟩ := Option.map_eq_some_iff.mp hmatch
    have hseek := (Regex.exists_find_iff rfl 0 caps).mp ⟨fuel, hcaps⟩
    rw [Nat.sub_zero, hnone] at hseek
    cases hseek
  · intro hsome
    obtain ⟨o, ho⟩ := Option.ne_none_iff_exists'.mp hsome
    obtain ⟨fuel, hfuel⟩ := (Regex.exists_find_iff rfl 0 _).mpr (by rw [Nat.sub_zero, ho]; rfl)
    refine ⟨fuel, o.isSome, ?_, ?_⟩
    · rw [Regex.isMatch, hfuel]
      cases o <;> rfl
    · rw [seek_iff (hsearches _) ho]
      constructor
      · rintro ⟨i, j, _, hlt, hR⟩
        exact ⟨i, j, by omega, hR⟩
      · rintro ⟨i, j, hle, hR⟩
        exact ⟨i, j, Nat.zero_le i, by omega, hR⟩

theorem matches_iff_denotes_pair : let _ := Unicode.ascii; let _ := Casing.ascii
    let b := Branches.one (.cons (.repeated (.group true (.more (.cons (.bare (.char 'a')) .nil) (.one (.cons (.bare .any) .nil))))
      (.between ['1'] ['2']) false) .nil)
    ∃ re, Regex.new "(a|.){1,2}" "i" = some (some re) ∧
      ∀ input, (∃ fuel found, re.isMatch input fuel = some found ∧
          (found = true ↔ ∃ i j, i ≤ input.length ∧ b.Denotes re input i j)) ↔
        re.seek input (alternatives (b.patterns 0).1) (input.length + 1) 0 ≠ none := by
  intro _ _ b
  have hdigit (d : Char) (hd : d.isDigit = true) : Number [d] := ⟨by simp, by simpa using hd⟩
  have ha : Plain 'a' := by decide
  have hwritten : b.Written [] :=
    ⟨⟨⟨⟨ha, trivial⟩, trivial, trivial⟩, hdigit '1' rfl, hdigit '2' rfl, by decide⟩, trivial⟩
  have hfits : b.Fits [] :=
    ⟨⟨⟨⟨⟨trivial, fun _ h => by cases h⟩, trivial⟩, ⟨trivial, fun _ h => by cases h⟩, trivial⟩, by decide, by decide⟩, trivial⟩
  exact matches_iff_denotes hwritten hfits "i"

/-- The brace is left out where what follows it is no number. -/
theorem brace_left_out : let _ := Unicode.ascii; let _ := Casing.ascii
    ¬ ∀ (b : Branches) (flags : String), b.Written [] → Regex.new (String.ofList b.text) flags = some none ∨
      ∃ re, Regex.new (String.ofList b.text) flags = some (some re) ∧ ∀ input, ∃ fuel found,
        re.isMatch input fuel = some found ∧ (found = true ↔ ∃ i j, i ≤ input.length ∧ b.Denotes re input i j) := by
  intro _ _ hall
  have hbrace : ¬ BeginsQuantifier ['x', '}'] := by
    have hnumber {n rest : List Char} (hn : Number n) (h : n ++ rest = ['x', '}']) : False := by
      rcases n with _ | ⟨d, n⟩
      · exact hn.1 rfl
      · obtain rfl := (List.cons.inj h).1
        exact absurd (hn.2 _ List.mem_cons_self) (by decide)
    rintro ⟨q, rest, hq, heq⟩
    cases q with
    | quest => simp [Quantifier.text] at heq
    | star => simp [Quantifier.text] at heq
    | plus => simp [Quantifier.text] at heq
    | times n => exact hnumber hq (by simpa [Quantifier.text] using heq)
    | atLeast n => exact hnumber hq (by simpa [Quantifier.text] using heq)
    | between n m => exact hnumber hq.1 (by simpa [Quantifier.text] using heq)
  have ha : Plain 'a' := by decide
  have hx : Plain 'x' := by decide
  have hclose : Plain '}' := by decide
  have hnew : Regex.new (String.ofList ['a', '{', 'x', '}']) "" = some (some
      ⟨Regex.compile (.concat [.char 'a', .char 'x', .char '}']), 0, false, false, false⟩) := rfl
  rcases hall (.one (.cons (.bare (.char 'a')) (.cons (.bare .brace) (.cons (.bare (.char 'x')) (.cons (.bare (.char '}'))
    .nil))))) "" ⟨ha, hbrace, hx, hclose, trivial⟩ with hrejected | ⟨re, hre, hmatch⟩
  · cases hnew.symm.trans hrejected
  · cases hnew.symm.trans hre
    obtain ⟨fuel, found, hfuel, hiff⟩ := hmatch ['a', 'x', '}']
    obtain ⟨caps, hcaps, rfl⟩ := Option.map_eq_some_iff.mp hfuel
    have hfound := Regex.find_mono (Nat.le_max_left fuel 10) hcaps
    have hten : Regex.find ⟨Regex.compile (.concat [.char 'a', .char 'x', .char '}']), 0, false, false, false⟩
        ['a', 'x', '}'] 10 0 = some (some [some (0, 3)]) := rfl
    rw [Regex.find_mono (Nat.le_max_right fuel 10) hten] at hfound
    cases hfound
    obtain ⟨i, j, hi, k, ⟨c, _, _, rfl⟩, k', ⟨c', hc', hopen, rfl⟩, _⟩ := hiff.mp rfl
    rcases i with _ | _ | i
    · cases hc'
      cases hopen
    · cases hc'
      cases hopen
    · simp at hc'

end NanoBpm.FeelExpr.Source
