import NanoBpm.Feel.RegexParses

/-!
# Patterns as they are written

A pattern is a tree of branches, items and atoms with a text. What the parser reads from the text is the pattern of the
tree, where the numbers of the quantifiers fit in a word and a brace that opens none is followed by what the attempt to
read a quantifier gives back.
-/

namespace NanoBpm.FeelExpr.Source

open Descent

/-- An item of a class. -/
inductive ClassText where
  | escape (c : Char)
  | single (c : Char)
  | range (lo hi : Char)

namespace ClassText

def text : ClassText → List Char
  | escape c => ['\\', c]
  | single c => [c]
  | range lo hi => [lo, '-', hi]

def item : ClassText → ClassItem
  | escape c => escapedItem c
  | single c => .single c
  | range lo hi => .range lo hi

/-- The items stand apart: no bracket closes the class, and no single character begins a range. -/
def Written : List ClassText → Prop
  | [] => True
  | .escape _ :: rest => Written rest
  | .single c :: rest => c ≠ ']' ∧ c ≠ '\\' ∧ (∀ x u, rest.flatMap text ≠ '-' :: x :: u) ∧ Written rest
  | .range lo hi :: rest => lo ≠ ']' ∧ lo ≠ '\\' ∧ hi ≠ ']' ∧ Written rest

end ClassText

/-- A quantifier, with its numbers as digits. -/
inductive Quantifier where
  | quest
  | star
  | plus
  | times (n : List Char)
  | atLeast (n : List Char)
  | between (n m : List Char)

/-- A number of a quantifier. -/
def Number (ds : List Char) : Prop := ds ≠ [] ∧ ∀ c ∈ ds, c.isDigit = true

namespace Quantifier

def text : Quantifier → List Char
  | quest => ['?']
  | star => ['*']
  | plus => ['+']
  | times n => '{' :: n ++ ['}']
  | atLeast n => '{' :: n ++ [',', '}']
  | between n m => '{' :: n ++ ',' :: m ++ ['}']

def Written : Quantifier → Prop
  | quest | star | plus => True
  | times n | atLeast n => Number n
  | between n m => Number n ∧ Number m ∧ natOf n ≤ natOf m

/-- The numbers fit in a word. -/
def Fits : Quantifier → Prop
  | quest | star | plus => True
  | times n | atLeast n => natOf n < 2 ^ 64
  | between n m => natOf n < 2 ^ 64 ∧ natOf m < 2 ^ 64

def apply (p : Pattern) : Quantifier → Pattern
  | quest => .quest p
  | star => .star p
  | plus => .plus p
  | times n => .repeat' p (natOf n) (some (natOf n))
  | atLeast n => .repeat' p (natOf n) none
  | between n m => .repeat' p (natOf n) (some (natOf m))

end Quantifier

mutual

inductive Atom where
  | char (c : Char)
  /-- A brace that opens no quantifier. -/
  | brace
  | escape (c : Char)
  | any
  | start
  | stop
  | class' (negated : Bool) (items : List ClassText)
  | group (capturing : Bool) (branches : Branches)

inductive Item where
  | bare (atom : Atom)
  | repeated (atom : Atom) (quantifier : Quantifier) (isLazy : Bool)

inductive Items where
  | nil
  | cons (item : Item) (rest : Items)

inductive Branches where
  | one (items : Items)
  | more (items : Items) (rest : Branches)

end

/-! ## Texts -/

def mark (isLazy : Bool) : List Char := if isLazy then ['?'] else []

mutual

def Atom.text : Atom → List Char
  | .char c => [c]
  | .brace => ['{']
  | .escape c => ['\\', c]
  | .any => ['.']
  | .start => ['^']
  | .stop => ['$']
  | .class' true items => '[' :: '^' :: items.flatMap ClassText.text ++ [']']
  | .class' false items => '[' :: items.flatMap ClassText.text ++ [']']
  | .group true branches => '(' :: branches.text ++ [')']
  | .group false branches => '(' :: '?' :: ':' :: branches.text ++ [')']

def Item.text : Item → List Char
  | .bare atom => atom.text
  | .repeated atom q isLazy => atom.text ++ q.text ++ mark isLazy

def Items.text : Items → List Char
  | .nil => []
  | .cons item rest => item.text ++ rest.text

def Branches.text : Branches → List Char
  | .one items => items.text
  | .more items rest => items.text ++ '|' :: rest.text

end

/-- A character that stands for itself. -/
def Plain (c : Char) : Prop := c ∉ ['\\', '(', ')', '[', '.', '^', '$', '|', '*', '+', '?', '{']

instance (c : Char) : Decidable (Plain c) := inferInstanceAs (Decidable (c ∉ _))

/-- After a brace, a quantifier and its end. -/
def BeginsQuantifier (text : List Char) : Prop :=
  ∃ q rest, Quantifier.Written q ∧ q.text ++ rest = '{' :: text

mutual

/-- The text says what the tree does; `rest` is what comes after it. -/
def Atom.Written (rest : List Char) : Atom → Prop
  | .char c => Plain c
  | .brace => ¬ BeginsQuantifier rest
  | .escape _ | .any | .start | .stop => True
  | .class' negated items =>
    ClassText.Written items ∧ (negated = false → (items.flatMap ClassText.text).head? ≠ some '^')
  | .group _ branches => branches.Written (')' :: rest)

def Item.Written (rest : List Char) : Item → Prop
  | .bare atom => atom.Written rest
  | .repeated atom q isLazy => atom.Written (q.text ++ mark isLazy ++ rest) ∧ q.Written

def Items.Written (rest : List Char) : Items → Prop
  | .nil => True
  | .cons item items => item.Written (items.text ++ rest) ∧ items.Written rest

def Branches.Written (rest : List Char) : Branches → Prop
  | .one items => items.Written rest
  | .more items branches => items.Written ('|' :: branches.text ++ rest) ∧ branches.Written rest

end

/-- What the attempt at a quantifier gives back, after the brace: a number that fits in a word, or a comma with or without
such a number before it and after it, and no brace that closes. -/
def givenBack (text : List Char) : Bool :=
  match text.dropWhile Char.isDigit with
  | ',' :: rest =>
    natOf (rest.takeWhile Char.isDigit) < 2 ^ 64 && (rest.dropWhile Char.isDigit).head? != some '}'
  | rest =>
    !(text.takeWhile Char.isDigit).isEmpty && natOf (text.takeWhile Char.isDigit) < 2 ^ 64 && rest.head? != some '}'

mutual

/-- The numbers fit in a word, and after an atom a brace that opens no quantifier is given back. -/
def Atom.Fits (rest : List Char) : Atom → Prop
  | .char _ | .brace | .escape _ | .any | .start | .stop | .class' _ _ => True
  | .group _ branches => branches.Fits (')' :: rest)

def Item.Fits (rest : List Char) : Item → Prop
  | .bare atom => atom.Fits rest ∧ ∀ text, rest = '{' :: text → givenBack text = true
  | .repeated atom q isLazy => atom.Fits (q.text ++ mark isLazy ++ rest) ∧ q.Fits

def Items.Fits (rest : List Char) : Items → Prop
  | .nil => True
  | .cons item items => item.Fits (items.text ++ rest) ∧ items.Fits rest

def Branches.Fits (rest : List Char) : Branches → Prop
  | .one items => items.Fits rest
  | .more items branches => items.Fits ('|' :: branches.text ++ rest) ∧ branches.Fits rest

end

/-! ## Patterns -/

def joined : List Pattern → Pattern
  | [] => .empty
  | [p] => p
  | ps => .concat ps

def alternatives : List Pattern → Pattern
  | [p] => p
  | ps => .alt ps

mutual

/-- The pattern, and the number of groups up to its end. -/
def Atom.pattern (groups : Nat) : Atom → Pattern × Nat
  | .char c => (.char c, groups)
  | .brace => (.char '{', groups)
  | .escape c => (escapeAtom c, groups)
  | .any => (.any, groups)
  | .start => (.start, groups)
  | .stop => (.stop, groups)
  | .class' negated items => (.class' (items.map ClassText.item) negated, groups)
  | .group true branches =>
    let (ps, last) := branches.patterns (groups + 1)
    (.group (some (groups + 1)) (alternatives ps), last)
  | .group false branches =>
    let (ps, last) := branches.patterns groups
    (.group none (alternatives ps), last)

def Item.pattern (groups : Nat) : Item → Pattern × Nat
  | .bare atom => atom.pattern groups
  | .repeated atom q _ =>
    let (p, last) := atom.pattern groups
    (q.apply p, last)

def Items.patterns (groups : Nat) : Items → List Pattern × Nat
  | .nil => ([], groups)
  | .cons item items =>
    let (p, between) := item.pattern groups
    let (ps, last) := items.patterns between
    (p :: ps, last)

def Branches.patterns (groups : Nat) : Branches → List Pattern × Nat
  | .one items =>
    let (ps, last) := items.patterns groups
    ([joined ps], last)
  | .more items branches =>
    let (ps, between) := items.patterns groups
    let (rest, last) := branches.patterns between
    (joined ps :: rest, last)

end

/-! ## What the parser reads -/

theorem span_digits {ds : List Char} (hds : ∀ c ∈ ds, c.isDigit = true) {e : Char} (he : e.isDigit = false)
    (rest : List Char) :
    (ds ++ e :: rest).takeWhile Char.isDigit = ds ∧ (ds ++ e :: rest).dropWhile Char.isDigit = e :: rest := by
  rw [List.takeWhile_append_of_pos hds, List.dropWhile_append_of_pos hds]
  simp [he]

theorem parseUsize_number {ds : List Char} (hds : Number ds) (hfits : natOf ds < 2 ^ 64) :
    parseUsize ds = some (natOf ds) := by
  unfold parseUsize
  rw [if_neg]
  simpa [hds.1] using hfits

theorem parseRepeat_times {n : List Char} (hn : Number n) (hfits : natOf n < 2 ^ 64) (rest : List Char) :
    parseRepeat ('{' :: n ++ '}' :: rest) = (some (natOf n, some (natOf n)), rest) := by
  obtain ⟨htake, hdrop⟩ := span_digits hn.2 (e := '}') rfl rest
  unfold parseRepeat
  simp [htake, hdrop, parseUsize_number hn hfits, closeRepeat]

theorem parseRepeat_atLeast {n : List Char} (hn : Number n) (hfits : natOf n < 2 ^ 64) (rest : List Char) :
    parseRepeat ('{' :: n ++ ',' :: '}' :: rest) = (some (natOf n, none), rest) := by
  obtain ⟨htake, hdrop⟩ := span_digits hn.2 (e := ',') rfl ('}' :: rest)
  unfold parseRepeat
  simp [htake, hdrop, parseUsize_number hn hfits, closeRepeat]

theorem parseRepeat_between {n m : List Char} (hn : Number n) (hm : Number m) (hfits : natOf n < 2 ^ 64)
    (hfits' : natOf m < 2 ^ 64) (rest : List Char) :
    parseRepeat ('{' :: n ++ ',' :: m ++ '}' :: rest) = (some (natOf n, some (natOf m)), rest) := by
  obtain ⟨htake, hdrop⟩ := span_digits hn.2 (e := ',') rfl (m ++ '}' :: rest)
  obtain ⟨htake', hdrop'⟩ := span_digits hm.2 (e := '}') rfl rest
  unfold parseRepeat
  simp [htake, hdrop, htake', hdrop', parseUsize_number hn hfits, parseUsize_number hm hfits', hm.1, closeRepeat]

theorem closeRepeat_none {save : List Char} {lo : Nat} {hi : Option Nat} {rest : List Char}
    (h : rest.head? ≠ some '}') : closeRepeat save lo hi rest = (none, save) := by
  unfold closeRepeat
  split
  · exact absurd rfl h
  · rfl

theorem givenBack_comma {text rest : List Char} (h : text.dropWhile Char.isDigit = ',' :: rest) :
    givenBack text =
      (natOf (rest.takeWhile Char.isDigit) < 2 ^ 64 && (rest.dropWhile Char.isDigit).head? != some '}') := by
  unfold givenBack
  simp only [h]

theorem givenBack_other {text : List Char} (h : ∀ rest, text.dropWhile Char.isDigit ≠ ',' :: rest) :
    givenBack text = (!(text.takeWhile Char.isDigit).isEmpty && natOf (text.takeWhile Char.isDigit) < 2 ^ 64 &&
      (text.dropWhile Char.isDigit).head? != some '}') := by
  unfold givenBack
  split
  · rename_i rest hrest
    exact absurd hrest (h rest)
  · rfl

theorem parseRepeat_givenBack {text : List Char} (h : givenBack text = true) :
    parseRepeat ('{' :: text) = (none, '{' :: text) := by
  unfold parseRepeat
  dsimp only [List.tail_cons]
  split
  · rename_i rest hrest
    rw [givenBack_comma hrest] at h
    obtain ⟨hfits, hclose⟩ := (Bool.and_eq_true _ _).mp h
    have hhead : (rest.dropWhile Char.isDigit).head? ≠ some '}' := by simpa using hclose
    split
    · exact closeRepeat_none hhead
    · rename_i hmax
      rw [parseUsize, if_neg (by simpa [hmax] using hfits)]
      exact closeRepeat_none hhead
  · rename_i rest hrest
    rw [givenBack_other hrest] at h
    obtain ⟨hnumber, hclose⟩ := (Bool.and_eq_true _ _).mp h
    obtain ⟨hsome, hfits⟩ := (Bool.and_eq_true _ _).mp hnumber
    rw [parseUsize, if_neg (by simpa using And.intro (by simpa using hsome) (by simpa using hfits))]
    exact closeRepeat_none (by simpa using hclose)

theorem classItems_single {c : Char} (hclose : c ≠ ']') (hescape : c ≠ '\\') {rest : List Char}
    (hrange : ∀ hi rest', rest = '-' :: hi :: rest' → hi = ']') :
    classItems (c :: rest) = withItem (.single c) (classItems rest) := by
  rcases rest with _ | ⟨d, _ | ⟨hi, rest⟩⟩
  · simp [classItems, hescape]
  · simp [classItems, hescape]
  · by_cases hd : d = '-'
    · subst hd
      obtain rfl := hrange hi rest rfl
      simp [classItems]
    · simp [classItems, hescape, hd]

/-- The items of a class are read up to its bracket. -/
theorem classItems_texts {parts : List ClassText} (h : ClassText.Written parts) (rest : List Char) :
    classItems (parts.flatMap ClassText.text ++ ']' :: rest) = some (parts.map ClassText.item, rest) := by
  induction parts with
  | nil => simp [classItems]
  | cons part parts ih =>
    cases part with
    | escape c =>
      have hrest := ih h
      simp [ClassText.text, classItems, hrest, withItem, ClassText.item]
    | single c =>
      obtain ⟨hclose, hescape, hrange, hwritten⟩ := h
      rw [List.flatMap_cons, ClassText.text, List.append_assoc, List.singleton_append,
        classItems_single hclose hescape fun hi rest' heq => ?_, ih hwritten]
      · rfl
      · -- only the bracket can come after a hyphen
        generalize parts.flatMap ClassText.text = u at heq hrange
        rcases u with _ | ⟨d, _ | ⟨x, u⟩⟩
        · cases heq
        · cases heq
          rfl
        · cases heq
          exact absurd rfl (hrange hi u)
    | range lo hi =>
      obtain ⟨hclose, hescape, hhi, hwritten⟩ := h
      have hrest := ih hwritten
      simp [ClassText.text, classItems, hrest, withItem, ClassText.item, hhi]

/-! ### What an atom and an item begin with -/

/-- No quantifier, and no mark, follows. -/
def Continues (rest : List Char) : Prop := ∀ c ∈ rest.head?, c ≠ '*' ∧ c ≠ '+' ∧ c ≠ '?'

/-- A list of items ends here. -/
def Stops (rest : List Char) : Prop := ∀ c ∈ rest.head?, c = '|' ∨ c = ')'

theorem Stops.continues {rest : List Char} (h : Stops rest) : Continues rest := by
  intro c hc
  rcases h c hc with rfl | rfl <;> decide

theorem Atom.text_begins {rest : List Char} (a : Atom) (h : a.Written rest) :
    ∃ c text, a.text = c :: text ∧ c ≠ '*' ∧ c ≠ '+' ∧ c ≠ '?' ∧ c ≠ '|' ∧ c ≠ ')' := by
  cases a with
  | char c =>
    refine ⟨c, [], rfl, ?_⟩
    have hplain : Plain c := h
    simp only [Plain, List.mem_cons, List.not_mem_nil, or_false, not_or] at hplain
    tauto
  | class' negated items => cases negated <;> exact ⟨'[', _, rfl, by decide⟩
  | group capturing branches => cases capturing <;> exact ⟨'(', _, rfl, by decide⟩
  | _ => exact ⟨_, _, rfl, by decide⟩

theorem Item.text_begins {rest : List Char} (i : Item) (h : i.Written rest) :
    ∃ c text, i.text = c :: text ∧ c ≠ '*' ∧ c ≠ '+' ∧ c ≠ '?' ∧ c ≠ '|' ∧ c ≠ ')' := by
  cases i with
  | bare a => exact a.text_begins h
  | repeated a q isLazy =>
    obtain ⟨c, text, htext, hc⟩ := a.text_begins h.1
    exact ⟨c, text ++ q.text ++ mark isLazy, by simp [Item.text, htext], hc⟩

theorem Items.continues {rest : List Char} (is : Items) (h : is.Written rest) (hrest : Stops rest) :
    Continues (is.text ++ rest) := by
  cases is with
  | nil => exact hrest.continues
  | cons i is =>
    obtain ⟨c, text, htext, hstar, hplus, hquest, _⟩ := i.text_begins h.1
    intro c' hc'
    rw [Items.text, htext] at hc'
    cases hc'
    exact ⟨hstar, hplus, hquest⟩

/-! ### Reading -/

section

variable {atom : Nat → Reading (Pattern × Nat)}

theorem reads_peek (input : List Char) : Reads peek input input.head? input := rfl

theorem reads_next_cons (c : Char) (rest : List Char) : Reads (next : Reading (Option Char)) (c :: rest) (some c) rest := rfl

/-- A parser reads what is left to read after its first step. -/
theorem reads_step {α β : Type} {p : Reading α} {f : α → Reading β} {input between rest : List Char} {a : α} {b : β}
    (hp : Reads p input a between) (hf : Reads (f a) between b rest) : Reads (p >>= f) input b rest :=
  reads_bind.mpr ⟨a, between, hp, hf⟩

theorem reads_char {c : Char} (hc : Plain c) (groups : Nat) (rest : List Char) :
    Reads (atomLevel atom groups) (c :: rest) (.char c, groups) rest := by
  refine reads_step (reads_next_cons c rest) ?_
  split <;> rename_i heq <;> cases heq
  · exact absurd hc (by decide)
  · exact absurd hc (by decide)
  · exact absurd hc (by decide)
  · exact absurd hc (by decide)
  · exact absurd hc (by decide)
  · exact absurd hc (by decide)
  · exact reads_pure.mpr ⟨rfl, rfl⟩

theorem reads_brace (groups : Nat) (rest : List Char) :
    Reads (atomLevel atom groups) ('{' :: rest) (.char '{', groups) rest := rfl

theorem reads_escape (c : Char) (groups : Nat) (rest : List Char) :
    Reads (atomLevel atom groups) ('\\' :: c :: rest) (escapeAtom c, groups) rest := rfl

theorem reads_any (groups : Nat) (rest : List Char) : Reads (atomLevel atom groups) ('.' :: rest) (.any, groups) rest := rfl

theorem reads_start (groups : Nat) (rest : List Char) :
    Reads (atomLevel atom groups) ('^' :: rest) (.start, groups) rest := rfl

theorem reads_stop (groups : Nat) (rest : List Char) :
    Reads (atomLevel atom groups) ('$' :: rest) (.stop, groups) rest := rfl

theorem reads_classTail {parts : List ClassText} (h : ClassText.Written parts) (negated : Bool) (rest : List Char) :
    Reads (classTail negated) (parts.flatMap ClassText.text ++ ']' :: rest) (.class' (parts.map ClassText.item) negated)
      rest := by
  unfold Reads classTail
  rw [classItems_texts h]

theorem reads_class {parts : List ClassText} (h : ClassText.Written parts) {negated : Bool}
    (hcaret : negated = false → (parts.flatMap ClassText.text).head? ≠ some '^') (groups : Nat) (rest : List Char) :
    Reads (atomLevel atom groups) ((Atom.class' negated parts).text ++ rest)
      (.class' (parts.map ClassText.item) negated, groups) rest := by
  cases negated with
  | true =>
    rw [Atom.text, List.append_assoc, List.singleton_append]
    refine reads_step (reads_next_cons _ _) (reads_step ?_ (reads_pure.mpr ⟨rfl, rfl⟩))
    exact reads_step (reads_peek _) (reads_step rfl (reads_classTail h true rest))
  | false =>
    rw [Atom.text, List.append_assoc, List.singleton_append]
    refine reads_step (reads_next_cons _ _) (reads_step ?_ (reads_pure.mpr ⟨rfl, rfl⟩))
    refine reads_step (reads_peek _) ?_
    rw [if_neg]
    · exact reads_classTail h false rest
    · have hhead := hcaret rfl
      rw [List.append_eq, List.head?_append]
      cases hparts : (parts.flatMap ClassText.text).head? with
      | none => simp
      | some c =>
        rw [hparts] at hhead
        simpa using hhead

theorem reads_lazyMark (q : Pattern) (groups : Nat) (isLazy : Bool) {rest : List Char} (hrest : Continues rest) :
    Reads (lazyMark q groups) (mark isLazy ++ rest) (q, groups) rest := by
  cases isLazy with
  | true => rfl
  | false =>
    refine reads_step (reads_peek rest) ?_
    rw [if_neg]
    · exact reads_pure.mpr ⟨rfl, rfl⟩
    · intro hhead
      exact (hrest '?' hhead).2.2 rfl

theorem reads_tryRepeat {input rest : List Char} {o : Option (Nat × Option Nat)} (h : parseRepeat input = (o, rest)) :
    Reads tryRepeat input o rest := by
  unfold Reads tryRepeat
  rw [h]

/-- An atom with a quantifier. -/
theorem reads_repeated {input : List Char} {p : Pattern} {groups last : Nat} {q : Quantifier} (hq : q.Written) (hfits : q.Fits)
    (isLazy : Bool) {rest : List Char} (hrest : Continues rest)
    (hatom : Reads (atom groups) input (p, last) (q.text ++ mark isLazy ++ rest)) :
    Reads (parseQuant atom groups) input (q.apply p, last) rest := by
  refine reads_step hatom (reads_step (reads_peek _) ?_)
  have hmark (q : Pattern) := reads_lazyMark q last isLazy hrest
  rw [List.append_assoc]
  cases q with
  | quest => exact reads_step rfl (hmark _)
  | star => exact reads_step rfl (hmark _)
  | plus => exact reads_step rfl (hmark _)
  | times n =>
    have h : parseRepeat ((Quantifier.times n).text ++ (mark isLazy ++ rest)) = (some (natOf n, some (natOf n)), mark isLazy ++ rest) := by
      simpa [Quantifier.text] using parseRepeat_times hq hfits (mark isLazy ++ rest)
    exact reads_step (reads_tryRepeat h) (hmark _)
  | atLeast n =>
    have h : parseRepeat ((Quantifier.atLeast n).text ++ (mark isLazy ++ rest)) = (some (natOf n, none), mark isLazy ++ rest) := by
      simpa [Quantifier.text] using parseRepeat_atLeast hq hfits (mark isLazy ++ rest)
    exact reads_step (reads_tryRepeat h) (hmark _)
  | between n m =>
    have h : parseRepeat ((Quantifier.between n m).text ++ (mark isLazy ++ rest)) = (some (natOf n, some (natOf m)), mark isLazy ++ rest) := by
      simpa [Quantifier.text] using parseRepeat_between hq.1 hq.2.1 hfits.1 hfits.2 (mark isLazy ++ rest)
    exact reads_step (reads_tryRepeat h) (hmark _)

/-- An atom without one. -/
theorem reads_bare {input : List Char} {p : Pattern} {groups last : Nat} {rest : List Char} (hrest : Continues rest)
    (hbrace : ∀ text, rest = '{' :: text → givenBack text = true) (hatom : Reads (atom groups) input (p, last) rest) :
    Reads (parseQuant atom groups) input (p, last) rest := by
  refine reads_step hatom (reads_step (reads_peek _) ?_)
  split
  · rename_i hhead
    exact absurd rfl (hrest '*' hhead).1
  · rename_i hhead
    exact absurd rfl (hrest '+' hhead).2.1
  · rename_i hhead
    exact absurd rfl (hrest '?' hhead).2.2
  · rename_i hhead
    obtain ⟨text, rfl⟩ := List.head?_eq_some_iff.mp hhead
    exact reads_step (reads_tryRepeat (parseRepeat_givenBack (hbrace text rfl))) (reads_pure.mpr ⟨rfl, rfl⟩)
  · exact reads_pure.mpr ⟨rfl, rfl⟩

end

theorem reads_concatStep {s : List Pattern × Nat} {input rest : List Char} {r : Pattern × Nat} {c : Char}
    (hhead : input.head? = some c) (hbar : c ≠ '|') (hclose : c ≠ ')')
    (h : Reads (parseQuant parseAtom s.2) input r rest) :
    Reads (concatStep parseAtom s) input (some (s.1 ++ [r.1], r.2)) rest := by
  refine reads_step (reads_peek input) ?_
  rw [hhead]
  split
  · contradiction
  · rename_i heq
    cases heq
    exact absurd rfl hbar
  · rename_i heq
    cases heq
    exact absurd rfl hclose
  · exact reads_step h (reads_pure.mpr ⟨rfl, rfl⟩)

theorem reads_concatStep_stops (s : List Pattern × Nat) {rest : List Char} (h : Stops rest) :
    Reads (concatStep parseAtom s) rest none rest := by
  refine reads_step (reads_peek rest) ?_
  split
  · exact reads_pure.mpr ⟨rfl, rfl⟩
  · exact reads_pure.mpr ⟨rfl, rfl⟩
  · exact reads_pure.mpr ⟨rfl, rfl⟩
  · rename_i c hbar hclose hhead
    rcases h c hhead with rfl | rfl
    · exact absurd rfl hbar
    · exact absurd rfl hclose

theorem reads_concat {is : Items} {groups : Nat} {input rest : List Char}
    (h : Reads (chain (concatStep parseAtom) ([], groups)) input (is.patterns groups) rest) :
    Reads (parseConcat parseAtom groups) input (joined (is.patterns groups).1, (is.patterns groups).2) rest := by
  refine reads_step h (reads_pure.mpr ⟨?_, rfl⟩)
  rcases (is.patterns groups).1 with _ | ⟨p, _ | ⟨q, ps⟩⟩ <;> rfl

/-- A group, or the pattern, ends here. -/
def Closes (rest : List Char) : Prop := ∀ c ∈ rest.head?, c = ')'

theorem Closes.stops {rest : List Char} (h : Closes rest) : Stops rest := fun c hc => .inr (h c hc)

theorem closes_cons (rest : List Char) : Closes (')' :: rest) := by
  intro c hc
  cases hc
  rfl

theorem reads_altStep {s : List Pattern × Nat} {input rest : List Char} {r : Pattern × Nat}
    (h : Reads (parseConcat parseAtom s.2) input r rest) :
    Reads (altStep parseAtom s) ('|' :: input) (some (s.1 ++ [r.1], r.2)) rest :=
  reads_step (reads_peek _) (reads_step rfl (reads_step h (reads_pure.mpr ⟨rfl, rfl⟩)))

theorem reads_altStep_closes (s : List Pattern × Nat) {rest : List Char} (h : Closes rest) :
    Reads (altStep parseAtom s) rest none rest := by
  refine reads_step (reads_peek rest) ?_
  rw [if_neg]
  · exact reads_pure.mpr ⟨rfl, rfl⟩
  · intro hhead
    exact absurd (h '|' hhead) (by decide)

/-- A branch, and the branches after it. -/
def branchesFrom (ps : List Pattern) (groups : Nat) : Reading (List Pattern × Nat) := do
  let (branch, groups) ← parseConcat parseAtom groups
  chain (altStep parseAtom) (ps ++ [branch], groups)

theorem reads_alt {b : Branches} {groups : Nat} {input rest : List Char}
    (h : Reads (branchesFrom [] groups) input (b.patterns groups) rest) :
    Reads (parseAlt parseAtom groups) input (alternatives (b.patterns groups).1, (b.patterns groups).2) rest := by
  obtain ⟨r, between, hconcat, hchain⟩ := reads_bind.mp h
  refine reads_step hconcat (reads_step hchain (reads_pure.mpr ⟨?_, rfl⟩))
  rcases (b.patterns groups).1 with _ | ⟨p, _ | ⟨q, ps⟩⟩ <;> rfl

theorem Branches.head_ne {rest : List Char} (b : Branches) (h : b.Written rest) (hrest : Closes rest) :
    (b.text ++ rest).head? ≠ some '?' := by
  cases b with
  | one is => exact fun hhead => (is.continues h hrest.stops '?' hhead).2.2 rfl
  | more is b =>
    rw [Branches.text, List.append_assoc]
    exact fun hhead => (is.continues h.1 (fun c hc => .inl (by cases hc; rfl)) '?' hhead).2.2 rfl

theorem reads_groupTail {b : Branches} {number : Option Nat} {groups : Nat} {rest : List Char}
    (h : Reads (branchesFrom [] groups) (b.text ++ ')' :: rest) (b.patterns groups) (')' :: rest)) :
    Reads (groupTail parseAtom number groups) (b.text ++ ')' :: rest)
      (.group number (alternatives (b.patterns groups).1), (b.patterns groups).2) rest :=
  reads_step (reads_alt h) (reads_step (reads_next_cons ')' rest) (reads_pure.mpr ⟨rfl, rfl⟩))

mutual

theorem reads_atom : ∀ (a : Atom) (groups : Nat) (rest : List Char), a.Written rest → a.Fits rest →
    Reads (parseAtom groups) (a.text ++ rest) (a.pattern groups) rest
  | .char c, groups, rest, h, _ => by
    rw [parseAtom_eq]
    exact reads_char h groups rest
  | .brace, groups, rest, _, _ => by
    rw [parseAtom_eq]
    exact reads_brace groups rest
  | .escape c, groups, rest, _, _ => by
    rw [parseAtom_eq]
    exact reads_escape c groups rest
  | .any, groups, rest, _, _ => by
    rw [parseAtom_eq]
    exact reads_any groups rest
  | .start, groups, rest, _, _ => by
    rw [parseAtom_eq]
    exact reads_start groups rest
  | .stop, groups, rest, _, _ => by
    rw [parseAtom_eq]
    exact reads_stop groups rest
  | .class' negated items, groups, rest, h, _ => by
    rw [parseAtom_eq]
    exact reads_class h.1 h.2 groups rest
  | .group true branches, groups, rest, h, hfits => by
    have hbranches := reads_branches branches (groups + 1) (')' :: rest) h hfits (closes_cons rest) []
    have hhead := branches.head_ne h (closes_cons rest)
    rw [parseAtom_eq, Atom.text, List.append_assoc, List.singleton_append]
    refine reads_step (reads_next_cons '(' _) (reads_step rfl ?_)
    split
    · rename_i hlook
      rw [List.append_eq] at hlook
      rw [hlook] at hhead
      exact absurd rfl hhead
    · exact reads_groupTail hbranches
  | .group false branches, groups, rest, h, hfits => by
    have hbranches := reads_branches branches groups (')' :: rest) h hfits (closes_cons rest) []
    rw [parseAtom_eq, Atom.text, List.append_assoc, List.singleton_append]
    exact reads_step (reads_next_cons '(' _) (reads_step rfl (reads_step rfl (reads_groupTail hbranches)))

theorem reads_item : ∀ (i : Item) (groups : Nat) (rest : List Char), i.Written rest → i.Fits rest → Continues rest →
    Reads (parseQuant parseAtom groups) (i.text ++ rest) (i.pattern groups) rest
  | .bare a, groups, rest, h, hfits, hrest => reads_bare hrest hfits.2 (reads_atom a groups rest h hfits.1)
  | .repeated a q isLazy, groups, rest, h, hfits, hrest => by
    have hatom := reads_atom a groups (q.text ++ mark isLazy ++ rest) h.1 hfits.1
    rw [Item.text, List.append_assoc, List.append_assoc, ← List.append_assoc q.text]
    exact reads_repeated h.2 hfits.2 isLazy hrest hatom

theorem reads_items : ∀ (is : Items) (groups : Nat) (rest : List Char), is.Written rest → is.Fits rest → Stops rest →
    ∀ ps, Reads (chain (concatStep parseAtom) (ps, groups)) (is.text ++ rest)
      (ps ++ (is.patterns groups).1, (is.patterns groups).2) rest
  | .nil, groups, rest, _, _, hrest, ps => by
    have hdone := reads_chain_done (concatStep_same parseAtom_same) (reads_concatStep_stops (ps, groups) hrest)
    rwa [Items.patterns, List.append_nil]
  | .cons i is, groups, rest, h, hfits, hrest, ps => by
    have hitem := reads_item i groups (is.text ++ rest) h.1 hfits.1 (is.continues h.2 hrest)
    have hrest' := reads_items is (i.pattern groups).2 rest h.2 hfits.2 hrest (ps ++ [(i.pattern groups).1])
    obtain ⟨c, text, htext, _, _, _, hbar, hclose⟩ := i.text_begins h.1
    have hhead : (i.text ++ (is.text ++ rest)).head? = some c := by rw [htext]; rfl
    rw [Items.text, List.append_assoc]
    refine reads_chain_more (concatStep_same parseAtom_same) (reads_concatStep hhead hbar hclose hitem) ?_
    rw [List.append_assoc] at hrest'
    exact hrest'

theorem reads_branches : ∀ (b : Branches) (groups : Nat) (rest : List Char), b.Written rest → b.Fits rest → Closes rest →
    ∀ ps, Reads (branchesFrom ps groups) (b.text ++ rest) (ps ++ (b.patterns groups).1, (b.patterns groups).2) rest
  | .one is, groups, rest, h, hfits, hrest, ps => by
    have hconcat := reads_concat (reads_items is groups rest h hfits hrest.stops [])
    exact reads_step hconcat (reads_chain_done (altStep_same parseAtom_same) (reads_altStep_closes _ hrest))
  | .more is b, groups, rest, h, hfits, hrest, ps => by
    have hstops : Stops ('|' :: b.text ++ rest) := fun c hc => .inl (by cases hc; rfl)
    have hconcat := reads_concat (reads_items is groups _ h.1 hfits.1 hstops [])
    have hb := reads_branches b (is.patterns groups).2 rest h.2 hfits.2 hrest (ps ++ [joined (is.patterns groups).1])
    obtain ⟨r, between, hnext, hchain⟩ := reads_bind.mp hb
    rw [Branches.text, List.append_assoc]
    refine reads_step hconcat (reads_chain_more (altStep_same parseAtom_same) (reads_altStep hnext) ?_)
    rw [List.append_assoc] at hchain
    exact hchain

end

/-- A written pattern is accepted, as what it is. -/
theorem new_text {b : Branches} (h : b.Written []) (hfits : b.Fits []) (flags : String) :
    Regex.new (String.ofList b.text) flags = some (some
      { prog := Regex.compile (alternatives (b.patterns 0).1), groups := (b.patterns 0).2,
        icase := flags.toList.contains 'i', dotall := flags.toList.contains 's',
        multiline := flags.toList.contains 'm' }) := by
  have hparse := reads_alt (reads_branches b 0 [] h hfits (fun c hc => by cases hc) [])
  rw [List.append_nil] at hparse
  unfold Regex.new
  rw [String.toList_ofList, hparse]
  rfl

end NanoBpm.FeelExpr.Source
