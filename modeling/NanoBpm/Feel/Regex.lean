import NanoBpm.Feel.Lexer
import NanoBpm.Lib.Descent

/-!
# Regular expressions (`engine-core/src/feel/regex.rs`)

A pattern is parsed, compiled to a program and run by backtracking. `run` counts the instructions it may still execute,
which the source does not; without a result it has not returned by then.
-/

namespace NanoBpm.FeelExpr

/-- `char::is_whitespace`: the characters of the property `White_Space`. -/
def isWhitespace (c : Char) : Bool :=
  let n := c.toNat
  9 ≤ n && n ≤ 13 || n == 32 || n == 0x85 || n == 0xA0 || n == 0x1680 || 0x2000 ≤ n && n ≤ 0x200A || n == 0x2028 ||
    n == 0x2029 || n == 0x202F || n == 0x205F || n == 0x3000

inductive ClassItem where
  | single (c : Char)
  | range (lo hi : Char)
  | digit
  | notDigit
  | word
  | notWord
  | space
  | notSpace
deriving DecidableEq

inductive Inst where
  | char (c : Char)
  | any
  | class' (items : List ClassItem) (negated : Bool)
  | start
  | stop
  | save (slot : Nat)
  | split (a b : Nat)
  | jmp (target : Nat)
  | done

/-- `Ast`. -/
inductive Pattern where
  | empty
  | char (c : Char)
  | any
  | class' (items : List ClassItem) (negated : Bool)
  | start
  | stop
  | group (number : Option Nat) (inner : Pattern)
  | concat (items : List Pattern)
  | alt (branches : List Pattern)
  | star (inner : Pattern)
  | plus (inner : Pattern)
  | quest (inner : Pattern)
  | repeat' (inner : Pattern) (min : Nat) (max : Option Nat)

structure Regex where
  prog : List Inst
  groups : Nat
  icase : Bool
  dotall : Bool
  multiline : Bool

/-- Slots for the ends of the groups, while the program runs. -/
abbrev Slots := List (Option Nat)

/-- The groups of a match; group 0 is the whole. -/
abbrev Captures := List (Option (Nat × Nat))

/-! ## Compilation -/

/-- A loop: the body is tried first, and followed by the loop again. -/
def emitStar (body : List Inst → List Inst) (prog : List Inst) : List Inst :=
  let l1 := prog.length
  let prog := prog ++ [Inst.split 0 0]
  let start := prog.length
  let prog := body prog ++ [Inst.jmp l1]
  prog.set l1 (.split start prog.length)

def emitPlus (body : List Inst → List Inst) (prog : List Inst) : List Inst :=
  let start := prog.length
  let prog := body prog
  prog ++ [Inst.split start (prog.length + 1)]

def emitQuest (body : List Inst → List Inst) (prog : List Inst) : List Inst :=
  let l1 := prog.length
  let prog := prog ++ [Inst.split 0 0]
  let start := prog.length
  let prog := body prog
  prog.set l1 (.split start prog.length)

/-- The body of a loop that runs `n` times. -/
def times (body : List Inst → List Inst) : Nat → List Inst → List Inst
  | 0, prog => prog
  | n + 1, prog => times body n (body prog)

mutual

def emit : Pattern → List Inst → List Inst
  | .empty, prog => prog
  | .char c, prog => prog ++ [.char c]
  | .any, prog => prog ++ [.any]
  | .class' items negated, prog => prog ++ [.class' items negated]
  | .start, prog => prog ++ [.start]
  | .stop, prog => prog ++ [.stop]
  | .group none inner, prog => emit inner prog
  | .group (some n) inner, prog => emit inner (prog ++ [Inst.save (n * 2)]) ++ [Inst.save (n * 2 + 1)]
  | .concat items, prog => emitAll items prog
  | .alt branches, prog => emitAlt branches prog
  | .star inner, prog => emitStar (emit inner) prog
  | .plus inner, prog => emitPlus (emit inner) prog
  | .quest inner, prog => emitQuest (emit inner) prog
  | .repeat' inner min (some max), prog => times (emitQuest (emit inner)) (max - min) (times (emit inner) min prog)
  | .repeat' inner min none, prog => emitStar (emit inner) (times (emit inner) min prog)

def emitAll : List Pattern → List Inst → List Inst
  | [], prog => prog
  | p :: rest, prog => emitAll rest (emit p prog)

def emitAlt : List Pattern → List Inst → List Inst
  | [], prog => prog
  | [branch], prog => emit branch prog
  | branch :: next :: rest, prog =>
    let split := prog.length
    let prog := prog ++ [Inst.split 0 0]
    let first := prog.length
    let prog := emit branch prog
    let jmp := prog.length
    let prog := prog ++ [Inst.jmp 0]
    let second := prog.length
    let prog := emitAlt (next :: rest) prog
    (prog.set split (.split first second)).set jmp (.jmp prog.length)

end

/-! ## Patterns -/

/-- `str::parse::<usize>` of digits. -/
def parseUsize (digits : List Char) : Option Nat :=
  if digits.isEmpty || natOf digits ≥ 2 ^ 64 then none else some (natOf digits)

/-- The end of a quantifier; without one the attempt is taken back to `save`. -/
def closeRepeat (save : List Char) (lo : Nat) (hi : Option Nat) : List Char → Option (Nat × Option Nat) × List Char
  | '}' :: rest => (some (lo, hi), rest)
  | _ => (none, save)

/-- `parse_repeat`, from the brace on, and what is left: `?` on a number that is none leaves the characters out that were
taken by then. -/
def parseRepeat (save : List Char) : Option (Nat × Option Nat) × List Char :=
  let min := save.tail.takeWhile Char.isDigit
  match save.tail.dropWhile Char.isDigit with
  | ',' :: rest =>
    let max := rest.takeWhile Char.isDigit
    let rest := rest.dropWhile Char.isDigit
    let lo := (parseUsize min).getD 0
    if max.isEmpty then closeRepeat save lo none rest
    else
      match parseUsize max with
      | none => (none, rest)
      | some hi => closeRepeat save lo (some hi) rest
  | rest =>
    match parseUsize min with
    | none => (none, rest)
    | some n => closeRepeat save n (some n) rest

/-- What `\c` stands for in a class. -/
def escapedItem : Char → ClassItem
  | 'd' => .digit
  | 'D' => .notDigit
  | 'w' => .word
  | 'W' => .notWord
  | 's' => .space
  | 'S' => .notSpace
  | 'n' => .single '\n'
  | 't' => .single '\t'
  | 'r' => .single '\r'
  | other => .single other

/-- An item goes before those of the rest. -/
def withItem (item : ClassItem) : Option (List ClassItem × List Char) → Option (List ClassItem × List Char) :=
  Option.map fun (items, rest) => (item :: items, rest)

/-- The loop of `parse_class`, and what is left. -/
def classItems : List Char → Option (List ClassItem × List Char)
  | [] => none
  | ']' :: rest => some ([], rest)
  | ['\\'] => none
  | '\\' :: e :: rest => withItem (escapedItem e) (classItems rest)
  | lo :: tail@('-' :: hi :: rest) =>
    if hi != ']' then withItem (.range lo hi) (classItems rest) else withItem (.single lo) (classItems tail)
  | c :: rest => withItem (.single c) (classItems rest)

/-- `escape_atom`. -/
def escapeAtom : Char → Pattern
  | 'd' => .class' [.digit] false
  | 'D' => .class' [.digit] true
  | 'w' => .class' [.word] false
  | 'W' => .class' [.word] true
  | 's' => .class' [.space] false
  | 'S' => .class' [.space] true
  | 'n' => .char '\n'
  | 't' => .char '\t'
  | 'r' => .char '\r'
  | other => .char other

open Descent

/-- `Parser`, of what is left of a pattern; `group_count` goes in and comes out with the result. -/
abbrev Reading (α : Type) := Descent.Parser Char Unit α

/-- `peek`. -/
def peek : Reading (Option Char) := do return (← look).head?

/-- Fails where there is no item or no end of it. -/
def classTail (negated : Bool) : Reading Pattern := fun input =>
  match classItems input with
  | none => some (.error ())
  | some (items, rest) => some (.ok (.class' items negated, rest))

/-- `parse_class`, from after the bracket. -/
def parseClass : Reading Pattern := do
  if (← peek) = some '^' then
    skip 1
    classTail true
  else classTail false

/-- `parse_repeat`, from the brace on. -/
def tryRepeat : Reading (Option (Nat × Option Nat)) := fun input => some (.ok (parseRepeat input))

section

-- `parse_atom`, for the groups inside an atom
variable (atom : Nat → Reading (Pattern × Nat))

/-- Accepts and ignores a lazy `?` marker. -/
def lazyMark (q : Pattern) (groups : Nat) : Reading (Pattern × Nat) := do
  if (← peek) = some '?' then skip 1
  return (q, groups)

/-- `parse_quant`. -/
def parseQuant (groups : Nat) : Reading (Pattern × Nat) := do
  let (a, groups) ← atom groups
  match ← peek with
  | some '*' =>
    skip 1
    lazyMark (.star a) groups
  | some '+' =>
    skip 1
    lazyMark (.plus a) groups
  | some '?' =>
    skip 1
    lazyMark (.quest a) groups
  | some '{' =>
    match ← tryRepeat with
    | some (min, max) => lazyMark (.repeat' a min max) groups
    | none => return (a, groups)
  | _ => return (a, groups)

/-- One turn of the loop of `parse_concat`. -/
def concatStep : List Pattern × Nat → Reading (Option (List Pattern × Nat))
  | (items, groups) => do
    match ← peek with
    | none | some '|' | some ')' => return none
    | some _ =>
      let (item, groups) ← parseQuant atom groups
      return some (items ++ [item], groups)

/-- `parse_concat`. -/
def parseConcat (groups : Nat) : Reading (Pattern × Nat) := do
  let (items, groups) ← chain (concatStep atom) ([], groups)
  return (match items with
    | [] => .empty
    | [item] => item
    | items => .concat items, groups)

/-- One turn of the loop of `parse_alt`. -/
def altStep : List Pattern × Nat → Reading (Option (List Pattern × Nat))
  | (branches, groups) => do
    if (← peek) = some '|' then
      skip 1
      let (branch, groups) ← parseConcat atom groups
      return some (branches ++ [branch], groups)
    else return none

/-- `parse_alt`. -/
def parseAlt (groups : Nat) : Reading (Pattern × Nat) := do
  let (first, groups) ← parseConcat atom groups
  let (branches, groups) ← chain (altStep atom) ([first], groups)
  return (match branches with
    | [branch] => branch
    | branches => .alt branches, groups)

/-- The rest of a group. -/
def groupTail (number : Option Nat) (groups : Nat) : Reading (Pattern × Nat) := do
  let (inner, groups) ← parseAlt atom groups
  match ← next with
  | some ')' => return (.group number inner, groups)
  | _ => fail ()

/-- `parse_atom`. -/
def atomLevel (groups : Nat) : Reading (Pattern × Nat) := do
  match ← next with
  | none => fail ()
  | some '(' =>
    match ← look with
    | '?' :: ':' :: _ =>
      skip 2
      groupTail atom none groups
    | _ => groupTail atom (some (groups + 1)) (groups + 1)
  | some '[' => return (← parseClass, groups)
  | some '.' => return (.any, groups)
  | some '^' => return (.start, groups)
  | some '$' => return (.stop, groups)
  | some '\\' =>
    match ← next with
    | none => fail ()
    | some c => return (escapeAtom c, groups)
  | some c => return (.char c, groups)

end

def parseAtom : Nat → Reading (Pattern × Nat) := fix atomLevel

namespace Regex

/-- The program of a pattern. -/
def compile (p : Pattern) : List Inst := emit p [Inst.save 0] ++ [Inst.save 1, .done]

/-- `Regex::new`; outer `none`: see `Descent.fix`. -/
def new (pattern flags : String) : Option (Option Regex) :=
  match parseAlt parseAtom 0 pattern.toList with
  | none => none
  | some (.error ()) => some none
  | some (.ok ((p, groups), rest)) =>
    if rest.isEmpty then
      some (some { prog := compile p, groups, icase := flags.toList.contains 'i', dotall := flags.toList.contains 's',
                   multiline := flags.toList.contains 'm' })
    else some none

/-! ## Matching -/

section

variable [Unicode] [Casing] (re : Regex) (input : List Char)

def charEq (a b : Char) : Bool :=
  if re.icase then a.toLower == b.toLower || Casing.toLowercase a == Casing.toLowercase b else a == b

def isAlphanumeric (c : Char) : Bool := Unicode.isAlphabetic c || Unicode.isNumeric c

/-- One item of `class_match`. -/
def itemMatch (c : Char) : ClassItem → Bool
  | .single x => re.charEq c x
  | .range lo hi => lo ≤ c && c ≤ hi || re.icase && lo.toLower ≤ c.toLower && c.toLower ≤ hi.toLower
  | .digit => c.isDigit
  | .notDigit => !c.isDigit
  | .word => isAlphanumeric c || c == '_'
  | .notWord => !(isAlphanumeric c || c == '_')
  | .space => isWhitespace c
  | .notSpace => !isWhitespace c

/-- `class_match`. -/
def classMatch (c : Char) (items : List ClassItem) (negated : Bool) : Bool := items.any (re.itemMatch c) != negated

/-- The character at `sp` is one that the instruction takes. -/
def takes (c : Char) : Inst → Bool
  | .char x => re.charEq c x
  | .any => re.dotall || c != '\n'
  | .class' items negated => re.classMatch c items negated
  | _ => false

/-- `^`. -/
def atStart (sp : Nat) : Bool := sp == 0 || re.multiline && input[sp - 1]? == some '\n'

/-- `$`. -/
def atEnd (sp : Nat) : Bool := sp == input.length || re.multiline && input[sp]? == some '\n'

/-- `run`, for at most so many instructions. -/
def run : Nat → Nat → Nat → Slots → Option (Bool × Slots)
  | 0, _, _, _ => none
  | fuel + 1, pc, sp, caps =>
    match re.prog[pc]? with
    | none => none
    | some (.save slot) =>
      match run fuel (pc + 1) sp (caps.set slot (some sp)) with
      | some (false, after) => some (false, after.set slot (caps[slot]?.join))
      | other => other
    | some (.split a b) =>
      match run fuel a sp caps with
      | some (false, after) => run fuel b sp after
      | other => other
    | some (.jmp target) => run fuel target sp caps
    | some .done => some (true, caps)
    | some .start => if re.atStart input sp then run fuel (pc + 1) sp caps else some (false, caps)
    | some .stop => if re.atEnd input sp then run fuel (pc + 1) sp caps else some (false, caps)
    | some inst => if input[sp]?.any (re.takes · inst) then run fuel (pc + 1) (sp + 1) caps else some (false, caps)

/-- The group that two slots hold the ends of. -/
def groupOf (caps : Slots) (g : Nat) : Option (Nat × Nat) := do
  return (← caps[g * 2]?.join, ← caps[g * 2 + 1]?.join)

/-- `find_at`. -/
def findAt (fuel start : Nat) : Option (Option Captures) :=
  (re.run input fuel 0 start (List.replicate ((re.groups + 1) * 2) none)).map fun (ok, caps) =>
    if ok then some ((List.range (re.groups + 1)).map (groupOf caps)) else none

/-- The loop of `find`, over so many starts. -/
def findFrom (fuel : Nat) : Nat → Nat → Option (Option Captures)
  | 0, _ => some none
  | tries + 1, start =>
    match re.findAt input fuel start with
    | some none => findFrom fuel tries (start + 1)
    | other => other

def find (fuel start : Nat) : Option (Option Captures) := re.findFrom input fuel (input.length + 1 - start) start

/-- `is_match`. -/
def isMatch (fuel : Nat) : Option Bool := (re.find input fuel 0).map Option.isSome

/-- `caps[0].unwrap()`. -/
def whole (caps : Captures) : Option (Nat × Nat) := caps[0]?.join

/-- The text between two positions. -/
def slice (s e : Nat) : List Char := (input.take e).drop s

/-- The loop of `expand`. -/
def expand (caps : Captures) : List Char → List Char
  | [] => []
  | [c] => [c]
  | c :: d :: rest =>
    if c = '$' ∧ d.isDigit then
      let digits := (d :: rest).takeWhile Char.isDigit
      let g := (parseUsize digits).getD (2 ^ 64 - 1)
      (match caps[g]?.join with
        | some (s, e) => slice input s e
        | none => []) ++ expand caps ((d :: rest).dropWhile Char.isDigit)
    else c :: expand caps (d :: rest)
termination_by template => template.length
decreasing_by
  · have := (List.dropWhile_suffix (l := d :: rest) Char.isDigit).length_le
    simp only [List.length_cons] at this ⊢
    omega
  · simp

/-! ## The loops over the matches

The position grows in every turn, so that as many turns as there are positions are enough. -/

/-- The loop of `replace_all`. -/
def replaceFrom (fuel : Nat) (replacement : List Char) : Nat → Nat → Option (List Char)
  | 0, _ => some []
  | turns + 1, pos => do
    if pos > input.length then return []
    match ← re.find input fuel pos with
    | none => return input.drop pos
    | some caps =>
      let (s, e) ← whole caps
      let text := slice input pos s ++ expand input caps replacement
      if e > pos then return text ++ (← replaceFrom fuel replacement turns e)
      else return text ++ slice input s (s + 1) ++ (← replaceFrom fuel replacement turns (s + 1))

def replaceAll (fuel : Nat) (replacement : List Char) : Option (List Char) :=
  re.replaceFrom input fuel replacement (input.length + 1) 0

/-- The loop of `split`. -/
def splitFrom (fuel : Nat) : Nat → Nat → Nat → Option (List (List Char))
  | 0, last, _ => some [input.drop last]
  | turns + 1, last, pos => do
    if pos > input.length then return [input.drop last]
    match ← re.find input fuel pos with
    | none => return [input.drop last]
    | some caps =>
      let (s, e) ← whole caps
      if e = s then splitFrom fuel turns last (s + 1)
      else return slice input last s :: (← splitFrom fuel turns e e)

def split (fuel : Nat) : Option (List (List Char)) := re.splitFrom input fuel (input.length + 1) 0 0

/-- The loop of `find_all`. -/
def findAllFrom (fuel : Nat) : Nat → Nat → Option (List (List Char))
  | 0, _ => some []
  | turns + 1, pos => do
    if pos > input.length then return []
    match ← re.find input fuel pos with
    | none => return []
    | some caps =>
      let (s, e) ← whole caps
      return slice input s e :: (← findAllFrom fuel turns (if e > s then e else s + 1))

def findAll (fuel : Nat) : Option (List (List Char)) := re.findAllFrom input fuel (input.length + 1) 0

end

end Regex

end NanoBpm.FeelExpr
