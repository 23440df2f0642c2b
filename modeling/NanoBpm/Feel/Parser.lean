import NanoBpm.Feel.Lexer
import NanoBpm.Feel.Builtins
import NanoBpm.Lib.Descent

/-!
# The FEEL parser (`engine-core/src/feel/parser.rs`)

Every function takes the parser of expressions that it calls, `parse_bp`, as an argument: `parseBp` ties the knot.
-/

namespace NanoBpm.FeelExpr

open Descent

/-- `Parser`, of what is left of the tokens. -/
abbrev Parse (α : Type) := Descent.Parser Tok FeelError α

/-! ## Binding powers -/

def bpUnary : Nat := 11
def cmpLbp : Nat := 5
def rangeLbp : Nat := 4
def rangeRbp : Nat := 7

/-- `binding_power`. -/
def bindingPower : BinOp → Nat × Nat
  | .or => (1, 2)
  | .and => (3, 4)
  | .eq | .ne | .lt | .le | .gt | .ge => (5, 6)
  | .add | .sub => (7, 8)
  | .mul | .div => (9, 10)
  | .exp => (13, 12)

def isKeyword (s : String) : Bool :=
  ["and", "or", "in", "satisfies", "then", "else", "return", "between", "instance", "of", "true", "false", "null", "not",
    "function", "some", "every", "for", "if"].contains s

/-- What may follow an operand. -/
inductive Follow where
  | range
  | between
  | isIn
  | instanceOf
  | bin (op : BinOp)
deriving DecidableEq

/-- The follower that a token starts (`peek_infix` and the tests before it in `parse_bp`). -/
def followOf : Tok → Option Follow
  | .dotDot => some .range
  | .ident "between" => some .between
  | .ident "in" => some .isIn
  | .ident "instance" => some .instanceOf
  | .plus => some (.bin .add)
  | .minus => some (.bin .sub)
  | .star => some (.bin .mul)
  | .slash => some (.bin .div)
  | .power => some (.bin .exp)
  | .eq => some (.bin .eq)
  | .ne => some (.bin .ne)
  | .lt => some (.bin .lt)
  | .le => some (.bin .le)
  | .gt => some (.bin .gt)
  | .ge => some (.bin .ge)
  | .ident "and" => some (.bin .and)
  | .ident "or" => some (.bin .or)
  | _ => none

/-- How loosely an operand may be read for the follower to take it. -/
def Follow.lbp : Follow → Nat
  | .range => rangeLbp
  | .between | .isIn | .instanceOf => cmpLbp
  | .bin op => (bindingPower op).1

/-- The follower at the cursor, when `min_bp` lets it in. -/
def followAt (minBp : Nat) (t : Tok) : Option Follow := (followOf t).filter (minBp ≤ ·.lbp)

/-! ## Steps -/

/-- `if self.peek() == Some(&t) { self.pos += 1; … }`. -/
def eat (t : Tok) : Parse Bool := do return (← accept fun got => if got = t then some () else none).isSome

def eatKeyword (kw : String) : Parse Bool := eat (.ident kw)

/-- The words of a name after its first one, up to a keyword. -/
def moreWords (name : String) : Parse String :=
  chain (fun name => do
    let word ← accept fun
      | .ident n => if isKeyword n then none else some n
      | _ => none
    return word.map fun n => name ++ " " ++ n) name

/-- A name that keywords may go on with where they lead to a builtin. -/
def restOfName (name : String) : Parse String :=
  chain (fun full => do
    let word ← accept fun
      | .ident n => if !isKeyword n || Builtins.leadsToName (full ++ " " ++ n) then some n else none
      | _ => none
    return word.map fun n => full ++ " " ++ n) name

variable [Texts]

/-- `expect`. -/
def expect (want : Tok) : Parse Unit := do
  let got ← next
  if got = some want then return ()
  else fail ("expected " ++ want.debug ++ ", got " ++ debugNext got)

/-- `expect_keyword`. -/
def expectKeyword (kw : String) : Parse Unit := do
  if ← eatKeyword kw then return ()
  else fail ("expected '" ++ kw ++ "', got " ++ debugNext (← look).head?)

/-- The longer names that the first word of a type may start, with what follows it. -/
def typeWords : String → Option (List String × String)
  | "date" => some (["and", "time"], "date and time")
  | "days" => some (["and", "time", "duration"], "days and time duration")
  | "years" => some (["and", "months", "duration"], "years and months duration")
  | _ => none

/-- `read_type_name`. -/
def readTypeName : Parse String := do
  match ← next with
  | some (.ident first) =>
    match typeWords first with
    | some (words, name) =>
      if (words.map Tok.ident).isPrefixOf (← look) then
        skip words.length
        return name
      else return first
    | none => return first
  | other => fail ("expected a type name, got " ++ debugNext other)

/-- `read_interval_close`. -/
def readIntervalClose : Parse Bool := do
  match ← next with
  | some .rBracket => return true
  | some .rParen | some .lBracket => return false
  | other => fail ("expected interval close, got " ++ debugNext other)

/-- The parameters of a function literal; their types are ignored. -/
def readParam : Parse String := do
  match ← next with
  | some (.ident p) =>
    if ← eat .colon then
      let _ ← readTypeName
      return p
    else return p
  | other => fail ("expected a parameter name, got " ++ debugNext other)

section

variable (expr : Nat → Parse Node)

/-- `parse_in_rhs`. -/
def parseInRhs : Parse Node := do
  if ← eat .lt then return .range false none (some (← expr cmpLbp)) false
  else if ← eat .le then return .range false none (some (← expr cmpLbp)) true
  else if ← eat .gt then return .range false (some (← expr cmpLbp)) none false
  else if ← eat .ge then return .range true (some (← expr cmpLbp)) none false
  else expr cmpLbp

/-- What follows an operand, from after its first token. -/
def parseFollow (lhs : Node) : Follow → Parse Node
  | .range => do return .range true (some lhs) (some (← expr rangeRbp)) true
  | .between => do
    let low ← expr rangeRbp
    expectKeyword "and"
    return .between lhs low (← expr rangeRbp)
  | .isIn => do return .isIn lhs (← parseInRhs expr)
  | .instanceOf => do
    expectKeyword "of"
    return .instanceOf lhs (← readTypeName)
  | .bin op => do return .bin op lhs (← expr (bindingPower op).2)

/-- One turn of the loop of `parse_bp`. -/
def nextFollow (minBp : Nat) (lhs : Node) : Parse (Option Node) := do
  match ← accept (followAt minBp) with
  | some follow => return some (← parseFollow expr lhs follow)
  | none => return none

/-- A value after its name and a colon. -/
def parseNamed (name : Parse String) : Parse (String × Node) := do
  let key ← name
  expect .colon
  return (key, ← expr 0)

/-- The key of a context entry. -/
def contextKey : Parse String := do
  match ← next with
  | some (.ident s) => moreWords s
  | some (.str s) => return s
  | other => fail ("expected a context key, got " ++ debugNext other)

/-- `parse_context`. -/
def parseContext : Parse Node := do
  if (← look).head? = some .rBrace then
    expect .rBrace
    return .context []
  else
    let entries ← separated (parseNamed expr contextKey) (eat .comma)
    expect .rBrace
    return .context entries

/-- The name of an argument. -/
def argumentName : Parse String := do
  match ← next with
  | some (.ident s) => moreWords s
  | other => fail ("expected an argument name, got " ++ debugNext other)

/-- Whether the first argument looks like `name: …`. -/
def isNamed (rest : List Tok) : Bool :=
  let afterWords := rest.dropWhile fun
    | .ident s => !isKeyword s
    | _ => false
  afterWords.length < rest.length && afterWords.head? == some .colon

/-- `parse_call_args`. -/
def parseCallArgs (callee : Node) : Parse Node := do
  if ← eat .rParen then return .callPositional callee []
  else if isNamed (← look) then
    let args ← separated (parseNamed expr argumentName) (eat .comma)
    expect .rParen
    return .callNamed callee args
  else
    let args ← separated (expr 0) (eat .comma)
    expect .rParen
    return .callPositional callee args

/-- What may follow a value without a space between. -/
inductive Suffix where
  | member
  | index
  | call

def suffixOf : Tok → Option Suffix
  | .dot => some .member
  | .lBracket => some .index
  | .lParen => some .call
  | _ => none

/-- One turn of the loop of `parse_postfix`. -/
def nextSuffix (node : Node) : Parse (Option Node) := do
  match ← accept suffixOf with
  | some .member =>
    match ← next with
    | some (.ident name) => return some (.member node name)
    | _ => fail "expected a name after '.'"
  | some .index =>
    let inner ← expr 0
    expect .rBracket
    return some (.index node inner)
  | some .call => return some (← parseCallArgs expr node)
  | none => return none

/-- `parse_postfix`. -/
def parsePostfix (node : Node) : Parse Node := chain (nextSuffix expr) node

/-- A clause of `for`, `some` and `every`. -/
def iterClause : Parse (String × Node) := do
  match ← next with
  | some (.ident n) =>
    if isKeyword n then fail ("expected an iteration variable, got " ++ debugNext (some (.ident n)))
    else
      expectKeyword "in"
      return (n, ← expr 0)
  | other => fail ("expected an iteration variable, got " ++ debugNext other)

/-- `parse_iter_clauses`, its terminator and the body. -/
def parseIteration (terminator : String) (build : List (String × Node) → Node → Node) : Parse Node := do
  let clauses ← separated (iterClause expr) (eat .comma)
  expectKeyword terminator
  return build clauses (← expr 0)

/-- `parse_ident`. -/
def parseIdent (name : String) : Parse Node :=
  match name with
  | "true" => return .boolLit true
  | "false" => return .boolLit false
  | "null" => return .null
  | "not" => do return .not (← expr bpUnary)
  | "if" => do
    let cond ← expr 0
    expectKeyword "then"
    let then' ← expr 0
    expectKeyword "else"
    return .ifThenElse cond then' (← expr 0)
  | "for" => parseIteration expr "return" .forIn
  | "some" => parseIteration expr "satisfies" (.quant .some)
  | "every" => parseIteration expr "satisfies" (.quant .every)
  | "function" => do
    expect .lParen
    let params ← if (← look).head? = some .rParen then pure [] else separated readParam (eat .comma)
    expect .rParen
    return .funcDef params (← expr 0)
  | _ => do return .var (← restOfName name)

/-- `parse_bracket`. -/
def parseBracket : Parse Node := do
  if ← eat .rBracket then return .list []
  else
    let first ← expr 0
    match (← look).head?, first with
    | some .comma, first => items first
    | _, .range _ start stop _ => return .range true start stop (← readIntervalClose)
    | _, first => items first
where
  items (first : Node) : Parse Node := do
    let others ← if ← eat .comma then separated (expr 0) (eat .comma) else pure []
    expect .rBracket
    return .list (first :: others)

/-- What `parse_prefix` reads before the suffixes. -/
def parsePrimary : Tok → Parse Node
  | .num v isInteger => return .numLit v isInteger
  | .str s => return .strLit s
  | .at' s => return .atLit s
  | .minus => do return .neg (← expr bpUnary)
  | .lParen => do
    match ← expr 0 with
    | .range _ start stop _ => return .range false start stop (← readIntervalClose)
    | inner =>
      expect .rParen
      return inner
  | .lBracket => parseBracket expr
  | .lBrace => parseContext expr
  | .ident name => parseIdent expr name
  | other => fail ("unexpected token " ++ other.debug)

/-- `parse_prefix`. -/
def parsePrefix : Parse Node := do
  match ← next with
  | some tok => parsePostfix expr (← parsePrimary expr tok)
  | none => fail "unexpected end of expression"

/-- The body of `parse_bp`. -/
def parseLevel (minBp : Nat) : Parse Node := do chain (nextFollow expr minBp) (← parsePrefix expr)

end

/-- `parse_bp`. -/
def parseBp : Nat → Parse Node := fix parseLevel

/-- `parse`. The bound on the recursion is never met (`parseBp_returns`). -/
def parse (tokens : List Tok) : Except FeelError Node :=
  match parseBp 0 tokens with
  | some (.ok (node, [])) => .ok node
  | some (.ok (_, rest)) =>
    .error ("trailing tokens after expression: [" ++ ", ".intercalate (rest.map Tok.debug) ++ "]")
  | some (.error err) => .error err
  | none => .error ""

end NanoBpm.FeelExpr
