import NanoBpm.Feel.Value

/-!
# FEEL tokens (`engine-core/src/feel/lexer.rs`)
-/

namespace NanoBpm.FeelExpr

/-- `Tok`; an `f64` is its bits. -/
inductive Tok where
  | num (value : UInt64) (isInteger : Bool)
  | str (s : String)
  /-- `@"…"`. -/
  | at' (s : String)
  | ident (s : String)
  | plus
  | minus
  | star
  | slash
  | power
  | eq
  | ne
  | lt
  | le
  | gt
  | ge
  | lParen
  | rParen
  | lBracket
  | rBracket
  | lBrace
  | rBrace
  | dot
  | dotDot
  | comma
  | colon
deriving DecidableEq

/-- `Debug` of a token. -/
def Tok.debug [Texts] : Tok → String
  | .num v isInteger => "Num(" ++ Texts.debugF64 v ++ ", " ++ toString isInteger ++ ")"
  | .str s => "Str(" ++ Texts.debugStr s ++ ")"
  | .at' s => "At(" ++ Texts.debugStr s ++ ")"
  | .ident s => "Ident(" ++ Texts.debugStr s ++ ")"
  | .plus => "Plus"
  | .minus => "Minus"
  | .star => "Star"
  | .slash => "Slash"
  | .power => "Power"
  | .eq => "Eq"
  | .ne => "Ne"
  | .lt => "Lt"
  | .le => "Le"
  | .gt => "Gt"
  | .ge => "Ge"
  | .lParen => "LParen"
  | .rParen => "RParen"
  | .lBracket => "LBracket"
  | .rBracket => "RBracket"
  | .lBrace => "LBrace"
  | .rBrace => "RBrace"
  | .dot => "Dot"
  | .dotDot => "DotDot"
  | .comma => "Comma"
  | .colon => "Colon"

/-- `Debug` of what may be the next token. -/
def debugNext [Texts] : Option Tok → String
  | some t => "Some(" ++ t.debug ++ ")"
  | none => "None"

section

variable [Unicode]

def isIdentStart (c : Char) : Bool := Unicode.isAlphabetic c || c == '_'

def isIdentPart (c : Char) : Bool := Unicode.isAlphabetic c || Unicode.isNumeric c || c == '_'

end

/-- What stands for `\c` in a string. -/
def escaped : Char → Char
  | 'n' => '\n'
  | 'r' => '\r'
  | 't' => '\t'
  | other => other

/-- `lex_string`, from after the opening quote. -/
def lexString (quote : Char) : List Char → Except FeelError (List Char × List Char)
  | [] => .error "unterminated string"
  | c :: rest =>
    if c = quote then .ok ([], rest)
    else if c = '\\' then
      match rest with
      | [] => .error "unterminated string escape"
      | e :: rest => do
        let (s, rest) ← lexString quote rest
        return (escaped e :: s, rest)
    else do
      let (s, rest) ← lexString quote rest
      return (c :: s, rest)

/-- The number that digits write. -/
def natOf (digits : List Char) : Nat := digits.foldl (fun n c => n * 10 + (c.toNat - 48)) 0

/-- `lex_number`. -/
def lexNumber (chars : List Char) : Tok × List Char :=
  let digits := chars.takeWhile Char.isDigit
  match chars.dropWhile Char.isDigit with
  | '.' :: d :: rest =>
    if d.isDigit then
      let fraction := (d :: rest).takeWhile Char.isDigit
      (.num (F64.ofDecimal (natOf (digits ++ fraction)) fraction.length) false, (d :: rest).dropWhile Char.isDigit)
    else (.num (F64.ofDecimal (natOf digits) 0) true, '.' :: d :: rest)
  | rest => (.num (F64.ofDecimal (natOf digits) 0) true, rest)

/-- One turn of the loop of `tokenize`; a space gives no token. -/
def lexToken [Unicode] (c : Char) (rest : List Char) : Except FeelError (Option Tok × List Char) :=
  if isWhiteSpace c then .ok (none, rest)
  else
    match c, rest with
    | '+', rest => .ok (some .plus, rest)
    | '-', rest => .ok (some .minus, rest)
    | '*', '*' :: rest => .ok (some .power, rest)
    | '*', rest => .ok (some .star, rest)
    | '/', rest => .ok (some .slash, rest)
    | '(', rest => .ok (some .lParen, rest)
    | ')', rest => .ok (some .rParen, rest)
    | '[', rest => .ok (some .lBracket, rest)
    | ']', rest => .ok (some .rBracket, rest)
    | '{', rest => .ok (some .lBrace, rest)
    | '}', rest => .ok (some .rBrace, rest)
    | ',', rest => .ok (some .comma, rest)
    | ':', rest => .ok (some .colon, rest)
    | '.', '.' :: rest => .ok (some .dotDot, rest)
    | '.', rest => .ok (some .dot, rest)
    | '=', '=' :: rest => .ok (some .eq, rest)
    | '=', rest => .ok (some .eq, rest)
    | '!', '=' :: rest => .ok (some .ne, rest)
    | '!', _ => .error "unexpected '!'"
    | '<', '=' :: rest => .ok (some .le, rest)
    | '<', rest => .ok (some .lt, rest)
    | '>', '=' :: rest => .ok (some .ge, rest)
    | '>', rest => .ok (some .gt, rest)
    | '@', '"' :: rest => do
      let (s, rest) ← lexString '"' rest
      return (some (.at' (String.ofList s)), rest)
    | '@', '\'' :: rest => do
      let (s, rest) ← lexString '\'' rest
      return (some (.at' (String.ofList s)), rest)
    | '@', _ => .error "expected a string after '@'"
    | '"', rest => do
      let (s, rest) ← lexString '"' rest
      return (some (.str (String.ofList s)), rest)
    | '\'', rest => do
      let (s, rest) ← lexString '\'' rest
      return (some (.str (String.ofList s)), rest)
    | c, rest =>
      if c.isDigit then
        let (tok, rest) := lexNumber (c :: rest)
        .ok (some tok, rest)
      else if isIdentStart c then
        .ok (some (.ident (String.ofList (c :: rest.takeWhile isIdentPart))), rest.dropWhile isIdentPart)
      else .error ("unexpected character '" ++ c.toString ++ "'")

/-- The loop of `tokenize`, over as many characters at most. -/
def lexFrom [Unicode] : Nat → List Char → Except FeelError (List Tok)
  | n + 1, c :: rest => do
    let (tok, rest) ← lexToken c rest
    return tok.toList ++ (← lexFrom n rest)
  | _, _ => .ok []

def tokenize [Unicode] (src : String) : Except FeelError (List Tok) := lexFrom src.toList.length src.toList

end NanoBpm.FeelExpr
