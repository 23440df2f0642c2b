import NanoBpm.Lib.Radix
import NanoBpm.Lib.Utf8Scan
import NanoBpm.Planner.Resolve

/-!
# The XML scanner (src/engine-core/src/xml.rs)

The scanners step through the bytes of a text and cut it at the offsets where they stop; a cut inside of a character panics. The
loops of `tokenize`, `parse_tag` and `unescape` find one token, attribute or character in a round, or none.
-/

namespace NanoBpm.Xml

open Utf8 Radix

/-- `XmlError`, or why there is no result. -/
inductive Fault where
  | malformed (message : String)
  | panicked
  | endless
deriving DecidableEq

abbrev Scan := Except Fault

/-- `Token` (xml.rs:23). -/
inductive Token where
  | startTag (name : List Char) (attrs : List (List Char × List Char)) (selfClosing : Bool)
  | endTag (name : List Char)
  | text (content : List Char)
deriving DecidableEq

/-- `&s[i..j]`. -/
def cut (s : List Char) (i j : Nat) : Scan (List Char) :=
  match slice s i j with
  | some t => .ok t
  | none => .error .panicked

def trimStart (s : List Char) : List Char := s.dropWhile isWhiteSpace

def trimEnd (s : List Char) : List Char := (s.reverse.dropWhile isWhiteSpace).reverse

def trim (s : List Char) : List Char := trimEnd (trimStart s)

/-! ## Entities -/

/-- `is_entity_body_byte` (xml.rs:266). -/
def isEntityBodyByte (b : UInt8) : Bool :=
  (byteBetween 'a' 'z' b || byteBetween 'A' 'Z' b || byteBetween '0' '9' b) || isByte '#' b

/-- `is_xml_char` (xml.rs:312). -/
def isXmlChar (ch : Char) : Bool :=
  let n := ch.toNat
  n == 0x9 || n == 0xA || n == 0xD || (0x20 ≤ n && n ≤ 0xD7FF) || (0xE000 ≤ n && n ≤ 0xFFFD) || (0x10000 ≤ n && n ≤ 0x10FFFF)

/-- The number of a reference, without its `#`. -/
def referenceCode : List Char → Option Nat
  | 'x' :: hex => fromStrRadix 16 hex
  | 'X' :: hex => fromStrRadix 16 hex
  | num => fromStrRadix 10 num

/-- `decode_entity` (xml.rs:279). -/
def decodeEntity (entity : List Char) : Option Char :=
  if entity = "lt".toList then some '<'
  else if entity = "gt".toList then some '>'
  else if entity = "quot".toList then some '"'
  else if entity = "apos".toList then some '\''
  else if entity = "amp".toList then some '&'
  else
    match entity with
    | '#' :: num => do
      let ch ← charOf (← referenceCode num)
      if isXmlChar ch then some ch else none
    | _ => none

/-- The character found at an offset, which is that of an entity or the next of the text (xml.rs:226). -/
def unescapeAt (s : List Char) (i : Nat) : Scan (Option Char × Nat) := do
  let rest := (bytes s).drop i
  if !rest.head?.any (isByte '&') then
    match ← cut s i (size s) with
    | [] => .error .panicked
    | ch :: _ => return (some ch, i + ch.utf8Size)
  else
    let j := 1 + scanWhile isEntityBodyByte (rest.drop 1)
    if rest[j]?.any (isByte ';') then
      match decodeEntity (← cut s (i + 1) (i + j)) with
      | some ch => return (some ch, i + j + 1)
      | none => return (some '&', i + 1)
    else return (some '&', i + 1)

/-- `unescape` (xml.rs:212). -/
def unescape (s : List Char) : Scan (List Char) :=
  if '&' ∉ s then .ok s else collect (bytes s).length .endless (unescapeAt s) (bytes s).length 0

/-! ## Tags -/

/-- `find` (xml.rs:110). -/
def findFrom (haystack : List Char) (start : Nat) (needle : String) : Scan Nat := do
  match find needle.toList (← cut haystack start (size haystack)) with
  | some p => return start + p
  | none => .error (.malformed s!"expected `{needle}`")

def isQuote (b : UInt8) : Bool := isByte '"' b || isByte '\'' b

/-- How far the end of a tag is, with the quote that is open. -/
def tagEnd (quote : Option UInt8) : List UInt8 → Option Nat
  | [] => none
  | c :: bs =>
    match quote with
    | some q => (tagEnd (if c == q then none else some q) bs).map (· + 1)
    | none =>
      if isQuote c then (tagEnd (some c) bs).map (· + 1)
      else if isByte '>' c then some 0
      else (tagEnd none bs).map (· + 1)

/-- `find_tag_end` (xml.rs:118). -/
def findTagEnd (xml : List Char) (start : Nat) : Scan Nat :=
  match tagEnd none ((bytes xml).drop start) with
  | some n => .ok (start + n)
  | none => .error (.malformed "unterminated tag")

/-- `u8::is_ascii_whitespace`. -/
def isAsciiWhitespace (b : UInt8) : Bool :=
  isByte ' ' b || isByte '\t' b || isByte '\n' b || isByte '\x0C' b || isByte '\r' b

/-- The value of an attribute, quoted with `q`, from its first byte on (xml.rs:176). -/
def attrValue (rest : List Char) (q : UInt8) (key : List Char) (valStart : Nat) : Scan (Option (List Char × List Char) × Nat) := do
  let bs := bytes rest
  let valEnd := valStart + scanWhile (fun b => !(b == q)) (bs.drop valStart)
  if bs.length ≤ valEnd then .error (.malformed "unterminated attribute")
  else
    let value ← unescape (← cut rest valStart valEnd)
    let next := valEnd + 1 + scanWhile isAsciiWhitespace (bs.drop (valEnd + 1))
    return (if key.isEmpty then none else some (key, value), next)

/-- The attribute found at an offset; one without a value is skipped (xml.rs:151). -/
def attrAt (rest : List Char) (i : Nat) : Scan (Option (List Char × List Char) × Nat) := do
  let bs := bytes rest
  let keyEnd := i + scanWhile (fun b => !(isByte '=' b || isAsciiWhitespace b)) (bs.drop i)
  let key := trim (← cut rest i keyEnd)
  let eq := keyEnd + scanWhile isAsciiWhitespace (bs.drop keyEnd)
  if !bs[eq]?.any (isByte '=') then return (none, if key.isEmpty then eq + 1 else eq)
  else
    let quote := eq + 1 + scanWhile isAsciiWhitespace (bs.drop (eq + 1))
    match bs[quote]?.filter isQuote with
    | none => .error (.malformed s!"attribute {String.ofList key} has no quoted value")
    | some q => attrValue rest q key (quote + 1)

/-- `parse_tag` (xml.rs:138). -/
def parseTag (inner : List Char) : Scan (List Char × List (List Char × List Char)) := do
  let inner := trim inner
  let nameEnd := size (inner.takeWhile (!isWhiteSpace ·))
  let name ← cut inner 0 nameEnd
  if name.isEmpty then .error (.malformed "empty tag name")
  else
    let rest := trimStart (← cut inner nameEnd (size inner))
    return (name, ← collect (bytes rest).length .endless (attrAt rest) (bytes rest).length 0)

/-- `strip_suffix('/')`, and what a self-closing tag is without it. -/
def stripSlash (inner : List Char) : List Char × Bool :=
  if inner.getLast? = some '/' then (trimEnd inner.dropLast, true) else (inner, false)

/-- The token of a text run (xml.rs:60). -/
def runAt (xml : List Char) (i : Nat) : Scan (Option Token × Nat) := do
  let stop := i + scanWhile (fun b => !isByte '<' b) ((bytes xml).drop i)
  let text ← cut xml i stop
  if (trim text).isEmpty then return (none, stop) else return (some (.text (← unescape text)), stop)

/-- A start tag (xml.rs:86). -/
def startTagAt (xml : List Char) (i : Nat) : Scan (Option Token × Nat) := do
  let stop ← findTagEnd xml (i + 1)
  let (inner, selfClosing) := stripSlash (trim (← cut xml (i + 1) stop))
  let (name, attrs) ← parseTag inner
  return (some (.startTag name attrs selfClosing), stop + 1)

/-- What a `<` begins; comments and declarations are no tokens (xml.rs:68). -/
def markupAt (xml tail : List Char) (i : Nat) : Scan (Option Token × Nat) :=
  if "<!--".toList <+: tail then do
    let stop ← findFrom xml (i + 4) "-->"
    return (none, stop + 3)
  else if "<![CDATA[".toList <+: tail then do
    let stop ← findFrom xml (i + 9) "]]>"
    return (some (.text (← cut xml (i + 9) stop)), stop + 3)
  else if "<!".toList <+: tail ∨ "<?".toList <+: tail then do
    let stop ← findFrom xml (i + 2) ">"
    return (none, stop + 1)
  else if "</".toList <+: tail then do
    let stop ← findFrom xml (i + 2) ">"
    return (some (.endTag (trim (← cut xml (i + 2) stop))), stop + 1)
  else startTagAt xml i

/-- The token found at an offset, or none (xml.rs:57). -/
def tokenAt (xml : List Char) (i : Nat) : Scan (Option Token × Nat) := do
  if !(bytes xml)[i]?.any (isByte '<') then runAt xml i else markupAt xml (← cut xml i (size xml)) i

/-- `tokenize` (xml.rs:52). -/
def tokenize (xml : List Char) : Scan (List Token) := collect (bytes xml).length .endless (tokenAt xml) (bytes xml).length 0

/-! ## Trees -/

/-- `Element` (xml.rs:328). -/
inductive Element where
  | mk (name : List Char) (attrs : List (List Char × List Char)) (children : List Element) (text : List Char)

namespace Element

def children : Element → List Element
  | mk _ _ children _ => children

def pushChild : Element → Element → Element
  | mk name attrs children text, child => mk name attrs (children ++ [child]) text

def pushText : Element → List Char → Element
  | mk name attrs children text, t => mk name attrs children (text ++ t)

end Element

/-- One token, with the open elements, the innermost first (xml.rs:361). -/
def place (stack : List Element) : Token → Scan (List Element)
  | .startTag name attrs selfClosing =>
    let element := Element.mk name attrs [] []
    if selfClosing then
      match stack with
      | [] => .error .panicked
      | top :: stack => .ok (top.pushChild element :: stack)
    else .ok (element :: stack)
  | .endTag _ =>
    match stack with
    | finished :: top :: stack => .ok (top.pushChild finished :: stack)
    | _ => .error (.malformed "unbalanced end tag")
  | .text t =>
    match stack with
    | [] => .error .panicked
    | top :: stack => .ok (top.pushText t :: stack)

/-- The document element, when it is the only one and all elements are closed (xml.rs:399). -/
def finish : List Element → Scan Element
  | [] => .error (.malformed "empty document")
  | [root] =>
    match root.children with
    | [e] => .ok e
    | [] => .error (.malformed "no root element")
    | _ => .error (.malformed "multiple root elements")
  | _ => .error (.malformed "unbalanced start tag")

/-- `parse_tree` (xml.rs:357). -/
def parseTree (xml : List Char) : Scan Element := do
  finish (← (← tokenize xml).foldlM place [Element.mk [] [] [] []])

end NanoBpm.Xml
