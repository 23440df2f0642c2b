import NanoBpm.Feel.Ast
import NanoBpm.Feel.Temporal

/-!
# FEEL values (`engine-core/src/feel/value.rs`)

A context, the variables a function literal has captured and a frame of the scope are `BTreeMap`s: entries in the order
of their keys. A range and a function keep their parts in the value itself.
-/

namespace NanoBpm.FeelExpr

/-- `FeelError`: its text. -/
abbrev FeelError := String

/-- `FeelVal`. -/
inductive FeelVal where
  | null
  | bool (b : Bool)
  | int (i : Int)
  | double (bits : UInt64)
  | str (s : String)
  | list (items : List FeelVal)
  | context (entries : List (String × FeelVal))
  | date (d : Date)
  | time (t : Time)
  | dateTime (d : DateTime)
  | ymDur (d : YmDuration)
  | dtDur (d : DtDuration)
  | range (start : Option FeelVal) (startInclusive : Bool) (stop : Option FeelVal) (endInclusive : Bool)
  /-- `Func::Builtin`. -/
  | builtin (name : String)
  /-- `Func::Lambda`. -/
  | lambda (params : List String) (body : Node) (closure : List (String × FeelVal))
deriving Inhabited

/-- A `BTreeMap<String, FeelVal>`. -/
abbrev Frame := List (String × FeelVal)

/-- `BTreeMap::get`. -/
def Frame.get (frame : Frame) (key : String) : Option FeelVal := frame.lookup key

/-- `BTreeMap::insert`. -/
def Frame.insert (frame : Frame) (key : String) (value : FeelVal) : Frame :=
  match frame with
  | [] => [(key, value)]
  | (k, v) :: rest =>
    if key < k then (key, value) :: (k, v) :: rest
    else if key = k then (key, value) :: rest
    else (k, v) :: Frame.insert rest key value

/-- `BTreeMap::remove`. -/
def Frame.remove (frame : Frame) (key : String) : Frame := frame.filter (·.1 != key)

/-- `BTreeMap::extend`. -/
def Frame.extend (frame updates : Frame) : Frame := updates.foldl (fun m e => Frame.insert m e.1 e.2) frame

/-- The properties of characters that the lexer and a regular expression ask for; those of ASCII are known. -/
class Unicode where
  /-- `char::is_alphabetic`. -/
  isAlphabetic : Char → Bool
  /-- `char::is_numeric`. -/
  isNumeric : Char → Bool
  alphabetic_ascii : ∀ c : Char, c.toNat < 128 → isAlphabetic c = c.isAlpha
  numeric_ascii : ∀ c : Char, c.toNat < 128 → isNumeric c = c.isDigit

/-- Characters beyond ASCII have no properties. -/
@[reducible]
def Unicode.ascii : Unicode where
  isAlphabetic c := c.isAlpha
  isNumeric c := c.isDigit
  alphabetic_ascii _ _ := rfl
  numeric_ascii _ _ := rfl

/-- `char::to_lowercase`. -/
class Casing where
  toLowercase : Char → List Char

/-- Only ASCII letters have another case. -/
@[reducible]
def Casing.ascii : Casing where
  toLowercase c := [c.toLower]

/-- How numbers and temporal values are written, how numbers are read, and what `f64` computes beyond arithmetic. -/
class Texts where
  /-- `model::format_double`. -/
  formatDouble : UInt64 → String
  /-- `str::parse::<f64>`. -/
  parseF64 : String → Option UInt64
  formatDate : Date → String
  formatTime : Time → String
  formatDateTime : DateTime → String
  formatYmDuration : YmDuration → String
  formatDtDuration : DtDuration → String
  /-- `str::replace`. -/
  replace : String → String → String → String
  toUppercase : String → String
  toLowercase : String → String
  /-- The characters of a regular expression. -/
  unicode : Unicode
  casing : Casing
  /-- `from_json`. -/
  fromJson : String → Option Value
  base64Encode : String → String
  /-- `base64_decode`, of UTF-8. -/
  base64Decode : String → Option String
  /-- `f64::powf`. -/
  powf : UInt64 → UInt64 → UInt64
  /-- `10f64.powi`. -/
  tenTo : Int → UInt64
  sqrt : UInt64 → UInt64
  ln : UInt64 → UInt64
  exp : UInt64 → UInt64
  /-- `Debug` of a string. -/
  debugStr : String → String
  /-- `Debug` of an `f64`. -/
  debugF64 : UInt64 → String

/-- Formats that read no text: all that an expression without temporal values and doubles needs. -/
@[reducible]
def Texts.plain : Texts where
  formatDouble _ := ""
  parseF64 _ := none
  formatDate _ := ""
  formatTime _ := ""
  formatDateTime _ := ""
  formatYmDuration _ := ""
  formatDtDuration _ := ""
  replace s _ _ := s
  toUppercase s := s
  toLowercase s := s
  unicode := .ascii
  casing := .ascii
  fromJson _ := none
  base64Encode s := s
  base64Decode _ := none
  powf a _ := a
  tenTo _ := 0
  sqrt a := a
  ln a := a
  exp a := a
  debugStr s := s
  debugF64 _ := ""

namespace FeelVal

/-- `FeelVal::num`: a whole number below `2 ^ 63` is an integer, what is not finite is null. -/
def num (n : UInt64) : FeelVal :=
  if !F64.isFinite n then .null
  else if F64.isWhole n && F64.lt (F64.abs n) (F64.ofInt (2 ^ 63)) then .int (F64.trunc n)
  else .double n

def asF64 : FeelVal → Option UInt64
  | .int i => some (F64.ofInt i)
  | .double d => some d
  | _ => none

def isNumber : FeelVal → Bool
  | .int _ | .double _ => true
  | _ => false

def asBool : FeelVal → Option Bool
  | .bool b => some b
  | _ => none

/-- `as i64`, `as i32` and `as usize` of a number. -/
def asI64 (n : UInt64) : Int := F64.toInt (-(2 ^ 63)) (2 ^ 63 - 1) n

def typeName : FeelVal → String
  | .null => "null"
  | .bool _ => "boolean"
  | .int _ | .double _ => "number"
  | .str _ => "string"
  | .list _ => "list"
  | .context _ => "context"
  | .date _ => "date"
  | .time _ => "time"
  | .dateTime _ => "date and time"
  | .ymDur _ => "years and months duration"
  | .dtDur _ => "days and time duration"
  | .range .. => "range"
  | .builtin _ | .lambda .. => "function"

mutual

/-- `PartialEq` of `FeelVal`. -/
def beq : FeelVal → FeelVal → Bool
  | .null, .null => true
  | .bool a, .bool b => a == b
  | .int a, .int b => a == b
  | .double a, .double b => F64.beq a b
  | .str a, .str b => a == b
  | .list a, .list b => beqItems a b
  | .context a, .context b => beqEntries a b
  | .date a, .date b => a == b
  | .time a, .time b => a == b
  | .dateTime a, .dateTime b => a == b
  | .ymDur a, .ymDur b => a == b
  | .dtDur a, .dtDur b => a == b
  | .range s si e ei, .range s' si' e' ei' => beqBound s s' && si == si' && beqBound e e' && ei == ei'
  | .builtin a, .builtin b => a == b
  | .lambda p n c, .lambda p' n' c' => p == p' && n.beq n' && beqEntries c c'
  | _, _ => false

def beqItems : List FeelVal → List FeelVal → Bool
  | [], [] => true
  | v :: vs, w :: ws => beq v w && beqItems vs ws
  | _, _ => false

def beqEntries : List (String × FeelVal) → List (String × FeelVal) → Bool
  | [], [] => true
  | (k, v) :: vs, (l, w) :: ws => k == l && beq v w && beqEntries vs ws
  | _, _ => false

def beqBound : Option FeelVal → Option FeelVal → Bool
  | none, none => true
  | some v, some w => beq v w
  | _, _ => false

end

mutual

/-- `FeelVal::from_value`. -/
def fromValue : Value → FeelVal
  | .null => .null
  | .bool b => .bool b
  | .int i => .int i
  | .double d => .double d
  | .str s => .str s
  | .list items => .list (fromItems items)
  | .map entries => .context (fromEntries entries)

def fromItems : List Value → List FeelVal
  | [] => []
  | v :: rest => fromValue v :: fromItems rest

def fromEntries : List (String × Value) → List (String × FeelVal)
  | [] => []
  | (k, v) :: rest => (k, fromValue v) :: fromEntries rest

end

variable [Texts]

mutual

/-- `FeelVal::into_value`: ranges and functions are lost. -/
def intoValue : FeelVal → Value
  | .null => .null
  | .bool b => .bool b
  | .int i => .int i
  | .double d => .double d
  | .str s => .str s
  | .list items => .list (intoItems items)
  | .context entries => .map (intoEntries entries)
  | .date d => .str (Texts.formatDate d)
  | .time t => .str (Texts.formatTime t)
  | .dateTime d => .str (Texts.formatDateTime d)
  | .ymDur d => .str (Texts.formatYmDuration d)
  | .dtDur d => .str (Texts.formatDtDuration d)
  | .range .. | .builtin _ | .lambda .. => .null

def intoItems : List FeelVal → List Value
  | [] => []
  | v :: rest => intoValue v :: intoItems rest

def intoEntries : List (String × FeelVal) → List (String × Value)
  | [] => []
  | (k, v) :: rest => (k, intoValue v) :: intoEntries rest

end

mutual

/-- `FeelVal::to_feel_string`. -/
def toFeelString : FeelVal → Option String
  | .str s => some s
  | .int i => some (toString i)
  | .double d => some (Texts.formatDouble d)
  | .bool b => some (toString b)
  | .date d => some (Texts.formatDate d)
  | .time t => some (Texts.formatTime t)
  | .dateTime d => some (Texts.formatDateTime d)
  | .ymDur d => some (Texts.formatYmDuration d)
  | .dtDur d => some (Texts.formatDtDuration d)
  | .null => some "null"
  | .list items => (toFeelStrings items).map fun parts => "[" ++ ", ".intercalate parts ++ "]"
  | .context _ | .range .. | .builtin _ | .lambda .. => none

def toFeelStrings : List FeelVal → Option (List String)
  | [] => some []
  | v :: rest => do return (← toFeelString v) :: (← toFeelStrings rest)

end

end FeelVal

/-! ## Order and equality (`feel/eval.rs:674-712`) -/

/-- `compare`. -/
def compareVals : FeelVal → FeelVal → Option Ordering
  | .int a, .int b => F64.cmp (F64.ofInt a) (F64.ofInt b)
  | .int a, .double b => F64.cmp (F64.ofInt a) b
  | .double a, .int b => F64.cmp a (F64.ofInt b)
  | .double a, .double b => F64.cmp a b
  | .str a, .str b => some (compare a b)
  | .date a, .date b => some (a.cmp b)
  | .time a, .time b => some (a.cmp b)
  | .dateTime a, .dateTime b => some (a.cmp b)
  | .ymDur a, .ymDur b => some (compare a.months b.months)
  | .dtDur a, .dtDur b => some (compare a.nanos b.nanos)
  | _, _ => none

mutual

/-- `feel_eq`. -/
def feelEq : FeelVal → FeelVal → Bool
  | .list a, .list b => feelEqItems a b
  | .context a, .context b => a.length == b.length && feelEqEntries a b
  | .date a, .date b => a.cmp b == .eq
  | .time a, .time b => a.cmp b == .eq
  | .dateTime a, .dateTime b => a.cmp b == .eq
  | .ymDur a, .ymDur b => a.months == b.months
  | .dtDur a, .dtDur b => a.nanos == b.nanos
  | l, r =>
    match l.asF64, r.asF64 with
    | some x, some y => F64.beq x y
    | _, _ => l.beq r

def feelEqItems : List FeelVal → List FeelVal → Bool
  | [], [] => true
  | v :: vs, w :: ws => feelEq v w && feelEqItems vs ws
  | _, _ => false

/-- Every entry is in the other context. -/
def feelEqEntries : List (String × FeelVal) → List (String × FeelVal) → Bool
  | [], _ => true
  | (k, v) :: vs, other => (match Frame.get other k with
      | some w => feelEq v w
      | none => false) && feelEqEntries vs other

end

/-- A value that holds no part of an argument: what texts, numbers and temporal values are computed to. -/
inductive Plain where
  | null
  | bool (b : Bool)
  | int (i : Int)
  | double (bits : UInt64)
  | str (s : String)
  | date (d : Date)
  | time (t : Time)
  | dateTime (d : DateTime)
  | ymDur (d : YmDuration)
  | dtDur (d : DtDuration)
  | strings (items : List String)
  | numbers (items : List UInt64)
  | ints (items : List Int)
  | json (v : Value)

def Plain.toVal : Plain → FeelVal
  | .null => .null
  | .bool b => .bool b
  | .int i => .int i
  | .double d => .double d
  | .str s => .str s
  | .date d => .date d
  | .time t => .time t
  | .dateTime d => .dateTime d
  | .ymDur d => .ymDur d
  | .dtDur d => .dtDur d
  | .strings items => .list (items.map .str)
  | .numbers items => .list (items.map FeelVal.num)
  | .ints items => .list (items.map .int)
  | .json v => FeelVal.fromValue v

/-- `FeelVal::num`. -/
def Plain.num (n : UInt64) : Plain :=
  match FeelVal.num n with
  | .int i => .int i
  | .double d => .double d
  | _ => .null

end NanoBpm.FeelExpr
