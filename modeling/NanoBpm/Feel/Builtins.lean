import NanoBpm.Feel.Regex
import NanoBpm.Feel.TemporalParse

/-!
# FEEL builtins (`engine-core/src/feel/builtins.rs`)

Most builtins compute on their arguments alone. Those that return no part of an argument return a `Plain` value. The
builtins with a position or with the text of a temporal value may panic, those with a regular expression may search without
end. `sort`, which calls a function, and the clock and random builtins are in the evaluator.
-/

namespace NanoBpm.FeelExpr

namespace Builtins

/-! ## Names -/

def names : List String :=
  ["string", "number", "context", "get value", "get entries", "date", "time", "date and time", "duration",
    "years and months duration", "from json", "to json",
    "not",
    "substring", "string length", "upper case", "lower case", "substring before", "substring after", "contains",
    "starts with", "ends with", "matches", "replace", "split", "string join", "trim", "extract", "uuid", "to base64",
    "from base64",
    "list contains", "count", "min", "max", "sum", "product", "mean", "median", "stddev", "mode", "all", "any", "sublist",
    "append", "concatenate", "insert before", "remove", "reverse", "index of", "union", "distinct values",
    "duplicate values", "flatten", "sort", "is empty", "partition", "and", "or",
    "decimal", "floor", "ceiling", "abs", "modulo", "sqrt", "log", "exp", "even", "odd", "round up", "round down",
    "round half up", "round half down", "random number",
    "context put", "context merge", "put", "put all", "get or else", "is defined",
    "assert",
    "now", "today", "day of week", "day of year", "week of year", "month of year", "last day of month",
    "before", "after", "meets", "met by", "overlaps", "overlaps before", "overlaps after", "finishes", "finished by",
    "includes", "during", "starts", "started by", "coincides",
    "is blank",
    "fromAi"]

def isBuiltin (name : String) : Bool := names.contains name

/-- `name_prefix`: a builtin, or its first words. -/
def leadsToName (words : String) : Bool := names.any fun b => b == words || (words ++ " ").isPrefixOf b

def params : String → Option (List String)
  | "substring" => some ["string", "start position", "length"]
  | "contains" | "starts with" | "ends with" => some ["string", "match"]
  | "matches" => some ["input", "pattern", "flags"]
  | "replace" => some ["input", "pattern", "replacement", "flags"]
  | "split" => some ["string", "delimiter"]
  | "list contains" => some ["list", "element"]
  | "sublist" => some ["list", "start position", "length"]
  | "string length" | "upper case" | "lower case" => some ["string"]
  | "string join" => some ["list", "delimiter"]
  | "get value" => some ["context", "key"]
  | "get or else" => some ["value", "default"]
  | "round up" | "round down" | "round half up" | "round half down" => some ["n", "scale"]
  | "fromAi" => some ["value", "description", "type", "schema", "options"]
  | _ => none

/-! ## Arguments -/

def arg (args : List FeelVal) (i : Nat) : FeelVal := args[i]?.getD .null

def wantNum (v : FeelVal) (ctx : String) : Except FeelError UInt64 :=
  match v.asF64 with
  | some n => .ok n
  | none => .error (ctx ++ ": expected a number, got " ++ v.typeName)

def wantStr (v : FeelVal) (ctx : String) : Except FeelError String :=
  match v with
  | .str s => .ok s
  | _ => .error (ctx ++ ": expected a string, got " ++ v.typeName)

def wantList (v : FeelVal) (ctx : String) : Except FeelError (List FeelVal) :=
  match v with
  | .list items => .ok items
  | _ => .error (ctx ++ ": expected a list, got " ++ v.typeName)

/-- `list_or_varargs`. -/
def listOrVarargs : List FeelVal → List FeelVal
  | [.list items] => items
  | args => args

/-- `Some(Str(s)) => s, _ => String::new()`. -/
def textOr (v : Option FeelVal) (default : String) : String :=
  match v with
  | some (.str s) => s
  | _ => default

def wantNums (items : List FeelVal) (ctx : String) : Except FeelError (List UInt64) := items.mapM (wantNum · ctx)

/-! ## Texts -/

section Texts

variable [Texts]

def findSub (m : List Char) : List Char → Option Nat
  | [] => if m.isEmpty then some 0 else none
  | c :: rest => if m.isPrefixOf (c :: rest) then some 0 else (findSub m rest).map (· + 1)

def stringJoin (args : List FeelVal) : Except FeelError Plain := do
  let parts ← (← wantList (arg args 0) "string join").mapM fun it =>
    match it with
    | .str s => .ok [s]
    | .null => .ok []
    | other => .error ("string join: expected strings, got " ++ other.typeName)
  return .str ((textOr args[1]? "").intercalate parts.flatten)

/-- The builtins on texts that have no position and no regular expression. -/
def text (name : String) (args : List FeelVal) : Option (Except FeelError Plain) :=
  let a := arg args 0
  let b := arg args 1
  match name with
  | "string length" => some do return .int (← wantStr a "string length").length
  | "upper case" => some do return .str (Texts.toUppercase (← wantStr a "upper case"))
  | "lower case" => some do return .str (Texts.toLowercase (← wantStr a "lower case"))
  | "substring before" => some do
    let s := (← wantStr a "substring before").toList
    let m := (← wantStr b "substring before").toList
    return .str (match findSub m s with
      | some i => String.ofList (s.take i)
      | none => "")
  | "substring after" => some do
    let s := (← wantStr a "substring after").toList
    let m := (← wantStr b "substring after").toList
    return .str (match findSub m s with
      | some i => String.ofList (s.drop (i + m.length))
      | none => "")
  | "contains" => some do
    let s ← wantStr a "contains"
    return .bool (findSub (← wantStr b "contains").toList s.toList).isSome
  | "starts with" => some do
    let s ← wantStr a "starts with"
    return .bool ((← wantStr b "starts with").toList.isPrefixOf s.toList)
  | "ends with" => some do
    let s ← wantStr a "ends with"
    return .bool ((← wantStr b "ends with").toList.isSuffixOf s.toList)
  | "string join" => some (stringJoin args)
  | "trim" => some do return .str (trim (← wantStr a "trim"))
  | "to base64" => some do return .str (Texts.base64Encode (← wantStr a "to base64"))
  | "from base64" => some do
    return match Texts.base64Decode (← wantStr a "from base64") with
      | some s => .str s
      | none => .null
  | "is blank" => some (.ok (.bool (match a with
    | .str s => (trim s).isEmpty
    | .null => true
    | _ => false)))
  | _ => none

/-! ## Conversions -/

/-- `number_from`. -/
def numberFrom (args : List FeelVal) : Plain :=
  match arg args 0 with
  | .int i => .int i
  | .double d => .double d
  | .str s =>
    let grouping := textOr args[1]? ""
    let decimal := textOr args[2]? "."
    let s := if grouping.isEmpty then s else Texts.replace s grouping ""
    let s := if decimal == "." then s else Texts.replace s decimal "."
    match Texts.parseF64 s with
    | some n => .num n
    | none => .null
  | _ => .null

def jsonString (s : String) : String :=
  "\"" ++ String.join (s.toList.map fun c =>
    match c with
    | '"' => "\\\""
    | '\\' => "\\\\"
    | '\n' => "\\n"
    | '\r' => "\\r"
    | '\t' => "\\t"
    | c => c.toString) ++ "\""

mutual

/-- `to_json`. -/
def toJson : FeelVal → String
  | .null => "null"
  | .bool b => toString b
  | .int i => toString i
  | .double d => Texts.formatDouble d
  | .str s => jsonString s
  | .list items => "[" ++ ",".intercalate (toJsons items) ++ "]"
  | .context entries => "\x7b" ++ ",".intercalate (toJsonEntries entries) ++ "\x7d"
  | other => jsonString (other.toFeelString.getD "")

def toJsons : List FeelVal → List String
  | [] => []
  | v :: rest => toJson v :: toJsons rest

def toJsonEntries : List (String × FeelVal) → List String
  | [] => []
  | (k, v) :: rest => (jsonString k ++ ":" ++ toJson v) :: toJsonEntries rest

end

/-- `as u32` of a number. -/
def asU32 (n : UInt64) : Nat := (F64.toInt 0 (2 ^ 32 - 1) n).toNat

def asI32 (n : UInt64) : Int := F64.toInt i32Min i32Max n

def dateBuiltin (args : List FeelVal) : Except FeelError Plain := do
  match arg args 0, arg args 1 with
  | .str s, .null => return (Date.parse s.toList).elim .null .date
  | .dateTime d, .null => return .date d.date
  | y, m =>
    if !y.isNumber then return .null
    let year := asI32 (← wantNum y "date")
    let month := asU32 (← wantNum m "date")
    let day := asU32 (← wantNum (arg args 2) "date")
    return (Date.new year month day).elim .null .date

def dateOf : FeelVal → Option Date
  | .date d => some d
  | .dateTime d => some d.date
  | _ => none

def yearsMonthsBetween (a b : FeelVal) : Plain :=
  match dateOf a, dateOf b with
  | some first, some last =>
    let months := (last.year - first.year) * 12 + ((last.month : Int) - first.month)
    .ymDur ⟨if last.day < first.day && months > 0 then months - 1
      else if last.day > first.day && months < 0 then months + 1 else months⟩
  | _, _ => .null

def weekdays : List String := ["Monday", "Tuesday", "Wednesday", "Thursday", "Friday", "Saturday", "Sunday"]

def months : List String :=
  ["January", "February", "March", "April", "May", "June", "July", "August", "September", "October", "November",
    "December"]

def withDate (v : FeelVal) (f : Date → Plain) : Plain := (dateOf v).elim .null f

/-- The conversions and the builtins on temporal values. -/
def conversion (name : String) (args : List FeelVal) : Option (Except FeelError Plain) :=
  let a := arg args 0
  match name with
  | "string" => some (.ok (a.toFeelString.elim .null .str))
  | "number" => some (.ok (numberFrom args))
  | "date" => some (dateBuiltin args)
  | "years and months duration" => some (.ok (yearsMonthsBetween a (arg args 1)))
  | "from json" => some do return (Texts.fromJson (← wantStr a "from json")).elim .null .json
  | "to json" => some (.ok (.str (toJson a)))
  | "day of week" => some (.ok (withDate a fun d => .str (weekdays[d.weekday - 1]?.getD "")))
  | "day of year" => some (.ok (withDate a fun d => .int d.dayOfYear))
  | "week of year" => some (.ok (withDate a fun d => .int d.weekOfYear))
  | "month of year" => some (.ok (withDate a fun d => .str (months[d.month - 1]?.getD "")))
  | "last day of month" => some (.ok (withDate a fun d => .date { d with day := daysInMonth d.year d.month }))
  | _ => none

/-! ## Numbers -/

inductive RoundMode where
  | up
  | down
  | halfUp
  | halfDown
  | halfEven
  | ceiling
  | floor

def roundingMode : String → Except FeelError RoundMode
  | "UP" => .ok .up
  | "DOWN" => .ok .down
  | "CEILING" => .ok .ceiling
  | "FLOOR" => .ok .floor
  | "HALF_UP" => .ok .halfUp
  | "HALF_DOWN" => .ok .halfDown
  | "HALF_EVEN" | "UNNECESSARY" => .ok .halfEven
  | other => .error ("decimal: unknown rounding mode '" ++ other ++ "'")

def half : UInt64 := F64.ofDecimal 5 1

def roundScale (n : UInt64) (scale : Int) (mode : RoundMode) : UInt64 :=
  let factor := Texts.tenTo scale
  let x := F64.mul n factor
  let rounded := match mode with
    | .up => if F64.lt x (F64.ofInt 0) || F64.isNaN x then F64.floor x else F64.ceil x
    | .down => F64.truncated x
    | .halfUp => F64.mul (F64.rounded (F64.abs x)) (F64.signum x)
    | .halfDown =>
      let frac := F64.sub (F64.abs x) (F64.truncated (F64.abs x))
      F64.mul (if F64.lt half frac then F64.ceil (F64.abs x) else F64.floor (F64.abs x)) (F64.signum x)
    | .halfEven =>
      let r := F64.rounded x
      if F64.beq (F64.abs (F64.sub x (F64.truncated x))) half && FeelVal.asI64 r % 2 != 0 then F64.sub r (F64.signum x)
      else r
    | .ceiling => F64.ceil x
    | .floor => F64.floor x
  F64.div rounded factor

def roundBuiltin (args : List FeelVal) (mode : RoundMode) : Except FeelError Plain := do
  let n ← wantNum (arg args 0) "round"
  let scale ← match args[1]? with
    | some v => asI32 <$> wantNum v "round"
    | none => pure 0
  return .num (roundScale n scale mode)

/-- `floor` and `ceiling`, with their optional scale. -/
def toWhole (args : List FeelVal) (name : String) (f : UInt64 → UInt64) : Except FeelError Plain := do
  let n ← wantNum (arg args 0) name
  match args[1]? with
  | some v =>
    let factor := Texts.tenTo (asI32 (← wantNum v name))
    return .num (F64.div (f (F64.mul n factor)) factor)
  | none => return .num (f n)

def reduceNum (items : List FeelVal) (ctx : String) (f : UInt64 → UInt64 → UInt64) : Except FeelError Plain := do
  match ← wantNums items ctx with
  | [] => return .null
  | first :: rest => return .num (rest.foldl f first)

/-- `sort_by(partial_cmp, or equal)`. -/
def sortNums (nums : List UInt64) : List UInt64 := nums.insertionSort fun a b => F64.cmp a b ≠ some .gt

def median (items : List FeelVal) : Except FeelError Plain := do
  if items.isEmpty then return .null
  let nums := sortNums (← wantNums items "median")
  let n := nums.length
  let at' (i : Nat) := nums[i]?.getD 0
  return .num (if n % 2 = 1 then at' (n / 2) else F64.div (F64.add (at' (n / 2 - 1)) (at' (n / 2))) (F64.ofInt 2))

def sumNums (nums : List UInt64) : UInt64 := nums.foldl F64.add (F64.ofInt 0)

def stddev (items : List FeelVal) : Except FeelError Plain := do
  let n := items.length
  if n < 2 then return .null
  let nums ← wantNums items "stddev"
  let mean := F64.div (sumNums nums) (F64.ofInt n)
  let squares := nums.map fun x => F64.mul (F64.sub x mean) (F64.sub x mean)
  return .num (Texts.sqrt (F64.div (sumNums squares) (F64.sub (F64.ofInt n) (F64.ofInt 1))))

/-- One turn of the counting loop of `mode`. -/
def countNum (counts : List (UInt64 × Nat)) (x : UInt64) : List (UInt64 × Nat) :=
  match counts with
  | [] => [(x, 1)]
  | (v, n) :: rest => if F64.beq v x then (v, n + 1) :: rest else (v, n) :: countNum rest x

def mode (items : List FeelVal) : Except FeelError Plain := do
  if items.isEmpty then return .numbers []
  let counts := (← wantNums items "mode").foldl countNum []
  let most := (counts.map (·.2)).foldl max 0
  return .numbers (sortNums ((counts.filter (·.2 == most)).map (·.1)))

/-- The builtins on numbers. -/
def number (name : String) (args : List FeelVal) : Option (Except FeelError Plain) :=
  let a := arg args 0
  let items := listOrVarargs args
  match name with
  | "min" => some (reduceNum items "min" F64.min)
  | "max" => some (reduceNum items "max" F64.max)
  | "sum" => some do return .num (sumNums (← wantNums items "sum"))
  | "product" => some do
    if items.isEmpty then return .null
    return .num ((← wantNums items "product").foldl F64.mul (F64.ofInt 1))
  | "mean" => some do
    if items.isEmpty then return .null
    return .num (F64.div (sumNums (← wantNums items "mean")) (F64.ofInt items.length))
  | "median" => some (median items)
  | "stddev" => some (stddev items)
  | "mode" => some (mode items)
  | "decimal" => some do
    let n ← wantNum a "decimal"
    let scale := asI32 (← wantNum (arg args 1) "decimal")
    let mode ← match args[2]? with
      | some v => roundingMode (← wantStr v "decimal")
      | none => pure .halfEven
    return .num (roundScale n scale mode)
  | "floor" => some (toWhole args "floor" F64.floor)
  | "ceiling" => some (toWhole args "ceiling" F64.ceil)
  | "abs" => some (match a with
    | .ymDur d => .ok (.ymDur ⟨d.months.natAbs⟩)
    | .dtDur d => .ok (.dtDur ⟨d.nanos.natAbs⟩)
    | v => do return .num (F64.abs (← wantNum v "abs")))
  | "modulo" => some do
    let n ← wantNum a "modulo"
    let d ← wantNum (arg args 1) "modulo"
    if F64.beq d (F64.ofInt 0) then return .null
    return .num (F64.sub n (F64.mul d (F64.floor (F64.div n d))))
  | "sqrt" => some do
    let n ← wantNum a "sqrt"
    return if F64.lt n (F64.ofInt 0) then .null else .num (Texts.sqrt n)
  | "log" => some do return .num (Texts.ln (← wantNum a "log"))
  | "exp" => some do return .num (Texts.exp (← wantNum a "exp"))
  | "even" => some do return .bool ((FeelVal.asI64 (← wantNum a "even")).tmod 2 == 0)
  | "odd" => some do return .bool ((FeelVal.asI64 (← wantNum a "odd")).tmod 2 != 0)
  | "round up" => some (roundBuiltin args .up)
  | "round down" => some (roundBuiltin args .down)
  | "round half up" => some (roundBuiltin args .halfUp)
  | "round half down" => some (roundBuiltin args .halfDown)
  | _ => none

end Texts

/-! ## Intervals -/

/-- `range_parts`. -/
structure Bounds where
  start : FeelVal
  startClosed : Bool
  stop : FeelVal
  endClosed : Bool

/-- A value that is no range has no bounds; a range that is open-ended fails. -/
def boundsOf : FeelVal → Option (Option Bounds)
  | .range (some start) startClosed (some stop) endClosed => some (some { start, startClosed, stop, endClosed })
  | .range .. => none
  | _ => some none

def isPoint : FeelVal → Bool
  | .int _ | .double _ | .date _ | .time _ | .dateTime _ | .ymDur _ | .dtDur _ => true
  | _ => false

def lt (a b : FeelVal) : Bool := compareVals a b == some .lt
def gt (a b : FeelVal) : Bool := compareVals a b == some .gt
def eqp (a b : FeelVal) : Bool := compareVals a b == some .eq

def refPoint : FeelVal → Option FeelVal
  | .range start .. => start
  | other => if isPoint other then some other else none

/-- `interval_bool`. -/
def intervalBool (name : String) (a b : FeelVal) : Option Bool := do
  let ra ← boundsOf a
  let rb ← boundsOf b
  match name, ra, rb with
  | "before", some p, some q => some (lt p.stop q.start || ((!p.endClosed || !q.startClosed) && eqp p.stop q.start))
  | "before", none, some q => some (lt a q.start || (eqp a q.start && !q.startClosed))
  | "before", some p, none => some (lt p.stop b || (eqp p.stop b && !p.endClosed))
  | "before", none, none => some (lt a b)
  | "after", some p, some q => some (gt p.start q.stop || ((!p.startClosed || !q.endClosed) && eqp p.start q.stop))
  | "after", none, some q => some (gt a q.stop || (eqp a q.stop && !q.endClosed))
  | "after", some p, none => some (gt p.start b || (eqp p.start b && !p.startClosed))
  | "after", none, none => some (gt a b)
  | "meets", some p, some q => some (p.endClosed && q.startClosed && eqp p.stop q.start)
  | "met by", some p, some q => some (p.startClosed && q.endClosed && eqp p.start q.stop)
  | "overlaps", some p, some q =>
    some ((gt p.stop q.start || (eqp p.stop q.start && p.endClosed && q.startClosed)) &&
      (lt p.start q.stop || (eqp p.start q.stop && p.startClosed && q.endClosed)))
  | "overlaps before", some p, some q =>
    some ((lt p.start q.start || (eqp p.start q.start && p.startClosed && !q.startClosed)) &&
      (gt p.stop q.start || (eqp p.stop q.start && p.endClosed && q.startClosed)) &&
      (lt p.stop q.stop || (eqp p.stop q.stop && (!p.endClosed || q.endClosed))))
  | "overlaps after", some p, some q =>
    some ((lt q.start p.start || (eqp q.start p.start && q.startClosed && !p.startClosed)) &&
      (gt q.stop p.start || (eqp q.stop p.start && q.endClosed && p.startClosed)) &&
      (lt q.stop p.stop || (eqp q.stop p.stop && (!q.endClosed || p.endClosed))))
  | "finishes", some p, some q =>
    some (p.endClosed == q.endClosed && eqp p.stop q.stop &&
      (gt p.start q.start || (eqp p.start q.start && (!p.startClosed || q.startClosed))))
  | "finishes", none, some q => some (q.endClosed && eqp q.stop a)
  | "finished by", some p, some q =>
    some (p.endClosed == q.endClosed && eqp p.stop q.stop &&
      (lt p.start q.start || (eqp p.start q.start && (p.startClosed || !q.startClosed))))
  | "finished by", some p, none => some (p.endClosed && eqp p.stop b)
  | "includes", some p, some q =>
    some ((lt p.start q.start || (eqp p.start q.start && (p.startClosed || !q.startClosed))) &&
      (gt p.stop q.stop || (eqp p.stop q.stop && (p.endClosed || !q.endClosed))))
  | "includes", some p, none =>
    some ((lt p.start b && gt p.stop b) || (eqp p.start b && p.startClosed) || (eqp p.stop b && p.endClosed))
  | "during", some p, some q =>
    some ((lt q.start p.start || (eqp q.start p.start && (q.startClosed || !p.startClosed))) &&
      (gt q.stop p.stop || (eqp q.stop p.stop && (q.endClosed || !p.endClosed))))
  | "during", none, some q =>
    some ((lt q.start a && gt q.stop a) || (eqp q.start a && q.startClosed) || (eqp q.stop a && q.endClosed))
  | "starts", some p, some q =>
    some (eqp p.start q.start && p.startClosed == q.startClosed &&
      (lt p.stop q.stop || (eqp p.stop q.stop && (!p.endClosed || q.endClosed))))
  | "starts", none, some q => some (eqp q.start a && q.startClosed)
  | "started by", some p, some q =>
    some (eqp p.start q.start && p.startClosed == q.startClosed &&
      (lt q.stop p.stop || (eqp q.stop p.stop && (!q.endClosed || p.endClosed))))
  | "started by", some p, none => some (eqp p.start b && p.startClosed)
  | "coincides", some p, some q =>
    some (eqp p.start q.start && p.startClosed == q.startClosed && eqp p.stop q.stop && p.endClosed == q.endClosed)
  | "coincides", none, none => some (eqp a b)
  | _, _, _ => none

/-- `interval`: null where the arguments do not compare. -/
def interval (name : String) (a b : FeelVal) : Plain :=
  let comparable := match refPoint a, refPoint b with
    | some p, some q => isPoint p && isPoint q && (compareVals p q).isSome
    | _, _ => false
  if !comparable then .null else (intervalBool name a b).elim .null .bool

def intervalNames : List String :=
  ["before", "after", "meets", "met by", "overlaps", "overlaps before", "overlaps after", "finishes", "finished by",
    "includes", "during", "starts", "started by", "coincides"]

/-! ## Booleans -/

/-- `bool_reduce`: null is left out. -/
def boolReduce (items : List FeelVal) (all : Bool) : Except FeelError Plain := do
  let bools ← items.mapM fun it =>
    match it with
    | .bool b => .ok [b]
    | .null => .ok []
    | other => .error ((if all then "all" else "any") ++ ": expected booleans, got " ++ other.typeName)
  return .bool (if all then bools.flatten.all id else bools.flatten.any id)

/-- The builtins that tell something of their arguments. -/
def test (name : String) (args : List FeelVal) : Option (Except FeelError Plain) :=
  let a := arg args 0
  match name with
  | "not" => some (.ok (match a with
    | .bool b => .bool !b
    | _ => .null))
  | "list contains" => some do
    return .bool ((← wantList a "list contains").any fun x => feelEq x (arg args 1))
  | "count" => some do return .int (← wantList a "count").length
  | "index of" => some do
    let list ← wantList a "index of"
    return .ints ((list.zipIdx.filter fun (x, _) => feelEq x (arg args 1)).map fun (_, i) => i + 1)
  | "all" | "and" => some (boolReduce (listOrVarargs args) true)
  | "any" | "or" => some (boolReduce (listOrVarargs args) false)
  | "is empty" => some do return .bool (← wantList a "is empty").isEmpty
  | "is defined" => some (.ok (.bool (match a with
    | .null => false
    | _ => true)))
  | _ => if intervalNames.contains name then some (.ok (interval name a (arg args 1))) else none

/-! ## Lists and contexts -/

mutual

/-- `flatten`. -/
def flatten : FeelVal → List FeelVal
  | .list items => flattenItems items
  | other => [other]

def flattenItems : List FeelVal → List FeelVal
  | [] => []
  | v :: rest => flatten v ++ flattenItems rest

end

/-- `if !out.iter().any(|y| feel_eq(x, y)) { out.push(x) }`. -/
def pushNew (out : List FeelVal) (x : FeelVal) : List FeelVal := if out.any (feelEq x) then out else out ++ [x]

def duplicateValues (list : List FeelVal) : List FeelVal :=
  list.foldl (fun out x => if (list.filter (feelEq x)).length > 1 then pushNew out x else out) []

def partition (args : List FeelVal) : Except FeelError FeelVal := do
  let list ← wantList (arg args 0) "partition"
  let size := (F64.toInt 0 (2 ^ 64 - 1) (← wantNum (arg args 1) "partition")).toNat
  if size = 0 then return .null
  return .list ((list.toChunks size).map .list)

/-- `context_from`: later entries win. -/
def contextFrom (v : FeelVal) : Except FeelError FeelVal := do
  return .context ((← wantList v "context").foldl (fun map entry =>
    match entry with
    | .context e =>
      match Frame.get e "key", Frame.get e "value" with
      | some (.str k), some value => Frame.insert map k value
      | _, _ => map
    | _ => map) [])

/-- `put_nested`. -/
def putNested (map : Frame) (keys : List FeelVal) (value : FeelVal) : Frame :=
  match keys with
  | .str k :: rest =>
    if rest.isEmpty then Frame.insert map k value
    else
      match Frame.get map k with
      | none => Frame.insert map k (.context (putNested [] rest value))
      | some (.context inner) => Frame.insert map k (.context (putNested inner rest value))
      | some _ => map
  | _ => map

def contextPut (args : List FeelVal) : Except FeelError FeelVal :=
  match arg args 0 with
  | .context map =>
    .ok (.context (match arg args 1, args[2]? with
      | .str k, some v => Frame.insert map k v
      | .list keys, some v => putNested map keys v
      | _, _ => map))
  | other => .error ("context put: expected a context, got " ++ other.typeName)

def contextMerge (args : List FeelVal) : Frame :=
  (listOrVarargs args).foldl (fun out a =>
    match a with
    | .context m => Frame.extend out m
    | _ => out) []

def assertBuiltin (args : List FeelVal) : Except FeelError FeelVal :=
  match arg args 1 with
  | .bool true => .ok (arg args 0)
  | _ => .error ("assert failed: " ++ textOr args[2]? "The condition is not fulfilled")

/-- The builtins that return parts of their arguments. -/
def structural (name : String) (args : List FeelVal) : Option (Except FeelError FeelVal) :=
  let a := arg args 0
  match name with
  | "context" => some (contextFrom a)
  | "get value" => some (.ok (match a, arg args 1 with
    | .context m, .str k => (Frame.get m k).getD .null
    | _, _ => .null))
  | "get entries" => some (.ok (match a with
    | .context m => .list (m.map fun (k, v) => .context [("key", .str k), ("value", v)])
    | _ => .null))
  | "append" => some do return .list ((← wantList a "append") ++ args.drop 1)
  | "concatenate" => some do return .list (← args.mapM (wantList · "concatenate")).flatten
  | "reverse" => some do return .list (← wantList a "reverse").reverse
  | "union" => some do return .list ((← args.mapM (wantList · "union")).flatten.foldl pushNew [])
  | "distinct values" => some do return .list ((← wantList a "distinct values").foldl pushNew [])
  | "duplicate values" => some do return .list (duplicateValues (← wantList a "duplicate values"))
  | "flatten" => some (.ok (.list (flatten a)))
  | "partition" => some (partition args)
  | "context put" | "put" => some (contextPut args)
  | "context merge" | "put all" => some (.ok (.context (contextMerge args)))
  | "get or else" => some (.ok (match a with
    | .null => arg args 1
    | v => v))
  | "assert" => some (assertBuiltin args)
  | "fromAi" => some (.ok a)
  | _ => none

/-- `call`, of a builtin that computes on its arguments alone and returns in any case. -/
def call [Texts] (name : String) (args : List FeelVal) : Except FeelError FeelVal :=
  match structural name args with
  | some result => result
  | none =>
    match text name args <|> conversion name args <|> number name args <|> test name args with
    | some result => Plain.toVal <$> result
    | none => .error ("unknown function '" ++ name ++ "'")

end Builtins

/-! ## Positions -/

/-- A call that returns, an error among others, or panics. -/
abbrev Run := ExceptT FeelError (Except Panic)

def returned {α : Type} (x : Except FeelError α) : Run α := ExceptT.mk (.ok x)

namespace Positions

open Builtins

def addI64 (checks : Bool) (a b : Int) : Except Panic Int :=
  if checks ∧ ¬ InI64 (a + b) then .error .overflow else .ok (wrapI64 (a + b))

/-- `n as usize`. -/
def asUsize (n : Int) : Nat := (n % 18446744073709551616).toNat

/-- `xs[first as usize..stop as usize]`. -/
def slice {α : Type} (xs : List α) (first stop : Int) : Except Panic (List α) :=
  if asUsize first ≤ asUsize stop ∧ asUsize stop ≤ xs.length then
    .ok ((xs.drop (asUsize first)).take (asUsize stop - asUsize first))
  else .error .slice

def substringFrom (checks : Bool) (s : List Char) (first count : Int) : Except Panic (List Char) := do
  let sum ← addI64 checks first (max count 0)
  slice s first (min sum s.length)

/-- The length that is given, unless it is `null`, or the rest. -/
def substringLength (rest : Int) : Option FeelVal → Run Int
  | some .null | none => return rest
  | some v => FeelVal.asI64 <$> returned (wantNum v "substring")

def substring (checks : Bool) (args : List FeelVal) : Run FeelVal := do
  let s := (← returned (wantStr (arg args 0) "substring")).toList
  let start := FeelVal.asI64 (← returned (wantNum (arg args 1) "substring"))
  let len : Int := s.length
  let first := if start > 0 then start - 1 else if start < 0 then len + start else 0
  if first < 0 ∨ first ≥ len then return .str ""
  let count ← substringLength (len - first) args[2]?
  return .str (String.ofList (← substringFrom checks s first count))

def sublistFrom (checks : Bool) (list : List FeelVal) (first count : Int) : Except Panic (List FeelVal) := do
  let sum ← addI64 checks first count
  slice list first (max (min sum list.length) first)

def sublistLength (rest : Int) : Option FeelVal → Run Int
  | some v => FeelVal.asI64 <$> returned (wantNum v "sublist")
  | none => return rest

def sublist (checks : Bool) (args : List FeelVal) : Run FeelVal := do
  let list ← returned (wantList (arg args 0) "sublist")
  let start := FeelVal.asI64 (← returned (wantNum (arg args 1) "sublist"))
  let len : Int := list.length
  if start = 0 then return .list []
  let first := if start > 0 then start - 1 else len + start
  if first < 0 ∨ first ≥ len then return .list []
  let count ← sublistLength (len - first) args[2]?
  return .list (← sublistFrom checks list first count)

def insertBefore (checks : Bool) (args : List FeelVal) : Run FeelVal := do
  let list ← returned (wantList (arg args 0) "insert before")
  let pos := FeelVal.asI64 (← returned (wantNum (arg args 1) "insert before"))
  let index := max 0 (min (← addI64 checks pos (-1)) list.length)
  return .list (list.insertIdx index.toNat (arg args 2))

def remove (checks : Bool) (args : List FeelVal) : Run FeelVal := do
  let list ← returned (wantList (arg args 0) "remove")
  let pos ← addI64 checks (FeelVal.asI64 (← returned (wantNum (arg args 1) "remove"))) (-1)
  return .list (if pos ≥ 0 then list.eraseIdx pos.toNat else list)

end Positions

/-! ## Texts of temporal values -/

namespace Builtins

/-- What is parsed, if it is not refused. -/
def parsed {α : Type} : Parsed α → Run (Option α)
  | .value a => return some a
  | .refused => return none
  | .panicked p => ExceptT.mk (.error p)

def timeBuiltin (checks : Bool) (args : List FeelVal) : Run Plain := do
  match arg args 0 with
  | .str s => return (← parsed (Time.parse checks s.toList)).elim .null .time
  | .dateTime d => return .time d.time
  | h =>
    if !h.isNumber then return .null
    let hour := asU32 (← returned (wantNum h "time"))
    let minute := asU32 (← returned (wantNum (arg args 1) "time"))
    let second := asU32 (← returned (wantNum (arg args 2) "time"))
    let offsetSeconds := match arg args 3 with
      | .dtDur off => some (wrapI32 (off.nanos.tdiv 1000000000))
      | _ => none
    return .time { hour, minute, second, nano := 0, offsetSeconds }

def midnight : Time := { hour := 0, minute := 0, second := 0, nano := 0 }

def datetimeBuiltin (checks : Bool) (args : List FeelVal) : Run Plain := do
  match arg args 0, arg args 1 with
  | .str s, .null => return (← parsed (DateTime.parse checks s.toList)).elim .null .dateTime
  | .date date, .time time => return .dateTime { date, time }
  | .date date, .null => return .dateTime { date, time := midnight }
  | _, _ => return .null

def durationBuiltin (checks : Bool) (args : List FeelVal) : Run Plain := do
  let s ← returned (wantStr (arg args 0) "duration")
  return (← parsed (parseDuration checks s.toList)).getD .null

/-- `call`, of a builtin without a regular expression. -/
def callChecked [Texts] (checks : Bool) (name : String) (args : List FeelVal) : Run FeelVal :=
  match name with
  | "substring" => Positions.substring checks args
  | "sublist" => Positions.sublist checks args
  | "insert before" => Positions.insertBefore checks args
  | "remove" => Positions.remove checks args
  | "time" => Plain.toVal <$> timeBuiltin checks args
  | "date and time" => Plain.toVal <$> datetimeBuiltin checks args
  | "duration" => Plain.toVal <$> durationBuiltin checks args
  | _ => returned (call name args)

end Builtins

/-! ## Regular expressions -/

/-- A method of `Regex`. -/
inductive RegexMethod where
  | isMatch
  | replaceAll (replacement : String)
  | split
  | findAll

/-- A method on an input. -/
structure RegexCall where
  input : String
  pattern : String
  flags : String
  method : RegexMethod

/-- What it returns within so many instructions. -/
def RegexCall.run [Unicode] [Casing] (c : RegexCall) (fuel : Nat) : Option (Except FeelError Plain) :=
  match Regex.new c.pattern c.flags with
  | none => none
  | some none => some (.error ("invalid regex '" ++ c.pattern ++ "'"))
  | some (some re) =>
    let input := c.input.toList
    match c.method with
    | .isMatch => (re.isMatch input fuel).map fun b => .ok (.bool b)
    | .replaceAll replacement => (re.replaceAll input fuel replacement.toList).map fun cs => .ok (.str (String.ofList cs))
    | .split => (re.split input fuel).map fun parts => .ok (.strings (parts.map String.ofList))
    | .findAll => (re.findAll input fuel).map fun parts => .ok (.strings (parts.map String.ofList))

namespace Builtins

/-- The builtins with a regular expression, up to its call. -/
def regexCall (name : String) (args : List FeelVal) : Option (Except FeelError RegexCall) :=
  let a := arg args 0
  let b := arg args 1
  match name with
  | "matches" => some do
    let input ← wantStr a "matches"
    let pattern ← wantStr b "matches"
    return { input, pattern, flags := textOr (some (arg args 2)) "", method := .isMatch }
  | "replace" => some do
    let input ← wantStr a "replace"
    let pattern ← wantStr b "replace"
    let replacement ← wantStr (arg args 2) "replace"
    return { input, pattern, flags := textOr (some (arg args 3)) "", method := .replaceAll replacement }
  | "split" => some do
    let input ← wantStr a "split"
    return { input, pattern := ← wantStr b "split", flags := "", method := .split }
  | "extract" => some do
    let input ← wantStr a "extract"
    return { input, pattern := ← wantStr b "extract", flags := "", method := .findAll }
  | _ => none

/-- What `call` returns within so many instructions of a regular expression, in a build without overflow checks; nothing
where it panics. -/
def callWithin [Texts] (fuel : Nat) (name : String) (args : List FeelVal) : Option (Except FeelError FeelVal) :=
  match regexCall name args with
  | some (.error err) => some (.error err)
  | some (.ok c) => (@RegexCall.run Texts.unicode Texts.casing c fuel).map (Plain.toVal <$> ·)
  | none => (callChecked false name args).run.toOption

end Builtins

end NanoBpm.FeelExpr
