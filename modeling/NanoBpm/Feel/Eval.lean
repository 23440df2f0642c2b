import NanoBpm.Feel.Builtins
import NanoBpm.Lib.Calls

/-!
# The FEEL evaluator (`engine-core/src/feel/eval.rs`)

A node is evaluated over a stack of frames, which an error leaves as it is at that point. The evaluator recurs on the
node, but for `apply`: its calls are the calls of a program, and what the clock and the random builtins return is read
from outside. A panic and a search without end return nothing to any caller.
-/

namespace NanoBpm.FeelExpr

/-- `Func`. -/
inductive Func where
  | builtin (name : String)
  | lambda (params : List String) (body : Node) (closure : Frame)

def FeelVal.asFunc : FeelVal → Option Func
  | .builtin name => some (.builtin name)
  | .lambda params body closure => some (.lambda params body closure)
  | _ => none

/-- The arguments of `apply`. A builtin that has not returned is called again with more instructions for its regular
expression. -/
structure Call where
  func : Func
  args : List FeelVal
  fuel : Nat

/-- What one reading of the clock and of the random source gives. -/
structure Draw where
  now : Option DateTime
  uuid : String
  random : UInt64

abbrev Result := Except FeelError FeelVal

/-- A computation that calls `apply`. -/
abbrev Steps (α : Type) := Calls.Prog Call Result Draw α

/-! ## Computations over the scopes -/

/-- The frames of `Ctx`, the innermost first; they outlive an error. -/
def EvalM (α : Type) := List Frame → Steps (Except FeelError α × List Frame)

namespace EvalM

variable {α β : Type}

def bind (m : EvalM α) (f : α → EvalM β) : EvalM β := fun scopes => do
  match ← m scopes with
  | (.ok a, scopes) => f a scopes
  | (.error err, scopes) => return (.error err, scopes)

instance : Monad EvalM where
  pure a := fun scopes => pure (.ok a, scopes)
  bind := bind

/-- `?` on a result. -/
def ofExcept (r : Except FeelError α) : EvalM α := fun scopes => pure (r, scopes)

def fail (err : FeelError) : EvalM α := ofExcept (.error err)

/-- The result of a computation, without `?`. -/
def attempt (m : EvalM α) : EvalM (Except FeelError α) := fun scopes => do
  let (r, scopes) ← m scopes
  return (.ok r, scopes)

def getScopes : EvalM (List Frame) := fun scopes => pure (.ok scopes, scopes)

/-- `Ctx::push`. -/
def push (frame : Frame) : EvalM Unit := fun scopes => pure (.ok (), frame :: scopes)

/-- `Ctx::pop`. -/
def pop : EvalM Unit := fun scopes => pure (.ok (), scopes.tail)

/-- `scopes.last_mut().unwrap().insert`. -/
def insertTop (key : String) (value : FeelVal) : EvalM Unit := fun scopes =>
  match scopes with
  | top :: rest => pure (.ok (), Frame.insert top key value :: rest)
  | [] => pure (.ok (), [])

/-- `apply`. -/
def apply (func : Func) (args : List FeelVal) : EvalM FeelVal := fun scopes => .call ⟨func, args, 0⟩ fun r => pure (r, scopes)

end EvalM

open EvalM

/-- `Ctx::lookup`. -/
def lookup (base : Vars) (name : String) : EvalM (Option FeelVal) := do
  return (← getScopes).findSome? (Frame.get · name) <|> base[name]?.map FeelVal.fromValue

/-! ## Members -/

def dateMember (d : Date) (name : String) : FeelVal :=
  match name with
  | "year" => .int d.year
  | "month" => .int d.month
  | "day" => .int d.day
  | "weekday" => .int d.weekday
  | _ => .null

def timeMember (t : Time) (name : String) : FeelVal :=
  match name with
  | "hour" => .int t.hour
  | "minute" => .int t.minute
  | "second" => .int t.second
  | "timezone" => t.zone.elim .null .str
  | _ => .null

def datetimeMember (d : DateTime) (name : String) : FeelVal :=
  match name with
  | "year" | "month" | "day" | "weekday" => dateMember d.date name
  | "hour" | "minute" | "second" | "timezone" => timeMember d.time name
  | _ => .null

def ymMember (d : YmDuration) (name : String) : FeelVal :=
  match name with
  | "years" => .int (d.months.tdiv 12)
  | "months" => .int (d.months.tmod 12)
  | _ => .null

def dtMember (d : DtDuration) (name : String) : FeelVal :=
  let secs := d.nanos.tdiv nanosPerSec
  match name with
  | "days" => .int (secs.tdiv 86400)
  | "hours" => .int ((secs.tdiv 3600).tmod 24)
  | "minutes" => .int ((secs.tdiv 60).tmod 60)
  | "seconds" => .int (secs.tmod 60)
  | _ => .null

mutual

/-- `member`; a list maps the access over its items. -/
def member (v : FeelVal) (name : String) : FeelVal :=
  match v with
  | .context entries => (Frame.get entries name).getD .null
  | .list items => .list (memberItems items name)
  | .date d => dateMember d name
  | .dateTime d => datetimeMember d name
  | .time t => timeMember t name
  | .ymDur d => ymMember d name
  | .dtDur d => dtMember d name
  | _ => .null

def memberItems (items : List FeelVal) (name : String) : List FeelVal :=
  match items with
  | [] => []
  | v :: rest => member v name :: memberItems rest name

end

/-! ## Membership and types -/

/-- `range_contains`. -/
def rangeContains (start : Option FeelVal) (startInclusive : Bool) (stop : Option FeelVal) (endInclusive : Bool)
    (x : FeelVal) : Bool :=
  (match start with
    | none => true
    | some s =>
      match compareVals x s with
      | some .gt => true
      | some .eq => startInclusive
      | _ => false) &&
  (match stop with
    | none => true
    | some e =>
      match compareVals x e with
      | some .lt => true
      | some .eq => endInclusive
      | _ => false)

/-- One item of the right-hand side of `in`. -/
def matchesItem (x item : FeelVal) : Bool :=
  match item with
  | .range start startInclusive stop endInclusive => rangeContains start startInclusive stop endInclusive x
  | other => feelEq x other

/-- `in_test`. -/
def inTest (x rhs : FeelVal) : Bool :=
  match rhs with
  | .list items => items.any (matchesItem x)
  | other => matchesItem x other

def instanceOf (v : FeelVal) (ty : String) : Bool :=
  match ty with
  | "number" | "string" | "boolean" | "list" | "context" | "date" | "time" | "date and time" | "years and months duration"
  | "days and time duration" | "function" | "null" => v.typeName == ty
  | "duration" => v.typeName == "years and months duration" || v.typeName == "days and time duration"
  | "any" => true
  | _ => false

/-! ## Operators -/

def typeErr (op : String) (l r : FeelVal) : FeelError := op ++ " not defined for " ++ l.typeName ++ " and " ++ r.typeName

/-- The numbers of both operands. -/
def bothNums (l r : FeelVal) : Option (UInt64 × UInt64) := do return (← l.asF64, ← r.asF64)

def addDate (d : Date) (dur : DtDuration) : Date := (DateTime.addDt ⟨d, Builtins.midnight⟩ dur).date

def shiftTime (t : Time) (nanos : Int) : Time := .fromNanoOfDay nanos t.offsetSeconds t.zone

def add (l r : FeelVal) : Except FeelError FeelVal :=
  match bothNums l r with
  | some (a, b) => .ok (.num (F64.add a b))
  | none =>
    match l, r with
    | .str a, .str b => .ok (.str (a ++ b))
    | .date d, .ymDur y | .ymDur y, .date d => .ok (.date (d.addMonths y.months))
    | .date d, .dtDur t | .dtDur t, .date d => .ok (.date (addDate d t))
    | .dateTime d, .ymDur y | .ymDur y, .dateTime d => .ok (.dateTime { d with date := d.date.addMonths y.months })
    | .dateTime d, .dtDur t | .dtDur t, .dateTime d => .ok (.dateTime (d.addDt t))
    | .time t, .dtDur d | .dtDur d, .time t => .ok (.time (shiftTime t (wrapI128 (t.nanoOfDay + d.nanos))))
    | .ymDur a, .ymDur b => .ok (.ymDur ⟨wrapI64 (a.months + b.months)⟩)
    | .dtDur a, .dtDur b => .ok (.dtDur ⟨wrapI128 (a.nanos + b.nanos)⟩)
    | _, _ => .error (typeErr "+" l r)

def sub (l r : FeelVal) : Except FeelError FeelVal :=
  match bothNums l r with
  | some (a, b) => .ok (.num (F64.sub a b))
  | none =>
    match l, r with
    | .date a, .date b => .ok (.dtDur ⟨(a.epochDay - b.epochDay) * 86400 * nanosPerSec⟩)
    | .dateTime a, .dateTime b => .ok (.dtDur ⟨a.epochNanos - b.epochNanos⟩)
    | .time a, .time b => .ok (.dtDur ⟨a.nanoOfDay - b.nanoOfDay⟩)
    | .date d, .ymDur y => .ok (.date (d.addMonths (wrapI64 (-y.months))))
    | .date d, .dtDur t => .ok (.date (addDate d ⟨wrapI128 (-t.nanos)⟩))
    | .dateTime d, .ymDur y => .ok (.dateTime { d with date := d.date.addMonths (wrapI64 (-y.months)) })
    | .dateTime d, .dtDur t => .ok (.dateTime (d.addDt ⟨wrapI128 (-t.nanos)⟩))
    | .time t, .dtDur d => .ok (.time (shiftTime t (wrapI128 (t.nanoOfDay - d.nanos))))
    | .ymDur a, .ymDur b => .ok (.ymDur ⟨wrapI64 (a.months - b.months)⟩)
    | .dtDur a, .dtDur b => .ok (.dtDur ⟨wrapI128 (a.nanos - b.nanos)⟩)
    | _, _ => .error (typeErr "-" l r)

/-- `.round() as i64` and `.round() as i128`. -/
def roundTo (bits : Nat) (n : UInt64) : Int := F64.toInt (-(2 ^ (bits - 1))) (2 ^ (bits - 1) - 1) (F64.rounded n)

def mul (l r : FeelVal) : Except FeelError FeelVal :=
  match bothNums l r with
  | some (a, b) => .ok (.num (F64.mul a b))
  | none =>
    match l, r.asF64, r, l.asF64 with
    | .ymDur d, some n, _, _ | _, _, .ymDur d, some n => .ok (.ymDur ⟨roundTo 64 (F64.mul (F64.ofInt d.months) n)⟩)
    | .dtDur d, some n, _, _ | _, _, .dtDur d, some n => .ok (.dtDur ⟨roundTo 128 (F64.mul (F64.ofInt d.nanos) n)⟩)
    | _, _, _, _ => .error (typeErr "*" l r)

def isZero (n : UInt64) : Bool := F64.beq n (F64.ofInt 0)

def div (l r : FeelVal) : Except FeelError FeelVal :=
  match bothNums l r with
  | some (a, b) => .ok (if isZero b then .null else .num (F64.div a b))
  | none =>
    match l, r with
    | .ymDur a, .ymDur b =>
      .ok (if b.months = 0 then .null else .num (F64.div (F64.ofInt a.months) (F64.ofInt b.months)))
    | .dtDur a, .dtDur b => .ok (if b.nanos = 0 then .null else .num (F64.div (F64.ofInt a.nanos) (F64.ofInt b.nanos)))
    | .ymDur d, n =>
      match n.asF64 with
      | some x => .ok (if isZero x then .null else .ymDur ⟨roundTo 64 (F64.div (F64.ofInt d.months) x)⟩)
      | none => .error (typeErr "/" l r)
    | .dtDur d, n =>
      match n.asF64 with
      | some x => .ok (if isZero x then .null else .dtDur ⟨roundTo 128 (F64.div (F64.ofInt d.nanos) x)⟩)
      | none => .error (typeErr "/" l r)
    | _, _ => .error (typeErr "/" l r)

def cmpOp (l r : FeelVal) (f : Ordering → Bool) : Except FeelError FeelVal :=
  match compareVals l r with
  | some o => .ok (.bool (f o))
  | none => .error (typeErr "comparison" l r)

def ternaryAnd (l r : FeelVal) : FeelVal :=
  match l.asBool, r.asBool with
  | some false, _ | _, some false => .bool false
  | some true, some true => .bool true
  | _, _ => .null

def ternaryOr (l r : FeelVal) : FeelVal :=
  match l.asBool, r.asBool with
  | some true, _ | _, some true => .bool true
  | some false, some false => .bool false
  | _, _ => .null

def negate (v : FeelVal) : Except FeelError FeelVal :=
  match v with
  | .ymDur d => .ok (.ymDur ⟨wrapI64 (-d.months)⟩)
  | .dtDur d => .ok (.dtDur ⟨wrapI128 (-d.nanos)⟩)
  | v =>
    match v.asF64 with
    | some n => .ok (.num (F64.neg n))
    | none => .error ("cannot negate " ++ v.typeName)

def complement (v : FeelVal) : Except FeelError FeelVal :=
  match v with
  | .bool b => .ok (.bool !b)
  | .null => .ok .null
  | other => .error ("cannot apply not to " ++ other.typeName)

section

variable [Texts]

/-- The operators of `eval_binary` that evaluate both operands. -/
def operate (op : BinOp) (l r : FeelVal) : Except FeelError FeelVal :=
  match op with
  | .add => add l r
  | .sub => sub l r
  | .mul => mul l r
  | .div => div l r
  | .exp =>
    match bothNums l r with
    | some (a, b) => .ok (.num (Texts.powf a b))
    | none => .error (typeErr "**" l r)
  | .eq => .ok (.bool (feelEq l r))
  | .ne => .ok (.bool !feelEq l r)
  | .lt => cmpOp l r (·.isLT)
  | .le => cmpOp l r (·.isLE)
  | .gt => cmpOp l r (·.isGT)
  | .ge => cmpOp l r (·.isGE)
  | .and => .ok (ternaryAnd l r)
  | .or => .ok (ternaryOr l r)

end

/-! ## Iteration and filters -/

/-- `iterable`: a range of integers, in either direction. -/
def iterable (v : FeelVal) : List FeelVal :=
  match v with
  | .list items => items
  | .range (some (.int a)) _ (some (.int b)) _ =>
    if a ≤ b then (List.range (b - a + 1).toNat).map fun i => .int (a + i)
    else (List.range (a - b + 1).toNat).map fun i => .int (a - i)
  | other => [other]

/-- The element that an index selects, from the end when it is negative. -/
def selectAt (list : List FeelVal) (index : UInt64) : FeelVal :=
  let len : Int := list.length
  let i := FeelVal.asI64 index
  if i = 0 then .null
  else
    let resolved := if i > 0 then i - 1 else len + i
    if resolved < 0 || resolved ≥ len then .null else list[resolved.toNat]?.getD .null

/-- The frame in which a filter is evaluated on an item. -/
def itemFrame (item : FeelVal) : Frame :=
  Frame.insert (match item with
    | .context entries => entries
    | _ => []) "item" item

/-- The filter of `eval_index`. -/
def filterItems (idx : EvalM FeelVal) : List FeelVal → EvalM (List FeelVal)
  | [] => return []
  | item :: rest => do
    push (itemFrame item)
    let keep ← attempt idx
    pop
    let keep ← ofExcept keep
    let kept ← filterItems idx rest
    return if keep.beq (.bool true) then item :: kept else kept

/-- `eval_index`: the index is tried as a number first. -/
def evalIndex (obj idx : EvalM FeelVal) : EvalM FeelVal := do
  let list := match ← obj with
    | .list items => items
    | other => [other]
  match (← attempt idx).toOption.bind FeelVal.asF64 with
  | some n => return selectAt list n
  | none => return .list (← filterItems idx list)

/-- The loop of `eval_for` over the items of its first clause; the frame is passed on. -/
def overItems (name : String) (rest : Frame → EvalM (List FeelVal × Frame)) : List FeelVal → Frame →
    EvalM (List FeelVal × Frame)
  | [], frame => return ([], Frame.remove frame name)
  | item :: items, frame => do
    let (out, frame) ← rest (Frame.insert frame name item)
    let (more, frame) ← overItems name rest items frame
    return (out ++ more, frame)

/-! ## Nodes -/

/-- The builtin that reads the text of an `@` literal with the same parser, and panics where it does. -/
def textBuiltin (s : List Char) : String :=
  if ['P'].isPrefixOf s || ['-', 'P'].isPrefixOf s || ['+', 'P'].isPrefixOf s then "duration"
  else if s.contains 'T' || s.contains 't' then "date and time"
  else "time"

section

variable [Texts]

mutual

/-- `eval_node`. The special case of a bare builtin name as callee in `eval_call` is what `Node::Var` gives. -/
def evalNode (base : Vars) : Node → EvalM FeelVal
  | .null => return .null
  | .boolLit b => return .bool b
  | .numLit v isInteger => return if isInteger then .int (FeelVal.asI64 v) else .num v
  | .strLit s => return .str s
  | .atLit s =>
    match parseTemporal false s.toList with
    | .value p => return p.toVal
    | .refused => fail ("invalid temporal literal @\"" ++ s ++ "\"")
    | .panicked _ => EvalM.apply (.builtin (textBuiltin s.toList)) [.str s]
  | .var name => do
    return (← lookup base name).getD (if Builtins.isBuiltin name then .builtin name else .null)
  | .member obj name => do return member (← evalNode base obj) name
  | .index obj idx => evalIndex (evalNode base obj) (evalNode base idx)
  | .neg inner => do ofExcept (negate (← evalNode base inner))
  | .not inner => do ofExcept (complement (← evalNode base inner))
  | .bin op lhs rhs => do
    let l ← evalNode base lhs
    -- a left operand that decides is not followed by the right one
    if op = .and ∧ l.beq (.bool false) then return .bool false
    if op = .or ∧ l.beq (.bool true) then return .bool true
    ofExcept (operate op l (← evalNode base rhs))
  | .list items => do return .list (← evalItems base items)
  | .context entries => do
    push []
    let map ← evalEntries base entries []
    pop
    return .context map
  | .ifThenElse cond then' else' => do
    match ← evalNode base cond with
    | .bool true => evalNode base then'
    | .bool false => evalNode base else'
    | _ => return .null
  | .forIn clauses body => do return .list (← evalFor base (evalNode base body) clauses []).1
  | .quant q clauses body => do
    let results := (← evalFor base (evalNode base body) clauses []).1
    return .bool (match q with
      | .some => results.any (·.beq (.bool true))
      | .every => results.all (·.beq (.bool true)))
  | .between x lo hi => do
    let xv ← evalNode base x
    let lov ← evalNode base lo
    let hiv ← evalNode base hi
    return .bool ((compareVals xv lov).any (·.isGE) && (compareVals xv hiv).any (·.isLE))
  | .isIn x rhs => do
    let xv ← evalNode base x
    return .bool (inTest xv (← evalNode base rhs))
  | .instanceOf x ty => do return .bool (instanceOf (← evalNode base x) ty)
  | .funcDef params body => do
    return .lambda params body ((← getScopes).reverse.foldl Frame.extend [])
  | .range startInclusive start stop endInclusive => do
    let s ← evalBound base start
    let e ← evalBound base stop
    return .range s startInclusive e endInclusive
  | .callPositional callee args => do
    let v ← evalNode base callee
    match v.asFunc with
    | none => fail ("cannot call a " ++ v.typeName ++ " value")
    | some func => EvalM.apply func (← evalItems base args)
  | .callNamed callee args => do
    let v ← evalNode base callee
    match v.asFunc with
    | none => fail ("cannot call a " ++ v.typeName ++ " value")
    | some (.builtin name) =>
      match Builtins.params name with
      | none => fail ("function '" ++ name ++ "' does not accept named arguments")
      | some params =>
        EvalM.apply (.builtin name) (← evalNamed base params (fun k =>
          "unknown parameter '" ++ k ++ "' for function '" ++ name ++ "'") args (params.map fun _ => .null))
    | some (.lambda params body closure) =>
      EvalM.apply (.lambda params body closure) (← evalNamed base params (fun k => "unknown parameter '" ++ k ++ "'") args
        (params.map fun _ => .null))

def evalItems (base : Vars) : List Node → EvalM (List FeelVal)
  | [] => return []
  | n :: rest => do return (← evalNode base n) :: (← evalItems base rest)

/-- The entries of a context: each sees the ones before it. -/
def evalEntries (base : Vars) : List (String × Node) → Frame → EvalM Frame
  | [], map => return map
  | (key, n) :: rest, map => do
    let v ← evalNode base n
    insertTop key v
    evalEntries base rest (Frame.insert map key v)

/-- `eval_for`. -/
def evalFor (base : Vars) (body : EvalM FeelVal) : List (String × Node) → Frame → EvalM (List FeelVal × Frame)
  | [], frame => do
    push frame
    let v ← attempt body
    pop
    return ([← ofExcept v], frame)
  | (name, source) :: rest, frame => do
    push frame
    let items := iterable (← evalNode base source)
    pop
    overItems name (evalFor base body rest) items frame

/-- The slots of named arguments. -/
def evalNamed (base : Vars) (params : List String) (unknown : String → FeelError) :
    List (String × Node) → List FeelVal → EvalM (List FeelVal)
  | [], slots => return slots
  | (k, n) :: rest, slots => do
    match params.findIdx? (· == k) with
    | none => fail (unknown k)
    | some pos =>
      let v ← evalNode base n
      evalNamed base params unknown rest (slots.set pos v)

def evalBound (base : Vars) : Option Node → EvalM (Option FeelVal)
  | none => return none
  | some n => do return some (← evalNode base n)

end

/-! ## Calls -/

/-- The place of an item among sorted ones. The source leaves the comparisons to the library's stable sort, which documents
no order where they contradict each other; this one puts the later item first where both ways are `Greater`. -/
def insertBy (cmp : FeelVal → FeelVal → Steps Ordering) (a : FeelVal) : List FeelVal → Steps (List FeelVal)
  | [] => return [a]
  | b :: bs => do
    if (← cmp a b) = .gt then return b :: (← insertBy cmp a bs)
    return a :: b :: bs

def sortBy (cmp : FeelVal → FeelVal → Steps Ordering) : List FeelVal → Steps (List FeelVal)
  | [] => return []
  | a :: as => do insertBy cmp a (← sortBy cmp as)

/-- The comparison of `sort` with a function. -/
def precedes (func : Func) (a b : FeelVal) : Steps Ordering :=
  .call ⟨func, [a, b], 0⟩ fun r => return match r with
    | .ok (.bool true) => .lt
    | .ok (.bool false) => .gt
    | _ => .eq

/-- `sort`. -/
def sort (args : List FeelVal) : Steps Result := do
  match Builtins.wantList (Builtins.arg args 0) "sort" with
  | .error err => return .error err
  | .ok list =>
    match args[1]?.bind FeelVal.asFunc with
    | some func => return .ok (.list (← sortBy (precedes func) list))
    | none => return .ok (.list (← sortBy (fun a b => return (compareVals a b).getD .eq) list))

/-- `builtins::call`. One that panics, or searches without end, is called again and again. -/
def callBuiltin (name : String) (args : List FeelVal) (fuel : Nat) : Steps Result :=
  match name with
  | "sort" => sort args
  | "now" => .draw fun d => return .ok (d.now.elim .null .dateTime)
  | "today" => .draw fun d => return .ok (d.now.elim .null fun t => .date t.date)
  | "uuid" => .draw fun d => return .ok (.str d.uuid)
  | "random number" => .draw fun d => return .ok (.double d.random)
  | _ =>
    match Builtins.callWithin fuel name args with
    | some r => return r
    | none => .call ⟨.builtin name, args, fuel + 1⟩ pure

/-- The frame of the arguments; a missing one is null. -/
def argFrame (params : List String) (args : List FeelVal) : Frame :=
  params.zipIdx.foldl (fun frame (p, i) => Frame.insert frame p (Builtins.arg args i)) []

/-- `apply`. -/
def body (base : Vars) : Call → Steps Result
  | ⟨.builtin name, args, fuel⟩ => callBuiltin name args fuel
  | ⟨.lambda params body closure, args, _⟩ => do
    return (← evalNode base body [argFrame params args, closure]).1

/-- `eval::evaluate`. -/
def evaluate (base : Vars) (node : Node) : Steps Result := do return (← evalNode base node []).1

/-- The result of an evaluation with at most `depth` calls open at once. -/
def resultAt (base : Vars) (outside : Nat → Draw) (depth : Nat) (node : Node) : Option Result :=
  (Calls.run (body base) outside depth (evaluate base node) 0).map Prod.fst

end

end NanoBpm.FeelExpr
