import NanoBpm.Lib.Float64

/-!
# FEEL syntax trees (`engine-core/src/feel/ast.rs`, `feel/mod.rs:94-148`)

A tree keeps the children of a call and of a range in itself. `collectVars` names every variable node, whatever binds it.
-/

namespace NanoBpm.FeelExpr

inductive Quantifier where
  | some
  | every
deriving DecidableEq

inductive BinOp where
  | add
  | sub
  | mul
  | div
  | exp
  | eq
  | ne
  | lt
  | le
  | gt
  | ge
  | and
  | or
deriving DecidableEq

/-- `Node`; an `f64` is its bits. -/
inductive Node where
  | null
  | boolLit (b : Bool)
  | numLit (value : UInt64) (isInteger : Bool)
  | strLit (s : String)
  | atLit (s : String)
  | var (name : String)
  | member (obj : Node) (name : String)
  | index (obj idx : Node)
  | neg (inner : Node)
  | not (inner : Node)
  | bin (op : BinOp) (lhs rhs : Node)
  | list (items : List Node)
  | context (entries : List (String × Node))
  | ifThenElse (cond then' else' : Node)
  | forIn (clauses : List (String × Node)) (body : Node)
  | quant (q : Quantifier) (clauses : List (String × Node)) (body : Node)
  | between (x lo hi : Node)
  | isIn (x rhs : Node)
  | instanceOf (x : Node) (ty : String)
  | funcDef (params : List String) (body : Node)
  /-- A call with `CallArgs::Positional`. -/
  | callPositional (callee : Node) (args : List Node)
  /-- A call with `CallArgs::Named`. -/
  | callNamed (callee : Node) (args : List (String × Node))
  /-- A `RangeNode`. -/
  | range (startInclusive : Bool) (start stop : Option Node) (endInclusive : Bool)
deriving Inhabited

namespace Node

mutual

/-- `PartialEq` of `Node`: numbers compare as numbers. -/
def beq : Node → Node → Bool
  | .null, .null => true
  | .boolLit a, .boolLit b => a == b
  | .numLit a i, .numLit b j => F64.beq a b && i == j
  | .strLit a, .strLit b => a == b
  | .atLit a, .atLit b => a == b
  | .var a, .var b => a == b
  | .member o a, .member p b => beq o p && a == b
  | .index o i, .index p j => beq o p && beq i j
  | .neg a, .neg b => beq a b
  | .not a, .not b => beq a b
  | .bin o a b, .bin o' a' b' => o == o' && beq a a' && beq b b'
  | .list a, .list b => beqItems a b
  | .context a, .context b => beqEntries a b
  | .ifThenElse a b c, .ifThenElse a' b' c' => beq a a' && beq b b' && beq c c'
  | .forIn a b, .forIn a' b' => beqEntries a a' && beq b b'
  | .quant q a b, .quant q' a' b' => q == q' && beqEntries a a' && beq b b'
  | .between a b c, .between a' b' c' => beq a a' && beq b b' && beq c c'
  | .isIn a b, .isIn a' b' => beq a a' && beq b b'
  | .instanceOf a t, .instanceOf b u => beq a b && t == u
  | .funcDef p a, .funcDef q b => p == q && beq a b
  | .callPositional f a, .callPositional g b => beq f g && beqItems a b
  | .callNamed f a, .callNamed g b => beq f g && beqEntries a b
  | .range si s e ei, .range si' s' e' ei' => si == si' && beqBound s s' && beqBound e e' && ei == ei'
  | _, _ => false

def beqItems : List Node → List Node → Bool
  | [], [] => true
  | a :: as, b :: bs => beq a b && beqItems as bs
  | _, _ => false

def beqEntries : List (String × Node) → List (String × Node) → Bool
  | [], [] => true
  | (k, a) :: as, (l, b) :: bs => k == l && beq a b && beqEntries as bs
  | _, _ => false

def beqBound : Option Node → Option Node → Bool
  | none, none => true
  | some a, some b => beq a b
  | _, _ => false

end

mutual

/-- `collect_vars`. -/
def collectVars : Node → List String
  | .var name => [name]
  | .null | .boolLit _ | .numLit .. | .strLit _ | .atLit _ => []
  | .member base _ => collectVars base
  | .index base idx => collectVars base ++ collectVars idx
  | .neg inner | .not inner => collectVars inner
  | .bin _ l r => collectVars l ++ collectVars r
  | .list items => collectItems items
  | .context entries => collectEntries entries
  | .ifThenElse c t e => collectVars c ++ collectVars t ++ collectVars e
  | .forIn clauses body | .quant _ clauses body => collectEntries clauses ++ collectVars body
  | .between a b c => collectVars a ++ collectVars b ++ collectVars c
  | .isIn a b => collectVars a ++ collectVars b
  | .instanceOf inner _ => collectVars inner
  | .funcDef _ body => collectVars body
  | .callPositional callee args => collectVars callee ++ collectItems args
  | .callNamed callee args => collectVars callee ++ collectEntries args
  | .range _ start stop _ => collectBound start ++ collectBound stop

def collectItems : List Node → List String
  | [] => []
  | n :: rest => collectVars n ++ collectItems rest

def collectEntries : List (String × Node) → List String
  | [] => []
  | (_, n) :: rest => collectVars n ++ collectEntries rest

def collectBound : Option Node → List String
  | none => []
  | some n => collectVars n

end

end Node

end NanoBpm.FeelExpr
