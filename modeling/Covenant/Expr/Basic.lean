import Covenant.Value.Basic

/-! Expressions, and programs made of statements. The depth of an expression is that of its
tree, a leaf having depth one. -/

namespace Covenant

namespace Expr

inductive UnaryOp
  | negate
  | not
  deriving DecidableEq

/-- Truth values joined, the right one only looked at when the left one does not decide. -/
inductive Connective
  | and
  | or
  deriving DecidableEq

inductive Relation
  | less
  | lessEqual
  | greater
  | greaterEqual
  deriving DecidableEq

inductive Arithmetic
  | add
  | sub
  | mul
  | div
  deriving DecidableEq

inductive BinaryOp
  | connective (op : Connective)
  | equal
  | notEqual
  | relation (op : Relation)
  | arithmetic (op : Arithmetic)
  deriving DecidableEq

/-- The tests that `is` names. -/
inductive TypeTest
  | empty
  | boolean
  | number
  deriving DecidableEq

end Expr

inductive Expr
  | literal (v : Value)
  | name (x : String)
  | unary (op : Expr.UnaryOp) (operand : Expr)
  | binary (op : Expr.BinaryOp) (left right : Expr)
  | test (operand : Expr) (kind : Expr.TypeTest) (negated : Bool)

def Expr.depth : Expr → Nat
  | literal _ | name _ => 1
  | unary _ e => e.depth + 1
  | binary _ l r => max l.depth r.depth + 1
  | test e _ _ => e.depth + 1

/-- A statement gives a field of the state a new value, or has a value of its own only. -/
inductive Statement
  | assign (field : String) (value : Expr)
  | expr (e : Expr)

/-- The statements of a target's body, in the order in which they run. -/
abbrev Program := List Statement

end Covenant
