import Covenant.Expr.Basic
import Covenant.State

/-! The value of an expression, and the run of a program. A name stands for a local value,
or else for a field of the state. Evaluating changes nothing; a program writes the fields
that its statements assign, and keeps what it has written when a later statement fails.

Integer arithmetic is exact or an error, and division stays among the integers when it comes
out even. Anything with a float in it is computed in floats. Nothing is divided by zero. -/

namespace Covenant

/-- Why a run failed. The last two say that a contract was run in the other way than its own. -/
inductive RunError
  | unknownName (name : String)
  | typeMismatch (expected : String) (found : String)
  | overflow
  | divisionByZero
  | notComparable
  | needsDeferredRun
  | needsDirectRun

def RunError.message : RunError → String
  | unknownName name => s!"Unknown identifier '{name}'"
  | typeMismatch expected found => s!"Type mismatch: expected {expected}, found {found}"
  | overflow => "Integer overflow"
  | divisionByZero => "Division by zero"
  | notComparable => "Cannot compare NaN"
  | needsDeferredRun => "asynchronous manifests must be run with execute_async"
  | needsDirectRun => "synchronous manifests must be run with execute"

/-- What an evaluation comes to. -/
abbrev Result := Except RunError

namespace Value

def expectBoolean : Value → Result Bool
  | boolean b => .ok b
  | v => .error (.typeMismatch "Boolean" v.typeName)

def expectNumber (v : Value) : Result Float :=
  match v.number? with
  | some x => .ok x
  | none => .error (.typeMismatch "number" v.typeName)

/-- An integer that must fit in 64 bits. -/
def exact (n : Int) : Result Value :=
  if Int64.minValue.toInt ≤ n ∧ n ≤ Int64.maxValue.toInt then .ok (.integer (Int64.ofInt n))
  else .error .overflow

/-- Numbers are equal by size, everything else by type and content. -/
def equals : Value → Value → Bool
  | integer a, integer b => a == b
  | v, w =>
    match v.number?, w.number? with
    | some a, some b => a == b
    | _, _ => same v w

def compareFloats (a b : Float) : Result Ordering :=
  if a < b then .ok .lt
  else if a == b then .ok .eq
  else if b < a then .ok .gt
  else .error .notComparable

/-- The order of two texts, or of two numbers. -/
def order : Value → Value → Result Ordering
  | string a, string b => .ok (compare a b)
  | integer a, integer b => .ok (compare a.toInt b.toInt)
  | v, w => do compareFloats (← v.expectNumber) (← w.expectNumber)

end Value

namespace Expr

open Value (exact)

def Relation.holds : Relation → Ordering → Bool
  | less, o => o == .lt
  | lessEqual, o => o != .gt
  | greater, o => o == .gt
  | greaterEqual, o => o != .lt

/-- A quotient that comes out even is an integer. -/
def divideIntegers (a b : Int64) : Result Value :=
  if b = 0 then .error .divisionByZero
  else if b.toInt ∣ a.toInt then exact (a.toInt / b.toInt)
  else .ok (.float (Float.ofInt a.toInt / Float.ofInt b.toInt))

def Arithmetic.onIntegers (a b : Int64) : Arithmetic → Result Value
  | add => exact (a.toInt + b.toInt)
  | sub => exact (a.toInt - b.toInt)
  | mul => exact (a.toInt * b.toInt)
  | div => divideIntegers a b

def Arithmetic.onFloats (a b : Float) : Arithmetic → Result Value
  | add => .ok (.float (a + b))
  | sub => .ok (.float (a - b))
  | mul => .ok (.float (a * b))
  | div => if b == 0.0 then .error .divisionByZero else .ok (.float (a / b))

/-- Addition joins two texts. -/
def Arithmetic.apply : Arithmetic → Value → Value → Result Value
  | add, .string a, .string b => .ok (.string (a ++ b))
  | op, .integer a, .integer b => op.onIntegers a b
  | op, v, w => do op.onFloats (← v.expectNumber) (← w.expectNumber)

def UnaryOp.apply : UnaryOp → Value → Result Value
  | not, v => return .boolean (!(← v.expectBoolean))
  | negate, .integer n => exact (-n.toInt)
  | negate, .float x => .ok (.float (-x))
  | negate, v => .error (.typeMismatch "number" v.typeName)

/-- The left truth value that settles a connective by itself. -/
def Connective.settledBy : Connective → Bool
  | and => false
  | or => true

def TypeTest.passes : TypeTest → Value → Bool
  | empty, v => v.isEmpty
  | boolean, v => v.isBoolean
  | number, v => v.isNumber

/-- The value of a name: the local one before the field. -/
def lookup (locals : Bag) (state : State) (name : String) : Result Value :=
  match locals.get? name with
  | some v => .ok v
  | none =>
    match state.get? name with
    | some v => .ok v
    | none => .error (.unknownName name)

def eval (locals : Bag) (state : State) : Expr → Result Value
  | literal v => .ok v
  | name x => lookup locals state x
  | unary op e => do op.apply (← eval locals state e)
  | binary (.connective op) l r => do
    let left ← (← eval locals state l).expectBoolean
    if left = op.settledBy then return .boolean left
    else return .boolean (← (← eval locals state r).expectBoolean)
  | binary .equal l r => do
    let left ← eval locals state l
    let right ← eval locals state r
    return .boolean (left.equals right)
  | binary .notEqual l r => do
    let left ← eval locals state l
    let right ← eval locals state r
    return .boolean (!left.equals right)
  | binary (.relation op) l r => do
    let left ← eval locals state l
    let right ← eval locals state r
    return .boolean (op.holds (← left.order right))
  | binary (.arithmetic op) l r => do
    let left ← eval locals state l
    let right ← eval locals state r
    op.apply left right
  | test e kind negated => do
    return .boolean (kind.passes (← eval locals state e) != negated)

end Expr

/-! ### Programs -/

/-- The value of a statement and the state after it. -/
def Statement.run (locals : Bag) (state : State) : Statement → Result (Value × State)
  | assign field e => do
    let v ← e.eval locals state
    return (v, state.set field v)
  | expr e => return (← e.eval locals state, state)

namespace Program

/-- Runs statements after one whose value was `last`. -/
def runFrom (locals : Bag) (last : Value) : Program → State → Result Value × State
  | [], state => (.ok last, state)
  | s :: rest, state =>
    match s.run locals state with
    | .ok (v, state) => runFrom locals v rest state
    | .error e => (.error e, state)

/-- The value of the last statement, null where there is none, and the state at the end,
which after a failure is the state before the statement that failed. -/
def run (locals : Bag) (p : Program) (state : State) : Result Value × State :=
  runFrom locals .null p state

end Program

end Covenant
