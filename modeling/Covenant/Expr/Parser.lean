import Covenant.Expr.Basic
import Covenant.Expr.Lexer

/-! Parsing by recursive descent. From the loosest to the tightest the operators are `||`,
`&&`, `== !=`, `< <= > >=`, one `is [not] empty|boolean|number` after its operand, `+ -`,
`* /`, and the operators `! -` before their operand; all others associate to the left. The
words of a test are ordinary names where an operand stands.

Two bounds keep hostile texts from exhausting the machine: the parentheses and operators
before an operand that are open at a place, and the depth of the tree. -/

namespace Covenant.Expr

/-- Most parentheses and operators before an operand that may be open at once. -/
def maxNesting : Nat := 64

/-- The deepest tree accepted. -/
def maxDepth : Nat := 256

/-- What is left to read, and the parentheses and operators before an operand that are open. -/
structure Cursor where
  rest : List Located
  nesting : Nat

/-- The token at the place of reading. -/
def Cursor.here (c : Cursor) : Located := c.rest.headD ⟨.eof, 0⟩

/-- Past the token at the place of reading; the end stays in place. -/
def Cursor.next (c : Cursor) : Cursor :=
  match c.rest with
  | _ :: t :: rest => { c with rest := t :: rest }
  | _ => c

/-- The second token from the place of reading. -/
def Cursor.second (c : Cursor) : Located := c.next.here

abbrev Parser := EStateM ParseError Cursor

/-- An expression and the depth of its tree. -/
structure Parsed where
  tree : Expr
  depth : Nat

namespace Parser

def peek : Parser Token := return (← get).here.token

def advance : Parser Unit := modify Cursor.next

def failExpected {α : Type} (expected : Expected) : Parser α := do
  let t := (← get).here
  throw (.unexpectedToken expected t.token t.column)

def failTooDeep {α : Type} (limit : Nat) : Parser α := do
  throw (.tooDeep limit (← get).here.column)

/-- Whether the given word stands here; it is read if so. -/
def word (name : String) : Parser Bool := do
  match ← peek with
  | .word w => if w = name then advance; return true else return false
  | _ => return false

/-- Applies a rule one level deeper. The level is closed again also where the rule fails. -/
def nested {α : Type} (rule : Parser α) : Parser α := fun c =>
  if c.nesting < maxNesting then
    match rule { c with nesting := c.nesting + 1 } with
    | .ok a c => .ok a { c with nesting := c.nesting - 1 }
    | .error e c => .error e { c with nesting := c.nesting - 1 }
  else failTooDeep maxNesting c

/-- A node over parts of the given depth. -/
def node (tree : Expr) (below : Nat) : Parser Parsed :=
  if below < maxDepth then return ⟨tree, below + 1⟩ else failTooDeep maxDepth

/-! ### Binary operators -/

/-- Goes on with operators of one level and their right operands, at most `fuel` of them. -/
def chainFrom (operator : Token → Option BinaryOp) (operand : Parser Parsed) :
    Nat → Parsed → Parser Parsed
  | 0, left => return left
  | fuel + 1, left => do
    match operator (← peek) with
    | none => return left
    | some op => do
      advance
      let right ← operand
      let both ← node (.binary op left.tree right.tree) (max left.depth right.depth)
      chainFrom operator operand fuel both

/-- Operands joined by operators of one level, grouped to the left. Each operator deepens the
tree, so more of them than the deepest tree has levels are never read. -/
def chain (operator : Token → Option BinaryOp) (operand : Parser Parsed) : Parser Parsed := do
  chainFrom operator operand maxDepth (← operand)

def disjunction? : Token → Option BinaryOp
  | .or => some (.connective .or)
  | _ => none

def conjunction? : Token → Option BinaryOp
  | .and => some (.connective .and)
  | _ => none

def equality? : Token → Option BinaryOp
  | .equal => some .equal
  | .notEqual => some .notEqual
  | _ => none

def relation? : Token → Option BinaryOp
  | .less => some (.relation .less)
  | .lessEqual => some (.relation .lessEqual)
  | .greater => some (.relation .greater)
  | .greaterEqual => some (.relation .greaterEqual)
  | _ => none

def sum? : Token → Option BinaryOp
  | .plus => some (.arithmetic .add)
  | .minus => some (.arithmetic .sub)
  | _ => none

def product? : Token → Option BinaryOp
  | .star => some (.arithmetic .mul)
  | .slash => some (.arithmetic .div)
  | _ => none

/-! ### The grammar -/

/-- The name of a test after `is`. -/
def testName : Parser TypeTest := do
  if ← word "empty" then return .empty
  else if ← word "boolean" then return .boolean
  else if ← word "number" then return .number
  else failExpected .testName

/-- An operand with at most one test after it. -/
def tested (operand : Parser Parsed) : Parser Parsed := do
  let subject ← operand
  if ← word "is" then
    let negated ← word "not"
    let kind ← testName
    node (.test subject.tree kind negated) subject.depth
  else return subject

/-- The levels of the grammar above its tightest operands. -/
def levels (operand : Parser Parsed) : Parser Parsed :=
  chain disjunction? <| chain conjunction? <| chain equality? <| chain relation? <|
    tested <| chain sum? <| chain product? operand

/-- The operand that a single token is. -/
def leaf? : Token → Option Expr
  | .integer n => some (.literal (.integer n))
  | .float x => some (.literal (.float x))
  | .string s => some (.literal (.string s))
  | .boolean b => some (.literal (.boolean b))
  | .null => some (.literal .null)
  | .word x => some (.name x)
  | _ => none

def unaryOp? : Token → Option UnaryOp
  | .bang => some .not
  | .minus => some .negate
  | _ => none

/-- An operand with its operators before it. Every step inwards opens a level, so one more
step than levels is never needed. -/
def operand : Nat → Parser Parsed
  | 0 => failTooDeep maxNesting
  | steps + 1 => do
    let token ← peek
    match unaryOp? token with
    | some op => do
      advance
      let inner ← nested (operand steps)
      node (.unary op inner.tree) inner.depth
    | none =>
      match leaf? token with
      | some leaf => do
        advance
        return ⟨leaf, 1⟩
      | none =>
        match token with
        | .leftParen => do
          advance
          let inner ← nested (levels (operand steps))
          match ← peek with
          | .rightParen => do
            advance
            return inner
          | _ => failExpected .closingParen
        | _ => failExpected .operand

def expression : Parser Parsed := levels (operand (maxNesting + 1))

def statement : Parser Statement := do
  match (← get).here.token, (← get).second.token with
  | .word field, .assign => do
    advance
    advance
    return .assign field (← expression).tree
  | _, _ => return .expr (← expression).tree

/-- The statements after those already read, which are given newest first. Every step reads
a token, so it takes no more steps than there are tokens. -/
def statementsFrom : Nat → List Statement → Parser Program
  | 0, read => return read.reverse
  | steps + 1, read => do
    match ← peek with
    | .semicolon => do
      advance
      statementsFrom steps read
    | .eof => return read.reverse
    | _ => do
      let s ← statement
      match ← peek with
      | .semicolon => do
        advance
        statementsFrom steps (s :: read)
      | _ => return (s :: read).reverse

def finish : Parser Unit := do
  match ← peek with
  | .eof => return ()
  | _ => failExpected .finish

/-- One expression that takes up the whole text. -/
def wholeExpression : Parser Expr := do
  let e ← expression
  finish
  return e.tree

/-- Statements between semicolons that take up the whole text; empty statements are skipped. -/
def wholeProgram : Parser Program := do
  let statements ← statementsFrom (← get).rest.length []
  finish
  return statements

/-- The result of a parser on the tokens of a text. -/
def result {α : Type} (p : Parser α) (tokens : List Located) : Except ParseError α :=
  match p ⟨tokens, 0⟩ with
  | .ok a _ => .ok a
  | .error e _ => .error e

end Parser

def parse (text : String) : Except ParseError Expr := do
  Parser.wholeExpression.result (← tokenize text)

end Covenant.Expr

namespace Covenant.Program

def parse (text : String) : Except Expr.ParseError Program := do
  Expr.Parser.wholeProgram.result (← Expr.tokenize text)

end Covenant.Program
