import Covenant.Value.Display

/-! The tokens of the expression language. The last token of a text is `eof`. -/

namespace Covenant.Expr

inductive Token
  | integer (n : Int64)
  | float (x : Float)
  | string (s : String)
  | boolean (b : Bool)
  | null
  | plus
  | minus
  | star
  | slash
  | equal
  | notEqual
  | less
  | lessEqual
  | greater
  | greaterEqual
  | and
  | or
  | bang
  | leftParen
  | rightParen
  | assign
  | semicolon
  | word (w : String)
  | eof
  deriving Inhabited

/-- The name of a token in error messages. -/
def Token.describe : Token → String
  | integer n => "IntegerLiteral(" ++ toString n.toInt ++ ")"
  | float x => "FloatLiteral(" ++ describeLayout.write x ++ ")"
  | string s => "StringLiteral(" ++ Text.quoted s ++ ")"
  | boolean b => if b then "BooleanLiteral(true)" else "BooleanLiteral(false)"
  | null => "Null"
  | plus => "Plus"
  | minus => "Minus"
  | star => "Star"
  | slash => "Slash"
  | equal => "EqEq"
  | notEqual => "NotEq"
  | less => "Less"
  | lessEqual => "LessEq"
  | greater => "Greater"
  | greaterEqual => "GreaterEq"
  | and => "AndAnd"
  | or => "OrOr"
  | bang => "Bang"
  | leftParen => "LParen"
  | rightParen => "RParen"
  | assign => "Assign"
  | semicolon => "Semicolon"
  | word w => "Identifier(" ++ Text.quoted w ++ ")"
  | eof => "Eof"

/-- A token and the number of characters before it. -/
structure Located where
  token : Token
  offset : Nat
  deriving Inhabited

/-- Columns count from one. -/
def Located.column (t : Located) : Nat := t.offset + 1

/-! ### What is wrong with a text -/

/-- What the grammar would have allowed at a place. -/
inductive Expected
  | operand
  | closingParen
  | testName
  | finish

def Expected.describe : Expected → String
  | operand => "an expression"
  | closingParen => "')'"
  | testName => "'empty', 'boolean' or 'number' after 'is'"
  | finish => "end of input"

inductive ParseError
  | unterminatedString (column : Nat)
  | invalidEscape (c : Char) (column : Nat)
  | unterminatedEscape (column : Nat)
  | loneOperator (c : Char) (column : Nat)
  | integerTooLarge (digits : String) (column : Nat)
  | unexpectedCharacter (c : Char) (column : Nat)
  | unexpectedToken (expected : Expected) (found : Token) (column : Nat)
  | tooDeep (limit : Nat) (column : Nat)

def ParseError.message : ParseError → String
  | unterminatedString column => s!"Unterminated string starting at column {column}"
  | invalidEscape c column => s!"Invalid escape sequence '\\{c}' at column {column}"
  | unterminatedEscape column => s!"Unterminated escape sequence at column {column}"
  | loneOperator c column => s!"Expected '{c}{c}' at column {column}"
  | integerTooLarge digits column => s!"Invalid integer '{digits}' at column {column}"
  | unexpectedCharacter c column => s!"Unexpected character '{c}' at column {column}"
  | unexpectedToken expected found column =>
    s!"Expected {expected.describe}, found {found.describe} at column {column}"
  | tooDeep limit column => s!"Expression nested too deeply (limit {limit}) at column {column}"

end Covenant.Expr
