import Covenant.Decimal.Nearest
import Covenant.Expr.Token
import Covenant.Text.Blank
import Covenant.Text.Word

/-! Tokens of a text. The token that starts with a given character is found by looking at the
characters after it; it takes as many of them as it can, and `lexeme` says how many. Blanks
separate tokens and have no other meaning. -/

namespace Covenant.Expr

/-- What a backslash and the given character stand for. -/
def escape? : Char → Option Char
  | 'n' => some '\n'
  | 't' => some '\t'
  | '\\' => some '\\'
  | '"' => some '"'
  | _ => none

/-- The text of a string up to its closing quote and the number of characters read with the
quote. The string starts at `start`; `read` holds its text so far, newest first, and `width`
the number of characters after the opening quote. -/
def stringTail (start : Nat) (read : List Char) (width : Nat) :
    List Char → Except ParseError (String × Nat)
  | [] => .error (.unterminatedString (start + 1))
  | '"' :: _ => .ok (String.ofList read.reverse, width + 1)
  | '\\' :: [] => .error (.unterminatedEscape (start + width + 3))
  | '\\' :: c :: rest =>
    match escape? c with
    | some e => stringTail start (e :: read) (width + 2) rest
    | none => .error (.invalidEscape c (start + width + 4))
  | c :: rest => stringTail start (c :: read) (width + 1) rest

/-- A number goes on with digits, and with a point where a digit follows it. -/
def numberTail (rest : List Char) : List Char × List Char :=
  let whole := rest.takeWhile Text.isDigit
  match rest.drop whole.length with
  | '.' :: after =>
    let fraction := after.takeWhile Text.isDigit
    (whole, fraction)
  | _ => (whole, [])

/-- The number with these digits; whole numbers must fit in 64 bits. -/
def number (start : Nat) (whole fraction : List Char) : Except ParseError Token :=
  match fraction with
  | [] =>
    let n := Decimal.ofDigits whole
    if n < Nat.pow 2 63 then .ok (.integer (Int64.ofNat n))
    else .error (.integerTooLarge (String.ofList whole) (start + 1))
  | fraction => .ok (.float (Decimal.nearestOfDigits whole fraction 0))

/-- The token of a word; three words are literals. -/
def ofWord (cs : List Char) : Token :=
  match String.ofList cs with
  | "true" => .boolean true
  | "false" => .boolean false
  | "null" => .null
  | w => .word w

/-- An operator that a second character can extend. -/
def extended (second : Char) (long short : Token) : List Char → Token × Nat
  | c :: _ => if c = second then (long, 1) else (short, 0)
  | [] => (short, 0)

/-- An operator written twice. -/
def doubled (start : Nat) (c : Char) (token : Token) : List Char → Except ParseError (Token × Nat)
  | d :: _ => if d = c then .ok (token, 1) else .error (.loneOperator c (start + 1))
  | [] => .error (.loneOperator c (start + 1))

/-- The token that starts with `c` at offset `start`, and how many of the characters after
`c` belong to it. -/
def lexeme (start : Nat) (c : Char) (rest : List Char) : Except ParseError (Token × Nat) :=
  match c with
  | '+' => .ok (.plus, 0)
  | '-' => .ok (.minus, 0)
  | '*' => .ok (.star, 0)
  | '/' => .ok (.slash, 0)
  | '(' => .ok (.leftParen, 0)
  | ')' => .ok (.rightParen, 0)
  | ';' => .ok (.semicolon, 0)
  | '=' => .ok (extended '=' .equal .assign rest)
  | '!' => .ok (extended '=' .notEqual .bang rest)
  | '<' => .ok (extended '=' .lessEqual .less rest)
  | '>' => .ok (extended '=' .greaterEqual .greater rest)
  | '&' => doubled start '&' .and rest
  | '|' => doubled start '|' .or rest
  | '"' => (stringTail start [] 0 rest).map fun (s, width) => (.string s, width)
  | c =>
    if Text.isDigit c then
      let (whole, fraction) := numberTail rest
      let point := if fraction.isEmpty then 0 else 1
      (number start (c :: whole) fraction).map (·, whole.length + point + fraction.length)
    else if Text.startsWord c then
      let tail := rest.takeWhile Text.continuesWord
      .ok (ofWord (c :: tail), tail.length)
    else .error (.unexpectedCharacter c (start + 1))

/-- The tokens of the text from offset `start` on, after those already read, which are given
newest first. -/
def tokensFrom (read : List Located) (start : Nat) (cs : List Char) :
    Except ParseError (List Located) :=
  match cs with
  | [] => .ok (⟨.eof, start⟩ :: read).reverse
  | c :: rest =>
    if Text.isBlank c then tokensFrom read (start + 1) rest
    else
      match lexeme start c rest with
      | .ok (token, width) => tokensFrom (⟨token, start⟩ :: read) (start + 1 + width) (rest.drop width)
      | .error e => .error e
termination_by cs.length
decreasing_by all_goals simp only [List.length_cons, List.length_drop]; omega

/-- The tokens of a text, `eof` last. -/
def tokenize (text : String) : Except ParseError (List Located) := tokensFrom [] 0 text.toList

end Covenant.Expr
