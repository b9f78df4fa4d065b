import Covenant.Decimal.Nearest
import Covenant.Json.Basic
import Covenant.Text.Quoted
import Covenant.Text.Word

/-! The tokens of a JSON text. Blanks between tokens are the space, the tab and the two line
ends, and they have no meaning: two texts with the same tokens are the same document. A
string's text is absent when its escapes leave half a surrogate pair. -/

namespace Covenant.Json

inductive Token
  | openBracket
  | closeBracket
  | openBrace
  | closeBrace
  | comma
  | colon
  | leaf (d : Document)
  | string (s : Option String)

def isBlank (c : Char) : Bool := c == ' ' || c == '\t' || c == '\n' || c == '\r'

/-! ### Strings -/

/-- One unit of a string: a character, or half a surrogate pair. -/
inductive Piece
  | char (c : Char)
  | high (n : Nat)
  | low (n : Nat)

def ofHex? (digits : List Char) : Option Nat :=
  digits.foldlM (fun n c => (Text.hexValue? c).map (16 * n + ·)) 0

def Piece.ofUnit (n : Nat) : Piece :=
  if 0xd800 ≤ n && n < 0xdc00 then .high (n - 0xd800)
  else if 0xdc00 ≤ n && n < 0xe000 then .low (n - 0xdc00)
  else .char (Char.ofNat n)

/-- What a backslash and the given character stand for. -/
def escape? : Char → Option Char
  | '"' => some '"'
  | '\\' => some '\\'
  | '/' => some '/'
  | 'b' => some '\x08'
  | 'f' => some '\x0c'
  | 'n' => some '\n'
  | 'r' => some '\r'
  | 't' => some '\t'
  | _ => none

/-- The pieces of a string up to its closing quote, newest first, and the number of characters
read with the quote. -/
def pieces? (read : List Piece) (width : Nat) : List Char → Option (List Piece × Nat)
  | '"' :: _ => some (read, width + 1)
  | '\\' :: 'u' :: a :: b :: c :: d :: rest =>
    match ofHex? [a, b, c, d] with
    | some n => pieces? (.ofUnit n :: read) (width + 6) rest
    | none => none
  | '\\' :: c :: rest =>
    match escape? c with
    | some e => pieces? (.char e :: read) (width + 2) rest
    | none => none
  | c :: rest => if c.toNat < 0x20 then none else pieces? (.char c :: read) (width + 1) rest
  | [] => none

/-- The text of the pieces, given newest first; absent when a half is left alone. -/
def joined? (text : List Char) : List Piece → Option (List Char)
  | [] => some text
  | .char c :: rest => joined? (c :: text) rest
  | .low l :: .high h :: rest => joined? (Char.ofNat (0x10000 + 0x400 * h + l) :: text) rest
  | _ => none

/-! ### Numbers -/

/-- A decimal numeral as written. -/
structure Numeral where
  negative : Bool
  whole : List Char
  fraction : Option (List Char)
  exponent : Option Int

/-- An integer numeral that fits in 64 bits, with or without a sign, is an integer; only
`-0` is not, since integers have one zero. Every other numeral is the nearest float: reading is
taken to be exact, however long the numeral is. -/
def Numeral.toDocument (n : Numeral) : Document :=
  let size := Decimal.ofDigits n.whole
  let magnitude := Decimal.nearestOfDigits n.whole (n.fraction.getD []) (n.exponent.getD 0)
  let float : Document :=
    if magnitude.isInf then .void else .float (if n.negative then -magnitude else magnitude)
  match n.fraction, n.exponent, n.negative with
  | none, none, false => if size < Nat.pow 2 64 then .integer size else float
  | none, none, true => if 0 < size && size ≤ Nat.pow 2 63 then .integer (-size) else float
  | _, _, _ => float

/-- The digits that must stand here, and what follows them. -/
def digits? (cs : List Char) : Option (List Char × List Char) :=
  match cs.takeWhile Text.isDigit with
  | [] => none
  | ds => some (ds, cs.dropWhile Text.isDigit)

def sign : List Char → Bool × List Char
  | '-' :: cs => (true, cs)
  | cs => (false, cs)

/-- The whole part; no digit follows a zero at its start. -/
def whole? (cs : List Char) : Option (List Char × List Char) := do
  let (ds, rest) ← digits? cs
  if ds.head? = some '0' && 1 < ds.length then none else return (ds, rest)

def fraction? : List Char → Option (Option (List Char) × List Char)
  | '.' :: cs => (digits? cs).map fun (ds, rest) => (some ds, rest)
  | cs => some (none, cs)

def exponentSign : List Char → Bool × List Char
  | '+' :: cs => (false, cs)
  | cs => sign cs

def exponent? : List Char → Option (Option Int × List Char)
  | c :: cs =>
    if c == 'e' || c == 'E' then
      let (negative, cs) := exponentSign cs
      (digits? cs).map fun (ds, rest) =>
        let n : Int := Decimal.ofDigits ds
        (some (if negative then -n else n), rest)
    else some (none, c :: cs)
  | [] => some (none, [])

/-- The numeral that a text is. -/
def numeral? (cs : List Char) : Option Numeral := do
  let (negative, cs) := sign cs
  let (whole, cs) ← whole? cs
  let (fraction, cs) ← fraction? cs
  let (exponent, cs) ← exponent? cs
  if cs.isEmpty then return ⟨negative, whole, fraction, exponent⟩ else none

/-- The characters of numerals. Numerals never stand side by side, so one takes up all of
them. -/
def inNumeral (c : Char) : Bool :=
  Text.isDigit c || c == '-' || c == '+' || c == '.' || c == 'e' || c == 'E'

/-! ### Texts -/

/-- The token at the start of a text, with the number of its characters after the first. -/
def token? (c : Char) (rest : List Char) : Option (Token × Nat) :=
  match c with
  | '[' => some (.openBracket, 0)
  | ']' => some (.closeBracket, 0)
  | '{' => some (.openBrace, 0)
  | '}' => some (.closeBrace, 0)
  | ',' => some (.comma, 0)
  | ':' => some (.colon, 0)
  | '"' => (pieces? [] 0 rest).map fun (ps, width) =>
    (.string ((joined? [] ps).map String.ofList), width)
  | 'n' => if rest.take 3 = ['u', 'l', 'l'] then some (.leaf .null, 3) else none
  | 't' => if rest.take 3 = ['r', 'u', 'e'] then some (.leaf (.boolean true), 3) else none
  | 'f' => if rest.take 4 = ['a', 'l', 's', 'e'] then some (.leaf (.boolean false), 4) else none
  | c =>
    let tail := rest.takeWhile inNumeral
    (numeral? (c :: tail)).map fun n => (.leaf n.toDocument, tail.length)

def tokensAfter? (read : List Token) (cs : List Char) : Option (List Token) :=
  match cs with
  | [] => some read.reverse
  | c :: rest =>
    if isBlank c then tokensAfter? read rest
    else
      match token? c rest with
      | some (token, width) => tokensAfter? (token :: read) (rest.drop width)
      | none => none
termination_by cs.length
decreasing_by all_goals simp only [List.length_cons, List.length_drop]; omega

def tokens? (text : String) : Option (List Token) := tokensAfter? [] text.toList

end Covenant.Json
