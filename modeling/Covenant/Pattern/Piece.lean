import Covenant.Pattern.Options
import Covenant.Text.Quoted

/-! The smallest parts of a pattern: a character, as it is or escaped by a backslash, a class
with a name, or a place between characters. Without Unicode a pattern still matches whole
characters only, so nothing may stand for a part of one. Names of Unicode classes and
letter case beyond ASCII are not known. -/

namespace Covenant.Pattern

inductive Piece
  /-- A character; it may be given as a byte, by two hexadecimal digits. -/
  | char (c : Char) (asByte : Bool)
  /-- Digits, blanks or word characters, or all others. -/
  | named (negated : Bool)
  /-- The characters with a property. -/
  | property
  /-- An end of a word, or its absence. -/
  | wordEdge
  /-- An end of the text. -/
  | textEdge

namespace Piece

/-- Whether a piece may stand by itself. -/
def standsAlone (o : Options) : Piece → Bool
  | char c asByte => if o.unicode then !o.caseless else !(asByte && 0x7f < c.toNat)
  | named negated => !o.unicode && !negated
  | property => false
  | wordEdge => !o.unicode
  | textEdge => true

/-- Whether a piece may stand in a class. -/
def standsInClass (o : Options) : Piece → Bool
  | char c _ => if o.unicode then !o.caseless else c.toNat < 0x80
  | named negated => !o.unicode && !negated
  | _ => false

/-- The number that some hexadecimal digits write. -/
def digits? (o : Options) : Nat → Nat → List Char → Option (Nat × List Char)
  | 0, n, rest => some (n, o.skip rest)
  | count + 1, n, rest => do
    match o.skip rest with
    | [] => none
    | c :: rest => digits? o count (16 * n + (← Text.hexValue? c)) rest

def ofDigits? (o : Options) (count : Nat) (rest : List Char) : Option (Piece × List Char) := do
  let (n, rest) ← digits? o count 0 rest
  if n.isValidChar then some (char (Char.ofNat n) (count = 2), rest) else none

/-- The piece behind a backslash. Letters and digits stand for something else than themselves,
and so do the angle brackets; other ASCII characters lose their meaning. -/
def escaped? (o : Options) : List Char → Option (Piece × List Char)
  | [] => none
  | 'x' :: rest => ofDigits? o 2 rest
  | 'u' :: rest => ofDigits? o 4 rest
  | 'U' :: rest => ofDigits? o 8 rest
  | c :: rest =>
    match c with
    | 'p' | 'P' => some (property, rest)
    | 'd' | 's' | 'w' => some (named false, rest)
    | 'D' | 'S' | 'W' => some (named true, rest)
    | 'a' => some (char '\x07' false, rest)
    | 'f' => some (char '\x0c' false, rest)
    | 't' => some (char '\t' false, rest)
    | 'n' => some (char '\n' false, rest)
    | 'r' => some (char '\r' false, rest)
    | 'v' => some (char '\x0b' false, rest)
    | 'A' | 'z' => some (textEdge, rest)
    | 'b' | 'B' | '<' | '>' => some (wordEdge, rest)
    | c => if c.toNat < 0x80 && !c.isAlphanum then some (char c false, rest) else none

/-- The next piece of a class. -/
def ofClass? (o : Options) : List Char → Option (Piece × List Char)
  | [] => none
  | '\\' :: rest => escaped? o rest
  | c :: rest => some (char c false, rest)

end Piece

end Covenant.Pattern
