import Covenant.Decimal.Layout
import Covenant.Json.Basic
import Covenant.Text.Quoted

/-! Printing JSON. The compact text has no blanks; the pretty text has one item or member a
line, indented by two spaces a level. Strings escape the double quote, the backslash and the
control characters below the space and nothing else. A float is written with a point or an
exponent, so that it cannot be read as an integer; one that is no number is written `null`. -/

namespace Covenant.Document

/-- Numbers in JSON texts. -/
def layout : Decimal.Layout :=
  ⟨fun first => -5 ≤ first && first ≤ 15, true, true, .toEven, "null", "null"⟩

def escapedChar (c : Char) : List Char :=
  match c with
  | '"' => ['\\', '"']
  | '\\' => ['\\', '\\']
  | '\x08' => ['\\', 'b']
  | '\x0c' => ['\\', 'f']
  | '\n' => ['\\', 'n']
  | '\r' => ['\\', 'r']
  | '\t' => ['\\', 't']
  | c =>
    if c.toNat < 0x10 then "\\u000".toList ++ Text.hex c.toNat
    else if c.toNat < 0x20 then "\\u00".toList ++ Text.hex c.toNat
    else [c]

def quoted (s : String) : String :=
  String.ofList ('"' :: s.toList.flatMap escapedChar ++ ['"'])

def floatText (x : Float) : String :=
  if x.isFinite then layout.write x else "null"

mutual

def compact : Document → String
  | null => "null"
  | boolean b => if b then "true" else "false"
  | integer n => toString n
  | float x => floatText x
  | string s => quoted s
  | array items => "[" ++ ",".intercalate (compactItems items) ++ "]"
  | object members => "\x7b" ++ ",".intercalate (compactMembers members) ++ "\x7d"
  | void => "null"

def compactItems : List Document → List String
  | [] => []
  | d :: rest => compact d :: compactItems rest

def compactMembers : List (String × Document) → List String
  | [] => []
  | (name, d) :: rest => (quoted name ++ ":" ++ compact d) :: compactMembers rest

end

/-- The start of a line at a level. -/
def margin (level : Nat) : String := String.ofList (List.replicate (2 * level) ' ')

/-- A bracketed list with a line for each part; brackets alone where there is none. -/
def block (level : Nat) (opening : String) (parts : List String) (closing : String) : String :=
  match parts with
  | [] => opening ++ closing
  | parts =>
    let lines := parts.map fun part => margin (level + 1) ++ part
    opening ++ "\n" ++ ",\n".intercalate lines ++ "\n" ++ margin level ++ closing

mutual

def prettyAt (level : Nat) : Document → String
  | array items => block level "[" (prettyItems (level + 1) items) "]"
  | object members => block level "\x7b" (prettyMembers (level + 1) members) "\x7d"
  | null => "null"
  | boolean b => if b then "true" else "false"
  | integer n => toString n
  | float x => floatText x
  | string s => quoted s
  | void => "null"

def prettyItems (level : Nat) : List Document → List String
  | [] => []
  | d :: rest => prettyAt level d :: prettyItems level rest

def prettyMembers (level : Nat) : List (String × Document) → List String
  | [] => []
  | (name, d) :: rest => (quoted name ++ ": " ++ prettyAt level d) :: prettyMembers level rest

end

def pretty (d : Document) : String := prettyAt 0 d

end Covenant.Document

namespace Covenant.Json

def compact (j : Json) : String := j.toDocument.compact

def pretty (j : Json) : String := j.toDocument.pretty

end Covenant.Json
