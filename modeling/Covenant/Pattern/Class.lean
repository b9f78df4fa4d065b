import Covenant.Pattern.Piece

/-! Classes of characters in brackets: characters, ranges, named classes and classes again, side
by side or joined by the operators `&&`, `--` and `~~`. A class is read for how deep its parts
are nested. -/

namespace Covenant.Pattern

/-- Parts side by side: how many, and how deep the deepest is. -/
structure Row where
  count : Nat
  deepest : Nat

namespace Row

def empty : Row := ⟨0, 0⟩

def add (r : Row) (depth : Nat) : Row := ⟨r.count + 1, max r.deepest depth⟩

/-- Several parts side by side are one level deeper than each of them. -/
def depth (r : Row) : Nat := if r.count ≤ 1 then r.deepest else r.deepest + 1

/-- How deep a row is behind others that it is joined with. -/
def joined (r : Row) : Option Nat → Nat
  | none => r.depth
  | some before => max before r.depth + 1

end Row

/-- A class whose bracket is open: how deep the part before the last operator is, and what
has been read since. -/
structure OpenClass where
  before : Option Nat
  row : Row

namespace OpenClass

def add (k : OpenClass) (depth : Nat) : OpenClass := { k with row := k.row.add depth }

def depth (k : OpenClass) : Nat := k.row.joined k.before

/-- An operator takes all that stands before it. -/
def operator (k : OpenClass) : OpenClass := ⟨some k.depth, .empty⟩

end OpenClass

/-- The names of classes of ASCII characters. -/
def asciiNames : List String :=
  ["alnum", "alpha", "ascii", "blank", "cntrl", "digit", "graph", "lower", "print", "punct",
   "space", "upper", "word", "xdigit"]

/-- The class named behind a bracket, as in `[:alpha:]`, and whether it is negated. -/
def asciiClass? (rest : List Char) : Option (Bool × List Char) :=
  match rest with
  | ':' :: rest =>
    let (negated, rest) := match rest with
      | '^' :: rest => (true, rest)
      | rest => (false, rest)
    match rest.dropWhile (· ≠ ':') with
    | ':' :: ']' :: after =>
      if asciiNames.contains (String.ofList (rest.takeWhile (· ≠ ':'))) then some (negated, after)
      else none
    | _ => none
  | _ => none

/-- Minus signs at the head of a class stand for themselves. -/
def leadingMinus (o : Options) : Nat → Row → List Char → Option (Row × List Char)
  | steps + 1, row, '-' :: rest => do leadingMinus o steps (row.add 0) (← o.proceed? rest)
  | _, row, rest => some (row, rest)

/-- The characters at the head of a class that stand for themselves there: minus signs, or else
a closing bracket, which could only close a class without parts. -/
def leading? (o : Options) (rest : List Char) : Option (Row × List Char) := do
  let (row, rest) ← leadingMinus o rest.length .empty rest
  match row.count, rest with
  | 0, ']' :: rest => return (row.add 0, ← o.proceed? rest)
  | _, rest => return (row, rest)

/-- The head of a class behind its bracket. Negated classes without Unicode would match parts of
characters. -/
def openClass? (o : Options) (rest : List Char) : Option (OpenClass × List Char) := do
  let rest ← o.proceed? rest
  let rest ← match rest with
    | '^' :: rest => if o.unicode then o.proceed? rest else none
    | rest => some rest
  let (row, rest) ← leading? o rest
  if row.count = 0 || Piece.standsInClass o (.char '-' false) then some (⟨none, row⟩, rest)
  else none

/-- What follows a character, a named class or a range, whose ends must be in order. A minus
before a closing bracket or another minus makes no range. -/
def pastRange? (o : Options) (rest : List Char) : Option (List Char) := do
  let (first, rest) ← Piece.ofClass? o rest
  if !first.standsInClass o then none
  match ← o.proceed? rest with
  | '-' :: after =>
    if o.glance after = some ']' || o.glance after = some '-' then return '-' :: after
    let (last, rest) ← Piece.ofClass? o (← o.proceed? after)
    match first, last with
    | .char a _, .char b _ => if last.standsInClass o && a ≤ b then some rest else none
    | _, _ => none
  | rest => return rest

/-- The depth of a class and what follows it. The open classes are given from the inside. -/
def class? (o : Options) : Nat → OpenClass → List OpenClass → List Char → Option (Nat × List Char)
  | 0, _, _, _ => none
  | steps + 1, inner, outer, rest =>
    match o.skip rest with
    | [] => none
    | '[' :: rest =>
      match asciiClass? rest with
      | some (negated, rest) =>
        if if o.unicode then !o.caseless else !negated then
          class? o steps (inner.add 0) outer rest
        else none
      | none => do
        let (opened, rest) ← openClass? o rest
        class? o steps opened (inner :: outer) rest
    | ']' :: rest =>
      match outer with
      | [] => some (inner.depth + 1, rest)
      | around :: outer => class? o steps (around.add (inner.depth + 1)) outer rest
    | '&' :: '&' :: rest | '-' :: '-' :: rest | '~' :: '~' :: rest =>
      class? o steps inner.operator outer rest
    | rest => do class? o steps (inner.add 0) outer (← pastRange? o rest)

end Covenant.Pattern
