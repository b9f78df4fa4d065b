import Covenant.Pattern.Class
import Covenant.Text.Word

/-! Whether a text is a well-formed pattern: a regular expression, whose groups may have a name
or switch options and whose parts are not nested too deep. A counted repetition cannot occur,
since where patterns stand there is no closing brace. -/

namespace Covenant.Pattern

/-- Items one after another, with the depth of the last one if it can be repeated. -/
structure Items where
  row : Row
  last : Option Nat

namespace Items

def empty : Items := ⟨.empty, none⟩

def add (i : Items) (depth : Nat) : Items := ⟨i.row.add depth, some depth⟩

/-- Options that are switched are an item, but none to repeat. -/
def addSwitch (i : Items) : Items := ⟨i.row.add 0, none⟩

/-- Repeats the last item. -/
def repeat? (i : Items) : Option Items :=
  i.last.map fun depth => ⟨{ i.row with deepest := max i.row.deepest (depth + 1) }, some (depth + 1)⟩

end Items

/-- A group that is open: how deep its earlier branches are, the items of the last branch, and
the options in force. -/
structure Group where
  branches : Option Nat
  items : Items
  options : Options

namespace Group

def empty (o : Options) : Group := ⟨none, .empty, o⟩

def add (g : Group) (depth : Nat) : Group := { g with items := g.items.add depth }

def depth (g : Group) : Nat := g.items.row.joined g.branches

/-- Starts another branch. -/
def branch (g : Group) : Group :=
  { g with branches := some (max (g.branches.getD 0) g.items.row.depth), items := .empty }

end Group

/-- What has been read: the open groups, from the inside, and the names of groups. -/
structure Reading where
  inner : Group
  outer : List Group
  names : List (List Char)

namespace Reading

def start : Reading := ⟨.empty .standard, [], []⟩

/-- Opens a group, under options that end with it. -/
def enter (r : Reading) (o : Options) : Reading :=
  { r with inner := .empty o, outer := r.inner :: r.outer }

def leave? (r : Reading) : Option Reading :=
  match r.outer with
  | [] => none
  | around :: outer => some { r with inner := around.add (r.inner.depth + 1), outer }

def isNameStart (c : Char) : Bool := Text.isAlphabetic c || c = '_'

def isNamePart (c : Char) : Bool := Text.continuesWord c || c = '.' || c = '[' || c = ']'

/-- Opens a group with a name, which no other group has. -/
def enterNamed? (r : Reading) (rest : List Char) : Option (Reading × List Char) :=
  let name := rest.takeWhile (· ≠ '>')
  match rest.dropWhile (· ≠ '>') with
  | [] => none
  | _ :: rest =>
    if name.head?.any isNameStart && name.all isNamePart && !r.names.contains name then
      some ({ r.enter r.inner.options with names := name :: r.names }, rest)
    else none

/-- Behind an opening parenthesis. -/
def group? (r : Reading) (rest : List Char) : Option (Reading × List Char) :=
  match r.inner.options.skip rest with
  | '?' :: 'P' :: '<' :: rest | '?' :: '<' :: rest => r.enterNamed? rest
  | '?' :: rest => do
    let (given, close, rest) ← Options.letters? [] rest
    let o := r.inner.options.switch given
    if close = ':' then return (r.enter o, rest)
    if given = [] then none
    return ({ r with inner := { r.inner with items := r.inner.items.addSwitch, options := o } }, rest)
  | rest => some (r.enter r.inner.options, rest)

/-- Adds an item without parts. -/
def add? (r : Reading) (p : Piece) : Option Reading :=
  if p.standsAlone r.inner.options then some { r with inner := r.inner.add 0 } else none

/-- Reads the next part of a pattern, which starts with the given character. -/
def next? (r : Reading) (c : Char) (rest : List Char) : Option (Reading × List Char) :=
  match c with
  | '(' => r.group? rest
  | ')' => r.leave?.map (·, rest)
  | '|' => some ({ r with inner := r.inner.branch }, rest)
  | '[' => do
    let (opened, rest) ← openClass? r.inner.options rest
    let (depth, rest) ← class? r.inner.options (rest.length + 1) opened [] rest
    return ({ r with inner := r.inner.add depth }, rest)
  | '?' | '*' | '+' => do
    let items ← r.inner.items.repeat?
    let rest := match rest with
      | '?' :: rest => rest
      | rest => rest
    return ({ r with inner := { r.inner with items } }, rest)
  | '{' => none
  | '\\' => do
    let (p, rest) ← Piece.escaped? r.inner.options rest
    return (← r.add? p, rest)
  | '.' => if r.inner.options.unicode then some ({ r with inner := r.inner.add 0 }, rest) else none
  | '^' | '$' => (r.add? .textEdge).map (·, rest)
  | c => (r.add? (.char c false)).map (·, rest)

def read? : Nat → Reading → List Char → Option Reading
  | 0, _, _ => none
  | steps + 1, r, rest =>
    match r.inner.options.skip rest with
    | [] => some r
    | c :: rest => do
      let (r, rest) ← r.next? c rest
      read? steps r rest

end Reading

/-- The greatest depth of a pattern. -/
def maxDepth : Nat := 250

/-- Every part of a pattern takes a character at least, so that there are enough steps. -/
def isWellFormed (text : String) : Bool :=
  match Reading.read? (text.length + 1) .start text.toList with
  | some r => r.outer.isEmpty && r.inner.depth ≤ maxDepth
  | none => false

end Covenant.Pattern
