import Covenant.Decimal.Nearest
import Covenant.Journal.Event
import Covenant.Pattern.Group
import Covenant.Text.Blank
import Covenant.Text.Word

/-! Directives say up to which level events are shown: those whose origin starts with a given
text, and which have a given field if one is named. As a text, a directive is a level, an
origin, or an origin and a level around `=`; before the level may stand, in brackets, the name
of a span of the program and in braces a field, perhaps with a pattern for its value. No event
of this program lies in a span and patterns look at the fields of spans only, so directives
with either show nothing; their text must be well formed all the same. -/

namespace Covenant.Journal

/-- Shows events up to a rank; rank zero shows none, and an empty origin is that of all. -/
structure Directive where
  origin : String
  field : Option String
  rank : Nat

namespace Directive

/-- Shows every event up to a level. -/
def upTo (l : Level) : Directive := ⟨"", none, l.rank⟩

def concerns (d : Directive) (e : Event) : Bool :=
  d.origin.toList.isPrefixOf e.origin.toList && d.field.all e.fields.contains

/-- A longer origin is more specific; of origins of one length a directive on a field is, and
of two on fields the one whose field comes later in the alphabet. -/
def yieldsTo (d other : Directive) : Bool :=
  if d.origin.length = other.origin.length then
    match d.field, other.field with
    | none, _ => true
    | some _, none => false
    | some a, some b => !decide (b < a)
  else d.origin.length < other.origin.length

/-! ### Levels as texts -/

def rankNames : List (String × Nat) :=
  [("off", 0), ("error", 1), ("warn", 2), ("info", 3), ("debug", 4), ("trace", 5)]

/-- The rank that a level's name, in any case, or a number stands for. -/
def rank? (text : String) : Option Nat :=
  let digits := match text.toList with
    | '+' :: ds => ds
    | ds => ds
  if digits ≠ [] && digits.all Text.isDigit then
    let n := Decimal.ofDigits digits
    if n ≤ Level.trace.rank then some n else none
  else (rankNames.find? fun r => r.1 = text.toLower).map (·.2)

/-! ### Fields as texts -/

/-- A number with a plus sign, which is no pattern. -/
def isPositiveNumber (text : String) : Bool :=
  match text.toLower.toList with
  | '+' :: cs =>
    let whole := cs.takeWhile Text.isDigit
    let (fraction, rest) := match cs.dropWhile Text.isDigit with
      | '.' :: cs => (cs.takeWhile Text.isDigit, cs.dropWhile Text.isDigit)
      | cs => ([], cs)
    let exponent := match rest with
      | 'e' :: '+' :: ds | 'e' :: '-' :: ds | 'e' :: ds => ds ≠ [] && ds.all Text.isDigit
      | rest => rest = []
    (whole ++ fraction ≠ [] && exponent) ||
      ["inf", "infinity", "nan"].contains (String.ofList cs)
  | _ => false

/-- The name of a field, and whether a value is asked of it. What follows a second `=` does
not count. -/
def field? (text : String) : Option (String × Bool) :=
  let cs := text.toList
  let name := String.ofList (cs.takeWhile (· ≠ '='))
  match cs.dropWhile (· ≠ '=') with
  | [] => if cs = [] then none else some (name, false)
  | _ :: value =>
    let value := String.ofList (value.takeWhile (· ≠ '='))
    if isPositiveNumber value || Pattern.isWellFormed value then some (name, true) else none

/-! ### Directives as texts -/

/-- A text without blanks at its ends. -/
def trimmed (cs : List Char) : List Char :=
  ((cs.dropWhile Text.isBlank).reverse.dropWhile Text.isBlank).reverse

/-- The bytes of a directive. Marks are looked for in the text without the blanks at its ends,
but the parts between them are cut out of the text with its blanks, at the same positions. -/
structure Source where
  given : List UInt8
  read : List UInt8

namespace Source

def ofText (text : String) : Source :=
  ⟨text.toUTF8.toList, (String.ofList (trimmed text.toList)).toUTF8.toList⟩

/-- The byte of an ASCII character. -/
def mark (c : Char) : UInt8 := UInt8.ofNat c.toNat

/-- The first of some marks from a position on, and where it is. -/
def find? (s : Source) (start : Nat) (marks : List Char) : Option (Char × Nat) := do
  let i ← (s.read.drop start).findIdx? fun b => marks.any (mark · = b)
  let c ← marks.find? fun c => s.read[start + i]? = some (mark c)
  return (c, start + i)

def cut? (s : Source) (start stop : Nat) : Option String :=
  String.fromUTF8? ⟨((s.given.take stop).drop start).toArray⟩

/-- The level from a position on; none means all. -/
def level? (s : Source) (start : Nat) : Option Nat := do
  let text ← s.cut? start s.given.length
  if text = "" then return Level.trace.rank else rank? text

/-- The level behind a closing bracket. -/
def closing? (s : Source) (start : Nat) : Option Nat :=
  match s.read.drop start with
  | [] => some Level.trace.rank
  | b :: _ => if b = mark '=' then s.level? (start + 1) else none

/-- A directive whose bracket opens before a position. -/
def bracketed? (s : Source) (origin : String) (start : Nat) : Option (List Directive) := do
  let (c, i) ← s.find? start [']', '{']
  let span ← s.cut? start i
  if c = ']' then
    let _ ← s.closing? (i + 1)
    return []
  let (_, j) ← s.find? (i + 1) ['}']
  let (name, valued) ← field? (← s.cut? (i + 1) j)
  if s.read[j + 1]? ≠ some (mark ']') then none
  let rank ← s.closing? (j + 2)
  return if span = "" && !valued then [⟨origin, some name, rank⟩] else []

end Source

/-- What a text directs, if it is well formed. -/
def ofText? (text : String) : Option (List Directive) := do
  let c ← (trimmed text.toList).head?
  let s := Source.ofText text
  if c = '[' then s.bracketed? "" 1
  else if Text.continuesWord c || c = '-' || c = ':' then
    match s.find? 1 ['=', '['] with
    | none =>
      match rank? text with
      | some rank => return [⟨"", none, rank⟩]
      | none => return [⟨text, none, Level.trace.rank⟩]
    | some ('=', i) => return [⟨← s.cut? 0 i, none, ← s.level? (i + 1)⟩]
    | some (_, i) => s.bracketed? (← s.cut? 0 i) (i + 1)
  else none

end Directive

end Covenant.Journal
