import Covenant.Text.Blank

/-! The options under which a pattern is read, switched by letters at the head of a group. Some
letters change only what a pattern matches; three change what is well formed. In a spaced
pattern, blanks and remarks, from `#` to the end of the line, mean nothing. -/

namespace Covenant.Pattern

structure Options where
  caseless : Bool
  unicode : Bool
  spaced : Bool

namespace Options

def standard : Options := ⟨false, true, false⟩

/-- What follows blanks and remarks; the flag says that the text starts in a remark. -/
def pastRemarks (within : Bool) : List Char → List Char
  | [] => []
  | c :: cs =>
    if within then pastRemarks (c ≠ '\n') cs
    else if Text.isBlank c then pastRemarks false cs
    else if c = '#' then pastRemarks true cs
    else c :: cs

/-- What a pattern goes on with. -/
def skip (o : Options) (rest : List Char) : List Char :=
  if o.spaced then pastRemarks false rest else rest

/-- What a pattern goes on with, which must not be its end. -/
def proceed? (o : Options) (rest : List Char) : Option (List Char) :=
  match o.skip rest with
  | [] => none
  | rest => some rest

/-- A glance at the character to come. It goes past blanks and the mark of one remark, but not
past the remark; where only these are left it sees the first of them. -/
def glance (o : Options) (rest : List Char) : Option Char :=
  let ahead := rest.dropWhile Text.isBlank
  let ahead := match ahead with
    | '#' :: remark => remark.dropWhile Text.isBlank
    | ahead => ahead
  if o.spaced && ahead ≠ [] then ahead.head? else rest.head?

/-! ### Letters -/

def letters : List Char := ['i', 'm', 's', 'U', 'u', 'R', 'x', '-']

/-- The letters, last first, up to a colon or a closing parenthesis. None is given twice, and
a minus is followed by a letter. -/
def letters? (given : List Char) : List Char → Option (List Char × Char × List Char)
  | [] => none
  | c :: rest =>
    if c = ':' || c = ')' then
      if given.head? = some '-' then none else some (given, c, rest)
    else if letters.contains c && !given.contains c then letters? (c :: given) rest
    else none

/-- Letters before a minus switch on, letters behind it off. -/
def switch (o : Options) (given : List Char) : Options :=
  let on := given.reverse.takeWhile (· ≠ '-')
  let set (letter : Char) (before : Bool) : Bool :=
    if given.contains letter then on.contains letter else before
  ⟨set 'i' o.caseless, set 'u' o.unicode, set 'x' o.spaced⟩

end Options

end Covenant.Pattern
