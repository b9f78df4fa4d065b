import Covenant.Journal.Directive

/-! Which events of a journal are shown. Of the directives of a filter that concern an event
the most specific one decides, and of equally specific ones the last. -/

namespace Covenant.Journal

abbrev Filter := List Directive

namespace Filter

/-- The directive that decides about an event. -/
def decisive? (f : Filter) (e : Event) : Option Directive :=
  (f.filter (·.concerns e)).foldl (fun best d =>
    match best with
    | some b => if b.yieldsTo d then some d else some b
    | none => some d) none

def shows (f : Filter) (e : Event) : Bool :=
  match f.decisive? e with
  | some d => e.level.rank ≤ d.rank
  | none => false

/-- What is shown when asked to say more a number of times. -/
def ofVerbosity : Nat → Filter
  | 0 => [.upTo .warn]
  | 1 => [.upTo .debug]
  | _ => [.upTo .trace]

/-- The parts of a text between commas. -/
def parts (cs : List Char) : List (List Char) :=
  cs.foldr (fun c parts =>
    match c, parts with
    | ',', parts => [] :: parts
    | c, part :: parts => (c :: part) :: parts
    | c, [] => [[c]]) [[]]

/-- The filter that a text describes; only errors are shown when it is empty. -/
def parse? (text : String) : Option Filter := do
  let ds ← ((parts text.toList).filter (· ≠ [])).mapM fun part =>
    Directive.ofText? (String.ofList part)
  return if ds.isEmpty then [.upTo .error] else ds.flatten

/-- The filter described by a text, if there is one and it is well formed, else the one for a
verbosity. -/
def choose (description : Option String) (verbosity : Nat) : Filter :=
  (description.bind parse?).getD (ofVerbosity verbosity)

end Filter

/-- The lines of the events that a filter shows. -/
def lines (f : Filter) (events : List Event) : List String :=
  (events.filter f.shows).map Event.line

end Covenant.Journal
