/-! The three kinds of conditions, and what is reported when one does not hold. -/

namespace Covenant

/-- Preconditions are tested before the target runs, invariants before and after it, and
postconditions after it has returned. -/
inductive Kind
  | precondition
  | invariant
  | postcondition
  deriving DecidableEq

namespace Kind

def name : Kind → String
  | precondition => "precondition"
  | invariant => "invariant"
  | postcondition => "postcondition"

/-- The name of the list of conditions of this kind. -/
def listName : Kind → String
  | precondition => "preconditions"
  | invariant => "invariants"
  | postcondition => "postconditions"

/-- The message of a condition that has none of its own. -/
def defaultMessage (k : Kind) : String := s!"One of the {k.listName} is violated."

end Kind

/-- The condition that did not hold, by its place in its list, and why that matters. -/
structure Violation where
  kind : Kind
  index : Nat
  message : String
  deriving DecidableEq

end Covenant
