import Covenant.Contract.Condition
import Covenant.Digest.Sha256
import Covenant.Error

/-! Manifests: contracts as data. The target and the three lists of conditions are JSON that
has not been checked yet; the other fields say how the contract is run. -/

namespace Covenant

/-- A target and lists of conditions as they come; what is missing is null. -/
structure Outline where
  target : Json
  lists : Clauses Json

/-- How the tuple of a condition is laid out: predicate and message, with the condition's
arguments between them or without. -/
inductive Shape
  | plain
  | withArguments
  deriving DecidableEq

/-- What a violation does to a run: end it, or be recorded and passed over. -/
inductive Policy
  | raise
  | proceed
  deriving DecidableEq

structure Manifest where
  name : String
  state : Json
  outline : Outline
  shape : Shape
  policy : Policy
  deferred : Bool
  deferredArguments : Json
  delay : Nat

namespace Shape

def names : List (String × Shape) := [("plain", plain), ("with_args", withArguments)]

def name : Shape → String
  | plain => "plain"
  | withArguments => "with_args"

end Shape

namespace Policy

def names : List (String × Policy) := [("raise", raise), ("return", proceed)]

def name : Policy → String
  | raise => "raise"
  | proceed => "return"

def ofName (name : String) : Except ManifestError Policy :=
  match name with
  | "raise" => .ok raise
  | "return" => .ok proceed
  | name => .error (.unknownPolicy name)

theorem ofName_name (p : Policy) : ofName p.name = .ok p := by
  cases p <;> rfl

end Policy

namespace Outline

/-- The order in which the lists are looked at. -/
def listOrder : List Kind := [.precondition, .postcondition, .invariant]

/-- The first thing wrong with the shape of a contract: about the target, then about lists
that are no arrays, then about items that are no arrays, then about items that do not start
with something callable. -/
def fault? (callable : Json → Bool) (o : Outline) : Option StructuralError :=
  let firstKind (bad : Json → Bool) := listOrder.find? fun kind => bad (o.lists.get kind)
  (if callable o.target then none else some .targetNotCallable)
    <|> (firstKind fun list => !list.isArray).map .notAnArray
    <|> (firstKind fun list => !list.items.all Json.isArray).map .notAnArrayOfArrays
    <|> (firstKind fun list => !list.items.all fun tuple => tuple.items.head?.any callable).map
      .missingPredicate

def validate (callable : Json → Bool) (o : Outline) : Except StructuralError Unit :=
  match o.fault? callable with
  | some e => .error e
  | none => .ok ()

theorem validate_eq_ok_iff {callable : Json → Bool} {o : Outline} :
    o.validate callable = .ok () ↔ o.fault? callable = none := by
  rw [validate]
  cases o.fault? callable <;> simp

end Outline

end Covenant
