import Covenant.Contract.Violation
import Covenant.Expr.Eval
import Covenant.Expr.Token
import Covenant.Json.Printer

/-! Everything that can be wrong. A structural error is about the shape of a contract and
keeps it from being made; a violation arises when it is called. -/

namespace Covenant

inductive StructuralError
  | targetNotCallable
  | notAnArray (kind : Kind)
  | notAnArrayOfArrays (kind : Kind)
  | missingPredicate (kind : Kind)
  deriving DecidableEq

def StructuralError.message : StructuralError → String
  | targetNotCallable => "First argument must be a function"
  | notAnArray kind => s!"{kind.listName} must be an array"
  | notAnArrayOfArrays kind => s!"{kind.listName} must be an array of array"
  | missingPredicate kind => s!"all {kind.listName} have a function"

/-- What keeps a text from being a contract before the contract is looked at. The message about
a text that cannot be decoded leaves out where the decoder stopped and why, which would stand
after a colon. -/
inductive ManifestError
  | undecodable
  | unknownPolicy (name : String)
  | parameterNotString (found : Json)
  | parametersNotArray (found : Json)
  | argumentsNotObject (found : Json)

def ManifestError.message : ManifestError → String
  | undecodable => "Invalid manifest JSON"
  | unknownPolicy name => s!"unknown violation policy '{name}', expected 'raise' or 'return'"
  | parameterNotString found => s!"target params must be strings, found {found.compact}"
  | parametersNotArray found => s!"target params must be an array, found {found.compact}"
  | argumentsNotObject found =>
    s!"with_args conditions take an argument object after the predicate, found {found.compact}"

inductive Error
  | structural (e : StructuralError)
  | violation (v : Violation)
  | parse (e : Expr.ParseError)
  | manifest (e : ManifestError)
  | run (e : RunError)

def Error.message : Error → String
  | structural e => e.message
  | violation v => v.message
  | parse e => "Parse error: " ++ e.message
  | manifest e => "Manifest error: " ++ e.message
  | run e => "Execution error: " ++ e.message

end Covenant
