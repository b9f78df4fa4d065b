import Covenant.Contract.Violation
import Covenant.Error
import Covenant.Value.Display

/-! What happens while contracts are made and run, as noted in a journal. Every event has a
level, an origin and named fields, by which a filter picks it, and a line of text. -/

namespace Covenant

namespace Journal

inductive Level
  | error
  | warn
  | info
  | debug
  | trace
  deriving DecidableEq

namespace Level

/-- The severest level is the least. -/
def rank : Level → Nat
  | error => 1
  | warn => 2
  | info => 3
  | debug => 4
  | trace => 5

def name : Level → String
  | error => "ERROR"
  | warn => "WARN"
  | info => "INFO"
  | debug => "DEBUG"
  | trace => "TRACE"

end Level

inductive Event
  | compiled (name : String) (deferred : Bool)
  | argumentsIgnored
  | running (name : String) (calls : Nat)
  | runningDeferred (name : String) (calls : Nat)
  | checking (kind : Kind) (count : Nat)
  | notTrue (value : Value)
  | notEvaluated (error : RunError)
  | violated (v : Violation)
  | targetFailed
  | deferredTargetFailed

namespace Event

def level : Event → Level
  | argumentsIgnored => .warn
  | checking _ _ | notTrue _ => .trace
  | _ => .debug

/-- The part of the program that an event comes from. -/
def origin : Event → String
  | compiled _ _ | running _ _ | runningDeferred _ _ | notTrue _ | notEvaluated _ =>
    "dbc_core::manifest"
  | argumentsIgnored => "dbc_cli"
  | checking _ _ | violated _ => "dbc_core::evaluator"
  | targetFailed => "dbc_core::wrapper"
  | deferredTargetFailed => "dbc_core::asynchronous"

def message : Event → String
  | compiled _ _ => "compiled manifest"
  | argumentsIgnored =>
    "asynchronous manifests call with their async_args; --args values only set the call count"
  | running _ _ => "executing manifest"
  | runningDeferred _ _ => "executing asynchronous manifest"
  | checking _ _ => "checking conditions"
  | notTrue _ => "predicate did not yield true"
  | notEvaluated _ => "predicate failed to evaluate"
  | violated _ => "contract violated"
  | targetFailed => "target failed, skipping post-call checks"
  | deferredTargetFailed => "async target failed, skipping post-call checks"

/-- What an event tells beside its message, by name. -/
def details : Event → List (String × String)
  | compiled name deferred => [("name", name), ("asynchronous", toString deferred)]
  | running name calls | runningDeferred name calls => [("name", name), ("calls", toString calls)]
  | checking kind count => [("kind", kind.name), ("count", toString count)]
  | notTrue value => [("value", value.display)]
  | notEvaluated error => [("error", (Error.run error).message)]
  | violated v =>
    [("kind", v.kind.name), ("index", toString v.index), ("reason", Text.quoted v.message)]
  | argumentsIgnored | targetFailed | deferredTargetFailed => []

/-- The names by which a filter can ask for an event; every event has a message. -/
def fields (e : Event) : List String := "message" :: e.details.map (·.1)

def text (e : Event) : String :=
  " ".intercalate (e.message :: e.details.map fun (name, value) => name ++ "=" ++ value)

def line (e : Event) : String := e.level.name ++ " " ++ e.text

end Event

end Journal

end Covenant
