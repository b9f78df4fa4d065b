import Covenant.Contract.Deferred
import Covenant.Expr.Parser
import Covenant.Manifest.Codec

/-! Compiling manifests. First the shape of the contract is checked, then the parameters of
the target and its body, then the conditions list by list; the first thing wrong ends it. The
result has a condition for every tuple of the manifest, in the same order. -/

namespace Covenant

/-- The text of something callable: a string, or the string `body` of an object. -/
def Json.source? : Json → Option String
  | string s => some s
  | object fields => (Fields.get? "body" fields).bind string?
  | _ => none

/-- A compiled condition; its arguments are absent when its shape has none. -/
structure Test where
  expr : Expr
  arguments : Option Bag
  message : Option String

/-- How the target is called: directly, or deferred with arguments of its own and after a
delay in milliseconds. -/
inductive Mode
  | direct
  | deferred (arguments : List Value) (delay : Nat)

/-- A contract ready to be run. -/
structure Compiled where
  name : String
  fingerprint : String
  policy : Policy
  initial : State
  parameters : List String
  body : Program
  tests : Clauses (List Test)
  mode : Mode

namespace Manifest

def parameter (item : Json) : Except ManifestError String :=
  match item with
  | .string s => .ok s
  | other => .error (.parameterNotString other)

/-- The names to which a call's arguments are bound; a target without any has none. -/
def parameters (target : Json) : Except ManifestError (List String) :=
  match target.field? "params" with
  | none | some .null => .ok []
  | some (.array items) => items.mapM parameter
  | some other => .error (.parametersNotArray other)

/-- The arguments of a condition; null or nothing stands for none. -/
def arguments : Option Json → Except ManifestError Bag
  | none | some .null => .ok []
  | some (.object fields) => .ok (Value.ofJsonFields fields)
  | some other => .error (.argumentsNotObject other)

/-- A message is a text that is not empty. -/
def message? (item : Option Json) : Option String :=
  (item.bind Json.string?).filter (· ≠ "")

def test (shape : Shape) (tuple : List Json) : Except Error Test := do
  let source := (tuple.head?.bind Json.source?).getD ""
  let expr ← (Expr.parse source).mapError .parse
  match shape with
  | .plain => return ⟨expr, none, message? tuple[1]?⟩
  | .withArguments =>
    let bag ← (arguments tuple[1]?).mapError .manifest
    return ⟨expr, some bag, message? tuple[2]?⟩

/-- The items of a list that are arrays. -/
def tuples (list : Json) : List (List Json) := list.items.filterMap Json.array?

def tests (shape : Shape) (list : Json) : Except Error (List Test) :=
  (tuples list).mapM (test shape)

def compile (m : Manifest) : Except Error Compiled := do
  (m.outline.validate fun j => j.source?.isSome).mapError .structural
  let parameters ← (parameters m.outline.target).mapError .manifest
  let body ← (Program.parse (m.outline.target.source?.getD "")).mapError .parse
  let preconditions ← tests m.shape m.outline.lists.preconditions
  let postconditions ← tests m.shape m.outline.lists.postconditions
  let invariants ← tests m.shape m.outline.lists.invariants
  let mode :=
    if m.deferred then Mode.deferred (Value.listOfJson m.deferredArguments) m.delay else .direct
  return {
    name := m.name
    fingerprint := m.fingerprint
    policy := m.policy
    initial := State.ofJson m.state
    parameters, body
    tests := { preconditions, postconditions, invariants }
    mode }

def validate (m : Manifest) : Except Error Unit := m.compile.map fun _ => ()

end Manifest

/-! ### The contract of a compiled manifest -/

/-- A test holds when its value is exactly `true`. -/
def Test.evaluate (e : Expr) (arguments : Bag) : Act State Bool := do
  match e.eval arguments (← Act.readState) with
  | .ok (.boolean true) => return true
  | .ok v => do
    Act.note (.notTrue v)
    return false
  | .error e => do
    Act.note (.notEvaluated e)
    return false

def Test.toCondition (t : Test) : Condition State :=
  match t.arguments with
  | none => ⟨.plain (evaluate t.expr []), t.message⟩
  | some bag => ⟨.withArguments bag (evaluate t.expr), t.message⟩

/-- Arguments under the names of parameters, by position; what is missing is null. A name
that comes twice has the later argument. -/
def bind (parameters : List String) (arguments : List Value) : Bag :=
  Fields.ofList (parameters.zipIdx.map fun (name, i) => (name, arguments.getD i .null))

namespace Compiled

variable (c : Compiled)

def conditions : Conditions State := c.tests.map (List.map Test.toCondition)

/-- The state before the first call, after the compilation has been noted. -/
def start : World State :=
  let deferred := match c.mode with
    | .direct => false
    | .deferred _ _ => true
  ⟨c.initial, [.compiled c.name deferred]⟩

def withPolicy (policy : Policy) : Compiled := { c with policy }

/-- Runs the body on the arguments. -/
def target (arguments : List Value) : Act State (Ending RunError Value) :=
  Act.onState fun s =>
    match c.body.run (bind c.parameters arguments) s with
    | (.ok v, s) => (.returned v, s)
    | (.error e, s) => (.failed e, s)

def contract : Contract State (List Value) RunError Value := ⟨c.target, c.conditions⟩

/-- With a delay the target is pending at first. -/
def task (delay : Nat) (arguments : List Value) : Task State RunError Value :=
  Task.after (if delay = 0 then 0 else 1) (c.target arguments)

def deferredContract (arguments : List Value) (delay : Nat) :
    DeferredContract State (List Value) RunError Value :=
  ⟨c.task delay, arguments, c.conditions⟩

end Compiled

end Covenant
