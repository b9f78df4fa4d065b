import Covenant.Manifest.Compile
import Covenant.Manifest.Report

/-! Runs of compiled manifests. The calls of a run are made one after another on one state.
A failure of the target ends the run, and so does a violation under the policy `raise`; the
calls after it are not made. -/

namespace Covenant

/-- What a call's answer means in a report. -/
def Outcome.ofAnswer : Except Violation (Ending RunError Value) → Outcome
  | .ok (.returned v) => returned v
  | .ok (.failed e) => failed (Error.run e).message
  | .ok (.panicked message) => failed message
  | .error v => violated v

/-- The error with which an outcome ends a run. -/
def Outcome.stops? (policy : Policy) : Outcome → Option String
  | returned _ => none
  | violated v => if policy = .raise then some v.message else none
  | failed e => some e

namespace Compiled

variable (c : Compiled)

/-- Makes one call and records it. -/
def record (call : List Value → Guarded State (Ending RunError Value)) (index : Nat)
    (arguments : List Value) : Act State Record := do
  let before ← Act.readState
  let outcome := Outcome.ofAnswer (← (call arguments).run)
  return ⟨index, arguments, outcome, before.changes (← Act.readState)⟩

/-- Makes calls, numbered from `index` on, until one ends the run. -/
def runFrom (call : List Value → Guarded State (Ending RunError Value)) (index : Nat) :
    List (List Value) → Act State (List Record × Option String)
  | [] => return ([], none)
  | arguments :: rest => do
    let first ← record call index arguments
    match first.outcome.stops? c.policy with
    | some error => return ([first], some error)
    | none => do
      let (records, error) ← runFrom call (index + 1) rest
      return (first :: records, error)

def report (call : List Value → Guarded State (Ending RunError Value))
    (calls : List (List Value)) : Act State Report := do
  let (records, error) ← c.runFrom call 0 calls
  return ⟨c.name, c.fingerprint, error.isNone, records, (← Act.readState).fields, error⟩

/-- Runs a contract that is called directly, one call for each list of arguments. -/
def execute (calls : List (List Value)) : Act State (Except RunError Report) := do
  match c.mode with
  | .deferred _ _ => return .error .needsDeferredRun
  | .direct => do
    Act.note (.running c.name calls.length)
    return .ok (← c.report c.contract.tryInvoke calls)

/-- Runs a contract whose calls are deferred a number of times with its own arguments, each
call settling before the next one starts. -/
def executeDeferred (times : Nat) : Act State (Except RunError Report) := do
  match c.mode with
  | .direct => return .error .needsDirectRun
  | .deferred arguments delay => do
    Act.note (.runningDeferred c.name times)
    let call := fun arguments => (c.deferredContract arguments delay).await
    return .ok (← c.report call (List.replicate times arguments))

end Compiled

namespace Manifest

/-- Compiles the manifest that a text writes, its policy replaced where one is given. -/
def load (text : String) (policy : Option Policy) : Except Error Compiled := do
  let m ← (parse text).mapError .manifest
  let c ← m.compile
  return match policy with
    | some p => c.withPolicy p
    | none => c

/-- The pretty text of a report on a fresh state. -/
def output (c : Compiled) (run : Act State (Except RunError Report)) : Except Error String :=
  ((run c.start).1.mapError .run).map fun r => r.toDocument.pretty

def execute (text : String) (calls : List (List Value)) (policy : Option Policy) :
    Except Error String := do
  let c ← load text policy
  output c (c.execute calls)

def executeDeferred (text : String) (times : Nat) (policy : Option Policy) :
    Except Error String := do
  let c ← load text policy
  output c (c.executeDeferred times)

end Manifest

end Covenant
