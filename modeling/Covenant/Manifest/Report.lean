import Covenant.Json.Decoder
import Covenant.Json.Reader
import Covenant.Manifest.Codec

/-! Reports of runs. A record says how one call ended and what it changed; a report has the
records of all calls that were made and the state after the last one. All of it is written
as JSON and read back. -/

namespace Covenant

inductive Outcome
  | returned (value : Value)
  | violated (v : Violation)
  | failed (error : String)

structure Record where
  index : Nat
  arguments : List Value
  outcome : Outcome
  changes : List Change

structure Report where
  name : String
  fingerprint : String
  success : Bool
  calls : List Record
  finalState : Fields Value
  error : Option String

/-! ### Writing -/

def Violation.toMembers (v : Violation) : List (String × Document) :=
  [("kind", .string v.kind.name), ("index", .integer v.index), ("message", .string v.message)]

def Violation.toDocument (v : Violation) : Document := .object v.toMembers

def State.toDocument (s : State) : Document :=
  .object [("fields", .object (Value.fieldsToDocument s.fields))]

def Change.toDocument (c : Change) : Document :=
  .object [("field", .string c.field), ("old_value", c.old.toDocument),
    ("new_value", c.new.toDocument)]

/-- The member `status` tells the outcomes apart. -/
def Outcome.toDocument : Outcome → Document
  | returned v => .object [("status", .string "returned"), ("value", v.toDocument)]
  | violated v => .object (("status", .string "violated") :: v.toMembers)
  | failed e => .object [("status", .string "failed"), ("error", .string e)]

def Record.toDocument (r : Record) : Document :=
  .object [("index", .integer r.index), ("args", .array (Value.itemsToDocument r.arguments)),
    ("outcome", r.outcome.toDocument), ("changes", .array (r.changes.map Change.toDocument))]

def Report.toDocument (r : Report) : Document :=
  .object [("name", .string r.name), ("fingerprint", .string r.fingerprint),
    ("success", .boolean r.success), ("calls", .array (r.calls.map Record.toDocument)),
    ("final_state", .object (Value.fieldsToDocument r.finalState)),
    ("error", match r.error with
      | some e => .string e
      | none => .null)]

/-! ### Reading -/

open Decoder (members?)

def Violation.decodeWith (kind : Decoder Kind) : Decoder Violation := fun depth d => do
  let ms ← members? ["kind", "index", "message"] 3 depth d
  return {
    kind := ← Decoder.field "kind" kind none depth ms
    index := ← Decoder.field "index" Decoder.natural none depth ms
    message := ← Decoder.field "message" Decoder.string none depth ms }

def Violation.decode : Decoder Violation := decodeWith Kind.decode

def State.decode : Decoder State := fun depth d => do
  let ms ← members? ["fields"] 1 depth d
  return ⟨← Decoder.field "fields" (Decoder.fields Value.decode) none depth ms⟩

def Change.decode : Decoder Change := fun depth d => do
  let ms ← members? ["field", "old_value", "new_value"] 3 depth d
  return {
    field := ← Decoder.field "field" Decoder.string none depth ms
    old := ← Decoder.field "old_value" Value.decode none depth ms
    new := ← Decoder.field "new_value" Value.decode none depth ms }

/-- The outcome with the given status, from what stands beside the status. -/
def Outcome.decodeRest (status : String) : Decoder Outcome := fun depth d => do
  match status with
  | "returned" => do
    let ms ← members? ["value"] 1 depth d
    return .returned (← Decoder.field "value" Value.decode none depth ms)
  | "violated" => do
    let kind := Decoder.looseChoice Kind.names
    return .violated (← Violation.decodeWith kind depth d)
  | "failed" => do
    let ms ← members? ["error"] 1 depth d
    return .failed (← Decoder.field "error" Decoder.string none depth ms)
  | _ => none

/-- The status may stand anywhere in an object, and stands first in an array. An outcome is
taken in as a whole before its status is looked at, so all of it must mean something. -/
def Outcome.decode : Decoder Outcome := fun depth d => do
  let _ ← Json.ofDocument? depth d
  match d with
  | .object members =>
    match members.partition fun m => m.1 = "status" with
    | ([(_, .string status)], rest) => decodeRest status depth (.object rest)
    | _ => none
  | .array (.string status :: rest) => decodeRest status depth (.array rest)
  | _ => none

def Record.decode : Decoder Record := fun depth d => do
  let ms ← members? ["index", "args", "outcome", "changes"] 4 depth d
  return {
    index := ← Decoder.field "index" Decoder.natural none depth ms
    arguments := ← Decoder.field "args" (Decoder.list Value.decode) none depth ms
    outcome := ← Decoder.field "outcome" Outcome.decode none depth ms
    changes := ← Decoder.field "changes" (Decoder.list Change.decode) none depth ms }

/-- An error that is not mentioned is absent. -/
def Report.decode : Decoder Report := fun depth d => do
  let ms ← members? ["name", "fingerprint", "success", "calls", "final_state", "error"] 6 depth d
  return {
    name := ← Decoder.field "name" Decoder.string none depth ms
    fingerprint := ← Decoder.field "fingerprint" Decoder.string none depth ms
    success := ← Decoder.field "success" Decoder.boolean none depth ms
    calls := ← Decoder.field "calls" (Decoder.list Record.decode) none depth ms
    finalState := ← Decoder.field "final_state" (Decoder.fields Value.decode) none depth ms
    error := ← Decoder.field "error" (Decoder.optional Decoder.string) (some none) depth ms }

end Covenant
