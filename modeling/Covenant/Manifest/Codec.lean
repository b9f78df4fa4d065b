import Covenant.Json.Decoder
import Covenant.Json.Reader
import Covenant.Manifest.Basic

/-! Reading and writing manifests. A manifest is an object; members that it does not know
are taken in and dropped, so they too must mean something. The canonical text of a manifest
has all names in order, at the top as well, and its hash is the manifest's fingerprint. -/

namespace Covenant

namespace Kind

def names : List (String × Kind) :=
  [("precondition", precondition), ("invariant", invariant), ("postcondition", postcondition)]

def decode : Decoder Kind := Decoder.choice names

end Kind

namespace Shape

def decode : Decoder Shape := Decoder.choice names

end Shape

namespace Policy

def decode : Decoder Policy := Decoder.choice names

end Policy

namespace Outline

def fieldNames : List String := ["fn", "preconditions", "postconditions", "invariants"]

def ofMembers (depth : Nat) (members : List (String × Document)) : Option Outline := do
  let part (name : String) := Decoder.field name Decoder.json (some .null) depth members
  return {
    target := ← part "fn"
    lists :=
      { preconditions := ← part "preconditions"
        postconditions := ← part "postconditions"
        invariants := ← part "invariants" } }

def decode : Decoder Outline := fun depth d => do
  ofMembers depth (← Decoder.members? fieldNames 0 depth d)

def toMembers (o : Outline) : List (String × Document) :=
  [("fn", o.target.toDocument), ("preconditions", o.lists.preconditions.toDocument),
   ("postconditions", o.lists.postconditions.toDocument),
   ("invariants", o.lists.invariants.toDocument)]

def toDocument (o : Outline) : Document := .object o.toMembers

end Outline

namespace Manifest

def fieldNames : List String :=
  ["name", "state", "shape", "on_violation", "async", "async_args", "delay_ms"] ++
    Outline.fieldNames

def decode : Decoder Manifest := fun depth d => do
  match d with
  | .object _ => do
    let members ← Decoder.members? fieldNames 0 depth d
    let unknown := members.filter fun m => !fieldNames.contains m.1
    let _ ← unknown.mapM fun m => Json.ofDocument? (depth - 1) m.2
    let part {α : Type} (name : String) (item : Decoder α) (absent : α) :=
      Decoder.field name item (some absent) depth members
    return {
      name := ← part "name" Decoder.string ""
      state := ← part "state" Decoder.json .null
      outline := ← Outline.ofMembers depth members
      shape := ← part "shape" Shape.decode .plain
      policy := ← part "on_violation" Policy.decode .raise
      deferred := ← part "async" Decoder.boolean false
      deferredArguments := ← part "async_args" Decoder.json .null
      delay := ← part "delay_ms" Decoder.natural 0 }
  | _ => none

/-- The manifest that a text writes. -/
def parse (text : String) : Except ManifestError Manifest :=
  match (Document.parse? text).bind (decode Document.maxDepth) with
  | some m => .ok m
  | none => .error .undecodable

def toMembers (m : Manifest) : List (String × Document) :=
  [("name", .string m.name), ("state", m.state.toDocument)] ++ m.outline.toMembers ++
    [("shape", .string m.shape.name), ("on_violation", .string m.policy.name),
     ("async", .boolean m.deferred), ("async_args", m.deferredArguments.toDocument),
     ("delay_ms", .integer m.delay)]

def toDocument (m : Manifest) : Document := .object m.toMembers

/-- The compact text with all names in order. -/
def canonicalText (m : Manifest) : String :=
  (Document.object (Fields.ofList m.toMembers)).compact

def fingerprint (m : Manifest) : String := Digest.ofText m.canonicalText

end Manifest

end Covenant
