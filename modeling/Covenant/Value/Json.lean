import Covenant.Json.Decoder
import Covenant.Json.Printer
import Covenant.Value.Basic

/-! Values and JSON. A JSON integer that fits in 64 bits with a sign is an integer, and every
other number is a float. In the other direction a float that is no finite number becomes null.
Values are also read from documents, and written to them, without a `Json` between. -/

namespace Covenant.Value

/-- The value of a whole number: an integer where it fits, else the nearest float. -/
def ofInt (n : Int) : Value :=
  if Int64.minValue.toInt ≤ n ∧ n ≤ Int64.maxValue.toInt then .integer (Int64.ofInt n)
  else .float (Float.ofInt n)

mutual

def ofJson : Json → Value
  | .null => null
  | .boolean b => boolean b
  | .integer n => ofInt n
  | .float x => float x
  | .string s => string s
  | .array items => array (ofJsonItems items)
  | .object fields => object (ofJsonFields fields)

def ofJsonItems : List Json → List Value
  | [] => []
  | j :: rest => ofJson j :: ofJsonItems rest

def ofJsonFields : List (String × Json) → List (String × Value)
  | [] => []
  | (name, j) :: rest => (name, ofJson j) :: ofJsonFields rest

end

mutual

def toJson : Value → Json
  | null => .null
  | boolean b => .boolean b
  | integer n => .integer n.toInt
  | float x => if x.isFinite then .float x else .null
  | string s => .string s
  | array items => .array (toJsonItems items)
  | object fields => .object (toJsonFields fields)

def toJsonItems : List Value → List Json
  | [] => []
  | v :: rest => toJson v :: toJsonItems rest

def toJsonFields : List (String × Value) → List (String × Json)
  | [] => []
  | (name, v) :: rest => (name, toJson v) :: toJsonFields rest

end

mutual

/-- The value of a document that opens at most `depth` levels. -/
def decode (depth : Nat) : Document → Option Value
  | .null => some null
  | .boolean b => some (boolean b)
  | .integer n => some (ofInt n)
  | .float x => some (float x)
  | .string s => some (string s)
  | .array items => if depth = 0 then none else (decodeItems (depth - 1) items).map array
  | .object members =>
    if depth = 0 then none
    else (decodeMembers (depth - 1) members).map fun fields => object (Fields.ofList fields)
  | .void => none

def decodeItems (depth : Nat) : List Document → Option (List Value)
  | [] => some []
  | d :: rest => do return (← decode depth d) :: (← decodeItems depth rest)

def decodeMembers (depth : Nat) : List (String × Document) → Option (List (String × Value))
  | [] => some []
  | (name, d) :: rest => do return (name, ← decode depth d) :: (← decodeMembers depth rest)

end

mutual

def toDocument : Value → Document
  | null => .null
  | boolean b => .boolean b
  | integer n => .integer n.toInt
  | float x => .float x
  | string s => .string s
  | array items => .array (itemsToDocument items)
  | object fields => .object (fieldsToDocument fields)

def itemsToDocument : List Value → List Document
  | [] => []
  | v :: rest => toDocument v :: itemsToDocument rest

def fieldsToDocument : List (String × Value) → List (String × Document)
  | [] => []
  | (name, v) :: rest => (name, toDocument v) :: fieldsToDocument rest

end

/-- The values of an array; none of anything else. -/
def listOfJson (j : Json) : List Value := j.items.map ofJson

end Covenant.Value
