import Covenant.Fields

/-! Values that contracts are about: null, truth values, 64-bit integers, floats, texts,
arrays, and objects with named fields. -/

namespace Covenant

inductive Value
  | null
  | boolean (b : Bool)
  | integer (n : Int64)
  | float (x : Float)
  | string (s : String)
  | array (items : List Value)
  | object (fields : List (String × Value))
  deriving Inhabited

namespace Value

def typeName : Value → String
  | null => "Null"
  | boolean _ => "Boolean"
  | integer _ => "Integer"
  | float _ => "Float"
  | string _ => "String"
  | array _ => "Array"
  | object _ => "Object"

/-- The number that arithmetic and ordering see. -/
def number? : Value → Option Float
  | integer n => some (Float.ofInt n.toInt)
  | float x => some x
  | _ => none

/-- Null, the empty text and the empty collections. -/
def isEmpty : Value → Bool
  | null => true
  | string s => s == ""
  | array items => items.isEmpty
  | object fields => fields.isEmpty
  | _ => false

def isBoolean : Value → Bool
  | boolean _ => true
  | _ => false

def isNumber : Value → Bool
  | integer _ | float _ => true
  | _ => false

mutual

/-- Equal in type and content. Floats are compared as numbers, so the two zeros are the same
and what is not a number is not even the same as itself. -/
def same : Value → Value → Bool
  | null, null => true
  | boolean a, boolean b => a == b
  | integer a, integer b => a == b
  | float a, float b => a == b
  | string a, string b => a == b
  | array a, array b => sameItems a b
  | object a, object b => sameFields a b
  | _, _ => false

def sameItems : List Value → List Value → Bool
  | [], [] => true
  | a :: as, b :: bs => same a b && sameItems as bs
  | _, _ => false

def sameFields : List (String × Value) → List (String × Value) → Bool
  | [], [] => true
  | (j, a) :: as, (k, b) :: bs => j == k && same a b && sameFields as bs
  | _, _ => false

end

end Value

end Covenant
