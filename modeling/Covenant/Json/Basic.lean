import Covenant.Fields

/-! JSON twice. A `Document` is a text as written: members stand in the order of the text,
a name may come twice, and a leaf can be well formed and yet denote nothing. A `Json` is what
such a text means: fields in the order of their names, each once, the last member of a name
counting. `Json.ofDocument?` takes the one to the other and fails where some part denotes
nothing or the nesting is deeper than allowed. -/

namespace Covenant

inductive Json
  | null
  | boolean (b : Bool)
  | integer (n : Int)
  | float (x : Float)
  | string (s : String)
  | array (items : List Json)
  | object (fields : List (String × Json))
  deriving Inhabited

/-- `void` is a number beyond the range of floats, a string with half a surrogate pair, or an
object with such a name. -/
inductive Document
  | null
  | boolean (b : Bool)
  | integer (n : Int)
  | float (x : Float)
  | string (s : String)
  | array (items : List Document)
  | object (members : List (String × Document))
  | void
  deriving Inhabited

/-- Most levels of arrays and objects that a text may open. -/
def Document.maxDepth : Nat := 127

namespace Json

mutual

/-- The meaning of a document that opens at most `depth` levels. -/
def ofDocument? (depth : Nat) : Document → Option Json
  | .null => some .null
  | .boolean b => some (.boolean b)
  | .integer n => some (.integer n)
  | .float x => some (.float x)
  | .string s => some (.string s)
  | .array items => if depth = 0 then none else (ofItems? (depth - 1) items).map .array
  | .object members =>
    if depth = 0 then none
    else (ofMembers? (depth - 1) members).map fun fields => .object (Fields.ofList fields)
  | .void => none

def ofItems? (depth : Nat) : List Document → Option (List Json)
  | [] => some []
  | d :: rest => do return (← ofDocument? depth d) :: (← ofItems? depth rest)

def ofMembers? (depth : Nat) : List (String × Document) → Option (List (String × Json))
  | [] => some []
  | (name, d) :: rest => do return (name, ← ofDocument? depth d) :: (← ofMembers? depth rest)

end

mutual

def toDocument : Json → Document
  | null => .null
  | boolean b => .boolean b
  | integer n => .integer n
  | float x => .float x
  | string s => .string s
  | array items => .array (itemsToDocument items)
  | object fields => .object (fieldsToDocument fields)

def itemsToDocument : List Json → List Document
  | [] => []
  | j :: rest => toDocument j :: itemsToDocument rest

def fieldsToDocument : List (String × Json) → List (String × Document)
  | [] => []
  | (name, j) :: rest => (name, toDocument j) :: fieldsToDocument rest

end

def isArray : Json → Bool
  | array _ => true
  | _ => false

def string? : Json → Option String
  | string s => some s
  | _ => none

def array? : Json → Option (List Json)
  | array items => some items
  | _ => none

/-- The items of an array; of anything else none. -/
def items : Json → List Json
  | array items => items
  | _ => []

/-- The field of an object. -/
def field? (name : String) : Json → Option Json
  | object fields => Fields.get? name fields
  | _ => none

end Json

end Covenant
