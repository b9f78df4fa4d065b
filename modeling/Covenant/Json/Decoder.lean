import Covenant.Json.Basic

/-! Decoding documents into typed values. A decoder is given the number of levels that it may
still open. A record is read from an object, in which a field may come only once and unknown
members are passed over unread, or from an array with the fields in their order. A choice
between names is read from the name, or from an object with the name as its only member and
null as its value. -/

namespace Covenant

abbrev Decoder (α : Type) := Nat → Document → Option α

namespace Decoder

variable {α : Type}

def string : Decoder String
  | _, .string s => some s
  | _, _ => none

def boolean : Decoder Bool
  | _, .boolean b => some b
  | _, _ => none

/-- Natural numbers below `2 ^ 64`, written as integers. -/
def natural : Decoder Nat
  | _, .integer (.ofNat n) => if n < Nat.pow 2 64 then some n else none
  | _, _ => none

def json : Decoder Json := Json.ofDocument?

/-- Null stands for absence. -/
def optional (item : Decoder α) : Decoder (Option α)
  | _, .null => some none
  | depth, d => (item depth d).map some

def list (item : Decoder α) : Decoder (List α)
  | depth + 1, .array items => items.mapM (item depth)
  | _, _ => none

/-- Fields with any names, the last member of a name counting. -/
def fields (item : Decoder α) : Decoder (Fields α)
  | depth + 1, .object members =>
    (members.mapM fun m => (item depth m.2).map (m.1, ·)).map Fields.ofList
  | _, _ => none

/-- The alternatives that a document can name. -/
def named (alternatives : List (String × α)) (name : String) : Option α :=
  (alternatives.find? fun a => a.1 = name).map (·.2)

def choice (alternatives : List (String × α)) : Decoder α
  | _, .string name => named alternatives name
  | _ + 1, .object [(name, .null)] => named alternatives name
  | _, _ => none

/-- In a document that has been taken in as a whole, an empty object can stand for the null
of a choice. -/
def looseChoice (alternatives : List (String × α)) : Decoder α
  | _ + 1, .object [(name, .object [])] => named alternatives name
  | depth, d => choice alternatives depth d

/-! ### Records -/

/-- The members of a record with the given fields, of which an array must have the first
`least`. -/
def members? (names : List String) (least : Nat) : Decoder (List (String × Document))
  | _ + 1, .object members =>
    if names.all fun name => members.countP (·.1 = name) ≤ 1 then some members else none
  | _ + 1, .array items =>
    if least ≤ items.length && items.length ≤ names.length then some (names.zip items) else none
  | _, _ => none

/-- A field of a record at the given depth, with the answer for its absence. -/
def field (name : String) (item : Decoder α) (absent : Option α) (depth : Nat)
    (members : List (String × Document)) : Option α :=
  match members.find? fun m => m.1 = name with
  | some m => item (depth - 1) m.2
  | none => absent

end Decoder

end Covenant
