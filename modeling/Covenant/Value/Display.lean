import Covenant.Decimal.Layout
import Covenant.Text.Quoted
import Covenant.Value.Basic

/-! Two texts of a value. `display` is meant for people: numbers never have an exponent and
texts are not escaped. `describe` names the type of every part and quotes texts. -/

namespace Covenant

/-- Numbers as people write them: no exponent, and whole numbers without a point. -/
def displayLayout : Decimal.Layout :=
  ⟨fun _ => true, false, false, .up, "NaN", "inf"⟩

/-- Numbers in descriptions: positional from `0.0001` up to sixteen digits before the point. -/
def describeLayout : Decimal.Layout :=
  ⟨fun first => -4 ≤ first && first < 16, true, false, .up, "NaN", "inf"⟩

namespace Value

mutual

def display : Value → String
  | null => "null"
  | boolean b => if b then "true" else "false"
  | integer n => toString n.toInt
  | float x => displayLayout.write x
  | string s => "\"" ++ s ++ "\""
  | array items => "[" ++ ", ".intercalate (displayItems items) ++ "]"
  | object fields => "\x7b" ++ ", ".intercalate (displayFields fields) ++ "\x7d"

def displayItems : List Value → List String
  | [] => []
  | v :: rest => display v :: displayItems rest

def displayFields : List (String × Value) → List String
  | [] => []
  | (name, v) :: rest => ("\"" ++ name ++ "\": " ++ display v) :: displayFields rest

end

mutual

def describe : Value → String
  | null => "Null"
  | boolean b => "Boolean(" ++ (if b then "true" else "false") ++ ")"
  | integer n => "Integer(" ++ toString n.toInt ++ ")"
  | float x => "Float(" ++ describeLayout.write x ++ ")"
  | string s => "String(" ++ Text.quoted s ++ ")"
  | array items => "Array([" ++ ", ".intercalate (describeItems items) ++ "])"
  | object fields => "Object(\x7b" ++ ", ".intercalate (describeFields fields) ++ "\x7d)"

def describeItems : List Value → List String
  | [] => []
  | v :: rest => describe v :: describeItems rest

def describeFields : List (String × Value) → List String
  | [] => []
  | (name, v) :: rest => (Text.quoted name ++ ": " ++ describe v) :: describeFields rest

end

end Value

end Covenant
