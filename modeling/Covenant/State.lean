import Covenant.Value.Json

/-! The state that contracts observe and targets write: named fields, each holding a value.
The changes between two states list the fields of the earlier state that differ or are gone,
in order of name, and after them the fields that are new. -/

namespace Covenant

structure State where
  fields : Fields Value
  deriving Inhabited

/-- Values under names: the arguments of a condition, or a target's parameters. -/
abbrev Bag := Fields Value

namespace State

def get? (s : State) (name : String) : Option Value := Fields.get? name s.fields

def set (s : State) (name : String) (v : Value) : State := ⟨s.fields.insert name v⟩

theorem get?_set (s : State) (name other : String) (v : Value) :
    (s.set name v).get? other = if name = other then some v else s.get? other :=
  Fields.get?_insert name other v s.fields

/-- The fields of an object; no fields for anything else. -/
def ofJson (j : Json) : State :=
  match Value.ofJson j with
  | .object fields => ⟨fields⟩
  | _ => ⟨[]⟩

end State

/-- A field that one call changed. -/
structure Change where
  field : String
  old : Value
  new : Value

namespace Change

/-- What became of one field of the earlier state. -/
def ofField? (after : Fields Value) (field : String × Value) : Option Change :=
  match after.get? field.1 with
  | some new => if new.same field.2 then none else some ⟨field.1, field.2, new⟩
  | none => some ⟨field.1, field.2, .null⟩

/-- A field of the later state that the earlier one lacks. -/
def ofNewField? (before : Fields Value) (field : String × Value) : Option Change :=
  match before.get? field.1 with
  | some _ => none
  | none => some ⟨field.1, .null, field.2⟩

end Change

/-- The changes from one state to another. -/
def State.changes (before after : State) : List Change :=
  before.fields.filterMap (Change.ofField? after.fields) ++
    after.fields.filterMap (Change.ofNewField? before.fields)

end Covenant
