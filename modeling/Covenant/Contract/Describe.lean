import Covenant.Contract.Deferred

/-! Descriptions of contracts for debugging. Predicates and targets are opaque; what can be
shown are the arguments and messages of the conditions. -/

namespace Covenant

def Bag.describe (b : Bag) : String :=
  "\x7b" ++ ", ".intercalate (Value.describeFields b) ++ "\x7d"

def describeList (items : List String) : String := "[" ++ ", ".intercalate items ++ "]"

variable {σ α ε ρ : Type}

def Predicate.describe : Predicate σ → String
  | plain _ => "Plain(..)"
  | withArguments arguments _ =>
    "WithArgs \x7b args: " ++ Bag.describe arguments ++ ", .. \x7d"

def Condition.describe (c : Condition σ) : String :=
  let message := match c.message with
    | none => "None"
    | some m => "Some(" ++ Text.quoted m ++ ")"
  "Condition \x7b predicate: " ++ c.predicate.describe ++ ", message: " ++ message ++ " \x7d"

def Conditions.describe (c : Conditions σ) : String :=
  let list (conditions : List (Condition σ)) := describeList (conditions.map Condition.describe)
  "Clauses \x7b preconditions: " ++ list c.preconditions ++
    ", postconditions: " ++ list c.postconditions ++
    ", invariants: " ++ list c.invariants ++ " \x7d"

def Contract.describe (c : Contract σ α ε ρ) : String :=
  "Contract \x7b clauses: " ++ c.conditions.describe ++ ", .. \x7d"

def DeferredContract.describe (c : DeferredContract σ (List Value) ε ρ) : String :=
  "AsyncContract \x7b args: " ++ describeList (c.arguments.map Value.describe) ++
    ", clauses: " ++ c.conditions.describe ++ ", .. \x7d"

end Covenant
