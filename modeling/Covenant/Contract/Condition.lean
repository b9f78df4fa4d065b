import Covenant.Contract.World
import Covenant.State

/-! Conditions and their lists. A condition is a predicate, alone or with arguments of its
own, and perhaps a message. A list is tested in order, up to the first condition that does
not hold. -/

namespace Covenant

inductive Predicate (σ : Type)
  | plain (test : Act σ Bool)
  | withArguments (arguments : Bag) (test : Bag → Act σ Bool)

def Predicate.test {σ : Type} : Predicate σ → Act σ Bool
  | plain test => test
  | withArguments arguments test => test arguments

/-- A step that a violation can cut short. -/
abbrev Guarded (σ : Type) := ExceptT Violation (Act σ)

structure Condition (σ : Type) where
  predicate : Predicate σ
  message : Option String

namespace Condition

variable {σ : Type}

def holds (c : Condition σ) : Act σ Bool := c.predicate.test

/-- The condition's own message; the empty text counts as none. -/
def ownMessage? (c : Condition σ) : Option String := c.message.filter (· ≠ "")

/-- What is reported when the condition does not hold. -/
def messageFor (c : Condition σ) (kind : Kind) : String :=
  c.ownMessage?.getD kind.defaultMessage

/-- Tests the conditions from the one at `index` on. -/
def checkFrom (kind : Kind) (index : Nat) :
    List (Condition σ) → Guarded σ Unit
  | [] => return ()
  | c :: rest => do
    if ← c.holds then checkFrom kind (index + 1) rest
    else
      let v : Violation := ⟨kind, index, c.messageFor kind⟩
      (Act.note (.violated v) : Act σ Unit)
      throw v

/-- Tests a list of conditions. -/
def check (kind : Kind) (conditions : List (Condition σ)) : Guarded σ Unit := do
  (Act.note (.checking kind conditions.length) : Act σ Unit)
  checkFrom kind 0 conditions

end Condition

/-- Something for each kind of condition, such as its list. -/
structure Clauses (γ : Type) where
  preconditions : γ
  postconditions : γ
  invariants : γ

def Clauses.get {γ : Type} (c : Clauses γ) : Kind → γ
  | .precondition => c.preconditions
  | .invariant => c.invariants
  | .postcondition => c.postconditions

def Clauses.map {γ δ : Type} (f : γ → δ) (c : Clauses γ) : Clauses δ :=
  ⟨f c.preconditions, f c.postconditions, f c.invariants⟩

/-- The conditions of a contract. -/
abbrev Conditions (σ : Type) := Clauses (List (Condition σ))

namespace Conditions

variable {σ : Type}

def check (c : Conditions σ) (kind : Kind) : Guarded σ Unit := Condition.check kind (c.get kind)

/-- The conditions tested before the target runs. -/
def beforeCall (c : Conditions σ) : Guarded σ Unit := do
  c.check .precondition
  c.check .invariant

/-- The conditions tested after the target has returned. -/
def afterCall (c : Conditions σ) : Guarded σ Unit := do
  c.check .invariant
  c.check .postcondition

end Conditions

end Covenant
