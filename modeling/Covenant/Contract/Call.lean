import Covenant.Contract.Condition

/-! Calls of a target under contract. The conditions that come before the target keep it from
running when one of them does not hold, and those that come after it discard its result. A
panic of the target passes through at once. The three ways to call differ in what a failure
of the target and a violation amount to. -/

namespace Covenant

/-- How a target ends: with a result, with a failure of its own, or in a panic. -/
inductive Ending (ε ρ : Type)
  | returned (result : ρ)
  | failed (failure : ε)
  | panicked (message : String)

structure Contract (σ α ε ρ : Type) where
  target : α → Act σ (Ending ε ρ)
  conditions : Conditions σ

/-- What follows when a target has ended: the conditions after the call where it returned. A
failure is noted and handed on. -/
def Ending.conclude {σ ε ρ : Type} (conditions : Conditions σ) (failure : Journal.Event) :
    Ending ε ρ → Guarded σ (Ending ε ρ)
  | returned r => do
    conditions.afterCall
    return .returned r
  | failed e => do
    (Act.note failure : Act σ Unit)
    return .failed e
  | panicked message => return .panicked message

namespace Contract

variable {σ α ε ρ : Type} (c : Contract σ α ε ρ)

/-- A call that takes a failure of the target for a result like any other. -/
def invoke (a : α) : Guarded σ (Ending ε ρ) := do
  c.conditions.beforeCall
  match ← c.target a with
  | .panicked message => return .panicked message
  | ending =>
    c.conditions.afterCall
    return ending

/-- A call that turns a violation into a panic. -/
def call (a : α) : Act σ (Ending ε ρ) := do
  match ← (c.invoke a).run with
  | .ok ending => return ending
  | .error v => return .panicked v.message

/-- A call whose target may fail; no conditions are tested after a failure. -/
def tryInvoke (a : α) : Guarded σ (Ending ε ρ) := do
  c.conditions.beforeCall
  (← c.target a).conclude c.conditions .targetFailed

end Contract

end Covenant
