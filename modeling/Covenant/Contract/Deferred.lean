import Covenant.Contract.Call

/-! Deferred calls. The target is a task that can pause; a call of it is started first and
then polled until it settles. Nothing happens before the first poll, which tests the
conditions before the target, and the conditions after the target are tested in the poll in
which it ends. So the pauses of the target are the only places where other steps can come
between. -/

namespace Covenant

/-- A target that has still to run: one poll takes it to its end, or to its next pause. -/
inductive Task (σ ε ρ : Type)
  | finish (run : Act σ (Ending ε ρ))
  | pause (work : Act σ Unit) (rest : Task σ ε ρ)

namespace Task

variable {σ ε ρ : Type}

/-- One poll. -/
def step : Task σ ε ρ → Act σ (Ending ε ρ ⊕ Task σ ε ρ)
  | finish run => return .inl (← run)
  | pause work rest => do
    work
    return .inr rest

/-- All polls, with nothing between them. -/
def run : Task σ ε ρ → Act σ (Ending ε ρ)
  | finish run => run
  | pause work rest => do
    work
    rest.run

/-- A task that pauses a number of times and then runs. -/
def after (pauses : Nat) (run : Act σ (Ending ε ρ)) : Task σ ε ρ :=
  match pauses with
  | 0 => .finish run
  | n + 1 => .pause (return ()) (after n run)

theorem run_after (pauses : Nat) (run : Act σ (Ending ε ρ)) : (after pauses run).run = run := by
  induction pauses with
  | zero => rfl
  | succ n ih =>
    funext w
    exact congrFun ih w

/-- A task with some work before anything else, done in its first poll. -/
def precededBy (work : Act σ Unit) : Task σ ε ρ → Task σ ε ρ
  | finish run => .finish do
    work
    run
  | pause first rest => .pause (do work; first) rest

theorem run_precededBy (work : Act σ Unit) (t : Task σ ε ρ) :
    (t.precededBy work).run = work *> t.run := by
  cases t with
  | finish _ => rfl
  | pause _ _ => rfl

end Task

/-- A target that can pause, under contract, with the arguments of all its calls. -/
structure DeferredContract (σ α ε ρ : Type) where
  target : α → Task σ ε ρ
  arguments : α
  conditions : Conditions σ

/-- A deferred call. -/
inductive Deferred (σ ε ρ : Type)
  | fresh
  | waiting (task : Task σ ε ρ)
  | gone

/-- The answer to one poll. -/
inductive Progress (ε ρ : Type)
  | pending
  | settled (result : Except Violation (Ending ε ρ))
  | gone

namespace DeferredContract

variable {σ α ε ρ : Type} (c : DeferredContract σ α ε ρ)

/-- Polls a target that has been entered. -/
def pollTask (task : Task σ ε ρ) : Act σ (Progress ε ρ × Deferred σ ε ρ) := do
  match ← task.step with
  | .inr rest => return (.pending, .waiting rest)
  | .inl ending =>
    return (.settled (← (ending.conclude c.conditions .deferredTargetFailed).run), .gone)

def poll : Deferred σ ε ρ → Act σ (Progress ε ρ × Deferred σ ε ρ)
  | .fresh => do
    match ← c.conditions.beforeCall.run with
    | .error v => return (.settled (.error v), .gone)
    | .ok () => c.pollTask (c.target c.arguments)
  | .waiting task => c.pollTask task
  | .gone => return (.gone, .gone)

/-- A call polled until it settles, with nothing between the polls. -/
def await : Guarded σ (Ending ε ρ) := do
  c.conditions.beforeCall
  (← (c.target c.arguments).run).conclude c.conditions .deferredTargetFailed

end DeferredContract

/-! ### Schedules -/

/-- Deferred calls of one contract. Their numbers are their places in the list, so a number
is never given twice; a call that has settled or has been dropped is gone. -/
structure Pool (σ ε ρ : Type) where
  calls : List (Deferred σ ε ρ)

/-- The steps of a schedule, and with them what touches the state from outside. -/
inductive Pool.Step (σ : Type)
  | start
  | poll (id : Nat)
  | drop (id : Nat)
  | write (change : σ → σ)

inductive Pool.Answer (ε ρ : Type)
  | started (id : Nat)
  | polled (progress : Progress ε ρ)
  | done

namespace Pool

variable {σ α ε ρ : Type}

def empty : Pool σ ε ρ := ⟨[]⟩

def step (c : DeferredContract σ α ε ρ) (p : Pool σ ε ρ) :
    Step σ → Act σ (Answer ε ρ × Pool σ ε ρ)
  | .start => return (.started p.calls.length, ⟨p.calls ++ [.fresh]⟩)
  | .poll id => do
    let (progress, call) ← c.poll (p.calls.getD id .gone)
    return (.polled progress, ⟨p.calls.set id call⟩)
  | .drop id => return (.done, ⟨p.calls.set id .gone⟩)
  | .write change => do
    modify fun w => { w with state := change w.state }
    return (.done, p)

end Pool

end Covenant
