import Covenant.Contract.Call

/-! What a call under contract does, step by step. The steps of any contract can be watched
from inside: its predicates and its target are replaced by acts that do the same and also add
an event to a list kept beside the state. The recorded contract is a contract like any other,
so its calls are made by the same code, and beneath the events they are the calls of the
contract it was made from. -/

namespace Covenant

/-- A step of a call: the test of a condition, given by its kind and its place in its list,
the entry into a target that can pause, or the run of the target. -/
inductive Step
  | test (kind : Kind) (index : Nat)
  | enter
  | run
  deriving DecidableEq

/-- A step that was made, with what came of it. -/
inductive Event (ε ρ : Type)
  | tested (kind : Kind) (index : Nat) (held : Bool)
  | entered
  | ran (ending : Ending ε ρ)

namespace Event

variable {ε ρ : Type}

def step : Event ε ρ → Step
  | tested kind index _ => .test kind index
  | entered => .enter
  | ran _ => .run

def isRun : Event ε ρ → Bool
  | ran _ => true
  | _ => false

def isEntry : Event ε ρ → Bool
  | entered => true
  | _ => false

/-- Whether a call goes on after an event. A failure of the target stops only the calls that
do not take it for a result. -/
def GoesOn (failuresGoOn : Bool) : Event ε ρ → Prop
  | tested _ _ held => held = true
  | entered => True
  | ran (.returned _) => True
  | ran (.failed _) => failuresGoOn = true
  | ran (.panicked _) => False

end Event

/-- The part of a call's log without the entry into the target, which a call that is not
deferred does not have. -/
def direct {ε ρ : Type} (log : List (Event ε ρ)) : List (Event ε ρ) :=
  log.filter fun e => !e.isEntry

theorem direct_append {ε ρ : Type} (xs ys : List (Event ε ρ)) :
    direct (xs ++ ys) = direct xs ++ direct ys :=
  List.filter_append ..

/-- Events among which are neither entries nor runs. -/
def OnlyTests {ε ρ : Type} (events : List (Event ε ρ)) : Prop :=
  ∀ e ∈ events, ∃ kind index held, e = .tested kind index held

namespace OnlyTests

variable {ε ρ : Type} {events : List (Event ε ρ)}

theorem ran_notMem (h : OnlyTests events) (ending : Ending ε ρ) : .ran ending ∉ events := by
  intro he
  obtain ⟨_, _, _, hran⟩ := h _ he
  cases hran

theorem entered_notMem (h : OnlyTests events) : .entered ∉ events := by
  intro he
  obtain ⟨_, _, _, hentered⟩ := h _ he
  cases hentered

theorem countP_isRun (h : OnlyTests events) : events.countP Event.isRun = 0 := by
  refine List.countP_eq_zero.2 fun e he => ?_
  obtain ⟨_, _, _, rfl⟩ := h e he
  exact Bool.false_ne_true

theorem any_isRun (h : OnlyTests events) : events.any Event.isRun = false := by
  refine List.any_eq_false.2 fun e he => ?_
  obtain ⟨_, _, _, rfl⟩ := h e he
  exact Bool.false_ne_true

theorem countP_isEntry (h : OnlyTests events) : events.countP Event.isEntry = 0 := by
  refine List.countP_eq_zero.2 fun e he => ?_
  obtain ⟨_, _, _, rfl⟩ := h e he
  exact Bool.false_ne_true

theorem direct (h : OnlyTests events) : direct events = events := by
  refine List.filter_eq_self.2 fun e he => ?_
  obtain ⟨_, _, _, rfl⟩ := h e he
  rfl

end OnlyTests

/-! ### Recording -/

/-- A state with the events so far, oldest first. -/
structure Recorded (σ ε ρ : Type) where
  state : σ
  events : List (Event ε ρ)

variable {σ α β γ ε ρ : Type}

/-- A world with events beside its state. -/
def World.with (w : World σ) (events : List (Event ε ρ)) : World (Recorded σ ε ρ) :=
  ⟨⟨w.state, events⟩, w.journal⟩

/-- The world without the events. -/
def World.plain (w : World (Recorded σ ε ρ)) : World σ := ⟨w.state.state, w.journal⟩

theorem Act.run_bind (x : Act σ β) (f : β → Act σ γ) (w : World σ) :
    (x >>= f) w = f (x w).1 (x w).2 := rfl

/-- Does an act on the state alone and adds an event about its answer. -/
def Act.recorded (act : Act σ β) (event : β → Event ε ρ) : Act (Recorded σ ε ρ) β := fun w =>
  let (b, after) := act w.plain
  (b, after.with (w.state.events ++ [event b]))

def Predicate.recorded (event : Bool → Event ε ρ) :
    Predicate σ → Predicate (Recorded σ ε ρ)
  | plain test => .plain (test.recorded event)
  | withArguments arguments test =>
    .withArguments arguments fun bag => (test bag).recorded event

def Condition.recorded (kind : Kind) (index : Nat) (c : Condition σ) :
    Condition (Recorded σ ε ρ) :=
  ⟨c.predicate.recorded (.tested kind index), c.message⟩

/-- Every condition notes its kind, its place and its answer. -/
def Conditions.recorded (c : Conditions σ) : Conditions (Recorded σ ε ρ) where
  preconditions := c.preconditions.mapIdx (Condition.recorded .precondition)
  postconditions := c.postconditions.mapIdx (Condition.recorded .postcondition)
  invariants := c.invariants.mapIdx (Condition.recorded .invariant)

theorem Conditions.get_recorded (c : Conditions σ) (kind : Kind) :
    (c.recorded (ε := ε) (ρ := ρ)).get kind =
      (c.get kind).mapIdx (Condition.recorded kind) := by
  cases kind <;> rfl

/-! ### What is added by an act -/

/-- From the world `w`, the act `act` does what `plain` does beneath the events, and of the
answer, the world after it and the events it adds `P` is true. -/
def Records (w : World σ) (act : Act (Recorded σ ε ρ) β) (plain : Act σ β)
    (P : β → World σ → List (Event ε ρ) → Prop) : Prop :=
  ∃ events, P (plain w).1 (plain w).2 events ∧
    ∀ before, act (w.with before) = ((plain w).1, (plain w).2.with (before ++ events))

namespace Records

variable {w : World σ} {act : Act (Recorded σ ε ρ) β} {plain : Act σ β}
  {P Q : β → World σ → List (Event ε ρ) → Prop}

theorem imp (h : Records w act plain P)
    (hPQ : ∀ b after events, P b after events → Q b after events) : Records w act plain Q := by
  obtain ⟨events, hP, hrun⟩ := h
  exact ⟨events, hPQ _ _ _ hP, hrun⟩

theorem with_run (h : Records w act plain P) :
    Records w act plain fun b after events => plain w = (b, after) ∧ P b after events := by
  obtain ⟨events, hP, hrun⟩ := h
  exact ⟨events, ⟨rfl, hP⟩, hrun⟩

/-- An act that starts without events ends with those that it adds. -/
theorem of_empty (h : Records w act plain P) :
    P (plain w).1 (plain w).2 (act (w.with [])).2.state.events := by
  obtain ⟨events, hP, hrun⟩ := h
  rw [hrun]
  exact hP

theorem pure (b : β) (h : P b w []) :
    Records w (Pure.pure b : Act (Recorded σ ε ρ) β) (Pure.pure b) P :=
  ⟨[], h, fun before => by rw [List.append_nil]; rfl⟩

theorem note (e : Journal.Event) {P : Unit → World σ → List (Event ε ρ) → Prop}
    (h : P () ⟨w.state, e :: w.journal⟩ []) :
    Records w (Act.note e) (Act.note e) P :=
  ⟨[], h, fun before => by rw [List.append_nil]; rfl⟩

theorem recorded (act : Act σ β) (event : β → Event ε ρ)
    (h : P (act w).1 (act w).2 [event (act w).1]) : Records w (act.recorded event) act P :=
  ⟨_, h, fun _ => rfl⟩

theorem bind {f : β → Act (Recorded σ ε ρ) γ} {g : β → Act σ γ}
    {R : γ → World σ → List (Event ε ρ) → Prop} (h : Records w act plain P)
    (hf : ∀ b after events, P b after events →
      Records after (f b) (g b) fun c last more => R c last (events ++ more)) :
    Records w (act >>= f) (plain >>= g) R := by
  obtain ⟨events, hP, hrun⟩ := h
  obtain ⟨more, hR, hmore⟩ := hf _ _ _ hP
  refine ⟨events ++ more, hR, fun before => ?_⟩
  rw [Act.run_bind, hrun, hmore, List.append_assoc, Act.run_bind]

/-- After a violation the rest of a guarded act is not made. -/
theorem guarded_bind {x : Guarded (Recorded σ ε ρ) β} {y : Guarded σ β}
    {f : β → Guarded (Recorded σ ε ρ) γ} {g : β → Guarded σ γ}
    {P : Except Violation β → World σ → List (Event ε ρ) → Prop}
    {R : Except Violation γ → World σ → List (Event ε ρ) → Prop}
    (h : Records w x.run y.run P)
    (herror : ∀ v after events, P (.error v) after events → R (.error v) after events)
    (hok : ∀ b after events, P (.ok b) after events →
      Records after (f b).run (g b).run fun c last more => R c last (events ++ more)) :
    Records w (x >>= f).run (y >>= g).run R := by
  rw [ExceptT.run_bind, ExceptT.run_bind]
  refine h.bind fun b after events hP => ?_
  cases b with
  | error v => exact pure _ (by simpa using herror v after events hP)
  | ok b => exact hok b after events hP

/-- An act that no violation cuts short, before one that may be cut short. -/
theorem lift_bind {f : β → Guarded (Recorded σ ε ρ) γ} {g : β → Guarded σ γ}
    {R : Except Violation γ → World σ → List (Event ε ρ) → Prop} (h : Records w act plain P)
    (hf : ∀ b after events, P b after events →
      Records after (f b).run (g b).run fun c last more => R c last (events ++ more)) :
    Records w (liftM act >>= f : Guarded (Recorded σ ε ρ) γ).run
      (liftM plain >>= g : Guarded σ γ).run R :=
  h.bind hf

/-- An act with something before it that does nothing beneath the events. -/
theorem lift_seqRight_bind {enter : Act (Recorded σ ε ρ) Unit}
    {f : β → Guarded (Recorded σ ε ρ) γ} {g : β → Guarded σ γ}
    {P : Unit → World σ → List (Event ε ρ) → Prop}
    {R : Except Violation γ → World σ → List (Event ε ρ) → Prop}
    (h : Records w enter (Pure.pure ()) P)
    (hf : ∀ after events, P () after events →
      Records after (liftM act >>= f : Guarded (Recorded σ ε ρ) γ).run
        (liftM plain >>= g : Guarded σ γ).run fun c last more => R c last (events ++ more)) :
    Records w (liftM (enter *> act) >>= f : Guarded (Recorded σ ε ρ) γ).run
      (liftM plain >>= g : Guarded σ γ).run R :=
  h.bind (g := fun _ => (liftM plain >>= g : Guarded σ γ).run) fun _ => hf

end Records

end Covenant
