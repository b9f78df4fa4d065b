import Covenant.Manifest.Run
import Covenant.Proofs.Polling

/-! What one call of a compiled manifest amounts to, told without the code that makes it: the
tests are looked at in their order on the state at that moment, and the state is what the body
left. Both ways to make a call agree with this. -/

namespace Covenant

/-! ### Tests -/

namespace Test

/-- A test holds if its expression, with the arguments of the test as the only local values,
has the value `true`. -/
def holds (t : Test) (s : State) : Bool :=
  match t.expr.eval (t.arguments.getD []) s with
  | .ok (.boolean true) => true
  | _ => false

def messageFor (t : Test) (kind : Kind) : String :=
  if t.message.getD "" = "" then kind.defaultMessage else t.message.getD ""

/-- The place of the first test that does not hold; the number of tests if they all hold. -/
def firstFailing (tests : List Test) (s : State) : Nat := tests.findIdx fun t => !t.holds s

def violation? (kind : Kind) (tests : List Test) (s : State) : Option Violation :=
  tests[firstFailing tests s]?.map fun t => ⟨kind, firstFailing tests s, t.messageFor kind⟩

/-- The tests that are made, with their answers. -/
def log (kind : Kind) (tests : List Test) (s : State) : List (Event RunError Value) :=
  (tests.take (firstFailing tests s + 1)).mapIdx fun i t => .tested kind i (t.holds s)

end Test

/-- What a list of conditions answers, if the first violation is the given one. -/
def verdict : Option Violation → Except Violation Unit
  | none => .ok ()
  | some v => .error v

theorem eq_none_of_verdict {violation : Option Violation} {u : Unit}
    (h : .ok u = verdict violation) : violation = none := by
  cases violation with
  | none => rfl
  | some v => cases h

theorem eq_some_of_verdict {violation : Option Violation} {v : Violation}
    (h : .error v = verdict violation) : violation = some v := by
  cases violation with
  | none => cases h
  | some v' =>
    cases h
    rfl

/-! ### Calls -/

/-- What came of a call: the steps that were made, the outcome, and the state after it. -/
structure Reference where
  events : List (Event RunError Value)
  outcome : Outcome
  state : State

namespace Compiled

variable (c : Compiled)

/-- The first violation among the tests of some kinds, taken in order. -/
def violation? (kinds : List Kind) (s : State) : Option Violation :=
  kinds.findSome? fun kind => Test.violation? kind (c.tests.get kind) s

/-- The tests of some kinds that are made, up to the first that does not hold. -/
def log (s : State) : List Kind → List (Event RunError Value)
  | [] => []
  | kind :: rest =>
    Test.log kind (c.tests.get kind) s ++
      if (Test.violation? kind (c.tests.get kind) s).isSome then [] else log s rest

/-- A call on the state `s`. Its body starts from `s`, and nothing else changes the state. -/
def reference (arguments : List Value) (s : State) : Reference :=
  let before := c.log s [.precondition, .invariant]
  match c.violation? [.precondition, .invariant] s with
  | some v => ⟨before, .violated v, s⟩
  | none =>
    match c.body.run (bind c.parameters arguments) s with
    | (.error e, s') => ⟨before ++ [.ran (.failed e)], .failed (Error.run e).message, s'⟩
    | (.ok value, s') =>
      let events := before ++ .ran (.returned value) :: c.log s' [.invariant, .postcondition]
      match c.violation? [.invariant, .postcondition] s' with
      | some v => ⟨events, .violated v, s'⟩
      | none => ⟨events, .returned value, s'⟩

end Compiled

/-! ### Testing -/

namespace Test

theorem holds_toCondition (t : Test) (w : World State) :
    (t.toCondition.holds w).1 = t.holds w.state ∧
      (t.toCondition.holds w).2.state = w.state := by
  have hevaluate : ∀ arguments : Bag, t.arguments.getD [] = arguments →
      (evaluate t.expr arguments w).1 = t.holds w.state ∧
        (evaluate t.expr arguments w).2.state = w.state := by
    rintro arguments rfl
    rw [evaluate, Act.run_bind, Act.readState_run, holds]
    rcases t.expr.eval (t.arguments.getD []) w.state with e | v
    · exact ⟨rfl, rfl⟩
    · rcases v with _ | (_ | _) | _ | _ | _ | _ | _ <;> exact ⟨rfl, rfl⟩
  obtain ⟨expr, arguments, message⟩ := t
  cases arguments with
  | none => exact hevaluate [] rfl
  | some bag => exact hevaluate bag rfl

theorem messageFor_toCondition (t : Test) (kind : Kind) :
    t.toCondition.messageFor kind = t.messageFor kind := by
  rw [Condition.messageFor_eq]
  obtain ⟨_, _ | _, _⟩ := t <;> rfl

theorem firstFailing_cons (t : Test) (rest : List Test) (s : State) :
    firstFailing (t :: rest) s = if t.holds s then firstFailing rest s + 1 else 0 := by
  rw [firstFailing, List.findIdx_cons]
  cases t.holds s <;> rfl

theorem checkFrom_records (kind : Kind) (tests : List Test) (start : Nat) (w : World State) :
    Records (ε := RunError) (ρ := Value) w
      (Condition.checkFrom kind start
        ((tests.map toCondition).mapIdx fun i => Condition.recorded kind (start + i))).run
      (Condition.checkFrom kind start (tests.map toCondition)).run
      fun answer after events => after.state = w.state ∧
        answer = verdict (tests[firstFailing tests w.state]?.map fun t =>
          ⟨kind, start + firstFailing tests w.state, t.messageFor kind⟩) ∧
        events = (tests.take (firstFailing tests w.state + 1)).mapIdx fun i t =>
          .tested kind (start + i) (t.holds w.state) := by
  induction tests generalizing start w with
  | nil => exact .pure _ ⟨rfl, rfl, rfl⟩
  | cons t rest ih =>
    have hshift : ∀ {γ : Type} (f : Nat → γ),
        (fun i => f (start + (i + 1))) = fun i => f (start + 1 + i) := by
      intro γ f
      funext i
      rw [Nat.add_assoc, Nat.add_comm 1 i]
    obtain ⟨hholds, hstate⟩ := t.holds_toCondition w
    rw [List.map_cons, List.mapIdx_cons, hshift (Condition.recorded kind),
      Condition.run_checkFrom_cons, Condition.run_checkFrom_cons, Condition.holds_recorded]
    refine (Records.recorded (P := fun held after events => held = t.holds w.state ∧
      after.state = w.state ∧ events = [.tested kind start held]) _ _ ⟨hholds, hstate, rfl⟩).bind ?_
    rintro held middle _ ⟨rfl, hmiddle, rfl⟩
    rw [firstFailing_cons]
    cases hheld : t.holds w.state with
    | true =>
      refine (ih (start + 1) middle).imp ?_
      rintro _ after _ ⟨hafter, rfl, rfl⟩
      rw [hmiddle] at hafter ⊢
      refine ⟨hafter, ?_, ?_⟩
      · simp [Nat.add_comm 1, Nat.add_assoc]
      · simp [hheld, Nat.add_comm 1, Nat.add_assoc]
    | false =>
      refine (Records.note (P := fun _ last events => last.state = w.state ∧ events = [])
        _ ⟨hmiddle, rfl⟩).bind ?_
      rintro _ last _ ⟨hlast, rfl⟩
      -- recording a condition leaves its message as it is
      have hmessage : (t.toCondition.recorded (ε := RunError) (ρ := Value) kind start).messageFor
          kind = t.messageFor kind := messageFor_toCondition t kind
      exact .pure _ ⟨hlast, by simp [verdict, hmessage], by simp [hheld]⟩

end Test

namespace Compiled

variable (c : Compiled)

theorem get_conditions (kind : Kind) :
    c.conditions.get kind = (c.tests.get kind).map Test.toCondition := by
  cases kind <;> rfl

theorem check_records (kind : Kind) (w : World State) :
    Records w (c.conditions.recorded.check kind).run (c.conditions.check kind).run
      fun answer after events => after.state = w.state ∧
        answer = verdict (Test.violation? kind (c.tests.get kind) w.state) ∧
        events = Test.log kind (c.tests.get kind) w.state := by
  refine c.conditions.check_records_of fun after hstate => ?_
  have h := Test.checkFrom_records kind (c.tests.get kind) 0 after
  simp only [Nat.zero_add, hstate] at h
  rw [get_conditions]
  exact h

theorem violation?_cons (kind : Kind) (rest : List Kind) (s : State) :
    c.violation? (kind :: rest) s =
      (Test.violation? kind (c.tests.get kind) s).or (c.violation? rest s) := by
  rw [violation?, List.findSome?_cons]
  cases Test.violation? kind (c.tests.get kind) s <;> rfl

theorem violation?_eq_none_iff {kinds : List Kind} {s : State} :
    c.violation? kinds s = none ↔
      ∀ kind ∈ kinds, Test.violation? kind (c.tests.get kind) s = none :=
  List.findSome?_eq_none_iff

/-- Two kinds of tests, one after the other. -/
theorem check_two_records (first second : Kind) (w : World State) :
    Records w
      (do c.conditions.recorded.check first; c.conditions.recorded.check second).run
      (do c.conditions.check first; c.conditions.check second).run
      fun answer after events => after.state = w.state ∧
        answer = verdict (c.violation? [first, second] w.state) ∧
        events = c.log w.state [first, second] := by
  refine (c.check_records first w).guarded_bind ?_ ?_
  · rintro v after _ ⟨hafter, hanswer, rfl⟩
    have hfirst := eq_some_of_verdict hanswer
    exact ⟨hafter, by rw [violation?_cons, hfirst]; rfl, by simp [log, hfirst]⟩
  · rintro _ middle _ ⟨hmiddle, hanswer, rfl⟩
    have hfirst := eq_none_of_verdict hanswer
    refine (c.check_records second middle).imp ?_
    rintro _ after _ ⟨hafter, rfl, rfl⟩
    rw [hmiddle] at hafter ⊢
    refine ⟨hafter, ?_, by simp [log, hfirst]⟩
    rw [violation?_cons, violation?_cons, hfirst, Option.none_or]
    exact congrArg verdict (Option.or_none ..).symm

theorem log_onlyTests (kinds : List Kind) (s : State) : OnlyTests (c.log s kinds) := by
  induction kinds with
  | nil => simp [log, OnlyTests]
  | cons kind rest ih =>
    intro e he
    rw [log] at he
    rcases List.mem_append.1 he with he | he
    · rw [Test.log, List.mem_mapIdx] at he
      obtain ⟨i, _, rfl⟩ := he
      exact ⟨kind, i, _, rfl⟩
    · split at he
      · simp at he
      · exact ih e he

end Compiled

/-- What is seen of a call is what a reference says. -/
structure Reference.Agrees (r : Reference) (answer : Except Violation (Ending RunError Value))
    (after : World State) (events : List (Event RunError Value)) : Prop where
  outcome : Outcome.ofAnswer answer = r.outcome
  state : after.state = r.state
  events : events = r.events

namespace Compiled

variable (c : Compiled) (arguments : List Value)

theorem target_run (w : World State) :
    c.target arguments w = match c.body.run (bind c.parameters arguments) w.state with
      | (.ok v, s') => (.returned v, ⟨s', w.journal⟩)
      | (.error e, s') => (.failed e, ⟨s', w.journal⟩) := by
  rw [target, Act.onState_run]
  rcases c.body.run (bind c.parameters arguments) w.state with ⟨_ | _, s'⟩ <;> rfl

/-- The rest of a call whose conditions before the body hold. -/
theorem conclude_records (failure : Journal.Event) (w : World State)
    (hbefore : c.violation? [.precondition, .invariant] w.state = none) :
    Records w
      (liftM (c.contract.recorded.target arguments) >>= fun ending =>
        ending.conclude c.conditions.recorded failure : Guarded _ _).run
      (liftM (c.target arguments) >>= fun ending =>
        ending.conclude c.conditions failure : Guarded _ _).run
      fun answer after events => direct events = events ∧
        (c.reference arguments w.state).Agrees answer after
          (c.log w.state [.precondition, .invariant] ++ events) := by
  refine (c.contract.target_records arguments w).lift_bind ?_
  rintro ending middle _ ⟨hrun, rfl⟩
  change c.target arguments w = _ at hrun
  rw [target_run] at hrun
  rcases hbody : c.body.run (bind c.parameters arguments) w.state with ⟨e | value, s'⟩ <;>
    rw [hbody] at hrun <;> cases hrun
  · refine (Records.note (P := fun _ last events => last.state = s' ∧ events = [])
      _ ⟨rfl, rfl⟩).lift_bind ?_
    rintro _ last _ ⟨hlast, rfl⟩
    simp only [reference, hbefore, hbody]
    exact .pure _ ⟨rfl, rfl, hlast, rfl⟩
  · have hdirect : direct (.ran (.returned value) :: c.log s' [.invariant, .postcondition]) =
        .ran (.returned value) :: c.log s' [.invariant, .postcondition] :=
      congrArg _ (c.log_onlyTests _ s').direct
    refine (c.check_two_records .invariant .postcondition _).guarded_bind ?_ ?_
    · rintro v after _ ⟨hafter, hanswer, rfl⟩
      simp only [reference, hbefore, hbody, eq_some_of_verdict hanswer]
      exact ⟨hdirect, rfl, hafter, rfl⟩
    · rintro _ after _ ⟨hafter, hanswer, rfl⟩
      simp only [reference, hbefore, hbody, eq_none_of_verdict hanswer]
      refine .pure _ ?_
      rw [List.append_nil]
      exact ⟨hdirect, rfl, hafter, rfl⟩

/-- A call that a condition before the body keeps from running it. -/
theorem agrees_of_violation {v : Violation} {s : State} {after : World State}
    (h : .error v = verdict (c.violation? [.precondition, .invariant] s))
    (hafter : after.state = s) :
    (c.reference arguments s).Agrees (.error v) after (c.log s [.precondition, .invariant]) := by
  simp only [reference, eq_some_of_verdict h]
  exact ⟨rfl, hafter, rfl⟩

theorem tryInvoke_records (w : World State) :
    Records w (c.contract.recorded.tryInvoke arguments).run (c.contract.tryInvoke arguments).run
      (c.reference arguments w.state).Agrees := by
  refine (c.check_two_records .precondition .invariant w).guarded_bind ?_ ?_
  · rintro v after _ ⟨hafter, hanswer, rfl⟩
    exact c.agrees_of_violation arguments hanswer hafter
  · rintro _ middle _ ⟨hmiddle, hanswer, rfl⟩
    rw [← hmiddle] at hanswer ⊢
    exact (c.conclude_records arguments .targetFailed middle (eq_none_of_verdict hanswer)).imp
      fun _ _ _ h => h.2

theorem await_records (delay : Nat) (w : World State) :
    Records w (c.contract.recordedDeferred arguments (if delay = 0 then 0 else 1)).await.run
      (c.deferredContract arguments delay).await.run
      fun answer after events =>
        (c.reference arguments w.state).Agrees answer after (direct events) := by
  rw [DeferredContract.await, DeferredContract.await]
  refine (c.check_two_records .precondition .invariant w).guarded_bind ?_ ?_
  · rintro v after _ ⟨hafter, hanswer, rfl⟩
    rw [(c.log_onlyTests _ _).direct]
    exact c.agrees_of_violation arguments hanswer hafter
  · rintro _ middle _ ⟨hmiddle, hanswer, rfl⟩
    rw [← hmiddle] at hanswer ⊢
    have henter : Records middle (Act.recorded (return ()) fun _ => .entered : Act _ Unit)
        (return ()) fun _ after events =>
          after = middle ∧ events = [(.entered : Event RunError Value)] := .recorded _ _ ⟨rfl, rfl⟩
    rw [c.contract.run_recordedDeferred_target, show (c.deferredContract arguments delay).target
      (c.deferredContract arguments delay).arguments =
        Task.after (if delay = 0 then 0 else 1) (c.target arguments) from rfl, Task.run_after]
    refine henter.lift_seqRight_bind ?_
    rintro _ _ ⟨rfl, rfl⟩
    refine (c.conclude_records arguments .deferredTargetFailed _
      (eq_none_of_verdict hanswer)).imp ?_
    rintro answer after events ⟨hdirect, hagrees⟩
    have hevents : direct (.entered :: events) = events := hdirect
    rw [direct_append, (c.log_onlyTests _ _).direct]
    exact hevents.symm ▸ hagrees

end Compiled

/-! ### What runs and what stays -/

theorem Test.holds_of_violation?_eq_none {kind : Kind} {tests : List Test} {s : State}
    (h : violation? kind tests s = none) {t : Test} (ht : t ∈ tests) : t.holds s = true := by
  rw [violation?, Option.map_eq_none_iff, List.getElem?_eq_none_iff] at h
  have hlength : tests.findIdx (fun t => !t.holds s) = tests.length :=
    Nat.le_antisymm List.findIdx_le_length h
  simpa using List.findIdx_eq_length.1 hlength t ht

theorem Test.violation?_eq_none_of_holds {tests : List Test} {s : State}
    (h : ∀ t ∈ tests, t.holds s = true) (kind : Kind) : violation? kind tests s = none := by
  have hlength : firstFailing tests s = tests.length :=
    List.findIdx_eq_length.2 fun t ht => by simp [h t ht]
  rw [violation?, hlength, List.getElem?_eq_none (Nat.le_refl _), Option.map_none]

/-- A violation names a test that does not hold, by its place in the list. -/
theorem Test.exists_of_violation? {kind : Kind} {tests : List Test} {s : State} {v : Violation}
    (h : violation? kind tests s = some v) : v.kind = kind ∧
      ∃ t, tests[v.index]? = some t ∧ t.holds s = false ∧ v.message = t.messageFor kind := by
  obtain ⟨t, ht, rfl⟩ := Option.map_eq_some_iff.1 h
  refine ⟨rfl, t, ht, ?_, rfl⟩
  obtain ⟨hlt, rfl⟩ := List.getElem?_eq_some_iff.1 ht
  have hfails : (!(tests[firstFailing tests s]).holds s) = true :=
    List.findIdx_getElem (p := fun t : Test => !t.holds s) (w := hlt)
  simpa using hfails

/-- The body runs only on a state on which all conditions before it hold. -/
theorem Compiled.holds_of_ran_mem (c : Compiled) {arguments : List Value} {s : State}
    {ending : Ending RunError Value} (h : .ran ending ∈ (c.reference arguments s).events) :
    ∀ kind ∈ [Kind.precondition, .invariant], ∀ t ∈ c.tests.get kind, t.holds s = true := by
  cases hviolation : c.violation? [.precondition, .invariant] s with
  | none =>
    intro kind hkind t ht
    rw [violation?, List.findSome?_eq_none_iff] at hviolation
    exact Test.holds_of_violation?_eq_none (hviolation kind hkind) ht
  | some v =>
    simp only [reference, hviolation] at h
    exact absurd h ((c.log_onlyTests _ _).ran_notMem ending)

/-- A program that fails has run up to a statement, and this statement fails. -/
theorem Program.exists_of_runFrom_eq_error {locals : Bag} {last : Value} {p : Program}
    {s s' : State} {e : RunError} (h : runFrom locals last p s = (.error e, s')) :
    ∃ done stmt rest v, p = done ++ stmt :: rest ∧ runFrom locals last done s = (.ok v, s') ∧
      stmt.run locals s' = .error e := by
  induction p generalizing last s with
  | nil => simp [runFrom] at h
  | cons stmt rest ih =>
    rw [runFrom] at h
    cases hstmt : stmt.run locals s with
    | error e' =>
      rw [hstmt] at h
      cases h
      exact ⟨[], stmt, rest, last, rfl, rfl, hstmt⟩
    | ok r =>
      obtain ⟨v, middle⟩ := r
      rw [hstmt] at h
      obtain ⟨done, failing, rest', w, rfl, hdone, hfailing⟩ := ih h
      refine ⟨stmt :: done, failing, rest', w, rfl, ?_, hfailing⟩
      rw [runFrom, hstmt]
      exact hdone

namespace Compiled

theorem record_of_records {act : Act (Recorded State RunError Value) _}
    {call : List Value → Guarded State (Ending RunError Value)} {arguments : List Value}
    {w : World State} {P : Except Violation (Ending RunError Value) → World State →
      List (Event RunError Value) → Prop} {r : Reference}
    (h : Records w act (call arguments).run P)
    (hP : ∀ answer after events, P answer after events →
      Outcome.ofAnswer answer = r.outcome ∧ after.state = r.state) (index : Nat) :
    (record call index arguments w).1 =
      ⟨index, arguments, r.outcome, w.state.changes r.state⟩ := by
  obtain ⟨events, hagrees, -⟩ := h
  obtain ⟨houtcome, hstate⟩ := hP _ _ _ hagrees
  rw [← houtcome, ← hstate]
  rfl

end Compiled

/-- What is true of a guarded call of a compiled manifest on a state. It is made directly or
deferred, with or without a delay. -/
structure Compiled.GuardedCall (c : Compiled) (arguments : List Value) (delay : Nat)
    (w : World State) : Prop where
  /-- The conditions are the tests in their order. One holds if its value is `true`, and to ask
  changes no state. -/
  tested : ∀ kind, c.conditions.get kind = (c.tests.get kind).map Test.toCondition ∧
    ∀ t ∈ c.tests.get kind, ∀ w, (t.toCondition.holds w).2.state = w.state ∧
      ((t.toCondition.holds w).1 = true ↔
        t.expr.eval (t.arguments.getD []) w.state = .ok (.boolean true))
  direct_call : Records w (c.contract.recorded.tryInvoke arguments).run
    (c.contract.tryInvoke arguments).run (c.reference arguments w.state).Agrees
  deferred_call : Records w
    (c.contract.recordedDeferred arguments (if delay = 0 then 0 else 1)).await.run
    (c.deferredContract arguments delay).await.run fun answer after events =>
      (c.reference arguments w.state).Agrees answer after (direct events)
  /-- The record of the call says the same. -/
  recorded : ∀ index, ∀ call ∈ [c.contract.tryInvoke,
      fun arguments => (c.deferredContract arguments delay).await],
    (record call index arguments w).1 = ⟨index, arguments, (c.reference arguments w.state).outcome,
      w.state.changes (c.reference arguments w.state).state⟩
  /-- The body runs only on a state on which all conditions before it hold. -/
  ran : ∀ ending, .ran ending ∈ (c.reference arguments w.state).events →
    ∀ kind ∈ [Kind.precondition, .invariant], ∀ t ∈ c.tests.get kind, t.holds w.state = true
  /-- A body that fails leaves the state that its statements before the failing one made. -/
  failed : ∀ e s', c.body.run (bind c.parameters arguments) w.state = (.error e, s') →
    ∃ done stmt rest v, c.body = done ++ stmt :: rest ∧
      Program.run (bind c.parameters arguments) done w.state = (.ok v, s') ∧
      stmt.run (bind c.parameters arguments) s' = .error e

theorem Test.holds_iff (t : Test) (s : State) :
    t.holds s = true ↔ t.expr.eval (t.arguments.getD []) s = .ok (.boolean true) := by
  rw [holds]
  split
  next h => simp [h]
  next h => exact ⟨nofun, fun hv => absurd hv h⟩

/-- A guarded call is what the reference says, whatever the state and the arguments are. -/
theorem Compiled.guarded_call (c : Compiled) (arguments : List Value) (delay : Nat)
    (w : World State) : c.GuardedCall arguments delay w where
  tested kind := by
    refine ⟨c.get_conditions kind, fun t _ w => ?_⟩
    obtain ⟨hholds, hstate⟩ := t.holds_toCondition w
    exact ⟨hstate, by rw [hholds, Test.holds_iff]⟩
  direct_call := c.tryInvoke_records arguments w
  deferred_call := c.await_records arguments delay w
  recorded index call hcall := by
    rcases List.mem_cons.1 hcall with rfl | hcall
    · exact record_of_records (c.tryInvoke_records arguments w)
        (fun _ _ _ h => ⟨h.outcome, h.state⟩) index
    · obtain rfl := List.mem_singleton.1 hcall
      exact record_of_records (c.await_records arguments delay w)
        (fun _ _ _ h => ⟨h.outcome, h.state⟩) index
  ran _ h := c.holds_of_ran_mem h
  failed _ _ h := Program.exists_of_runFrom_eq_error h

end Covenant
