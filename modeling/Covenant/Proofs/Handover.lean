import Covenant.Proofs.History

/-! What a call that returned hands over to the next one: a state on which all invariants and
postconditions hold. Nothing touches the state between two calls of a run, and the next call
tests its invariants before anything can change the state. So only a precondition can keep it
from its body. -/

namespace Covenant

/-- What is true of the calls of a run. -/
structure Compiled.HandsOver (c : Compiled) (stages : List Stage) : Prop where
  /-- A call that returned ends in a state on which the conditions after it hold. -/
  holds : ∀ s ∈ stages, ∀ v, s.record.outcome = .returned v →
    ∀ kind ∈ [Kind.invariant, .postcondition], ∀ t ∈ c.tests.get kind,
      t.expr.eval (t.arguments.getD []) s.after.state = .ok (.boolean true)
  /-- The next call, if it does not run its body, violates a precondition. -/
  blocked : ∀ (k : Nat) s next v, stages[k]? = some s → stages[k + 1]? = some next →
    s.record.outcome = .returned v → (∀ ending, .ran ending ∉ next.events) →
    ∃ violation, violation.kind = .precondition ∧ next.record.outcome = .violated violation ∧
      Test.violation? .precondition c.tests.preconditions next.before.state = some violation
  /-- If a violation ends the run, an invariant blocks no call but the first. -/
  first : c.policy = .raise → ∀ (k : Nat) s violation, stages[k]? = some s →
    (∀ ending, .ran ending ∉ s.events) → s.record.outcome = .violated violation →
    violation.kind = .invariant → k = 0

namespace Compiled

variable (c : Compiled) (mode : Mode) {index : Nat} {calls : List (List Value)} {w : World State}

/-- A call that follows one that returned is kept from its body by no invariant. -/
theorem precondition_of_not_ran {k : Nat} {s next : Stage} {v : Value}
    (hs : (c.stages mode index calls w)[k]? = some s)
    (hnext : (c.stages mode index calls w)[k + 1]? = some next)
    (hreturned : s.record.outcome = .returned v) (hran : ∀ ending, .ran ending ∉ next.events) :
    ∃ violation, violation.kind = .precondition ∧ next.record.outcome = .violated violation ∧
      Test.violation? .precondition c.tests.preconditions next.before.state = some violation := by
  have hrefers := c.refers_of_mem mode (List.mem_of_getElem? hs)
  have hrefers' := c.refers_of_mem mode (List.mem_of_getElem? hnext)
  have hafter := (c.reference_course _ _).violation?_eq_none_of_returned
    (hrefers.outcome.symm.trans hreturned)
  rw [← hrefers.state, ← (c.next_of_getElem? mode hs hnext).2, violation?_eq_none_iff] at hafter
  have hinvariant := hafter .invariant List.mem_cons_self
  have hran' : ∀ ending, .ran ending ∉
      (c.reference next.record.arguments next.before.state).events := by
    intro ending h
    rw [← hrefers'.events] at h
    exact hran ending (List.mem_filter.1 h).1
  obtain ⟨violation, hbefore, houtcome⟩ := (c.reference_course _ _).exists_of_not_ran hran'
  have hprecondition : Test.violation? .precondition c.tests.preconditions next.before.state =
      some violation := by
    rw [violation?_cons, violation?_cons, hinvariant, Option.none_or] at hbefore
    exact (Option.or_none ..).symm.trans hbefore
  exact ⟨violation, (Test.exists_of_violation? hprecondition).1, hrefers'.outcome.trans houtcome,
    hprecondition⟩

theorem stages_handsOver : c.HandsOver (c.stages mode index calls w) where
  holds s hs v hreturned kind hkind t ht := by
    have hrefers := c.refers_of_mem mode hs
    have hafter := (c.reference_course _ _).violation?_eq_none_of_returned
      (hrefers.outcome.symm.trans hreturned)
    rw [← hrefers.state, violation?_eq_none_iff] at hafter
    exact (t.holds_iff _).1 (Test.holds_of_violation?_eq_none (hafter kind hkind) ht)
  blocked k s next v hs hnext hreturned hran :=
    c.precondition_of_not_ran mode hs hnext hreturned hran
  first hraise k s violation hs hran houtcome hkind := by
    cases k with
    | zero => rfl
    | succ k =>
      -- under this policy only a call that returned has another one after it
      obtain ⟨hlt, -⟩ := List.getElem?_eq_some_iff.1 hs
      have hprevious := List.getElem?_eq_getElem (Nat.lt_of_succ_lt hlt)
      rcases Outcome.stops?_eq_none_iff.1 (c.next_of_getElem? mode hprevious hs).1 with
        ⟨v, hreturned⟩ | ⟨hproceed, -⟩
      · obtain ⟨violation', hprecondition, houtcome', -⟩ :=
          c.precondition_of_not_ran mode hprevious hs hreturned hran
        rw [houtcome'] at houtcome
        cases houtcome
        rw [hkind] at hprecondition
        cases hprecondition
      · rw [hraise] at hproceed
        cases hproceed

/-- In every run, a call that returned leaves all invariants and postconditions true, and the
call after it is kept from its body by no invariant. -/
theorem run_handsOver (c : Compiled) (calls : List (List Value)) (times : Nat)
    (w : World State) : ∃ r after, c.run calls times w = (.ok r, after) ∧
      r.calls = (c.history calls times w).map Stage.record ∧
      c.HandsOver (c.history calls times w) :=
  ⟨_, _, c.run_eq calls times w, rfl, c.stages_handsOver c.mode⟩

end Compiled

end Covenant
