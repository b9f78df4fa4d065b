import Covenant.Proofs.Compilation
import Covenant.Proofs.Ledger

/-! Direct and deferred runs. A manifest whose calls are made directly can also be run with its
calls deferred, on arguments that stand in the manifest and after any delay. Nothing comes
between the start of a deferred call of a run and its end, so the delay is not seen, and the
report is that of the direct run on as many copies of the arguments. -/

namespace Covenant

/-- The same contract with its calls deferred. -/
def Compiled.deferred (c : Compiled) (fingerprint : String) (arguments : List Value)
    (delay : Nat) : Compiled :=
  { c with fingerprint, mode := .deferred arguments delay }

namespace Manifest

/-- The same manifest with its calls deferred. -/
def deferredOn (m : Manifest) (items : List Json) (delay : Nat) : Manifest :=
  { m with deferred := true, deferredArguments := .array items, delay }

variable {m : Manifest} {c : Compiled}

theorem compile_deferredOn (hc : m.compile = .ok c) (items : List Json) (delay : Nat) :
    (m.deferredOn items delay).compile = .ok (c.deferred (m.deferredOn items delay).fingerprint
      (items.map Value.ofJson) delay) := by
  obtain ⟨hbecomes, hname, -, hpolicy, hinitial, -⟩ := compile_eq_ok_iff.1 hc
  exact compile_eq_ok_iff.2
    ⟨⟨hbecomes.parameters, hbecomes.body, hbecomes.tests⟩, hname, rfl, hpolicy, hinitial, rfl⟩

theorem mode_of_compile (hc : m.compile = .ok c) (hdirect : m.deferred = false) :
    c.mode = .direct := by
  obtain ⟨-, -, -, -, -, hmode⟩ := compile_eq_ok_iff.1 hc
  rw [hmode, mode, hdirect]
  rfl

end Manifest

namespace Compiled

variable (c : Compiled)

theorem ledger_deferred (fingerprint : String) (arguments : List Value) (delay index : Nat)
    (calls : List (List Value)) (s : State) :
    (c.deferred fingerprint arguments delay).ledger index calls s = c.ledger index calls s :=
  c.ledger_congr (c.deferred fingerprint arguments delay) (fun _ => True) rfl
    (fun _ _ _ _ => rfl) fun _ _ => trivial

theorem execute_summary (h : c.mode = .direct) (calls : List (List Value)) (w : World State) :
    ∃ after, c.execute calls w = (.ok (c.summary w.state (c.ledger 0 calls w.state)), after) ∧
      after.state = Posting.last w.state (c.ledger 0 calls w.state) := by
  have hrun := c.run_summary calls 0 w
  rwa [run, requested, h] at hrun

theorem executeDeferred_summary (fingerprint : String) (arguments : List Value)
    (delay times : Nat) (w : World State) :
    ∃ after, (c.deferred fingerprint arguments delay).executeDeferred times w =
        (.ok { c.summary w.state (c.ledger 0 (List.replicate times arguments) w.state) with
          fingerprint }, after) ∧
      after.state = Posting.last w.state (c.ledger 0 (List.replicate times arguments) w.state) := by
  have hrun := (c.deferred fingerprint arguments delay).run_summary [] times w
  rwa [ledger_deferred] at hrun

end Compiled

namespace Manifest

/-- A manifest whose calls are made directly, and the same with its calls deferred: freshly
compiled, both have the same report but for the fingerprint, under either policy. -/
theorem run_deferredOn (m : Manifest) {c : Compiled} (hdirect : m.deferred = false)
    (hc : m.compile = .ok c) (items : List Json) (delay times : Nat) (policy : Policy) :
    ∃ c' r after after', (m.deferredOn items delay).compile = .ok c' ∧
      (c.withPolicy policy).execute (List.replicate times (items.map Value.ofJson))
        (c.withPolicy policy).start = (.ok r, after) ∧
      (c'.withPolicy policy).executeDeferred times (c'.withPolicy policy).start =
        (.ok { r with fingerprint := c'.fingerprint }, after') ∧
      after'.state = after.state := by
  have hmode : c.mode = .direct := mode_of_compile hc hdirect
  obtain ⟨after, hexecute, hafter⟩ := (c.withPolicy policy).execute_summary hmode
    (List.replicate times (items.map Value.ofJson)) (c.withPolicy policy).start
  obtain ⟨after', hdeferred, hafter'⟩ := (c.withPolicy policy).executeDeferred_summary
    (m.deferredOn items delay).fingerprint (items.map Value.ofJson) delay times
    ⟨c.initial, [.compiled c.name true]⟩
  exact ⟨_, _, after, after', compile_deferredOn hc items delay, hexecute, hdeferred,
    hafter'.trans hafter.symm⟩

/-- The deferred counter takes two steps and is then stopped by its precondition. -/
theorem run_deferredOn_counter : counter.deferred = false ∧
    counter.compile = .ok compiledCounter ∧
    ∃ c' r after, (counter.deferredOn [.integer 1] 5).compile = .ok c' ∧
      (c'.withPolicy .raise).executeDeferred 3 (c'.withPolicy .raise).start = (.ok r, after) ∧
      r.calls = [
        ⟨0, [.integer 1], .returned (.integer 1), [⟨"n", .integer 0, .integer 1⟩]⟩,
        ⟨1, [.integer 1], .returned (.integer 2), [⟨"n", .integer 1, .integer 2⟩]⟩,
        ⟨2, [.integer 1], .violated ⟨.precondition, 0, "full"⟩, []⟩] ∧
      r.finalState = [("n", .integer 2)] ∧ r.error = some "full" := by
  obtain ⟨c', r, after, after', hc', hexecute, hdeferred, -⟩ :=
    counter.run_deferredOn rfl compile_counter [.integer 1] 5 3 .raise
  have hdirect : ((compiledCounter.withPolicy .raise).execute
      (List.replicate 3 [.integer 1]) (compiledCounter.withPolicy .raise).start).1 =
      .ok ⟨"counter", counter.fingerprint, false,
        [⟨0, [.integer 1], .returned (.integer 1), [⟨"n", .integer 0, .integer 1⟩]⟩,
          ⟨1, [.integer 1], .returned (.integer 2), [⟨"n", .integer 1, .integer 2⟩]⟩,
          ⟨2, [.integer 1], .violated ⟨.precondition, 0, "full"⟩, []⟩],
        [("n", .integer 2)], some "full"⟩ := by
    with_unfolding_all rfl
  have hr := (congrArg Prod.fst hexecute).symm.trans hdirect
  cases hr
  exact ⟨rfl, compile_counter, c', _, after', hc', hdeferred, rfl, rfl, rfl⟩

end Manifest

end Covenant
