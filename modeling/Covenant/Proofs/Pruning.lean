import Covenant.Proofs.Compilation
import Covenant.Proofs.Ledger

/-! Conditions watch a run and do not steer it. If every call of a run has returned, no condition
has had a part in it, and without some of them, or without any, the run is the same. Without any
condition a call is the run of the body alone. -/

namespace Covenant

/-! ### Fewer conditions -/

theorem Clauses.get_map {γ δ : Type} (f : γ → δ) (clauses : Clauses γ) (kind : Kind) :
    (clauses.map f).get kind = f (clauses.get kind) := by
  cases kind <;> rfl

/-- Some of the items of a list are taken to some of the results. -/
theorem exists_sublist_of_forall₂ {α β : Type} {r : α → β → Prop} {xs xs' : List α} {ys : List β}
    (hless : xs'.Sublist xs) (h : List.Forall₂ r xs ys) :
    ∃ ys' : List β, ys'.Sublist ys ∧ List.Forall₂ r xs' ys' := by
  induction hless generalizing ys with
  | slnil =>
    cases h
    exact ⟨[], .slnil, .nil⟩
  | cons x _ ih =>
    cases h with
    | cons _ hrest =>
      obtain ⟨ys', hsublist, hforall⟩ := ih hrest
      exact ⟨ys', hsublist.cons _, hforall⟩
  | cons_cons x _ ih =>
    cases h with
    | cons hfirst hrest =>
      obtain ⟨ys', hsublist, hforall⟩ := ih hrest
      exact ⟨_ :: ys', hsublist.cons_cons _, .cons hfirst hforall⟩

/-- A program run by itself, once for each list of arguments and up to a failure: how it ended
each time, and the state that it left. -/
def Program.runs (p : Program) (parameters : List String) :
    List (List Value) → State → List (Outcome × State)
  | [], _ => []
  | arguments :: rest, s =>
    match p.run (bind parameters arguments) s with
    | (.ok v, s') => (.returned v, s') :: runs p parameters rest s'
    | (.error e, s') => [(.failed (Error.run e).message, s')]

/-- The manifest with the given tuples in its lists. -/
def Manifest.withTuples (m : Manifest) (tuples : Clauses (List Json)) : Manifest :=
  { m with outline := ⟨m.outline.target, tuples.map .array⟩ }

/-- The contract with the given tests. -/
def Compiled.withTests (c : Compiled) (fingerprint : String) (tests : Clauses (List Test)) :
    Compiled :=
  { c with fingerprint, tests }

/-- Without some of its tuples a manifest compiles to a contract without some of the tests. -/
theorem Manifest.compile_withTuples {m : Manifest} {c : Compiled} (hc : m.compile = .ok c)
    {kept : Clauses (List Json)}
    (hless : ∀ kind, (kept.get kind).Sublist (m.outline.lists.get kind).items) :
    ∃ tests : Clauses (List Test), (∀ kind, (tests.get kind).Sublist (c.tests.get kind)) ∧
      (∀ kind, kept.get kind = [] → tests.get kind = []) ∧
      (m.withTuples kept).compile =
        .ok (c.withTests (m.withTuples kept).fingerprint tests) := by
  obtain ⟨hbecomes, hname, -, hpolicy, hinitial, hmode⟩ := compile_eq_ok_iff.1 hc
  have hkept : ∀ kind, ∃ ts : List Test, ts.Sublist (c.tests.get kind) ∧
      List.Forall₂ (Describes m.shape) (kept.get kind) ts := by
    intro kind
    obtain ⟨tuples, hlist, htests⟩ := hbecomes.tests kind
    have hsublist := hless kind
    rw [hlist] at hsublist
    exact exists_sublist_of_forall₂ hsublist htests
  choose ts hsublist hforall using hkept
  have hget : ∀ kind, (⟨ts .precondition, ts .postcondition, ts .invariant⟩ :
      Clauses (List Test)).get kind = ts kind := by
    intro kind
    cases kind <;> rfl
  refine ⟨⟨ts .precondition, ts .postcondition, ts .invariant⟩, fun kind => ?_,
    fun kind hnone => ?_, ?_⟩
  · rw [hget]
    exact hsublist kind
  · have hnil := hforall kind
    rw [hnone, List.forall₂_nil_left_iff] at hnil
    rw [hget, hnil]
  · refine compile_eq_ok_iff.2 ⟨⟨hbecomes.parameters, hbecomes.body, fun kind => ?_⟩, hname, rfl,
      hpolicy, hinitial, hmode⟩
    refine ⟨kept.get kind, Clauses.get_map .., ?_⟩
    simp only [Compiled.withTests, hget]
    exact hforall kind

namespace Compiled

variable (c : Compiled) (fingerprint : String) {tests : Clauses (List Test)}
  (hless : ∀ kind, (tests.get kind).Sublist (c.tests.get kind))

/-! ### Runs that returned -/

section
include hless

theorem violation?_withTests {kinds : List Kind} {s : State} (h : c.violation? kinds s = none) :
    (c.withTests fingerprint tests).violation? kinds s = none := by
  rw [violation?_eq_none_iff] at h ⊢
  intro kind hkind
  refine Test.violation?_eq_none_of_holds (fun t ht => ?_) kind
  exact Test.holds_of_violation?_eq_none (h kind hkind) ((hless kind).subset ht)

/-- A call that returned had nothing to do with its conditions. -/
theorem posting_withTests {index : Nat} {arguments : List Value} {s : State} {v : Value}
    (h : (c.posting index arguments s).record.outcome = .returned v) :
    (c.withTests fingerprint tests).posting index arguments s = c.posting index arguments s := by
  have hcourse := c.reference_course arguments s
  have hreturned : (c.reference arguments s).outcome = .returned v := h
  rw [posting, posting]
  generalize c.reference arguments s = r at hcourse hreturned ⊢
  cases hcourse with
  | returned before body after =>
    have hbefore := c.violation?_withTests fingerprint hless before
    have hafter := c.violation?_withTests fingerprint hless after
    have hbody : (c.withTests fingerprint tests).body.run
        (bind (c.withTests fingerprint tests).parameters arguments) s = _ := body
    simp only [reference, hbefore, hbody, hafter]
  | blocked | failed | broken => cases hreturned

theorem ledger_withTests {index : Nat} {calls : List (List Value)} {s : State}
    (h : ∀ p ∈ c.ledger index calls s, ∃ v, p.record.outcome = .returned v) :
    (c.withTests fingerprint tests).ledger index calls s = c.ledger index calls s :=
  c.ledger_congr (c.withTests fingerprint tests) (fun outcome => ∃ v, outcome = .returned v) rfl
    (fun _ _ _ ⟨_, hv⟩ => c.posting_withTests fingerprint hless hv) h

/-- A run of which every call returned is the same without some of its conditions. -/
theorem run_withTests {calls : List (List Value)} {times : Nat} {w after : World State}
    {r : Report} (hrun : c.run calls times w = (.ok r, after))
    (hreturned : ∀ record ∈ r.calls, ∃ v, record.outcome = .returned v) :
    ∃ after', (c.withTests fingerprint tests).run calls times w =
      (.ok { r with fingerprint }, after') ∧ after'.state = after.state := by
  obtain ⟨_, hsummary, -⟩ := c.run_summary calls times w
  cases hrun.symm.trans hsummary
  have hledger : (c.withTests fingerprint tests).ledger 0
      ((c.withTests fingerprint tests).requested calls times) w.state =
        c.ledger 0 (c.requested calls times) w.state :=
    c.ledger_withTests fingerprint hless fun p hp => hreturned _ (List.mem_map_of_mem hp)
  obtain ⟨_, _, after', hrun₁, hrun', hafter⟩ :=
    c.run_of_ledger (c.withTests fingerprint tests) rfl rfl hledger
  cases hrun.symm.trans hrun₁
  exact ⟨after', hrun', hafter⟩

end

/-! ### Runs without conditions -/

theorem violation?_of_no_tests (h : ∀ kind, c.tests.get kind = []) (kinds : List Kind)
    (s : State) : c.violation? kinds s = none := by
  rw [violation?_eq_none_iff]
  intro kind _
  rw [h kind]
  rfl

/-- Without conditions a call is a run of the body. -/
theorem posting_of_no_tests (h : ∀ kind, c.tests.get kind = []) (index : Nat)
    (arguments : List Value) (s : State) :
    ((c.posting index arguments s).record.outcome, (c.posting index arguments s).state) =
      match c.body.run (bind c.parameters arguments) s with
      | (.ok v, s') => (.returned v, s')
      | (.error e, s') => (.failed (Error.run e).message, s') := by
  simp only [posting, reference, c.violation?_of_no_tests h]
  rcases c.body.run (bind c.parameters arguments) s with ⟨e | v, s'⟩ <;> rfl

/-- Without conditions the ledger of a run is about the body alone. -/
theorem map_ledger_of_no_tests (h : ∀ kind, c.tests.get kind = []) (index : Nat)
    (calls : List (List Value)) (s : State) :
    (c.ledger index calls s).map (fun p => (p.record.outcome, p.state)) =
      c.body.runs c.parameters calls s := by
  induction calls generalizing index s with
  | nil => rfl
  | cons arguments rest ih =>
    have hfirst := c.posting_of_no_tests h index arguments s
    rw [Program.runs]
    rcases hbody : c.body.run (bind c.parameters arguments) s with ⟨e | v, s'⟩
    · rw [hbody, Prod.mk.injEq] at hfirst
      rw [c.ledger_cons_of_stop rest (by rw [hfirst.1]; rfl), List.map_singleton, hfirst.1,
        hfirst.2]
    · rw [hbody, Prod.mk.injEq] at hfirst
      rw [c.ledger_cons_of_next rest (by rw [hfirst.1]; rfl), List.map_cons, ih, hfirst.1,
        hfirst.2]

end Compiled

/-- What is true of the report `r` of a run that the body alone decides, and of the world `after`
in which it ends. -/
structure Compiled.Alone (c : Compiled) (calls : List (List Value)) (times : Nat)
    (w : World State) (r : Report) (after : World State) : Prop where
  records : r.calls = (c.history calls times w).map Stage.record
  /-- The outcomes, and the states after the calls, are those of the body. -/
  runs : (c.history calls times w).map (fun s => (s.record.outcome, s.after.state)) =
    c.body.runs c.parameters (c.requested calls times) w.state
  ended : after.state = ((c.body.runs c.parameters (c.requested calls times) w.state).getLast?.map
    Prod.snd).getD w.state
  final : r.finalState = after.state.fields

theorem Compiled.run_alone (c : Compiled) (h : ∀ kind, c.tests.get kind = [])
    (calls : List (List Value)) (times : Nat) (w : World State) :
    ∃ r after, c.run calls times w = (.ok r, after) ∧ c.Alone calls times w r after := by
  obtain ⟨after, hrun, hafter⟩ := c.run_summary calls times w
  have hbody := c.map_ledger_of_no_tests h 0 (c.requested calls times) w.state
  refine ⟨_, after, hrun, ?_, ?_, ?_, congrArg State.fields hafter.symm⟩
  · rw [summary, ← map_posting_history, List.map_map]
    rfl
  · rw [← hbody, ← map_posting_history, List.map_map]
    rfl
  · rw [hafter, ← hbody, List.getLast?_map, Option.map_map]
    rfl

/-- What is true of a contract `c` and of the contract `c'` of a manifest that keeps only some of
the tuples of that of `c`. -/
structure Compiled.Unsteered (c c' : Compiled) (kept : Clauses (List Json)) : Prop where
  start : c'.start = c.start
  /-- A run of which every call returned is the same without the conditions that are gone. -/
  returned : ∀ policy calls times w r after,
    (c.withPolicy policy).run calls times w = (.ok r, after) →
    (∀ record ∈ r.calls, ∃ v, record.outcome = .returned v) →
    ∃ after', (c'.withPolicy policy).run calls times w =
      (.ok { r with fingerprint := c'.fingerprint }, after') ∧ after'.state = after.state
  body : c'.body = c.body ∧ c'.parameters = c.parameters
  /-- If none are left, every run is one of the body alone. -/
  alone : (∀ kind, kept.get kind = []) → ∀ policy calls times w, ∃ r after,
    (c'.withPolicy policy).run calls times w = (.ok r, after) ∧
      (c'.withPolicy policy).Alone calls times w r after

namespace Manifest

/-- Conditions have a part in a run only where they are violated: a manifest without some of them
has the same runs of calls that all return, and one without any runs its body alone. -/
theorem compile_unsteered (m : Manifest) {c : Compiled} (hc : m.compile = .ok c)
    {kept : Clauses (List Json)}
    (hless : ∀ kind, (kept.get kind).Sublist (m.outline.lists.get kind).items) :
    ∃ c', (m.withTuples kept).compile = .ok c' ∧ c.Unsteered c' kept := by
  obtain ⟨tests, hsublist, hnone, hcompile⟩ := compile_withTuples hc hless
  refine ⟨_, hcompile, ?_⟩
  constructor
  case start => rfl
  case returned =>
    intro policy calls times w r after hrun hreturned
    exact (c.withPolicy policy).run_withTests _ hsublist hrun hreturned
  case body => exact ⟨rfl, rfl⟩
  case alone =>
    intro hkept policy calls times w
    exact Compiled.run_alone _ (fun kind => hnone kind (hkept kind)) calls times w

/-- The counter takes its steps without its conditions as well. -/
theorem compile_unsteered_counter : counter.compile = .ok compiledCounter ∧
    (∀ kind, (Clauses.get (⟨[], [], []⟩ : Clauses (List Json)) kind).Sublist
      (counter.outline.lists.get kind).items) ∧
    ∃ c' r after, (counter.withTuples ⟨[], [], []⟩).compile = .ok c' ∧
      (c'.withPolicy .raise).run [[.integer 1], [.integer 3]] 0 c'.start = (.ok r, after) ∧
      r.calls = [
        ⟨0, [.integer 1], .returned (.integer 1), [⟨"n", .integer 0, .integer 1⟩]⟩,
        ⟨1, [.integer 3], .returned (.integer 4), [⟨"n", .integer 1, .integer 4⟩]⟩] := by
  have hnone : ∀ kind, (Clauses.get (⟨[], [], []⟩ : Clauses (List Json)) kind).Sublist
      (counter.outline.lists.get kind).items := by
    intro kind
    cases kind <;> exact List.nil_sublist _
  obtain ⟨c', hc', h⟩ := counter.compile_unsteered compile_counter hnone
  have hrun : ((compiledCounter.withPolicy .raise).run [[.integer 1], [.integer 3]] 0
      compiledCounter.start).1 = .ok ⟨"counter", counter.fingerprint, true,
        [⟨0, [.integer 1], .returned (.integer 1), [⟨"n", .integer 0, .integer 1⟩]⟩,
          ⟨1, [.integer 3], .returned (.integer 4), [⟨"n", .integer 1, .integer 4⟩]⟩],
        [("n", .integer 4)], none⟩ := by
    with_unfolding_all rfl
  obtain ⟨after', hrun', -⟩ := h.returned .raise _ _ _ _ _ (Prod.ext hrun rfl) (by
    simp only [List.forall_mem_cons]
    exact ⟨⟨_, rfl⟩, ⟨_, rfl⟩, nofun⟩)
  rw [← h.start] at hrun'
  exact ⟨compile_counter, hnone, c', _, after', hc', hrun', rfl⟩

end Manifest

end Covenant
