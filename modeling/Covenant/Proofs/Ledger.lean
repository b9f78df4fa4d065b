import Covenant.Proofs.History

/-! Runs told from the references of their calls. What a run comes to depends on the tests, the
body and the policy of the contract, on the arguments of the calls and on the state in which it
starts. The way in which the calls are made has no part in it, and neither has the journal. -/

namespace Covenant

/-- A call as it is told: its record, and the state after it. -/
structure Posting where
  record : Record
  state : State

def Stage.posting (s : Stage) : Posting := ⟨s.record, s.after.state⟩

/-- The record as that of a call that `k` more calls come before. -/
def Record.shift (k : Nat) (r : Record) : Record := { r with index := r.index + k }

namespace Posting

def shift (k : Nat) (p : Posting) : Posting := { p with record := p.record.shift k }

/-- The state in which calls have ended that started on the state `s`. -/
def last (s : State) (postings : List Posting) : State := (postings.getLast?.map state).getD s

theorem last_cons (s : State) (p : Posting) (rest : List Posting) :
    last s (p :: rest) = last p.state rest := by
  rw [last, last, List.getLast?_cons]
  cases rest.getLast? <;> rfl

theorem last_append (s : State) (ps qs : List Posting) :
    last s (ps ++ qs) = last (last s ps) qs := by
  induction ps generalizing s with
  | nil => rfl
  | cons p rest ih => rw [List.cons_append, last_cons, ih, last_cons]

/-- What leaves the states of calls as they are leaves the last one as it is. -/
theorem last_map (f : Posting → Posting) (hf : ∀ p, (f p).state = p.state) (s : State)
    (ps : List Posting) : last s (ps.map f) = last s ps := by
  rw [last, last, List.getLast?_map]
  cases ps.getLast? with
  | none => rfl
  | some p => exact hf p

theorem last_map_shift (k : Nat) (s : State) (ps : List Posting) :
    last s (ps.map (shift k)) = last s ps :=
  last_map (shift k) (fun _ => rfl) s ps

theorem map_record_shift (k : Nat) (ps : List Posting) :
    (ps.map (shift k)).map record = (ps.map record).map (Record.shift k) := by
  rw [List.map_map, List.map_map]
  rfl

end Posting

theorem Stage.state_last (w : World State) (stages : List Stage) :
    (last w stages).state = Posting.last w.state (stages.map posting) := by
  rw [last, Posting.last, List.getLast?_map]
  cases stages.getLast? <;> rfl

namespace Compiled

variable (c : Compiled)

/-- A call on the state `s`, as its reference has it. -/
def posting (index : Nat) (arguments : List Value) (s : State) : Posting :=
  let r := c.reference arguments s
  ⟨⟨index, arguments, r.outcome, s.changes r.state⟩, r.state⟩

/-- Calls from the state `s` on, numbered from `index` on, up to the first that ends the run. -/
def ledger (index : Nat) : List (List Value) → State → List Posting
  | [], _ => []
  | arguments :: rest, s =>
    let first := c.posting index arguments s
    match first.record.outcome.stops? c.policy with
    | some _ => [first]
    | none => first :: ledger (index + 1) rest first.state

/-- The error with which calls have ended the run. -/
def halt? (ps : List Posting) : Option String :=
  ps.getLast?.bind fun last => last.record.outcome.stops? c.policy

/-- The report of calls that started on the state `s`. -/
def summary (s : State) (ps : List Posting) : Report :=
  ⟨c.name, c.fingerprint, (c.halt? ps).isNone, ps.map Posting.record,
    (Posting.last s ps).fields, c.halt? ps⟩

section
variable {index : Nat} {arguments : List Value} {s : State}

theorem ledger_cons_of_stop {error : String} (rest : List (List Value))
    (h : (c.posting index arguments s).record.outcome.stops? c.policy = some error) :
    c.ledger index (arguments :: rest) s = [c.posting index arguments s] := by
  rw [ledger, h]

theorem ledger_cons_of_next (rest : List (List Value))
    (h : (c.posting index arguments s).record.outcome.stops? c.policy = none) :
    c.ledger index (arguments :: rest) s = c.posting index arguments s ::
      c.ledger (index + 1) rest (c.posting index arguments s).state := by
  rw [ledger, h]

end

theorem halt?_append (ps qs : List Posting) (h : c.halt? ps = none) :
    c.halt? (ps ++ qs) = c.halt? qs := by
  rw [halt?, List.getLast?_append, halt?]
  cases qs.getLast? with
  | none => exact h
  | some last => rfl

theorem halt?_map (f : Posting → Posting) (hf : ∀ p, (f p).record.outcome = p.record.outcome)
    (ps : List Posting) : c.halt? (ps.map f) = c.halt? ps := by
  rw [halt?, halt?, List.getLast?_map]
  cases ps.getLast? with
  | none => rfl
  | some p => exact congrArg (Outcome.stops? c.policy) (hf p)

theorem halt?_cons_of_next {p : Posting} (rest : List Posting)
    (h : p.record.outcome.stops? c.policy = none) : c.halt? (p :: rest) = c.halt? rest :=
  c.halt?_append [p] rest h

/-- Two contracts that make the calls of a run alike have the same ledger. It is enough that
they agree on the calls whose outcomes satisfy `P`, if no other outcome is in the ledger. -/
theorem ledger_congr (c' : Compiled) (P : Outcome → Prop) (hpolicy : c'.policy = c.policy)
    (hagree : ∀ index arguments s, P (c.posting index arguments s).record.outcome →
      c'.posting index arguments s = c.posting index arguments s)
    {index : Nat} {calls : List (List Value)} {s : State}
    (hP : ∀ p ∈ c.ledger index calls s, P p.record.outcome) :
    c'.ledger index calls s = c.ledger index calls s := by
  induction calls generalizing index s with
  | nil => rfl
  | cons arguments rest ih =>
    cases hstop : (c.posting index arguments s).record.outcome.stops? c.policy with
    | some error =>
      rw [c.ledger_cons_of_stop rest hstop] at hP ⊢
      have hfirst := hagree index arguments s (hP _ List.mem_cons_self)
      rw [c'.ledger_cons_of_stop rest (by rw [hfirst, hpolicy, hstop]), hfirst]
    | none =>
      rw [c.ledger_cons_of_next rest hstop] at hP ⊢
      obtain ⟨hhead, hrest⟩ := List.forall_mem_cons.1 hP
      have hfirst := hagree index arguments s hhead
      rw [c'.ledger_cons_of_next rest (by rw [hfirst, hpolicy, hstop]), hfirst, ih hrest]

/-! ### Runs and their ledgers -/

theorem reported_eq_summary (w : World State) (stages : List Stage) :
    (c.reported w stages).1 = c.summary w.state (stages.map Stage.posting) := by
  have hstop : c.stop? stages = c.halt? (stages.map Stage.posting) := by
    rw [stop?, halt?, List.getLast?_map]
    cases stages.getLast? <;> rfl
  have hrecords : (stages.map Stage.posting).map Posting.record = stages.map Stage.record :=
    List.map_map
  simp only [reported, summary, hstop, hrecords, Stage.state_last]

variable (mode : Mode)

theorem posting_stage (index : Nat) (arguments : List Value) (w : World State) :
    (c.stage mode index arguments w).posting = c.posting index arguments w.state := by
  have h := c.stage_refers mode index arguments w
  have hrecord : (c.stage mode index arguments w).record = ⟨index, arguments,
      (c.stage mode index arguments w).record.outcome,
      (c.stage mode index arguments w).record.changes⟩ := rfl
  have hbefore : (c.stage mode index arguments w).before = w := rfl
  rw [Stage.posting, hrecord, h.outcome, h.changes, h.state, hbefore, posting]

theorem map_posting_stages (index : Nat) (calls : List (List Value)) (w : World State) :
    (c.stages mode index calls w).map Stage.posting = c.ledger index calls w.state := by
  induction calls generalizing index w with
  | nil => rfl
  | cons arguments rest ih =>
    have hfirst := c.posting_stage mode index arguments w
    have hrecord : (c.stage mode index arguments w).record =
        (c.posting index arguments w.state).record := congrArg Posting.record hfirst
    have hstate : (c.stage mode index arguments w).after.state =
        (c.posting index arguments w.state).state := congrArg Posting.state hfirst
    cases hstop : (c.posting index arguments w.state).record.outcome.stops? c.policy with
    | some error =>
      rw [c.ledger_cons_of_stop rest hstop,
        c.stages_cons_of_stop mode rest (by rw [hrecord, hstop]), List.map_singleton, hfirst]
    | none =>
      rw [c.ledger_cons_of_next rest hstop,
        c.stages_cons_of_next mode rest (by rw [hrecord, hstop]), List.map_cons, ih, hfirst, hstate]

theorem map_posting_history (calls : List (List Value)) (times : Nat) (w : World State) :
    (c.history calls times w).map Stage.posting = c.ledger 0 (c.requested calls times) w.state := by
  rw [history, map_posting_stages, opened_state]

/-- A run in the contract's own mode comes to what its ledger says. -/
theorem run_summary (calls : List (List Value)) (times : Nat) (w : World State) :
    ∃ after, c.run calls times w =
      (.ok (c.summary w.state (c.ledger 0 (c.requested calls times) w.state)), after) ∧
        after.state = Posting.last w.state (c.ledger 0 (c.requested calls times) w.state) := by
  refine ⟨Stage.last (c.opened calls times w) (c.history calls times w), ?_, ?_⟩
  · rw [run_eq, reported_eq_summary, map_posting_history, opened_state]
    rfl
  · rw [Stage.state_last, map_posting_history, opened_state]

/-- Contracts whose calls have the same ledger have the same runs. Only the fingerprints in their
reports differ. -/
theorem run_of_ledger (c' : Compiled) (hname : c'.name = c.name) (hpolicy : c'.policy = c.policy)
    {calls : List (List Value)} {times : Nat} {w : World State}
    (hledger : c'.ledger 0 (c'.requested calls times) w.state =
      c.ledger 0 (c.requested calls times) w.state) :
    ∃ r after after', c.run calls times w = (.ok r, after) ∧
      c'.run calls times w = (.ok { r with fingerprint := c'.fingerprint }, after') ∧
      after'.state = after.state := by
  obtain ⟨after, hrun, hafter⟩ := c.run_summary calls times w
  obtain ⟨after', hrun', hafter'⟩ := c'.run_summary calls times w
  have hhalt : ∀ ps, c'.halt? ps = c.halt? ps := by
    intro ps
    rw [halt?, halt?, hpolicy]
  rw [hledger] at hrun' hafter'
  refine ⟨_, after, after', hrun, ?_, hafter'.trans hafter.symm⟩
  simp only [hrun', summary, hhalt, hname]

end Compiled

end Covenant
