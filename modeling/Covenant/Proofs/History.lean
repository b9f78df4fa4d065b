import Covenant.Proofs.GuardedCall

/-! Runs of compiled manifests, call by call. A run makes its calls in order, each from the
world in which the one before it ended, up to the first whose outcome ends the run. The report
of a run is about exactly these calls, and a run in the contract's own mode always comes to a
report. -/

namespace Covenant

/-- One call of a run: the worlds before and after it, the steps that were made, and its
record. -/
structure Stage where
  before : World State
  events : List (Event RunError Value)
  record : Record
  after : World State

/-- The world in which calls have ended that started in the world `w`. -/
def Stage.last (w : World State) (stages : List Stage) : World State :=
  (stages.getLast?.map Stage.after).getD w

/-- What is seen of a call of a run is what a reference says. -/
structure Stage.Refers (s : Stage) (r : Reference) : Prop where
  events : direct s.events = r.events
  outcome : s.record.outcome = r.outcome
  changes : s.record.changes = s.before.state.changes r.state
  state : s.after.state = r.state

namespace Compiled

variable (c : Compiled)

/-- One call in a mode. -/
def call : Mode → List Value → Guarded State (Ending RunError Value)
  | .direct => c.contract.tryInvoke
  | .deferred _ delay => fun arguments => (c.deferredContract arguments delay).await

/-- The same call of the recorded contract. -/
def recordedCall :
    Mode → List Value → Guarded (Recorded State RunError Value) (Ending RunError Value)
  | .direct => c.contract.recorded.tryInvoke
  | .deferred _ delay => fun arguments =>
    (c.contract.recordedDeferred arguments (if delay = 0 then 0 else 1)).await

def stage (mode : Mode) (index : Nat) (arguments : List Value) (w : World State) : Stage where
  before := w
  events := ((c.recordedCall mode arguments).run (w.with [])).2.state.events
  record := (record (c.call mode) index arguments w).1
  after := (record (c.call mode) index arguments w).2

/-- The calls that are made from the world `w` on, numbered from `index` on. -/
def stages (mode : Mode) (index : Nat) : List (List Value) → World State → List Stage
  | [], _ => []
  | arguments :: rest, w =>
    let first := c.stage mode index arguments w
    match first.record.outcome.stops? c.policy with
    | some _ => [first]
    | none => first :: stages mode (index + 1) rest first.after

/-- The error with which calls have ended the run. -/
def stop? (stages : List Stage) : Option String :=
  stages.getLast?.bind fun last => last.record.outcome.stops? c.policy

/-! ### Runs in the contract's own mode -/

/-- A run: with the given calls if the contract is called directly, and otherwise the given
number of times. -/
def run (calls : List (List Value)) (times : Nat) : Act State (Except RunError Report) :=
  match c.mode with
  | .direct => c.execute calls
  | .deferred _ _ => c.executeDeferred times

/-- The arguments of the calls that a run is to make. -/
def requested (calls : List (List Value)) (times : Nat) : List (List Value) :=
  match c.mode with
  | .direct => calls
  | .deferred arguments _ => List.replicate times arguments

/-- The world in which the first call starts: the run has been noted. -/
def opened (calls : List (List Value)) (times : Nat) (w : World State) : World State :=
  match c.mode with
  | .direct => ⟨w.state, .running c.name calls.length :: w.journal⟩
  | .deferred _ _ => ⟨w.state, .runningDeferred c.name times :: w.journal⟩

/-- The calls that a run makes. -/
def history (calls : List (List Value)) (times : Nat) (w : World State) : List Stage :=
  c.stages c.mode 0 (c.requested calls times) (c.opened calls times w)

theorem opened_state (calls : List (List Value)) (times : Nat) (w : World State) :
    (c.opened calls times w).state = w.state := by
  rw [opened]
  split <;> rfl

variable (mode : Mode)

theorem stages_cons_of_stop {index : Nat} {arguments : List Value} {w : World State}
    {error : String} (rest : List (List Value))
    (h : (c.stage mode index arguments w).record.outcome.stops? c.policy = some error) :
    c.stages mode index (arguments :: rest) w = [c.stage mode index arguments w] := by
  rw [stages, h]

theorem stages_cons_of_next {index : Nat} {arguments : List Value} {w : World State}
    (rest : List (List Value))
    (h : (c.stage mode index arguments w).record.outcome.stops? c.policy = none) :
    c.stages mode index (arguments :: rest) w = c.stage mode index arguments w ::
      c.stages mode (index + 1) rest (c.stage mode index arguments w).after := by
  rw [stages, h]

theorem runFrom_cons (index : Nat) (arguments : List Value) (rest : List (List Value))
    (w : World State) : c.runFrom (c.call mode) index (arguments :: rest) w =
      match (c.stage mode index arguments w).record.outcome.stops? c.policy with
      | some error => (([(c.stage mode index arguments w).record], some error),
        (c.stage mode index arguments w).after)
      | none =>
        let later :=
          c.runFrom (c.call mode) (index + 1) rest (c.stage mode index arguments w).after
        (((c.stage mode index arguments w).record :: later.1.1, later.1.2), later.2) := by
  rw [runFrom, Act.run_bind]
  change (match (c.stage mode index arguments w).record.outcome.stops? c.policy with
    | some error => _
    | none => _ : Act State _) (c.stage mode index arguments w).after = _
  cases (c.stage mode index arguments w).record.outcome.stops? c.policy <;> rfl

/-- The records of a run are those of the calls that are made, and the last of these leaves the
world as it is in the end. -/
theorem runFrom_eq (index : Nat) (calls : List (List Value)) (w : World State) :
    c.runFrom (c.call mode) index calls w =
      (((c.stages mode index calls w).map Stage.record, c.stop? (c.stages mode index calls w)),
        Stage.last w (c.stages mode index calls w)) := by
  induction calls generalizing index w with
  | nil => rfl
  | cons arguments rest ih =>
    rw [runFrom_cons]
    cases hstop : (c.stage mode index arguments w).record.outcome.stops? c.policy with
    | some error =>
      rw [c.stages_cons_of_stop mode rest hstop, stop?, List.getLast?_singleton, Option.bind_some,
        hstop]
      rfl
    | none =>
      rw [c.stages_cons_of_next mode rest hstop, ih, stop?, stop?, Stage.last, Stage.last,
        List.getLast?_cons]
      cases (c.stages mode (index + 1) rest
          (c.stage mode index arguments w).after).getLast? with
      | none => simp [hstop]
      | some last => rfl

/-- The report of calls, and the world in which they leave off. -/
def reported (w : World State) (stages : List Stage) : Report × World State :=
  let last := Stage.last w stages
  (⟨c.name, c.fingerprint, (c.stop? stages).isNone, stages.map Stage.record, last.state.fields,
    c.stop? stages⟩, last)

theorem report_eq (calls : List (List Value)) (w : World State) :
    c.report (c.call mode) calls w = c.reported w (c.stages mode 0 calls w) := by
  rw [report, Act.run_bind, runFrom_eq]
  rfl

/-- A run in the contract's own mode comes to a report of the calls that it makes. -/
theorem run_eq (calls : List (List Value)) (times : Nat) (w : World State) :
    c.run calls times w =
      (.ok (c.reported (c.opened calls times w) (c.history calls times w)).1,
        (c.reported (c.opened calls times w) (c.history calls times w)).2) := by
  cases hmode : c.mode with
  | direct =>
    simp only [run, history, requested, opened, hmode]
    rw [← report_eq, execute, hmode]
    rfl
  | deferred arguments delay =>
    simp only [run, history, requested, opened, hmode]
    rw [← report_eq, executeDeferred, hmode]
    rfl

/-! ### The calls of a run -/

/-- The calls that are made are the first of those asked for, in their order. -/
theorem eq_stage_of_getElem? {index : Nat} {calls : List (List Value)} {w : World State} {k : Nat}
    {s : Stage} (h : (c.stages mode index calls w)[k]? = some s) :
    s = c.stage mode (index + k) s.record.arguments s.before ∧
      calls[k]? = some s.record.arguments := by
  induction calls generalizing index w k with
  | nil => simp [stages] at h
  | cons arguments rest ih =>
    cases k with
    | zero =>
      have hfirst : s = c.stage mode index arguments w := by
        rw [stages] at h
        split at h <;> exact (Option.some.inj h).symm
      subst hfirst
      exact ⟨rfl, rfl⟩
    | succ k =>
      cases hstop : (c.stage mode index arguments w).record.outcome.stops? c.policy with
      | some error => simp [c.stages_cons_of_stop mode rest hstop] at h
      | none =>
        rw [c.stages_cons_of_next mode rest hstop, List.getElem?_cons_succ] at h
        obtain ⟨hs, hcalls⟩ := ih h
        rw [Nat.add_assoc, Nat.add_comm 1 k] at hs
        exact ⟨hs, hcalls⟩

theorem before_of_head {index : Nat} {calls : List (List Value)} {w : World State} {s : Stage}
    (h : (c.stages mode index calls w)[0]? = some s) : s.before = w := by
  cases calls with
  | nil => simp [stages] at h
  | cons arguments rest =>
    rw [stages] at h
    split at h <;> exact Option.some.inj h ▸ rfl

/-- A call with another after it has not ended the run, and the other starts where it ended. -/
theorem next_of_getElem? {index : Nat} {calls : List (List Value)} {w : World State} {k : Nat}
    {s next : Stage} (hs : (c.stages mode index calls w)[k]? = some s)
    (hnext : (c.stages mode index calls w)[k + 1]? = some next) :
    s.record.outcome.stops? c.policy = none ∧ next.before = s.after := by
  induction calls generalizing index w k with
  | nil => simp [stages] at hs
  | cons arguments rest ih =>
    cases hstop : (c.stage mode index arguments w).record.outcome.stops? c.policy with
    | some error => simp [c.stages_cons_of_stop mode rest hstop] at hnext
    | none =>
      rw [c.stages_cons_of_next mode rest hstop] at hs hnext
      rw [List.getElem?_cons_succ] at hnext
      cases k with
      | zero =>
        cases hs
        exact ⟨hstop, c.before_of_head mode hnext⟩
      | succ k => exact ih hs hnext

/-- All calls asked for are made, unless one has ended the run. -/
theorem length_stages_of_stop?_eq_none {index : Nat} {calls : List (List Value)}
    {w : World State} (h : c.stop? (c.stages mode index calls w) = none) :
    (c.stages mode index calls w).length = calls.length := by
  induction calls generalizing index w with
  | nil => rfl
  | cons arguments rest ih =>
    cases hstop : (c.stage mode index arguments w).record.outcome.stops? c.policy with
    | some error =>
      rw [c.stages_cons_of_stop mode rest hstop, stop?, List.getLast?_singleton, Option.bind_some,
        hstop] at h
      cases h
    | none =>
      rw [c.stages_cons_of_next mode rest hstop] at h ⊢
      rw [List.length_cons, List.length_cons, ih]
      rw [stop?, List.getLast?_cons] at h
      rw [stop?]
      cases hlast : (c.stages mode (index + 1) rest
          (c.stage mode index arguments w).after).getLast? with
      | none => rfl
      | some last =>
        rw [hlast] at h
        exact h

/-! ### One call -/

/-- The courses that a call on the state `s` can take. -/
inductive Course (arguments : List Value) (s : State) : Reference → Prop
  | blocked {v : Violation} (before : c.violation? [.precondition, .invariant] s = some v) :
    Course arguments s ⟨c.log s [.precondition, .invariant], .violated v, s⟩
  | failed {e : RunError} {s' : State} (before : c.violation? [.precondition, .invariant] s = none)
    (body : c.body.run (bind c.parameters arguments) s = (.error e, s')) :
    Course arguments s ⟨c.log s [.precondition, .invariant] ++ [.ran (.failed e)],
      .failed (Error.run e).message, s'⟩
  | broken {value : Value} {s' : State} {v : Violation}
    (before : c.violation? [.precondition, .invariant] s = none)
    (body : c.body.run (bind c.parameters arguments) s = (.ok value, s'))
    (after : c.violation? [.invariant, .postcondition] s' = some v) :
    Course arguments s ⟨c.log s [.precondition, .invariant] ++
      .ran (.returned value) :: c.log s' [.invariant, .postcondition], .violated v, s'⟩
  | returned {value : Value} {s' : State}
    (before : c.violation? [.precondition, .invariant] s = none)
    (body : c.body.run (bind c.parameters arguments) s = (.ok value, s'))
    (after : c.violation? [.invariant, .postcondition] s' = none) :
    Course arguments s ⟨c.log s [.precondition, .invariant] ++
      .ran (.returned value) :: c.log s' [.invariant, .postcondition], .returned value, s'⟩

theorem reference_course (arguments : List Value) (s : State) :
    c.Course arguments s (c.reference arguments s) := by
  rw [reference]
  cases hbefore : c.violation? [.precondition, .invariant] s with
  | some v => exact .blocked hbefore
  | none =>
    rcases hbody : c.body.run (bind c.parameters arguments) s with ⟨e | value, s'⟩
    · exact .failed hbefore hbody
    · cases hafter : c.violation? [.invariant, .postcondition] s' with
      | some v =>
        simp only [hafter]
        exact .broken hbefore hbody hafter
      | none =>
        simp only [hafter]
        exact .returned hbefore hbody hafter

namespace Course

variable {c} {arguments : List Value} {s : State} {r : Reference}

theorem direct_events (h : c.Course arguments s r) : direct r.events = r.events := by
  have hran : ∀ (ending : Ending RunError Value) events,
      direct (.ran ending :: events) = .ran ending :: direct events := fun _ _ => rfl
  cases h with
  | blocked => exact (c.log_onlyTests _ _).direct
  | failed =>
    rw [direct_append, (c.log_onlyTests _ _).direct, hran]
    rfl
  | broken | returned =>
    rw [direct_append, hran, (c.log_onlyTests _ _).direct, (c.log_onlyTests _ _).direct]

theorem exists_of_failed {error : String} (h : c.Course arguments s r)
    (hfailed : r.outcome = .failed error) :
    ∃ e s', c.body.run (bind c.parameters arguments) s = (.error e, s') ∧
      error = (Error.run e).message := by
  cases h with
  | failed _ body =>
    cases hfailed
    exact ⟨_, _, body, rfl⟩
  | blocked | broken | returned => cases hfailed

/-- After a call that returned, the conditions after the call hold. -/
theorem violation?_eq_none_of_returned {v : Value} (h : c.Course arguments s r)
    (hreturned : r.outcome = .returned v) :
    c.violation? [.invariant, .postcondition] r.state = none := by
  cases h with
  | returned _ _ after => exact after
  | blocked | failed | broken => cases hreturned

/-- A call that is violated was so on the state before it or on the one after it. -/
theorem exists_of_violated {v : Violation} (h : c.Course arguments s r)
    (hviolated : r.outcome = .violated v) :
    ∃ kinds s', (s' = s ∨ s' = r.state) ∧ c.violation? kinds s' = some v := by
  cases h with
  | blocked before =>
    cases hviolated
    exact ⟨_, s, .inl rfl, before⟩
  | broken _ _ after =>
    cases hviolated
    exact ⟨_, _, .inr rfl, after⟩
  | failed | returned => cases hviolated

/-- A call that does not run its body is kept from it by a test before the body. -/
theorem exists_of_not_ran (h : c.Course arguments s r) (hran : ∀ ending, .ran ending ∉ r.events) :
    ∃ v, c.violation? [.precondition, .invariant] s = some v ∧ r.outcome = .violated v := by
  cases h with
  | blocked before => exact ⟨_, before, rfl⟩
  | failed | broken | returned =>
    exact absurd (List.mem_append_right _ List.mem_cons_self) (hran _)

end Course

theorem call_records (arguments : List Value) (w : World State) :
    Records w (c.recordedCall mode arguments).run (c.call mode arguments).run
      fun answer after events =>
        (c.reference arguments w.state).Agrees answer after (direct events) := by
  cases mode with
  | direct =>
    refine (c.tryInvoke_records arguments w).imp fun answer after events h => ?_
    rw [h.events, (c.reference_course arguments w.state).direct_events, ← h.events]
    exact h
  | deferred _ delay => exact c.await_records arguments delay w

theorem stage_refers (index : Nat) (arguments : List Value) (w : World State) :
    (c.stage mode index arguments w).Refers (c.reference arguments w.state) := by
  have h := (c.call_records mode arguments w).of_empty
  exact ⟨h.events, h.outcome, congrArg w.state.changes h.state, h.state⟩

theorem refers_of_mem {index : Nat} {calls : List (List Value)} {w : World State} {s : Stage}
    (h : s ∈ c.stages mode index calls w) :
    s.Refers (c.reference s.record.arguments s.before.state) := by
  obtain ⟨k, hk⟩ := List.mem_iff_getElem?.1 h
  obtain ⟨hstage, -⟩ := c.eq_stage_of_getElem? mode hk
  have hrefers := c.stage_refers mode (index + k) s.record.arguments s.before
  rwa [← hstage] at hrefers

/-- A call of a run starts where the calls before it ended. -/
theorem before_eq_last {index : Nat} {calls : List (List Value)} {w : World State} {k : Nat}
    {s : Stage} (h : (c.stages mode index calls w)[k]? = some s) :
    s.before = Stage.last w ((c.stages mode index calls w).take k) := by
  cases k with
  | zero => exact c.before_of_head mode h
  | succ k =>
    obtain ⟨hk, -⟩ := List.getElem?_eq_some_iff.1 h
    have hprevious : (c.stages mode index calls w)[k]? = some _ :=
      List.getElem?_eq_getElem (Nat.lt_of_succ_lt hk)
    rw [(c.next_of_getElem? mode hprevious h).2, Stage.last, List.getLast?_take, if_neg (by omega),
      Nat.add_sub_cancel, hprevious]
    rfl

end Compiled

/-! ### Reports -/

namespace Outcome

variable {policy : Policy} {outcome : Outcome}

theorem stops?_eq_none_iff : outcome.stops? policy = none ↔
    (∃ v, outcome = .returned v) ∨ policy = .proceed ∧ ∃ v, outcome = .violated v := by
  cases outcome <;> cases policy <;> simp [stops?]

theorem stops?_eq_none_iff_ne : outcome.stops? policy = none ↔
    (∀ error, outcome ≠ .failed error) ∧ (policy = .raise → ∀ v, outcome ≠ .violated v) := by
  cases outcome <;> cases policy <;> simp [stops?]

theorem stops?_eq_some_iff {error : String} : outcome.stops? policy = some error ↔
    (policy = .raise ∧ ∃ v, outcome = .violated v ∧ v.message = error) ∨
      outcome = .failed error := by
  cases outcome <;> cases policy <;> simp [stops?]

end Outcome

/-- What is true of the report `r` of a run, which began in the world `w` and came to its end in
the world `after`. -/
structure Compiled.Reported (c : Compiled) (calls : List (List Value)) (times : Nat)
    (w : World State) (r : Report) (after : World State) : Prop where
  /-- The records are those of the calls that were made. -/
  records : r.calls = (c.history calls times w).map Stage.record
  /-- Before the first call the state is as the run found it. -/
  started : (c.opened calls times w).state = w.state
  /-- Each call was made where those before it had ended. -/
  chained : ∀ k s, (c.history calls times w)[k]? = some s →
    s = c.stage c.mode k s.record.arguments s.before ∧
      s.before = Stage.last (c.opened calls times w) ((c.history calls times w).take k)
  numbered : ∀ k (record : Record), r.calls[k]? = some record →
    record.index = k ∧ (c.requested calls times)[k]? = some record.arguments
  /-- Only the last record may be one that ends the run. -/
  passed : ∀ k (record : Record), k + 1 < r.calls.length → r.calls[k]? = some record →
    (∃ v, record.outcome = .returned v) ∨
      c.policy = .proceed ∧ ∃ v, record.outcome = .violated v
  complete : r.calls.length = (c.requested calls times).length ∨
    ∃ last, r.calls.getLast? = some last ∧ ((∃ error, last.outcome = .failed error) ∨
      c.policy = .raise ∧ ∃ v, last.outcome = .violated v)
  error_none : r.error = none ↔ ∀ record ∈ r.calls, (∀ error, record.outcome ≠ .failed error) ∧
    (c.policy = .raise → ∀ v, record.outcome ≠ .violated v)
  error_some : ∀ error, r.error = some error → ∃ last, r.calls.getLast? = some last ∧
    ((∃ v, last.outcome = .violated v ∧ v.message = error) ∨ last.outcome = .failed error)
  success : r.success = true ↔ r.error = none
  /-- A failure is the one with which the body ended, an error of execution. -/
  failed : ∀ s ∈ c.history calls times w, ∀ error, s.record.outcome = .failed error →
    ∃ e s', c.body.run (bind c.parameters s.record.arguments) s.before.state = (.error e, s') ∧
      error = (Error.run e).message
  /-- Nothing happens after the last call. -/
  ended : after = Stage.last (c.opened calls times w) (c.history calls times w)
  final : r.finalState = after.state.fields

namespace Compiled

variable (c : Compiled)

variable (mode : Mode)

theorem stops?_of_lt {index : Nat} {calls : List (List Value)} {w : World State} {k : Nat}
    {s : Stage} (h : (c.stages mode index calls w)[k]? = some s)
    (hk : k + 1 < (c.stages mode index calls w).length) :
    s.record.outcome.stops? c.policy = none :=
  (c.next_of_getElem? mode h (List.getElem?_eq_getElem hk)).1

/-- A run is ended by a call exactly if some call of it ends a run. -/
theorem stop?_eq_none_iff {index : Nat} {calls : List (List Value)} {w : World State} :
    c.stop? (c.stages mode index calls w) = none ↔
      ∀ s ∈ c.stages mode index calls w, s.record.outcome.stops? c.policy = none := by
  rw [stop?]
  constructor
  · intro h s hs
    obtain ⟨k, hk⟩ := List.mem_iff_getElem?.1 hs
    rcases Nat.lt_or_ge (k + 1) (c.stages mode index calls w).length with hlt | hge
    · exact c.stops?_of_lt mode hk hlt
    · have hlast : (c.stages mode index calls w).getLast? = some s := by
        obtain ⟨hlt, -⟩ := List.getElem?_eq_some_iff.1 hk
        rw [List.getLast?_eq_getElem?, ← hk]
        congr 1
        omega
      rw [hlast] at h
      exact h
  · intro h
    cases hlast : (c.stages mode index calls w).getLast? with
    | none => rfl
    | some last => exact h last (List.mem_of_getLast? hlast)

/-- A run in the contract's own mode comes to a report of the calls that it makes. -/
theorem run_reported (calls : List (List Value)) (times : Nat) (w : World State) :
    ∃ r after, c.run calls times w = (.ok r, after) ∧ c.Reported calls times w r after := by
  have hlast : ((c.history calls times w).map Stage.record).getLast? =
      (c.history calls times w).getLast?.map Stage.record := List.getLast?_map ..
  refine ⟨_, _, c.run_eq calls times w, ?_⟩
  constructor
  case records => rfl
  case started => exact c.opened_state calls times w
  case chained =>
    intro k s hs
    obtain ⟨hstage, -⟩ := c.eq_stage_of_getElem? c.mode hs
    rw [Nat.zero_add] at hstage
    exact ⟨hstage, c.before_eq_last c.mode hs⟩
  case numbered =>
    intro k record hrecord
    obtain ⟨s, hs, rfl⟩ := Option.map_eq_some_iff.1 (List.getElem?_map .. ▸ hrecord)
    obtain ⟨hstage, hcalls⟩ := c.eq_stage_of_getElem? c.mode hs
    rw [Nat.zero_add] at hstage
    exact ⟨by rw [hstage]; rfl, hcalls⟩
  case passed =>
    intro k record hk hrecord
    obtain ⟨s, hs, rfl⟩ := Option.map_eq_some_iff.1 (List.getElem?_map .. ▸ hrecord)
    rw [← Outcome.stops?_eq_none_iff]
    refine c.stops?_of_lt c.mode hs (Nat.lt_of_lt_of_eq hk ?_)
    exact List.length_map _
  case complete =>
    cases hstop : c.stop? (c.history calls times w) with
    | none =>
      refine .inl ?_
      rw [← c.length_stages_of_stop?_eq_none c.mode hstop]
      exact List.length_map _
    | some error =>
      obtain ⟨last, hs, herror⟩ := Option.bind_eq_some_iff.1 hstop
      refine .inr ⟨last.record, by simp only [reported]; rw [hlast, hs]; rfl, ?_⟩
      rcases Outcome.stops?_eq_some_iff.1 herror with ⟨hraise, v, hv, -⟩ | hfailed
      · exact .inr ⟨hraise, v, hv⟩
      · exact .inl ⟨error, hfailed⟩
  case error_none =>
    simp only [reported, List.forall_mem_map, ← Outcome.stops?_eq_none_iff_ne]
    exact c.stop?_eq_none_iff c.mode
  case error_some =>
    intro error hstop
    obtain ⟨last, hs, herror⟩ := Option.bind_eq_some_iff.1 hstop
    refine ⟨last.record, by simp only [reported]; rw [hlast, hs]; rfl, ?_⟩
    rcases Outcome.stops?_eq_some_iff.1 herror with ⟨-, hviolated⟩ | hfailed
    · exact .inl hviolated
    · exact .inr hfailed
  case success => exact Option.isNone_iff_eq_none
  case failed =>
    intro s hs error hfailed
    have hrefers := c.refers_of_mem c.mode hs
    exact (c.reference_course _ _).exists_of_failed (hrefers.outcome.symm.trans hfailed)
  case ended => rfl
  case final => rfl

end Compiled

end Covenant
