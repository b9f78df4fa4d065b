import Covenant.Proofs.Polling
import Mathlib.Data.List.GetD

/-! Schedules of deferred calls on one state. -/

namespace Covenant

variable {σ α ε ρ : Type}

/-- The call that a step is about; the other steps do not look at a contract. -/
def Pool.Step.call : Pool.Step σ → Nat
  | poll id | drop id => id
  | _ => 0

/-- A step beside the events; a write leaves them as they are. -/
def Pool.Step.recorded : Pool.Step σ → Pool.Step (Recorded σ ε ρ)
  | start => .start
  | poll id => .poll id
  | drop id => .drop id
  | write change => .write fun s => { s with state := change s.state }

/-- One step of a schedule as it was made. -/
structure Moment (σ ε ρ : Type) where
  step : Pool.Step σ
  before : World σ
  answer : Pool.Answer ε ρ
  after : World σ
  events : List (Event ε ρ)

namespace Contract

variable (c : Contract σ α ε ρ) (a : Nat → α) (pauses : Nat → Nat)

/-- Runs a schedule of deferred calls of a contract, of which the one with number `id` has the
arguments `a id` and a target that is pending for `pauses id` polls. -/
def runSchedule : List (Pool.Step σ) → Pool σ ε ρ → Act σ (List (Pool.Answer ε ρ))
  | [], _ => return []
  | step :: rest, p => do
    let (answer, p) ← p.step (c.deferred (a step.call) (pauses step.call)) step
    return answer :: (← runSchedule rest p)

/-- The steps of a schedule, each with the events that it adds. -/
def moments : List (Pool.Step σ) → Pool (Recorded σ ε ρ) ε ρ → World σ → List (Moment σ ε ρ)
  | [], _, _ => []
  | step :: rest, p, w =>
    let ((answer, p), after) :=
      p.step (c.recordedDeferred (a step.call) (pauses step.call)) step.recorded (w.with [])
    ⟨step, w, answer, after.plain, after.state.events⟩ :: moments rest p after.plain

/-- The pool of calls that stand at the given phases. -/
def poolOf (phases : List Phase) : Pool σ ε ρ :=
  ⟨phases.mapIdx fun id phase => phase.toDeferred (c.target (a id))⟩

theorem poolOf_started (phases : List Phase) :
    c.poolOf a (phases ++ [.fresh]) = ⟨(c.poolOf a phases).calls ++ [.fresh]⟩ := by
  simp [poolOf, Phase.toDeferred]

theorem poolOf_set (phases : List Phase) (id : Nat) (phase : Phase) :
    c.poolOf a (phases.set id phase) =
      ⟨(c.poolOf a phases).calls.set id (phase.toDeferred (c.target (a id)))⟩ := by
  simp [poolOf, List.mapIdx_set]

theorem getD_poolOf (phases : List Phase) (id : Nat) :
    (c.poolOf a phases).calls.getD id .gone =
      (phases.getD id .gone).toDeferred (c.target (a id)) := by
  rw [poolOf, List.getD_eq_getElem?_getD, List.getElem?_mapIdx, List.getD_eq_getElem?_getD]
  cases phases[id]? <;> rfl

theorem step_poll (phases : List Phase) (id : Nat) :
    (c.poolOf a phases).step (c.deferred (a id) (pauses id)) (.poll id) = (do
      let (progress, phase) ← (phases.getD id .gone).poll c.conditions (return ())
        (c.target (a id)) (pauses id)
      return (.polled progress, c.poolOf a (phases.set id phase))) := by
  rw [Pool.step, getD_poolOf, poll_deferred, bind_assoc]
  simp only [poolOf_set]
  rfl

theorem step_poll_recorded (phases : List Phase) (id : Nat) :
    (c.recorded.poolOf a phases).step (c.recordedDeferred (a id) (pauses id)) (.poll id) = (do
      let (progress, phase) ← (phases.getD id .gone).poll c.conditions.recorded
        (Act.recorded (return ()) fun _ => .entered) (c.recorded.target (a id)) (pauses id)
      return (.polled progress, c.recorded.poolOf a (phases.set id phase))) := by
  rw [Pool.step, getD_poolOf, poll_recordedDeferred, bind_assoc]
  simp only [poolOf_set]
  rfl

/-- The steps of a pool by the phases of its calls. -/
inductive Stepped (w : World σ) (phases : List Phase) : Pool.Step σ → Pool.Answer ε ρ →
    List Phase → World σ → List (Event ε ρ) → Prop
  | start : Stepped w phases .start (.started phases.length) (phases ++ [.fresh]) w []
  | poll {id : Nat} {progress : Progress ε ρ} {phase : Phase} {after : World σ}
    {events : List (Event ε ρ)}
    (h : Polled c (a id) (pauses id) w (phases.getD id .gone) (progress, phase) after events) :
    Stepped w phases (.poll id) (.polled progress) (phases.set id phase) after events
  | drop (id : Nat) : Stepped w phases (.drop id) .done (phases.set id .gone) w []
  | write (change : σ → σ) :
    Stepped w phases (.write change) .done phases ⟨change w.state, w.journal⟩ []

namespace Stepped

variable {c a pauses} {w after : World σ} {phases phases' : List Phase} {step : Pool.Step σ}
  {answer : Pool.Answer ε ρ} {events : List (Event ε ρ)}

theorem of_start_or_drop (h : c.Stepped a pauses w phases step answer phases' after events)
    (hstep : step = .start ∨ ∃ id, step = .drop id) : after = w ∧ events = [] := by
  cases h with
  | start | drop => exact ⟨rfl, rfl⟩
  | poll | write => simp at hstep

theorem of_write {change : σ → σ}
    (h : c.Stepped a pauses w phases (.write change) answer phases' after events) :
    after = ⟨change w.state, w.journal⟩ ∧ events = [] := by
  cases h
  exact ⟨rfl, rfl⟩

theorem of_gone (h : c.Stepped a pauses w phases step (.polled .gone) phases' after events) :
    after = w ∧ events = [] := by
  cases h with
  | @poll id _ _ _ _ h =>
    generalize phases.getD id .gone = phase at h
    cases h
    exact ⟨rfl, rfl⟩

end Stepped

/-- What a step does, with and without the events. -/
theorem step_stepped (step : Pool.Step σ) (phases : List Phase) (w : World σ) :
    ∃ answer phases' after events, c.Stepped a pauses w phases step answer phases' after events ∧
      (c.poolOf a phases).step (c.deferred (a step.call) (pauses step.call)) step w =
        ((answer, c.poolOf a phases'), after) ∧
      (c.recorded.poolOf a phases).step (c.recordedDeferred (a step.call) (pauses step.call))
        step.recorded (w.with []) = ((answer, c.recorded.poolOf a phases'), after.with events) := by
  cases step with
  | start =>
    refine ⟨_, _, _, _, .start, ?_, ?_⟩ <;>
    · rw [poolOf_started, poolOf, ← List.length_mapIdx]
      rfl
  | poll id =>
    obtain ⟨events, hpolled, hrun⟩ := c.poll_records (a id) (pauses id) (phases.getD id .gone) w
    have hrecorded := hrun []
    rcases hplain : (phases.getD id .gone).poll c.conditions (return ()) (c.target (a id))
      (pauses id) w with ⟨⟨progress, phase⟩, after⟩
    rw [hplain] at hpolled hrecorded
    refine ⟨_, _, _, _, .poll hpolled, ?_, ?_⟩
    · rw [Pool.Step.call, step_poll, Act.run_bind, hplain]
      rfl
    · rw [Pool.Step.call, Pool.Step.recorded, step_poll_recorded, Act.run_bind, hrecorded]
      rfl
  | drop id =>
    refine ⟨_, _, _, _, .drop id, ?_, ?_⟩ <;>
    · rw [poolOf_set]
      rfl
  | write change => exact ⟨_, _, _, _, .write change, rfl, rfl⟩

/-- A run of a schedule by the phases of its calls: the steps that it made and the world after
the last of them. -/
inductive Runs : List Phase → World σ → List (Pool.Step σ) → List (Moment σ ε ρ) → World σ → Prop
  | nil (phases : List Phase) (w : World σ) : Runs phases w [] [] w
  | cons {phases phases' : List Phase} {w after last : World σ} {step : Pool.Step σ}
    {rest : List (Pool.Step σ)} {answer : Pool.Answer ε ρ} {events : List (Event ε ρ)}
    {ms : List (Moment σ ε ρ)}
    (h : c.Stepped a pauses w phases step answer phases' after events)
    (hrest : Runs phases' after rest ms last) :
    Runs phases w (step :: rest) (⟨step, w, answer, after, events⟩ :: ms) last

theorem moments_runs (schedule : List (Pool.Step σ)) (phases : List Phase) (w : World σ) :
    ∃ last, c.Runs a pauses phases w schedule
        (c.moments a pauses schedule (c.recorded.poolOf a phases) w) last ∧
      c.runSchedule a pauses schedule (c.poolOf a phases) w =
        ((c.moments a pauses schedule (c.recorded.poolOf a phases) w).map Moment.answer, last) := by
  induction schedule generalizing phases w with
  | nil => exact ⟨w, .nil phases w, rfl⟩
  | cons step rest ih =>
    obtain ⟨answer, phases', after, events, hstep, hplain, hrecorded⟩ :=
      c.step_stepped a pauses step phases w
    obtain ⟨last, hruns, hrest⟩ := ih phases' after
    refine ⟨last, ?_, ?_⟩
    · rw [moments, hrecorded]
      exact .cons hstep hruns
    · rw [moments, hrecorded, runSchedule, Act.run_bind, hplain]
      change (do return answer :: (← c.runSchedule a pauses rest (c.poolOf a phases')) : Act _ _)
        after = _
      rw [Act.run_bind, hrest]
      rfl

end Contract

/-! ### The polls of one call -/

namespace Moment

/-- A poll that finds the call with number `id`. -/
def isPollOf (id : Nat) (m : Moment σ ε ρ) : Bool :=
  match m.step, m.answer with
  | .poll _, .polled .gone => false
  | .poll id', _ => id' == id
  | _, _ => false

theorem isPollOf_poll {id id' : Nat} {progress : Progress ε ρ} {before after : World σ}
    {events : List (Event ε ρ)} (h : progress ≠ .gone) :
    isPollOf id ⟨.poll id', before, .polled progress, after, events⟩ = (id' == id) := by
  cases progress with
  | gone => exact absurd rfl h
  | _ => rfl

/-- A poll that leaves the target pending. -/
structure Idle (m : Moment σ ε ρ) : Prop where
  answer : m.answer = .polled .pending
  after : m.after = m.before
  events : m.events = []

end Moment

/-- The polls of one call from a phase on. -/
inductive Trail (c : Contract σ α ε ρ) (a : α) (pauses : Nat) :
    Phase → List (Moment σ ε ρ) → Prop
  | nil (phase : Phase) : Trail c a pauses phase []
  | cons {phase phase' : Phase} {progress : Progress ε ρ} {m : Moment σ ε ρ}
    {ms : List (Moment σ ε ρ)} (hphase : phase ≠ .gone)
    (h : Polled c a pauses m.before phase (progress, phase') m.after m.events)
    (hanswer : m.answer = .polled progress) (hrest : Trail c a pauses phase' ms) :
    Trail c a pauses phase (m :: ms)

theorem Polled.eq_of_gone {c : Contract σ α ε ρ} {a : α} {pauses : Nat} {w after : World σ}
    {progress : Progress ε ρ} {phase : Phase} {events : List (Event ε ρ)}
    (h : Polled c a pauses w .gone (progress, phase) after events) :
    progress = .gone ∧ phase = .gone ∧ after = w ∧ events = [] := by
  cases h
  exact ⟨rfl, rfl, rfl, rfl⟩

theorem Polled.ne_gone {c : Contract σ α ε ρ} {a : α} {pauses : Nat} {w after : World σ}
    {progress : Progress ε ρ} {phase phase' : Phase} {events : List (Event ε ρ)}
    (h : Polled c a pauses w phase (progress, phase') after events) (hphase : phase ≠ .gone) :
    progress ≠ .gone := by
  cases h with
  | gone => exact absurd rfl hphase
  | _ => simp

theorem Trail.eq_nil_of_gone {c : Contract σ α ε ρ} {a : α} {pauses : Nat}
    {ms : List (Moment σ ε ρ)} (h : Trail c a pauses .gone ms) : ms = [] := by
  cases h with
  | nil => rfl
  | cons hphase => exact absurd rfl hphase

theorem Trail.of_set {c : Contract σ α ε ρ} {a : α} {pauses : Nat} {phases : List Phase}
    {ms : List (Moment σ ε ρ)} {id id' : Nat}
    (h : Trail c a pauses ((phases.set id' .gone).getD id .fresh) ms) :
    Trail c a pauses (phases.getD id .fresh) ms := by
  rw [List.getD_eq_getElem?_getD, List.getElem?_set] at h
  split at h
  next =>
    split at h
    next => rw [h.eq_nil_of_gone]; exact .nil _
    next hid => rwa [List.getD_eq_default _ _ (by omega)]
  next => rwa [List.getD_eq_getElem?_getD]

/-- The polls that find a call follow its phases. A call that is gone is never found again. -/
theorem Contract.Runs.trail {c : Contract σ α ε ρ} {a : Nat → α} {pauses : Nat → Nat}
    {phases : List Phase} {w last : World σ} {schedule : List (Pool.Step σ)}
    {ms : List (Moment σ ε ρ)} (h : c.Runs a pauses phases w schedule ms last) (id : Nat) :
    Trail c (a id) (pauses id) (phases.getD id .fresh) (ms.filter (·.isPollOf id)) := by
  induction h with
  | nil => exact .nil _
  | @cons phases phases' w after last step rest answer events ms hstep hrest ih =>
    cases hstep with
    | start =>
      rw [List.filter_cons_of_neg (by simp [Moment.isPollOf])]
      rcases Nat.lt_or_ge id phases.length with hid | hid
      · rwa [List.getD_append _ _ _ _ hid] at ih
      · rw [List.getD_append_right _ _ _ _ hid] at ih
        rw [List.getD_eq_default _ _ hid]
        rcases Nat.eq_zero_or_pos (id - phases.length) with h0 | h0
        · rwa [h0] at ih
        · rwa [List.getD_eq_default _ _ h0] at ih
    | @poll id' progress phase after events hpolled =>
      -- a poll that finds nothing is not among the polls of any call
      by_cases hgone : phases.getD id' .gone = .gone
      · rw [hgone] at hpolled
        obtain ⟨rfl, rfl, -, -⟩ := hpolled.eq_of_gone
        rw [List.filter_cons_of_neg (by simp [Moment.isPollOf])]
        exact ih.of_set
      · have hpoll : Moment.isPollOf id ⟨.poll id', w, .polled progress, after, events⟩ =
            (id' == id) := Moment.isPollOf_poll (hpolled.ne_gone hgone)
        by_cases hid : id' = id
        · subst hid
          have hlt : id' < phases.length := by
            by_contra hge
            exact hgone (List.getD_eq_default _ _ (by omega))
          have hphase : phases.getD id' .gone = phases.getD id' .fresh := by
            rw [List.getD_eq_getElem _ _ hlt, List.getD_eq_getElem _ _ hlt]
          rw [hphase] at hpolled hgone
          rw [List.filter_cons_of_pos (by simpa using hpoll)]
          rw [List.getD_eq_getElem?_getD, List.getElem?_set_self hlt] at ih
          exact .cons hgone hpolled rfl ih
        · rw [List.filter_cons_of_neg (by simpa [hpoll] using hid)]
          rwa [List.getD_eq_getElem?_getD, List.getElem?_set_ne hid,
            ← List.getD_eq_getElem?_getD] at ih
    | drop id' =>
      rw [List.filter_cons_of_neg (by simp [Moment.isPollOf])]
      exact ih.of_set
    | write change =>
      rw [List.filter_cons_of_neg (by simp [Moment.isPollOf])]
      exact ih

end Covenant
