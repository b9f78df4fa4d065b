import Covenant.Proofs.Schedule
import Mathlib.Data.List.Basic

/-! The lifetime of a deferred call. The call is there to be polled from its start until it is
dropped or has settled, and in which phase it stands then is decided by how often it has been
polled: the first poll makes everything up to the entry into the target, and the target is
pending for its number of polls before its body runs. -/

namespace Covenant

variable {σ α ε ρ : Type}

/-! ### From the start to the end -/

namespace Moment

def isStart (m : Moment σ ε ρ) : Bool :=
  match m.step with
  | .start => true
  | _ => false

/-- A step with which the call with number `id` is over. -/
def Ends (id : Nat) (m : Moment σ ε ρ) : Prop :=
  m.step = .drop id ∨ m.step = .poll id ∧ ∃ result, m.answer = .polled (.settled result)

end Moment

/-- The call with number `id` has been started and since then neither been dropped nor
settled. -/
def Live (id : Nat) (past : List (Moment σ ε ρ)) : Prop :=
  ∃ before m after, past = before ++ m :: after ∧ m.answer = .started id ∧
    ∀ m' ∈ after, ¬m'.Ends id

theorem not_live_nil (id : Nat) : ¬Live id ([] : List (Moment σ ε ρ)) := by
  rintro ⟨before, m, after, hpast, -⟩
  simp at hpast

theorem live_concat_iff {id : Nat} {past : List (Moment σ ε ρ)} {m : Moment σ ε ρ} :
    Live id (past ++ [m]) ↔ m.answer = .started id ∨ Live id past ∧ ¬m.Ends id := by
  constructor
  · rintro ⟨before, start, after, hpast, hstart, hafter⟩
    rcases after.eq_nil_or_concat' with rfl | ⟨front, last, rfl⟩
    · cases List.append_inj_right' hpast rfl
      exact .inl hstart
    · have hpast : past ++ [m] = (before ++ start :: front) ++ [last] := by simpa using hpast
      obtain ⟨rfl, hlast⟩ := List.append_inj' hpast rfl
      cases hlast
      rw [List.forall_mem_append, List.forall_mem_singleton] at hafter
      exact .inr ⟨⟨before, start, front, rfl, hstart, hafter.1⟩, hafter.2⟩
  · rintro (hstart | ⟨⟨before, start, after, rfl, hstart, hafter⟩, hm⟩)
    · exact ⟨past, m, [], rfl, hstart, by simp⟩
    · refine ⟨before, start, after ++ [m], by simp, hstart, ?_⟩
      rw [List.forall_mem_append, List.forall_mem_singleton]
      exact ⟨hafter, hm⟩

/-- The phases of a pool agree with the steps made so far: there are as many as calls were
started, and those that are not gone are live. -/
structure Tracks (phases : List Phase) (past : List (Moment σ ε ρ)) : Prop where
  length : phases.length = past.countP Moment.isStart
  ne_gone_iff : ∀ id, phases.getD id .gone ≠ .gone ↔ Live id past

theorem getD_concat_fresh (phases : List Phase) (id : Nat) :
    (phases ++ [Phase.fresh]).getD id .gone =
      if phases.length = id then .fresh else phases.getD id .gone := by
  rcases Nat.lt_trichotomy id phases.length with hid | rfl | hid
  · rw [List.getD_append _ _ _ _ hid, if_neg (by omega)]
  · simp
  · rw [if_neg (by omega), List.getD_eq_default _ _ (by simp; omega),
      List.getD_eq_default _ _ (by omega)]

/-- What is put in a place that is not there is lost, and found to be gone. -/
theorem getD_set_phase {phases : List Phase} {phase : Phase} {id : Nat} (id' : Nat)
    (h : phases.getD id .gone = .gone → phase = .gone) :
    (phases.set id phase).getD id' .gone =
      if id = id' then phase else phases.getD id' .gone := by
  rw [List.getD_eq_getElem?_getD, List.getElem?_set]
  split
  next hid =>
    split
    next => rfl
    next hlt => exact (h (List.getD_eq_default _ _ (by omega))).symm
  next => rw [List.getD_eq_getElem?_getD]

theorem Polled.phase_ne_gone_iff {c : Contract σ α ε ρ} {a : α} {pauses : Nat} {w after : World σ}
    {progress : Progress ε ρ} {phase phase' : Phase} {events : List (Event ε ρ)}
    (h : Polled c a pauses w phase (progress, phase') after events) :
    phase' ≠ .gone ↔ phase ≠ .gone ∧ ∀ result, progress ≠ .settled result := by
  cases h <;> simp

namespace Tracks

variable {c : Contract σ α ε ρ} {a : Nat → α} {pauses : Nat → Nat}

theorem nil : Tracks [] ([] : List (Moment σ ε ρ)) :=
  ⟨rfl, fun id => iff_of_false (by simp) (not_live_nil id)⟩

/-- One step keeps the phases in agreement with what was done. -/
theorem concat {phases phases' : List Phase} {past : List (Moment σ ε ρ)} {w after : World σ}
    {step : Pool.Step σ} {answer : Pool.Answer ε ρ} {events : List (Event ε ρ)}
    (h : Tracks phases past)
    (hstep : c.Stepped a pauses w phases step answer phases' after events) :
    Tracks phases' (past ++ [⟨step, w, answer, after, events⟩]) := by
  cases hstep with
  | start =>
    refine ⟨by simp [h.length, Moment.isStart], fun id => ?_⟩
    rw [live_concat_iff, ← h.ne_gone_iff, getD_concat_fresh]
    by_cases hid : phases.length = id <;> simp [Moment.Ends, hid]
  | @poll id progress phase _ _ hpolled =>
    refine ⟨by simp [h.length, Moment.isStart], fun id' => ?_⟩
    have hgone (hid : phases.getD id .gone = .gone) : phase = .gone := by
      rw [hid] at hpolled
      exact hpolled.eq_of_gone.2.1
    rw [live_concat_iff, ← h.ne_gone_iff, getD_set_phase id' hgone]
    by_cases hid : id = id'
    · subst hid
      simp [hpolled.phase_ne_gone_iff, Moment.Ends]
    · simp [Moment.Ends, hid]
  | drop id =>
    refine ⟨by simp [h.length, Moment.isStart], fun id' => ?_⟩
    rw [live_concat_iff, ← h.ne_gone_iff, getD_set_phase id' fun _ => rfl]
    by_cases hid : id = id' <;> simp [Moment.Ends, hid]
  | write change =>
    refine ⟨by simp [h.length, Moment.isStart], fun id => ?_⟩
    rw [live_concat_iff, ← h.ne_gone_iff]
    simp [Moment.Ends]

end Tracks

/-- Each step of a run is made from phases that agree with the steps before it. -/
theorem Contract.Runs.exists_tracks {c : Contract σ α ε ρ} {a : Nat → α} {pauses : Nat → Nat}
    {phases : List Phase} {w last : World σ} {schedule : List (Pool.Step σ)}
    {ms before past future : List (Moment σ ε ρ)} {m : Moment σ ε ρ}
    (h : c.Runs a pauses phases w schedule ms last) (htracks : Tracks phases before)
    (hms : ms = past ++ m :: future) : ∃ phases phases', Tracks phases (before ++ past) ∧
      c.Stepped a pauses m.before phases m.step m.answer phases' m.after m.events := by
  induction h generalizing before past with
  | nil => simp at hms
  | cons hstep hrest ih =>
    cases past with
    | nil =>
      cases hms
      exact ⟨_, _, by simpa using htracks, hstep⟩
    | cons first past =>
      cases hms
      obtain ⟨phases, phases', hphases, hstepped⟩ := ih (htracks.concat hstep) rfl
      exact ⟨phases, phases', by simpa using hphases, hstepped⟩

namespace Contract.Stepped

variable {c : Contract σ α ε ρ} {a : Nat → α} {pauses : Nat → Nat} {w after : World σ}
  {phases phases' : List Phase} {past : List (Moment σ ε ρ)} {answer : Pool.Answer ε ρ}
  {events : List (Event ε ρ)}

/-- Calls are numbered in the order in which they are started. -/
theorem answer_start (h : c.Stepped a pauses w phases .start answer phases' after events)
    (htracks : Tracks phases past) : answer = .started (past.countP Moment.isStart) := by
  cases h
  rw [htracks.length]

/-- A poll finds a call exactly if it is live. -/
theorem found_iff {id : Nat}
    (h : c.Stepped a pauses w phases (.poll id) answer phases' after events)
    (htracks : Tracks phases past) : answer ≠ .polled .gone ↔ Live id past := by
  rw [← htracks.ne_gone_iff]
  cases h with
  | poll hpolled =>
    refine ⟨fun hanswer hgone => ?_, fun hphase hanswer => ?_⟩
    · rw [hgone] at hpolled
      exact hanswer (congrArg _ hpolled.eq_of_gone.1)
    · cases hanswer
      exact hpolled.ne_gone hphase rfl

end Contract.Stepped

/-! ### The polls of a call, counted -/

/-- The poll of a call that comes after `k` others. -/
inductive Turn (c : Contract σ α ε ρ) (a : α) (pauses : Nat) : Nat → Moment σ ε ρ → Prop
  | blocked {m : Moment σ ε ρ} {v : Violation}
    (hbefore : c.conditions.beforeCall.run m.before = (.error v, m.after))
    (h : c.conditions.Walks [.precondition, .invariant] (.error v) m.after m.events)
    (hanswer : m.answer = .polled (.settled (.error v))) : Turn c a pauses 0 m
  | entered {m : Moment σ ε ρ} (hpauses : 0 < pauses)
    (hbefore : c.conditions.beforeCall.run m.before = (.ok (), m.after))
    (hevents : m.events = c.conditions.passes [.precondition, .invariant] ++ [.entered])
    (hanswer : m.answer = .polled .pending) : Turn c a pauses 0 m
  | pending {k : Nat} {m : Moment σ ε ρ} (hfirst : 0 < k) (hpauses : k < pauses) (h : m.Idle) :
    Turn c a pauses k m
  | completed {m : Moment σ ε ρ} {result : Except Violation (Ending ε ρ)} (hpauses : 0 < pauses)
    (h : Completed c a m.before result m.after m.events)
    (hanswer : m.answer = .polled (.settled result)) : Turn c a pauses pauses m
  | completedAtOnce {m : Moment σ ε ρ} {middle : World σ}
    {result : Except Violation (Ending ε ρ)} {events : List (Event ε ρ)} (hpauses : pauses = 0)
    (hbefore : c.conditions.beforeCall.run m.before = (.ok (), middle))
    (hevents : m.events = c.conditions.passes [.precondition, .invariant] ++ .entered :: events)
    (h : Completed c a middle result m.after events)
    (hanswer : m.answer = .polled (.settled result)) : Turn c a pauses 0 m

namespace Trail

variable {c : Contract σ α ε ρ} {a : α} {pauses : Nat} {ms past future : List (Moment σ ε ρ)}
  {m : Moment σ ε ρ}

/-- With each poll of a call that has been entered, one less is to come. -/
theorem turn_of_waiting {n k : Nat} (h : Trail c a pauses (.waiting n) ms) (hfirst : 0 < k)
    (hpauses : k + n = pauses) (hms : ms = past ++ m :: future) :
    Turn c a pauses (k + past.length) m := by
  induction past generalizing n k ms with
  | nil =>
    subst hms
    cases h with
    | cons hphase hpolled hanswer hrest =>
      obtain ⟨step, before, answer, after, events⟩ := m
      cases hpolled with
      | pending n =>
        rw [List.length_nil, Nat.add_zero]
        exact .pending hfirst (by omega) ⟨hanswer, rfl, rfl⟩
      | completed h =>
        subst hpauses
        exact .completed (by omega) h hanswer
  | cons first past ih =>
    subst hms
    cases h with
    | cons hphase hpolled hanswer hrest =>
      obtain ⟨step, before, answer, after, events⟩ := first
      cases hpolled with
      | pending n =>
        have hturn := ih hrest (Nat.succ_pos k) (by omega) rfl
        rwa [List.length_cons, ← Nat.succ_add_eq_add_succ]
      | completed => exact absurd hrest.eq_nil_of_gone (by simp)

theorem turn (h : Trail c a pauses .fresh ms) (hms : ms = past ++ m :: future) :
    Turn c a pauses past.length m := by
  subst hms
  cases past with
  | nil =>
    cases h with
    | cons hphase hpolled hanswer hrest =>
      obtain ⟨step, before, answer, after, events⟩ := m
      cases hpolled with
      | blocked hbefore h => exact .blocked hbefore h hanswer
      | entered hpauses hbefore => exact .entered (by omega) hbefore rfl hanswer
      | completedAtOnce hpauses hbefore h => exact .completedAtOnce hpauses hbefore rfl h hanswer
  | cons first past =>
    cases h with
    | cons hphase hpolled hanswer hrest =>
      obtain ⟨step, before, answer, after, events⟩ := first
      cases hpolled with
      | entered hpauses hbefore =>
        rw [List.length_cons, Nat.add_comm]
        exact hrest.turn_of_waiting Nat.one_pos (by omega) rfl
      | blocked | completedAtOnce => exact absurd hrest.eq_nil_of_gone (by simp)

end Trail

namespace Turn

variable {c : Contract σ α ε ρ} {a : α} {pauses k : Nat} {m : Moment σ ε ρ}

/-- The first poll tests the conditions before the target; a violation settles the call, and
otherwise the target is entered. -/
theorem first (h : Turn c a pauses 0 m) :
    (∃ v, c.conditions.beforeCall.run m.before = (.error v, m.after) ∧
      m.answer = .polled (.settled (.error v))) ∨
    (c.conditions.beforeCall.run m.before).1 = .ok () ∧
      c.conditions.passes [.precondition, .invariant] ++ [.entered] <+: m.events := by
  generalize hk : 0 = k at h
  cases h with
  | blocked hbefore _ hanswer => exact .inl ⟨_, hbefore, hanswer⟩
  | entered _ hbefore hevents =>
    refine .inr ⟨by rw [hbefore], [], ?_⟩
    rw [hevents, List.append_nil]
  | completedAtOnce _ hbefore hevents =>
    refine .inr ⟨by rw [hbefore], ?_⟩
    rw [hevents]
    exact (List.prefix_append_right_inj _).2 ⟨_, rfl⟩
  | pending hfirst | completed hfirst => omega

/-- A target that has been entered is pending for its polls, and in the one after them its body
runs. -/
theorem progress (h : Turn c a pauses k m) (hentered : k = 0 → .entered ∈ m.events) :
    k ≤ pauses ∧ (m.answer = .polled .pending ↔ k < pauses) ∧
      ((∃ ending, .ran ending ∈ m.events) ↔ k = pauses) := by
  have hpasses := c.conditions.onlyTests_passes (ε := ε) (ρ := ρ) [.precondition, .invariant]
  cases h with
  | blocked _ h => exact absurd (hentered rfl) h.onlyTests.entered_notMem
  | entered hpauses _ hevents hanswer =>
    refine ⟨by omega, iff_of_true hanswer hpauses, iff_of_false ?_ (by omega)⟩
    simp [hevents, hpasses.ran_notMem]
  | pending _ hpauses h =>
    refine ⟨by omega, iff_of_true h.answer hpauses, iff_of_false ?_ (by omega)⟩
    simp [h.events]
  | completed _ h hanswer =>
    obtain ⟨ending, tests, hevents, -⟩ := h.exists_ran
    exact ⟨Nat.le_refl _, iff_of_false (by simp [hanswer]) (by omega),
      iff_of_true ⟨ending, by simp [hevents]⟩ rfl⟩
  | completedAtOnce hpauses _ hevents h hanswer =>
    obtain ⟨ending, tests, rfl, -⟩ := h.exists_ran
    exact ⟨by omega, iff_of_false (by simp [hanswer]) (by omega),
      iff_of_true ⟨ending, by simp [hevents]⟩ hpauses.symm⟩

/-- The body starts from the world that the poll finds, or, if it runs in the first poll, from
the one that the conditions leave. -/
theorem ending_eq (h : Turn c a pauses k m) {ending : Ending ε ρ}
    (hran : .ran ending ∈ m.events) :
    ending = (c.target a
      (if k = 0 then (c.conditions.beforeCall.run m.before).2 else m.before)).1 := by
  have hpasses := c.conditions.onlyTests_passes (ε := ε) (ρ := ρ) [.precondition, .invariant]
  cases h with
  | blocked _ h => exact absurd hran (h.onlyTests.ran_notMem ending)
  | entered _ _ hevents => simp [hevents, hpasses.ran_notMem] at hran
  | pending _ _ h => simp [h.events] at hran
  | completed hpauses h =>
    rw [if_neg (by omega)]
    exact h.ending_eq hran
  | completedAtOnce _ hbefore hevents h =>
    rw [if_pos rfl, hbefore]
    exact h.ending_eq (by simpa [hevents, hpasses.ran_notMem] using hran)

end Turn

end Covenant
