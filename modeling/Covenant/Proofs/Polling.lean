import Covenant.Contract.Deferred
import Covenant.Proofs.Pipeline

/-! One poll of a deferred call whose target is pending for some polls and then runs its body
in one go. Between polls such a call is in one of few phases, and what a poll does is decided
by the phase. -/

namespace Covenant

variable {σ α ε ρ : Type}

/-- The contract deferred: entered, its target is pending for `pauses` polls, then it runs. -/
def Contract.deferred (c : Contract σ α ε ρ) (a : α) (pauses : Nat) :
    DeferredContract σ α ε ρ :=
  ⟨fun a => .after pauses (c.target a), a, c.conditions⟩

/-- The deferred contract with all its steps recorded. -/
def Contract.recordedDeferred (c : Contract σ α ε ρ) (a : α) (pauses : Nat) :
    DeferredContract (Recorded σ ε ρ) α ε ρ where
  target a := (Task.after pauses (c.recorded.target a)).precededBy
    (Act.recorded (return ()) fun _ => .entered)
  arguments := a
  conditions := c.conditions.recorded

theorem Contract.run_recordedDeferred_target (c : Contract σ α ε ρ) (a : α) (pauses : Nat) :
    ((c.recordedDeferred a pauses).target (c.recordedDeferred a pauses).arguments).run =
      (Act.recorded (return ()) fun _ => .entered) *> c.recorded.target a := by
  show ((Task.after pauses (c.recorded.target a)).precededBy _).run = _
  rw [Task.run_precededBy, Task.run_after]

/-- Where a deferred call stands: not polled yet, entered and pending for so many further
polls, or gone. -/
inductive Phase
  | fresh
  | waiting (pauses : Nat)
  | gone

namespace Phase

/-- The deferred call that stands there, when its target runs the given body. -/
def toDeferred (body : Act σ (Ending ε ρ)) : Phase → Deferred σ ε ρ
  | fresh => .fresh
  | waiting pauses => .waiting (.after pauses body)
  | gone => .gone

/-- A poll of a target that has been entered. -/
def proceed (conditions : Conditions σ) (body : Act σ (Ending ε ρ)) :
    Nat → Act σ (Progress ε ρ × Phase)
  | 0 => do
    let ending ← body
    return (.settled (← (ending.conclude conditions .deferredTargetFailed).run), gone)
  | pauses + 1 => return (.pending, waiting pauses)

/-- A poll by the phase of the call. -/
def poll (conditions : Conditions σ) (enter : Act σ Unit) (body : Act σ (Ending ε ρ))
    (pauses : Nat) : Phase → Act σ (Progress ε ρ × Phase)
  | fresh => do
    match ← conditions.beforeCall.run with
    | .error v => return (.settled (.error v), gone)
    | .ok () => do
      enter
      proceed conditions body pauses
  | waiting pauses => proceed conditions body pauses
  | gone => return (.gone, gone)

end Phase

namespace Contract

variable (c : Contract σ α ε ρ) (a : α)

theorem pollTask_after (d : DeferredContract σ α ε ρ) (pauses : Nat)
    (body : Act σ (Ending ε ρ)) :
    d.pollTask (.after pauses body) = (do
      let (progress, phase) ← Phase.proceed d.conditions body pauses
      return (progress, phase.toDeferred body)) := by
  cases pauses <;> rfl

theorem poll_deferred (pauses : Nat) (phase : Phase) :
    (c.deferred a pauses).poll (phase.toDeferred (c.target a)) = (do
      let (progress, phase) ← phase.poll c.conditions (return ()) (c.target a) pauses
      return (progress, phase.toDeferred (c.target a))) := by
  cases phase with
  | fresh =>
    simp only [Phase.toDeferred, DeferredContract.poll, Phase.poll, bind_assoc]
    refine bind_congr fun answer => ?_
    cases answer with
    | error v => rfl
    | ok => exact pollTask_after _ pauses _
  | waiting n => exact pollTask_after _ n _
  | gone => rfl

theorem poll_recordedDeferred (pauses : Nat) (phase : Phase) :
    (c.recordedDeferred a pauses).poll (phase.toDeferred (c.recorded.target a)) = (do
      let (progress, phase) ← phase.poll c.conditions.recorded
        (Act.recorded (return ()) fun _ => .entered) (c.recorded.target a) pauses
      return (progress, phase.toDeferred (c.recorded.target a))) := by
  cases phase with
  | fresh =>
    simp only [Phase.toDeferred, DeferredContract.poll, Phase.poll, bind_assoc]
    refine bind_congr fun answer => ?_
    cases answer with
    | error v => rfl
    | ok => cases pauses <;> rfl
  | waiting n => exact pollTask_after _ n _
  | gone => rfl

end Contract

/-! ### What a poll comes to -/

/-- The poll in which the target runs, from the world in which it starts: the body, and after
a returned result the conditions after the call. -/
inductive Completed (c : Contract σ α ε ρ) (a : α) (w : World σ) :
    Except Violation (Ending ε ρ) → World σ → List (Event ε ρ) → Prop
  | returned {r : ρ} {middle after : World σ} {walked : Except Violation Unit}
    {events : List (Event ε ρ)} (hrun : c.target a w = (.returned r, middle))
    (hafter : c.conditions.afterCall.run middle = (walked, after))
    (h : c.conditions.Walks [.invariant, .postcondition] walked after events) :
    Completed c a w (Entry.tryInvoke.answer (.returned r) walked) after
      (.ran (.returned r) :: events)
  | ended {ending : Ending ε ρ} {middle after : World σ}
    (hrun : c.target a w = (ending, middle)) (hstate : after.state = middle.state)
    (h : ¬(Event.ran ending).GoesOn false) : Completed c a w (.ok ending) after [.ran ending]

/-- One poll of a call, by its phase: how it answers, in which phase it leaves the call, in
which world, and the events. -/
inductive Polled (c : Contract σ α ε ρ) (a : α) (pauses : Nat) (w : World σ) :
    Phase → Progress ε ρ × Phase → World σ → List (Event ε ρ) → Prop
  | gone : Polled c a pauses w .gone (.gone, .gone) w []
  | pending (n : Nat) : Polled c a pauses w (.waiting (n + 1)) (.pending, .waiting n) w []
  | blocked {v : Violation} {after : World σ} {events : List (Event ε ρ)}
    (hbefore : c.conditions.beforeCall.run w = (.error v, after))
    (h : c.conditions.Walks [.precondition, .invariant] (.error v) after events) :
    Polled c a pauses w .fresh (.settled (.error v), .gone) after events
  | entered {n : Nat} {after : World σ} (hpauses : pauses = n + 1)
    (hbefore : c.conditions.beforeCall.run w = (.ok (), after)) :
    Polled c a pauses w .fresh (.pending, .waiting n) after
      (c.conditions.passes [.precondition, .invariant] ++ [.entered])
  | completed {result : Except Violation (Ending ε ρ)} {after : World σ}
    {events : List (Event ε ρ)} (h : Completed c a w result after events) :
    Polled c a pauses w (.waiting 0) (.settled result, .gone) after events
  | completedAtOnce {result : Except Violation (Ending ε ρ)} {middle after : World σ}
    {events : List (Event ε ρ)} (hpauses : pauses = 0)
    (hbefore : c.conditions.beforeCall.run w = (.ok (), middle))
    (h : Completed c a middle result after events) :
    Polled c a pauses w .fresh (.settled result, .gone) after
      (c.conditions.passes [.precondition, .invariant] ++ .entered :: events)

namespace Completed

variable {c : Contract σ α ε ρ} {a : α} {w after : World σ}
  {result : Except Violation (Ending ε ρ)} {events : List (Event ε ρ)}

/-- The poll in which the target runs accounts for the whole call. -/
theorem account (h : Completed c a w result after events) :
    Account .tryInvoke c.conditions result after
      (c.conditions.passes [.precondition, .invariant] ++ events) := by
  cases h with
  | @returned r _ _ _ _ _ _ h =>
    have hgo : (Event.ran (.returned r) : Event ε ρ).GoesOn Entry.tryInvoke.failuresGoOn := trivial
    exact .followed hgo h
  | ended _ _ h => exact .stopped h

theorem exists_ran (h : Completed c a w result after events) :
    ∃ ending tests, events = .ran ending :: tests ∧ OnlyTests tests ∧
      Cut false ([.run] ++ [.invariant, .postcondition].flatMap c.conditions.steps) events := by
  cases h with
  | @returned r _ _ _ tests _ _ h =>
    refine ⟨_, tests, rfl, h.onlyTests,
      (Cut.single (.ran (.returned r))).append (fun e he => ?_) h.cut⟩
    rw [List.mem_singleton.1 he]
    trivial
  | @ended ending _ _ _ _ h =>
    exact ⟨_, [], rfl, by simp [OnlyTests],
      (Cut.single (.ran ending)).stop ⟨_, List.mem_singleton_self _, h⟩⟩

theorem ending_eq (h : Completed c a w result after events) {ending : Ending ε ρ}
    (hran : .ran ending ∈ events) : ending = (c.target a w).1 := by
  cases h with
  | returned hrun _ h => simpa [h.onlyTests.ran_notMem, hrun] using hran
  | ended hrun => simpa [hrun] using hran

theorem isEntry_eq_false {e : Event ε ρ} (h : Completed c a w result after events)
    (he : e ∈ events) : e.isEntry = false := by
  cases h with
  | returned _ _ h =>
    rcases List.mem_cons.1 he with rfl | he
    · rfl
    · obtain ⟨_, _, _, rfl⟩ := h.onlyTests e he
      rfl
  | ended =>
    rw [List.mem_singleton.1 he]
    rfl

theorem countP_isRun (h : Completed c a w result after events) :
    events.countP Event.isRun = 1 := by
  cases h with
  | returned _ _ h => simp [List.countP_cons, h.onlyTests.countP_isRun, Event.isRun]
  | ended => rfl

theorem any_isRun (h : Completed c a w result after events) :
    events.any Event.isRun = true := by
  cases h <;> rfl

end Completed

theorem Completed.direct {c : Contract σ α ε ρ} {a : α} {w after : World σ}
    {result : Except Violation (Ending ε ρ)} {events : List (Event ε ρ)}
    (h : Completed c a w result after events) : direct events = events :=
  List.filter_eq_self.2 fun e he => by simp [h.isEntry_eq_false he]

namespace Contract

variable (c : Contract σ α ε ρ) (a : α)

theorem conclude_records (w : World σ) :
    Records w
      (c.recorded.target a >>= fun ending =>
        (ending.conclude c.recorded.conditions .deferredTargetFailed).run)
      (c.target a >>= fun ending => (ending.conclude c.conditions .deferredTargetFailed).run)
      (Completed c a w) := by
  refine (c.target_records a w).bind ?_
  rintro ending middle _ ⟨hrun, rfl⟩
  cases ending with
  | returned r =>
    refine (c.conditions.afterCall_records middle).with_run.guarded_bind ?_ ?_
    · rintro v after events ⟨hafter, h⟩
      exact .returned hrun hafter h
    · rintro _ after events ⟨hafter, h⟩
      refine .pure _ ?_
      rw [List.append_nil]
      exact .returned hrun hafter h
  | failed e =>
    refine (Records.note (P := fun _ last events => last.state = middle.state ∧ events = [])
      _ ⟨rfl, rfl⟩).lift_bind ?_
    rintro _ last _ ⟨hstate, rfl⟩
    exact .pure _ (.ended hrun hstate Bool.false_ne_true)
  | panicked message => exact .pure _ (.ended hrun rfl id)

theorem proceed_records (pauses n : Nat) (w : World σ) :
    Records w (Phase.proceed c.conditions.recorded (c.recorded.target a) n)
      (Phase.proceed c.conditions (c.target a) n) (Polled c a pauses w (.waiting n)) := by
  cases n with
  | zero =>
    have h := (c.conclude_records a w).bind (R := Polled c a pauses w (.waiting 0))
      (f := fun result => pure (.settled result, .gone))
      (g := fun result => pure (.settled result, .gone))
      fun result after events h => .pure _ (by rw [List.append_nil]; exact .completed h)
    rwa [bind_assoc, bind_assoc] at h
  | succ n => exact .pure _ (.pending n)

theorem poll_records (pauses : Nat) (phase : Phase) (w : World σ) :
    Records w
      (phase.poll c.conditions.recorded (Act.recorded (return ()) fun _ => .entered)
        (c.recorded.target a) pauses)
      (phase.poll c.conditions (return ()) (c.target a) pauses)
      (Polled c a pauses w phase) := by
  cases phase with
  | fresh =>
    refine (c.conditions.beforeCall_records w).with_run.bind ?_
    rintro answer middle events ⟨hbefore, h⟩
    cases answer with
    | error v => exact .pure _ (by rw [List.append_nil]; exact .blocked hbefore h)
    | ok =>
      cases h.eq_passes
      refine (Records.recorded (P := fun _ after events => after = middle ∧ events = [.entered])
        _ _ ⟨rfl, rfl⟩).bind ?_
      rintro _ _ _ ⟨rfl, rfl⟩
      refine (c.proceed_records a pauses pauses _).imp fun answer after more hpolled => ?_
      generalize hphase : Phase.waiting pauses = phase at hpolled
      cases hpolled with
      | pending n =>
        cases hphase
        exact .entered rfl hbefore
      | completed h =>
        cases hphase
        exact .completedAtOnce rfl hbefore h
      | _ => cases hphase
  | waiting n => exact c.proceed_records a pauses n w
  | gone => exact .pure _ .gone

end Contract

end Covenant
