import Covenant.Proofs.Lifetimes

/-! Deferred calls of one contract on one state, interleaved in any way. The polls of one call
make up its life, which is of few forms whatever happens between them: it is kept from its
target in its first poll, or it enters the target once and the target is pending for its number
of polls until one last poll, in which its body and the conditions after it run. A poll finds
every call that has been started and since then neither been dropped nor settled. Between the
steps of a schedule nothing happens, so the state at the end is that of the writes and the bodies
in their order. -/

namespace Covenant

variable {σ α ε ρ : Type}

/-! ### The whole life of a call -/

/-- All polls of a call, from its first one on. -/
inductive Life (c : Contract σ α ε ρ) (a : α) : List (Moment σ ε ρ) → Prop
  | unpolled : Life c a []
  | blocked {m : Moment σ ε ρ} {v : Violation}
    (h : c.conditions.Walks [.precondition, .invariant] (.error v) m.after m.events)
    (hanswer : m.answer = .polled (.settled (.error v))) : Life c a [m]
  | pending {first : Moment σ ε ρ} {rest : List (Moment σ ε ρ)}
    (hevents : first.events = c.conditions.passes [.precondition, .invariant] ++ [.entered])
    (hanswer : first.answer = .polled .pending) (hrest : ∀ m ∈ rest, m.Idle) :
    Life c a (first :: rest)
  | completed {first last : Moment σ ε ρ} {idle : List (Moment σ ε ρ)}
    {result : Except Violation (Ending ε ρ)}
    (hevents : first.events = c.conditions.passes [.precondition, .invariant] ++ [.entered])
    (hanswer : first.answer = .polled .pending) (hidle : ∀ m ∈ idle, m.Idle)
    (h : Completed c a last.before result last.after last.events)
    (hresult : last.answer = .polled (.settled result)) : Life c a (first :: (idle ++ [last]))
  | completedAtOnce {m : Moment σ ε ρ} {middle : World σ}
    {result : Except Violation (Ending ε ρ)} {events : List (Event ε ρ)}
    (hevents : m.events = c.conditions.passes [.precondition, .invariant] ++ .entered :: events)
    (h : Completed c a middle result m.after events)
    (hresult : m.answer = .polled (.settled result)) : Life c a [m]

namespace Trail

variable {c : Contract σ α ε ρ} {a : α} {pauses : Nat} {ms : List (Moment σ ε ρ)}

/-- The polls of a call that has been entered. -/
theorem of_waiting {n : Nat} (h : Trail c a pauses (.waiting n) ms) :
    (∀ m ∈ ms, m.Idle) ∨ ∃ idle last result, ms = idle ++ [last] ∧ (∀ m ∈ idle, m.Idle) ∧
      Completed c a last.before result last.after last.events ∧
      last.answer = .polled (.settled result) := by
  generalize hphase : Phase.waiting n = phase at h
  induction h generalizing n with
  | nil => exact .inl (by simp)
  | @cons phase phase' progress m ms hne h hanswer hrest ih =>
    subst hphase
    obtain ⟨step, before, answer, after, events⟩ := m
    cases h with
    | pending n =>
      have hm : Moment.Idle ⟨step, before, answer, before, []⟩ := ⟨hanswer, rfl, rfl⟩
      rcases ih rfl with hall | ⟨idle, last, result, rfl, hidle, hlast⟩
      · exact .inl (List.forall_mem_cons.2 ⟨hm, hall⟩)
      · exact .inr ⟨_ :: idle, last, result, rfl, List.forall_mem_cons.2 ⟨hm, hidle⟩, hlast⟩
    | completed h =>
      rw [hrest.eq_nil_of_gone]
      exact .inr ⟨[], _, _, rfl, by simp, h, hanswer⟩

theorem life (h : Trail c a pauses .fresh ms) : Life c a ms := by
  cases h with
  | nil => exact .unpolled
  | @cons _ phase' progress m ms hne h hanswer hrest =>
    obtain ⟨step, before, answer, after, events⟩ := m
    cases h with
    | blocked hbefore h =>
      rw [hrest.eq_nil_of_gone]
      exact .blocked h hanswer
    | entered hpauses hbefore =>
      rcases hrest.of_waiting with hall | ⟨idle, last, result, rfl, hidle, hlast, hresult⟩
      · exact .pending rfl hanswer hall
      · exact .completed rfl hanswer hidle hlast hresult
    | completedAtOnce hpauses hbefore h =>
      rw [hrest.eq_nil_of_gone]
      exact .completedAtOnce rfl h hanswer

end Trail

namespace Life

variable {c : Contract σ α ε ρ} {a : α} {ms : List (Moment σ ε ρ)}

theorem flatMap_events_of_idle (h : ∀ m ∈ ms, m.Idle) :
    ms.flatMap Moment.events = [] := by
  rw [List.flatMap_eq_nil_iff]
  exact fun m hm => (h m hm).events

/-- The log of a call: nothing, a walk that was stopped, the conditions up to the entry, or all
of them and what follows. -/
theorem log (h : Life c a ms) :
    ms.flatMap Moment.events = [] ∨
    (∃ v after, c.conditions.Walks [.precondition, .invariant] (.error v) after
      (ms.flatMap Moment.events)) ∨
    ms.flatMap Moment.events = c.conditions.passes [.precondition, .invariant] ++ [.entered] ∨
    ∃ w result after events, Completed c a w result after events ∧
      ms.flatMap Moment.events =
        c.conditions.passes [.precondition, .invariant] ++ .entered :: events := by
  cases h with
  | unpolled => exact .inl rfl
  | @blocked m v h =>
    refine .inr (.inl ⟨v, m.after, ?_⟩)
    simpa using h
  | @pending first rest hevents hanswer hrest =>
    refine .inr (.inr (.inl ?_))
    rw [List.flatMap_cons, hevents, flatMap_events_of_idle hrest, List.append_nil]
  | @completed first last idle result hevents hanswer hidle h hresult =>
    refine .inr (.inr (.inr ⟨_, _, _, _, h, ?_⟩))
    simp [hevents, flatMap_events_of_idle hidle]
  | @completedAtOnce m _ _ events hevents h hresult =>
    refine .inr (.inr (.inr ⟨_, _, _, _, h, ?_⟩))
    simpa using hevents

/-- Only the first poll tests conditions before the target. -/
theorem of_mem_tail (h : Life c a ms) {m : Moment σ ε ρ} (hm : m ∈ ms.tail) :
    m.Idle ∨ ∃ w result, Completed c a w result m.after m.events ∧
      m.answer = .polled (.settled result) := by
  cases h with
  | unpolled | blocked | completedAtOnce => simp at hm
  | pending _ _ hrest => exact .inl (hrest m hm)
  | completed _ _ hidle h hresult =>
    rcases List.mem_append.1 hm with hm | hm
    · exact .inl (hidle m hm)
    · rw [List.mem_singleton.1 hm]
      exact .inr ⟨_, _, h, hresult⟩

/-- A call whose conditions before the target do not all hold settles in its first poll. -/
theorem blocked_of_head (h : Life c a ms) {m : Moment σ ε ρ} (hm : m ∈ ms.head?)
    (hpasses : ¬c.conditions.passes [.precondition, .invariant] <+: m.events) :
    .entered ∉ m.events ∧ (∀ ending, .ran ending ∉ m.events) ∧
      ∃ v, m.answer = .polled (.settled (.error v)) ∧ .tested v.kind v.index false ∈ m.events := by
  cases h with
  | unpolled => simp at hm
  | blocked h hanswer =>
    cases hm
    exact ⟨h.onlyTests.entered_notMem, h.onlyTests.ran_notMem, _, hanswer, h.exists_tested_false⟩
  | pending hevents | completed hevents | completedAtOnce hevents =>
    cases hm
    rw [hevents] at hpasses
    exact absurd (List.prefix_append _ _) hpasses

/-- The poll in which the target runs. -/
theorem of_ran_mem (h : Life c a ms) {m : Moment σ ε ρ} (hm : m ∈ ms) {ending : Ending ε ρ}
    (hran : .ran ending ∈ m.events) :
    ∃ front w result events, m.events = front ++ events ∧
      (front = [] ∨ front = c.conditions.passes [.precondition, .invariant] ++ [.entered]) ∧
      Completed c a w result m.after events ∧ m.answer = .polled (.settled result) := by
  have hentered : .ran ending ∉
      c.conditions.passes (ε := ε) (ρ := ρ) [.precondition, .invariant] ++ [.entered] := by
    simp [(c.conditions.onlyTests_passes [.precondition, .invariant]).ran_notMem]
  cases h with
  | unpolled => simp at hm
  | blocked h =>
    cases List.mem_singleton.1 hm
    exact absurd hran (h.onlyTests.ran_notMem ending)
  | pending hevents _ hrest =>
    rcases List.mem_cons.1 hm with rfl | hm
    · exact absurd (hevents ▸ hran) hentered
    · rw [(hrest m hm).events] at hran
      simp at hran
  | completed hevents _ hidle h hresult =>
    rcases List.mem_cons.1 hm with rfl | hm
    · exact absurd (hevents ▸ hran) hentered
    · rcases List.mem_append.1 hm with hm | hm
      · rw [(hidle m hm).events] at hran
        simp at hran
      · cases List.mem_singleton.1 hm
        exact ⟨[], _, _, _, rfl, .inl rfl, h, hresult⟩
  | completedAtOnce hevents h hresult =>
    cases List.mem_singleton.1 hm
    exact ⟨_, _, _, _, by rw [hevents]; simp, .inr rfl, h, hresult⟩

/-- The log of a call, the entry aside, is a part of what a direct call would do. -/
theorem direct_log_isPrefix (h : Life c a ms) :
    (direct (ms.flatMap Moment.events)).map Event.step <+: c.conditions.pipeline := by
  rcases h.log with hlog | ⟨v, after, hwalks⟩ | hlog | ⟨_, _, after, events, hcompleted, hlog⟩
  · rw [hlog]
    exact List.nil_prefix
  · rw [hwalks.onlyTests.direct]
    have haccount : Account .tryInvoke c.conditions (Entry.tryInvoke.deliver v) after _ :=
      .blocked hwalks
    exact haccount.cut.isPrefix
  · rw [hlog, direct_append, (c.conditions.onlyTests_passes _).direct, List.map_append,
      c.conditions.map_step_passes, c.conditions.pipeline_eq]
    simp [direct, Event.isEntry]
  · rw [hlog, direct_append, (c.conditions.onlyTests_passes _).direct]
    have hevents : direct (.entered :: events) = events := hcompleted.direct
    rw [hevents]
    exact hcompleted.account.cut.isPrefix

theorem countP_isEntry_le (h : Life c a ms) :
    (ms.flatMap Moment.events).countP Event.isEntry ≤ 1 := by
  have hpasses := c.conditions.onlyTests_passes (ε := ε) (ρ := ρ) [.precondition, .invariant]
  rcases h.log with hlog | ⟨v, after, hwalks⟩ | hlog | ⟨_, _, after, events, hcompleted, hlog⟩
  · simp [hlog]
  · simp [hwalks.onlyTests.countP_isEntry]
  · simp [hlog, List.countP_append, hpasses.countP_isEntry, Event.isEntry]
  · have hevents : events.countP Event.isEntry = 0 :=
      List.countP_eq_zero.2 fun e he => by simp [hcompleted.isEntry_eq_false he]
    simp [hlog, List.countP_append, List.countP_cons, hpasses.countP_isEntry, hevents,
      Event.isEntry]

theorem countP_isRun_le (h : Life c a ms) :
    (ms.flatMap Moment.events).countP Event.isRun ≤ 1 := by
  have hpasses := c.conditions.onlyTests_passes (ε := ε) (ρ := ρ) [.precondition, .invariant]
  rcases h.log with hlog | ⟨v, after, hwalks⟩ | hlog | ⟨_, _, after, events, hcompleted, hlog⟩
  · simp [hlog]
  · simp [hwalks.onlyTests.countP_isRun]
  · simp [hlog, List.countP_append, hpasses.countP_isRun, Event.isRun]
  · simp [hlog, List.countP_append, hpasses.countP_isRun, hcompleted.countP_isRun,
      Event.isRun]

/-- What stands last is what is not among the others. -/
theorem split_last {β : Type} (init : List β) {past future : List β} {last b : β}
    (h : init ++ [last] = past ++ b :: future) (hb : b ∉ init) :
    b = last ∧ future = [] := by
  rcases future.eq_nil_or_concat with rfl | ⟨front, x, rfl⟩
  · have hlast := List.append_inj_right' h rfl
    cases hlast
    exact ⟨rfl, rfl⟩
  · have hinit : init = past ++ b :: front :=
      List.append_inj_left' (h.trans (by simp : _ = (past ++ b :: front) ++ [x])) rfl
    rw [hinit] at hb
    simp at hb

/-- A call settles in its last poll, with an answer that its log accounts for. -/
theorem of_settled (h : Life c a ms) {past future : List (Moment σ ε ρ)} {m : Moment σ ε ρ}
    {result : Except Violation (Ending ε ρ)} (hms : ms = past ++ m :: future)
    (hresult : m.answer = .polled (.settled result)) :
    future = [] ∧ Account .tryInvoke c.conditions result m.after
      (direct (ms.flatMap Moment.events)) := by
  -- a poll that leaves the target pending is not the one that settles
  have hpending : ∀ {m' : Moment σ ε ρ}, m'.answer = .polled .pending → m ≠ m' := by
    rintro m' hm' rfl
    rw [hm'] at hresult
    cases hresult
  have hentered : ∀ {w : World σ} {answer : Except Violation (Ending ε ρ)} {after : World σ}
      {events : List (Event ε ρ)}, Completed c a w answer after events →
      direct (c.conditions.passes [.precondition, .invariant] ++ .entered :: events) =
        c.conditions.passes [.precondition, .invariant] ++ events := fun hcompleted => by
    rw [direct_append, (c.conditions.onlyTests_passes _).direct]
    exact congrArg _ hcompleted.direct
  cases h with
  | unpolled => simp at hms
  | @blocked m' v hwalks hanswer =>
    obtain ⟨rfl, rfl⟩ := split_last [] hms (by simp)
    rw [hanswer] at hresult
    cases hresult
    refine ⟨rfl, ?_⟩
    rw [List.flatMap_singleton, hwalks.onlyTests.direct]
    exact .blocked hwalks
  | @pending first rest hevents hanswer hrest =>
    have hm : m ∈ first :: rest := by simp [hms]
    rcases List.mem_cons.1 hm with hm | hm
    · exact absurd hm (hpending hanswer)
    · exact absurd rfl (hpending (hrest m hm).answer)
  | @completed first last idle _ hevents hanswer hidle hcompleted hlast =>
    have hm : m ∉ first :: idle := by
      intro hm
      rcases List.mem_cons.1 hm with hm | hm
      · exact hpending hanswer hm
      · exact hpending (hidle m hm).answer rfl
    obtain ⟨rfl, rfl⟩ := split_last (first :: idle) hms hm
    rw [hlast] at hresult
    cases hresult
    refine ⟨rfl, ?_⟩
    have hlog : (first :: (idle ++ [m])).flatMap Moment.events =
        c.conditions.passes [.precondition, .invariant] ++ .entered :: m.events := by
      simp [hevents, flatMap_events_of_idle hidle]
    rw [hlog, hentered hcompleted]
    exact hcompleted.account
  | @completedAtOnce m' _ _ _ hevents hcompleted hanswer =>
    obtain ⟨rfl, rfl⟩ := split_last [] hms (by simp)
    rw [hanswer] at hresult
    cases hresult
    refine ⟨rfl, ?_⟩
    rw [List.flatMap_singleton, hevents, hentered hcompleted]
    exact hcompleted.account

end Life

/-! ### The order of the effects -/

/-- A state after steps that do nothing to it but make the writes and run the bodies, in their
order. Which journal a body finds is left open: it is there to be written. -/
inductive Replayed (c : Contract σ α ε ρ) (a : Nat → α) : σ → List (Moment σ ε ρ) → σ → Prop
  | nil (s : σ) : Replayed c a s [] s
  | write {s last : σ} {m : Moment σ ε ρ} {ms : List (Moment σ ε ρ)} {change : σ → σ}
    (h : m.step = .write change) (hrest : Replayed c a (change s) ms last) :
    Replayed c a s (m :: ms) last
  | ran {s last : σ} {m : Moment σ ε ρ} {ms : List (Moment σ ε ρ)} {id : Nat}
    (journal : List Journal.Event) (h : m.step = .poll id) (hran : m.events.any Event.isRun = true)
    (hrest : Replayed c a (c.target (a id) ⟨s, journal⟩).2.state ms last) :
    Replayed c a s (m :: ms) last
  | other {s last : σ} {m : Moment σ ε ρ} {ms : List (Moment σ ε ρ)}
    (hwrite : ∀ change, m.step ≠ .write change) (hran : m.events.any Event.isRun = false)
    (hrest : Replayed c a s ms last) : Replayed c a s (m :: ms) last

theorem Completed.state {c : Contract σ α ε ρ} {a : α} {w after : World σ}
    {result : Except Violation (Ending ε ρ)} {events : List (Event ε ρ)}
    (h : Completed c a w result after events) (hpure : c.conditions.Pure) :
    after.state = (c.target a w).2.state := by
  cases h with
  | @returned r middle _ _ _ hrun hafter =>
    have hmiddle := hpure.afterCall_state middle
    rw [hafter] at hmiddle
    rw [hrun]
    exact hmiddle
  | ended hrun hstate =>
    rw [hrun]
    exact hstate

theorem Polled.state {c : Contract σ α ε ρ} {a : α} {pauses : Nat} {w after : World σ}
    {phase : Phase} {answer : Progress ε ρ × Phase} {events : List (Event ε ρ)}
    (h : Polled c a pauses w phase answer after events) (hpure : c.conditions.Pure) :
    events.any Event.isRun = false ∧ after.state = w.state ∨
      events.any Event.isRun = true ∧
        ∃ journal, after.state = (c.target a ⟨w.state, journal⟩).2.state := by
  have hstate := hpure.beforeCall_state w
  have hpasses := (c.conditions.onlyTests_passes (ε := ε) (ρ := ρ)
    [.precondition, .invariant]).any_isRun
  cases h with
  | gone | pending => exact .inl ⟨rfl, rfl⟩
  | blocked hbefore h =>
    rw [hbefore] at hstate
    exact .inl ⟨h.onlyTests.any_isRun, hstate⟩
  | entered hpauses hbefore =>
    rw [hbefore] at hstate
    exact .inl ⟨by simp [hpasses, Event.isRun], hstate⟩
  | completed h => exact .inr ⟨h.any_isRun, w.journal, h.state hpure⟩
  | @completedAtOnce _ middle _ _ hpauses hbefore h =>
    rw [hbefore] at hstate
    exact .inr ⟨by simp [h.any_isRun], middle.journal, hstate ▸ h.state hpure⟩

/-- A run is its writes and the bodies that ran, in the order of the schedule. -/
theorem Contract.Runs.replayed {c : Contract σ α ε ρ} {a : Nat → α} {pauses : Nat → Nat}
    {phases : List Phase} {w last : World σ} {schedule : List (Pool.Step σ)}
    {ms : List (Moment σ ε ρ)} (h : c.Runs a pauses phases w schedule ms last)
    (hpure : c.conditions.Pure) : Replayed c a w.state ms last.state := by
  induction h with
  | nil => exact .nil _
  | cons hstep hrest ih =>
    cases hstep with
    | start | drop => exact .other nofun rfl ih
    | write change => exact .write rfl ih
    | poll h =>
      rcases h.state hpure with ⟨hran, hafter⟩ | ⟨hran, journal, hafter⟩
      · exact .other nofun hran (hafter ▸ ih)
      · exact .ran journal rfl hran (hafter ▸ ih)

/-! ### Every schedule -/

/-- The polls that find the call with number `id`. -/
def polls (id : Nat) (ms : List (Moment σ ε ρ)) : List (Moment σ ε ρ) :=
  ms.filter (·.isPollOf id)

/-- All that a call did. -/
def callLog (id : Nat) (ms : List (Moment σ ε ρ)) : List (Event ε ρ) :=
  (polls id ms).flatMap Moment.events

/-- Steps of which each starts from the world that the one before it left. -/
def Linked : World σ → List (Moment σ ε ρ) → World σ → Prop
  | w, [], last => last = w
  | w, m :: ms, last => m.before = w ∧ Linked m.after ms last

theorem Contract.Runs.linked {c : Contract σ α ε ρ} {a : Nat → α} {pauses : Nat → Nat}
    {phases : List Phase} {w last : World σ} {schedule : List (Pool.Step σ)}
    {ms : List (Moment σ ε ρ)} (h : c.Runs a pauses phases w schedule ms last) :
    ms.map Moment.step = schedule ∧ Linked w ms last := by
  induction h with
  | nil => exact ⟨rfl, rfl⟩
  | cons hstep hrest ih => exact ⟨congrArg _ ih.1, rfl, ih.2⟩

/-- What is true of the steps of a schedule of deferred calls, and of the world after them. -/
structure Orderly (c : Contract σ α ε ρ) (a : Nat → α) (pauses : Nat → Nat)
    (schedule : List (Pool.Step σ)) (w : World σ) (ms : List (Moment σ ε ρ)) (last : World σ) :
    Prop where
  /-- The schedule is made step by step, with nothing between two steps. -/
  linked : ms.map Moment.step = schedule ∧ Linked w ms last
  start_or_drop : ∀ m ∈ ms, (m.step = .start ∨ ∃ id, m.step = .drop id) →
    m.after = m.before ∧ m.events = []
  write : ∀ m ∈ ms, ∀ change, m.step = .write change →
    m.after = ⟨change m.before.state, m.before.journal⟩ ∧ m.events = []
  /-- Calls are numbered in the order in which they are started. -/
  started : ∀ past m future, ms = past ++ m :: future → m.step = .start →
    m.answer = .started (past.countP Moment.isStart)
  /-- A poll finds the calls that were started and since then neither dropped nor settled, and
  no others. -/
  found : ∀ id past m future, ms = past ++ m :: future → m.step = .poll id →
    (m.answer ≠ .polled .gone ↔ Live id past)
  /-- A call that is not there, has settled, or was dropped does nothing when polled. -/
  gone : ∀ m ∈ ms, m.answer = .polled .gone → m.after = m.before ∧ m.events = []
  /-- The first poll of a call tests the conditions before the target. A violation settles the
  call, and if they all hold, the target is entered. -/
  first : ∀ id, ∀ m ∈ (polls id ms).head?,
    (∃ v, c.conditions.beforeCall.run m.before = (.error v, m.after) ∧
      m.answer = .polled (.settled (.error v))) ∨
    (c.conditions.beforeCall.run m.before).1 = .ok () ∧
      c.conditions.passes [.precondition, .invariant] ++ [.entered] <+: m.events
  /-- A target that has been entered is pending for its number of polls, and in the one after
  them its body runs. -/
  progress : ∀ id past m future, polls id ms = past ++ m :: future →
    .entered ∈ (past ++ [m]).flatMap Moment.events → past.length ≤ pauses id ∧
      (m.answer = .polled .pending ↔ past.length < pauses id) ∧
      ((∃ ending, .ran ending ∈ m.events) ↔ past.length = pauses id)
  /-- The body starts from the world that the poll finds, or, if it runs in the first poll, from
  the one that the conditions leave. -/
  ending : ∀ id past m future, polls id ms = past ++ m :: future → ∀ ending,
    .ran ending ∈ m.events → ending = (c.target (a id)
      (if past.length = 0 then (c.conditions.beforeCall.run m.before).2 else m.before)).1
  /-- A poll other than the first tests nothing before it runs the target. -/
  tested_first : ∀ id, ∀ m ∈ (polls id ms).tail,
    m.events = [] ∨ ∃ ending tests, m.events = .ran ending :: tests
  /-- If not all conditions before the target hold, the first poll settles the call. -/
  blocked : ∀ id, ∀ m ∈ (polls id ms).head?,
    ¬c.conditions.passes [.precondition, .invariant] <+: m.events →
    .entered ∉ m.events ∧ (∀ ending, .ran ending ∉ m.events) ∧
      ∃ v, m.answer = .polled (.settled (.error v)) ∧ .tested v.kind v.index false ∈ m.events
  /-- A later poll that leaves the target pending does nothing. -/
  idle : ∀ id, ∀ m ∈ (polls id ms).tail, m.answer = .polled .pending →
    m.after = m.before ∧ m.events = []
  /-- The poll in which the body runs goes on to the conditions after it and settles the call. -/
  completed : ∀ id, ∀ m ∈ polls id ms, ∀ ending, .ran ending ∈ m.events →
    ∃ front tests result, m.events = front ++ .ran ending :: tests ∧
      (front = [] ∨ front = c.conditions.passes [.precondition, .invariant] ++ [.entered]) ∧
      Cut false ([.run] ++ [.invariant, .postcondition].flatMap c.conditions.steps)
        (.ran ending :: tests) ∧
      m.answer = .polled (.settled result)
  /-- A call settles in its last poll, with the answer that a direct call with its log has. -/
  settled : ∀ id past m future result, polls id ms = past ++ m :: future →
    m.answer = .polled (.settled result) → future = [] ∧
      Account .tryInvoke c.conditions result m.after (direct (callLog id ms))
  once : ∀ id, (callLog id ms).countP Event.isEntry ≤ 1 ∧ (callLog id ms).countP Event.isRun ≤ 1
  /-- The entry aside, the log of a call is the beginning of the log of a direct one. -/
  log_isPrefix : ∀ id, (direct (callLog id ms)).map Event.step <+: c.conditions.pipeline
  /-- With conditions that leave the state alone, as they have to, the state at the end comes
  from the writes and the bodies that ran, in the order in which they did. -/
  replayed : c.conditions.Pure → Replayed c a w.state ms last.state

namespace Contract

variable (c : Contract σ α ε ρ) (a : Nat → α) (pauses : Nat → Nat)

theorem Runs.orderly {schedule : List (Pool.Step σ)} {w last : World σ}
    {ms : List (Moment σ ε ρ)} (h : c.Runs a pauses [] w schedule ms last) :
    Orderly c a pauses schedule w ms last := by
  have hstepped : ∀ {m}, m ∈ ms → ∃ phases phases',
      c.Stepped a pauses m.before phases m.step m.answer phases' m.after m.events := fun hm => by
    obtain ⟨past, future, hms⟩ := List.append_of_mem hm
    obtain ⟨phases, phases', -, hstepped⟩ := h.exists_tracks .nil hms
    exact ⟨phases, phases', hstepped⟩
  have hlife : ∀ id, Life c (a id) (polls id ms) := fun id => (h.trail id).life
  have hturn : ∀ {id past m future}, polls id ms = past ++ m :: future →
      Turn c (a id) (pauses id) past.length m := fun hpolls => (h.trail _).turn hpolls
  refine ⟨h.linked, ?_, ?_, ?_, ?_, ?_, ?_, ?_, ?_, ?_, ?_, ?_, ?_, ?_, fun id => ?_,
    fun id => ?_, h.replayed⟩
  · intro m hm hstep
    obtain ⟨_, _, hstepped⟩ := hstepped hm
    exact hstepped.of_start_or_drop hstep
  · intro m hm change hstep
    obtain ⟨_, _, hstepped⟩ := hstepped hm
    exact (hstep ▸ hstepped).of_write
  · intro past m future hms hstep
    obtain ⟨_, _, htracks, hstepped⟩ := h.exists_tracks .nil hms
    exact (hstep ▸ hstepped).answer_start htracks
  · intro id past m future hms hstep
    obtain ⟨_, _, htracks, hstepped⟩ := h.exists_tracks .nil hms
    exact (hstep ▸ hstepped).found_iff htracks
  · intro m hm hanswer
    obtain ⟨_, _, hstepped⟩ := hstepped hm
    exact (hanswer ▸ hstepped).of_gone
  · intro id m hm
    obtain ⟨future, hpolls⟩ := List.head?_eq_some_iff.1 hm
    have hpast : polls id ms = [] ++ m :: future := hpolls
    exact (hturn hpast).first
  · intro id past m future hpolls hentered
    refine (hturn hpolls).progress fun hpast => ?_
    simpa [List.length_eq_zero_iff.1 hpast] using hentered
  · intro id past m future hpolls ending hran
    exact (hturn hpolls).ending_eq hran
  · intro id m hm
    rcases (hlife id).of_mem_tail hm with hidle | ⟨_, _, hcompleted, _⟩
    · exact .inl hidle.events
    · obtain ⟨ending, tests, hevents, _⟩ := hcompleted.exists_ran
      exact .inr ⟨ending, tests, hevents⟩
  · intro id m hm hpasses
    exact (hlife id).blocked_of_head hm hpasses
  · intro id m hm hanswer
    rcases (hlife id).of_mem_tail hm with hidle | ⟨_, _, _, hsettled⟩
    · exact ⟨hidle.after, hidle.events⟩
    · rw [hanswer] at hsettled
      cases hsettled
  · intro id m hm ending hran
    obtain ⟨front, _, result, events, hevents, hfront, hcompleted, hanswer⟩ :=
      (hlife id).of_ran_mem hm hran
    obtain ⟨ending', tests, rfl, htests, hcut⟩ := hcompleted.exists_ran
    have hbefore : .ran ending ∉ front := by
      rcases hfront with rfl | rfl
      · simp
      · simp [(c.conditions.onlyTests_passes _).ran_notMem]
    have hending : ending = ending' := by
      simpa [hevents, hbefore, htests.ran_notMem] using hran
    subst hending
    exact ⟨front, tests, result, hevents, hfront, hcut, hanswer⟩
  · intro id past m future result hpolls hanswer
    exact (hlife id).of_settled hpolls hanswer
  · exact ⟨(hlife id).countP_isEntry_le, (hlife id).countP_isRun_le⟩
  · exact (hlife id).direct_log_isPrefix

/-- Deferred calls of one contract keep in order under every schedule. -/
theorem schedule_orderly (schedule : List (Pool.Step σ)) (w : World σ) :
    let ms := c.moments a pauses schedule .empty w
    let run := c.runSchedule a pauses schedule .empty w
    run.1 = ms.map Moment.answer ∧ Orderly c a pauses schedule w ms run.2 := by
  obtain ⟨last, hruns, hrun⟩ := c.moments_runs a pauses schedule [] w
  intro ms run
  have hrun' : run = (ms.map Moment.answer, last) := hrun
  rw [hrun']
  exact ⟨rfl, hruns.orderly⟩

end Contract

end Covenant
