import Covenant.Proofs.GuardedCall

/-! Deferred calls beside direct ones. A deferred call that is polled until it settles, with
nothing between the polls, comes to what the direct call of the same target without its pauses
comes to. Only the note on a failure of the target differs between the two. Nothing that a
contract runs reads the journal, so the note has no effect on later calls, and any number of
deferred calls, one after the other, come to what as many direct calls do. -/

namespace Covenant

variable {σ α β γ ε ρ : Type}

/-! ### Polling until the call settles -/

/-- The contract whose calls run the target without its pauses. -/
def DeferredContract.direct (d : DeferredContract σ α ε ρ) : Contract σ α ε ρ :=
  ⟨fun a => (d.target a).run, d.conditions⟩

/-- A call that is polled until it settles, with nothing between the polls: its answer and the
world after the last poll. -/
inductive Settles (d : DeferredContract σ α ε ρ) :
    Deferred σ ε ρ → World σ → Except Violation (Ending ε ρ) → World σ → Prop
  | last {call call' : Deferred σ ε ρ} {w after : World σ} {answer : Except Violation (Ending ε ρ)}
    (h : d.poll call w = ((.settled answer, call'), after)) : Settles d call w answer after
  | pending {call call' : Deferred σ ε ρ} {w middle after : World σ}
    {answer : Except Violation (Ending ε ρ)} (h : d.poll call w = ((.pending, call'), middle))
    (hrest : Settles d call' middle answer after) : Settles d call w answer after

namespace Settles

variable {d : DeferredContract σ α ε ρ} {call call' : Deferred σ ε ρ} {w middle after : World σ}
  {answer result : Except Violation (Ending ε ρ)}

theorem iff_of_settled (h : d.poll call w = ((.settled result, call'), middle)) :
    Settles d call w answer after ↔ (result, middle) = (answer, after) := by
  constructor
  · intro hsettles
    cases hsettles with
    | last h' =>
      rw [h] at h'
      cases h'
      rfl
    | pending h' =>
      rw [h] at h'
      cases h'
  · rintro ⟨⟩
    exact .last h

theorem iff_of_pending (h : d.poll call w = ((.pending, call'), middle)) :
    Settles d call w answer after ↔ Settles d call' middle answer after := by
  constructor
  · intro hsettles
    cases hsettles with
    | last h' =>
      rw [h] at h'
      cases h'
    | pending h' hrest =>
      rw [h] at h'
      cases h'
      exact hrest
  · exact .pending h

/-- Only the next poll matters. -/
theorem of_poll_eq {w' : World σ} (hpoll : d.poll call w = d.poll call' w')
    (h : Settles d call' w' answer after) : Settles d call w answer after := by
  cases h with
  | last h => exact .last (hpoll.trans h)
  | pending h hrest => exact .pending (hpoll.trans h) hrest

end Settles

namespace DeferredContract

/-- What follows when the target of a deferred call has been entered. -/
def proceed (d : DeferredContract σ α ε ρ) (task : Task σ ε ρ) :
    Act σ (Except Violation (Ending ε ρ)) := do
  ((← task.run).conclude d.conditions .deferredTargetFailed).run

variable {d : DeferredContract σ α ε ρ} {w after : World σ}
  {answer : Except Violation (Ending ε ρ)}

theorem settles_waiting_iff (task : Task σ ε ρ) :
    Settles d (.waiting task) w answer after ↔ d.proceed task w = (answer, after) := by
  induction task generalizing w with
  | finish run =>
    have hpoll : d.poll (.waiting (.finish run)) w =
        ((.settled (d.proceed (.finish run) w).1, .gone), (d.proceed (.finish run) w).2) := rfl
    exact Settles.iff_of_settled hpoll
  | pause work rest ih =>
    have hpoll : d.poll (.waiting (.pause work rest)) w =
        ((.pending, .waiting rest), (work w).2) := rfl
    rw [Settles.iff_of_pending hpoll, ih]
    rfl

theorem settles_fresh_iff :
    Settles d .fresh w answer after ↔ d.await.run w = (answer, after) := by
  rw [await, ExceptT.run_bind, Act.run_bind]
  rcases hbefore : d.conditions.beforeCall.run w with ⟨violation | _, middle⟩
  · have hpoll : d.poll .fresh w = ((.settled (.error violation), .gone), middle) := by
      rw [poll, Act.run_bind, hbefore]
      rfl
    rw [Settles.iff_of_settled hpoll]
    rfl
  · -- the first poll is that of a call whose target has been entered
    have hpoll : d.poll .fresh w = d.poll (.waiting (d.target d.arguments)) middle := by
      rw [poll, Act.run_bind, hbefore]
      rfl
    have hsettles : Settles d .fresh w answer after ↔
        Settles d (.waiting (d.target d.arguments)) middle answer after :=
      ⟨.of_poll_eq hpoll.symm, .of_poll_eq hpoll⟩
    rw [hsettles, settles_waiting_iff]
    rfl

end DeferredContract

/-! ### The same but for the journal -/

/-- Two runs of acts that end with the same answer in the same state. -/
def Alike (x y : β × World σ) : Prop := x.1 = y.1 ∧ x.2.state = y.2.state

/-- Acts that do the same in every state, whatever has been noted before. -/
def Act.Alike (x y : Act σ β) : Prop :=
  ∀ w w' : World σ, w.state = w'.state → Covenant.Alike (x w) (y w')

/-- An act that does not read the journal. Conditions and targets only ever write to it. -/
def Act.IgnoresJournal (act : Act σ β) : Prop := act.Alike act

/-- A contract whose conditions and target, called with these arguments, do not read the
journal. -/
structure Contract.IgnoresJournal (c : Contract σ α ε ρ) (a : α) : Prop where
  target : (c.target a).IgnoresJournal
  conditions : ∀ kind, ∀ condition ∈ c.conditions.get kind, condition.holds.IgnoresJournal

namespace Act.Alike

theorem pure (b : β) : Act.Alike (Pure.pure b : Act σ β) (Pure.pure b) := fun _ _ h => ⟨rfl, h⟩

theorem note (e e' : Journal.Event) : Act.Alike (Act.note e : Act σ Unit) (Act.note e') :=
  fun _ _ h => ⟨rfl, h⟩

theorem bind {x y : Act σ β} {f g : β → Act σ γ} (h : x.Alike y) (hf : ∀ b, (f b).Alike (g b)) :
    (x >>= f).Alike (y >>= g) := by
  intro w w' hw
  obtain ⟨hanswer, hstate⟩ := h w w' hw
  rw [Act.run_bind, Act.run_bind, hanswer]
  exact hf _ _ _ hstate

theorem guarded_bind {x y : Guarded σ β} {f g : β → Guarded σ γ} (h : x.run.Alike y.run)
    (hf : ∀ b, (f b).run.Alike (g b).run) : (x >>= f).run.Alike (y >>= g).run := by
  rw [ExceptT.run_bind, ExceptT.run_bind]
  apply h.bind
  intro b
  cases b with
  | error v => exact .pure _
  | ok b => exact hf b

theorem lift_bind {x y : Act σ β} {f g : β → Guarded σ γ} (h : x.Alike y)
    (hf : ∀ b, (f b).run.Alike (g b).run) :
    (liftM x >>= f : Guarded σ γ).run.Alike (liftM y >>= g : Guarded σ γ).run :=
  h.bind hf

end Act.Alike

theorem Act.onState_ignoresJournal (step : σ → β × σ) : (Act.onState step).IgnoresJournal := by
  intro w w' hw
  rw [Act.onState_run, Act.onState_run, hw]
  exact ⟨rfl, rfl⟩

/-- The contract of a manifest has conditions and a target that note and do not read. -/
theorem Compiled.contract_ignoresJournal (c : Compiled) (arguments : List Value) :
    c.contract.IgnoresJournal arguments where
  target := Act.onState_ignoresJournal _
  conditions kind condition hmem := by
    have hget : c.contract.conditions.get kind = _ := c.get_conditions kind
    rw [hget] at hmem
    obtain ⟨t, -, rfl⟩ := List.mem_map.1 hmem
    intro w w' hw
    obtain ⟨hholds, hstate⟩ := t.holds_toCondition w
    obtain ⟨hholds', hstate'⟩ := t.holds_toCondition w'
    exact ⟨by rw [hholds, hholds', hw], by rw [hstate, hstate', hw]⟩

theorem Condition.checkFrom_alike {kind : Kind} {conditions : List (Condition σ)}
    (h : ∀ condition ∈ conditions, condition.holds.IgnoresJournal) (start : Nat) :
    (checkFrom kind start conditions).run.IgnoresJournal := by
  induction conditions generalizing start with
  | nil => exact .pure _
  | cons c rest ih =>
    obtain ⟨hc, hrest⟩ := List.forall_mem_cons.1 h
    rw [run_checkFrom_cons]
    apply hc.bind
    intro held
    cases held with
    | true => exact ih hrest (start + 1)
    | false => exact (Act.Alike.note _ _).bind fun _ => .pure _

theorem Conditions.check_alike {c : Conditions σ}
    (h : ∀ kind, ∀ condition ∈ c.get kind, condition.holds.IgnoresJournal) (kind : Kind) :
    (c.check kind).run.IgnoresJournal :=
  .lift_bind (.note _ _) fun _ => Condition.checkFrom_alike (h kind) 0

/-- After a target has ended only the note on its failure can differ. -/
theorem Ending.conclude_alike (conditions : Conditions σ) (e e' : Journal.Event)
    (ending : Ending ε ρ) (w : World σ) :
    Covenant.Alike ((ending.conclude conditions e).run w)
      ((ending.conclude conditions e').run w) := by
  cases ending <;> exact ⟨rfl, rfl⟩

theorem Contract.IgnoresJournal.tryInvoke {c : Contract σ α ε ρ} {a : α}
    (h : c.IgnoresJournal a) : (c.tryInvoke a).run.IgnoresJournal := by
  have hcheck := Conditions.check_alike h.conditions
  unfold Contract.tryInvoke Conditions.beforeCall
  refine .guarded_bind (.guarded_bind (hcheck _) fun _ => hcheck _) fun _ => ?_
  refine .lift_bind h.target fun ending => ?_
  cases ending with
  | returned r =>
    exact .guarded_bind (.guarded_bind (hcheck _) fun _ => hcheck _) fun _ => .pure _
  | failed e => exact .lift_bind (.note _ _) fun _ => .pure _
  | panicked message => exact .pure _

/-- After the same beginning, from the same world. -/
theorem Alike.after (x : Guarded σ β) {f g : β → Guarded σ γ}
    (h : ∀ b w, Alike ((f b).run w) ((g b).run w)) (w : World σ) :
    Alike ((x >>= f).run w) ((x >>= g).run w) := by
  rw [ExceptT.run_bind, ExceptT.run_bind, Act.run_bind, Act.run_bind]
  rcases x.run w with ⟨_ | b, middle⟩
  · exact ⟨rfl, rfl⟩
  · exact h b middle

/-- From one and the same world, a deferred call comes to what the direct one does, whatever
its conditions and its target read. -/
theorem DeferredContract.await_alike (d : DeferredContract σ α ε ρ) (w : World σ) :
    Alike (d.await.run w) ((d.direct.tryInvoke d.arguments).run w) :=
  .after d.conditions.beforeCall (fun _ => .after (liftM (d.target d.arguments).run)
    (Ending.conclude_alike d.conditions _ _)) w

/-! ### The order of tests and runs -/

/-- Does an act on the state alone and adds no event. -/
def Act.unrecorded (act : Act σ β) : Act (Recorded σ ε ρ) β := fun w =>
  let (b, after) := act w.plain
  (b, after.with w.state.events)

/-- A task whose end is recorded. -/
def Task.recorded : Task σ ε ρ → Task (Recorded σ ε ρ) ε ρ
  | finish run => .finish (run.recorded .ran)
  | pause work rest => .pause work.unrecorded rest.recorded

theorem Task.run_recorded (task : Task σ ε ρ) :
    task.recorded.run = task.run.recorded .ran := by
  induction task with
  | finish run => rfl
  | pause work rest ih =>
    funext w
    show rest.recorded.run (work.unrecorded w).2 = _
    rw [ih]
    rfl

/-- The deferred contract with the tests of its conditions and the end of its target recorded. -/
def DeferredContract.recorded (d : DeferredContract σ α ε ρ) :
    DeferredContract (Recorded σ ε ρ) α ε ρ :=
  ⟨fun a => (d.target a).recorded, d.arguments, d.conditions.recorded⟩

theorem DeferredContract.direct_recorded (d : DeferredContract σ α ε ρ) :
    d.recorded.direct = d.direct.recorded := by
  unfold direct recorded Contract.recorded
  congr
  funext a
  exact (d.target a).run_recorded

theorem Act.IgnoresJournal.recorded {act : Act σ β} (h : act.IgnoresJournal)
    (event : β → Event ε ρ) : (act.recorded event).IgnoresJournal := by
  intro w w' hw
  obtain ⟨hanswer, hstate⟩ := h w.plain w'.plain (congrArg Recorded.state hw)
  refine ⟨hanswer, ?_⟩
  show (⟨_, w.state.events ++ [event (act w.plain).1]⟩ : Recorded σ ε ρ) =
    ⟨_, w'.state.events ++ [event (act w'.plain).1]⟩
  rw [hanswer, hw]
  exact congrArg (Recorded.mk · _) hstate

theorem Contract.IgnoresJournal.recorded {c : Contract σ α ε ρ} {a : α}
    (h : c.IgnoresJournal a) : c.recorded.IgnoresJournal a where
  target := h.target.recorded .ran
  conditions kind condition hmem := by
    have hget : c.recorded.conditions.get kind = _ := c.conditions.get_recorded kind
    rw [hget, List.mem_mapIdx] at hmem
    obtain ⟨i, hi, rfl⟩ := hmem
    rw [Condition.holds_recorded]
    exact (h.conditions kind _ (List.getElem_mem hi)).recorded _

theorem Ending.conclude_records (conditions : Conditions σ) (e : Journal.Event)
    (ending : Ending ε ρ) (w : World σ) :
    Records (ε := ε) (ρ := ρ) w (ending.conclude conditions.recorded e).run
      (ending.conclude conditions e).run fun _ _ _ => True := by
  cases ending with
  | returned r =>
    exact (conditions.afterCall_records w).guarded_bind (fun _ _ _ _ => trivial)
      fun _ _ _ _ => .pure _ trivial
  | failed failure =>
    exact (Records.note (P := fun _ _ _ => True) e trivial).lift_bind
      fun _ _ _ _ => .pure _ trivial
  | panicked message => exact .pure _ trivial

theorem DeferredContract.await_records (d : DeferredContract σ α ε ρ) (w : World σ) :
    Records w d.recorded.await.run d.await.run fun _ _ _ => True := by
  refine (d.conditions.beforeCall_records w).guarded_bind (fun _ _ _ _ => trivial) ?_
  intro _ middle _ _
  show Records middle (liftM (d.target d.arguments).recorded.run >>= _ : Guarded _ _).run _ _
  rw [Task.run_recorded]
  refine (Records.recorded (P := fun _ _ _ => True) _ _ trivial).lift_bind ?_
  exact fun ending after _ _ => Ending.conclude_records d.conditions _ ending after

/-! ### One call after another -/

/-- Deferred calls one after another, each polled until it settles before the next is started:
their answers and the world after the last one. -/
inductive SettleInTurn : List (DeferredContract σ α ε ρ) → World σ →
    List (Except Violation (Ending ε ρ)) → World σ → Prop
  | nil (w : World σ) : SettleInTurn [] w [] w
  | cons {d : DeferredContract σ α ε ρ} {ds : List (DeferredContract σ α ε ρ)}
    {w middle after : World σ} {answer : Except Violation (Ending ε ρ)}
    {answers : List (Except Violation (Ending ε ρ))} (h : Settles d .fresh w answer middle)
    (hrest : SettleInTurn ds middle answers after) :
    SettleInTurn (d :: ds) w (answer :: answers) after

/-- A number of direct calls, one after another. -/
def Contract.tryInvokes (c : Contract σ α ε ρ) (a : α) :
    Nat → Act σ (List (Except Violation (Ending ε ρ)))
  | 0 => return []
  | times + 1 => do
    let answer ← (c.tryInvoke a).run
    return answer :: (← c.tryInvokes a times)

theorem Contract.tryInvokes_records (c : Contract σ α ε ρ) (a : α) (times : Nat) (w : World σ) :
    Records w (c.recorded.tryInvokes a times) (c.tryInvokes a times) fun _ _ _ => True := by
  induction times generalizing w with
  | zero => exact .pure _ trivial
  | succ times ih =>
    refine (c.tryInvoke_records a w).bind fun answer middle events _ => ?_
    exact (ih middle).bind fun _ _ _ _ => .pure _ trivial

/-- Deferred calls one after another, in one act. -/
def awaits (ds : List (DeferredContract σ α ε ρ)) : Act σ (List (Except Violation (Ending ε ρ))) :=
  ds.mapM fun d => d.await.run

theorem awaits_cons (d : DeferredContract σ α ε ρ) (ds : List (DeferredContract σ α ε ρ)) :
    awaits (d :: ds) = (do
      let answer ← d.await.run
      return answer :: (← awaits ds)) :=
  List.mapM_cons

theorem settleInTurn_iff {ds : List (DeferredContract σ α ε ρ)} {w after : World σ}
    {answers : List (Except Violation (Ending ε ρ))} :
    SettleInTurn ds w answers after ↔ awaits ds w = (answers, after) := by
  constructor
  · intro h
    induction h with
    | nil => rfl
    | cons h _ ih =>
      rw [awaits_cons, Act.run_bind, DeferredContract.settles_fresh_iff.1 h, Act.run_bind, ih]
      rfl
  · intro h
    induction ds generalizing w answers after with
    | nil =>
      cases h
      exact .nil w
    | cons d ds ih =>
      rw [awaits_cons, Act.run_bind, Act.run_bind] at h
      cases h
      exact .cons (DeferredContract.settles_fresh_iff.2 rfl) (ih rfl)

theorem awaits_records (ds : List (DeferredContract σ α ε ρ)) (w : World σ) :
    Records w (awaits (ds.map DeferredContract.recorded)) (awaits ds) fun _ _ _ => True := by
  induction ds generalizing w with
  | nil => exact .pure _ trivial
  | cons d ds ih =>
    rw [List.map_cons, awaits_cons, awaits_cons]
    refine (d.await_records w).bind fun answer middle events _ => ?_
    exact (ih middle).bind fun _ _ _ _ => .pure _ trivial

/-- The deferred calls have the answers of the direct ones and leave the same state. -/
theorem awaits_alike {c : Contract σ α ε ρ} {a : α} (hc : c.IgnoresJournal a)
    {ds : List (DeferredContract σ α ε ρ)} (hds : ∀ d ∈ ds, d.direct = c ∧ d.arguments = a) :
    (awaits ds).Alike (c.tryInvokes a ds.length) := by
  induction ds with
  | nil => exact .pure _
  | cons d ds ih =>
    obtain ⟨⟨rfl, rfl⟩, hds⟩ := List.forall_mem_cons.1 hds
    rw [awaits_cons]
    refine Act.Alike.bind (fun w w' hw => ?_) fun answer => (ih hds).bind fun _ => .pure _
    obtain ⟨hanswer, hstate⟩ := d.await_alike w
    obtain ⟨hanswer', hstate'⟩ := hc.tryInvoke w w' hw
    exact ⟨hanswer.trans hanswer', hstate.trans hstate'⟩

/-- Acts that are alike, and so are the same acts with their events: these agree too. -/
theorem exists_of_alike {w : World σ} {x y : Act σ β} {x' y' : Act (Recorded σ ε ρ) β}
    (hx : Records w x' x fun _ _ _ => True) (hy : Records w y' y fun _ _ _ => True)
    (h : Alike (x w) (y w)) (h' : Alike (x' (w.with [])) (y' (w.with []))) :
    ∃ answer after after' events, x w = (answer, after) ∧ y w = (answer, after') ∧
      after.state = after'.state ∧ x' (w.with []) = (answer, after.with events) ∧
      y' (w.with []) = (answer, after'.with events) := by
  obtain ⟨events, -, hx⟩ := hx
  obtain ⟨events', -, hy⟩ := hy
  rw [hx, hy] at h'
  obtain rfl : events = events' := congrArg Recorded.events h'.2
  refine ⟨(x w).1, (x w).2, (y w).2, events, rfl, Prod.ext h.1.symm rfl, h.2, hx [], ?_⟩
  rw [hy, h.1]
  rfl

/-- A deferred call that is polled until it settles has the answer, the tests and runs in their
order, and the final state of the direct call of the same target without its pauses; and deferred
calls one after another, whose targets may pause each in its own way, those of as many direct
calls. -/
theorem deferred_as_direct :
    (∀ (d : DeferredContract σ α ε ρ) (w : World σ), ∃ answer after after' events,
      (∀ result last, Settles d .fresh w result last ↔ (result, last) = (answer, after)) ∧
      (d.direct.tryInvoke d.arguments).run w = (answer, after') ∧ after.state = after'.state ∧
      Settles d.recorded .fresh (w.with []) answer (after.with events) ∧
      (d.direct.recorded.tryInvoke d.arguments).run (w.with []) =
        (answer, after'.with events)) ∧
    ∀ (c : Contract σ α ε ρ) (a : α), c.IgnoresJournal a →
      ∀ ds : List (DeferredContract σ α ε ρ), (∀ d ∈ ds, d.direct = c ∧ d.arguments = a) →
      ∀ w : World σ, ∃ answers after after' events,
        (∀ results last, SettleInTurn ds w results last ↔ (results, last) = (answers, after)) ∧
        c.tryInvokes a ds.length w = (answers, after') ∧ after.state = after'.state ∧
        SettleInTurn (ds.map DeferredContract.recorded) (w.with []) answers (after.with events) ∧
        c.recorded.tryInvokes a ds.length (w.with []) = (answers, after'.with events) := by
  refine ⟨fun d w => ?_, fun c a hc ds hds w => ?_⟩
  · have halike := d.recorded.await_alike (w.with [])
    rw [d.direct_recorded] at halike
    obtain ⟨answer, after, after', events, hawait, hdirect, hstate, hrecorded, hdirect'⟩ :=
      exists_of_alike (d.await_records w) (d.direct.tryInvoke_records d.arguments w |>.imp
        fun _ _ _ _ => trivial) (d.await_alike w) halike
    refine ⟨answer, after, after', events, fun result last => ?_, hdirect, hstate,
      DeferredContract.settles_fresh_iff.2 hrecorded, hdirect'⟩
    rw [DeferredContract.settles_fresh_iff, hawait, eq_comm]
  · have hds' : ∀ d ∈ ds.map DeferredContract.recorded,
        d.direct = c.recorded ∧ d.arguments = a := by
      intro d' hmem
      obtain ⟨d, hd, rfl⟩ := List.mem_map.1 hmem
      obtain ⟨rfl, rfl⟩ := hds d hd
      exact ⟨d.direct_recorded, rfl⟩
    have halike := awaits_alike hc.recorded hds' (w.with []) (w.with []) rfl
    rw [List.length_map] at halike
    obtain ⟨answers, after, after', events, hawait, hdirect, hstate, hrecorded, hdirect'⟩ :=
      exists_of_alike (awaits_records ds w) (c.tryInvokes_records a ds.length w)
        (awaits_alike hc hds w w rfl) halike
    refine ⟨answers, after, after', events, fun results last => ?_, hdirect, hstate,
      settleInTurn_iff.2 hrecorded, hdirect'⟩
    rw [settleInTurn_iff, hawait, eq_comm]

/-- A contract that counts its calls before the target and is busy at the first one. -/
def busyOnce : Contract Nat Unit String Nat where
  target _ := Act.onState fun n => if n = 1 then (.failed "busy", n) else (.returned n, n + 1)
  conditions :=
    { preconditions := [⟨.plain (Act.onState fun n => (true, n + 1)), none⟩]
      postconditions := [⟨.plain (Act.onState fun n => (n < 4, n)), some "late"⟩]
      invariants := [] }

/-- Of three calls in turn, with and without pauses, the first one fails without an effect on
the next, and the last one is too late. -/
theorem deferred_as_direct_busyOnce : busyOnce.IgnoresJournal () ∧
    ∃ after, SettleInTurn [busyOnce.deferred () 2, busyOnce.deferred () 0, busyOnce.deferred () 1]
      ⟨0, []⟩ [.ok (.failed "busy"), .ok (.returned 2), .error ⟨.postcondition, 0, "late"⟩] after ∧
      after.state = 5 := by
  have hc : busyOnce.IgnoresJournal () := by
    refine ⟨Act.onState_ignoresJournal _, fun kind condition hmem => ?_⟩
    cases kind with
    | precondition =>
      rw [List.mem_singleton.1 hmem]
      exact Act.onState_ignoresJournal fun n => (true, n + 1)
    | postcondition =>
      rw [List.mem_singleton.1 hmem]
      exact Act.onState_ignoresJournal fun n => (decide (n < 4), n)
    | invariant => cases hmem
  have hds : ∀ d ∈ [busyOnce.deferred () 2, busyOnce.deferred () 0, busyOnce.deferred () 1],
      d.direct = busyOnce ∧ d.arguments = () := by
    simp [DeferredContract.direct, Contract.deferred, Task.run_after]
  obtain ⟨answers, after, after', events, hsettle, hdirect, hstate, -⟩ :=
    deferred_as_direct.2 busyOnce () hc _ hds ⟨0, []⟩
  cases hdirect
  exact ⟨hc, after, (hsettle _ _).2 rfl, hstate⟩

end Covenant
