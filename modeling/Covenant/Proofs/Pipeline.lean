import Covenant.Proofs.Trace
import Mathlib.Tactic.Common

/-! The pipeline of a call: the preconditions, the invariants, the target, the invariants
again and the postconditions. Every way to call makes these steps in this order and leaves off
after the first one that does not go through, which also settles the answer. The conditions
and the target may do anything to the state and the journal; nothing is assumed of them. -/

namespace Covenant

variable {σ α ε ρ : Type}

/-! ### The part of a sequence of steps that is made -/

/-- The events of a sequence of steps that is cut off after the first one that does not go
through: no event before the last one stops the call, and if none does, nothing is cut off. -/
structure Cut (failuresGoOn : Bool) (steps : List Step) (events : List (Event ε ρ)) : Prop where
  isPrefix : events.map Event.step <+: steps
  goesOn_of_mem_dropLast : ∀ e ∈ events.dropLast, e.GoesOn failuresGoOn
  eq_of_goesOn : (∀ e ∈ events, e.GoesOn failuresGoOn) → events.map Event.step = steps

namespace Cut

variable {f : Bool} {xs ys : List Step} {es fs : List (Event ε ρ)}

/-- Steps that all went through, and others after them. -/
theorem append (h : Cut f xs es) (hes : ∀ e ∈ es, e.GoesOn f) (h' : Cut f ys fs) :
    Cut f (xs ++ ys) (es ++ fs) := by
  have hxs := h.eq_of_goesOn hes
  refine ⟨?_, ?_, ?_⟩
  · rw [List.map_append, hxs]
    exact (List.prefix_append_right_inj xs).2 h'.isPrefix
  · intro e he
    rw [List.dropLast_append] at he
    split at he
    · exact hes e ((List.dropLast_sublist _).subset he)
    · rcases List.mem_append.1 he with he | he
      · exact hes e he
      · exact h'.goesOn_of_mem_dropLast e he
  · intro hall
    rw [List.map_append, hxs, h'.eq_of_goesOn fun e he => hall e (List.mem_append_right _ he)]

/-- After a step that did not go through no other is made. -/
theorem stop (h : Cut f xs es) (hstop : ∃ e ∈ es, ¬e.GoesOn f) : Cut f (xs ++ ys) es := by
  obtain ⟨e, he, hn⟩ := hstop
  exact ⟨h.isPrefix.trans (List.prefix_append _ _), h.goesOn_of_mem_dropLast,
    fun hall => absurd (hall e he) hn⟩

theorem nil : Cut f [] ([] : List (Event ε ρ)) := ⟨List.prefix_rfl, by simp, fun _ => rfl⟩

theorem of_goesOn (hes : ∀ e ∈ es, e.GoesOn f) : Cut f (es.map Event.step) es :=
  ⟨List.prefix_rfl, fun e he => hes e ((List.dropLast_sublist _).subset he), fun _ => rfl⟩

theorem single (e : Event ε ρ) : Cut f [e.step] [e] :=
  ⟨List.prefix_rfl, by simp, fun _ => rfl⟩

end Cut

/-! ### Lists of conditions -/

/-- The events of `count` conditions from the one at `start` on that all hold. -/
def Kind.passes (kind : Kind) (start count : Nat) : List (Event ε ρ) :=
  (List.range' start count).map fun i => .tested kind i true

/-- The tests of `count` conditions from the one at `start` on. -/
def Kind.steps (kind : Kind) (start count : Nat) : List Step :=
  (List.range' start count).map (.test kind)

/-- A walk over conditions from the one at `start` on. The first one that does not hold ends
it with a violation, which is the last thing noted. -/
inductive Walk (kind : Kind) : Nat → List (Condition σ) →
    Except Violation Unit → World σ → List (Event ε ρ) → Prop
  | nil (start : Nat) (after : World σ) : Walk kind start [] (.ok ()) after []
  | stop (start : Nat) (c : Condition σ) (rest : List (Condition σ)) (after : World σ)
    (noted : after.journal.head? = some (.violated ⟨kind, start, c.messageFor kind⟩)) :
    Walk kind start (c :: rest) (.error ⟨kind, start, c.messageFor kind⟩) after
      [.tested kind start false]
  | next {start : Nat} (c : Condition σ) {rest : List (Condition σ)}
    {answer : Except Violation Unit} {after : World σ} {events : List (Event ε ρ)}
    (h : Walk kind (start + 1) rest answer after events) :
    Walk kind start (c :: rest) answer after (.tested kind start true :: events)

theorem Condition.run_checkFrom_cons (kind : Kind) (start : Nat) (c : Condition σ)
    (rest : List (Condition σ)) :
    (checkFrom kind start (c :: rest)).run = (do
      if ← c.holds then (checkFrom kind (start + 1) rest).run
      else
        Act.note (.violated ⟨kind, start, c.messageFor kind⟩)
        return .error ⟨kind, start, c.messageFor kind⟩) := by
  funext w
  rw [checkFrom, ExceptT.run_bind]
  change (if (c.holds w).1 then _ else _ : Guarded σ Unit).run (c.holds w).2 = _
  change _ = (if (c.holds w).1 then _ else _ : Act σ (Except Violation Unit)) (c.holds w).2
  split <;> rfl

theorem Condition.holds_recorded (kind : Kind) (i : Nat) (c : Condition σ) :
    (c.recorded (ε := ε) (ρ := ρ) kind i).holds = c.holds.recorded (.tested kind i) := by
  obtain ⟨predicate, message⟩ := c
  cases predicate <;> rfl

theorem Condition.checkFrom_records (kind : Kind) (conditions : List (Condition σ))
    (start : Nat) (w : World σ) :
    Records (ε := ε) (ρ := ρ) w
      (checkFrom kind start (conditions.mapIdx fun i => Condition.recorded kind (start + i))).run
      (checkFrom kind start conditions).run (Walk kind start conditions) := by
  induction conditions generalizing start w with
  | nil => exact .pure _ (.nil start w)
  | cons c rest ih =>
    have hshift : (fun i => Condition.recorded (σ := σ) (ε := ε) (ρ := ρ) kind (start + (i + 1))) =
        fun i => Condition.recorded kind (start + 1 + i) := by
      funext i
      rw [Nat.add_assoc, Nat.add_comm 1 i]
    rw [List.mapIdx_cons, hshift, run_checkFrom_cons, run_checkFrom_cons, holds_recorded]
    refine (Records.recorded (P := fun held _ events =>
      events = [.tested kind start held]) _ _ rfl).bind ?_
    rintro held after _ rfl
    cases held with
    | true => exact (ih (start + 1) after).imp fun _ _ _ h => .next c h
    | false =>
      refine (Records.note (P := fun _ last events => last.journal.head? =
        some (.violated ⟨kind, start, c.messageFor kind⟩) ∧ events = []) _ ⟨rfl, rfl⟩).bind ?_
      rintro _ last _ ⟨hnoted, rfl⟩
      exact .pure _ (.stop start c rest last hnoted)

/-- Checking a list of conditions notes that first and then walks over the conditions. -/
theorem Condition.check_records_of {kind : Kind} {conditions : List (Condition σ)} {w : World σ}
    {P : Except Violation Unit → World σ → List (Event ε ρ) → Prop}
    (h : ∀ after : World σ, after.state = w.state → Records after
      (checkFrom kind 0 (conditions.mapIdx (Condition.recorded kind))).run
      (checkFrom kind 0 conditions).run P) :
    Records w (check kind (conditions.mapIdx (Condition.recorded kind))).run
      (check kind conditions).run P := by
  rw [check, check, List.length_mapIdx]
  refine (Records.note (P := fun _ after events => after.state = w.state ∧ events = [])
    _ ⟨rfl, rfl⟩).lift_bind ?_
  rintro _ after _ ⟨hstate, rfl⟩
  exact h after hstate

namespace Walk

variable {kind : Kind} {start : Nat} {conditions : List (Condition σ)}
  {answer : Except Violation Unit} {after : World σ} {events : List (Event ε ρ)}

theorem eq_passes (h : Walk kind start conditions (.ok ()) after events) :
    events = kind.passes start conditions.length := by
  generalize hok : Except.ok () = answer at h
  induction h with
  | nil => rfl
  | stop => cases hok
  | next c h ih =>
    rw [ih hok]
    rfl

theorem cut {f : Bool} (h : Walk kind start conditions answer after events) :
    Cut f (kind.steps start conditions.length) events := by
  induction h with
  | nil => exact .nil
  | stop start c rest after noted =>
    show Cut f ([.test kind start] ++ kind.steps (start + 1) rest.length) _
    exact (Cut.single (.tested kind start false)).stop
      ⟨_, List.mem_singleton_self _, Bool.false_ne_true⟩
  | next c h ih =>
    refine (Cut.single (.tested kind _ true)).append (fun e he => ?_) ih
    rw [List.mem_singleton.1 he]
    rfl

/-- The only event of a test that did not hold is about the condition that the answer names. -/
theorem eq_of_tested_false {k : Kind} {i : Nat} (h : Walk kind start conditions answer after events)
    (hi : .tested k i false ∈ events) :
    ∃ condition, conditions[i - start]? = some condition ∧ start ≤ i ∧ k = kind ∧
      answer = .error ⟨kind, i, condition.messageFor kind⟩ ∧
      after.journal.head? = some (.violated ⟨kind, i, condition.messageFor kind⟩) := by
  induction h with
  | nil => simp at hi
  | stop start c rest after noted =>
    cases List.mem_singleton.1 hi
    exact ⟨c, by simp, Nat.le_refl _, rfl, rfl, noted⟩
  | @next start c rest _ _ _ h ih =>
    rcases List.mem_cons.1 hi with hi | hi
    · simp at hi
    · obtain ⟨condition, hfound, hle, hrest⟩ := ih hi
      refine ⟨condition, ?_, by omega, hrest⟩
      rwa [show i - start = i - (start + 1) + 1 by omega, List.getElem?_cons_succ]

theorem exists_tested_false {v : Violation}
    (h : Walk kind start conditions (.error v) after events) :
    .tested v.kind v.index false ∈ events := by
  generalize herror : Except.error v = answer at h
  induction h with
  | nil => cases herror
  | stop start c rest after noted =>
    cases herror
    exact List.mem_singleton_self _
  | next c h ih => exact List.mem_cons_of_mem _ (ih herror)

end Walk

/-! ### Before and after the target -/

namespace Conditions

variable (c : Conditions σ)

/-- The tests of all conditions of a kind, in order. -/
def steps (kind : Kind) : List Step := kind.steps 0 (c.get kind).length

/-- The events of all conditions of some kinds when they all hold. -/
def passes (kinds : List Kind) : List (Event ε ρ) :=
  kinds.flatMap fun kind => kind.passes 0 (c.get kind).length

/-- A walk over the conditions of some kinds, one kind after the other. -/
inductive Walks : List Kind → Except Violation Unit → World σ → List (Event ε ρ) → Prop
  | nil (after : World σ) : Walks [] (.ok ()) after []
  | stop {kind : Kind} {v : Violation} {after : World σ} {events : List (Event ε ρ)}
    (rest : List Kind) (h : Walk kind 0 (c.get kind) (.error v) after events) :
    Walks (kind :: rest) (.error v) after events
  | next {kind : Kind} {rest : List Kind} {answer : Except Violation Unit}
    {middle after : World σ} {events more : List (Event ε ρ)}
    (h : Walk kind 0 (c.get kind) (.ok ()) middle events) (hrest : Walks rest answer after more) :
    Walks (kind :: rest) answer after (events ++ more)

theorem check_records_of {kind : Kind} {w : World σ}
    {P : Except Violation Unit → World σ → List (Event ε ρ) → Prop}
    (h : ∀ after : World σ, after.state = w.state → Records after
      (Condition.checkFrom kind 0 ((c.get kind).mapIdx (Condition.recorded kind))).run
      (Condition.checkFrom kind 0 (c.get kind)).run P) :
    Records w (c.recorded.check kind).run (c.check kind).run P := by
  rw [check, check, get_recorded]
  exact Condition.check_records_of h

theorem check_records (kind : Kind) (w : World σ) :
    Records (ε := ε) (ρ := ρ) w (c.recorded.check kind).run (c.check kind).run
      (Walk kind 0 (c.get kind)) := by
  refine c.check_records_of fun after _ => ?_
  have h := Condition.checkFrom_records (ε := ε) (ρ := ρ) kind (c.get kind) 0 after
  simp only [Nat.zero_add] at h
  exact h

/-- Two kinds of conditions, one after the other. -/
theorem check_two_records (first second : Kind) (w : World σ) :
    Records (ε := ε) (ρ := ρ) w (do c.recorded.check first; c.recorded.check second).run
      (do c.check first; c.check second).run (c.Walks [first, second]) := by
  refine (c.check_records first w).guarded_bind (fun v after events h => .stop [second] h) ?_
  intro _ middle events h
  refine (c.check_records second middle).imp fun answer after more hmore => .next h ?_
  cases answer with
  | error v => exact .stop [] hmore
  | ok => simpa using Walks.next hmore (.nil after)

theorem beforeCall_records (w : World σ) :
    Records (ε := ε) (ρ := ρ) w c.recorded.beforeCall.run c.beforeCall.run
      (c.Walks [.precondition, .invariant]) :=
  c.check_two_records .precondition .invariant w

theorem afterCall_records (w : World σ) :
    Records (ε := ε) (ρ := ρ) w c.recorded.afterCall.run c.afterCall.run
      (c.Walks [.invariant, .postcondition]) :=
  c.check_two_records .invariant .postcondition w

theorem map_step_passes (kinds : List Kind) :
    (c.passes (ε := ε) (ρ := ρ) kinds).map Event.step = kinds.flatMap c.steps := by
  simp only [passes, List.map_flatMap, Kind.passes, List.map_map]
  rfl

theorem onlyTests_passes (kinds : List Kind) : OnlyTests (c.passes (ε := ε) (ρ := ρ) kinds) := by
  intro e he
  simp only [passes, Kind.passes, List.mem_flatMap, List.mem_map] at he
  obtain ⟨kind, _, i, _, rfl⟩ := he
  exact ⟨kind, i, true, rfl⟩

theorem goesOn_of_mem_passes {f : Bool} {kinds : List Kind} {e : Event ε ρ}
    (he : e ∈ c.passes kinds) : e.GoesOn f := by
  simp only [passes, Kind.passes, List.mem_flatMap, List.mem_map] at he
  obtain ⟨_, _, _, _, rfl⟩ := he
  rfl

theorem cut_passes {f : Bool} (kinds : List Kind) :
    Cut f (kinds.flatMap c.steps) (c.passes (ε := ε) (ρ := ρ) kinds) := by
  rw [← c.map_step_passes (ε := ε) (ρ := ρ)]
  exact .of_goesOn fun _ he => c.goesOn_of_mem_passes he

namespace Walks

variable {c} {kinds : List Kind} {answer : Except Violation Unit} {after : World σ}
  {events : List (Event ε ρ)}

theorem eq_passes (h : c.Walks kinds (.ok ()) after events) : events = c.passes kinds := by
  generalize hok : Except.ok () = answer at h
  induction h with
  | nil => rfl
  | stop => cases hok
  | next h _ ih =>
    rw [ih hok, h.eq_passes]
    rfl

theorem cut {f : Bool} (h : c.Walks kinds answer after events) :
    Cut f (kinds.flatMap c.steps) events := by
  induction h with
  | nil => exact .nil
  | stop rest h => exact h.cut.stop ⟨_, h.exists_tested_false, Bool.false_ne_true⟩
  | @next kind _ _ _ _ _ _ h _ ih =>
    refine h.cut.append (fun e he => ?_) ih
    rw [h.eq_passes] at he
    have hmem : e ∈ c.passes [kind] := by simpa [passes] using he
    exact c.goesOn_of_mem_passes hmem

theorem eq_of_tested_false {k : Kind} {i : Nat} (h : c.Walks kinds answer after events)
    (hi : .tested k i false ∈ events) :
    ∃ condition, (c.get k)[i]? = some condition ∧
      answer = .error ⟨k, i, condition.messageFor k⟩ ∧
      after.journal.head? = some (.violated ⟨k, i, condition.messageFor k⟩) := by
  induction h with
  | nil => simp at hi
  | stop rest h =>
    obtain ⟨condition, hfound, -, rfl, hrest⟩ := h.eq_of_tested_false hi
    exact ⟨condition, hfound, hrest⟩
  | next h _ ih =>
    rcases List.mem_append.1 hi with hi | hi
    · rw [h.eq_passes] at hi
      simp [Kind.passes] at hi
    · exact ih hi

theorem exists_tested_false {v : Violation} (h : c.Walks kinds (.error v) after events) :
    .tested v.kind v.index false ∈ events := by
  generalize herror : Except.error v = answer at h
  induction h with
  | nil => cases herror
  | stop rest h =>
    cases herror
    exact h.exists_tested_false
  | next _ _ ih => exact List.mem_append_right _ (ih herror)

theorem onlyTests (h : c.Walks kinds answer after events) : OnlyTests events := by
  intro e he
  have hmem := (h.cut (f := true)).isPrefix.subset (List.mem_map_of_mem he)
  cases e with
  | tested kind i held => exact ⟨kind, i, held, rfl⟩
  | _ => simp [steps, Kind.steps, Event.step] at hmem

/-- Not all conditions held when a walk was stopped. -/
theorem not_passes_isPrefix {v : Violation} (h : c.Walks kinds (.error v) after events) :
    ¬c.passes kinds <+: events := by
  intro hprefix
  have hlength : events.length ≤ (c.passes (ε := ε) (ρ := ρ) kinds).length := by
    have := (h.cut (f := true)).isPrefix.length_le
    rw [← c.map_step_passes (ε := ε) (ρ := ρ)] at this
    simpa using this
  have hmem := h.exists_tested_false
  rw [← hprefix.eq_of_length_le hlength] at hmem
  exact Bool.false_ne_true (c.goesOn_of_mem_passes (f := true) hmem)

end Walks

/-- The steps of a call in which all conditions hold and the target returns. -/
def pipeline : List Step :=
  c.steps .precondition ++ c.steps .invariant ++ [.run] ++
    c.steps .invariant ++ c.steps .postcondition

theorem pipeline_eq :
    c.pipeline = [.precondition, .invariant].flatMap c.steps ++
      ([.run] ++ [.invariant, .postcondition].flatMap c.steps) := by
  simp [pipeline]

end Conditions

/-! ### Conditions that leave the state alone -/

/-- Conditions are not to change the state that they test. -/
def Conditions.Pure (c : Conditions σ) : Prop :=
  ∀ kind, ∀ condition ∈ c.get kind, ∀ w, (condition.holds w).2.state = w.state

theorem Condition.checkFrom_state (kind : Kind) (conditions : List (Condition σ)) (start : Nat)
    (hpure : ∀ condition ∈ conditions, ∀ w, (condition.holds w).2.state = w.state)
    (w : World σ) : ((checkFrom kind start conditions).run w).2.state = w.state := by
  induction conditions generalizing start w with
  | nil => rfl
  | cons c rest ih =>
    obtain ⟨hc, hrest⟩ := List.forall_mem_cons.1 hpure
    rw [run_checkFrom_cons, Act.run_bind]
    split
    · rw [ih _ hrest, hc]
    · exact hc w

namespace Conditions

variable {c : Conditions σ}

theorem Pure.check_state (h : c.Pure) (kind : Kind) (w : World σ) :
    ((c.check kind).run w).2.state = w.state :=
  Condition.checkFrom_state kind (c.get kind) 0 (h kind) _

theorem Pure.check_two_state (h : c.Pure) (first second : Kind) (w : World σ) :
    ((do c.check first; c.check second : Guarded σ Unit).run w).2.state = w.state := by
  have hfirst := h.check_state first w
  rw [ExceptT.run_bind, Act.run_bind]
  rcases hrun : (c.check first).run w with ⟨_ | _, after⟩ <;> rw [hrun] at hfirst
  · exact hfirst
  · exact (h.check_state second after).trans hfirst

theorem Pure.beforeCall_state (h : c.Pure) (w : World σ) :
    (c.beforeCall.run w).2.state = w.state :=
  h.check_two_state .precondition .invariant w

theorem Pure.afterCall_state (h : c.Pure) (w : World σ) :
    (c.afterCall.run w).2.state = w.state :=
  h.check_two_state .invariant .postcondition w

end Conditions

/-! ### The ways to call -/

theorem Condition.messageFor_eq (c : Condition σ) (kind : Kind) :
    c.messageFor kind =
      if c.message.getD "" = "" then kind.defaultMessage else c.message.getD "" := by
  obtain ⟨_, _ | m⟩ := c
  · rfl
  · by_cases hm : m = "" <;> simp [messageFor, ownMessage?, Option.filter, hm]

/-- The three ways to call a contract. -/
inductive Entry
  | invoke
  | call
  | tryInvoke

namespace Entry

/-- Only a call whose target may fail ends with a failure of its target. -/
def failuresGoOn : Entry → Bool
  | tryInvoke => false
  | _ => true

/-- What a violation amounts to: it is handed over as it is, or raised as a panic with its
message. -/
def deliver : Entry → Violation → Except Violation (Ending ε ρ)
  | call, v => .ok (.panicked v.message)
  | _, v => .error v

/-- An answer with its violation raised. -/
def raised : Except Violation (Ending ε ρ) → Except Violation (Ending ε ρ)
  | .ok ending => .ok ending
  | .error v => call.deliver v

/-- The answer of a call whose target came to a result, by what the conditions after it say. -/
def answer (entry : Entry) (ending : Ending ε ρ) :
    Except Violation Unit → Except Violation (Ending ε ρ)
  | .ok () => .ok ending
  | .error v => entry.deliver v

theorem deliver_of_ne {entry : Entry} (h : entry ≠ .call) (v : Violation) :
    entry.deliver (ε := ε) (ρ := ρ) v = .error v := by
  cases entry with
  | call => exact absurd rfl h
  | _ => rfl

theorem deliver_ne {entry : Entry} {ending : Ending ε ρ}
    (h : (Event.ran ending).GoesOn entry.failuresGoOn) (v : Violation) :
    entry.deliver v ≠ .ok ending := by
  intro hv
  cases entry with
  | call =>
    cases hv
    exact h
  | _ => cases hv

end Entry

def Contract.enter (c : Contract σ α ε ρ) : Entry → α → Act σ (Except Violation (Ending ε ρ))
  | .invoke, a => (c.invoke a).run
  | .call, a => do return .ok (← c.call a)
  | .tryInvoke, a => (c.tryInvoke a).run

def Contract.recorded (c : Contract σ α ε ρ) : Contract (Recorded σ ε ρ) α ε ρ :=
  ⟨fun a => (c.target a).recorded .ran, c.conditions.recorded⟩

/-- A call accounted for by its events: which steps it made, and what its answer is. -/
structure Account (entry : Entry) (c : Conditions σ) (answer : Except Violation (Ending ε ρ))
    (after : World σ) (events : List (Event ε ρ)) : Prop where
  /-- The steps are those of the pipeline up to the first that does not go through. -/
  cut : Cut entry.failuresGoOn c.pipeline events
  /-- The target runs once after conditions that all held, -/
  run_once : c.passes [.precondition, .invariant] <+: events → events.countP Event.isRun = 1
  /-- and never otherwise. -/
  run_never : ¬c.passes [.precondition, .invariant] <+: events → events.countP Event.isRun = 0
  /-- The target's own result is the answer exactly if every step went through. -/
  result : (∃ ending, .ran ending ∈ events ∧ (Event.ran ending).GoesOn entry.failuresGoOn ∧
    answer = .ok ending) ↔ ∀ e ∈ events, e.GoesOn entry.failuresGoOn
  /-- A panic of the target, or a failure that ends the call, is handed on as it is. -/
  ended : ∀ ending, .ran ending ∈ events → ¬(Event.ran ending).GoesOn entry.failuresGoOn →
    answer = .ok ending
  /-- The condition that did not hold is named by the violation, which is noted last. -/
  violation : ∀ kind i, .tested kind i false ∈ events →
    ∃ condition v, (c.get kind)[i]? = some condition ∧
      v = ⟨kind, i, if condition.message.getD "" = "" then kind.defaultMessage
        else condition.message.getD ""⟩ ∧
      answer = entry.deliver v ∧ after.journal.head? = some (.violated v)

namespace Account

variable {entry : Entry} {c : Conditions σ} {after : World σ} {events : List (Event ε ρ)}

/-- A call that a condition keeps from running its target. -/
theorem blocked {v : Violation}
    (h : c.Walks [.precondition, .invariant] (.error v) after events) :
    Account entry c (entry.deliver v) after events where
  cut := c.pipeline_eq ▸ h.cut.stop ⟨_, h.exists_tested_false, Bool.false_ne_true⟩
  run_once hpasses := absurd hpasses h.not_passes_isPrefix
  run_never _ := h.onlyTests.countP_isRun
  result := by
    constructor
    · rintro ⟨ending, hran, -⟩
      exact absurd hran (h.onlyTests.ran_notMem ending)
    · intro hall
      exact absurd (hall _ h.exists_tested_false) Bool.false_ne_true
  ended ending hran := absurd hran (h.onlyTests.ran_notMem ending)
  violation kind i hi := by
    obtain ⟨condition, hfound, hv, hnoted⟩ := h.eq_of_tested_false hi
    cases hv
    exact ⟨condition, _, hfound, by rw [Condition.messageFor_eq], rfl, hnoted⟩

/-- A call whose target has run, and perhaps some conditions after it. -/
theorem entered {ending : Ending ε ρ} {kinds : List Kind} {walked : Except Violation Unit}
    {answer : Except Violation (Ending ε ρ)} (h : c.Walks kinds walked after events)
    (hcut : Cut entry.failuresGoOn
      ([.run] ++ [.invariant, .postcondition].flatMap c.steps) (.ran ending :: events))
    (hresult : (Event.ran ending).GoesOn entry.failuresGoOn ∧ answer = .ok ending ↔
      ∀ e ∈ .ran ending :: events, e.GoesOn entry.failuresGoOn)
    (hended : ¬(Event.ran ending).GoesOn entry.failuresGoOn → answer = .ok ending)
    (hviolation : ∀ v, walked = .error v → answer = entry.deliver v) :
    Account entry c answer after
      (c.passes [.precondition, .invariant] ++ .ran ending :: events) := by
  have hbefore := c.onlyTests_passes (ε := ε) (ρ := ρ) [.precondition, .invariant]
  have hran : ∀ ending', .ran ending' ∈ c.passes [.precondition, .invariant] ++
      .ran ending :: events ↔ ending' = ending := fun ending' => by
    simp [h.onlyTests.ran_notMem, hbefore.ran_notMem]
  refine ⟨?_, fun _ => ?_, fun hn => absurd (List.prefix_append _ _) hn, ?_, ?_, ?_⟩
  · rw [c.pipeline_eq]
    exact (c.cut_passes _).append (fun e he => c.goesOn_of_mem_passes he) hcut
  · simp [List.countP_append, List.countP_cons, hbefore.countP_isRun, h.onlyTests.countP_isRun,
      Event.isRun]
  · constructor
    · rintro ⟨ending', hmem, hgo, hanswer⟩ e he
      rw [(hran ending').1 hmem] at hgo hanswer
      rcases List.mem_append.1 he with he | he
      · exact c.goesOn_of_mem_passes he
      · exact hresult.1 ⟨hgo, hanswer⟩ e he
    · intro hall
      exact ⟨ending, (hran ending).2 rfl,
        hresult.2 fun e he => hall e (List.mem_append_right _ he)⟩
  · intro ending' hmem hn
    rw [(hran ending').1 hmem] at hn ⊢
    exact hended hn
  · intro kind i hi
    rcases List.mem_append.1 hi with hi | hi
    · exact absurd (c.goesOn_of_mem_passes (f := true) hi) Bool.false_ne_true
    · rcases List.mem_cons.1 hi with hi | hi
      · cases hi
      · obtain ⟨condition, hfound, hv, hnoted⟩ := h.eq_of_tested_false hi
        exact ⟨condition, _, hfound, by rw [Condition.messageFor_eq], hviolation _ hv, hnoted⟩

/-- A call that its target ends. -/
theorem stopped {ending : Ending ε ρ} (h : ¬(Event.ran ending).GoesOn entry.failuresGoOn) :
    Account entry c (.ok ending) after
      (c.passes [.precondition, .invariant] ++ [.ran ending]) :=
  entered (.nil after)
    ((Cut.single (.ran ending)).stop ⟨_, List.mem_singleton_self _, h⟩)
    ⟨fun hgo => absurd hgo.1 h, fun hall => absurd (hall _ (List.mem_singleton_self _)) h⟩
    (fun _ => rfl) nofun

/-- A call that goes on after its target, to the end or to a violation. -/
theorem followed {ending : Ending ε ρ} {walked : Except Violation Unit}
    (hgo : (Event.ran ending).GoesOn entry.failuresGoOn)
    (h : c.Walks [.invariant, .postcondition] walked after events) :
    Account entry c (entry.answer ending walked) after
      (c.passes [.precondition, .invariant] ++ .ran ending :: events) := by
  have hcut : Cut entry.failuresGoOn
      ([.run] ++ [.invariant, .postcondition].flatMap c.steps) (.ran ending :: events) :=
    (Cut.single (.ran ending)).append (fun e he => by rwa [List.mem_singleton.1 he]) h.cut
  refine entered h hcut ?_ (absurd hgo) ?_
  · cases walked with
    | ok =>
      refine ⟨fun _ e he => ?_, fun _ => ⟨hgo, rfl⟩⟩
      rcases List.mem_cons.1 he with rfl | he
      · exact hgo
      · rw [h.eq_passes] at he
        exact c.goesOn_of_mem_passes he
    | error v =>
      refine ⟨fun ⟨_, hanswer⟩ => ?_, fun hall => ?_⟩
      · exact absurd hanswer (entry.deliver_ne hgo v)
      · exact absurd (hall _ (List.mem_cons_of_mem _ h.exists_tested_false)) Bool.false_ne_true
  · rintro v rfl
    rfl

/-- What is true of a call that hands over a violation is true of the one that raises it. -/
theorem raised {answer : Except Violation (Ending ε ρ)}
    (h : Account .invoke c answer after events) :
    Account .call c (Entry.raised answer) after events where
  cut := h.cut
  run_once := h.run_once
  run_never := h.run_never
  result := by
    refine Iff.trans (exists_congr fun ending => and_congr_right fun _ =>
      and_congr_right fun hgo => ?_) h.result
    cases answer with
    | ok => rfl
    | error v => exact ⟨fun hv => absurd hv (Entry.deliver_ne hgo v), nofun⟩
  ended ending hran hn := by
    rw [h.ended ending hran hn]
    rfl
  violation kind i hi := by
    obtain ⟨condition, v, hfound, hv, hanswer, hnoted⟩ := h.violation kind i hi
    refine ⟨condition, v, hfound, hv, ?_, hnoted⟩
    rw [hanswer]
    rfl

end Account

namespace Contract

variable (c : Contract σ α ε ρ)

theorem target_records (a : α) (w : World σ) :
    Records w (c.recorded.target a) (c.target a) fun ending after events =>
      c.target a w = (ending, after) ∧ events = [.ran ending] :=
  .recorded _ _ ⟨rfl, rfl⟩

/-- The rest of a call that goes on after its target. -/
theorem afterCall_records (entry : Entry) (hentry : entry ≠ .call) (ending : Ending ε ρ)
    (hgo : (Event.ran ending).GoesOn entry.failuresGoOn) (w : World σ) :
    Records w (do c.recorded.conditions.afterCall; return ending : Guarded _ _).run
      (do c.conditions.afterCall; return ending : Guarded _ _).run
      fun answer after events => Account entry c.conditions answer after
        (c.conditions.passes [.precondition, .invariant] ++ .ran ending :: events) := by
  refine (c.conditions.afterCall_records w).guarded_bind (fun v after events h => ?_)
    fun _ after events h => .pure _ ?_
  · have haccount := Account.followed hgo h
    rwa [Entry.answer, Entry.deliver_of_ne hentry] at haccount
  · rw [List.append_nil]
    exact .followed hgo h

theorem invoke_records (a : α) (w : World σ) :
    Records w (c.recorded.invoke a).run (c.invoke a).run (Account .invoke c.conditions) := by
  refine (c.conditions.beforeCall_records w).guarded_bind (fun v _ _ h => .blocked h) ?_
  intro _ before events hbefore
  cases hbefore.eq_passes
  refine (c.target_records a before).lift_bind ?_
  rintro ending after _ ⟨-, rfl⟩
  cases ending with
  | returned r => exact c.afterCall_records .invoke nofun (.returned r) trivial after
  | failed e => exact c.afterCall_records .invoke nofun (.failed e) rfl after
  | panicked message => exact .pure _ (.stopped id)

theorem tryInvoke_records (a : α) (w : World σ) :
    Records w (c.recorded.tryInvoke a).run (c.tryInvoke a).run
      (Account .tryInvoke c.conditions) := by
  refine (c.conditions.beforeCall_records w).guarded_bind (fun v _ _ h => .blocked h) ?_
  intro _ before events hbefore
  cases hbefore.eq_passes
  refine (c.target_records a before).lift_bind ?_
  rintro ending after _ ⟨-, rfl⟩
  cases ending with
  | returned r => exact c.afterCall_records .tryInvoke nofun (.returned r) trivial after
  | failed e =>
    refine (Records.note (P := fun _ _ events => events = []) _ rfl).lift_bind ?_
    rintro _ last _ rfl
    exact .pure _ (.stopped Bool.false_ne_true)
  | panicked message => exact .pure _ (.stopped id)

theorem enter_call (a : α) :
    c.enter .call a = (do return Entry.raised (← (c.invoke a).run)) := by
  funext w
  rcases h : (c.invoke a).run w with ⟨answer, after⟩
  rw [enter, Act.run_bind, Act.run_bind, call, Act.run_bind, h]
  cases answer <;> rfl

theorem call_records (a : α) (w : World σ) :
    Records w (c.recorded.enter .call a) (c.enter .call a) (Account .call c.conditions) := by
  rw [enter_call, enter_call]
  refine (c.invoke_records a w).bind fun answer after events h => .pure _ ?_
  rw [List.append_nil]
  exact h.raised

/-- Whichever way a contract is called, it makes the steps of its pipeline up to the first one
that does not go through, and nothing else decides its answer. The steps are those of the
recorded contract, whose calls have the same answers and beneath the events the same effects. -/
theorem enter_account (entry : Entry) (a : α) (w : World σ) :
    ∃ events, Account entry c.conditions (c.enter entry a w).1 (c.enter entry a w).2 events ∧
      c.recorded.enter entry a (w.with []) =
        ((c.enter entry a w).1, (c.enter entry a w).2.with events) := by
  have h : Records w (c.recorded.enter entry a) (c.enter entry a) (Account entry c.conditions) := by
    cases entry with
    | invoke => exact c.invoke_records a w
    | call => exact c.call_records a w
    | tryInvoke => exact c.tryInvoke_records a w
  obtain ⟨events, haccount, hrun⟩ := h
  exact ⟨events, haccount, hrun []⟩

end Contract

end Covenant
