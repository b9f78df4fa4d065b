import Covenant.Proofs.Ledger
import Covenant.Proofs.Names
import Mathlib.Data.List.Forall2
import Mathlib.Data.List.Induction
import Mathlib.Data.List.TakeWhile

/-! What the arguments of a call have to do with it. They are bound to the parameters by position,
and the body reads them under these names; that is all that becomes of them. So two calls with
arguments that bind alike come to the same, and whether the body runs at all is settled before
there is a use for them. -/

namespace Covenant

/-! ### Binding -/

/-- Arguments that are the same in the positions of the parameters, where a missing one is null. -/
def AgreeOn (parameters : List String) (a b : List Value) : Prop :=
  ∀ i < parameters.length, b.getD i .null = a.getD i .null

theorem AgreeOn.refl (parameters : List String) (a : List Value) : AgreeOn parameters a a :=
  fun _ _ => rfl

/-- The last position of a name among parameters. -/
structure IsLastOf (parameters : List String) (name : String) (i : Nat) : Prop where
  here : parameters[i]? = some name
  notLater : ∀ j, i < j → parameters[j]? ≠ some name

section
variable (parameters : List String) (arguments : List Value)

theorem bind_append_singleton (name : String) :
    bind (parameters ++ [name]) arguments =
      (bind parameters arguments).insert name (arguments.getD parameters.length .null) := by
  simp only [bind, Fields.ofList, List.zipIdx_append, List.map_append, List.foldl_append]
  simp

end

section
variable {parameters : List String} {name : String}

theorem isLastOf_append_self : IsLastOf (parameters ++ [name]) name parameters.length := by
  refine ⟨by simp, fun j hj => ?_⟩
  rw [List.getElem?_eq_none (by rw [List.length_append, List.length_singleton]; omega)]
  nofun

theorem IsLastOf.append_of_ne {i : Nat} (h : IsLastOf parameters name i) {other : String}
    (hother : other ≠ name) : IsLastOf (parameters ++ [other]) name i := by
  have hlt : i < parameters.length := (List.getElem?_eq_some_iff.1 h.here).1
  refine ⟨by rw [List.getElem?_append_left hlt, h.here], fun j hj => ?_⟩
  rcases Nat.lt_or_ge j parameters.length with hj' | hj'
  · rw [List.getElem?_append_left hj']
    exact h.notLater j hj
  · rw [List.getElem?_append_right hj']
    cases j - parameters.length with
    | zero => exact fun h => hother (Option.some.inj h)
    | succ k => nofun

/-- A parameter is bound to the argument at its last position. -/
theorem exists_get?_bind (h : name ∈ parameters) (arguments : List Value) :
    ∃ i, IsLastOf parameters name i ∧
      Fields.get? name (bind parameters arguments) = some (arguments.getD i .null) := by
  -- from the end: the last parameter is written over those before it
  induction parameters using List.reverseRecOn with
  | nil => cases h
  | append_singleton parameters last ih =>
    rw [bind_append_singleton, Fields.get?_insert]
    by_cases hlast : last = name
    · subst hlast
      exact ⟨_, isLastOf_append_self, if_pos rfl⟩
    · have hmem : name ∈ parameters := by
        rcases List.mem_append.1 h with h | h
        · exact h
        · exact absurd (List.mem_singleton.1 h).symm hlast
      obtain ⟨i, hi, hget⟩ := ih hmem
      exact ⟨i, hi.append_of_ne hlast, by rw [if_neg hlast, hget]⟩

/-- The missing last argument replaces the first. -/
example : bind ["n", "m", "n"] [.integer 1, .integer 2] = [("m", .integer 2), ("n", .null)] := by
  with_unfolding_all rfl

theorem get?_bind_of_notMem (h : name ∉ parameters) (arguments : List Value) :
    Fields.get? name (bind parameters arguments) = none := by
  induction parameters using List.reverseRecOn with
  | nil => rfl
  | append_singleton parameters last ih =>
    rw [List.mem_append, not_or, List.mem_singleton] at h
    rw [bind_append_singleton, Fields.get?_insert, if_neg fun hlast => h.2 hlast.symm, ih h.1]

theorem bind_congr {a b : List Value} (h : AgreeOn parameters a b) :
    bind parameters b = bind parameters a := by
  induction parameters using List.reverseRecOn with
  | nil => rfl
  | append_singleton parameters last ih =>
    have hlength : (parameters ++ [last]).length = parameters.length + 1 := by simp
    rw [bind_append_singleton, bind_append_singleton,
      ih fun i hi => h i (hlength ▸ Nat.lt_succ_of_lt hi), h _ (hlength ▸ Nat.lt_succ_self _)]

end

/-! ### Calls -/

/-- Two calls come to the same. What their records have as arguments may differ. -/
structure Stage.Equates (s t : Stage) : Prop where
  events : direct t.events = direct s.events
  outcome : t.record.outcome = s.record.outcome
  changes : t.record.changes = s.record.changes
  state : t.after.state = s.after.state

/-- The steps of a call before its body. -/
def beforeBody {ε ρ : Type} (events : List (Event ε ρ)) : List (Event ε ρ) :=
  (direct events).takeWhile fun e => !e.isRun

namespace Compiled

variable (c : Compiled) {a b : List Value} {s : State} {w : World State}

/-- The arguments matter to a call as far as they matter to its body. -/
theorem reference_congr
    (h : c.body.run (bind c.parameters b) s = c.body.run (bind c.parameters a) s) :
    c.reference b s = c.reference a s := by
  simp only [reference, h]

theorem reference_of_agreeOn (h : AgreeOn c.parameters a b) :
    c.reference b s = c.reference a s := by
  refine c.reference_congr ?_
  rw [bind_congr h]

theorem reference_of_blocked {v : Violation}
    (h : c.violation? [.precondition, .invariant] s = some v) :
    c.reference b s = c.reference a s := by
  simp only [reference, h]

theorem stage_equates (mode : Mode) (index : Nat)
    (h : c.reference b w.state = c.reference a w.state) :
    (c.stage mode index a w).Equates (c.stage mode index b w) := by
  have ha := c.stage_refers mode index a w
  have hb := c.stage_refers mode index b w
  rw [h] at hb
  exact ⟨hb.events.trans ha.events.symm, hb.outcome.trans ha.outcome.symm,
    hb.changes.trans ha.changes.symm, hb.state.trans ha.state.symm⟩

/-- The tests before the body are those of the state, whatever the arguments are. -/
theorem beforeBody_reference (a : List Value) (s : State) :
    (c.reference a s).events.takeWhile (fun e => !e.isRun) =
      c.log s [.precondition, .invariant] := by
  have htests : ∀ e ∈ c.log s [.precondition, .invariant], (!e.isRun) = true := by
    intro e he
    obtain ⟨_, _, _, rfl⟩ := c.log_onlyTests _ s e he
    rfl
  have hran : ∀ (ending : Ending RunError Value) rest,
      (c.log s [.precondition, .invariant] ++ Event.ran ending :: rest).takeWhile
        (fun e => !e.isRun) = c.log s [.precondition, .invariant] := by
    intro ending rest
    rw [List.takeWhile_append_of_pos htests, List.takeWhile_cons_of_neg (by simp [Event.isRun]),
      List.append_nil]
  have hcourse := c.reference_course a s
  generalize c.reference a s = r at hcourse ⊢
  cases hcourse with
  | blocked => exact List.takeWhile_eq_self_iff.2 htests
  | failed | broken | returned => exact hran _ _

theorem exists_ran_iff (a : List Value) (s : State) :
    (∃ ending, .ran ending ∈ (c.reference a s).events) ↔
      c.violation? [.precondition, .invariant] s = none := by
  have hcourse := c.reference_course a s
  generalize c.reference a s = r at hcourse ⊢
  cases hcourse with
  | blocked before =>
    rw [before]
    exact ⟨fun ⟨ending, h⟩ => absurd h ((c.log_onlyTests _ _).ran_notMem ending), nofun⟩
  | failed before | broken before | returned before =>
    exact ⟨fun _ => before, fun _ => ⟨_, List.mem_append_right _ List.mem_cons_self⟩⟩

end Compiled

/-! ### Runs -/

/-- A record without what it says about the arguments. -/
def Record.withoutArguments (r : Record) : Record := { r with arguments := [] }

def Posting.withoutArguments (p : Posting) : Posting :=
  { p with record := p.record.withoutArguments }

def Report.withoutArguments (r : Report) : Report :=
  { r with calls := r.calls.map Record.withoutArguments }

namespace Compiled

variable (c : Compiled)

theorem summary_withoutArguments (s : State) (ps : List Posting) :
    (c.summary s ps).withoutArguments = c.summary s (ps.map Posting.withoutArguments) := by
  have hrecords : (ps.map Posting.withoutArguments).map Posting.record =
      (ps.map Posting.record).map Record.withoutArguments := by
    rw [List.map_map, List.map_map]
    rfl
  simp only [summary, Report.withoutArguments, c.halt?_map Posting.withoutArguments fun _ => rfl,
    Posting.last_map Posting.withoutArguments fun _ => rfl, hrecords]

theorem posting_withoutArguments {a b : List Value} (h : AgreeOn c.parameters a b) (index : Nat)
    (s : State) :
    (c.posting index b s).withoutArguments = (c.posting index a s).withoutArguments := by
  simp only [posting, c.reference_of_agreeOn h]
  rfl

/-- Calls with arguments that bind alike have the same ledger but for the arguments. -/
theorem map_ledger_withoutArguments {calls calls' : List (List Value)}
    (h : List.Forall₂ (AgreeOn c.parameters) calls calls') (index : Nat) (s : State) :
    (c.ledger index calls' s).map Posting.withoutArguments =
      (c.ledger index calls s).map Posting.withoutArguments := by
  induction h generalizing index s with
  | nil => rfl
  | @cons a b rest rest' hfirst _ ih =>
    have hposting := c.posting_withoutArguments hfirst index s
    have houtcome : (c.posting index b s).record.outcome = (c.posting index a s).record.outcome :=
      congrArg Reference.outcome (c.reference_of_agreeOn hfirst)
    have hstate : (c.posting index b s).state = (c.posting index a s).state :=
      congrArg Reference.state (c.reference_of_agreeOn hfirst)
    cases hstop : (c.posting index a s).record.outcome.stops? c.policy with
    | some error =>
      rw [c.ledger_cons_of_stop rest hstop,
        c.ledger_cons_of_stop rest' (by rw [houtcome, hstop]), List.map_singleton,
        List.map_singleton, hposting]
    | none =>
      rw [c.ledger_cons_of_next rest hstop,
        c.ledger_cons_of_next rest' (by rw [houtcome, hstop]), List.map_cons, List.map_cons,
        hposting, hstate, ih]

theorem requested_agree {calls calls' : List (List Value)}
    (h : List.Forall₂ (AgreeOn c.parameters) calls calls') (times : Nat) :
    List.Forall₂ (AgreeOn c.parameters) (c.requested calls times) (c.requested calls' times) := by
  rw [requested, requested]
  cases c.mode with
  | direct => exact h
  | deferred arguments delay => exact List.forall₂_same.2 fun a _ => .refl _ a

/-- Runs with arguments that bind alike are the same but for the arguments. -/
theorem run_withoutArguments {calls calls' : List (List Value)}
    (h : List.Forall₂ (AgreeOn c.parameters) calls calls') (times : Nat) (w : World State) :
    ∃ r r' after after', c.run calls times w = (.ok r, after) ∧
      c.run calls' times w = (.ok r', after') ∧ r'.withoutArguments = r.withoutArguments ∧
      after'.state = after.state := by
  obtain ⟨after, hrun, hafter⟩ := c.run_summary calls times w
  obtain ⟨after', hrun', hafter'⟩ := c.run_summary calls' times w
  have hledger := c.map_ledger_withoutArguments (c.requested_agree h times) 0 w.state
  refine ⟨_, _, after, after', hrun, hrun', ?_, ?_⟩
  · rw [summary_withoutArguments, summary_withoutArguments, hledger]
  · have hlast := Posting.last_map Posting.withoutArguments fun _ => rfl
    rw [hafter', hafter, ← hlast, hledger, hlast]

end Compiled

/-- What is true of the arguments of calls on a contract that start in the world `w`. -/
structure Compiled.Binds (c : Compiled) (w : World State) : Prop where
  /-- A parameter stands for the argument at its last position, or for null if none is there, and
  hides the field of its name. -/
  parameter : ∀ arguments, ∀ name ∈ c.parameters, ∃ i, IsLastOf c.parameters name i ∧
    ∀ s, Expr.lookup (bind c.parameters arguments) s name = .ok (arguments.getD i .null)
  field : ∀ arguments, ∀ name ∉ c.parameters, ∀ s,
    Expr.lookup (bind c.parameters arguments) s name = Expr.lookup [] s name
  /-- Arguments that are the same in the positions of the parameters are the same to a call. -/
  alike : ∀ mode index a b, AgreeOn c.parameters a b →
    (c.stage mode index a w).Equates (c.stage mode index b w)
  /-- The tests before the body are the same for all arguments, and so is what they decide. -/
  verdict : ∀ mode index a b,
    beforeBody (c.stage mode index b w).events = beforeBody (c.stage mode index a w).events ∧
    ((∃ ending, .ran ending ∈ (c.stage mode index b w).events) ↔
      ∃ ending, .ran ending ∈ (c.stage mode index a w).events)
  /-- If they keep the body from running, the arguments make no difference at all. -/
  blocked : ∀ mode index a b, (∀ ending, .ran ending ∉ (c.stage mode index a w).events) →
    (∃ v, (c.stage mode index a w).record.outcome = .violated v) ∧
      (c.stage mode index a w).after.state = w.state ∧
      (c.stage mode index a w).Equates (c.stage mode index b w)
  /-- If the body takes both for the same, they are the same to the call. -/
  body : ∀ mode index a b,
    c.body.run (bind c.parameters b) w.state = c.body.run (bind c.parameters a) w.state →
    (c.stage mode index a w).Equates (c.stage mode index b w)
  runs : ∀ calls calls' times, List.Forall₂ (AgreeOn c.parameters) calls calls' →
    ∃ r r' after after', c.run calls times w = (.ok r, after) ∧
      c.run calls' times w = (.ok r', after') ∧ r'.withoutArguments = r.withoutArguments ∧
      after'.state = after.state

namespace Compiled

variable (c : Compiled)

theorem ran_mem_direct_iff {events : List (Event RunError Value)} {ending : Ending RunError Value} :
    .ran ending ∈ direct events ↔ .ran ending ∈ events := by
  rw [direct, List.mem_filter]
  exact and_iff_left rfl

/-- The body of a call runs exactly if the tests before it find nothing. -/
theorem exists_ran_stage_iff (mode : Mode) (index : Nat) (a : List Value) (w : World State) :
    (∃ ending, .ran ending ∈ (c.stage mode index a w).events) ↔
      c.violation? [.precondition, .invariant] w.state = none := by
  rw [← c.exists_ran_iff a, ← (c.stage_refers mode index a w).events]
  exact exists_congr fun ending => ran_mem_direct_iff.symm

/-- Arguments have a part in a call only through its body, which reads them by position under the
names of the parameters. -/
theorem call_binds (w : World State) : c.Binds w where
  parameter arguments name hname := by
    obtain ⟨i, hi, hget⟩ := exists_get?_bind hname arguments
    refine ⟨i, hi, fun s => ?_⟩
    rw [Expr.lookup, hget]
  field arguments name hname s := by
    rw [Expr.lookup_eq, Expr.lookup_eq, get?_bind_of_notMem hname]
    rfl
  alike mode index a b h := c.stage_equates mode index (c.reference_of_agreeOn h)
  verdict mode index a b := by
    constructor
    · rw [beforeBody, beforeBody, (c.stage_refers mode index a w).events,
        (c.stage_refers mode index b w).events, beforeBody_reference, beforeBody_reference]
    · rw [exists_ran_stage_iff, exists_ran_stage_iff]
  blocked mode index a b h := by
    have hviolation : c.violation? [.precondition, .invariant] w.state ≠ none := by
      rw [Ne, ← c.exists_ran_stage_iff mode index a]
      exact fun ⟨ending, hran⟩ => h ending hran
    obtain ⟨v, hv⟩ := Option.ne_none_iff_exists'.1 hviolation
    have hreference : c.reference a w.state =
        ⟨c.log w.state [.precondition, .invariant], .violated v, w.state⟩ := by
      simp only [reference, hv]
    have hrefers := c.stage_refers mode index a w
    rw [hreference] at hrefers
    exact ⟨⟨v, hrefers.outcome⟩, hrefers.state, c.stage_equates mode index
      (c.reference_of_blocked hv)⟩
  body mode index a b h := c.stage_equates mode index (c.reference_congr h)
  runs calls calls' times h := c.run_withoutArguments h times w

end Compiled

end Covenant
