import Covenant.Proofs.Assignments
import Covenant.Proofs.Comparisons

/-! Where the changes in the records of a run come from. They are found by comparing, and what
holds a NaN is not even the same as itself. So a call lists fields that it has assigned, and
besides these all fields with a NaN that it has left as they were. Without a NaN in the state
every change is owed to an assignment, and a call that assigns nothing lists nothing. -/

namespace Covenant

/-! ### Values that are not the same as themselves -/

theorem Binary64.beq_self (x : Float) : (x == x) = !x.isNaN := by
  rw [Bool.eq_iff_iff, beq_iff, Bool.not_eq_true']
  cases h : order? x x with
  | none =>
    have hnan : x.isNaN = true := or_self_iff.1 (order?_eq_none_iff.1 h)
    rw [hnan]
    simp
  | some o =>
    have hnumber : x.isNaN = false := by
      rw [Bool.eq_false_iff]
      intro hnan
      rw [order?_eq_none_iff.2 (.inl hnan)] at h
      cases h
    have hswap := order?_swap x x
    rw [h] at hswap
    cases o with
    | eq => exact iff_of_true rfl hnumber
    | lt | gt => cases hswap

namespace Value

mutual

/-- Whether there is a float in the value that is no number. -/
def hasNaN : Value → Bool
  | float x => x.isNaN
  | array items => itemsHaveNaN items
  | object fields => fieldsHaveNaN fields
  | _ => false

def itemsHaveNaN : List Value → Bool
  | [] => false
  | v :: rest => hasNaN v || itemsHaveNaN rest

def fieldsHaveNaN : List (String × Value) → Bool
  | [] => false
  | (_, v) :: rest => hasNaN v || fieldsHaveNaN rest

end

mutual

theorem same_self (v : Value) : v.same v = !v.hasNaN := by
  cases v with
  | null => rfl
  | boolean | integer | string => simp [same, hasNaN]
  | float x => exact Binary64.beq_self x
  | array items => exact sameItems_self items
  | object fields => exact sameFields_self fields

theorem sameItems_self (items : List Value) : sameItems items items = !itemsHaveNaN items := by
  match items with
  | [] => rfl
  | v :: rest => rw [sameItems, itemsHaveNaN, same_self v, sameItems_self rest, Bool.not_or]

theorem sameFields_self (fields : List (String × Value)) :
    sameFields fields fields = !fieldsHaveNaN fields := by
  match fields with
  | [] => rfl
  | (name, v) :: rest =>
    rw [sameFields, fieldsHaveNaN, same_self v, sameFields_self rest, Bool.not_or, beq_self_eq_true,
      Bool.true_and]

end

end Value

namespace State

/-- The changes that are found where nothing was changed: one for each field with a NaN. -/
def unequal (s : State) : List Change :=
  s.fields.filterMap fun field =>
    if field.2.hasNaN then some ⟨field.1, field.2, field.2⟩ else none

theorem changes_self {s : State} (h : s.Ordered) : s.changes s = s.unequal := by
  have hget : ∀ pair ∈ s.fields, Fields.get? pair.1 s.fields = some pair.2 :=
    fun _ hpair => (Fields.get?_eq_some_iff h).2 hpair
  have hupdates : s.fields.filterMap (Change.ofField? s.fields) = s.unequal := by
    refine List.filterMap_congr fun pair hpair => ?_
    rw [Change.ofField?, hget pair hpair]
    simp only [Value.same_self]
    cases pair.2.hasNaN <;> rfl
  have hadditions : s.fields.filterMap (Change.ofNewField? s.fields) = [] := by
    refine List.filterMap_eq_nil_iff.2 fun pair hpair => ?_
    rw [Change.ofNewField?, hget pair hpair]
  rw [changes, hupdates, hadditions, List.append_nil]

/-- A field that has kept its value is listed exactly if there is a NaN in the value. -/
theorem mem_changes_of_kept {before after : State} (hbefore : before.Ordered)
    (hafter : after.Ordered) (hkeeps : before.Keeps after) {change : Change}
    (hkept : after.get? change.field = before.get? change.field) :
    change ∈ before.changes after ↔ before.get? change.field = some change.old ∧
      change.new = change.old ∧ change.old.hasNaN = true := by
  rw [changes, List.mem_append, mem_updates_iff hbefore hkeeps, mem_additions_iff hafter, hkept]
  constructor
  · rintro (⟨hold, hnew, hsame⟩ | ⟨hnone, -, hnew⟩)
    · have heq : change.new = change.old := Option.some.inj (hnew.symm.trans hold)
      rw [heq, Value.same_self, Bool.not_eq_false'] at hsame
      exact ⟨hold, heq, hsame⟩
    · rw [hnone] at hnew
      cases hnew
  · rintro ⟨hold, heq, hnan⟩
    refine .inl ⟨hold, heq ▸ hold, ?_⟩
    rw [heq, Value.same_self, hnan, Bool.not_true]

end State

/-! ### Assignments that are made -/

namespace Program

variable {locals : Bag} {p before after : Program} {s s' : State}

/-- In a run of the program a statement is reached that assigns the field, and its expression has
a value there. -/
def Assigns (locals : Bag) (p : Program) (s : State) (name : String) : Prop :=
  ∃ before e after u t v, p = before ++ .assign name e :: after ∧
    run locals before s = (.ok u, t) ∧ e.eval locals t = .ok v

theorem exists_run_of_append {v : Value} (h : run locals (before ++ after) s = (.ok v, s')) :
    ∃ u t, run locals before s = (.ok u, t) := by
  rw [run, runFrom_append, ← run] at h
  rcases hbefore : run locals before s with ⟨e | u, t⟩
  · rw [hbefore] at h
    cases h
  · exact ⟨u, t, rfl⟩

theorem get?_run_of_not_assigns {name : String} (h : ¬Assigns locals p s name) :
    (run locals p s).2.get? name = s.get? name := by
  obtain ⟨done, rest, heffect⟩ := run_effect locals p s
  refine heffect.unassigned name fun hname => h ?_
  obtain ⟨before, e, after, v, rfl, -, heval, -⟩ := heffect.written name hname
  obtain ⟨w, hdone⟩ := heffect.complete
  obtain ⟨u, t, hbefore⟩ := exists_run_of_append hdone
  rw [hbefore] at heval
  exact ⟨before, e, after ++ rest, u, t, v, by simp [heffect.parts], hbefore, heval⟩

end Program

namespace Compiled

variable (c : Compiled)

/-- The call ran the body, and a statement of the body assigned the field. -/
def Assigned (s : Stage) (name : String) : Prop :=
  (∃ ending, .ran ending ∈ s.events) ∧
    c.body.Assigns (bind c.parameters s.record.arguments) s.before.state name

/-- What is listed as changes by the call `s`. -/
structure Attributed (s : Stage) : Prop where
  /-- Each change is one of a field that the call assigned, or none: the field has kept a value
  with a NaN in it. -/
  listed : ∀ change ∈ s.record.changes, c.Assigned s change.field ∨
    change.new = change.old ∧ change.old.hasNaN = true ∧
      s.before.state.get? change.field = some change.old
  /-- A field that the call did not assign is left as it is, and is listed exactly if there is a
  NaN in it. -/
  unassigned : ∀ change : Change, ¬c.Assigned s change.field →
    s.after.state.get? change.field = s.before.state.get? change.field ∧
      (change ∈ s.record.changes ↔ s.before.state.get? change.field = some change.old ∧
        change.new = change.old ∧ change.old.hasNaN = true)
  /-- The call assigned all that it lists exactly if it assigned the fields that had a NaN. -/
  owed_iff : (∀ change ∈ s.record.changes, c.Assigned s change.field) ↔
    ∀ name v, s.before.state.get? name = some v → v.hasNaN = true → c.Assigned s name
  /-- A call that assigns nothing lists the fields with a NaN. -/
  idle : (∀ name, ¬c.Assigned s name) → s.after.state = s.before.state ∧
    s.record.changes = s.before.state.unequal
  /-- A call that a condition before the body blocks is one that assigns nothing. -/
  blocked : ∀ v, c.violation? [.precondition, .invariant] s.before.state = some v →
    s.record.outcome = .violated v ∧ ∀ name, ¬c.Assigned s name

section
variable {c} {s : Stage} (h : s.Refers (c.reference s.record.arguments s.before.state))
include h

theorem get?_of_not_assigned {name : String} (hname : ¬c.Assigned s name) :
    s.after.state.get? name = s.before.state.get? name := by
  have hran : ∀ {ending}, .ran ending ∈ (c.reference s.record.arguments s.before.state).events →
      (c.body.run (bind c.parameters s.record.arguments) s.before.state).2.get? name =
        s.before.state.get? name := by
    intro ending hending
    rw [← h.events] at hending
    apply Program.get?_run_of_not_assigns
    exact fun hassigns => hname ⟨⟨ending, List.mem_of_mem_filter hending⟩, hassigns⟩
  rw [h.state]
  have hcourse := c.reference_course s.record.arguments s.before.state
  generalize c.reference s.record.arguments s.before.state = r at hran hcourse ⊢
  cases hcourse with
  | blocked => rfl
  | failed _ body | broken _ body | returned _ body =>
    have hkept := hran (List.mem_append_right _ List.mem_cons_self)
    rwa [body] at hkept

theorem not_assigned_of_blocked {v : Violation}
    (hv : c.violation? [.precondition, .invariant] s.before.state = some v) :
    s.record.outcome = .violated v ∧ ∀ name, ¬c.Assigned s name := by
  have hreference : c.reference s.record.arguments s.before.state =
      ⟨c.log s.before.state [.precondition, .invariant], .violated v, s.before.state⟩ := by
    rw [reference, hv]
  rw [hreference] at h
  refine ⟨h.outcome, ?_⟩
  rintro name ⟨⟨ending, hending⟩, -⟩
  have hdirect : .ran ending ∈ direct s.events := List.mem_filter.2 ⟨hending, rfl⟩
  rw [h.events] at hdirect
  exact (c.log_onlyTests _ s.before.state).ran_notMem ending hdirect

theorem attributed (hbefore : s.before.state.Ordered) (hafter : s.after.state.Ordered)
    (hkeeps : s.before.state.Keeps s.after.state) : c.Attributed s := by
  have hchanges : s.record.changes = s.before.state.changes s.after.state := by
    rw [h.changes, h.state]
  have hunassigned : ∀ change : Change, ¬c.Assigned s change.field →
      s.after.state.get? change.field = s.before.state.get? change.field ∧
        (change ∈ s.record.changes ↔ s.before.state.get? change.field = some change.old ∧
          change.new = change.old ∧ change.old.hasNaN = true) := by
    intro change hchange
    have hkept := get?_of_not_assigned h hchange
    rw [hchanges]
    exact ⟨hkept, State.mem_changes_of_kept hbefore hafter hkeeps hkept⟩
  constructor
  case unassigned => exact hunassigned
  case listed =>
    intro change hchange
    by_cases hassigned : c.Assigned s change.field
    · exact .inl hassigned
    · obtain ⟨hold, hnew, hnan⟩ := (hunassigned change hassigned).2.1 hchange
      exact .inr ⟨hnew, hnan, hold⟩
  case owed_iff =>
    constructor
    · intro howed name v hv hnan
      by_contra hname
      exact hname (howed ⟨name, v, v⟩ ((hunassigned ⟨name, v, v⟩ hname).2.2 ⟨hv, rfl, hnan⟩))
    · intro hnans change hchange
      by_contra hname
      obtain ⟨hold, -, hnan⟩ := (hunassigned change hname).2.1 hchange
      exact hname (hnans change.field change.old hold hnan)
  case idle =>
    intro hidle
    have hstate : s.after.state = s.before.state := by
      have hfields := Fields.Ordered.eq_of_get? hafter hbefore
        fun name => get?_of_not_assigned h (hidle name)
      exact congrArg State.mk hfields
    rw [hchanges, hstate]
    exact ⟨rfl, State.changes_self hbefore⟩
  case blocked => exact fun v hv => not_assigned_of_blocked h hv

end

/-- Every change in the records of a run is owed to an assignment of its call, but for the fields
with a NaN: these are listed by each call that leaves them as they are. -/
theorem run_attributed (c : Compiled) (calls : List (List Value)) (times : Nat)
    (w : World State) (hw : w.state.Ordered) : ∃ r after, c.run calls times w = (.ok r, after) ∧
      r.calls = (c.history calls times w).map Stage.record ∧ after.state.Ordered ∧
      ∀ s ∈ c.history calls times w, c.Attributed s := by
  have hopened : (c.opened calls times w).state.Ordered := by rwa [c.opened_state]
  refine ⟨_, _, c.run_eq calls times w, rfl, ?_, ?_⟩
  · have hlast := @ordered_last c c.mode 0 (c.requested calls times) _ hopened
      (c.history calls times w).length
    rwa [history, List.take_length] at hlast
  · intro s hs
    obtain ⟨k, hk⟩ := List.mem_iff_getElem?.1 hs
    have hbefore := c.ordered_before c.mode hopened hk
    exact attributed (c.refers_of_mem c.mode hs) hbefore (c.ordered_after c.mode hs hbefore)
      (c.keeps_after c.mode hs)

/-- The counter is counted by assignments, and by nothing else. -/
theorem run_attributed_counter : Manifest.compiledCounter.start.state.Ordered ∧
    ∃ r after, Manifest.compiledCounter.run [[.integer 1], [.integer 1]] 0
        Manifest.compiledCounter.start = (.ok r, after) ∧
      r.calls.map Record.changes =
        [[⟨"n", .integer 0, .integer 1⟩], [⟨"n", .integer 1, .integer 2⟩]] ∧
      ∀ s ∈ Manifest.compiledCounter.history [[.integer 1], [.integer 1]] 0
          Manifest.compiledCounter.start,
        ∀ change ∈ s.record.changes, Manifest.compiledCounter.Assigned s change.field := by
  have hstart : Manifest.compiledCounter.start.state.Ordered := List.pairwise_singleton _ _
  obtain ⟨r, after, hrun, hrecords, -, hattributed⟩ :=
    run_attributed _ [[.integer 1], [.integer 1]] 0 _ hstart
  have hchanges : (Manifest.compiledCounter.run [[.integer 1], [.integer 1]] 0
      Manifest.compiledCounter.start).1.map (fun r => r.calls.map Record.changes) =
      .ok [[⟨"n", .integer 0, .integer 1⟩], [⟨"n", .integer 1, .integer 2⟩]] := by
    with_unfolding_all rfl
  rw [hrun] at hchanges
  have hlists : r.calls.map Record.changes =
      [[⟨"n", .integer 0, .integer 1⟩], [⟨"n", .integer 1, .integer 2⟩]] := Except.ok.inj hchanges
  refine ⟨hstart, r, after, hrun, hlists, fun s hs change hchange => ?_⟩
  have hmem : s.record.changes ∈ r.calls.map Record.changes := by
    rw [hrecords]
    exact List.mem_map_of_mem (List.mem_map_of_mem hs)
  apply ((hattributed s hs).listed change hchange).resolve_right
  rintro ⟨hkept, -⟩
  rw [hlists, List.mem_cons, List.mem_singleton] at hmem
  rcases hmem with hmem | hmem <;> rw [hmem, List.mem_singleton] at hchange <;>
    subst hchange <;> cases hkept

end Compiled

namespace Manifest

/-- The body takes an infinity from itself, once. -/
def vanishing : Manifest where
  name := ""
  state := .object [("a", .float 1e200), ("x", .integer 0)]
  outline :=
    { target := .string "x=a*a-a*a"
      lists :=
        { preconditions := .array [.array [.string "x==0"]]
          postconditions := .array []
          invariants := .array [] } }
  shape := .plain
  policy := .raise
  deferred := false
  deferredArguments := .null
  delay := 0

def compiledVanishing : Compiled where
  name := ""
  fingerprint := vanishing.fingerprint
  policy := .raise
  initial := ⟨[("a", .float 1e200), ("x", .integer 0)]⟩
  parameters := []
  body :=
    let square := .binary (.arithmetic .mul) (.name "a") (.name "a")
    [.assign "x" (.binary (.arithmetic .sub) square square)]
  tests :=
    { preconditions := [⟨.binary .equal (.name "x") (.literal (.integer 0)), none, none⟩]
      postconditions := []
      invariants := [] }
  mode := .direct

theorem compile_vanishing : vanishing.compile = .ok compiledVanishing := by
  have hzero : Expr.parse "x==0" = .ok (.binary .equal (.name "x") (.literal (.integer 0))) := by
    with_unfolding_all rfl
  have htokens : Expr.tokenize "x=a*a-a*a" = .ok [⟨.word "x", 0⟩, ⟨.assign, 1⟩, ⟨.word "a", 2⟩,
      ⟨.star, 3⟩, ⟨.word "a", 4⟩, ⟨.minus, 5⟩, ⟨.word "a", 6⟩, ⟨.star, 7⟩, ⟨.word "a", 8⟩,
      ⟨.eof, 9⟩] := by
    with_unfolding_all rfl
  have hbody : Program.parse "x=a*a-a*a" = .ok compiledVanishing.body := by
    rw [Program.parse, htokens]
    with_unfolding_all rfl
  refine compile_eq_ok_iff.2 ⟨⟨.absent, ⟨"x=a*a-a*a", rfl, hbody⟩, fun kind => ?_⟩,
    rfl, rfl, rfl, rfl, rfl⟩
  cases kind with
  | precondition => exact ⟨_, rfl, .cons (.plain rfl hzero) .nil⟩
  | invariant | postcondition => exact ⟨_, rfl, .nil⟩

/-- The second call is blocked, and still lists a change. -/
theorem vanishing_listed_when_blocked : vanishing.compile = .ok compiledVanishing ∧
    ∃ s v, (compiledVanishing.history [[], []] 0 compiledVanishing.start)[1]? = some s ∧
      compiledVanishing.violation? [.precondition, .invariant] s.before.state = some v ∧
      (∀ name, ¬compiledVanishing.Assigned s name) ∧
      s.record.changes.map Change.field = ["x"] := by
  have hsecond : ((compiledVanishing.history [[], []] 0 compiledVanishing.start)[1]?.map fun s =>
      ((compiledVanishing.violation? [.precondition, .invariant] s.before.state).isSome,
        s.record.changes.map Change.field)) = some (true, ["x"]) := by
    decide +kernel
  obtain ⟨s, hs, heq⟩ := Option.map_eq_some_iff.1 hsecond
  obtain ⟨hblocked, hchanges⟩ := Prod.mk.inj heq
  obtain ⟨v, hv⟩ := Option.isSome_iff_exists.1 hblocked
  have hrefers := compiledVanishing.refers_of_mem _ (List.mem_of_getElem? hs)
  obtain ⟨-, hassigned⟩ := Compiled.not_assigned_of_blocked hrefers hv
  exact ⟨compile_vanishing, s, v, hs, hv, hassigned, hchanges⟩

end Manifest

end Covenant
