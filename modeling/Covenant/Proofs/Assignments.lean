import Covenant.Proofs.Changes
import Covenant.Proofs.Concatenation
import Covenant.Proofs.Names

/-! What a run of a program does to the state. Its statements complete one after another up to
the first that fails, and those that complete make the state: a field has the value of the last
assignment to it, or is as it was before the run. Local values are not written, and hide what is
assigned under their names. -/

namespace Covenant

/-! ### One statement -/

namespace Statement

/-- The field that a statement assigns. -/
def field? : Statement → Option String
  | assign field _ => some field
  | expr _ => none

/-- The state after a statement whose value is `v`. -/
def write (v : Value) (s : State) : Statement → State
  | assign field _ => s.set field v
  | expr _ => s

theorem get?_write (stmt : Statement) (v : Value) (s : State) (name : String) :
    (stmt.write v s).get? name = if stmt.field? = some name then some v else s.get? name := by
  cases stmt with
  | assign field e => simp only [write, field?, State.get?_set, Option.some.injEq]
  | expr e => simp [write, field?]

/-- A statement completes if its expression has a value, and then writes it. -/
theorem run_eq_ok_iff {locals : Bag} {s s' : State} {stmt : Statement} {v : Value} :
    stmt.run locals s = .ok (v, s') ↔ stmt.tree.eval locals s = .ok v ∧ s' = stmt.write v s := by
  have hrun : stmt.run locals s = do
      let w ← stmt.tree.eval locals s
      return (w, stmt.write w s) := by
    cases stmt <;> rfl
  rw [hrun]
  cases stmt.tree.eval locals s with
  | error e => simp
  | ok w =>
    change Except.ok (w, stmt.write w s) = Except.ok (v, s') ↔ _
    simp only [Except.ok.injEq, Prod.mk.injEq]
    constructor
    · rintro ⟨rfl, rfl⟩
      exact ⟨rfl, rfl⟩
    · rintro ⟨rfl, rfl⟩
      exact ⟨rfl, rfl⟩

end Statement

namespace Program

/-- The fields that the statements of a program assign. -/
def assigned (p : Program) : List String := p.filterMap Statement.field?

section
variable {locals : Bag} {p before after done : Program} {stmt : Statement} {s s' : State}

theorem mem_assigned_cons {name : String} :
    name ∈ assigned (stmt :: p) ↔ stmt.field? = some name ∨ name ∈ assigned p := by
  unfold assigned
  cases h : stmt.field? with
  | none => simp [h]
  | some field => simp [h, eq_comm]

theorem exists_last_assignment {name : String} (h : name ∈ assigned p) :
    ∃ before e after, p = before ++ .assign name e :: after ∧ name ∉ assigned after := by
  induction p with
  | nil => cases h
  | cons stmt rest ih =>
    by_cases hrest : name ∈ assigned rest
    · obtain ⟨before, e, after, rfl, hafter⟩ := ih hrest
      exact ⟨stmt :: before, e, after, rfl, hafter⟩
    · have hstmt := (mem_assigned_cons.1 h).resolve_right hrest
      cases stmt with
      | expr e => cases hstmt
      | assign field e =>
        cases hstmt
        exact ⟨[], e, rest, rfl, hrest⟩

/-- A field that no statement assigns is left as it is. -/
theorem get?_runFrom_of_notMem {name : String} (h : name ∉ assigned p) (locals : Bag)
    (last : Value) (s : State) : (runFrom locals last p s).2.get? name = s.get? name := by
  induction p generalizing last s with
  | nil => rfl
  | cons stmt rest ih =>
    rw [mem_assigned_cons, not_or] at h
    obtain ⟨hstmt, hrest⟩ := h
    rw [runFrom]
    cases hrun : stmt.run locals s with
    | error e => rfl
    | ok r =>
      obtain ⟨-, hwrite⟩ := Statement.run_eq_ok_iff.1 hrun
      simp only [ih hrest, hwrite, Statement.get?_write, if_neg hstmt]

/-! ### The statements that complete -/

/-- Where a program runs through, each statement completes on the state that those before it
leave. -/
theorem exists_of_run_eq_ok {v : Value}
    (h : run locals (before ++ stmt :: after) s = (.ok v, s')) :
    ∃ w t, stmt.run locals (run locals before s).2 = .ok (w, t) ∧
      runFrom locals w after t = (.ok v, s') := by
  rw [run, runFrom_append, ← run] at h
  rcases hbefore : run locals before s with ⟨e | u, s₁⟩
  · rw [hbefore] at h
    cases h
  · rw [hbefore] at h
    simp only [runFrom] at h
    cases hstmt : stmt.run locals s₁ with
    | error e =>
      rw [hstmt] at h
      cases h
    | ok r =>
      rw [hstmt] at h
      exact ⟨r.1, r.2, rfl, h⟩

/-- The last assignment to a field gives it its value. -/
theorem eval_of_last_assignment {name : String} {e : Expr} {v : Value}
    (h : run locals (before ++ .assign name e :: after) s = (.ok v, s'))
    (hlast : name ∉ assigned after) :
    ∃ w, e.eval locals (run locals before s).2 = .ok w ∧ s'.get? name = some w := by
  obtain ⟨w, t, hstmt, hafter⟩ := exists_of_run_eq_ok h
  obtain ⟨heval, rfl⟩ := Statement.run_eq_ok_iff.1 hstmt
  refine ⟨w, heval, ?_⟩
  have hkept := get?_runFrom_of_notMem hlast locals w
    ((Statement.assign name e).write w (run locals before s).2)
  rw [hafter, Statement.get?_write] at hkept
  exact hkept.trans (if_pos rfl)

/-- A statement that fails ends the run, whatever comes after it. -/
theorem run_append_of_error {v : Value} {e : RunError} (hdone : run locals done s = (.ok v, s'))
    (hstmt : stmt.run locals s' = .error e) (later : Program) :
    run locals (done ++ stmt :: later) s = (.error e, s') := by
  rw [run, runFrom_append, ← run, hdone]
  simp only [runFrom, hstmt]

/-- A program is cut in two where it stops: what is done runs through, and what is left, if
anything, begins with a statement that fails. -/
theorem exists_done (locals : Bag) (p : Program) (s : State) :
    ∃ done rest v, p = done ++ rest ∧ run locals done s = (.ok v, (run locals p s).2) ∧
      ∀ stmt later, rest = stmt :: later →
        ∃ e, stmt.run locals (run locals p s).2 = .error e := by
  rcases hrun : run locals p s with ⟨e | v, s'⟩
  · obtain ⟨done, failing, rest, v, rfl, hdone, hfailing⟩ := exists_of_runFrom_eq_error hrun
    refine ⟨done, failing :: rest, v, rfl, hdone, ?_⟩
    rintro _ _ ⟨⟩
    exact ⟨e, hfailing⟩
  · refine ⟨p, [], v, (List.append_nil p).symm, hrun, ?_⟩
    rintro _ _ ⟨⟩

end

/-- What a program does to the state `s`, where the statements `done` complete and `rest` is left
of the program. -/
structure Effect (locals : Bag) (p : Program) (s : State) (done rest : Program) : Prop where
  parts : p = done ++ rest
  /-- The statements that complete make the state. -/
  complete : ∃ v, run locals done s = (.ok v, (run locals p s).2)
  /-- What is left begins with a statement that fails on this state. It leaves the state as it
  is, and what comes after it does not matter. -/
  stopped : ∀ stmt later, rest = stmt :: later →
    ∃ e, stmt.run locals (run locals p s).2 = .error e ∧
      ∀ other, run locals (done ++ stmt :: other) s = (.error e, (run locals p s).2)
  /-- No longer part of the program runs through. -/
  longest : ∀ before after v s', p = before ++ after → run locals before s = (.ok v, s') →
    before <+: done
  /-- No field is removed. -/
  kept : s.Keeps (run locals p s).2
  unassigned : ∀ name, name ∉ assigned done → (run locals p s).2.get? name = s.get? name
  /-- A field that is assigned has what its last assignment wrote, the value of an expression on
  the state of that moment. -/
  written : ∀ name ∈ assigned done, ∃ before e after v,
    done = before ++ .assign name e :: after ∧ name ∉ assigned after ∧
      e.eval locals (run locals before s).2 = .ok v ∧ (run locals p s).2.get? name = some v
  /-- Before each statement a local name stands for its local value, and no expression sees what
  is or would be written under that name. -/
  hidden : ∀ before after, p = before ++ after → ∀ name v, locals.get? name = some v →
    (Expr.name name).eval locals (run locals before s).2 = .ok v ∧
      ∀ (e : Expr) w, e.eval locals ((run locals before s).2.set name w) =
        e.eval locals (run locals before s).2

/-- Every run of a program does to the state what the statements do that complete. -/
theorem run_effect (locals : Bag) (p : Program) (s : State) :
    ∃ done rest, Effect locals p s done rest := by
  obtain ⟨done, rest, v, rfl, hdone, hrest⟩ := exists_done locals p s
  have hstopped : ∀ stmt later, rest = stmt :: later →
      ∃ e, stmt.run locals (run locals (done ++ rest) s).2 = .error e ∧
        ∀ other, run locals (done ++ stmt :: other) s =
          (.error e, (run locals (done ++ rest) s).2) := by
    intro stmt later hcons
    obtain ⟨e, he⟩ := hrest stmt later hcons
    exact ⟨e, he, run_append_of_error hdone he⟩
  refine ⟨done, rest, rfl, ⟨v, hdone⟩, hstopped, ?longest, ?kept, ?unassigned, ?written, ?hidden⟩
  case longest =>
    intro before after u s' hparts hbefore
    rcases List.append_eq_append_iff.1 hparts with ⟨more, rfl, hmore⟩ | ⟨less, rfl, -⟩
    · cases more with
      | nil => rw [List.append_nil]
      | cons stmt more =>
        obtain ⟨e, -, hother⟩ := hstopped stmt (more ++ after) hmore
        rw [hother more] at hbefore
        cases hbefore
    · exact List.prefix_append _ _
  case kept =>
    exact run_induction (fun _ name v h => h.set name v) locals (done ++ rest) (.refl s)
  case unassigned =>
    intro name hname
    have hsame := get?_runFrom_of_notMem hname locals .null s
    rwa [← run, hdone] at hsame
  case written =>
    intro name hname
    obtain ⟨before, e, after, rfl, hlast⟩ := exists_last_assignment hname
    obtain ⟨w, heval, hget⟩ := eval_of_last_assignment hdone hlast
    exact ⟨before, e, after, w, rfl, hlast, heval, hget⟩
  case hidden =>
    intro before after _ name w hname
    refine ⟨?_, fun e _ => Expr.eval_set_of_local hname _ e _⟩
    change Expr.lookup locals _ name = _
    rw [Expr.lookup, hname]

/-- `n = 1; m = n; m = n / 0; n = 2` where `n` is 7 as a local value. -/
example : run [("n", .integer 7)]
    [.assign "n" (.literal (.integer 1)), .assign "m" (.name "n"),
      .assign "m" (.binary (.arithmetic .div) (.name "n") (.literal (.integer 0))),
      .assign "n" (.literal (.integer 2))] ⟨[("n", .integer 0)]⟩ =
    (.error .divisionByZero, ⟨[("m", .integer 7), ("n", .integer 1)]⟩) := by
  with_unfolding_all rfl

end Program

end Covenant
