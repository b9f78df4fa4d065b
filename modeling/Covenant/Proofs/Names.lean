import Covenant.Expr.Eval

/-! What an expression reads. It reads the values that its names stand for and nothing else, so
it does not matter which of them are local and which are fields. Not every name need be read,
because a connective may be settled by its left side; still, an expression that has a value keeps
it when fields are added. -/

namespace Covenant

namespace State

/-- The state with local values written over its fields. -/
def overriddenBy (s : State) (locals : Bag) : State :=
  locals.foldr (fun field s => s.set field.1 field.2) s

theorem get?_overriddenBy (s : State) (locals : Bag) (x : String) :
    (s.overriddenBy locals).get? x = (locals.get? x).or (s.get? x) := by
  induction locals with
  | nil => rfl
  | cons field rest ih =>
    obtain ⟨key, v⟩ := field
    change ((overriddenBy s rest).set key v).get? x = _
    rw [get?_set, ih, Fields.get?_cons]
    split <;> rfl

/-- The one state has the fields of the other, with the same values, and perhaps more. -/
def Extends (larger s : State) : Prop :=
  ∀ x v, s.get? x = some v → larger.get? x = some v

end State

namespace Expr

/-- The names that occur in an expression. -/
def names : Expr → List String
  | literal _ => []
  | name x => [x]
  | unary _ e => e.names
  | binary _ l r => l.names ++ r.names
  | test e _ _ => e.names

/-- The second result is the same as the first, unless the first is one of the errors `E`. -/
def Upheld (E : RunError → Prop) {α : Type} (r r' : Result α) : Prop :=
  r' = r ∨ ∃ e, E e ∧ r = .error e

section
variable {E : RunError → Prop} {α β : Type}

theorem Upheld.refl (r : Result α) : Upheld E r r := .inl rfl

theorem Upheld.bind {r r' : Result α} {f f' : α → Result β} (h : Upheld E r r')
    (hf : ∀ a, Upheld E (f a) (f' a)) : Upheld E (r >>= f) (r' >>= f') := by
  rcases h with rfl | ⟨e, he, rfl⟩
  · cases r' with
    | error e => exact .refl _
    | ok a => exact hf a
  · exact .inr ⟨e, he, rfl⟩

/-- The second result is the first whenever the first is none of the errors. -/
theorem Upheld.eq_ok {r r' : Result α} {a : α} (h : Upheld E r r') (hr : r = .ok a) :
    r' = .ok a := by
  rcases h with rfl | ⟨e, -, he⟩
  · exact hr
  · rw [he] at hr
    cases hr

end

section
variable {locals locals' : Bag} {state state' : State} {e : Expr}

/-- Names whose values are upheld uphold the value of the expression that they occur in. -/
theorem upheld_eval {E : RunError → Prop}
    (h : ∀ x ∈ e.names, Upheld E (lookup locals state x) (lookup locals' state' x)) :
    Upheld E (eval locals state e) (eval locals' state' e) := by
  induction e with
  | literal v => exact .refl _
  | name x => exact h x (List.mem_singleton_self x)
  | unary op e ih => exact (ih h).bind fun v => .refl _
  | test e kind negated ih => exact (ih h).bind fun v => .refl _
  | binary op l r ihl ihr =>
    have hl := ihl fun x hx => h x (List.mem_append_left _ hx)
    have hr := ihr fun x hx => h x (List.mem_append_right _ hx)
    cases op with
    | connective op =>
      refine hl.bind fun v => Upheld.bind (.refl _) fun left => ?_
      -- what is on the right counts only where the left side does not settle the connective
      split
      · exact .refl _
      · exact hr.bind fun w => .refl _
    | equal | notEqual | relation | arithmetic =>
      exact hl.bind fun v => hr.bind fun w => .refl _

/-- The value of an expression depends on what its names stand for, and on nothing else. -/
theorem eval_congr (h : ∀ x ∈ e.names, lookup locals state x = lookup locals' state' x) :
    eval locals state e = eval locals' state' e := by
  rcases upheld_eval (E := fun _ => False) fun x hx => .inl (h x hx).symm with heq | ⟨e, he, -⟩
  · exact heq.symm
  · exact he.elim

theorem lookup_eq (locals : Bag) (state : State) (x : String) : lookup locals state x =
    ((locals.get? x).or (state.get? x)).elim (.error (.unknownName x)) .ok := by
  unfold lookup
  cases locals.get? x with
  | some v => rfl
  | none => cases state.get? x <;> rfl

theorem lookup_overriddenBy (locals : Bag) (state : State) (x : String) :
    lookup [] (state.overriddenBy locals) x = lookup locals state x := by
  rw [lookup_eq, lookup_eq, State.get?_overriddenBy]
  rfl

/-- What is written under a local name is not read. -/
theorem eval_set_of_local {name : String} {v : Value} (h : locals.get? name = some v)
    (state : State) (e : Expr) (w : Value) :
    eval locals (state.set name w) e = eval locals state e := by
  apply eval_congr
  intro x _
  rw [lookup_eq, lookup_eq, State.get?_set]
  split
  next hx =>
    rw [← hx, h]
    rfl
  next => rfl

/-- In a larger state a name that was known stands for the same value. -/
theorem upheld_lookup (h : state'.Extends state) (x : String) :
    Upheld (· = .unknownName x) (lookup locals state x) (lookup locals state' x) := by
  unfold lookup
  cases locals.get? x with
  | some v => exact .refl _
  | none =>
    cases hx : state.get? x with
    | some v =>
      rw [h x v hx]
      exact .refl _
    | none => exact .inr ⟨_, rfl, rfl⟩

/-- More fields make a difference only to an expression that failed on an unknown name. -/
theorem upheld_of_extends (h : state'.Extends state) :
    Upheld (fun error => ∃ x ∈ e.names, error = .unknownName x) (eval locals state e)
      (eval locals state' e) := by
  apply upheld_eval
  intro x hx
  rcases upheld_lookup h x with heq | ⟨_, rfl, herror⟩
  · exact .inl heq
  · exact .inr ⟨_, ⟨x, hx, rfl⟩, herror⟩

end

/-- Local values are read as fields that they have been written over. Two environments in which
the names of an expression stand for the same give it the same result. A value stays when fields
are added. -/
theorem eval_reads_names (locals : Bag) (state : State) (e : Expr) :
    eval locals state e = eval [] (state.overriddenBy locals) e ∧
    (∀ (locals' : Bag) (state' : State),
      (∀ x ∈ e.names, lookup locals state x = lookup locals' state' x) →
      eval locals state e = eval locals' state' e) ∧
    ∀ (v : Value) (larger : State), eval locals state e = .ok v → larger.Extends state →
      eval locals larger e = .ok v := by
  refine ⟨?_, fun _ _ h => eval_congr h, fun v larger hv h => (upheld_of_extends h).eq_ok hv⟩
  apply eval_congr
  intro x _
  exact (lookup_overriddenBy locals state x).symm

/-- `n != 0 && m > 1` is false where `n` is zero, be it a field or a local value. There `m` is not
read, so it may be unknown, and a text once it is known. -/
theorem eval_reads_names_guarded :
    let guarded : Expr := .binary (.connective .and)
      (.binary .notEqual (.name "n") (.literal (.integer 0)))
      (.binary (.relation .greater) (.name "m") (.literal (.integer 1)))
    let zero : State := ⟨[("n", .integer 0)]⟩
    let more : State := ⟨[("m", .string "one"), ("n", .integer 0)]⟩
    (∀ x ∈ guarded.names, lookup [] zero x = lookup [("n", .integer 0)] ⟨[]⟩ x) ∧
      more.Extends zero ∧ eval [] zero guarded = .ok (.boolean false) ∧
      eval [("n", .integer 0)] ⟨[]⟩ guarded = .ok (.boolean false) ∧
      eval [] more guarded = .ok (.boolean false) := by
  intro guarded zero more
  have hvalue : eval [] zero guarded = .ok (.boolean false) := rfl
  have hnames : ∀ x ∈ guarded.names,
      lookup [] zero x = lookup [("n", .integer 0)] ⟨[]⟩ x := by
    intro x hx
    obtain rfl | rfl : x = "n" ∨ x = "m" := by simpa [guarded, names] using hx
    · rfl
    · rfl
  have hmore : more.Extends zero := by
    intro x v hv
    obtain ⟨rfl, rfl⟩ : "n" = x ∧ .integer 0 = v := by
      simpa [zero, State.get?] using hv
    rfl
  obtain ⟨-, hagree, hextend⟩ := eval_reads_names [] zero guarded
  exact ⟨hnames, hmore, hvalue, (hagree _ _ hnames).symm.trans hvalue, hextend _ _ hvalue hmore⟩

end Expr

end Covenant
