import Covenant.Expr.Eval

/-! The laws of `&&`, `||` and `!`. A connective first asks its left side for a truth value, and
its right side only if the left one does not settle it; what fails on the way is the result. So
both connectives are associative, each goes over into the other under `!`, and each distributes
over the other from the left, for sides of any kind, errors included. They do not commute. -/

namespace Covenant.Expr

/-- The expression `a && b`. -/
def and (a b : Expr) : Expr := binary (.connective .and) a b

/-- The expression `a || b`. -/
def or (a b : Expr) : Expr := binary (.connective .or) a b

/-- The expression `!a`. -/
def not (a : Expr) : Expr := unary .not a

/-! ### Truth values that may be missing -/

namespace Connective

def dual : Connective → Connective
  | and => or
  | or => and

/-- A connective between two truth values, either of which may be an error instead. -/
def join (op : Connective) (a b : Result Bool) : Result Bool := do
  let left ← a
  if left = op.settledBy then return left else b

section
variable (op : Connective) (a b c : Result Bool)

@[simp] theorem settledBy_dual : op.dual.settledBy = !op.settledBy := by cases op <;> rfl

@[simp] theorem join_error (e : RunError) : op.join (.error e) b = .error e := rfl

@[simp] theorem join_settled : op.join (.ok op.settledBy) b = .ok op.settledBy := by
  cases op <;> rfl

@[simp] theorem join_unsettled : op.join (.ok (!op.settledBy)) b = b := by
  cases op <;> rfl

/-- What leaves one connective open settles the other. -/
@[simp] theorem join_dual_settled : op.dual.join (.ok (!op.settledBy)) b = .ok (!op.settledBy) := by
  rw [← settledBy_dual, join_settled]

@[simp] theorem join_dual_unsettled : op.dual.join (.ok op.settledBy) b = b := by
  rw [← Bool.not_not op.settledBy, ← settledBy_dual, join_unsettled]

/-- A left side fails, settles the connective or leaves it to the right side. -/
theorem left_cases :
    (∃ e, a = .error e) ∨ a = .ok op.settledBy ∨ a = .ok (!op.settledBy) := by
  cases a with
  | error e => exact .inl ⟨e, rfl⟩
  | ok left => cases op <;> cases left <;> simp [settledBy]

theorem join_assoc : op.join (op.join a b) c = op.join a (op.join b c) := by
  obtain ⟨e, rfl⟩ | rfl | rfl := op.left_cases a
  · simp only [join_error]
  · simp only [join_settled]
  · simp only [join_unsettled]

theorem not_join :
    Bool.not <$> op.join a b = op.dual.join (Bool.not <$> a) (Bool.not <$> b) := by
  obtain ⟨e, rfl⟩ | rfl | rfl := op.left_cases a
  · rfl
  · rw [join_settled]
    exact (op.join_dual_settled _).symm
  · rw [join_unsettled]
    show _ = op.dual.join (.ok (!!op.settledBy)) _
    rw [Bool.not_not, join_dual_unsettled]

/-- Where the left side settles the connective, it leaves the other one open, and there it comes
up once more. -/
theorem join_join_dual :
    op.join a (op.dual.join b c) = op.dual.join (op.join a b) (op.join a c) := by
  obtain ⟨e, rfl⟩ | rfl | rfl := op.left_cases a
  · simp only [join_error]
  · simp only [join_settled, join_dual_unsettled]
  · simp only [join_unsettled]

end

end Connective

/-! ### Expressions -/

section
variable (locals : Bag) (state : State)

/-- What an expression is as a truth value. -/
def truth (e : Expr) : Result Bool := do (← eval locals state e).expectBoolean

theorem truth_of_eval {e : Expr} {r : Result Bool}
    (h : eval locals state e = Value.boolean <$> r) : truth locals state e = r := by
  rw [truth, h]
  cases r <;> rfl

variable (op : Connective) (a b c : Expr)

theorem eval_connective : eval locals state (binary (.connective op) a b) =
    Value.boolean <$> op.join (truth locals state a) (truth locals state b) := by
  simp only [eval, truth, Connective.join, map_bind, bind_assoc]
  congr 1
  funext v
  congr 1
  funext left
  split
  · rfl
  · rw [map_eq_pure_bind, bind_assoc]

theorem eval_not :
    eval locals state (not a) = Value.boolean <$> Bool.not <$> truth locals state a := by
  simp only [not, eval, truth, map_bind, UnaryOp.apply]
  congr 1
  funext v
  simp only [map_eq_pure_bind, bind_assoc, pure_bind]

theorem truth_connective : truth locals state (binary (.connective op) a b) =
    op.join (truth locals state a) (truth locals state b) :=
  truth_of_eval locals state (eval_connective locals state op a b)

theorem truth_not : truth locals state (not a) = Bool.not <$> truth locals state a :=
  truth_of_eval locals state (eval_not locals state a)

theorem eval_assoc :
    eval locals state (binary (.connective op) (binary (.connective op) a b) c) =
      eval locals state (binary (.connective op) a (binary (.connective op) b c)) := by
  rw [eval_connective, eval_connective, truth_connective, truth_connective, op.join_assoc]

theorem eval_not_connective : eval locals state (not (binary (.connective op) a b)) =
    eval locals state (binary (.connective op.dual) (not a) (not b)) := by
  rw [eval_not, eval_connective, truth_connective, truth_not, truth_not, op.not_join]

theorem eval_distrib :
    eval locals state (binary (.connective op) a (binary (.connective op.dual) b c)) =
      eval locals state (binary (.connective op.dual) (binary (.connective op) a b)
        (binary (.connective op) a c)) := by
  rw [eval_connective, eval_connective, truth_connective, truth_connective, truth_connective,
    op.join_join_dual]

end

/-- Two expressions that one of these laws makes out of one another evaluate to the same value or
to the same error. -/
theorem eval_boolean_laws (locals : Bag) (state : State) (a b c : Expr) :
    eval locals state ((a.and b).and c) = eval locals state (a.and (b.and c)) ∧
    eval locals state ((a.or b).or c) = eval locals state (a.or (b.or c)) ∧
    eval locals state (a.and b).not = eval locals state (a.not.or b.not) ∧
    eval locals state (a.or b).not = eval locals state (a.not.and b.not) ∧
    eval locals state (a.and (b.or c)) = eval locals state ((a.and b).or (a.and c)) ∧
    eval locals state (a.or (b.and c)) = eval locals state ((a.or b).and (a.or c)) := by
  refine ⟨?_, ?_, ?_, ?_, ?_, ?_⟩
  · exact eval_assoc locals state .and a b c
  · exact eval_assoc locals state .or a b c
  · exact eval_not_connective locals state .and a b
  · exact eval_not_connective locals state .or a b
  · exact eval_distrib locals state .and a b c
  · exact eval_distrib locals state .or a b c

/-- The sides of a connective cannot be exchanged: only the left one is always looked at. -/
example : eval [] ⟨[]⟩ ((literal (.boolean false)).and (name "x")) = .ok (.boolean false) ∧
    eval [] ⟨[]⟩ ((name "x").and (literal (.boolean false))) = .error (.unknownName "x") :=
  ⟨rfl, rfl⟩

end Covenant.Expr
