import Covenant.Expr.Eval
import Mathlib.Tactic.Linarith

/-! Integer arithmetic is exact or an error. An expression made of integers, of names that
stand for integers, and of negation, addition, subtraction and multiplication has a value among
all integers. It evaluates to that value if 64 bits hold the values of all its parts, and
overflows otherwise. A quotient of integers is an integer exactly where the division comes out
even; only the least integer over `-1` does not fit. -/

namespace Covenant

/-- The integers that 64 bits hold. -/
def InRange (n : Int) : Prop := -2 ^ 63 ≤ n ∧ n ≤ 2 ^ 63 - 1

theorem inRange_toInt (n : Int64) : InRange n.toInt := by
  have hle := n.minValue_le_toInt
  have hge := n.toInt_le
  rw [Int64.toInt_minValue] at hle
  rw [Int64.toInt_maxValue] at hge
  exact ⟨hle, hge⟩

theorem InRange.toInt_ofInt {n : Int} (h : InRange n) : (Int64.ofInt n).toInt = n := by
  apply Int64.toInt_ofInt_of_le h.1
  have hle := h.2
  omega

namespace Value

theorem exact_of_inRange {n : Int} (h : InRange n) : exact n = .ok (integer (Int64.ofInt n)) := by
  unfold exact
  rw [Int64.toInt_minValue, Int64.toInt_maxValue]
  exact if_pos h

theorem exact_of_not_inRange {n : Int} (h : ¬InRange n) : exact n = .error .overflow := by
  unfold exact
  rw [Int64.toInt_minValue, Int64.toInt_maxValue]
  exact if_neg h

theorem exact_eq_ok_integer_iff {n : Int} {i : Int64} :
    exact n = .ok (integer i) ↔ n = i.toInt := by
  constructor
  · intro h
    by_cases hn : InRange n
    · rw [exact_of_inRange hn] at h
      cases h
      exact hn.toInt_ofInt.symm
    · rw [exact_of_not_inRange hn] at h
      cases h
  · rintro rfl
    rw [exact_of_inRange (inRange_toInt i), Int64.ofInt_toInt]

theorem exact_eq_overflow_iff {n : Int} : exact n = .error .overflow ↔ ¬InRange n := by
  refine ⟨fun h hn => ?_, exact_of_not_inRange⟩
  rw [exact_of_inRange hn] at h
  cases h

end Value

namespace Expr

/-! ### Negation, addition, subtraction and multiplication -/

/-- The operation on all integers; division is none. -/
def Arithmetic.onAllIntegers? : Arithmetic → Option (Int → Int → Int)
  | add => some (· + ·)
  | sub => some (· - ·)
  | mul => some (· * ·)
  | div => none

theorem Arithmetic.apply_integers {op : Arithmetic} {f : Int → Int → Int}
    (h : op.onAllIntegers? = some f) (a b : Int64) :
    op.apply (.integer a) (.integer b) = Value.exact (f a.toInt b.toInt) := by
  cases op with
  | div => cases h
  | _ =>
    cases h
    rfl

/-- The value among all integers of an expression that is made of integers, names of integers
and the operations on all integers. -/
def exactValue? (locals : Bag) (state : State) : Expr → Option Int
  | literal (.integer n) => some n.toInt
  | name x =>
    match lookup locals state x with
    | .ok (.integer n) => some n.toInt
    | _ => none
  | unary .negate e => (exactValue? locals state e).map fun n => -n
  | binary (.arithmetic op) l r => do
    let f ← op.onAllIntegers?
    return f (← exactValue? locals state l) (← exactValue? locals state r)
  | _ => none

/-- An expression and all the expressions that it is made of. -/
def subtrees : Expr → List Expr
  | literal v => [literal v]
  | name x => [name x]
  | unary op e => unary op e :: e.subtrees
  | binary op l r => binary op l r :: (l.subtrees ++ r.subtrees)
  | test e kind negated => test e kind negated :: e.subtrees

theorem mem_subtrees_self (e : Expr) : e ∈ e.subtrees := by
  cases e <;> simp [subtrees]

variable {locals : Bag} {state : State} {e l r : Expr} {n : Int}

/-- All values that come up in the evaluation of an expression of integers are in range. -/
def Bounded (locals : Bag) (state : State) (e : Expr) : Prop :=
  ∀ s ∈ e.subtrees, ∀ n, exactValue? locals state s = some n → InRange n

theorem Bounded.inRange (h : Bounded locals state e) (he : exactValue? locals state e = some n) :
    InRange n :=
  h e e.mem_subtrees_self n he

theorem bounded_unary_iff {op : UnaryOp} (he : exactValue? locals state (unary op e) = some n) :
    Bounded locals state (unary op e) ↔ InRange n ∧ Bounded locals state e := by
  simp [Bounded, subtrees, he]

theorem bounded_binary_iff {op : BinaryOp}
    (he : exactValue? locals state (binary op l r) = some n) :
    Bounded locals state (binary op l r) ↔
      InRange n ∧ Bounded locals state l ∧ Bounded locals state r := by
  simp [Bounded, subtrees, he, or_imp, forall_and]

/-- What an expression of integers comes to, by its value among all integers. -/
structure EvaluatesExactly (locals : Bag) (state : State) (e : Expr) (n : Int) : Prop where
  exact : Bounded locals state e → eval locals state e = .ok (.integer (Int64.ofInt n))
  overflow : ¬Bounded locals state e → eval locals state e = .error .overflow

theorem exactValue?_literal_eq_some {v : Value} (h : exactValue? locals state (literal v) = some n) :
    ∃ i : Int64, v = .integer i ∧ n = i.toInt := by
  cases v with
  | integer i =>
    cases h
    exact ⟨i, rfl, rfl⟩
  | _ => cases h

theorem exactValue?_name_eq_some {x : String} (h : exactValue? locals state (name x) = some n) :
    ∃ i : Int64, lookup locals state x = .ok (.integer i) ∧ n = i.toInt := by
  rw [exactValue?] at h
  split at h
  next i hi =>
    cases h
    exact ⟨i, hi, rfl⟩
  next => cases h

/-- A leaf is in range because it is a 64-bit integer. -/
theorem EvaluatesExactly.of_leaf {i : Int64} (hsubtrees : e.subtrees = [e])
    (he : exactValue? locals state e = some i.toInt)
    (heval : eval locals state e = .ok (.integer i)) :
    EvaluatesExactly locals state e i.toInt where
  exact _ := by rw [heval, Int64.ofInt_toInt]
  overflow h := by
    refine absurd (fun s hs m hm => ?_) h
    rw [hsubtrees, List.mem_singleton] at hs
    rw [hs, he] at hm
    cases hm
    exact inRange_toInt i

/-- An operation whose operands evaluate exactly is checked once more, on its own value. -/
theorem EvaluatesExactly.of_operands {operands : Prop}
    (hbounded : Bounded locals state e ↔ InRange n ∧ operands)
    (hexact : operands → eval locals state e = Value.exact n)
    (hoverflow : ¬operands → eval locals state e = .error .overflow) :
    EvaluatesExactly locals state e n where
  exact h := by
    obtain ⟨hn, hoperands⟩ := hbounded.1 h
    rw [hexact hoperands, Value.exact_of_inRange hn]
  overflow h := by
    by_cases hoperands : operands
    · have hn : ¬InRange n := fun hn => h (hbounded.2 ⟨hn, hoperands⟩)
      rw [hexact hoperands, Value.exact_of_not_inRange hn]
    · exact hoverflow hoperands

theorem EvaluatesExactly.negate (he : exactValue? locals state e = some n)
    (h : EvaluatesExactly locals state e n) :
    EvaluatesExactly locals state (unary .negate e) (-n) := by
  have hvalue : exactValue? locals state (unary .negate e) = some (-n) := by
    simp [exactValue?, he]
  refine .of_operands (bounded_unary_iff hvalue) (fun hb => ?_) fun hb => ?_
  · rw [eval, h.exact hb]
    show Value.exact (-(Int64.ofInt n).toInt) = _
    rw [(hb.inRange he).toInt_ofInt]
  · rw [eval, h.overflow hb]
    rfl

theorem EvaluatesExactly.binary {op : Arithmetic} {f : Int → Int → Int} {m : Int}
    (hop : op.onAllIntegers? = some f) (hl : exactValue? locals state l = some n)
    (hr : exactValue? locals state r = some m) (hleft : EvaluatesExactly locals state l n)
    (hright : EvaluatesExactly locals state r m) :
    EvaluatesExactly locals state (.binary (.arithmetic op) l r) (f n m) := by
  have hvalue : exactValue? locals state (.binary (.arithmetic op) l r) = some (f n m) := by
    simp [exactValue?, hop, hl, hr]
  refine .of_operands (bounded_binary_iff hvalue) (fun ⟨hbl, hbr⟩ => ?_) fun hb => ?_
  · rw [eval, hleft.exact hbl, hright.exact hbr]
    show op.apply (.integer (Int64.ofInt n)) (.integer (Int64.ofInt m)) = _
    rw [op.apply_integers hop, (hbl.inRange hl).toInt_ofInt, (hbr.inRange hr).toInt_ofInt]
  · -- the left operand comes first, so an overflow of the right one is seen only after it
    rw [eval]
    by_cases hbl : Bounded locals state l
    · rw [hleft.exact hbl, hright.overflow fun hbr => hb ⟨hbl, hbr⟩]
      rfl
    · rw [hleft.overflow hbl]
      rfl

theorem evaluatesExactly (he : exactValue? locals state e = some n) :
    EvaluatesExactly locals state e n := by
  induction e generalizing n with
  | literal v =>
    obtain ⟨i, rfl, rfl⟩ := exactValue?_literal_eq_some he
    exact .of_leaf rfl he rfl
  | name x =>
    obtain ⟨i, hi, rfl⟩ := exactValue?_name_eq_some he
    exact .of_leaf rfl he hi
  | unary op e ih =>
    cases op with
    | not => cases he
    | negate =>
      obtain ⟨m, hm, rfl⟩ := Option.map_eq_some_iff.1 he
      exact .negate hm (ih hm)
  | binary op l r ihl ihr =>
    cases op with
    | arithmetic op =>
      simp only [exactValue?, Option.bind_eq_bind, Option.bind_eq_some_iff, Option.pure_def,
        Option.some.injEq] at he
      obtain ⟨f, hop, a, ha, b, hb, rfl⟩ := he
      exact .binary hop ha hb (ihl ha) (ihr hb)
    | _ => cases he
  | test => cases he

/-! ### Division -/

/-- What the division of two integers comes to. -/
structure Divides (a b : Int64) (result : Result Value) : Prop where
  divisionByZero : result = .error .divisionByZero ↔ b = 0
  /-- An integer only as the quotient of a division that comes out even. -/
  integer : ∀ q : Int64, result = .ok (.integer q) ↔ b ≠ 0 ∧ q.toInt * b.toInt = a.toInt
  overflow : result = .error .overflow ↔ a = Int64.minValue ∧ b = -1
  float : (∃ x, result = .ok (.float x)) ↔ b ≠ 0 ∧ ¬b.toInt ∣ a.toInt

theorem toInt_ne_zero {b : Int64} (hb : b ≠ 0) : b.toInt ≠ 0 := by
  rw [← Int64.toInt_zero]
  exact fun h => hb (Int64.toInt_inj.1 h)

/-- Of the even quotients only that of the least integer and `-1` is out of range. -/
theorem not_inRange_iff {a b : Int64} {q : Int} (hb : b ≠ 0) (hq : q * b.toInt = a.toInt) :
    ¬InRange q ↔ a = Int64.minValue ∧ b = -1 := by
  have hb' := toInt_ne_zero hb
  obtain ⟨hle, hge⟩ := inRange_toInt a
  rw [← Int64.toInt_inj, ← Int64.toInt_inj, Int64.toInt_minValue,
    show (-1 : Int64).toInt = -1 by decide]
  constructor
  · intro hrange
    rcases lt_or_gt_of_ne hb' with hneg | hpos
    · have hlarge : 2 ^ 63 ≤ q := by
        by_contra hsmall
        have hlow : q < -2 ^ 63 := by
          by_contra hge
          exact hrange ⟨by omega, by omega⟩
        nlinarith
      have hone : b.toInt = -1 := by
        by_contra hne
        have htwo : b.toInt ≤ -2 := by omega
        nlinarith
      rw [hone] at hq
      exact ⟨by omega, hone⟩
    · exfalso
      apply hrange
      constructor <;> nlinarith
  · rintro ⟨ha, hone⟩ hrange
    have hle := hrange.2
    rw [ha, hone] at hq
    omega

theorem divides (a b : Int64) : Divides a b (divideIntegers a b) := by
  unfold divideIntegers
  by_cases hb : b = 0
  · rw [if_pos hb]
    refine ⟨by simp [hb], by simp [hb], ?_, by simp [hb]⟩
    simp only [Except.error.injEq, reduceCtorEq, false_iff, not_and]
    rintro - rfl
    simp at hb
  rw [if_neg hb]
  by_cases hdvd : b.toInt ∣ a.toInt
  · rw [if_pos hdvd]
    have hq := Int.ediv_mul_cancel hdvd
    have hshape : ∀ x, Value.exact (a.toInt / b.toInt) ≠ .ok (.float x) := by
      intro x
      unfold Value.exact
      split <;> simp
    have hzero : Value.exact (a.toInt / b.toInt) ≠ .error .divisionByZero := by
      unfold Value.exact
      split <;> simp
    refine ⟨by simp [hb, hzero], fun q => ?_, ?_, by simp [hdvd, hshape]⟩
    · rw [Value.exact_eq_ok_integer_iff]
      constructor
      · intro h
        rw [← h]
        exact ⟨hb, hq⟩
      · rintro ⟨-, h⟩
        rw [← h, Int.mul_ediv_cancel _ (toInt_ne_zero hb)]
    · rw [Value.exact_eq_overflow_iff, not_inRange_iff hb hq]
  · rw [if_neg hdvd]
    refine ⟨by simp [hb], fun q => ?_, ?_, by simp [hb, hdvd]⟩
    · simp only [Except.ok.injEq, reduceCtorEq, false_iff, not_and]
      exact fun _ hq => hdvd ⟨q.toInt, by rw [← hq, mul_comm]⟩
    · simp only [reduceCtorEq, false_iff, not_and]
      rintro - rfl
      exact hdvd ⟨-a.toInt, by simp⟩

/-- Integer arithmetic never wraps. An expression of integers has its value among all integers,
or overflows if the value of any part of it is out of range; and the quotient of two integers is
an integer, a float or an error as the division comes out. -/
theorem eval_integers (locals : Bag) (state : State) :
    (∀ e n, exactValue? locals state e = some n →
      (Bounded locals state e → ∃ i : Int64, eval locals state e = .ok (.integer i) ∧
        i.toInt = n) ∧
      (¬Bounded locals state e → eval locals state e = .error .overflow)) ∧
    ∀ l r a b, eval locals state l = .ok (.integer a) → eval locals state r = .ok (.integer b) →
      Divides a b (eval locals state (.binary (.arithmetic .div) l r)) := by
  refine ⟨fun e n he => ⟨fun hb => ?_, (evaluatesExactly he).overflow⟩, fun l r a b hl hr => ?_⟩
  · exact ⟨_, (evaluatesExactly he).exact hb, (hb.inRange he).toInt_ofInt⟩
  · rw [eval, hl, hr]
    exact divides a b

/-- A difference that is too small overflows even where an addition would bring it back, and
so does the quotient of the least integer and `-1`. -/
theorem eval_integers_least :
    let least : State := ⟨[("n", .integer Int64.minValue)]⟩
    let back : Expr := .binary (.arithmetic .add)
      (.binary (.arithmetic .sub) (.name "n") (.literal (.integer 1))) (.literal (.integer 1))
    let quotient : Expr := .binary (.arithmetic .div) (.name "n")
      (.unary .negate (.literal (.integer 1)))
    exactValue? [] least back = some (-2 ^ 63) ∧ eval [] least back = .error .overflow ∧
      eval [] least quotient = .error .overflow := by
  intro least back quotient
  have hvalue : exactValue? [] least back = some (-2 ^ 63) := by decide
  have hpart : ¬Bounded [] least back := by
    intro h
    have hlow := h (.binary (.arithmetic .sub) (.name "n") (.literal (.integer 1)))
      (by simp [back, subtrees]) (-2 ^ 63 - 1) (by decide)
    exact absurd hlow.1 (by decide)
  have hquotient := (eval_integers [] least).2 (.name "n")
    (.unary .negate (.literal (.integer 1))) Int64.minValue (-1) rfl rfl
  exact ⟨hvalue, ((eval_integers [] least).1 back _ hvalue).2 hpart,
    hquotient.overflow.2 ⟨rfl, rfl⟩⟩

end Expr

end Covenant
