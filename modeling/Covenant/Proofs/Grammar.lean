import Covenant.Expr.Basic
import Covenant.Expr.Token
import Mathlib.Tactic.Common

/-! The grammar of expressions and programs over their tokens, and that it is unambiguous. It
is stated without a parser. A token that stands in parentheses or behind operators before an
operand is enclosed by them; with the tree of an expression goes the number of enclosures of
its most enclosed token. -/

namespace Covenant

/-- The expression that a statement evaluates. -/
def Statement.tree : Statement → Expr
  | assign _ e | expr e => e

namespace Expr

/-- The levels of the grammar, loosest first. -/
inductive Level
  | disjunction
  | conjunction
  | equality
  | relation
  | test
  | sum
  | product
  | unary
  | primary

def Level.tighter? : Level → Option Level
  | disjunction => some conjunction
  | conjunction => some equality
  | equality => some relation
  | relation => some test
  | test => some sum
  | sum => some product
  | product => some unary
  | unary => some primary
  | primary => none

/-- The operators between two operands, by level. -/
inductive Operator : Level → Token → BinaryOp → Prop
  | or : Operator .disjunction .or (.connective .or)
  | and : Operator .conjunction .and (.connective .and)
  | equal : Operator .equality .equal .equal
  | notEqual : Operator .equality .notEqual .notEqual
  | less : Operator .relation .less (.relation .less)
  | lessEqual : Operator .relation .lessEqual (.relation .lessEqual)
  | greater : Operator .relation .greater (.relation .greater)
  | greaterEqual : Operator .relation .greaterEqual (.relation .greaterEqual)
  | plus : Operator .sum .plus (.arithmetic .add)
  | minus : Operator .sum .minus (.arithmetic .sub)
  | star : Operator .product .star (.arithmetic .mul)
  | slash : Operator .product .slash (.arithmetic .div)

/-- The operators before an operand. -/
inductive Prefix : Token → UnaryOp → Prop
  | bang : Prefix .bang .not
  | minus : Prefix .minus .negate

/-- The tokens that are operands. -/
inductive Leaf : Token → Expr → Prop
  | integer (n : Int64) : Leaf (.integer n) (.literal (.integer n))
  | float (x : Float) : Leaf (.float x) (.literal (.float x))
  | string (s : String) : Leaf (.string s) (.literal (.string s))
  | boolean (b : Bool) : Leaf (.boolean b) (.literal (.boolean b))
  | null : Leaf .null (.literal .null)
  | word (x : String) : Leaf (.word x) (.name x)

/-- The word that names a test. -/
def TypeTest.word : TypeTest → String
  | empty => "empty"
  | boolean => "boolean"
  | number => "number"

/-- A test after its operand. -/
inductive Test : List Token → TypeTest → Bool → Prop
  | plain (kind : TypeTest) : Test [.word "is", .word kind.word] kind false
  | negated (kind : TypeTest) : Test [.word "is", .word "not", .word kind.word] kind true

/-- The expressions of each level, with the enclosures of their most enclosed token. -/
inductive Derives : Level → List Token → Nat → Expr → Prop
  | tighter {level next : Level} {ts : List Token} {n : Nat} {e : Expr}
    (hnext : level.tighter? = some next) (h : Derives next ts n e) : Derives level ts n e
  | binary {level next : Level} {ts us : List Token} {t : Token} {n m : Nat} {op : BinaryOp}
    {l r : Expr} (hnext : level.tighter? = some next) (hop : Operator level t op)
    (hl : Derives level ts n l) (hr : Derives next us m r) :
    Derives level (ts ++ t :: us) (max n m) (.binary op l r)
  | test {ts us : List Token} {n : Nat} {e : Expr} {kind : TypeTest} {negated : Bool}
    (h : Derives .sum ts n e) (htest : Test us kind negated) :
    Derives .test (ts ++ us) n (.test e kind negated)
  | unary {t : Token} {ts : List Token} {n : Nat} {op : UnaryOp} {e : Expr}
    (hop : Prefix t op) (h : Derives .unary ts n e) :
    Derives .unary (t :: ts) (n + 1) (.unary op e)
  | leaf {t : Token} {e : Expr} (h : Leaf t e) : Derives .primary [t] 0 e
  | parens {ts : List Token} {n : Nat} {e : Expr} (h : Derives .disjunction ts n e) :
    Derives .primary (.leftParen :: (ts ++ [.rightParen])) (n + 1) e

inductive DerivesStatement : List Token → Nat → Statement → Prop
  | assign {field : String} {ts : List Token} {n : Nat} {e : Expr}
    (h : Derives .disjunction ts n e) :
    DerivesStatement (.word field :: .assign :: ts) n (.assign field e)
  | expr {ts : List Token} {n : Nat} {e : Expr} (h : Derives .disjunction ts n e) :
    DerivesStatement ts n (.expr e)

/-- Statements between semicolons, where a place may be empty. -/
inductive DerivesProgram : List Token → Nat → Program → Prop
  | nil : DerivesProgram [] 0 []
  | skip {ts : List Token} {n : Nat} {p : Program} (h : DerivesProgram ts n p) :
    DerivesProgram (.semicolon :: ts) n p
  | last {ts : List Token} {n : Nat} {s : Statement} (h : DerivesStatement ts n s) :
    DerivesProgram ts n [s]
  | next {ts us : List Token} {n m : Nat} {s : Statement} {p : Program}
    (h : DerivesStatement ts n s) (hrest : DerivesProgram us m p) :
    DerivesProgram (ts ++ .semicolon :: us) (max n m) (s :: p)

/-! ### The tokens of an expression -/

/-- The tokens that no expression contains. -/
def Token.separates : Token → Bool
  | .assign | .semicolon | .eof => true
  | _ => false

theorem Test.separates_eq_false {us : List Token} {kind : TypeTest} {negated : Bool}
    (h : Test us kind negated) {t : Token} (ht : t ∈ us) : t.separates = false := by
  cases h <;> simp only [List.mem_cons, List.not_mem_nil, or_false] at ht <;>
    rcases ht with rfl | rfl | rfl <;> rfl

theorem Derives.separates_eq_false {level : Level} {ts : List Token} {n : Nat} {e : Expr}
    (h : Derives level ts n e) : ∀ t ∈ ts, t.separates = false := by
  induction h with
  | tighter _ _ ih => exact ih
  | binary _ hop _ _ ihl ihr =>
    intro t ht
    rcases List.mem_append.1 ht with ht | ht
    · exact ihl t ht
    · rcases List.mem_cons.1 ht with rfl | ht
      · cases hop <;> rfl
      · exact ihr t ht
  | test _ htest ih =>
    intro t ht
    rcases List.mem_append.1 ht with ht | ht
    · exact ih t ht
    · exact htest.separates_eq_false ht
  | unary hop _ ih =>
    refine List.forall_mem_cons.2 ⟨?_, ih⟩
    cases hop <;> rfl
  | leaf h =>
    refine List.forall_mem_singleton.2 ?_
    cases h <;> rfl
  | parens _ ih =>
    refine List.forall_mem_cons.2 ⟨rfl, fun t ht => ?_⟩
    rcases List.mem_append.1 ht with ht | ht
    · exact ih t ht
    · rw [List.mem_singleton.1 ht]
      rfl

theorem Derives.ne_nil {level : Level} {ts : List Token} {n : Nat} {e : Expr}
    (h : Derives level ts n e) : ts ≠ [] := by
  induction h with
  | tighter _ _ ih => exact ih
  | test _ _ ih => exact fun hnil => ih (List.append_eq_nil_iff.1 hnil).1
  | _ => simp

/-- Derivations of a level of operators between operands, the left operand taken apart. -/
theorem Derives.chain_induction {level next : Level} (hnext : level.tighter? = some next)
    (hlevel : ∃ t op, Operator level t op) {motive : List Token → Nat → Expr → Prop}
    (one : ∀ {ts n e}, Derives next ts n e → motive ts n e)
    (more : ∀ {ts us t n m op l r}, Derives level ts n l → motive ts n l → Operator level t op →
      Derives next us m r → motive (ts ++ t :: us) (max n m) (.binary op l r))
    {ts : List Token} {n : Nat} {e : Expr} (h : Derives level ts n e) : motive ts n e := by
  obtain ⟨_, _, hexists⟩ := hlevel
  induction h with
  | tighter h' h =>
    cases hnext.symm.trans h'
    exact one h
  | binary h' hop hl hr ihl ihr =>
    cases hnext.symm.trans h'
    exact more hl (ihl hnext more hexists) hop hr
  | test | unary | leaf | parens => cases hexists

/-! ### The cases of an expression -/

theorem TypeTest.word_ne_not (kind : TypeTest) : kind.word ≠ "not" := by
  cases kind <;> decide

/-- An expression of the level of tests is an operand with or without a test after it. -/
theorem Derives.test_cases {ts : List Token} {n : Nat} {e : Expr} (h : Derives .test ts n e) :
    Derives .sum ts n e ∨ ∃ us vs s kind negated, ts = us ++ vs ∧ Derives .sum us n s ∧
      Test vs kind negated ∧ e = .test s kind negated := by
  cases h with
  | tighter hnext h =>
    cases hnext
    exact .inl h
  | binary _ hop => cases hop
  | test h htest => exact .inr ⟨_, _, _, _, _, rfl, h, htest, rfl⟩

/-- An expression of the level of primaries is one token, or stands in parentheses. -/
theorem Derives.primary_cases {ts : List Token} {n : Nat} {e : Expr}
    (h : Derives .primary ts n e) : (∃ t, ts = [t] ∧ n = 0 ∧ Leaf t e) ∨
      ∃ us m, ts = .leftParen :: (us ++ [.rightParen]) ∧ n = m + 1 ∧
        Derives .disjunction us m e := by
  cases h with
  | tighter hnext => cases hnext
  | binary _ hop => cases hop
  | leaf h => exact .inl ⟨_, rfl, rfl, h⟩
  | parens h => exact .inr ⟨_, _, rfl, rfl, h⟩

/-- An operand is a primary, or an operator with an operand after it. -/
theorem Derives.unary_cases {ts : List Token} {n : Nat} {e : Expr} (h : Derives .unary ts n e) :
    Derives .primary ts n e ∨ ∃ t us m op s, ts = t :: us ∧ n = m + 1 ∧ Prefix t op ∧
      Derives .unary us m s ∧ e = .unary op s := by
  cases h with
  | tighter hnext h =>
    cases hnext
    exact .inl h
  | binary _ hop => cases hop
  | unary hop h => exact .inr ⟨_, _, _, _, _, rfl, rfl, hop, h, rfl⟩

/-! ### What may follow an expression -/

/-- The tokens with which an expression of a level goes on. -/
inductive Level.GoesOn : Level → Token → Prop
  | operator {level : Level} {t : Token} {op : BinaryOp} (hop : Operator level t op) :
    GoesOn level t
  | test : GoesOn .test (.word "is")
  | tighter {level next : Level} {t : Token} (hnext : level.tighter? = some next)
    (h : GoesOn next t) : GoesOn level t

/-- Where an expression of a level ends, if these tokens are left. -/
def Level.EndsAt (level : Level) (rest : List Token) : Prop := ¬level.GoesOn (rest.headD .eof)

def Level.rank : Level → Nat
  | disjunction => 0
  | conjunction => 1
  | equality => 2
  | relation => 3
  | test => 4
  | sum => 5
  | product => 6
  | unary => 7
  | primary => 8

theorem Level.rank_tighter {level next : Level} (hnext : level.tighter? = some next) :
    next.rank = level.rank + 1 := by
  cases level <;> cases hnext <;> rfl

theorem Operator.unique {level level' : Level} {t : Token} {op op' : BinaryOp}
    (h : Operator level t op) (h' : Operator level' t op') : level = level' ∧ op = op' := by
  cases h <;> cases h' <;> exact ⟨rfl, rfl⟩

theorem Level.GoesOn.cases {level : Level} {t : Token} (h : level.GoesOn t) :
    (∃ level' op, Operator level' t op ∧ level.rank ≤ level'.rank) ∨
      t = .word "is" ∧ level.rank ≤ Level.test.rank := by
  induction h with
  | operator hop => exact .inl ⟨_, _, hop, Nat.le_refl _⟩
  | test => exact .inr ⟨rfl, Nat.le_refl _⟩
  | tighter hnext _ ih =>
    have hrank := rank_tighter hnext
    rcases ih with ⟨level', op, hop, hle⟩ | ⟨ht, hle⟩
    · exact .inl ⟨level', op, hop, by omega⟩
    · exact .inr ⟨ht, by omega⟩

namespace Level.EndsAt

variable {level next : Level} {rest : List Token}

/-- No expression goes on with a token that is neither an operator nor the word `is`. -/
theorem closed (hop : ∀ level op, ¬Operator level (rest.headD .eof) op)
    (his : rest.headD .eof ≠ .word "is") : level.EndsAt rest := by
  intro h
  rcases h.cases with ⟨_, _, hop', _⟩ | ⟨his', _⟩
  · exact hop _ _ hop'
  · exact his his'

theorem nil : level.EndsAt [] := closed nofun nofun

theorem rightParen : level.EndsAt (.rightParen :: rest) := closed nofun nofun

theorem semicolon : level.EndsAt (.semicolon :: rest) := closed nofun nofun

theorem tighter (h : level.EndsAt rest) (hnext : level.tighter? = some next) :
    next.EndsAt rest :=
  fun hgo => h (.tighter hnext hgo)

/-- An operator ends the expressions of tighter levels: they do not take it for their own. -/
theorem operator {t : Token} {op : BinaryOp} (hop : Operator level t op)
    (hnext : level.tighter? = some next) : next.EndsAt (t :: rest) := by
  intro h
  have hrank := rank_tighter hnext
  rcases h.cases with ⟨_, _, hop', hle⟩ | ⟨his, _⟩
  · rw [(hop.unique hop').1] at hrank
    omega
  · rw [show t = .word "is" from his] at hop
    cases hop

theorem test {us : List Token} {kind : TypeTest} {negated : Bool}
    (h : Test us kind negated) : Level.sum.EndsAt (us ++ rest) := by
  intro hgo
  cases h <;> rcases hgo.cases with ⟨_, _, hop, _⟩ | ⟨_, hle⟩
  all_goals first | cases hop | exact absurd hle (by decide)

end Level.EndsAt

theorem Test.not_endsAt {us rest : List Token} {kind : TypeTest} {negated : Bool}
    (h : Test us kind negated) : ¬Level.test.EndsAt (us ++ rest) := by
  intro hends
  cases h <;> exact hends .test

end Expr

end Covenant
