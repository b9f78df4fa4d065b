import Covenant.Proofs.Compilation
import Covenant.Proofs.Connectives
import Mathlib.Order.Bounds.Basic

/-! A list of conditions without arguments and the conjunction of their expressions. The list stops
at the first expression whose value is not `true`, be it another value or none; the conjunction
asks its parts for truth values and fails on everything else. Still the list passes exactly where
the conjunction has the value `true`, and where it does not pass, the place of the violation is
that of the first part with which the conjunction is no longer `true`. -/

namespace Covenant

/-! ### Conjunctions -/

namespace Expr

/-- The conjunction of an expression and those after it, grouped to the left. -/
def conjunction (e : Expr) (es : List Expr) : Expr := es.foldl and e

section
variable {locals : Bag} {state : State}

theorem eval_and_eq_true_iff {a b : Expr} :
    eval locals state (a.and b) = .ok (.boolean true) ↔
      eval locals state a = .ok (.boolean true) ∧ eval locals state b = .ok (.boolean true) := by
  have htruth : ∀ e : Expr, truth locals state e = .ok true ↔
      eval locals state e = .ok (.boolean true) := by
    intro e
    unfold truth
    rw [bind_eq_ok_iff]
    constructor
    · rintro ⟨v, hv, htrue⟩
      cases v <;> simp_all [Value.expectBoolean]
    · intro h
      exact ⟨_, h, rfl⟩
  rw [← htruth, ← htruth, ← htruth, and, truth_connective]
  obtain ⟨e, he⟩ | hleft | hleft := Connective.left_cases .and (truth locals state a)
  · simp [he]
  · rw [hleft, Connective.join_settled]
    simp [Connective.settledBy]
  · rw [hleft, Connective.join_unsettled]
    simp [Connective.settledBy]

/-- A conjunction is `true` if all its parts are. -/
theorem eval_conjunction_eq_true_iff {e : Expr} {es : List Expr} :
    eval locals state (conjunction e es) = .ok (.boolean true) ↔
      ∀ x ∈ e :: es, eval locals state x = .ok (.boolean true) := by
  induction es generalizing e with
  | nil => simp [conjunction]
  | cons x es ih =>
    show eval locals state (conjunction (e.and x) es) = _ ↔ _
    rw [ih]
    simp only [List.forall_mem_cons, eval_and_eq_true_iff, and_assoc]

end

end Expr

/-! ### Tests -/

namespace Test

variable {s : State} {ts : List Test}

/-- The first tests hold, as many as there are before the first that does not. -/
theorem forall_take_holds_iff {n : Nat} (hn : n ≤ ts.length) :
    (∀ t ∈ ts.take n, t.holds s = true) ↔ n ≤ firstFailing ts s := by
  induction ts generalizing n with
  | nil => simp_all
  | cons t rest ih =>
    cases n with
    | zero => simp
    | succ n =>
      rw [List.take_succ_cons, List.forall_mem_cons, firstFailing_cons,
        ih (Nat.le_of_succ_le_succ hn)]
      cases t.holds s <;> simp

variable {e : Expr} {es : List Expr} (hexprs : ts.map expr = e :: es)
  (hplain : ∀ t ∈ ts, t.arguments = none)

include hexprs in
theorem length_of_exprs : ts.length = es.length + 1 := by
  simpa using congrArg List.length hexprs

include hexprs hplain

/-- The conjunction of the first parts is `true` as far as the tests hold. -/
theorem eval_conjunction_take_iff {i : Nat} (hi : i ≤ es.length) :
    ((Expr.conjunction e (es.take i)).eval [] s = .ok (.boolean true)) ↔
      i < firstFailing ts s := by
  have hlength := length_of_exprs hexprs
  have htake : e :: es.take i = (ts.take (i + 1)).map expr := by
    rw [List.map_take, hexprs, List.take_succ_cons]
  rw [Expr.eval_conjunction_eq_true_iff, htake, List.forall_mem_map, ← Nat.succ_le_iff,
    ← forall_take_holds_iff (by omega)]
  refine forall₂_congr fun t ht => ?_
  rw [holds_iff, hplain t (List.mem_of_mem_take ht), Option.getD_none]

end Test

/-! ### Lists of conditions -/

/-- What the check of a list says of the conjunction of its expressions `e` and `es` on the state
`s`. -/
structure Conjoined (kind : Kind) (e : Expr) (es : List Expr) (s : State)
    (answer : Except Violation Unit) (after : World State) (events : List (Event RunError Value)) :
    Prop where
  state : after.state = s
  /-- The list passes exactly if the conjunction is `true`, and then all of it has been tested. -/
  passes : answer = .ok () ↔ (Expr.conjunction e es).eval [] s = .ok (.boolean true)
  passed : answer = .ok () → events.map Event.step = kind.steps 0 (es.length + 1)
  /-- Otherwise the violation stands at the first place up to which the conjunction is not `true`,
  and nothing after it has been tested. -/
  fails : ∀ v, answer = .error v → v.kind = kind ∧
    IsLeast {i | i ≤ es.length ∧
      (Expr.conjunction e (es.take i)).eval [] s ≠ .ok (.boolean true)} v.index ∧
    events.map Event.step = kind.steps 0 (v.index + 1)

namespace Test

/-- The steps of the tests that are made. -/
theorem steps_eq (kind : Kind) (ts : List Test) (f : Test → Bool) :
    ((ts.mapIdx fun i t => Event.tested (ε := RunError) (ρ := Value) kind i (f t)).map
      Event.step) = kind.steps 0 ts.length := by
  apply List.ext_getElem
  · simp [Kind.steps]
  · intro i _ _
    simp [Kind.steps, Event.step]

theorem check_conjoined (kind : Kind) {ts : List Test} {e : Expr} {es : List Expr}
    (hexprs : ts.map expr = e :: es) (hplain : ∀ t ∈ ts, t.arguments = none) (w : World State) :
    Records w (Condition.check kind ((ts.map toCondition).mapIdx (Condition.recorded kind))).run
      (Condition.check kind (ts.map toCondition)).run (Conjoined kind e es w.state) := by
  refine Condition.check_records_of fun middle hmiddle => ?_
  have hrecords := checkFrom_records kind ts 0 middle
  simp only [Nat.zero_add, hmiddle] at hrecords
  apply hrecords.imp
  rintro _ after _ ⟨hafter, rfl, rfl⟩
  have hlength := length_of_exprs hexprs
  have hwhole := eval_conjunction_take_iff (s := w.state) hexprs hplain (Nat.le_refl es.length)
  rw [List.take_length] at hwhole
  rcases Nat.lt_or_ge (firstFailing ts w.state) ts.length with hlt | hge
  · -- some test does not hold, and the list stops there
    have hfailing := List.getElem?_eq_getElem hlt
    have hle : firstFailing ts w.state ≤ es.length := by omega
    constructor
    case state => exact hafter
    case passes =>
      rw [hwhole, hfailing, Option.map_some]
      simp only [verdict, reduceCtorEq, false_iff]
      omega
    case passed =>
      rw [hfailing, Option.map_some]
      intro hpass
      cases hpass
    case fails =>
      rw [hfailing, Option.map_some]
      rintro _ ⟨⟩
      refine ⟨rfl, ⟨⟨hle, ?_⟩, ?_⟩, ?_⟩
      · rw [ne_eq, eval_conjunction_take_iff hexprs hplain hle]
        exact Nat.lt_irrefl _
      · rintro i ⟨hi, hfalse⟩
        rw [ne_eq, eval_conjunction_take_iff hexprs hplain hi] at hfalse
        exact Nat.le_of_not_lt hfalse
      · rw [steps_eq, List.length_take, Nat.min_eq_left hlt]
  · have hpassing := List.getElem?_eq_none hge
    constructor
    case state => exact hafter
    case passes =>
      rw [hwhole, hpassing, Option.map_none]
      simp only [verdict, true_iff]
      omega
    case passed =>
      intro _
      rw [steps_eq, List.length_take, Nat.min_eq_right (by omega), hlength]
    case fails =>
      rw [hpassing, Option.map_none]
      intro v hfail
      cases hfail

end Test

namespace Manifest

/-- The tuple starts with a text of the expression. -/
def HasPredicate (tuple : Json) (e : Expr) : Prop :=
  ∃ source, tuple.items.head?.bind Json.source? = some source ∧ Expr.parse source = .ok e

theorem HasPredicate.exists_describes {tuple : Json} {e : Expr} (h : HasPredicate tuple e) :
    ∃ t, Describes .plain tuple t ∧ t.expr = e ∧ t.arguments = none := by
  obtain ⟨source, hsource, he⟩ := h
  cases tuple with
  | array items =>
    cases items with
    | nil => cases hsource
    | cons head rest => exact ⟨_, .plain hsource he, rfl, rfl⟩
  | _ => cases hsource

theorem exists_plain_tests {tuples : List Json} {es : List Expr}
    (h : List.Forall₂ HasPredicate tuples es) :
    ∃ ts, tests .plain (.array tuples) = .ok ts ∧ ts.map Test.expr = es ∧
      ∀ t ∈ ts, t.arguments = none := by
  have hdescribes : ∃ ts, List.Forall₂ (Describes .plain) tuples ts ∧ ts.map Test.expr = es ∧
      ∀ t ∈ ts, t.arguments = none := by
    induction h with
    | nil => exact ⟨[], .nil, rfl, by simp⟩
    | cons hhead _ ih =>
      obtain ⟨t, ht, rfl, hnone⟩ := hhead.exists_describes
      obtain ⟨ts, hts, rfl, hnones⟩ := ih
      exact ⟨t :: ts, .cons ht hts, rfl, List.forall_mem_cons.2 ⟨hnone, hnones⟩⟩
  obtain ⟨ts, hts, hexprs, hplain⟩ := hdescribes
  exact ⟨ts, (tests_eq_ok_iff (leads_of_describes hts)).2 hts, hexprs, hplain⟩

/-- Tuples of any number that start with texts of expressions compile to conditions that stand for
the conjunction of these expressions, on every state. -/
theorem tests_conjoined (kind : Kind) {tuples : List Json} {e : Expr} {es : List Expr}
    (h : List.Forall₂ HasPredicate tuples (e :: es)) (w : World State) :
    ∃ ts, tests .plain (.array tuples) = .ok ts ∧ ts.map Test.expr = e :: es ∧
      Records w
        (Condition.check kind ((ts.map Test.toCondition).mapIdx (Condition.recorded kind))).run
        (Condition.check kind (ts.map Test.toCondition)).run (Conjoined kind e es w.state) := by
  obtain ⟨ts, hts, hexprs, hplain⟩ := exists_plain_tests h
  exact ⟨ts, hts, hexprs, Test.check_conjoined kind hexprs hplain w⟩

/-- Where `n` is 1, `n<2 && n` is no longer `true`, and `m` is not looked at. -/
theorem tests_conjoined_number :
    List.Forall₂ HasPredicate
      [.array [.string "n<2", .string "full"], .array [.string "n"], .array [.string "m"]]
      [.binary (.relation .less) (.name "n") (.literal (.integer 2)), .name "n", .name "m"] ∧
    ∃ ts, tests .plain (.array [.array [.string "n<2", .string "full"], .array [.string "n"],
        .array [.string "m"]]) = .ok ts ∧
      ((Condition.check .invariant (ts.map Test.toCondition)).run
          ⟨⟨[("n", .integer 1)]⟩, []⟩).1 =
        .error ⟨.invariant, 1, "One of the invariants is violated."⟩ ∧
      IsLeast {i | i ≤ 2 ∧ (Expr.conjunction
        (.binary (.relation .less) (.name "n") (.literal (.integer 2)))
        ([.name "n", .name "m"].take i)).eval [] ⟨[("n", .integer 1)]⟩ ≠
          .ok (.boolean true)} 1 := by
  have hsmall : Expr.parse "n<2" =
      .ok (.binary (.relation .less) (.name "n") (.literal (.integer 2))) := by
    with_unfolding_all rfl
  have hn : Expr.parse "n" = .ok (.name "n") := by
    with_unfolding_all rfl
  have hm : Expr.parse "m" = .ok (.name "m") := by
    with_unfolding_all rfl
  have hpredicates : List.Forall₂ HasPredicate
      [.array [.string "n<2", .string "full"], .array [.string "n"], .array [.string "m"]]
      [.binary (.relation .less) (.name "n") (.literal (.integer 2)), .name "n", .name "m"] :=
    .cons ⟨_, rfl, hsmall⟩ (.cons ⟨_, rfl, hn⟩ (.cons ⟨_, rfl, hm⟩ .nil))
  have hdescribes : List.Forall₂ (Describes .plain)
      [.array [.string "n<2", .string "full"], .array [.string "n"], .array [.string "m"]] _ :=
    .cons (.plain rfl hsmall) (.cons (.plain rfl hn) (.cons (.plain rfl hm) .nil))
  obtain ⟨ts, hts, -, hrecords⟩ :=
    tests_conjoined .invariant hpredicates ⟨⟨[("n", .integer 1)]⟩, []⟩
  cases hts.symm.trans ((tests_eq_ok_iff (leads_of_describes hdescribes)).2 hdescribes)
  exact ⟨hpredicates, _, hts, rfl, (hrecords.of_empty.fails _ rfl).2.1⟩

end Manifest

end Covenant
