import Covenant.Expr.Eval
import Covenant.Proofs.Decimals

/-! The order of values and their equality. The relations order two texts or two numbers, and fail
on everything else and on what is no number; equality is there for all values. They are computed
in two ways, integers exactly and next to a float as floats, and still they fit together: of two
values that can be compared exactly one is less, or they are equal. -/

namespace Covenant

/-! ### Floats -/

namespace Binary64

open Float.Model Float.Model.UnpackedFloat

theorem compare_swap (u v : UnpackedFloat) : v.compare u = (u.compare v).map Ordering.swap := by
  have hsign : ∀ s t : Sign, compare t s = (compare s t).swap := by
    rintro (_ | _) (_ | _) <;> rfl
  have hint : ∀ e f : Int, compare f e = (compare e f).swap := fun _ _ => Std.OrientedOrd.eq_swap
  cases u with
  | notANumber => cases v <;> rfl
  | zero s => rcases v with (_ | _) | _ | _ | ⟨_ | _, _⟩ <;> rfl
  | infinity s =>
    cases v with
    | infinity t => simp only [UnpackedFloat.compare, hsign s t, Option.map_some]
    | notANumber | zero | finite => cases s <;> rfl
  | finite s m e =>
    cases v with
    | finite t m' e' =>
      cases s <;> cases t <;>
        simp [UnpackedFloat.compare, Ordering.swap_then, hint e e', Nat.compare_swap]
    | infinity t => cases s <;> cases t <;> rfl
    | notANumber | zero => cases s <;> rfl

theorem compare_eq_none_iff {u v : UnpackedFloat} :
    u.compare v = none ↔ u = .notANumber ∨ v = .notANumber := by
  rcases u with (_ | _) | _ | _ | ⟨_ | _, m, e, hm⟩ <;>
    rcases v with (_ | _) | _ | _ | ⟨_ | _, m', e', hm'⟩ <;>
    simp [UnpackedFloat.compare]

/-- How two floats stand to one another, if both are numbers. -/
def order? (a b : Float) : Option Ordering := a.toModel.compare b.toModel

theorem order?_swap (a b : Float) : order? b a = (order? a b).map Ordering.swap :=
  compare_swap _ _

theorem lt_iff {a b : Float} : a < b ↔ order? a b = some .lt := by
  show decide ((order? a b == some .lt) = true) = true ↔ _
  rw [decide_eq_true_iff, beq_iff_eq]

theorem beq_iff {a b : Float} : (a == b) = true ↔ order? a b = some .eq := by
  show (order? a b == some .eq) = true ↔ _
  rw [beq_iff_eq]

theorem beq_comm (a b : Float) : (a == b) = (b == a) := by
  rw [Bool.eq_iff_iff, beq_iff, beq_iff, order?_swap a b]
  rcases order? a b with _ | _ | _ | _ <;> simp

theorem isNaN_iff {a : Float} : a.isNaN = true ↔ a.toModel.unpack = .notANumber := by
  show a.toModel.unpack.isNaN = true ↔ _
  cases a.toModel.unpack <;> simp [UnpackedFloat.isNaN]

theorem order?_eq_none_iff {a b : Float} :
    order? a b = none ↔ a.isNaN = true ∨ b.isNaN = true := by
  rw [isNaN_iff, isNaN_iff]
  exact compare_eq_none_iff

theorem neg_ne {u : UnpackedFloat} (h : u ≠ .notANumber) : u.neg ≠ .notANumber := by
  cases u with
  | notANumber => exact absurd rfl h
  | infinity | zero | finite => exact UnpackedFloat.noConfusion

/-- The float nearest to an integer is a number. -/
theorem isNaN_ofInt (n : Int) : (Float.ofInt n).isNaN = false := by
  rw [Bool.eq_false_iff, ne_eq, isNaN_iff]
  cases n with
  | ofNat n => exact ofScientific_ne n false 0
  | negSucc n => exact unpack_pack_ne (neg_ne (ofScientific_ne (n + 1) false 0))

end Binary64

/-! ### Values -/

namespace Value

def isNaN : Value → Bool
  | float x => x.isNaN
  | _ => false

/-- Two texts, or two numbers that are not a NaN. -/
inductive Comparable : Value → Value → Prop
  | texts (a b : String) : Comparable (string a) (string b)
  | numbers {v w : Value} (left : v.isNumber = true) (right : w.isNumber = true)
      (left_number : v.isNaN = false) (right_number : w.isNaN = false) : Comparable v w

theorem Comparable.symm {v w : Value} (h : Comparable v w) : Comparable w v := by
  cases h with
  | texts a b => exact .texts b a
  | numbers left right left_number right_number =>
    exact .numbers right left right_number left_number

theorem compareFloats_eq (a b : Float) :
    compareFloats a b = (Binary64.order? a b).elim (.error .notComparable) .ok := by
  unfold compareFloats
  simp only [Binary64.lt_iff, Binary64.beq_iff, Binary64.order?_swap a b]
  rcases Binary64.order? a b with _ | _ | _ | _ <;> rfl

/-- The values stand to one another as `o` says, seen from either side and by equality. -/
structure Stands (v w : Value) (o : Ordering) : Prop where
  order : v.order w = .ok o
  order_swap : w.order v = .ok o.swap
  equals : v.equals w = (o == .eq)

/-- Two numbers that are not both integers are compared as floats. -/
theorem exists_stands_of_floats {v w : Value} {a b : Float}
    (horder : v.order w = compareFloats a b) (horder' : w.order v = compareFloats b a)
    (hequals : v.equals w = (a == b)) (ha : a.isNaN = false) (hb : b.isNaN = false) :
    ∃ o, Stands v w o := by
  cases h : Binary64.order? a b with
  | none =>
    rw [Binary64.order?_eq_none_iff, ha, hb] at h
    simp at h
  | some o =>
    refine ⟨o, ?_, ?_, ?_⟩
    · rw [horder, compareFloats_eq, h]
      rfl
    · rw [horder', compareFloats_eq, Binary64.order?_swap a b, h]
      rfl
    · rw [hequals, Bool.eq_iff_iff, Binary64.beq_iff, h]
      cases o <;> simp

theorem stands_of_integers (a b : Int64) :
    Stands (integer a) (integer b) (compare a.toInt b.toInt) where
  order := rfl
  order_swap := congrArg Except.ok Std.OrientedOrd.eq_swap
  equals := by
    show (a == b) = _
    rw [Bool.eq_iff_iff, beq_iff_eq, beq_iff_eq, Int.compare_eq_eq, Int64.toInt_inj]

theorem stands_of_texts (a b : String) : Stands (string a) (string b) (compare a b) where
  order := rfl
  order_swap := congrArg Except.ok Std.OrientedOrd.eq_swap
  equals := by
    show (a == b) = _
    rw [Bool.eq_iff_iff, beq_iff_eq, beq_iff_eq, Std.LawfulEqOrd.compare_eq_iff_eq]

theorem exists_stands {v w : Value} (h : Comparable v w) : ∃ o, Stands v w o := by
  cases h with
  | texts a b => exact ⟨_, stands_of_texts a b⟩
  | numbers hv hw hv' hw' =>
    cases v with
    | integer a =>
      cases w with
      | integer b => exact ⟨_, stands_of_integers a b⟩
      | float y => exact exists_stands_of_floats rfl rfl rfl (Binary64.isNaN_ofInt _) hw'
      | _ => cases hw
    | float x =>
      cases w with
      | integer b => exact exists_stands_of_floats rfl rfl rfl hv' (Binary64.isNaN_ofInt _)
      | float y => exact exists_stands_of_floats rfl rfl rfl hv' hw'
      | _ => cases hw
    | _ => cases hv

theorem number_of_compareFloats {a b : Float} {o : Ordering} (h : compareFloats a b = .ok o) :
    a.isNaN = false ∧ b.isNaN = false := by
  rw [compareFloats_eq] at h
  cases hnone : Binary64.order? a b with
  | none =>
    rw [hnone] at h
    cases h
  | some _ =>
    have hnan : ¬(a.isNaN = true ∨ b.isNaN = true) := by
      rw [← Binary64.order?_eq_none_iff, hnone]
      simp
    simpa using hnan

theorem comparable_of_order {v w : Value} {o : Ordering} (h : v.order w = .ok o) :
    Comparable v w := by
  cases v with
  | null | boolean | array | object => cases h
  | string a =>
    cases w with
    | string b => exact .texts a b
    | _ => cases h
  | integer a =>
    cases w with
    | integer b => exact .numbers rfl rfl rfl rfl
    | float y => exact .numbers rfl rfl rfl (number_of_compareFloats h).2
    | _ => cases h
  | float x =>
    cases w with
    | integer b => exact .numbers rfl rfl (number_of_compareFloats h).1 rfl
    | float y =>
      obtain ⟨hx, hy⟩ := number_of_compareFloats h
      exact .numbers rfl rfl hx hy
    | _ => cases h

mutual

theorem same_comm (v w : Value) : same v w = same w v := by
  cases v <;> cases w <;> try rfl
  case boolean.boolean a b => exact BEq.comm
  case integer.integer a b => exact BEq.comm
  case string.string a b => exact BEq.comm
  case float.float a b => exact Binary64.beq_comm a b
  case array.array as bs => exact sameItems_comm as bs
  case object.object as bs => exact sameFields_comm as bs

theorem sameItems_comm (as bs : List Value) : sameItems as bs = sameItems bs as := by
  match as, bs with
  | [], [] | [], _ :: _ | _ :: _, [] => rfl
  | a :: as, b :: bs => rw [sameItems, sameItems, same_comm a b, sameItems_comm as bs]

theorem sameFields_comm (as bs : List (String × Value)) :
    sameFields as bs = sameFields bs as := by
  match as, bs with
  | [], [] | [], _ :: _ | _ :: _, [] => rfl
  | (j, a) :: as, (k, b) :: bs =>
    rw [sameFields, sameFields, BEq.comm (a := j), same_comm a b, sameFields_comm as bs]

end

/-- Whichever of its three ways equality takes, it takes the same one from either side. -/
theorem equals_comm (v w : Value) : v.equals w = w.equals v := by
  cases v with
  | integer a =>
    cases w with
    | integer b => exact BEq.comm
    | float y => exact Binary64.beq_comm _ _
    | _ => exact same_comm _ _
  | float x =>
    cases w with
    | integer b => exact Binary64.beq_comm _ _
    | float y => exact Binary64.beq_comm _ _
    | _ => exact same_comm _ _
  | _ => cases w <;> exact same_comm _ _

end Value

/-! ### Operators -/

namespace Expr

open Value (Comparable)

/-- What an operator comes to between two values. -/
def BinaryOp.between (op : BinaryOp) (v w : Value) : Result Value :=
  eval [] ⟨[]⟩ (.binary op (.literal v) (.literal w))

theorem eval_binary {locals : Bag} {state : State} {l r : Expr} {v w : Value}
    (hl : eval locals state l = .ok v) (hr : eval locals state r = .ok w) (op : BinaryOp) :
    eval locals state (.binary op l r) = op.between v w := by
  unfold BinaryOp.between
  cases op <;> rw [eval, eval, hl, hr, eval, eval]

theorem between_relation (op : Relation) (v w : Value) :
    (BinaryOp.relation op).between v w = do return .boolean (op.holds (← v.order w)) := rfl

theorem between_equal (v w : Value) :
    BinaryOp.equal.between v w = .ok (.boolean (v.equals w)) := rfl

theorem between_notEqual (v w : Value) :
    BinaryOp.notEqual.between v w = .ok (.boolean (!v.equals w)) := rfl

theorem exists_between_iff (op : Relation) {v w : Value} :
    (∃ u, (BinaryOp.relation op).between v w = .ok u) ↔ Comparable v w := by
  rw [between_relation]
  constructor
  · rintro ⟨u, h⟩
    cases ho : v.order w with
    | error e =>
      rw [ho] at h
      cases h
    | ok o => exact Value.comparable_of_order ho
  · intro h
    obtain ⟨o, ho⟩ := Value.exists_stands h
    rw [ho.order]
    exact ⟨_, rfl⟩

/-- What the six comparisons of two values come to. -/
structure Comparisons (v w : Value) : Prop where
  /-- It is the same for any expressions that have these values. -/
  operands : ∀ (locals : Bag) (state : State) (l r : Expr), eval locals state l = .ok v →
    eval locals state r = .ok w → ∀ op, eval locals state (.binary op l r) = op.between v w
  /-- The four relations succeed together or fail together, and in the same way from either
  side. -/
  relations : ∀ op : Relation, ((∃ u, (BinaryOp.relation op).between v w = .ok u) ↔
      Comparable v w) ∧ ((∃ u, (BinaryOp.relation op).between w v = .ok u) ↔ Comparable v w)
  /-- Where they succeed, exactly one of less, equal and greater is true. -/
  trichotomy : Comparable v w → ∃ less equal greater : Bool,
    [less, equal, greater].count true = 1 ∧
    (BinaryOp.relation .less).between v w = .ok (.boolean less) ∧
    BinaryOp.equal.between v w = .ok (.boolean equal) ∧
    (BinaryOp.relation .greater).between v w = .ok (.boolean greater) ∧
    (BinaryOp.relation .lessEqual).between v w = .ok (.boolean (less || equal)) ∧
    (BinaryOp.relation .greaterEqual).between v w = .ok (.boolean (greater || equal)) ∧
    (BinaryOp.relation .greater).between w v = .ok (.boolean less)
  equality : ∃ equal : Bool, BinaryOp.equal.between v w = .ok (.boolean equal) ∧
    BinaryOp.equal.between w v = .ok (.boolean equal) ∧
    BinaryOp.notEqual.between v w = .ok (.boolean !equal) ∧
    BinaryOp.notEqual.between w v = .ok (.boolean !equal)
  /-- Integers are not rounded. -/
  integers : ∀ a b : Int64, v = .integer a → w = .integer b →
    (BinaryOp.relation .less).between v w = .ok (.boolean (decide (a.toInt < b.toInt))) ∧
    BinaryOp.equal.between v w = .ok (.boolean (decide (a.toInt = b.toInt))) ∧
    (BinaryOp.relation .greater).between v w = .ok (.boolean (decide (b.toInt < a.toInt)))

/-- The comparisons of any two values agree with one another, and on integers with the order of
the integers. -/
theorem comparisons_agree (v w : Value) : Comparisons v w := by
  refine ⟨fun _ _ _ _ hl hr => eval_binary hl hr, fun op => ?relations, fun h => ?trichotomy,
    ?equality, ?integers⟩
  case relations =>
    have hswap : Comparable w v ↔ Comparable v w := ⟨.symm, .symm⟩
    exact ⟨exists_between_iff op, (exists_between_iff op).trans hswap⟩
  case trichotomy =>
    obtain ⟨o, horder, hswap, hequals⟩ := Value.exists_stands h
    refine ⟨o == .lt, o == .eq, o == .gt, ?_⟩
    simp only [between_relation, between_equal, horder, hswap, hequals]
    cases o <;> simp [Relation.holds]
  case equality =>
    refine ⟨v.equals w, rfl, ?_, rfl, ?_⟩
    · rw [between_equal, Value.equals_comm]
    · rw [between_notEqual, Value.equals_comm]
  case integers =>
    rintro a b rfl rfl
    obtain ⟨horder, -, hequals⟩ := Value.stands_of_integers a b
    simp only [between_relation, between_equal, horder, hequals]
    have htruth : ∀ {s t : Bool}, s = t → (Except.ok (.boolean s) : Result Value) =
        .ok (.boolean t) := by
      rintro s _ rfl
      rfl
    refine ⟨htruth ?_, htruth ?_, htruth ?_⟩
    · show (compare a.toInt b.toInt == .lt) = _
      rw [Bool.eq_iff_iff, beq_iff_eq, decide_eq_true_iff, Int.compare_eq_lt]
    · rw [Bool.eq_iff_iff, beq_iff_eq, decide_eq_true_iff, Int.compare_eq_eq]
    · show (compare a.toInt b.toInt == .gt) = _
      rw [Bool.eq_iff_iff, beq_iff_eq, decide_eq_true_iff, Int.compare_eq_gt]

/-- An integer next to a float is rounded to a float: 2 to the 53 and one more is then 2 to the
53, and so it is not greater. -/
example : BinaryOp.equal.between (.integer 9007199254740993) (.float 9007199254740992.0) =
      .ok (.boolean true) ∧
    (BinaryOp.relation .greater).between (.integer 9007199254740993) (.float 9007199254740992.0) =
      .ok (.boolean false) :=
  ⟨rfl, rfl⟩

end Expr

end Covenant
