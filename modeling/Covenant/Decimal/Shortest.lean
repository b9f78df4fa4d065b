/-! Shortest decimal digits of a float. A finite float stands for every real number that
rounds to it; among the decimals in that interval the one with the fewest digits is taken,
and of two such decimals the nearer one. Both neighbours of the value on a decimal grid are
tested in exact arithmetic, from one digit up to seventeen; seventeen digits always suffice. -/

namespace Covenant.Decimal

/-- What becomes of two decimals that are equally near. -/
inductive Tie
  | toEven
  | up
  deriving DecidableEq

/-- `coefficient · 10 ^ exponent`. -/
structure Digits where
  coefficient : Nat
  exponent : Int
  deriving DecidableEq

/-- A positive float `mantissa · 2 ^ exponent`. At a power of two (`narrow`) the float below
is half as far away as the float above. -/
structure Magnitude where
  mantissa : Nat
  exponent : Int
  narrow : Bool

/-- The magnitude with the given bits, which are those of a finite float. -/
def Magnitude.ofBits (bits : UInt64) : Magnitude :=
  let fraction := (bits &&& 0x000fffffffffffff).toNat
  let biased := ((bits >>> 52) &&& 0x7ff).toNat
  if biased = 0 then ⟨fraction, -1074, false⟩
  else ⟨fraction + Nat.pow 2 52, (biased : Int) - 1075, fraction = 0 && 1 < biased⟩

namespace Magnitude

variable (m : Magnitude)

/-- The value in quarters of the float's last place, the unit in which both ends of the
interval are whole. -/
def quarters : Nat := 4 * m.mantissa

def lowEnd : Nat := m.quarters - if m.narrow then 1 else 2

def highEnd : Nat := m.quarters + 2

/-- The ends round to the float themselves exactly when its mantissa is even. -/
def closed : Bool := m.mantissa % 2 = 0

/-- One quarter of the last place and one step `10 ^ k` of a decimal grid, brought to a
common denominator. -/
def units (k : Int) : Nat × Nat :=
  (Nat.pow 2 (m.exponent - 2).toNat * Nat.pow 10 (-k).toNat,
    Nat.pow 2 (2 - m.exponent).toNat * Nat.pow 10 k.toNat)

/-- Whether `c · 10 ^ k` rounds to the float. -/
def covers (k : Int) (c : Nat) : Bool :=
  let (quarter, step) := m.units k
  if m.closed then m.lowEnd * quarter ≤ c * step && c * step ≤ m.highEnd * quarter
  else m.lowEnd * quarter < c * step && c * step < m.highEnd * quarter

/-- The power of ten of the first digit. -/
def firstExponent : Int :=
  let guess := ((m.mantissa.log2 : Int) + m.exponent) * 30103 / 100000
  let (quarter, step) := m.units (guess + 1)
  if step ≤ m.quarters * quarter then guess + 1 else guess

/-- The decimal of the grid `10 ^ k` that stands for the float, if there is one. -/
def onGrid? (tie : Tie) (k : Int) : Option Nat :=
  let (quarter, step) := m.units k
  let value := m.quarters * quarter
  let below := value / step
  let above := below + 1
  match m.covers k below, m.covers k above with
  | false, false => none
  | true, false => some below
  | false, true => some above
  | true, true =>
    match compare (value - below * step) (above * step - value) with
    | .lt => some below
    | .gt => some above
    | .eq => some (if tie = .toEven && below % 2 = 0 then below else above)

end Magnitude

/-- Drops the zeros at the end of the coefficient. -/
def Digits.trimmed (d : Digits) : Digits :=
  go (d.coefficient.log2 + 1) d
where
  go : Nat → Digits → Digits
    | 0, d => d
    | n + 1, d =>
      if d.coefficient % 10 = 0 && d.coefficient != 0 then
        go n ⟨d.coefficient / 10, d.exponent + 1⟩
      else d

/-- The shortest decimal of a positive float. -/
def Magnitude.shortest (m : Magnitude) (tie : Tie) : Digits :=
  let first := m.firstExponent
  let grids := (List.range 17).map fun n : Nat => first - n
  match grids.findSome? fun k => (m.onGrid? tie k).map (Digits.mk · k) with
  | some d => d.trimmed
  | none => ⟨m.mantissa, 0⟩

end Covenant.Decimal
