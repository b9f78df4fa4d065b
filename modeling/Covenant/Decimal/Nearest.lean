/-! The float nearest to a decimal numeral. A decimal far outside the range of floats is
settled by its size, so that no huge power of ten is ever computed. -/

namespace Covenant.Decimal

def digitValue (c : Char) : Nat := c.toNat - '0'.toNat

/-- The number that a list of decimal digits writes. -/
def ofDigits (digits : List Char) : Nat :=
  digits.foldl (fun n c => 10 * n + digitValue c) 0

/-- The float nearest to `coefficient · 10 ^ exponent`; infinity when that is out of range. -/
def nearest (coefficient : Nat) (exponent : Int) : Float :=
  let size := (Nat.toDigits 10 coefficient).length + exponent
  if coefficient = 0 || size < -330 then 0.0
  else if 310 < size then 1.0 / 0.0
  else Float.ofScientific coefficient (exponent < 0) exponent.natAbs

/-- The float nearest to `whole.fraction · 10 ^ exponent`. -/
def nearestOfDigits (whole fraction : List Char) (exponent : Int) : Float :=
  nearest (ofDigits (whole ++ fraction)) (exponent - fraction.length)

end Covenant.Decimal
