import Covenant.Decimal.Shortest

/-! Layouts of floats. The digits of a float are the shortest ones; a layout says where the
point stands, when the number is written with an exponent, and what the numbers without
digits are called. -/

namespace Covenant.Decimal

structure Layout where
  /-- The powers of ten of a first digit that are written without an exponent. -/
  positional : Int → Bool
  /-- A whole number without an exponent ends in `.0`. -/
  marksWhole : Bool
  /-- A positive exponent has its sign. -/
  signsExponent : Bool
  tie : Tie
  nan : String
  infinity : String

/-- The digits with the point after the digit of power zero. -/
def positionalText (marksWhole : Bool) (digits : List Char) (first : Int) : List Char :=
  if first < 0 then
    '0' :: '.' :: (List.replicate (-first - 1).toNat '0' ++ digits)
  else
    let whole := first.toNat + 1
    if digits.length ≤ whole then
      digits ++ List.replicate (whole - digits.length) '0' ++ if marksWhole then ['.', '0'] else []
    else digits.take whole ++ '.' :: digits.drop whole

/-- One digit before the point, and the power of ten of that digit. -/
def exponentText (signsExponent : Bool) (digits : List Char) (first : Int) : List Char :=
  let point := if digits.length ≤ 1 then [] else ['.']
  let sign := if first < 0 then ['-'] else if signsExponent then ['+'] else []
  digits.take 1 ++ point ++ digits.drop 1 ++ 'e' :: sign ++ Nat.toDigits 10 first.natAbs

namespace Layout

def digitsText (l : Layout) (digits : List Char) (first : Int) : List Char :=
  if l.positional first then positionalText l.marksWhole digits first
  else exponentText l.signsExponent digits first

/-- The text of a finite float without its sign. -/
def magnitudeText (l : Layout) (bits : UInt64) : List Char :=
  let m := Magnitude.ofBits bits
  if m.mantissa = 0 then l.digitsText ['0'] 0
  else
    let d := m.shortest l.tie
    let digits := Nat.toDigits 10 d.coefficient
    l.digitsText digits (d.exponent + digits.length - 1)

def write (l : Layout) (x : Float) : String :=
  if x.isNaN then l.nan
  else
    let sign := if x.toBits >>> 63 = 1 then "-" else ""
    sign ++ if x.isInf then l.infinity else String.ofList (l.magnitudeText x.toBits)

end Layout

end Covenant.Decimal
