import CallByNeed.Decimal.Shortest

/-!
# Writing a decimal number

A `Layout` decides which numbers are written positionally and how the exponent of the others looks.
-/

namespace CallByNeed

/-- How a decimal number is written. -/
structure Layout where
  /-- Numbers whose point lies after this place are written positionally, if not too large. -/
  pointAbove : Int
  /-- Numbers whose point lies no further than this place are written positionally. -/
  pointUpTo : Int
  /-- Whether a positional number without a fraction ends in `.0`. -/
  keepsFraction : Bool
  /-- The least number of digits of an exponent. -/
  exponentWidth : Nat
deriving DecidableEq, Repr

namespace Layout

/-- The digits with the decimal point where it stands. -/
def positional (l : Layout) (digits : List Char) (point : Int) : List Char :=
  if point ≤ 0 then
    '0' :: '.' :: List.replicate (-point).toNat '0' ++ digits
  else if point < digits.length then
    digits.take point.toNat ++ '.' :: digits.drop point.toNat
  else
    digits ++ List.replicate (point.toNat - digits.length) '0' ++
      if l.keepsFraction then ['.', '0'] else []

/-- One digit before the decimal point, and the power of ten that makes up for it. -/
def scientific (l : Layout) (digits : List Char) (point : Int) : List Char :=
  let power := Nat.toDigits 10 (point - 1).natAbs
  let fraction := if digits.length > 1 then '.' :: digits.drop 1 else []
  digits.take 1 ++ fraction ++ 'e' :: (if point > 0 then '+' else '-') ::
    List.replicate (l.exponentWidth - power.length) '0' ++ power

/-- The text of a decimal number. -/
def write (l : Layout) (d : Decimal) : String :=
  let digits := d.digits
  let point := d.point
  String.ofList <|
    if l.pointAbove < point ∧ point ≤ l.pointUpTo then l.positional digits point
    else l.scientific digits point

end Layout

end CallByNeed
