import CallByNeed.Decimal.Binary64

/-!
# Decimal numbers and the shortest one that reads back

A decimal number is a coefficient scaled by a power of ten. `Decimal.nearestBits` reads one as a
double, and `Decimal.shortest` goes the other way: of all decimal numbers that read back as the
given double it takes one with the fewest digits, and among those the nearest.
-/

namespace CallByNeed

/-- `10 ^ n`. -/
def tenTo (n : Nat) : Nat :=
  Nat.pow 10 n

/-- The non-negative number `coefficient · 10 ^ exponent`. -/
structure Decimal where
  /-- The digits, as one number. -/
  coefficient : Nat
  /-- The power of ten they are scaled by. -/
  exponent : Int
deriving DecidableEq, Repr

namespace Decimal

/-- The numerator of the number as a fraction of natural numbers. -/
def num (d : Decimal) : Nat :=
  d.coefficient * tenTo d.exponent.toNat

/-- The denominator of the number as a fraction of natural numbers. -/
def den (d : Decimal) : Nat :=
  tenTo (-d.exponent).toNat

/-- The bit pattern of the double nearest to the number. -/
def nearestBits (d : Decimal) : Nat :=
  Binary64.nearestBits d.num d.den

/-- The double nearest to the number, with the given sign. -/
def toFloat (negative : Bool) (d : Decimal) : Float :=
  Binary64.ofSignBits negative d.nearestBits

/-- The decimal digits of the coefficient, without leading zeros. -/
def digits (d : Decimal) : List Char :=
  Nat.toDigits 10 d.coefficient

/-- Where the decimal point stands, counted in digits from before the first one: the number is
`0.DIGITS · 10 ^ point`. -/
def point (d : Decimal) : Int :=
  d.digits.length + d.exponent

/-- Moves the trailing zeros of the coefficient into the exponent, at most `fuel` of them. -/
def trimBy : Nat → Decimal → Decimal
  | 0, d => d
  | fuel + 1, d =>
    if d.coefficient ≠ 0 ∧ d.coefficient % 10 = 0 then
      trimBy fuel ⟨d.coefficient / 10, d.exponent + 1⟩
    else d

/-- The same number with a coefficient that does not end in zero. A number has no more trailing
zeros than digits, so the bound is never met. -/
def trim (d : Decimal) : Decimal :=
  trimBy d.digits.length d

/-- Every positive double is at least `10 ^ -scaleShift`. -/
def scaleShift : Nat := 324

/-- The number of digits before the decimal point of `n / d`, at least `10 ^ -scaleShift`; negative
if zeros follow the point. -/
def leadingPoint (n d : Nat) : Int :=
  (Nat.toDigits 10 (n * tenTo scaleShift / d)).length - scaleShift

/-- The neighbours of `n / d` on the grid of the multiples of `10 ^ exponent`: the one not above
it, and whether `n / d` is above, at or below the middle between that one and the next. -/
def gridBelow (n d : Nat) (exponent : Int) : Nat × Ordering :=
  let n := n * tenTo (-exponent).toNat
  let d := d * tenTo exponent.toNat
  (n / d, compare (2 * (n % d)) d)

/-- The multiple of `10 ^ exponent` next to `n / d` that reads back as `bits`. If both do, the
nearer one is taken, and of two equally near ones the one with the even last digit. -/
def onGrid? (n d bits : Nat) (exponent : Int) : Option Decimal :=
  let (below, side) := gridBelow n d exponent
  let low : Decimal := ⟨below, exponent⟩
  let high : Decimal := ⟨below + 1, exponent⟩
  match decide (low.nearestBits = bits), decide (high.nearestBits = bits) with
  | false, false => none
  | true, false => some low
  | false, true => some high
  | true, true =>
    match side with
    | .lt => some low
    | .gt => some high
    | .eq => some (if below % 2 = 0 then low else high)

/-- Searches ever finer grids, starting with `10 ^ exponent`, for a number that reads back. -/
def searchGrids (n d bits : Nat) : Nat → Int → Decimal
  | 0, exponent => ⟨(gridBelow n d exponent).1, exponent⟩
  | fuel + 1, exponent =>
    match onGrid? n d bits exponent with
    | some found => found
    | none => searchGrids n d bits fuel (exponent - 1)

/-- The decimal number with the fewest digits that reads back as the positive finite double with
the given bit pattern, and the nearest of those. Seventeen digits always suffice. -/
def shortest (bits : Nat) : Decimal :=
  let m := Magnitude.ofBits bits
  (searchGrids m.num m.den bits 17 (leadingPoint m.num m.den - 1)).trim

end Decimal

end CallByNeed
