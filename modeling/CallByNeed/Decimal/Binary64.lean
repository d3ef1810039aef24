/-!
# Double-precision numbers as exact fractions

A finite double is `± significand · 2 ^ exponent`. This module reads that decomposition off the
bits, and goes back: `nearestBits n d` is the bit pattern of the double nearest to the fraction
`n / d`, a half going to the even significand and a fraction beyond the largest double to infinity.

Both directions are arithmetic on natural numbers, so that what is said about the text of a number
can be said about integers.
-/

namespace CallByNeed

/-- `2 ^ n`. -/
def twoTo (n : Nat) : Nat :=
  Nat.pow 2 n

/-- The number of doubles from one power of two to the next, `2 ^ 52`. -/
def gridSize : Nat := 0x10000000000000

/-- The weight of the sign in a bit pattern, `2 ^ 63`. -/
def signWeight : Nat := 0x8000000000000000

/-- The absolute value `significand · 2 ^ exponent` of a finite double. -/
structure Magnitude where
  /-- The integer that is scaled. -/
  significand : Nat
  /-- The power of two it is scaled by. -/
  exponent : Int
deriving DecidableEq, Repr

namespace Magnitude

/-- The magnitude whose bit pattern, sign bit cleared, is `bits`. The patterns below `gridSize` are
the subnormal numbers, which share the exponent of the smallest normal ones. -/
def ofBits (bits : Nat) : Magnitude :=
  let stored : Nat := bits / gridSize
  let fraction : Nat := bits % gridSize
  if stored = 0 then ⟨fraction, -1074⟩ else ⟨gridSize + fraction, stored - 1075⟩

/-- The numerator of the magnitude as a fraction of natural numbers. -/
def num (m : Magnitude) : Nat :=
  m.significand * twoTo m.exponent.toNat

/-- The denominator of the magnitude as a fraction of natural numbers. -/
def den (m : Magnitude) : Nat :=
  twoTo (-m.exponent).toNat

/-- The magnitude as a natural number, if it is one. -/
def toNat? (m : Magnitude) : Option Nat :=
  if m.num % m.den = 0 then some (m.num / m.den) else none

end Magnitude

namespace Binary64

/-- The bit pattern of infinity, which is also the number of finite patterns of one sign. -/
def infinityBits : Nat := 0x7ff0000000000000

/-- `n / d` rounded to a natural number, a half going to the even neighbour. -/
def roundHalfEven (n d : Nat) : Nat :=
  let below := n / d
  let rest := n % d
  if 2 * rest < d then below
  else if d < 2 * rest then below + 1
  else below + below % 2

/-- The exponent of the leading bit of `n / d`, for `n` and `d` positive: the greatest `l` with
`2 ^ l ≤ n / d`. -/
def leadingExponent (n d : Nat) : Int :=
  let l : Int := n.log2 - d.log2
  if n * twoTo (-l).toNat < d * twoTo l.toNat then l - 1 else l

/-- The exponent of the grid of the doubles around `n / d`: its last bit is 52 places behind the
leading one, but never behind that of the smallest double. -/
def gridExponent (n d : Nat) : Int :=
  let l := leadingExponent n d - 52
  if l < -1074 then -1074 else l

/-- The bit pattern of the double nearest to `n / d`, ties to even, for `d` positive.

The significand is rounded on the grid of the doubles around `n / d`. Since consecutive patterns
are consecutive doubles, adding the rounded significand to the pattern at which that grid starts is
right also where rounding carries into the next power of two. -/
def nearestBits (n d : Nat) : Nat :=
  if n = 0 then 0
  else
    let grid := gridExponent n d
    let rounded := roundHalfEven (n * twoTo (-grid).toNat) (d * twoTo grid.toNat)
    let bits := (grid + 1074).toNat * gridSize + rounded
    if bits < infinityBits then bits else infinityBits

/-- The double with the given sign and the given pattern of the other bits. -/
def ofSignBits (negative : Bool) (bits : Nat) : Float :=
  Float.ofBits (UInt64.ofNat (bits + if negative then signWeight else 0))

/-- What kind of number a double is, with the exact value if it is finite. -/
inductive Shape where
  /-- Not a number. -/
  | nan
  /-- Positive or negative infinity. -/
  | infinite (negative : Bool)
  /-- A finite number, zero included, by its sign and the pattern of its other bits. -/
  | finite (negative : Bool) (bits : Nat)
deriving DecidableEq, Repr

/-- Reads the kind of a double off its bits. -/
def shape (x : Float) : Shape :=
  let all := x.toBits.toNat
  let negative := decide (signWeight ≤ all)
  let bits := all % signWeight
  if bits < infinityBits then .finite negative bits
  else if bits = infinityBits then .infinite negative
  else .nan

/-- The remainder of `x / y` with the quotient cut towards zero, which has the sign of `x`; it is
exact. `none` if `x` is infinite and `y` is a number, when no remainder exists. The divisor is
taken to be non-zero. -/
def remainder? (x y : Float) : Option Float :=
  match shape x, shape y with
  | .nan, _ => some x
  | _, .nan => some y
  | .infinite _, _ => none
  | .finite _ _, .infinite _ => some x
  | .finite negative a, .finite _ b =>
    let m := Magnitude.ofBits a
    let n := Magnitude.ofBits b
    let rest := (m.num * n.den) % (n.num * m.den)
    some (ofSignBits negative (nearestBits rest (m.den * n.den)))

end Binary64

end CallByNeed
