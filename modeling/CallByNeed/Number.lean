import CallByNeed.Decimal.Layout

/-!
# Numbers of the language

Numbers are doubles. `Number.display` is the text a program sees, and `Number.describe` the text
used where a value is described for inspection.
-/

namespace CallByNeed.Number

open Binary64

/-- What programs see: positional from `10 ^ -6` up to `10 ^ 21`, no padding. -/
def displayLayout : Layout :=
  { pointAbove := -6, pointUpTo := 21, keepsFraction := false, exponentWidth := 1 }

/-- What inspection shows: positional from `10 ^ -4` up to `10 ^ 16`, always with a fraction, and
exponents of at least two digits. -/
def describeLayout : Layout :=
  { pointAbove := -4, pointUpTo := 16, keepsFraction := true, exponentWidth := 2 }

/-- The integers below this one are written with all their digits. -/
def integerBound : Nat := 1000000000000000000000

/-- Puts a minus sign before the text of a negative number. -/
def signed (negative : Bool) (text : String) : String :=
  if negative then "-" ++ text else text

/-- The text of a number. Integers below `integerBound` are written with all their digits, and zero
without a sign; of any other number the shortest digits that read back are written. -/
def display (x : Float) : String :=
  match shape x with
  | .nan => "NaN"
  | .infinite negative => signed negative "Infinity"
  | .finite negative bits =>
    match (Magnitude.ofBits bits).toNat? with
    | some n =>
      if n < integerBound then signed (negative && n != 0) (String.ofList (Nat.toDigits 10 n))
      else signed negative (displayLayout.write (Decimal.shortest bits))
    | none => signed negative (displayLayout.write (Decimal.shortest bits))

/-- The text of a number under inspection, where zero keeps its sign. -/
def describe (x : Float) : String :=
  match shape x with
  | .nan => "nan"
  | .infinite negative => signed negative "inf"
  | .finite negative bits =>
    if bits = 0 then signed negative "0.0"
    else signed negative (describeLayout.write (Decimal.shortest bits))

end CallByNeed.Number
