import CallByNeed.Text.Blank

/-!
# Integers in running text

An integer may be written with the decimal digits of any script, with a sign, with white space
around it and with single underscores between its digits. The control characters that separate
fields and records are white space in a text, but not around an integer.
-/

namespace CallByNeed.Text

/-- The zeros of the scripts that have decimal digits; the other nine follow each of them. -/
def zeros : List Nat :=
  [0x30, 0x660, 0x6f0, 0x7c0, 0x966, 0x9e6, 0xa66, 0xae6, 0xb66, 0xbe6, 0xc66, 0xce6, 0xd66,
    0xde6, 0xe50, 0xed0, 0xf20, 0x1040, 0x1090, 0x17e0, 0x1810, 0x1946, 0x19d0, 0x1a80, 0x1a90,
    0x1b50, 0x1bb0, 0x1c40, 0x1c50, 0xa620, 0xa8d0, 0xa900, 0xa9d0, 0xa9f0, 0xaa50, 0xabf0,
    0xff10, 0x104a0, 0x10d30, 0x11066, 0x110f0, 0x11136, 0x111d0, 0x112f0, 0x11450, 0x114d0,
    0x11650, 0x116c0, 0x11730, 0x118e0, 0x11950, 0x11c50, 0x11d50, 0x11da0, 0x16a60, 0x16ac0,
    0x16b50, 0x1d7ce, 0x1d7d8, 0x1d7e2, 0x1d7ec, 0x1d7f6, 0x1e140, 0x1e2f0, 0x1e950, 0x1fbf0]

/-- The value of a decimal digit. -/
def digit? (c : Char) : Option Nat :=
  (zeros.find? fun z => z ≤ c.toNat && c.toNat < z + 10).map fun z => c.toNat - z

/-- Reads digits after those of the number `n`. An underscore, or the end, may stand only directly
after a digit. -/
def digits? (n : Nat) (afterDigit : Bool) : List Char → Option Nat
  | [] => if afterDigit then some n else none
  | c :: cs =>
    if c = '_' then (if afterDigit then digits? n false cs else none)
    else
      match digit? c with
      | some d => digits? (10 * n + d) true cs
      | none => none

/-- The longest run of digits that is read as an integer. -/
def maxDigits : Nat := 4300

/-- Whether a character may stand around an integer. -/
def isMargin (c : Char) : Bool :=
  isBlank c && !(0x1c ≤ c.toNat && c.toNat ≤ 0x1f)

/-- Reads an integer. -/
def integer? (s : String) : Option Int :=
  let cs := stripBy isMargin s.toList
  if maxDigits < (cs.filter fun c => (digit? c).isSome).length then none
  else
    match cs with
    | '-' :: cs => (digits? 0 false cs).map fun n => -(n : Int)
    | '+' :: cs => (digits? 0 false cs).map Int.ofNat
    | cs => (digits? 0 false cs).map Int.ofNat

end CallByNeed.Text
