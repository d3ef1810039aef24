import CallByNeed.Text.Quoted

/-!
# Reading UTF-8

`Utf8.decode` reads bytes as characters. It goes through the bytes one at a time: a first byte says
which bytes may follow it, and the first byte that may not ends the reading.
-/

namespace CallByNeed.Utf8

/-- Why bytes are no text. -/
inductive Reason where
  /-- No character starts with the byte. -/
  | start
  /-- A character is not continued. -/
  | continuation
  /-- The bytes end within a character. -/
  | ending
deriving DecidableEq, Repr

/-- How a reason is put in a message. -/
def Reason.text : Reason → String
  | start => "invalid start byte"
  | continuation => "invalid continuation byte"
  | ending => "unexpected end of data"

/-- The bytes that are no character. -/
structure Problem where
  /-- The first of them. -/
  first : UInt8
  /-- The position of the first. -/
  position : Nat
  /-- How many there are, at least one. -/
  length : Nat
  /-- What is wrong. -/
  reason : Reason
deriving DecidableEq, Repr

/-- The message for a problem. -/
def Problem.message (p : Problem) : String :=
  let subject :=
    if p.length ≤ 1 then
      "byte 0x" ++ String.ofList (Text.hex 2 p.first.toNat) ++ " in position " ++ p.position.repr
    else
      "bytes in position " ++ p.position.repr ++ "-" ++ (p.position + p.length - 1).repr
  "'utf-8' codec can't decode " ++ subject ++ ": " ++ p.reason.text

/-- A range of bytes. -/
structure Range where
  /-- The first. -/
  low : Nat
  /-- The last. -/
  high : Nat
deriving DecidableEq, Repr

/-- The bytes that continue a character. -/
def tail : Range :=
  ⟨0x80, 0xbf⟩

/-- What a first byte contributes to the character, and the bytes that have to follow. The second
byte is restricted where the character would be written too long, would be a surrogate or would be
out of range. -/
def lead (b : UInt8) : Option (Nat × List Range) :=
  let n := b.toNat
  if n < 0x80 then some (n, [])
  else if n < 0xc2 then none
  else if n < 0xe0 then some (n - 0xc0, [tail])
  else if n = 0xe0 then some (0, [⟨0xa0, 0xbf⟩, tail])
  else if n = 0xed then some (0xd, [⟨0x80, 0x9f⟩, tail])
  else if n < 0xf0 then some (n - 0xe0, [tail, tail])
  else if n = 0xf0 then some (0, [⟨0x90, 0xbf⟩, tail, tail])
  else if n < 0xf4 then some (n - 0xf0, [tail, tail, tail])
  else if n = 0xf4 then some (4, [⟨0x80, 0x8f⟩, tail, tail])
  else none

/-- A character of which some bytes have been read. -/
structure Partial where
  /-- Its first byte. -/
  first : UInt8
  /-- The position of that. -/
  position : Nat
  /-- What the bytes so far contribute. -/
  value : Nat
  /-- The byte that has to follow. -/
  next : Range
  /-- The bytes that have to follow that. -/
  later : List Range
deriving DecidableEq, Repr

/-- Reads the bytes from a position on, within a character if one has been read in part. -/
def decodeFrom (position : Nat) : Option Partial → List UInt8 → Except Problem (List Char)
  | none, [] => .ok []
  | some p, [] => .error ⟨p.first, p.position, position - p.position, .ending⟩
  | none, b :: bs =>
    match lead b with
    | none => .error ⟨b, position, 1, .start⟩
    | some (value, []) =>
      (decodeFrom (position + 1) none bs).map fun cs => Char.ofNat value :: cs
    | some (value, next :: later) =>
      decodeFrom (position + 1) (some ⟨b, position, value, next, later⟩) bs
  | some p, b :: bs =>
    if p.next.low ≤ b.toNat ∧ b.toNat ≤ p.next.high then
      let value := 64 * p.value + b.toNat % 64
      match p.later with
      | [] => (decodeFrom (position + 1) none bs).map fun cs => Char.ofNat value :: cs
      | next :: later =>
        decodeFrom (position + 1) (some { p with value := value, next := next, later := later }) bs
    else .error ⟨p.first, p.position, position - p.position, .continuation⟩

/-- Reads bytes as characters. -/
def decode (bytes : List UInt8) : Except Problem (List Char) :=
  decodeFrom 0 none bytes

end CallByNeed.Utf8
