import CallByNeed.Text.Blank
import CallByNeed.Token

/-!
# Reading tokens

`tokenize` cuts a text into tokens. Between tokens stand white space and comments, which run from
two slashes to the end of the line. At every place the longest token is taken: `Lexeme.scan` finds
it and says how many characters it has, and `lexFrom` walks through the text character by
character, so that a token's place is the number of lines and columns that were walked.
-/

namespace CallByNeed

/-- Why a text cannot be cut into tokens. -/
inductive LexCause where
  /-- No token starts with this character. -/
  | unexpected (c : Char)
  /-- A quoted text does not end before the line does. -/
  | unterminated
deriving DecidableEq, Repr

/-- The message for a cause. -/
def LexCause.message : LexCause → String
  | .unexpected c => "Unexpected character '" ++ String.singleton c ++ "'"
  | .unterminated => "Unterminated string literal"

/-- Why and where a text cannot be cut into tokens. -/
structure LexError where
  /-- What is wrong. -/
  cause : LexCause
  /-- The character that starts no token, or the quote that is not closed. -/
  location : Location
deriving DecidableEq, Repr

/-- The token at the front of a text, and how many characters it takes. -/
structure Lexeme where
  /-- The token. -/
  kind : TokenKind
  /-- The number of its characters. -/
  length : Nat
deriving DecidableEq, Repr

namespace Lexeme

/-- The first symbol of the table that the text starts with. -/
def symbol? (cs : List Char) : Option Lexeme :=
  (Symbol.literal.find? fun s => s.text.toList.isPrefixOf cs).map fun s =>
    ⟨.symbol s, s.text.length⟩

/-- The number that a run of decimal digits writes. -/
def digitsValue (cs : List Char) : Nat :=
  cs.foldl (fun n c => 10 * n + (c.toNat - '0'.toNat)) 0

/-- The digits after a decimal point. A point that no digit follows does not belong to a
numeral. -/
def fraction : List Char → List Char
  | '.' :: cs => cs.takeWhile Char.isDigit
  | _ => []

/-- A numeral: digits and, if one follows, a fraction. -/
def number? (cs : List Char) : Option Lexeme :=
  let whole := cs.takeWhile Char.isDigit
  if whole.isEmpty then none
  else
    let part := fraction (cs.drop whole.length)
    let value : Decimal := ⟨digitsValue (whole ++ part), -part.length⟩
    some ⟨.number (value.toFloat false),
      whole.length + if part.isEmpty then 0 else part.length + 1⟩

/-- Whether a name can start with the character. -/
def startsName (c : Char) : Bool :=
  c.isAlpha || c == '_'

/-- Whether a name can go on with the character. -/
def continuesName (c : Char) : Bool :=
  c.isAlphanum || c == '_'

/-- The reserved word or name that consists of the given characters. -/
def word (cs : List Char) : TokenKind :=
  match Symbol.reserved.find? fun s => s.text.toList == cs with
  | some s => .symbol s
  | none => .identifier (String.ofList cs)

/-- A name or a reserved word. -/
def word? : List Char → Option Lexeme
  | [] => none
  | c :: cs =>
    if startsName c then
      let name := c :: cs.takeWhile continuesName
      some ⟨word name, name.length⟩
    else none

/-- What a character stands for after a backslash. -/
def unescape (c : Char) : Char :=
  if c = 'n' then '\n' else c

/-- The rest of a quoted text: what it stands for and its number of characters, the closing quote
included. `none` if the line or the text ends first. -/
def quoted? : List Char → Option (List Char × Nat)
  | [] => none
  | ['\\'] => none
  | '"' :: _ => some ([], 1)
  | '\n' :: _ => none
  | '\\' :: c :: cs => (quoted? cs).map fun (value, n) => (unescape c :: value, n + 2)
  | c :: cs => (quoted? cs).map fun (value, n) => (c :: value, n + 1)

/-- The token at the front of a text that starts neither with white space nor with a comment. -/
def scan (cs : List Char) : Except LexCause Lexeme :=
  match symbol? cs <|> number? cs <|> word? cs with
  | some l => .ok l
  | none =>
    match cs with
    | '"' :: rest =>
      match quoted? rest with
      | some (value, n) => .ok ⟨.string (String.ofList value), n + 1⟩
      | none => .error .unterminated
    | c :: _ => .error (.unexpected c)
    | [] => .error .unterminated

end Lexeme

/-- The number of characters of the comment at the front of a text, zero if there is none. The line
feed that ends a comment is not part of it. -/
def commentLength : List Char → Nat
  | '/' :: '/' :: cs => 2 + (cs.takeWhile (· != '\n')).length
  | _ => 0

/-- The tokens of a text that starts at the given place, after the characters that still belong to
the token or comment before. -/
def lexFrom (location : Location) : Nat → List Char → Except LexError (List Token)
  | _, [] => .ok [⟨.eof, location⟩]
  | inside + 1, c :: cs => lexFrom (location.next c) inside cs
  | 0, c :: cs =>
    if Text.isBlank c then lexFrom (location.next c) 0 cs
    else
      match commentLength (c :: cs) with
      | length + 1 => lexFrom (location.next c) length cs
      | 0 =>
        match Lexeme.scan (c :: cs) with
        | .error cause => .error ⟨cause, location⟩
        | .ok l =>
          match lexFrom (location.next c) (l.length - 1) cs with
          | .error e => .error e
          | .ok ts => .ok (⟨l.kind, location⟩ :: ts)

/-- What still belongs to the token before is walked through. -/
theorem lexFrom_inside (location : Location) (n : Nat) (cs : List Char) :
    lexFrom location n cs = lexFrom (location.after (cs.take n)) 0 (cs.drop n) := by
  induction n generalizing location cs with
  | zero => simp
  | succ n ih =>
    cases cs with
    | nil => simp [lexFrom]
    | cons c cs => simp [lexFrom, ih]

/-- The tokens of a text, the last one marking its end. `text` is the number of the text in its
session. -/
def tokenize (text : Nat) (source : String) : Except LexError (List Token) :=
  lexFrom (.first text) 0 source.toList

end CallByNeed
