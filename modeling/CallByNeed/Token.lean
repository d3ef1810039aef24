import CallByNeed.Location
import CallByNeed.Number

/-!
# Tokens

The words of the language. A token is either one of the fixed symbols, or it carries a number, a
text or a name, or it marks the end of the input.
-/

namespace CallByNeed

/-- The tokens that are always written the same way. -/
inductive Symbol where
  /-- The word that opens a declaration. -/
  | let_
  /-- The truth value. -/
  | true_
  /-- The other truth value. -/
  | false_
  /-- The word that opens a statement which outputs a value. -/
  | consoleLog
  /-- The word that opens a statement which outputs an expansion. -/
  | inspectExpanded
  | strictEqual
  | strictNotEqual
  | and
  | or
  | lessOrEqual
  | greaterOrEqual
  | arrow
  | assign
  | not
  | minus
  | plus
  | asterisk
  | slash
  | percent
  | less
  | greater
  | question
  | colon
  | leftParen
  | rightParen
  | semicolon
deriving DecidableEq, Repr

namespace Symbol

/-- How the symbol is written. -/
def text : Symbol → String
  | let_ => "let"
  | true_ => "true"
  | false_ => "false"
  | consoleLog => "console.log"
  | inspectExpanded => "inspect.expanded"
  | strictEqual => "==="
  | strictNotEqual => "!=="
  | and => "&&"
  | or => "||"
  | lessOrEqual => "<="
  | greaterOrEqual => ">="
  | arrow => "=>"
  | assign => "="
  | not => "!"
  | minus => "-"
  | plus => "+"
  | asterisk => "*"
  | slash => "/"
  | percent => "%"
  | less => "<"
  | greater => ">"
  | question => "?"
  | colon => ":"
  | leftParen => "("
  | rightParen => ")"
  | semicolon => ";"

/-- The symbols that are read off the front of a text as they stand, in the order in which they are
tried: no symbol comes after one that it starts with. -/
def literal : List Symbol :=
  [strictEqual, strictNotEqual,
    and, or, lessOrEqual, greaterOrEqual, arrow,
    consoleLog, inspectExpanded,
    assign, leftParen, rightParen, not, minus, plus, asterisk, slash, percent, question, colon,
    semicolon, less, greater]

/-- The symbols that have the form of a name. -/
def reserved : List Symbol :=
  [let_, true_, false_]

end Symbol

/-- What a token is, apart from where it stands. -/
inductive TokenKind where
  /-- A numeral, by its value. -/
  | number (value : Float)
  /-- A quoted text, by what it stands for. -/
  | string (value : String)
  /-- A name. -/
  | identifier (name : String)
  /-- A fixed symbol. -/
  | symbol (symbol : Symbol)
  /-- The end of the input. -/
  | eof
deriving DecidableEq, Repr

/-- A token and the place of its first character. -/
structure Token where
  /-- What the token is. -/
  kind : TokenKind
  /-- Where it starts. -/
  location : Location
deriving DecidableEq, Repr

/-- How a token is called in a message about unexpected input. -/
def TokenKind.describe : TokenKind → String
  | .number value => "number " ++ Number.display value
  | .string _ => "string literal"
  | .identifier name => "identifier '" ++ name ++ "'"
  | .symbol s => "'" ++ s.text ++ "'"
  | .eof => "end of input"

end CallByNeed
