import CallByNeed.Location
import CallByNeed.Text.Lines

/-!
# Diagnostics

A diagnostic is what a person is told about an error: its kind, a message, and if known the place
and the text it is about. `Diagnostic.excerpt` shows the line with a caret under the place.
-/

namespace CallByNeed

/-- What sort of error it is. -/
inductive ErrorKind where
  /-- None of the others. -/
  | general
  /-- The text is not made of tokens. -/
  | lex
  /-- The tokens do not form a program. -/
  | parse
  /-- The program fails when it runs. -/
  | runtime
deriving DecidableEq, Repr

/-- How a kind of error is called. -/
def ErrorKind.text : ErrorKind → String
  | general => "error"
  | lex => "lex error"
  | parse => "parse error"
  | runtime => "runtime error"

/-- How a piece of text is set off. -/
inductive Style where
  /-- In bold. -/
  | bold
  /-- In bold and red. -/
  | alarm
deriving DecidableEq, Repr

/-- A text set off for a terminal, if colour is on. -/
def Style.paint (colour : Bool) (style : Style) (text : String) : String :=
  if colour then
    match style with
    | bold => "\x1b[1m" ++ text ++ "\x1b[0m"
    | alarm => "\x1b[1m\x1b[31m" ++ text ++ "\x1b[0m"
  else text

/-- What a person is told about an error. -/
structure Diagnostic where
  /-- What sort of error it is. -/
  kind : ErrorKind
  /-- What is wrong. -/
  message : String
  /-- Where, if that is known. -/
  location : Option Location
  /-- The text that the place is in, if that is known. -/
  source : Option String
deriving DecidableEq, Repr

namespace Diagnostic

/-- A diagnostic about no particular text. -/
def plain (kind : ErrorKind) (message : String) : Diagnostic :=
  ⟨kind, message, none, none⟩

/-- Says which text the diagnostic is about, unless that has been said. -/
def attach (d : Diagnostic) (source : String) : Diagnostic :=
  { d with source := some (d.source.getD source) }

/-- The diagnostic in one line, without the text it is about. -/
def toText (d : Diagnostic) : String :=
  match d.location with
  | none => d.kind.text ++ ": " ++ d.message
  | some l =>
    d.kind.text ++ " at line " ++ l.line.repr ++ ", column " ++ l.column.repr ++ ": " ++ d.message

/-- The line of the text that the place is in, empty if the text has no such line. -/
def sourceLine (d : Diagnostic) : Option String :=
  match d.source, d.location with
  | some source, some l =>
    if 0 < l.line then some ((Text.lines source).getD (l.line - 1).toNat "") else some ""
  | _, _ => none

/-- The line that the place is in, and below it a caret under the place. -/
def excerpt (colour : Bool) (d : Diagnostic) : Option String :=
  match d.sourceLine, d.location with
  | some line, some l =>
    let gutter := "  " ++ l.line.repr ++ " | "
    let margin := String.ofList (List.replicate (gutter.length - 2) ' ') ++ "| "
    let indent := String.ofList (List.replicate (l.column - 1).toNat ' ')
    some (gutter ++ line ++ "\n" ++ margin ++ indent ++ Style.alarm.paint colour "^")
  | _, _ => none

end Diagnostic

end CallByNeed
