import CallByNeed.Diagnostic
import CallByNeed.Execution
import CallByNeed.Program.Parser
import CallByNeed.Text.Utf8

/-!
# Failures

Whatever can end a piece of work early: an error of the language, which is a `Diagnostic`;
evaluation that goes too deep; an interruption; a request to exit; or a fault, which is nobody's
error but the program's own.
-/

namespace CallByNeed

/-- A fault of the program itself. -/
inductive Fault where
  /-- A remainder does not exist. -/
  | domain
  /-- The result of a thunk was to be kept twice. -/
  | refilled
  /-- Tokens have no end. -/
  | endless
  /-- A limit on nesting allows nothing. -/
  | noDepth
  /-- A limit on nesting is out of range. -/
  | hugeDepth
  /-- No file can have the given name. -/
  | nullByte
  /-- A file holds no text. -/
  | undecodable (problem : Utf8.Problem)
  /-- Something is asked for what it does not have. -/
  | lacks (owner feature : String)
  /-- Nothing was put at a place. -/
  | noPlace (place : String)
  /-- Any other fault, by the name of its sort and a message. -/
  | other (name message : String)
deriving DecidableEq, Repr

namespace Fault

/-- What sort of fault it is. -/
def name : Fault → String
  | domain | endless | noDepth | nullByte => "ValueError"
  | refilled => "AssertionError"
  | hugeDepth => "OverflowError"
  | undecodable _ => "UnicodeDecodeError"
  | lacks _ _ => "AttributeError"
  | noPlace _ => "KeyError"
  | other name _ => name

/-- What went wrong. -/
def message : Fault → String
  | domain => "math domain error"
  | refilled => "thunk memo cell is single-assignment"
  | endless => "token list must be terminated by an EOF token"
  | noDepth => "recursion limit must be greater or equal than 1"
  | hugeDepth => "Python int too large to convert to C int"
  | nullByte => "embedded null byte"
  | undecodable problem => problem.message
  | lacks owner feature => "'" ++ owner ++ "' object has no attribute '" ++ feature ++ "'"
  | noPlace place => Text.quoted place
  | other _ message => message

/-- The kind of an absent value is asked for. -/
def unnamed : Fault :=
  lacks "NoneType" "type_name"

/-- What an absent value holds is asked for. -/
def incomparable : Fault :=
  lacks "NoneType" "value"

end Fault

/-- Why a piece of work ended early. -/
inductive Failure where
  /-- An error of the language. -/
  | diagnosed (diagnostic : Diagnostic)
  /-- Evaluation did not end within its limits. -/
  | tooDeep
  /-- The user interrupted the work. -/
  | interrupted
  /-- The work asked to exit. -/
  | exit (code : Int)
  /-- The program itself is at fault. -/
  | fault (fault : Fault)
deriving DecidableEq, Repr

namespace Failure

/-- A failure to read a text. -/
def ofRead (source : Option String) : ReadFailure → Failure
  | .lex e => .diagnosed ⟨.lex, e.cause.message, some e.location, source⟩
  | .parse (.misplaced e) => .diagnosed ⟨.parse, e.message, some e.found.location, source⟩
  | .parse .endless => .fault .endless

/-- A failure of evaluation while the given text was run. -/
def ofStop (source : Option String) : Stop → Failure
  | .error e => .diagnosed ⟨.runtime, e.cause.message, e.place, source⟩
  | .domain => .fault .domain
  | .unnamed => .fault .unnamed
  | .incomparable => .fault .incomparable
  | .refilled => .fault .refilled
  | .tooDeep | .outOfFuel => .tooDeep

end Failure

end CallByNeed
