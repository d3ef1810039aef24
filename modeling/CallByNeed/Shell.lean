import CallByNeed.Report
import CallByNeed.Session

/-!
# The interactive shell

The shell takes one line at a time. A line that is no command is part of a program; it is kept until
the lines so far end with a semicolon, and is then run in the shell's session.
-/

namespace CallByNeed

/-- What a line asks the shell to do. -/
inductive Command where
  /-- Nothing: the line is blank. -/
  | blank
  /-- To show the introduction. -/
  | help
  /-- To leave. -/
  | exit
  /-- To leave since the input has ended. -/
  | endOfInput
  /-- To go on with a program. -/
  | source (line : String)
deriving DecidableEq, Repr

namespace Command

/-- Whether the character can be part of the name of a command. -/
def isNameChar (c : Char) : Bool :=
  c.isAlphanum || c == '_'

/-- What a line asks for. White space at its ends does not count. A line that starts with a question
mark asks for help, and one that starts with the name of a command asks for that, whatever follows
the name. -/
def parse (line : String) : Command :=
  let line := Text.strip line
  match line.toList with
  | [] => blank
  | '?' :: _ => help
  | cs =>
    match String.ofList (cs.takeWhile isNameChar) with
    | "help" => help
    | "exit" => exit
    | "EOF" => endOfInput
    | _ => source line

end Command

/-- The two prompts. -/
inductive Prompt where
  /-- A new program may start. -/
  | primary
  /-- A program is to be continued. -/
  | secondary
deriving DecidableEq, Repr

/-- The text of a prompt. -/
def Prompt.text : Prompt → String
  | primary => "> "
  | secondary => ". "

/-- The state of the shell. -/
structure Shell where
  /-- The session that programs are run in. -/
  session : Session
  /-- The lines of the program that is not complete yet. -/
  pending : String
  /-- The prompt for the next line. -/
  prompt : Prompt
  /-- Whether reports are coloured. -/
  colour : Bool
deriving DecidableEq, Repr

/-- What the shell does after a line. -/
inductive Shell.Verdict where
  /-- It takes the next one. -/
  | goOn
  /-- It is left. -/
  | leave
  /-- It is ended by a fault. -/
  | raised (fault : Fault)
deriving DecidableEq, Repr

/-- What came of a line. -/
structure Shell.Reply where
  /-- What the shell printed. -/
  printed : String
  /-- What was printed about a failure. -/
  reported : String
  /-- What the shell does next. -/
  verdict : Shell.Verdict
deriving DecidableEq, Repr

namespace Shell

/-- The name that the shell's input goes by in reports. -/
def inputName : String := "<in>"

/-- What the shell prints first. -/
def intro : String :=
  "Skoobert: a lazy lambda calculus in JavaScript clothing\n" ++
    "Type '?' or 'help' for more information.\n"

/-- What the shell prints when asked for help. -/
def helpText : String :=
  "Welcome to the skoobert interpreter!\n\n" ++
    "Skoobert is a lazily evaluated, single-assignment subset of JavaScript expressions. There\n" ++
    "are no loops and no mutation: everything is done with one-parameter arrow functions.\n\n" ++
    "Try it out by typing 'let K = x => y => x;'. This will bind K to a function. Next, try\n" ++
    "typing 'console.log(K(42)(1 / 0));'. The second argument is never evaluated, so the\n" ++
    "result is 42. 'inspect.expanded(K(1));' shows a binding with its names expanded.\n"

/-- The shell before its first line. -/
def start (limits : Limits) (colour : Bool) : Shell :=
  ⟨.start limits, "", .primary, colour⟩

/-- How the shell reports failures. -/
def reporter (shell : Shell) : Reporter :=
  ⟨inputName, false, shell.colour⟩

/-- Whether a text is ready to be run: it ends with a semicolon, or it cannot be cut into tokens, so
that the error is reported at once. -/
def isComplete (source : String) : Bool :=
  match tokenize 0 source with
  | .error _ => true
  | .ok ts => ts.dropLast.getLast?.map Token.kind = some (.symbol .semicolon)

/-- Runs a complete text and reports its failure. -/
def run (shell : Shell) (source : String) : Reply × Shell :=
  let (answer, session) := shell.session.add source
  let report := shell.reporter.handle answer.failure
  let verdict :=
    match report.leaving with
    | .raised f => .raised f
    | _ => .goOn
  (⟨answer.printed, report.printed, verdict⟩, { shell with session := session })

/-- Adds a line to the program that is not complete yet, and runs it if now it is. -/
def addLine (shell : Shell) (line : String) : Reply × Shell :=
  let source := if shell.pending = "" then line else shell.pending ++ "\n" ++ line
  if isComplete source then
    { shell with pending := "", prompt := .primary }.run source
  else
    (⟨"", "", .goOn⟩, { shell with pending := source, prompt := .secondary })

/-- Does what a line asks for. -/
def handle (shell : Shell) (line : String) : Reply × Shell :=
  match Command.parse line with
  | .blank => (⟨"", "", .goOn⟩, shell)
  | .help => (⟨helpText, "", .goOn⟩, shell)
  | .exit => (⟨"", "", .leave⟩, shell)
  | .endOfInput => (⟨"\n", "", .leave⟩, shell)
  | .source line => shell.addLine line

/-- What the shell prints from its first prompt on, given all lines of its input, and the fault that
ended it, if one did. At the end of the input the shell is left. -/
def converse (shell : Shell) : List String → String × Option Fault
  | [] => (shell.prompt.text ++ (shell.handle "EOF").1.printed, none)
  | line :: lines =>
    let (reply, shell') := shell.handle line
    let printed := shell.prompt.text ++ reply.printed ++ reply.reported
    match reply.verdict with
    | .raised f => (printed, some f)
    | .leave => (printed, none)
    | .goOn =>
      let (rest, fault) := shell'.converse lines
      (printed ++ rest, fault)

end Shell

end CallByNeed
