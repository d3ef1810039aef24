import CallByNeed.CommandLine.Arguments
import CallByNeed.CommandLine.Folder
import CallByNeed.Shell

/-!
# The command line

What the command does with its arguments, given how files are read and what stands on its input.
With the name of a file it runs that file and exits at the first error; without one it runs the
shell.
-/

namespace CallByNeed.CommandLine

/-- How the command ends. -/
inductive Ending where
  /-- By exiting with a code, zero if all went well. -/
  | exit (code : Int)
  /-- With a fault. -/
  | raised (fault : Fault)
  /-- Because the limit on nesting is exceeded before anything runs. -/
  | tooDeep
deriving DecidableEq, Repr

/-- All that the command prints, and how it ends. -/
structure Transcript where
  /-- What goes to the standard output. -/
  output : String
  /-- What goes to the standard error output. -/
  error : String
  /-- How the command ends. -/
  ending : Ending
deriving DecidableEq, Repr

/-- How the command is used, in one line. -/
def usage : String :=
  "usage: skoobert [-h] [--recursion-limit RECURSION_LIMIT] [file]\n"

/-- What the command prints when asked for help. -/
def helpText : String :=
  usage ++
    "\nLazy, single-assignment lambda calculus interpreter\n" ++
    "\npositional arguments:\n" ++
    "  file                  file to interpret and run (if empty, goes to command-\n" ++
    "                        line mode)\n" ++
    "\noptions:\n" ++
    "  -h, --help            show this help message and exit\n" ++
    "  --recursion-limit RECURSION_LIMIT\n" ++
    "                        maximum Python recursion depth (default: 10000)\n"

/-- Why a file could not be read, in the words of the system. -/
def OpenFailure.reason : OpenFailure → String
  | missing => "No such file or directory"
  | isFolder => "Is a directory"
  | notFolder => "Not a directory"
  | tooLong => "File name too long"
  | nullByte => "Invalid argument"
  | other reason => reason

/-- The text of a file, given what reading it gave. The name of the shell's input is not that of a
file. -/
def load (path : String) (content : Except OpenFailure (List UInt8)) : Except Failure String :=
  if path = Shell.inputName then
    .error (.diagnosed (.plain .general ("'" ++ Shell.inputName ++ "' is a reserved filename")))
  else
    match content with
    | .error .nullByte => .error (.fault .nullByte)
    | .error e =>
      .error (.diagnosed
        (.plain .general ("'" ++ path ++ "' could not be opened: " ++ e.reason)))
    | .ok bytes =>
      match Utf8.decode bytes with
      | .error p => .error (.fault (.undecodable p))
      | .ok cs => .ok (String.ofList (Text.unifyNewlines cs))

/-- Runs a file, given what reading it gave. -/
def runFile (limits : Limits) (colour : Bool) (path : String)
    (content : Except OpenFailure (List UInt8)) : Transcript :=
  let answer : Answer :=
    match load path content with
    | .error failure => ⟨[], some failure⟩
    | .ok source => ((Session.start limits).add source).1
  let report := (Reporter.mk path true colour).handle answer.failure
  let ending :=
    match report.leaving with
    | .normal => .exit 0
    | .exit code => .exit code
    | .raised f => .raised f
  ⟨answer.printed ++ report.printed, "", ending⟩

/-- Runs the shell on all lines of its input. A fault that ends it is reported again on the way
out. -/
def runShell (limits : Limits) (colour : Bool) (lines : List String) : Transcript :=
  let shell := Shell.start limits colour
  let (printed, fault) := shell.converse lines
  match fault with
  | none => ⟨Shell.intro ++ printed, "", .exit 0⟩
  | some f =>
    let report := shell.reporter.handle (some (.fault f))
    ⟨Shell.intro ++ printed ++ report.printed, "", .raised f⟩

/-- What the command is to do, once its arguments are read. -/
inductive Task where
  /-- Nothing more than to print something and end. -/
  | finish (transcript : Transcript)
  /-- To run a file. -/
  | file (path : String) (limits : Limits)
  /-- To run the shell. -/
  | shell (limits : Limits)
deriving DecidableEq, Repr

/-- The greatest limit on nesting. -/
def greatestLimit : Int := 2147483647

/-- How many nested calls are in progress when the limit on nesting is set, at least. -/
def callsInProgress : Int := 4

/-- What the arguments ask the command to do. -/
def plan (args : List String) : Task :=
  match parseArguments args with
  | .error complaint =>
    .finish ⟨"", usage ++ "skoobert: error: " ++ complaint ++ "\n", .exit 2⟩
  | .ok .help => .finish ⟨helpText, "", .exit 0⟩
  | .ok (.run file limit) =>
    if greatestLimit < limit ∨ limit < -greatestLimit - 1 then .finish ⟨"", "", .raised .hugeDepth⟩
    else if limit < 1 then .finish ⟨"", "", .raised .noDepth⟩
    else if limit ≤ callsInProgress then .finish ⟨"", "", .tooDeep⟩
    else
      match file with
      | some path => .file path (.ofCalls limit.toNat)
      | none => .shell (.ofCalls limit.toNat)

/-- The lines of an input; what follows the last line feed is a line only if it is not empty. -/
def inputLines (input : String) : List String :=
  let lines := Text.lines input
  if lines.getLast? = some "" then lines.dropLast else lines

/-- What the command does in a folder, with the given arguments and input. -/
def run (colour : Bool) (folder : Folder) (args : List String) (input : String) : Transcript :=
  match plan args with
  | .finish transcript => transcript
  | .file path limits => runFile limits colour path (folder.read path)
  | .shell limits => runShell limits colour (inputLines input)

end CallByNeed.CommandLine
