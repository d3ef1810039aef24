import CallByNeed.Text.Integer
import CallByNeed.Text.Quoted

/-!
# Arguments of the command line

The command takes the name of a file, which may be left out, an option with a number and an option
that asks for help. The long options may be cut short as long as they can be told apart, and after
two dashes everything is the name of a file.
-/

namespace CallByNeed.CommandLine

/-- The options of the command. -/
inductive Flag where
  /-- Asks for help. -/
  | help
  /-- Limits how deeply evaluation may nest. -/
  | limit
deriving DecidableEq, Repr

/-- The ways to write the options, in the order in which they are listed. -/
def spellings : List (String × Flag) :=
  [("-h", .help), ("--help", .help), ("--recursion-limit", .limit)]

/-- How an option is called in a message. -/
def Flag.title : Flag → String
  | help => "-h/--help"
  | limit => "--recursion-limit"

/-- Whether an option is written short, that is, with one dash. -/
def isShort (spelling : String) : Bool :=
  !"--".toList.isPrefixOf spelling.toList

/-- An argument, by the part it can play. -/
inductive Piece where
  /-- Something that is no option. -/
  | plain (text : String)
  /-- Two dashes, after which there are no options. -/
  | dashes
  /-- An option, whether it is written short, and the value that is attached to it. -/
  | option (flag : Flag) (short : Bool) (value : Option String)
  /-- Something that looks like an option and is none. -/
  | unknown (text : String)
deriving DecidableEq, Repr

/-- A message about wrong arguments. -/
abbrev Complaint := String

/-- A text cut at its first equals sign, if it has one. -/
def cutAtEquals (s : String) : String × Option String :=
  let before := s.toList.takeWhile (· != '=')
  match s.toList.drop before.length with
  | [] => (s, none)
  | _ :: after => (String.ofList before, some (String.ofList after))

/-- Whether a text is a negative number, which is no option. -/
def isNegative (s : String) : Bool :=
  let isDigit := fun c => (Text.digit? c).isSome
  match s.toList with
  | '-' :: cs =>
    let cs := if cs.getLast? = some '\n' then cs.dropLast else cs
    let fraction := (cs.dropWhile isDigit).drop 1
    (!cs.isEmpty && cs.all isDigit) ||
      ((cs.dropWhile isDigit).head? == some '.' && !fraction.isEmpty && fraction.all isDigit)
  | _ => false

/-- The options that an argument starting with a dash may stand for, and the value attached to them.
A long option may be cut short, and its value follows an equals sign. All that follows a short
option is its value. -/
def candidates (s : String) : List ((String × Flag) × Option String) :=
  if isShort s then
    (spellings.filter fun p => p.1.toList = s.toList.take 2).map fun p =>
      (p, some (String.ofList (s.toList.drop 2)))
  else
    let (name, value) := cutAtEquals s
    (spellings.filter fun p => name.toList.isPrefixOf p.1.toList).map fun p => (p, value)

/-- Tells which part an argument before any two dashes can play. -/
def classify (s : String) : Except Complaint Piece :=
  if s.toList.head? ≠ some '-' ∨ s = "-" then .ok (.plain s)
  else
    let (name, value) := cutAtEquals s
    match spellings.lookup name with
    | some flag => .ok (.option flag (isShort name) value)
    | none =>
      match candidates s with
      | [((spelling, flag), value)] => .ok (.option flag (isShort spelling) value)
      | [] => .ok (if isNegative s || s.toList.contains ' ' then .plain s else .unknown s)
      | several =>
        .error ("ambiguous option: " ++ s ++ " could match " ++
          ", ".intercalate (several.map fun c => c.1.1))

/-- Tells which parts all arguments can play. -/
def classifyAll : List String → Except Complaint (List Piece)
  | [] => .ok []
  | "--" :: rest => .ok (.dashes :: rest.map .plain)
  | s :: rest =>
    match classify s with
    | .error c => .error c
    | .ok piece => (classifyAll rest).map fun pieces => piece :: pieces

/-- What the arguments ask for. -/
inductive Request where
  /-- To print the help text. -/
  | help
  /-- To run a file, or the shell if there is none, with a limit on nesting. -/
  | run (file : Option String) (limit : Int)
deriving DecidableEq, Repr

/-- What has been gathered from the arguments so far. -/
structure Gathered where
  /-- The name of the file. -/
  file : Option String
  /-- Whether the argument before was the name of the file. -/
  justNamed : Bool
  /-- The limit on nesting. -/
  limit : Int
  /-- The arguments that nothing is known about, the last first. -/
  extras : List String
deriving DecidableEq, Repr

/-- What is left over of the value attached to the option for help, which takes none. If the option
is written short, it may be repeated there. -/
def leftOver? (short : Bool) (value : String) : Option String :=
  let rest := if short then value.toList.dropWhile (· == 'h') else value.toList
  if rest.isEmpty && !value.isEmpty then none else some (String.ofList rest)

/-- Sets the limit on nesting. -/
def Gathered.setLimit (g : Gathered) (value : String) : Except Complaint Gathered :=
  match Text.integer? value with
  | some n => .ok { g with limit := n, justNamed := false }
  | none =>
    .error ("argument " ++ Flag.limit.title ++ ": invalid int value: " ++ Text.quoted value)

/-- Goes through the arguments from left to right. -/
def gather (g : Gathered) : List Piece → Except Complaint Request
  | [] =>
    if g.extras.isEmpty then .ok (.run g.file g.limit)
    else .error ("unrecognized arguments: " ++ " ".intercalate g.extras.reverse)
  | .plain s :: rest =>
    match g.file with
    | none => gather { g with file := some s, justNamed := true } rest
    | some _ => gather { g with extras := s :: g.extras, justNamed := false } rest
  | .dashes :: rest =>
    if g.file.isNone || g.justNamed then gather { g with justNamed := false } rest
    else gather { g with extras := "--" :: g.extras } rest
  | .unknown s :: rest => gather { g with extras := s :: g.extras, justNamed := false } rest
  | .option .help short value :: _ =>
    match value.bind (leftOver? short) with
    | none => .ok .help
    | some stray =>
      .error ("argument " ++ Flag.help.title ++ ": ignored explicit argument " ++
        Text.quoted stray)
  | .option .limit _ (some value) :: rest =>
    match g.setLimit value with
    | .error c => .error c
    | .ok g => gather g rest
  | .option .limit _ none :: .plain value :: rest =>
    match g.setLimit value with
    | .error c => .error c
    | .ok g => gather g rest
  | .option .limit _ none :: _ =>
    .error ("argument " ++ Flag.limit.title ++ ": expected one argument")

/-- How many nested calls are allowed if nothing else is asked for. -/
def defaultLimit : Int := 10000

/-- Reads the arguments. -/
def parseArguments (args : List String) : Except Complaint Request :=
  match classifyAll args with
  | .error c => .error c
  | .ok pieces => gather ⟨none, false, defaultLimit, []⟩ pieces

end CallByNeed.CommandLine
