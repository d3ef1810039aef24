import CallByNeed.CommandLine

/-!
# The program

Runs the command line on the real file system and terminal.
-/

namespace CallByNeed

/-- Why a file could not be read. -/
def openFailure : IO.Error → CommandLine.OpenFailure
  | .noFileOrDirectory _ _ _ => .missing
  | .inappropriateType _ _ _ => .isFolder
  | e => .other e.toString

/-- The bytes of a file. -/
def readBytes (path : String) : IO (Except CommandLine.OpenFailure (List UInt8)) := do
  if path.toList.contains '\x00' then return .error .nullByte
  try
    let bytes ← IO.FS.readBinFile path
    return .ok bytes.toList
  catch e => return .error (openFailure e)

/-- Whether output is to be coloured: if the environment says so, or else if it goes to a
terminal. -/
def wantsColour : IO Bool := do
  if (← IO.getEnv "NO_COLOR").isSome || (← IO.getEnv "ANSI_COLORS_DISABLED").isSome then
    return false
  if (← IO.getEnv "FORCE_COLOR").isSome then return true
  if (← IO.getEnv "TERM") == some "dumb" then return false
  (← IO.getStdout).isTty

/-- Ends the process with a code. -/
def finish (ending : CommandLine.Ending) : IO UInt32 := do
  match ending with
  | .exit code => return UInt32.ofNat code.toNat
  | .raised fault =>
    (← IO.getStderr).putStrLn (fault.name ++ ": " ++ fault.message)
    return 1
  | .tooDeep =>
    (← IO.getStderr).putStrLn "the recursion limit is too low"
    return 1

/-- Prints a transcript and ends. -/
def printTranscript (t : CommandLine.Transcript) : IO UInt32 := do
  IO.print t.output
  (← IO.getStderr).putStr t.error
  finish t.ending

/-- Takes lines from the terminal until the shell is left. -/
partial def interact (shell : Shell) : IO UInt32 := do
  IO.print shell.prompt.text
  (← IO.getStdout).flush
  let line ← (← IO.getStdin).getLine
  let (reply, shell') := shell.handle (if line.isEmpty then "EOF" else line)
  IO.print (reply.printed ++ reply.reported)
  match reply.verdict with
  | .leave => return 0
  | .goOn => interact shell'
  | .raised fault =>
    IO.print (shell.reporter.handle (some (.fault fault))).printed
    finish (.raised fault)

end CallByNeed

open CallByNeed in
/-- Runs the command with the arguments of the process. -/
def main (args : List String) : IO UInt32 := do
  let colour ← wantsColour
  match CommandLine.plan args with
  | .finish transcript => printTranscript transcript
  | .file path limits =>
    printTranscript (CommandLine.runFile limits colour path (← readBytes path))
  | .shell limits => do
    IO.print Shell.intro
    interact (.start limits colour)
