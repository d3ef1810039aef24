import CallByNeed.Failure

/-!
# Reporting failures

A `Reporter` prints failures for the user of a command line. Errors of the language are printed with
an excerpt of the text; faults are printed as internal errors and passed on. A fatal reporter exits
after printing.
-/

namespace CallByNeed

/-- How failures are printed. -/
structure Reporter where
  /-- The name of the input, which starts each report. -/
  path : String
  /-- Whether a report is followed by exiting. -/
  fatal : Bool
  /-- Whether reports are coloured. -/
  colour : Bool
deriving DecidableEq, Repr

/-- How a piece of work is left after its failure has been dealt with. -/
inductive Leaving where
  /-- As if nothing had happened. -/
  | normal
  /-- By exiting. -/
  | exit (code : Int)
  /-- With a fault that is passed on. -/
  | raised (fault : Fault)
deriving DecidableEq, Repr

/-- What was printed about a failure, and how the work is left. -/
structure Report where
  /-- The text that was printed. -/
  printed : String
  /-- How the work is left. -/
  leaving : Leaving
deriving DecidableEq, Repr

namespace Reporter

/-- The text of a report. Internal errors are marked, and have no excerpt. -/
def message (r : Reporter) (internal : Bool) (d : Diagnostic) : String :=
  let origin :=
    match d.location with
    | some l => r.path ++ ":" ++ l.toText ++ ": "
    | none => r.path ++ ": "
  let mark := if internal then Style.alarm.paint r.colour "[internal] " else ""
  let excerpt :=
    match internal, d.excerpt r.colour with
    | false, some text => text ++ "\n"
    | _, _ => ""
  Style.bold.paint r.colour origin ++ mark ++ Style.alarm.paint r.colour (d.kind.text ++ ": ") ++
    d.message ++ "\n" ++ excerpt

/-- Prints a diagnostic, and exits if the reporter is fatal. -/
def throw (r : Reporter) (internal : Bool) (d : Diagnostic) : Report :=
  ⟨r.message internal d, if r.fatal then .exit 1 else .normal⟩

/-- Deals with the failure that a piece of work ended with, if any. -/
def handle (r : Reporter) : Option Failure → Report
  | none => ⟨"", .normal⟩
  | some (.diagnosed d) => r.throw false d
  | some .tooDeep =>
    r.throw false
      (.plain .runtime "maximum recursion depth exceeded (try a higher --recursion-limit)")
  | some .interrupted => r.throw false (.plain .general "keyboard interrupt")
  | some (.exit code) => ⟨"", .exit code⟩
  | some (.fault f) =>
    let report :=
      r.throw true (.plain .general ("unknown error: '" ++ f.name ++ ": " ++ f.message ++ "'"))
    match report.leaving with
    | .normal => { report with leaving := .raised f }
    | _ => report

end Reporter

end CallByNeed
