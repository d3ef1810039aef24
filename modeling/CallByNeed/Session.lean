import CallByNeed.Failure

/-!
# Sessions

A session runs one text after the other in one environment, so that the names bound by one text can
be used in the next. A text that fails leaves what it bound before.
-/

namespace CallByNeed

/-- What running a text gave. -/
structure Answer where
  /-- What was output, in order. -/
  outputs : List Object
  /-- Why the run ended early, if it did. -/
  failure : Option Failure
deriving DecidableEq, Repr

/-- What was printed: each output on a line of its own. -/
def Answer.printed (a : Answer) : String :=
  String.join (a.outputs.map fun o => o.content.display ++ "\n")

/-- Runs a program in an environment. If it fails, its text is taken to be what the error is
about. -/
def Program.run (limits : Limits) (env : Env) (p : Program) (σ : Store) : Answer × Store :=
  let outcome := execute limits.force env p.statements σ
  (⟨outcome.outputs, outcome.stop.map (.ofStop (some p.source))⟩, outcome.store)

/-- Reads a text, the one with the given number in its session, and runs it in an environment. -/
def runText (limits : Limits) (env : Env) (text : Nat) (source : String) (σ : Store) :
    Answer × Store :=
  match parse text source with
  | .error e => (⟨[], some (.ofRead (some source) e)⟩, σ)
  | .ok p => p.run limits env σ

/-- The state of a session. -/
structure Session where
  /-- All that was bound and evaluated. -/
  store : Store
  /-- How many texts were read. -/
  texts : Nat
  /-- How far evaluation may go. -/
  limits : Limits
deriving DecidableEq, Repr

namespace Session

/-- A session before its first text. -/
def start (limits : Limits) : Session :=
  ⟨.empty, 0, limits⟩

/-- Runs a text. -/
def add (s : Session) (source : String) : Answer × Session :=
  let (answer, store) := runText s.limits .global s.texts source s.store
  (answer, { s with store := store, texts := s.texts + 1 })

end Session

end CallByNeed
