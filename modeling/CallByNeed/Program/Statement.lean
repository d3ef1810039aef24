import CallByNeed.Program.Printer

/-!
# Statements and programs

A statement binds a name or outputs something, and a program is a list of statements together with
the text it was read from.
-/

namespace CallByNeed

/-- What an output statement outputs. -/
inductive Output where
  /-- The value of the expression. -/
  | value
  /-- The expression itself, with names replaced by what they stand for. -/
  | expansion
deriving DecidableEq, Repr

/-- The word that opens an output statement. -/
def Output.keyword : Output → String
  | value => "console.log"
  | expansion => "inspect.expanded"

/-- A statement, with the place it was read from. -/
inductive Statement where
  /-- Binds a name to an expression. -/
  | declare (name : String) (expr : Expr) (place : Option Location)
  /-- Outputs the value or the expansion of an expression. -/
  | output (output : Output) (expr : Expr) (place : Option Location)
deriving DecidableEq, Repr

namespace Statement

/-- A statement as a program has it. -/
def render : Statement → String
  | declare x e _ => "let " ++ x ++ " = " ++ e.render ++ ";"
  | output o e _ => o.keyword ++ "(" ++ e.render ++ ");"

/-- Whether two statements are the same apart from the places they were read from. -/
def alike : Statement → Statement → Bool
  | declare x e _, declare y f _ => x == y && e.alike f
  | output o e _, output p f _ => o == p && e.alike f
  | _, _ => false

end Statement

/-- A program and the text it was read from, empty if there is none. -/
structure Program where
  /-- The statements in order. -/
  statements : List Statement
  /-- The text. -/
  source : String
deriving DecidableEq, Repr

namespace Program

/-- A program with one statement on each line. -/
def render (p : Program) : String :=
  "\n".intercalate (p.statements.map Statement.render)

/-- Whether two programs have the same statements apart from the places they were read from. -/
def alike (p q : Program) : Bool :=
  go p.statements q.statements
where
  /-- The statements pair by pair. -/
  go : List Statement → List Statement → Bool
    | [], [] => true
    | s :: ss, t :: ts => s.alike t && go ss ts
    | _, _ => false

end Program

end CallByNeed
