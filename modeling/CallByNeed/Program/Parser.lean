import CallByNeed.Program.Reading
import CallByNeed.Token.Lexer

/-!
# Reading programs

`parseTokens` reads a list of tokens as a program, one token at a time. The reader is always in one
`Phase`, which says what of the current statement has been read; the first token that cannot stand
in its phase is the error.
-/

namespace CallByNeed

/-- A token that cannot stand where it does. -/
structure ParseError where
  /-- What could have stood there. -/
  expectation : Expectation
  /-- The token that does. -/
  found : Token
deriving DecidableEq, Repr

/-- The message for the error. -/
def ParseError.message (e : ParseError) : String :=
  e.expectation.text ++ ", got " ++ e.found.kind.describe

/-- Why a list of tokens is not read. -/
inductive ParseFailure where
  /-- A token cannot stand where it does. -/
  | misplaced (error : ParseError)
  /-- The list does not end with the end of the input. -/
  | endless
deriving DecidableEq, Repr

/-- What an expression is read for. -/
inductive Goal where
  /-- To bind a name to it. -/
  | declare (name : String)
  /-- To output it. -/
  | output (output : Output)
deriving DecidableEq, Repr

/-- What has been read of the current statement, which starts at `place`. -/
inductive Phase where
  /-- Nothing. -/
  | between
  /-- The word that opens a declaration. -/
  | letWord (place : Option Location)
  /-- That and the name. -/
  | letName (name : String) (place : Option Location)
  /-- The word that opens an output statement. -/
  | outputWord (output : Output) (place : Option Location)
  /-- All before the expression, and a part of it. -/
  | within (goal : Goal) (place : Option Location) (reading : Reading)
  /-- An output statement up to its closing parenthesis. -/
  | outputClosed (output : Output) (expr : Expr) (place : Option Location)
deriving DecidableEq, Repr

namespace Phase

/-- The phase after a token, and the statement that the token completed. -/
def step (phase : Phase) (t : Token) : Except ParseError (Phase × Option Statement) :=
  let refuse (x : Expectation) : Except ParseError (Phase × Option Statement) := .error ⟨x, t⟩
  match phase with
  | between =>
    match t.kind with
    | .symbol .let_ => .ok (letWord (some t.location), none)
    | .symbol .consoleLog => .ok (outputWord .value (some t.location), none)
    | .symbol .inspectExpanded => .ok (outputWord .expansion (some t.location), none)
    | _ => refuse .statement
  | letWord place =>
    match t.kind with
    | .identifier x => .ok (letName x place, none)
    | _ => refuse .declaredName
  | letName x place =>
    if t.kind = .symbol .assign then .ok (within (.declare x) place .start, none)
    else refuse .assign
  | outputWord o place =>
    if t.kind = .symbol .leftParen then .ok (within (.output o) place .start, none)
    else refuse (.outputOpen o)
  | within goal place reading =>
    match reading.feed t with
    | .next reading => .ok (within goal place reading, none)
    | .stuck x => refuse x
    | .done e =>
      match goal with
      | .declare x =>
        if t.kind = .symbol .semicolon then .ok (between, some (.declare x e place))
        else refuse .declarationEnd
      | .output o =>
        if t.kind = .symbol .rightParen then .ok (outputClosed o e place, none)
        else refuse (.outputClose o)
  | outputClosed o e place =>
    if t.kind = .symbol .semicolon then .ok (between, some (.output o e place))
    else refuse .outputEnd

end Phase

/-- The statements of a list of tokens up to the first end of the input. -/
def parseFrom (phase : Phase) : List Token → Except ParseFailure (List Statement)
  | [] => .error .endless
  | t :: ts =>
    if phase = .between ∧ t.kind = .eof then .ok []
    else
      match phase.step t with
      | .error e => .error (.misplaced e)
      | .ok (phase, completed) =>
        match parseFrom phase ts with
        | .error e => .error e
        | .ok statements => .ok (completed.toList ++ statements)

/-- Reads tokens as a program. The last token must mark the end of the input; what follows an
earlier such token is not looked at. -/
def parseTokens (ts : List Token) : Except ParseFailure (List Statement) :=
  if ts.getLast?.map Token.kind = some .eof then parseFrom .between ts
  else .error .endless

/-- The first expression of a list of tokens; what follows it is not looked at. -/
def parseExprFrom (reading : Reading) : List Token → Except ParseFailure Expr
  | [] => .error .endless
  | t :: ts =>
    match reading.feed t with
    | .next reading => parseExprFrom reading ts
    | .done e => .ok e
    | .stuck x => .error (.misplaced ⟨x, t⟩)

/-- Why a text is not read. -/
inductive ReadFailure where
  /-- It cannot be cut into tokens. -/
  | lex (error : LexError)
  /-- Its tokens are not those of a program. -/
  | parse (failure : ParseFailure)
deriving DecidableEq, Repr

/-- Reads a text, the one with the given number in its session, as a program. -/
def parse (text : Nat) (source : String) : Except ReadFailure Program :=
  match tokenize text source with
  | .error e => .error (.lex e)
  | .ok ts =>
    match parseTokens ts with
    | .error e => .error (.parse e)
    | .ok statements => .ok ⟨statements, source⟩

/-- Reads the first expression of a text. All of the text must consist of tokens. -/
def parseExpr (text : Nat) (source : String) : Except ReadFailure Expr :=
  match tokenize text source with
  | .error e => .error (.lex e)
  | .ok ts =>
    match parseExprFrom .start ts with
    | .error e => .error (.parse e)
    | .ok e => .ok e

end CallByNeed
